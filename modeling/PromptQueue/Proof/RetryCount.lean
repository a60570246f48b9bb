import PromptQueue.Proof.Replay
import PromptQueue.Proof.Snapshot

/-!
# The retry count

The failure handler writes the job first and the request after it, and what it writes
to the request is the count it read when the job was claimed, plus one. Between the two
writes the job is free for others, so a second handler can come in between with a copy
from before the first one's write, and one of the two is lost.

Below, a count that is right so far and a count that is too low. The first stays right as
long as handlers come one at a time with a copy nobody has counted past; the second stays
too low whatever happens.
-/

namespace PromptQueue

open Base World

/-- The run's next write settles a failed attempt: it buries the job, or gives it back. -/
def Run.settles (db : Db) (r : Run) : Bool :=
  match r.stage with
  | .markDead _ => true
  | .retryRelease _ => db.jobs.hits (ProcessingJob.OwnedBy r.job.id (PromptPipeline.workerId r))
  | _ => false

/-- A write of the retry count of a request. -/
def Entry.recounts (requestId : Nat) : Entry → Bool
  | .tx _ (.updateRetry q _ _ _ _) _ | .tx _ (.requestMarkFailed q _ _ _) _ => q = requestId
  | _ => false

/-- The retry count of a run's request was written after the run read it. -/
def Recounted (log : List Entry) (r : Run) : Prop :=
  ∃ x ∈ log.drop r.ticket, x.recounts r.req.id = true

namespace World

variable (w : World) (requestId : Nat)

/-- The step handles a failed attempt at the request. -/
def Handles (e : Event) : Prop :=
  e.writes = true ∧ ∃ r, w.runOf e = some r ∧ r.req.id = requestId ∧ r.settles w.db = true

/-- No failure handler of the request is between its two writes. -/
def AtRest : Prop :=
  ∀ s r, w.slots s = .running r → r.req.id = requestId → r.stage.halfHandled = false

/--
The step counts a failed attempt once: whoever handles one is alone with the request and
has its count as it is, and whoever has begun to is not stopped before he has counted it.
-/
structure CountsOnce (e : Event) : Prop where
  alone : w.Handles requestId e → w.AtRest requestId ∧ ∀ r ∈ w.runOf e, ¬ Recounted w.log r
  counts : e.breaks = true → ∀ r ∈ w.runOf e, r.req.id = requestId → r.stage.halfHandled = false

end World

instance (w : World) (requestId : Nat) : DecidablePred (w.Handles requestId) := fun e =>
  decidable_of_iff (e.writes = true ∧ (w.runOf e).any fun r =>
      r.req.id = requestId ∧ r.settles w.db = true)
    (by simp [World.Handles, Option.any_eq_true])

variable {S : Type} [LinearOrder S] (env : Env S)

/-- The failed attempts at a request that were handled. -/
def handled (requestId : Nat) (es : List Event) : Nat :=
  (machine env).tally (fun w e => if w.Handles requestId e then 1 else 0) World.init es

/-- All through a run the request has its failed attempts counted. -/
structure RetriesCounted (requestId : Nat) (es : List Event) : Prop where
  exact : ∀ fs gs u q, es = fs ++ gs → (machine env).run World.init fs = some u →
    u.AtRest requestId → q ∈ u.db.requests.rows → q.id = requestId →
    q.retryCount = handled env requestId fs
  grows : ∀ fs e gs u v q q', es = fs ++ e :: gs → (machine env).run World.init fs = some u →
    World.step env u e = some v → q ∈ u.db.requests.rows → q.id = requestId →
    q' ∈ v.db.requests.rows → q'.id = requestId → q.retryCount ≤ q'.retryCount

end PromptQueue

namespace PromptQueue.Proof

open PromptQueue Base World

variable {S : Type} [LinearOrder S] {env : Env S} {w w' : World} {e : Event}
variable {i n : Nat} {s : WorkerId} {r r' : Run}

/-! ## Who writes the count -/

/-- The step is the second write of a failure handler of the request. -/
def Records (w : World) (i : Nat) (e : Event) : Prop :=
  e.writes = true ∧ ∃ r, w.runOf e = some r ∧ r.req.id = i ∧ r.stage.halfHandled = true

theorem not_halfHandled_of_settles (h : r.settles w.db = true) : r.stage.halfHandled = false := by
  unfold Run.settles at h
  cases hst : r.stage <;> rw [hst] at h <;> first | rfl | cases h

theorem not_records_of_handles (h : w.Handles i e) : ¬ Records w i e := by
  rintro ⟨-, r', hr', -, hhalf⟩
  obtain ⟨-, r, hr, -, hset⟩ := h
  cases hr.symm.trans hr'
  rw [not_halfHandled_of_settles hset] at hhalf
  cases hhalf

/-- What the failure handler decides is no write of the request. -/
theorem not_halfHandled_handleFailure (job : ProcessingJob) (exc : Exc) :
    (PromptPipeline.handleFailure job exc).halfHandled = false := by
  rcases PromptPipeline.handleFailure_cases job exc with ⟨wait, -, hs⟩ | ⟨-, -, hs⟩ |
    ⟨-, -, -, hs⟩ <;> (rw [hs]; rfl)

/-- What a pipeline hears takes it to no write of the request. -/
theorem not_halfHandled_thought {es : List Entry} (h : Thought env r e r' es) :
    r'.stage.halfHandled = false := by
  cases h with
  | dbError ht =>
      dsimp only [PromptPipeline.fail]
      split
      · exact not_halfHandled_handleFailure _ _
      · rfl
  | unavailable hst | failed hx hst =>
      dsimp only
      exact not_halfHandled_handleFailure _ _
  | granted hst | denied hst | guarded hst | called hst | answered hst | cancelled hst hl
  | aborted hst => rfl

/-- Half-way through the handler there is nothing to hear. -/
theorem deaf_of_halfHandled (h : r.stage.halfHandled = true) : r.stage.hears = false := by
  cases hst : r.stage <;> rw [hst] at h <;> first | rfl | cases h

/-- **Who is half-way came there by handling an attempt, or was and did not write.** -/
theorem halfHandled_back (h : RunStep env w e s r r')
    (hhalf : r'.stage.halfHandled = true) :
    (e.slot = some s ∧ e.writes = true ∧ r.settles w.db = true) ∨
      (r.stage.halfHandled = true ∧ (e.slot = some s → e.writes = false ∧ e.breaks = false)) := by
  cases h with
  | same he => exact .inr ⟨hhalf, fun hs => absurd hs he⟩
  | beat hl => exact .inr ⟨hhalf, fun _ => ⟨rfl, rfl⟩⟩
  | thought he ht =>
      rw [not_halfHandled_thought ht] at hhalf
      cases hhalf
  | wrote ht =>
      refine .inl ⟨rfl, rfl, ?_⟩
      obtain ⟨x, hx, hturn⟩ := PromptPipeline.turn_of_call w.db ht
      dsimp only at hhalf
      rw [hx] at hhalf
      cases hturn with
      | buried hst => simp only [Run.settles, hst]
      | released hst hown => simp only [Run.settles, hst, hown]
      | _ => cases hhalf

/-- **Who is half-way stays so**, until it writes or is stopped. -/
theorem halfHandled_on (h : RunStep env w e s r r') (hhalf : r.stage.halfHandled = true) :
    r'.stage.halfHandled = true ∨ (e.slot = some s ∧ (e.writes = true ∨ e.breaks = true)) := by
  cases h with
  | same he => exact .inl hhalf
  | beat hl => exact .inl hhalf
  | wrote ht => exact .inr ⟨rfl, .inl rfl⟩
  | thought he ht =>
      exact .inr ⟨slot_of_thinker he, .inr (thought_deaf ht (deaf_of_halfHandled hhalf)).1⟩

/-- **Where a handler that is half-way comes from.** Nobody claims his way there. -/
theorem half_back (h : Move env w e w') (hr' : w'.slots s = .running r')
    (hhalf : r'.stage.halfHandled = true) : ∃ r, w.slots s = .running r ∧ r'.req = r.req ∧
      ((e.slot = some s ∧ e.writes = true ∧ r.settles w.db = true) ∨
        (r.stage.halfHandled = true ∧
          (e.slot = some s → e.writes = false ∧ e.breaks = false))) := by
  rcases run_cases h hr' with ⟨r, hr, hst⟩ | hc
  · exact ⟨r, hr, hst.sameRun.2.1, halfHandled_back hst hhalf⟩
  · rw [hc.start] at hhalf
    cases hhalf

/-- **A row keeps its count**, or a handler writes it: the count it read, plus one. -/
theorem count_step (h : Move env w e w') (q : PromptRequest) :
    (w.requestAfter env e q).retryCount = q.retryCount ∨
      ∃ r, e.writes = true ∧ w.runOf e = some r ∧ r.stage.halfHandled = true ∧ q.id = r.req.id ∧
        (w.requestAfter env e q).retryCount = r.req.retryCount + 1 := by
  have hst := request_step h q
  generalize w.requestAfter env e q = q' at hst ⊢
  cases hst with
  | same => exact .inl rfl
  | reenqueued hc hst hid => exact .inl rfl
  | completed hs hst hid => exact .inl rfl
  | requeued hj hr hid => exact .inl rfl
  | expired hj hx hid => exact .inl rfl
  | retried hs hst hid => exact .inr ⟨_, rfl, runOf_eq rfl hs, by rw [hst]; rfl, hid, rfl⟩
  | failed hs hst hid => exact .inr ⟨_, rfl, runOf_eq rfl hs, by rw [hst]; rfl, hid, rfl⟩

/-- **What the second write of a handler does.** -/
theorem recorded (h : Move env w e w') (hw : e.writes = true) (hr : w.runOf e = some r)
    (hhalf : r.stage.halfHandled = true) :
    (∃ s r', e.slot = some s ∧ w'.slots s = .running r' ∧ r'.stage.halfHandled = false) ∧
      (∀ q, q.id = r.req.id → (w.requestAfter env e q).retryCount = r.req.retryCount + 1) ∧
      ∃ x es, w'.log = w.log ++ x :: es ∧ x.recounts r.req.id = true := by
  obtain ⟨s, now, top1, t, x, rfl, hs, ht, hturn, hs'⟩ := turn_of_writes h hr hw
  have hiss : w.issued env (.pipeline s now top1) = some (.slot s, t) :=
    issued_pipeline hs ht
  have hlog := log_issued h hiss
  cases hturn with
  | failed hst | retried hst =>
      refine ⟨⟨s, _, rfl, hs', rfl⟩, fun q hq => ?_, _, _, hlog, decide_eq_true rfl⟩
      rw [requestAfter_pipeline hs ht, Tx.onRequest, Table.updateRow, if_pos hq]
      rfl
  | missedExact hst | hitExact hst | missedNearest hst | hitNearest hst | counted hst
  | deferred hst | stored hst | finished hst | closed hst | limited hst | buried hst
  | released hst | disowned hst =>
      rw [hst] at hhalf
      cases hhalf

/-- An attempt that is handled leaves its handler half-way. -/
theorem not_atRest_of_handles (h : Move env w e w') (hh : w.Handles i e) : ¬ w'.AtRest i := by
  obtain ⟨hw, r, hr, hid, hset⟩ := hh
  obtain ⟨s, now, top1, t, x, rfl, hs, ht, hturn, hs'⟩ := turn_of_writes h hr hw
  intro hrest
  have hquiet := hrest s _ hs' hid
  unfold Run.settles at hset
  cases hturn with
  | buried hst | released hst => cases hquiet
  | disowned hst hown =>
      simp only [hst, hown] at hset
      cases hset
  | missedExact hst | hitExact hst | missedNearest hst | hitNearest hst | counted hst
  | deferred hst | stored hst | finished hst | closed hst | limited hst | failed hst
  | retried hst =>
      rw [hst] at hset
      cases hset

/-- Where nobody is half-way, nobody was, unless he wrote or was stopped. -/
theorem atRest_back (h : Move env w e w')
    (hc : e.breaks = true → ∀ r ∈ w.runOf e, r.req.id = i → r.stage.halfHandled = false)
    (hrec : ¬ Records w i e) (hrest : w'.AtRest i) : w.AtRest i := by
  intro s r hr hid
  by_contra hhalf
  have hhalf := eq_true_of_ne_false hhalf
  rcases run_forward h hr with ⟨r', hr', hst⟩ | rfl | ⟨rfl, how, hd⟩
  · rcases halfHandled_on hst hhalf with hon | ⟨hs, hw | hb⟩
    · rw [hrest s r' hr' (hst.sameRun.2.1 ▸ hid)] at hon
      cases hon
    · exact hrec ⟨hw, r, runOf_eq hs hr, hid, hhalf⟩
    · rw [hc hb r (runOf_eq hs hr) hid] at hhalf
      cases hhalf
  · rw [hc rfl r (runOf_eq rfl hr) hid] at hhalf
    cases hhalf
  · rw [hd] at hhalf
    cases hhalf

/-- The entry of a second write is made by one. -/
theorem records_of_fresh {x : Entry} (h : Fresh env w e x) (hx : x.recounts i = true) :
    Records w i e := by
  cases h with
  | lost hj hexp => cases hx
  | notified => cases hx
  | thought hs he ht hmem =>
      cases ht <;> simp only [List.mem_singleton, List.not_mem_nil] at hmem <;>
        (rw [hmem] at hx; cases hx)
  | tx ht =>
      cases issues_of_issued ht with
      | claim => cases hx
      | heartbeat hs => cases hx
      | reap => cases hx
      | call hc hk => cases PromptProcessor.turn_iff.mp hk <;> cases hx
      | pipeline hs hr =>
          obtain ⟨y, -, hturn⟩ := PromptPipeline.turn_of_call w.db hr
          cases hturn with
          | failed hst | retried hst =>
              exact ⟨rfl, _, runOf_eq rfl hs, of_decide_eq_true hx, by rw [hst]; rfl⟩
          | _ => cases hx

/-- A copy is counted past by the second write of a handler, and by nothing else. -/
theorem recounted_iff (h : Move env w e w') (ht : r.ticket ≤ w.log.length) :
    Recounted w'.log r ↔ Recounted w.log r ∨ Records w r.req.id e := by
  constructor
  · rintro ⟨x, hx, hrec⟩
    obtain ⟨es, hlog, hfresh⟩ := log_cases h
    rw [hlog, List.drop_append_of_le_length ht] at hx
    rcases List.mem_append.mp hx with hx | hx
    · exact .inl ⟨x, hx, hrec⟩
    · exact .inr (records_of_fresh (hfresh x hx) hrec)
  · rintro (⟨x, hx, hrec⟩ | ⟨hw, y, hy, hid, hhalf⟩)
    · obtain ⟨es, hlog⟩ := log_grows h
      refine ⟨x, ?_, hrec⟩
      rw [← hlog, List.drop_append_of_le_length ht]
      exact List.mem_append_left _ hx
    · obtain ⟨-, -, x, es, hlog, hrec⟩ := recorded h hw hy hhalf
      refine ⟨x, ?_, hid ▸ hrec⟩
      rw [hlog, List.drop_append_of_le_length ht]
      exact List.mem_append_right _ List.mem_cons_self

/-- A copy that was just made is up to date. -/
theorem not_recounted_of_claimed (h : Move env w e w') (hc : Claimed env w e s r) :
    ¬ Recounted w'.log r := by
  obtain ⟨now, locked, pick, j, q, rfl, -, -, -, -, -, -, rfl⟩ := hc.claim
  rintro ⟨x, hx, -⟩
  rw [log_issued h rfl, List.drop_eq_nil_of_le (by simp [takes])] at hx
  cases hx

/-! ## Rows and copies of one request -/

/-- A row of the request, and where its count comes from. -/
theorem row_back (h : Move env w e w') {q' : PromptRequest} (hq' : q' ∈ w'.db.requests.rows)
    (hid : q'.id = i) (hn : ¬ Records w i e) :
    (∃ q ∈ w.db.requests.rows, q.id = i ∧ q'.retryCount = q.retryCount) ∨
      (q'.retryCount = 0 ∧ ∀ q ∈ w.db.requests.rows, q.id ≠ i) := by
  rcases request_origin h hq' with ⟨q, hq, rfl⟩ | ⟨j, hins, -⟩
  · rw [requestAfter_id] at hid
    refine .inl ⟨q, hq, hid, ?_⟩
    rcases count_step h q with heq | ⟨r, hw, hr, hhalf, hqr, -⟩
    · exact heq
    · exact absurd ⟨hw, r, hr, hqr.symm.trans hid, hhalf⟩ hn
  · refine .inr ⟨?_, fun q hq hqi => hins.request_fresh hq (hqi.trans hid.symm)⟩
    obtain ⟨c, k, now, inTime, -, -, -, rfl, -⟩ := hins.call
    rfl

/-- The request of a run has a row. -/
theorem row_of_run (ht : Tied env w) (hr : w.slots s = .running r) (hid : r.req.id = i) :
    ∃ q ∈ w.db.requests.rows, q.id = i := by
  obtain ⟨q, hq, hst⟩ := ht.request hr
  exact ⟨q, hq, (congrArg (·.1) hst).trans hid⟩

/-- The row of a request somebody works on was there before. -/
theorem row_kept (h : Move env w e w') (ht : Tied env w) (hr : w.slots s = .running r)
    (hrid : r.req.id = i) {q' : PromptRequest} (hq' : q' ∈ w'.db.requests.rows) (hid : q'.id = i)
    (hn : ¬ Records w i e) :
    ∃ q ∈ w.db.requests.rows, q.id = i ∧ q'.retryCount = q.retryCount := by
  rcases row_back h hq' hid hn with hold | ⟨-, hnone⟩
  · exact hold
  · obtain ⟨q, hq, hqi⟩ := row_of_run ht hr hrid
    exact absurd hqi (hnone q hq)

/-- A row the second write of a handler was for. -/
theorem row_recorded (h : Move env w e w') (ht : Tied env w) (hw : e.writes = true)
    (hr : w.runOf e = some r) (hrid : r.req.id = i) (hhalf : r.stage.halfHandled = true)
    {q' : PromptRequest} (hq' : q' ∈ w'.db.requests.rows) (hid : q'.id = i) :
    q'.retryCount = r.req.retryCount + 1 := by
  rcases request_origin h hq' with ⟨q, hq, rfl⟩ | ⟨j, hins, -⟩
  · rw [requestAfter_id] at hid
    exact (recorded h hw hr hhalf).2.1 q (hid.trans hrid.symm)
  · obtain ⟨s, -, hs⟩ := run_of_runOf hr
    obtain ⟨q, hq, hqi⟩ := row_of_run ht hs hrid
    exact absurd (hqi.trans hid.symm) (hins.request_fresh hq)

/-! ## A count that is right -/

/-- Every failed attempt that was handled is counted, but the one that is being. -/
structure RightSoFar (w : World) (i n : Nat) : Prop where
  /-- One handler at a time is half-way. -/
  one : ∀ {s s' r r'}, w.slots s = .running r → w.slots s' = .running r' → r.req.id = i →
    r'.req.id = i → r.stage.halfHandled = true → r'.stage.halfHandled = true → s = s'
  /-- Without one, nothing is left to count. -/
  rest : w.AtRest i → ∀ {q}, q ∈ w.db.requests.rows → q.id = i → q.retryCount = n
  /-- It will write what is right. -/
  half : ∀ {s r q}, w.slots s = .running r → r.req.id = i → r.stage.halfHandled = true →
    q ∈ w.db.requests.rows → q.id = i →
    q.retryCount = r.req.retryCount ∧ n = r.req.retryCount + 1
  /-- A copy is as the row is, until the row is counted past it. -/
  copy : ∀ {s r q}, w.slots s = .running r → r.req.id = i → q ∈ w.db.requests.rows → q.id = i →
    (¬ Recounted w.log r ∧ r.req.retryCount = q.retryCount) ∨
      (Recounted w.log r ∧ r.req.retryCount < q.retryCount)
  /-- A request that is not there was never handled. -/
  new : (∀ q ∈ w.db.requests.rows, q.id ≠ i) → n = 0

/-- What a step adds to the attempts handled. -/
def settled (w : World) (i : Nat) (e : Event) : Nat := if w.Handles i e then 1 else 0

theorem rightSoFar_init (i : Nat) : RightSoFar World.init i 0 where
  one := nofun
  rest := fun _ _ hq => absurd hq List.not_mem_nil
  half := nofun
  copy := nofun
  new := fun _ => rfl

theorem RightSoFar.copy_le (hi : RightSoFar w i n) (hr : w.slots s = .running r)
    (hid : r.req.id = i) {q : PromptRequest} (hq : q ∈ w.db.requests.rows) (hqi : q.id = i) :
    r.req.retryCount ≤ q.retryCount := by
  rcases hi.copy hr hid hq hqi with ⟨-, h⟩ | ⟨-, h⟩ <;> omega

/-- **The step that counts once keeps it right.** -/
theorem rightSoFar_step (h : Move env w e w') (ht : Tied env w) (hc : w.CountsOnce i e)
    (hi : RightSoFar w i n) : RightSoFar w' i (n + settled w i e) where
  one := by
    -- whoever gets half-way finds nobody there
    have back : ∀ {s r'}, w'.slots s = .running r' → r'.req.id = i →
        r'.stage.halfHandled = true → (e.slot = some s ∧ w.AtRest i) ∨
          ∃ r, w.slots s = .running r ∧ r.req.id = i ∧ r.stage.halfHandled = true := by
      intro s r' hr' hid hhalf
      obtain ⟨r, hr, hreq, hback⟩ := half_back h hr' hhalf
      rw [hreq] at hid
      rcases hback with ⟨hs, hw, hset⟩ | ⟨hold, -⟩
      · exact .inl ⟨hs, (hc.alone ⟨hw, r, runOf_eq hs hr, hid, hset⟩).1⟩
      · exact .inr ⟨r, hr, hid, hold⟩
    intro s s' r r' hr hr' hid hid' hhalf hhalf'
    rcases back hr hid hhalf with ⟨hs, hrest⟩ | ⟨x, hx, hxi, hxh⟩
    · rcases back hr' hid' hhalf' with ⟨hs', -⟩ | ⟨x', hx', hxi', hxh'⟩
      · exact Option.some.inj (hs.symm.trans hs')
      · rw [hrest s' x' hx' hxi'] at hxh'
        cases hxh'
    · rcases back hr' hid' hhalf' with ⟨-, hrest⟩ | ⟨x', hx', hxi', hxh'⟩
      · rw [hrest s x hx hxi] at hxh
        cases hxh
      · exact hi.one hx hx' hxi hxi' hxh hxh'
  rest := by
    intro hrest q' hq' hid
    have hnh : ¬ w.Handles i e := fun hh => not_atRest_of_handles h hh hrest
    rw [settled, if_neg hnh, Nat.add_zero]
    by_cases hrec : Records w i e
    · obtain ⟨hw, r, hr, hrid, hhalf⟩ := hrec
      obtain ⟨s, -, hs⟩ := run_of_runOf hr
      obtain ⟨q, hq, hqi⟩ := row_of_run ht hs hrid
      rw [row_recorded h ht hw hr hrid hhalf hq' hid, ← (hi.half hs hrid hhalf hq hqi).2]
    · have hrest₀ := atRest_back h hc.counts hrec hrest
      rcases row_back h hq' hid hrec with ⟨q, hq, hqi, heq⟩ | ⟨hzero, hnone⟩
      · rw [heq, hi.rest hrest₀ hq hqi]
      · rw [hzero, hi.new hnone]
  half := by
    intro s r' q' hr' hid hhalf hq' hqid
    obtain ⟨r, hr, hreq, hback⟩ := half_back h hr' hhalf
    rw [hreq] at hid ⊢
    rcases hback with ⟨hs, hw, hset⟩ | ⟨hold, hquiet⟩
    · -- the attempt it has just handled is the one more
      have hh : w.Handles i e := ⟨hw, r, runOf_eq hs hr, hid, hset⟩
      obtain ⟨hrest, hfresh⟩ := hc.alone hh
      obtain ⟨q, hq, hqi, heq⟩ := row_kept h ht hr hid hq' hqid (not_records_of_handles hh)
      rw [settled, if_pos hh, heq, ← hi.rest hrest hq hqi]
      rcases hi.copy hr hid hq hqi with ⟨-, hcopy⟩ | ⟨hrec, -⟩
      · exact ⟨hcopy.symm, by rw [hcopy]⟩
      · exact absurd hrec (hfresh r (runOf_eq hs hr))
    · have hnh : ¬ w.Handles i e := fun hh => by
        rw [(hc.alone hh).1 s r hr hid] at hold
        cases hold
      have hnr : ¬ Records w i e := by
        rintro ⟨hw, x, hx, hxi, hxh⟩
        obtain ⟨s', hs', hx⟩ := run_of_runOf hx
        cases hi.one hx hr hxi hid hxh hold
        rw [(hquiet hs').1] at hw
        cases hw
      obtain ⟨q, hq, hqi, heq⟩ := row_kept h ht hr hid hq' hqid hnr
      rw [settled, if_neg hnh, Nat.add_zero, heq]
      exact hi.half hr hid hold hq hqi
  copy := by
    intro s r' q' hr' hid hq' hqid
    rcases run_cases h hr' with ⟨r, hr, hst⟩ | hcl
    · have hsame := hst.sameRun
      have hlog : Recounted w'.log r' ↔ Recounted w.log r ∨ Records w r.req.id e := by
        unfold Recounted
        rw [hsame.2.1, hsame.2.2.1]
        exact recounted_iff h (ht.ticket hr)
      rw [hsame.2.1] at hid ⊢
      rw [hlog, hid]
      by_cases hrec : Records w i e
      · obtain ⟨hw, x, hx, hxi, hxh⟩ := hrec
        obtain ⟨s', hs', hx'⟩ := run_of_runOf hx
        obtain ⟨q, hq, hqi⟩ := row_of_run ht hr hid
        have hle := hi.copy_le hr hid hq hqi
        rw [(hi.half hx' hxi hxh hq hqi).1] at hle
        refine .inr ⟨.inr ⟨hw, x, hx, hxi, hxh⟩, ?_⟩
        rw [row_recorded h ht hw hx hxi hxh hq' hqid]
        omega
      · obtain ⟨q, hq, hqi, heq⟩ := row_kept h ht hr hid hq' hqid hrec
        rw [heq]
        rcases hi.copy hr hid hq hqi with ⟨hnr, hcopy⟩ | ⟨hpast, hcopy⟩
        · exact .inl ⟨fun hor => hor.elim hnr hrec, hcopy⟩
        · exact .inr ⟨.inl hpast, hcopy⟩
    · refine .inl ⟨not_recounted_of_claimed h hcl, ?_⟩
      obtain ⟨now, locked, pick, j, q, rfl, -, -, -, -, hq, -, rfl⟩ := hcl.claim
      rcases request_origin h hq' with ⟨q₀, hq₀, rfl⟩ | ⟨j, hins, -⟩
      · -- a claim leaves the row as it read it
        exact congrArg _ (Db.request_eq_of_id hq hq₀ (hid.trans hqid.symm))
      · exact absurd (hid.trans hqid.symm) (hins.request_fresh hq)
  new := by
    intro hnone
    have hnone₀ : ∀ q ∈ w.db.requests.rows, q.id ≠ i := by
      intro q hq hqi
      exact hnone _ (request_goes_on h hq) (by rw [requestAfter_id]; exact hqi)
    rw [settled, hi.new hnone₀, if_neg]
    rintro ⟨hw, r, hr, hid, -⟩
    obtain ⟨s, -, hs⟩ := run_of_runOf hr
    obtain ⟨q, hq, hqi⟩ := row_of_run ht hs hid
    exact hnone₀ q hq hqi

/-! ## A count that is too low -/

/-- A failed attempt is lost, in the row and in every copy of it. -/
structure TooLow (w : World) (i n : Nat) : Prop where
  row : ∀ {q}, q ∈ w.db.requests.rows → q.id = i → q.retryCount < n
  copy : ∀ {s r}, w.slots s = .running r → r.req.id = i → r.req.retryCount < n
  half : ∀ {s r}, w.slots s = .running r → r.req.id = i → r.stage.halfHandled = true →
    r.req.retryCount + 1 < n
  there : ∃ q ∈ w.db.requests.rows, q.id = i

/-- **What is too low stays so**, whatever the step. -/
theorem tooLow_step (h : Move env w e w') (ht : Tied env w) (hi : TooLow w i n) :
    TooLow w' i (n + settled w i e) where
  row := by
    intro q' hq' hid
    by_cases hrec : Records w i e
    · obtain ⟨hw, r, hr, hrid, hhalf⟩ := hrec
      obtain ⟨s, -, hs⟩ := run_of_runOf hr
      have hlow := hi.half hs hrid hhalf
      rw [row_recorded h ht hw hr hrid hhalf hq' hid]
      omega
    · rcases row_back h hq' hid hrec with ⟨q, hq, hqi, heq⟩ | ⟨-, hnone⟩
      · have hlow := hi.row hq hqi
        omega
      · obtain ⟨q, hq, hqi⟩ := hi.there
        exact absurd hqi (hnone q hq)
  copy := by
    intro s r' hr' hid
    rcases run_cases h hr' with ⟨r, hr, hst⟩ | hcl
    · rw [hst.sameRun.2.1] at hid ⊢
      have hlow := hi.copy hr hid
      omega
    · have hlow := hi.row hcl.request hid
      omega
  half := by
    intro s r' hr' hid hhalf
    obtain ⟨r, hr, hreq, hback⟩ := half_back h hr' hhalf
    rw [hreq] at hid ⊢
    rcases hback with ⟨hs, hw, hset⟩ | ⟨hold, -⟩
    · have hlow := hi.copy hr hid
      rw [settled, if_pos ⟨hw, r, runOf_eq hs hr, hid, hset⟩]
      omega
    · have hlow := hi.half hr hid hold
      omega
  there := by
    obtain ⟨q, hq, hqi⟩ := hi.there
    exact ⟨_, request_goes_on h hq, (requestAfter_id q).trans hqi⟩

/-- What was right is too low once the row and the writes that are due are. -/
theorem tooLow_of_rightSoFar (h : Move env w e w') (ht : Tied env w) (hi : RightSoFar w i n)
    {m : Nat} (hr : w.slots s = .running r) (hrid : r.req.id = i) (hn : ¬ Records w i e)
    (hrow : ∀ {q}, q ∈ w.db.requests.rows → q.id = i → q.retryCount < m)
    (hhalf : ∀ {s r'}, w'.slots s = .running r' → r'.req.id = i → r'.stage.halfHandled = true →
      r'.req.retryCount + 1 < m) : TooLow w' i m where
  row := by
    intro q' hq' hid
    obtain ⟨q, hq, hqi, heq⟩ := row_kept h ht hr hrid hq' hid hn
    rw [heq]
    exact hrow hq hqi
  copy := by
    intro s r' hr' hid
    rcases run_cases h hr' with ⟨r, hr, hst⟩ | hcl
    · rw [hst.sameRun.2.1] at hid ⊢
      obtain ⟨q, hq, hqi⟩ := row_of_run ht hr hid
      exact Nat.lt_of_le_of_lt (hi.copy_le hr hid hq hqi) (hrow hq hqi)
    · exact hrow hcl.request hid
  half := hhalf
  there := by
    obtain ⟨q, hq, hqi⟩ := row_of_run ht hr hrid
    exact ⟨_, request_goes_on h hq, (requestAfter_id q).trans hqi⟩

/-- A handler that is stopped half-way never counts its attempt. -/
theorem tooLow_of_broken (h : Move env w e w') (ht : Tied env w) (hi : RightSoFar w i n)
    (hb : e.breaks = true) (hr : w.runOf e = some r) (hid : r.req.id = i)
    (hhalf : r.stage.halfHandled = true) : TooLow w' i (n + settled w i e) := by
  obtain ⟨s, hs, hslot⟩ := run_of_runOf hr
  obtain ⟨q, hq, hqi⟩ := row_of_run ht hslot hid
  have hn := (hi.half hslot hid hhalf hq hqi).2
  have hw : e.writes ≠ true := by
    cases e <;> first | (cases hb; done) | exact Bool.false_ne_true
  rw [settled, if_neg fun hh => hw hh.1, Nat.add_zero]
  refine tooLow_of_rightSoFar h ht hi hslot hid (fun hrec => hw hrec.1) (fun hq' hqi' => ?_)
    fun {s'} {r'} hr' hid' hhalf' => ?_
  · have heq := (hi.half hslot hid hhalf hq' hqi').1
    omega
  · -- the one who was half-way is not any more
    exfalso
    obtain ⟨x, hx, hreq, ⟨-, hw', -⟩ | ⟨hold, hquiet⟩⟩ := half_back h hr' hhalf'
    · exact hw hw'
    · rw [hreq] at hid'
      cases hi.one hslot hx hid hid' hhalf hold
      rw [(hquiet hs).2] at hb
      cases hb

/-- A failed attempt handled while another is half-way is one too many for the two of them. -/
theorem tooLow_of_overlap (h : Move env w e w') (ht : Tied env w) (hi : RightSoFar w i n)
    (hh : w.Handles i e) (hr : w.slots s = .running r) (hid : r.req.id = i)
    (hhalf : r.stage.halfHandled = true) : TooLow w' i (n + settled w i e) := by
  obtain ⟨q, hq, hqi⟩ := row_of_run ht hr hid
  obtain ⟨heq, hn⟩ := hi.half hr hid hhalf hq hqi
  rw [settled, if_pos hh]
  refine tooLow_of_rightSoFar h ht hi hr hid (not_records_of_handles hh)
    (fun hq' hqi' => ?_) fun {s'} {r'} hr' hid' hhalf' => ?_
  · have heq' := (hi.half hr hid hhalf hq' hqi').1
    omega
  · obtain ⟨x, hx, hreq, -⟩ := half_back h hr' hhalf'
    rw [hreq] at hid' ⊢
    have hle := hi.copy_le hx hid' hq hqi
    omega

/-- A failed attempt handled with a copy that was counted past is not counted. -/
theorem tooLow_of_stale (h : Move env w e w') (ht : Tied env w) (hi : RightSoFar w i n)
    (hh : w.Handles i e) (hrest : w.AtRest i) (hr : w.runOf e = some r)
    (hpast : Recounted w.log r) : TooLow w' i (n + settled w i e) := by
  have hid : r.req.id = i := by
    obtain ⟨-, x, hx, hid, -⟩ := hh
    cases hx.symm.trans hr
    exact hid
  obtain ⟨s, hs, hslot⟩ := run_of_runOf hr
  obtain ⟨q, hq, hqi⟩ := row_of_run ht hslot hid
  have hlow : r.req.retryCount < n := by
    rw [← hi.rest hrest hq hqi]
    rcases hi.copy hslot hid hq hqi with ⟨hnot, -⟩ | ⟨-, hlow⟩
    · exact absurd hpast hnot
    · exact hlow
  rw [settled, if_pos hh]
  refine tooLow_of_rightSoFar h ht hi hslot hid (not_records_of_handles hh)
    (fun hq' hqi' => ?_) fun {s'} {r'} hr' hid' hhalf' => ?_
  · rw [hi.rest hrest hq' hqi']
    exact Nat.lt_succ_self n
  · obtain ⟨x, hx, hreq, ⟨hs', -, -⟩ | ⟨hold, -⟩⟩ := half_back h hr' hhalf'
    · cases hs.symm.trans hs'
      cases Slot.running.inj (hslot.symm.trans hx)
      rw [hreq]
      omega
    · rw [hreq] at hid'
      rw [hrest s' x hx hid'] at hold
      cases hold

/-- **A step that does not count once** leaves the count too low. -/
theorem tooLow_of_slip (h : Move env w e w') (ht : Tied env w) (hi : RightSoFar w i n)
    (hc : ¬ w.CountsOnce i e) : TooLow w' i (n + settled w i e) := by
  by_cases hb : e.breaks = true ∧ ∃ r, w.runOf e = some r ∧ r.req.id = i ∧
      r.stage.halfHandled = true
  · obtain ⟨hb, r, hr, hid, hhalf⟩ := hb
    exact tooLow_of_broken h ht hi hb hr hid hhalf
  · by_cases hh : w.Handles i e
    · by_cases hrest : w.AtRest i
      · by_cases hpast : ∃ r, w.runOf e = some r ∧ Recounted w.log r
        · obtain ⟨r, hr, hpast⟩ := hpast
          exact tooLow_of_stale h ht hi hh hrest hr hpast
        · refine absurd ⟨fun _ => ⟨hrest, fun r hr hr' => hpast ⟨r, hr, hr'⟩⟩, ?_⟩ hc
          exact fun hbr r hr hid => eq_false_of_ne_true fun hhalf => hb ⟨hbr, r, hr, hid, hhalf⟩
      · simp only [AtRest, not_forall, Bool.not_eq_false] at hrest
        obtain ⟨s, r, hr, hid, hhalf⟩ := hrest
        exact tooLow_of_overlap h ht hi hh hr hid hhalf
    · refine absurd ⟨fun hh' => absurd hh' hh, ?_⟩ hc
      exact fun hbr r hr hid => eq_false_of_ne_true fun hhalf => hb ⟨hbr, r, hr, hid, hhalf⟩

/-! ## A run -/

/-- **In every run the count is right so far**, or too low, and which tells whether its steps
counted once. -/
theorem rightSoFar_or_tooLow (i : Nat) {es : List Event}
    (h : (machine env).run World.init es = some w) :
    ((machine env).Meets (fun u e => u.CountsOnce i e) World.init es ∧
        RightSoFar w i (handled env i es)) ∨
      (¬ (machine env).Meets (fun u e => u.CountsOnce i e) World.init es ∧
        TooLow w i (handled env i es)) := by
  refine (Machine.Meets.along (I := fun fs u => (machine env).Reachable u ∧
      (((machine env).Meets (fun u e => u.CountsOnce i e) World.init fs ∧
          RightSoFar u i (handled env i fs)) ∨
        (¬ (machine env).Meets (fun u e => u.CountsOnce i e) World.init fs ∧
          TooLow u i (handled env i fs))))
    ⟨.init, .inl ⟨trivial, rightSoFar_init i⟩⟩ (Machine.meets_always _ es) h ?_).2
  intro fs gs u v e _ hfs ⟨hreach, hi⟩ _ hstep
  have hm := move_of_step hstep
  have ht := tied_reachable hreach
  have hadd : handled env i (fs ++ [e]) = handled env i fs + settled u i e :=
    Machine.tally_concat hfs
  have hconcat := Machine.meets_concat (H := fun u e => u.CountsOnce i e) (e := e) hfs
  refine ⟨hreach.tail trivial hstep, ?_⟩
  rw [hadd]
  rcases hi with ⟨hmeets, hi⟩ | ⟨hnot, hi⟩
  · by_cases hc : u.CountsOnce i e
    · exact .inl ⟨hconcat.mpr ⟨hmeets, hc⟩, rightSoFar_step hm ht hc hi⟩
    · exact .inr ⟨fun hboth => hc (hconcat.mp hboth).2, tooLow_of_slip hm ht hi hc⟩
  · exact .inr ⟨fun hboth => hnot (hconcat.mp hboth).1, tooLow_step hm ht hi⟩

/-- A count that is right goes up by one at a time. -/
theorem count_le_of_rightSoFar (h : Move env w e w') (ht : Tied env w) (hi : RightSoFar w i n)
    {q q' : PromptRequest} (hq : q ∈ w.db.requests.rows) (hid : q.id = i)
    (hq' : q' ∈ w'.db.requests.rows) (hid' : q'.id = i) : q.retryCount ≤ q'.retryCount := by
  by_cases hrec : Records w i e
  · obtain ⟨hw, r, hr, hrid, hhalf⟩ := hrec
    obtain ⟨s, -, hs⟩ := run_of_runOf hr
    rw [row_recorded h ht hw hr hrid hhalf hq' hid', (hi.half hs hrid hhalf hq hid).1]
    exact Nat.le_succ _
  · rcases row_back h hq' hid' hrec with ⟨q₀, hq₀, hid₀, heq⟩ | ⟨-, hnone⟩
    · rw [heq, Db.request_eq_of_id hq hq₀ (hid.trans hid₀.symm)]
    · exact absurd hid (hnone q hq)

/--
**Where every failed attempt is counted once, the retry count is the number of them, and it
never goes back.** And only there: where a step of the run is not like that, the count is
wrong as soon as no handler is half-way.
-/
theorem retries_counted_iff (requestId : Nat) {es : List Event}
    (h : (machine env).run World.init es = some w) :
    ((machine env).Meets (fun u e => u.CountsOnce requestId e) World.init es →
        RetriesCounted env requestId es) ∧
      (w.AtRest requestId → RetriesCounted env requestId es →
        (machine env).Meets (fun u e => u.CountsOnce requestId e) World.init es) := by
  -- every run that meets the condition is right so far
  have right : ∀ {fs u}, (machine env).run World.init fs = some u →
      (machine env).Meets (fun u e => u.CountsOnce requestId e) World.init fs →
      RightSoFar u requestId (handled env requestId fs) := by
    intro fs u hu hmeets
    rcases rightSoFar_or_tooLow requestId hu with ⟨-, hi⟩ | ⟨hnot, -⟩
    · exact hi
    · exact absurd hmeets hnot
  refine ⟨fun hmeets => ⟨?_, ?_⟩, fun hrest hcounted => ?_⟩
  · intro fs gs u q hes hu hrest hq hid
    rw [hes] at hmeets
    exact (right hu hmeets.left).rest hrest hq hid
  · intro fs e gs u v q q' hes hu hstep hq hid hq' hid'
    rw [hes] at hmeets
    exact count_le_of_rightSoFar (move_of_step hstep) (tied_reachable (Machine.path_of_run hu))
      (right hu hmeets.left) hq hid hq' hid'
  · rcases rightSoFar_or_tooLow requestId h with ⟨hmeets, -⟩ | ⟨-, hi⟩
    · exact hmeets
    · obtain ⟨q, hq, hid⟩ := hi.there
      have heq := hcounted.exact es [] w q (List.append_nil es).symm h hrest hq hid
      exact absurd (hi.row hq hid) (by rw [heq]; exact Nat.lt_irrefl _)

/-- An attempt that fails, up to the first write of its handler. -/
def failedAttempt (s : WorkerId) (now : Time) (exc : Exc) : List Event :=
  [.claim s now [] (some 1), .pipeline s now none, .pipeline s now none, .limiter s .granted,
    .llmCall s, .llmRaise s exc, .pipeline s now none]

/-- Two attempts, the second after the first was counted. -/
def failingTwice : List Event :=
  submission 0 "p" "a" ++ failedAttempt 0 1 ⟨.llmTimeoutError, "timed out"⟩ ++
    [.pipeline 0 1 none, .next 0] ++ failedAttempt 0 9 ⟨.llmTimeoutError, "timed out"⟩ ++
    [.pipeline 0 9 none]

/-- Both are counted. -/
theorem retries_counted_iff_failing_twice : ∃ w,
    (machine deployment).run World.init failingTwice = some w ∧
    w.db.requests.rows.map (·.retryCount) = [2] ∧
    (machine deployment).Meets (fun u e => u.CountsOnce 1 e) World.init failingTwice ∧
    RetriesCounted deployment 1 failingTwice := by
  obtain ⟨w, hw, -, ht⟩ := Machine.reachable_of_run (m := machine deployment) (E := failingTwice)
    (p := fun w => decide (w.db.requests.rows.map (·.retryCount) = [2] ∧
      (∀ q ∈ w.db.requests.rows, q.id = 1 → q.retryCount = handled deployment 1 failingTwice) ∧
      ∃ q ∈ w.db.requests.rows, q.id = 1)) (by decide +kernel)
  obtain ⟨hcount, hright, q, hq, hid⟩ := of_decide_eq_true ht
  have hmeets : (machine deployment).Meets (fun u e => u.CountsOnce 1 e) World.init
      failingTwice := by
    rcases rightSoFar_or_tooLow 1 hw with ⟨hmeets, -⟩ | ⟨-, hlow⟩
    · exact hmeets
    · exact absurd (hlow.row hq hid) (by rw [hright q hq hid]; exact Nat.lt_irrefl _)
  exact ⟨w, hw, hcount, hmeets, (retries_counted_iff 1 hw).1 hmeets⟩

/-- Three attempts, of which the first is counted last. -/
def overtaken : List Event :=
  submission 0 "p" "a" ++ failedAttempt 0 1 ⟨.llmTimeoutError, "timed out"⟩ ++
    failedAttempt 1 9 ⟨.llmTimeoutError, "timed out"⟩ ++ [.pipeline 1 9 none, .next 1] ++
    failedAttempt 1 99 ⟨.llmProviderError, "refused"⟩ ++ [.pipeline 1 99 none]

/-- **Three failed attempts, nobody stopped:** the count goes from two back to one. -/
theorem retry_count_goes_back : ∃ w w', (∀ e ∈ overtaken, e.breaks = false) ∧
    (machine deployment).run World.init overtaken = some w ∧
    World.step deployment w (.pipeline 0 100 none) = some w' ∧
    handled deployment 1 (overtaken ++ [.pipeline 0 100 none]) = 3 ∧ w'.AtRest 1 ∧
    w.db.requests.rows.map (·.retryCount) = [2] ∧ w'.db.requests.rows.map (·.retryCount) = [1] ∧
    ¬ RetriesCounted deployment 1 (overtaken ++ [.pipeline 0 100 none]) := by
  obtain ⟨w, hw, -, ht⟩ := Machine.reachable_of_run (m := machine deployment) (E := overtaken)
    (p := fun w => decide (w.db.requests.rows.map (·.retryCount) = [2]) &&
      (World.step deployment w (.pipeline 0 100 none)).any fun (w' : World) =>
        decide (w'.db.requests.rows.map (·.retryCount) = [1] ∧
          (∃ q ∈ w'.db.requests.rows, q.id = 1 ∧ q.retryCount = 1) ∧
          ∀ s : Nat, s < 2 → ∀ r ∈ w'.runOf (.next s), r.stage.halfHandled = false))
    (by decide +kernel)
  obtain ⟨htwo, ht⟩ := Bool.and_eq_true_iff.mp ht
  obtain ⟨w', hstep, ht⟩ := (Option.any_eq_true _ _).mp ht
  obtain ⟨hone, ⟨q, hq, hid, hcount⟩, hdone⟩ := of_decide_eq_true ht
  have hrun : (machine deployment).run World.init (overtaken ++ [.pipeline 0 100 none]) = some w' :=
    Machine.run_concat hw hstep
  have hthree : handled deployment 1 (overtaken ++ [.pipeline 0 100 none]) = 3 := by
    decide +kernel
  have hrest : w'.AtRest 1 := by
    intro s r hr _
    by_cases hs : s < 2
    · exact hdone s hs r (runOf_eq rfl hr)
    · have hidle := (untouched_of_run (n := 2) (m := 1) hrun (by decide +kernel)).1 s
        (Nat.not_lt.mp hs)
      rw [hidle] at hr
      cases hr
  refine ⟨w, w', by decide +kernel, hw, hstep, hthree, hrest, of_decide_eq_true htwo, hone,
    fun hc => ?_⟩
  have heq := hc.exact _ [] w' q (List.append_nil _).symm hrun hrest hq hid
  rw [hthree, hcount] at heq
  cases heq

end PromptQueue.Proof
