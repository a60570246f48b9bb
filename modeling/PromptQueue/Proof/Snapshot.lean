import PromptQueue.Proof.LeaseColumns
import PromptQueue.Proof.Steps

/-!
# What every run carries

A pipeline works from the rows it was handed when it claimed its job. These are
the facts that tie that snapshot to the tables for as long as the run lives, and
the few facts about the tables themselves that no interleaving breaks.
-/

namespace PromptQueue

/-- The call that issued a transaction. -/
def Entry.caller : Entry → Option Nat
  | .tx (.call c) _ _ => some c
  | _ => none

/-- The calls that have issued a transaction. -/
def World.callers (w : World) : Finset Nat := (w.log.filterMap Entry.caller).toFinset

/-- Those of them that stand where `p` says. -/
def World.callsAt (w : World) (p : CallStage → Bool) : Finset Nat :=
  w.callers.filter fun c => ((w.calls c).any fun k => p k.stage) = true

end PromptQueue

namespace PromptQueue.Proof

open PromptQueue Base World

variable {S : Type} [LinearOrder S] {env : Env S} {w w' : World} {e : Event}
variable {H : World → Event → Prop}

/-- The invariance rule, on moves. -/
theorem invariant_of_moves {I : World → Prop} (h : (machine env).ReachableWhere H w)
    (hinit : I World.init)
    (hstep : ∀ {u v : World} {e : Event}, (machine env).ReachableWhere H u → I u → H u e →
      Move env u e v → I v) : I w :=
  h.invariant hinit fun hr hi he hs => hstep hr hi he (move_of_step hs)

/-- The invariance rule along a path, on moves. -/
theorem invariant_of_path {I : World → Prop} (hp : (machine env).PathWhere H w w') (hi : I w)
    (h : (machine env).ReachableWhere H w)
    (hstep : ∀ {u v : World} {e : Event}, (machine env).ReachableWhere H u → I u → H u e →
      Move env u e v → I v) : I w' :=
  hp.invariant hi h fun hr hi he hs => hstep hr hi he (move_of_step hs)

theorem resets_mono (h : Move env w e w') (q : Nat) : resets w.log q ≤ resets w'.log q :=
  (log_grows h).sublist.countP_le

/-! ## Runs and rows -/

/-- What ties the runs to the tables. -/
structure Tied (env : Env S) (w : World) : Prop where
  /-- A run holds the claim of its own slot. -/
  worker : ∀ {s r}, w.slots s = .running r → r.job.workerId = some s
  /-- Its two rows belong together. -/
  rows : ∀ {s r}, w.slots s = .running r → r.req.id = r.job.promptRequestId
  /-- Its job is still there. -/
  job : ∀ {s r}, w.slots s = .running r → ∃ j ∈ w.db.jobs.rows, j.static = r.job.static
  /-- So is its request. -/
  request : ∀ {s r}, w.slots s = .running r → ∃ q ∈ w.db.requests.rows, q.static = r.req.static
  /-- It was claimed in the past. -/
  ticket : ∀ {s r}, w.slots s = .running r → r.ticket ≤ w.log.length
  /-- The resets it had seen have happened. -/
  epoch : ∀ {s r}, w.slots s = .running r → r.epoch ≤ resets w.log r.job.promptRequestId
  /-- Every request has its job. -/
  paired : ∀ {q}, q ∈ w.db.requests.rows → ∃ j ∈ w.db.jobs.rows, j.promptRequestId = q.id
  /-- Every request carries the hash of its text. -/
  hashed : ∀ {q}, q ∈ w.db.requests.rows → q.textHash = env.hashText q.text

theorem tied_init : Tied env World.init where
  worker := nofun
  rows := nofun
  job := nofun
  request := nofun
  ticket := nofun
  epoch := nofun
  paired := nofun
  hashed := nofun

theorem tied_step (h : Move env w e w') (hi : Tied env w) : Tied env w' where
  worker := by
    intro s r' hr'
    rcases run_cases h hr' with ⟨r, hr, hst⟩ | hc
    · rw [hst.sameRun.1]; exact hi.worker hr
    · obtain ⟨now, locked, pick, j, q, -, -, -, -, -, -, -, rfl⟩ := hc.claim
      rfl
  rows := by
    intro s r' hr'
    rcases run_cases h hr' with ⟨r, hr, hst⟩ | hc
    · rw [hst.sameRun.1, hst.sameRun.2.1]; exact hi.rows hr
    · obtain ⟨now, locked, pick, j, q, -, -, -, -, -, -, hid, rfl⟩ := hc.claim
      exact hid
  job := by
    intro s r' hr'
    rcases run_cases h hr' with ⟨r, hr, hst⟩ | hc
    · obtain ⟨j, hj, hs⟩ := hi.job hr
      rw [hst.sameRun.1]
      exact ⟨_, job_goes_on h hj, (jobAfter_static j).trans hs⟩
    · obtain ⟨now, locked, pick, j, q, -, -, hj, -, -, -, -, rfl⟩ := hc.claim
      exact ⟨_, job_goes_on h hj, jobAfter_static j⟩
  request := by
    intro s r' hr'
    rcases run_cases h hr' with ⟨r, hr, hst⟩ | hc
    · obtain ⟨q, hq, hs⟩ := hi.request hr
      rw [hst.sameRun.2.1]
      exact ⟨_, request_goes_on h hq, (requestAfter_static q).trans hs⟩
    · exact ⟨_, request_goes_on h hc.request, requestAfter_static r'.req⟩
  ticket := by
    intro s r' hr'
    rcases run_cases h hr' with ⟨r, hr, hst⟩ | hc
    · rw [hst.sameRun.2.2.1]
      exact (hi.ticket hr).trans (log_grows h).length_le
    · obtain ⟨now, locked, pick, j, q, rfl, -, -, -, -, -, -, rfl⟩ := hc.claim
      rw [log_issued h rfl]
      simp
  epoch := by
    intro s r' hr'
    rcases run_cases h hr' with ⟨r, hr, hst⟩ | hc
    · rw [hst.sameRun.1, hst.sameRun.2.2.2]
      exact (hi.epoch hr).trans (resets_mono h _)
    · obtain ⟨now, locked, pick, j, q, -, -, -, -, -, -, -, rfl⟩ := hc.claim
      exact resets_mono h _
  paired := by
    intro q' hq'
    rcases request_origin h hq' with ⟨q, hq, rfl⟩ | ⟨j, hins, hj⟩
    · obtain ⟨j, hj, ht⟩ := hi.paired hq
      exact ⟨_, job_goes_on h hj, by simpa using ht⟩
    · exact ⟨j, hj, hins.tied⟩
  hashed := by
    intro q' hq'
    rcases request_origin h hq' with ⟨q, hq, rfl⟩ | ⟨j, hins, -⟩
    · rw [requestAfter_textHash, requestAfter_text]
      exact hi.hashed hq
    · obtain ⟨c, k, now, inTime, -, -, -, rfl, -⟩ := hins.call
      rfl

/-- **Every reachable world is tied.** -/
theorem tied_reachable (h : (machine env).ReachableWhere H w) : Tied env w :=
  invariant_of_moves h tied_init fun _ hi _ hm => tied_step hm hi

/-! ## Consequences -/

theorem Tied.workerId (h : Tied env w) {s : WorkerId} {r : Run} (hr : w.slots s = .running r) :
    PromptPipeline.workerId r = s := by
  unfold PromptPipeline.workerId; rw [h.worker hr]; rfl

/-- A job row with the id of a run's job is the row of that run. -/
theorem Tied.static_of_id (h : Tied env w) {s : WorkerId} {r : Run}
    (hr : w.slots s = .running r) {j : ProcessingJob} (hj : j ∈ w.db.jobs.rows)
    (hid : j.id = r.job.id) : j.static = r.job.static := by
  obtain ⟨i, hi, hs⟩ := h.job hr
  have : i.id = r.job.id := congrArg (·.1) hs
  rw [Db.job_eq_of_id hj hi (hid.trans this.symm)]
  exact hs

/-- A request row with the id of a run's request is the row of that run. -/
theorem Tied.request_of_id (h : Tied env w) {s : WorkerId} {r : Run}
    (hr : w.slots s = .running r) {q : PromptRequest} (hq : q ∈ w.db.requests.rows)
    (hid : q.id = r.req.id) : q.static = r.req.static := by
  obtain ⟨i, hi, hs⟩ := h.request hr
  have : i.id = r.req.id := congrArg (·.1) hs
  rw [Db.request_eq_of_id hq hi (hid.trans this.symm)]
  exact hs

/-- A job row is of a run's job exactly when it is of the run's request. -/
theorem Tied.id_iff (h : Tied env w) {s : WorkerId} {r : Run} (hr : w.slots s = .running r)
    {j : ProcessingJob} (hj : j ∈ w.db.jobs.rows) :
    j.id = r.job.id ↔ j.promptRequestId = r.req.id := by
  obtain ⟨i, hi, hs⟩ := h.job hr
  have hid : i.id = r.job.id := congrArg (·.1) hs
  have hq : i.promptRequestId = r.req.id :=
    (show i.promptRequestId = r.job.promptRequestId from congrArg (·.2.1) hs).trans
      (h.rows hr).symm
  constructor
  · intro he
    rw [Db.job_eq_of_id hj hi (he.trans hid.symm)]; exact hq
  · intro he
    rw [Db.job_unique hj hi (he.trans hq.symm)]; exact hid

/-! ## Request rows -/

/-- What was inserted fits its columns. -/
theorem Inserted.fits {q : PromptRequest} {j : ProcessingJob} (hi : Inserted env w e q j)
    (h : Move env w e w') : q.fits = true := by
  obtain ⟨c, k, now, inTime, rfl, hk, hst, rfl, -⟩ := hi.call
  cases h with
  | call hc ht =>
      cases Option.some.inj (hk.symm.trans hc)
      exact (PromptProcessor.tx_of_insert hst ht).2
  | think hs he ht => cases he

/-- **The columns take what is in them.** -/
theorem rows_fit (h : (machine env).ReachableWhere H w) :
    ∀ q ∈ w.db.requests.rows, q.fits = true := by
  refine invariant_of_moves (I := fun w => ∀ q ∈ w.db.requests.rows, q.fits = true) h
    (fun q hq => by cases hq) fun {u v e} _ hi _ hm q' hq' => ?_
  rcases request_origin hm hq' with ⟨q, hq, rfl⟩ | ⟨j, hins, -⟩
  · have hst : (u.requestAfter env e q).static = q.static := requestAfter_static q
    obtain ⟨-, hp, ht, -, hu⟩ : _ ∧ _ ∧ _ ∧ _ ∧ _ := by
      simpa only [PromptRequest.static, Prod.mk.injEq] using hst
    have hold := hi q hq
    rw [PromptRequest.fits] at hold ⊢
    rw [hp, ht, hu]
    exact hold
  · exact hins.fits hm

/-! ## Completed requests -/

/-- A request row a pipeline has just completed. -/
structure Finished (env : Env S) (w : World) (e : Event) (q : PromptRequest) : Prop where
  /-- The run, and what the row has of it. -/
  run : ∃ s now top1 r resp cached emb, e = .pipeline s now top1 ∧ w.slots s = .running r ∧
    r.stage = .finishRequest resp cached emb ∧ q.text = r.req.text ∧
    q.textHash = env.hashText r.req.text ∧ q.response = some resp ∧ q.cached = some cached

/-- **Where a completed request comes from.** -/
theorem completed_origin (h : Move env w e w') (ht : Tied env w) {q' : PromptRequest}
    (hq' : q' ∈ w'.db.requests.rows) (hc : q'.status = .completed) :
    q' ∈ w.db.requests.rows ∨ Finished env w e q' := by
  rcases request_origin h hq' with ⟨q, hq, rfl⟩ | ⟨j, hins, -⟩
  · rcases completed_back (request_step h q) hc with heq |
      ⟨s, now, top1, r, resp, cached, emb, he, hr, hst, hid, heq⟩
    · exact .inl (by rw [heq]; exact hq)
    · -- the run works from a copy of the row it was claimed with
      have htext : q.text = r.req.text := congrArg (·.2.2.1) (ht.request_of_id hr hq hid)
      have hhash : q.textHash = env.hashText r.req.text := by rw [ht.hashed hq, htext]
      rw [heq]
      exact .inr ⟨s, now, top1, r, resp, cached, emb, he, hr, hst, htext, hhash, rfl, rfl⟩
  · obtain ⟨c, k, now, inTime, -, -, -, rfl, -⟩ := hins.call
    cases hc

/-! ## Job rows -/

/-- The columns of a job row that only make sense together. -/
structure Shaped (w : World) : Prop where
  /-- A queued job belongs to nobody. -/
  queued : ∀ {j}, j ∈ w.db.jobs.rows → j.status = .queued → j.workerId = none
  /-- A job in progress has a lease. -/
  leased : ∀ {j}, j ∈ w.db.jobs.rows → j.status = .processing → j.lockedUntil.isSome = true

/-- What every history of calls leaves of the lease columns, every run does. -/
theorem world_leaseBasics (h : (machine env).ReachableWhere H w) :
    ∀ j ∈ w.db.jobs.rows, LeaseBasics j :=
  leaseBasics_reachable (db_reachable (K := Machine.Always) h fun _ => trivial)

/-- **In every reachable world the job rows are in shape.** -/
theorem shaped_reachable (h : (machine env).ReachableWhere H w) : Shaped w where
  queued {j} hj := (world_leaseBasics h j hj).unowned
  leased {j} hj := (world_leaseBasics h j hj).leased

/-! ## Calls -/

/-- Every call past its first read has left something in the history. -/
def OnRecord (w : World) : Prop :=
  ∀ c k, w.calls c = some k → k.stage ≠ .check → c ∈ w.callers

theorem onRecord_init : OnRecord World.init := by
  intro c k hk; cases hk

theorem callers_mono (h : Move env w e w') {c : Nat} (hc : c ∈ w.callers) : c ∈ w'.callers := by
  obtain ⟨es, hlog⟩ := log_grows h
  unfold callers at hc ⊢
  rw [List.mem_toFinset] at hc ⊢
  rw [← hlog, List.filterMap_append]
  exact List.mem_append_left _ hc

theorem onRecord_step (h : Move env w e w') (hi : OnRecord w) : OnRecord w' := by
  intro c k' hk' hst
  rcases call_cases h hk' with ⟨k, hk, hks⟩ | ⟨args, -, rfl⟩
  · cases hks with
    | same he => exact callers_mono h (hi c _ hk hst)
    | @wrote _ _ now inTime t ht =>
        have hiss : w.issued env (.call c now inTime) = some (.call c, t) :=
          issued_call hk ht
        unfold callers
        rw [List.mem_toFinset, log_issued h hiss, List.filterMap_append]
        exact List.mem_append_right _ (by simp [Entry.caller])
  · exact absurd rfl hst

/-- **In every reachable world the calls past their first read are on record.** -/
theorem onRecord_reachable (h : (machine env).ReachableWhere H w) : OnRecord w :=
  invariant_of_moves h onRecord_init fun _ hi _ hm => onRecord_step hm hi

/-- Where a call stands, without a look at the history. -/
theorem mem_callsAt (hi : OnRecord w) {p : CallStage → Bool} (hp : p .check = false) {c : Nat} :
    c ∈ w.callsAt p ↔ ∃ k, w.calls c = some k ∧ p k.stage = true := by
  unfold callsAt
  rw [Finset.mem_filter]
  constructor
  · rintro ⟨-, ha⟩
    cases hk : w.calls c with
    | none => rw [hk] at ha; cases ha
    | some k => rw [hk] at ha; exact ⟨k, rfl, ha⟩
  · rintro ⟨k, hk, hpk⟩
    refine ⟨hi c k hk ?_, by rw [hk]; exact hpk⟩
    intro hst
    rw [hst, hp] at hpk
    cases hpk

end PromptQueue.Proof
