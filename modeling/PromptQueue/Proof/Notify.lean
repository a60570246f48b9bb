import PromptQueue.Proof.Final
import PromptQueue.Proof.Stranded

/-!
# What a notification says

A slot notifies the waiters of a request whenever its pipeline was not cancelled.
But `execute` returns from a deferral and from a retry as well, and an exception
that escapes the failure handler is no cancellation either. So the notification is
true exactly where the pipeline ends otherwise — and there it is, as long as nobody
else writes the row.
-/

namespace PromptQueue

/-- Whether an entry is a write to the row of a request. -/
def Entry.writesRequest (requestId : Nat) : Entry → Bool
  | .tx _ (.updateStatus q _ _) _ | .tx _ (.updateRetry q _ _ _ _) _
  | .tx _ (.requestMarkCompleted q _ _ _ _) _ | .tx _ (.requestMarkFailed q _ _ _) _ =>
      q = requestId
  | .lost j _ => j.promptRequestId = requestId
  | _ => false

/-- Whether an entry is a transaction of a slot. -/
def Entry.bySlot (s : WorkerId) : Entry → Bool
  | .tx who _ _ => who = .slot s
  | _ => false

/-- Nobody but its own slot has written a run's request since the claim. -/
def SoleWriter (log : List Entry) (r : Run) : Prop :=
  ∀ x ∈ log.drop r.ticket, x.writesRequest r.req.id = true →
    x.bySlot (PromptPipeline.workerId r) = true

instance (log : List Entry) (r : Run) : Decidable (SoleWriter log r) :=
  inferInstanceAs (Decidable (∀ x ∈ log.drop r.ticket, _ → _))

/-- The stages in which the request should have its outcome. -/
def Stage.concluded : Stage → Bool
  | .finishJob | .done .returned | .done .raised => true
  | _ => false

/-- The next transaction of a pipeline raises. -/
def Event.raises : Event → Bool
  | .dbError _ _ => true
  | _ => false

end PromptQueue

namespace PromptQueue.Proof

open PromptQueue Base World

variable {S : Type} [LinearOrder S] {env : Env S} {w w' : World} {e : Event}

/-- A slot about to notify the waiters of a request tells them of a terminal row. -/
def Truthful (env : Env S) (w : World) : Prop :=
  ∀ s r w', w.slots s = .running r → World.step env w (.next s) = some w' →
    .notified r.req.id ∈ w'.log.drop w.log.length → SoleWriter w.log r →
    ∃ q ∈ w.db.requests.rows, q.id = r.req.id ∧ q.status.isTerminal = true

/--
A step that ends no pipeline short of an outcome. A deferral, a retry that finds its
lease gone and an exception in the failure handler end one without a write to the
request, which is then terminal only if it was before; the second write of a retry
puts it back in the queue.
-/
def Conclusive (w : World) (e : Event) : Prop :=
  ∀ r ∈ w.runOf e, SoleWriter w.log r →
    (e.writes = true → r.stage.defers = true ∨ (r.stage.retries = true ∧ ¬ Owns w r) →
      Settled w r.req.id) ∧
    (e.writes = true → r.stage.halfRetried = false) ∧
    (e.raises = true → PromptPipeline.inRun r.stage = false → Settled w r.req.id)

instance (w : World) : DecidablePred (Conclusive w) :=
  fun e => inferInstanceAs (Decidable (∀ r ∈ w.runOf e, _))

/-! ## A row nobody else writes -/

theorem alone_same {log : List Entry} {r r' : Run} (h : SameRun r r') :
    SoleWriter log r' ↔ SoleWriter log r := by
  unfold SoleWriter PromptPipeline.workerId
  rw [h.1, h.2.1, h.2.2.1]

theorem alone_back (h : Move env w e w') {r : Run} (ht : r.ticket ≤ w.log.length)
    (ha : SoleWriter w'.log r) : SoleWriter w.log r := by
  obtain ⟨es, hlog⟩ := log_grows h
  intro x hx
  refine ha x ?_
  rw [← hlog, List.drop_append_of_le_length ht]
  exact List.mem_append_left _ hx

/-- What a move records comes after the claim of every run there is. -/
theorem fresh_after_claim {r : Run} (ht : r.ticket ≤ w.log.length) {es : List Entry}
    (hlog : w'.log = w.log ++ es) {x : Entry} (hx : x ∈ es) : x ∈ w'.log.drop r.ticket := by
  rw [hlog, List.drop_append_of_le_length ht]
  exact List.mem_append_right _ hx

/-- A transaction on the row of a run that is alone with it is the run's own. -/
theorem issuer_of_alone (h : Move env w e w') (ht : Tied env w) {s : WorkerId} {r : Run}
    (hr : w.slots s = .running r) (ha : SoleWriter w'.log r) {who : Proc} {t : Tx}
    (hi : w.issued env e = some (who, t))
    (hw : (Entry.tx who t (w.db.exec t).2).writesRequest r.req.id = true) : who = .slot s := by
  have hmem := fresh_after_claim (ht.ticket hr) (log_issued h hi) List.mem_cons_self
  have hby : who = .slot (PromptPipeline.workerId r) := of_decide_eq_true (ha _ hmem hw)
  rw [hby, ht.workerId hr]

/-- The reaper leaves the row of such a run alone. -/
theorem not_reaped_of_alone {now : Time} (h : Move env w (.reap now) w') (ht : Tied env w)
    {s : WorkerId} {r : Run} (hr : w.slots s = .running r) (ha : SoleWriter w'.log r)
    {j : ProcessingJob} (hj : j ∈ w.db.jobs.rows) (hx : ProcessingJob.Expired now j) :
    j.promptRequestId ≠ r.req.id := by
  intro hid
  have hi : w.issued env (.reap now) = some (.reaper, .reapExpiredLeases now) := rfl
  have hlost : Entry.lost j (resets w.log j.promptRequestId)
      ∈ Entry.tx .reaper (.reapExpiredLeases now) (w.db.exec (.reapExpiredLeases now)).2
        :: w.takes (.reapExpiredLeases now) :=
    List.mem_cons_of_mem _ (List.mem_map_of_mem (List.mem_filter.mpr ⟨hj, decide_eq_true hx⟩))
  have hmem := fresh_after_claim (ht.ticket hr) (log_issued h hi) hlost
  exact Bool.false_ne_true (ha _ hmem (decide_eq_true hid))

/-- **Where nobody else writes a row, only the run's own transactions change it.** -/
theorem request_of_alone (h : Move env w e w') (ht : Tied env w) {s : WorkerId} {r : Run}
    (hr : w.slots s = .running r) (ha : SoleWriter w'.log r) {q : PromptRequest}
    (hid : q.id = r.req.id) :
    w.requestAfter env e q = q ∨ ∃ now top1, e = .pipeline s now top1 := by
  have hst := request_step h q
  generalize w.requestAfter env e q = q' at hst
  -- a write by a pipeline is by the pipeline of this slot
  have own : ∀ {s₀ : WorkerId} {x : Run} {now : Time} {top1 : Option Nat} {t : Tx},
      e = .pipeline s₀ now top1 → w.slots s₀ = .running x →
      PromptPipeline.call env x now top1 = some t →
      (Entry.tx (.slot s₀) t (w.db.exec t).2).writesRequest r.req.id = true →
      ∃ now top1, e = .pipeline s now top1 := by
    rintro s₀ x now top1 t rfl hs ht' hw
    have hi : w.issued env (.pipeline s₀ now top1) = some (.slot s₀, t) :=
      issued_pipeline hs ht'
    cases issuer_of_alone h ht hr ha hi hw
    exact ⟨now, top1, rfl⟩
  cases hst with
  | same => exact .inl rfl
  | @reenqueued c k now inTime x _ hc hst hq =>
      have hcall : PromptProcessor.call env k now = some (.updateStatus x.id .queued now) :=
        PromptProcessor.turn_iff.mpr (.reenqueue hst)
      have hi : w.issued env (.call c now inTime)
          = some (.call c, .updateStatus x.id .queued now) :=
        issued_call hc hcall
      have hwho := issuer_of_alone h ht hr ha hi (decide_eq_true (hq.symm.trans hid))
      cases hwho
  | @retried s₀ now top1 x _ exc hs hst hq =>
      have hcall : PromptPipeline.call env x now top1 = some (.updateRetry x.req.id .queued
          (x.req.retryCount + 1) exc.message now) := by
        unfold PromptPipeline.call; rw [hst]
      exact .inr (own rfl hs hcall (decide_eq_true (hq.symm.trans hid)))
  | @completed s₀ now top1 x _ resp cached emb hs hst hq =>
      have hcall : PromptPipeline.call env x now top1 = some (.requestMarkCompleted x.req.id
          resp cached (some emb) now) := by
        unfold PromptPipeline.call; rw [hst]
      exact .inr (own rfl hs hcall (decide_eq_true (hq.symm.trans hid)))
  | @failed s₀ now top1 x _ exc hs hst hq =>
      have hcall : PromptPipeline.call env x now top1 = some (.requestMarkFailed x.req.id
          exc.message (x.req.retryCount + 1) now) := by
        unfold PromptPipeline.call; rw [hst]
      exact .inr (own rfl hs hcall (decide_eq_true (hq.symm.trans hid)))
  | requeued hj hrec hq =>
      exact absurd (hq.symm.trans hid) (not_reaped_of_alone h ht hr ha hj hrec.1)
  | expired hj hx hq =>
      exact absurd (hq.symm.trans hid) (not_reaped_of_alone h ht hr ha hj hx.1)

/-! ## The invariant -/

/-- Where its request should have its outcome, a run that is alone with it has seen to that. -/
def Concluded (w : World) : Prop :=
  ∀ s r, w.slots s = .running r → SoleWriter w.log r → r.stage.concluded = true →
    Settled w r.req.id

theorem concluded_init : Concluded World.init := by
  intro s r hr; cases hr

/-- Settled rows that nobody touches stay settled. -/
theorem settled_step (h : Move env w e w') (ht : Tied env w) {s : WorkerId} {r : Run}
    (hr : w.slots s = .running r) (hset : ∀ q ∈ w.db.requests.rows, q.id = r.req.id →
      (w.requestAfter env e q).status.isTerminal = true) : Settled w' r.req.id := by
  intro q' hq' hid
  rcases request_origin h hq' with ⟨q, hq, rfl⟩ | ⟨j, hins, -⟩
  · exact hset q hq (by simpa using hid)
  · obtain ⟨q, hq, hst⟩ := ht.request hr
    have hq₀ : q.id = r.req.id := congrArg (·.1) hst
    exact absurd (hq₀.trans hid.symm) (hins.request_fresh hq)

theorem handleFailure_not_concluded (job : ProcessingJob) (exc : Exc) :
    (PromptPipeline.handleFailure job exc).concluded = false := by
  rcases PromptPipeline.handleFailure_cases job exc with ⟨wait, -, hs⟩ | ⟨-, -, hs⟩ |
    ⟨-, -, -, hs⟩ <;> (rw [hs]; rfl)

/-- A release that fails finds a row that does not name the run. -/
theorem not_owns_of_missed (ht : Tied env w) {s : WorkerId} {r : Run}
    (hr : w.slots s = .running r)
    (hown : w.db.jobs.hits (ProcessingJob.OwnedBy r.job.id (PromptPipeline.workerId r)) = false) :
    ¬ Owns w r := by
  intro ho
  obtain ⟨j, hj, hst⟩ := ht.job hr
  have hid : j.id = r.job.id := congrArg (·.1) hst
  have hhit : w.db.jobs.hits (ProcessingJob.OwnedBy r.job.id (PromptPipeline.workerId r)) = true :=
    Table.hits_iff.mpr ⟨j, hj, hid, ho j hj hid⟩
  rw [hown] at hhit
  cases hhit

/-- A conclusive turn of a pipeline that is alone with its request leaves the row terminal. -/
theorem settled_of_turn (ht : Tied env w) (hi : Concluded w) {s : WorkerId} {r : Run}
    {now : Time} {top1 : Option Nat} {t : Tx} {x : Stage} (hr : w.slots s = .running r)
    (ha : SoleWriter w.log r) (hH : Conclusive w (.pipeline s now top1))
    (hturn : PromptPipeline.Turn env w.db r now top1 t x) (hx : x.concluded = true)
    {q : PromptRequest} (hq : q ∈ w.db.requests.rows) (hid : q.id = r.req.id) :
    (t.onRequest w.db q).status.isTerminal = true := by
  obtain ⟨hdefer, hretry, -⟩ := hH r (runOf_eq rfl hr) ha
  cases hturn with
  | deferred hst => exact hdefer rfl (.inl (by rw [hst]; rfl)) q hq hid
  | limited hst => exact hdefer rfl (.inl (by rw [hst]; rfl)) q hq hid
  | disowned hst hown =>
      exact hdefer rfl (.inr ⟨by rw [hst]; rfl, not_owns_of_missed ht hr hown⟩) q hq hid
  | retried hst =>
      have hhalf := hretry rfl
      rw [hst] at hhalf
      cases hhalf
  | closed hst => exact hi s r hr ha (by rw [hst]; rfl) q hq hid
  | finished hst =>
      simp only [Tx.onRequest]
      rw [Table.updateRow, if_pos hid]
      rfl
  | failed hst =>
      simp only [Tx.onRequest]
      rw [Table.updateRow, if_pos hid]
      rfl
  | _ => cases hx

/-- **One conclusive step keeps every run's word.** -/
theorem concluded_step (h : Move env w e w') (ht : Tied env w) (hi : Concluded w)
    (hH : Conclusive w e) : Concluded w' := by
  intro s r' hr' ha' hc
  rcases run_cases h hr' with ⟨r, hr, hrs⟩ | hcl
  · rw [alone_same hrs.sameRun] at ha'
    rw [hrs.sameRun.2.1]
    have ha := alone_back h (ht.ticket hr) ha'
    refine settled_step h ht hr fun q hq hid => ?_
    have hkeep := request_of_alone h ht hr ha' hid
    cases hrs with
    | same he =>
        rcases hkeep with heq | ⟨now, top1, rfl⟩
        · rw [heq]; exact hi s _ hr ha hc q hq hid
        · exact absurd rfl he
    | beat hl =>
        rcases hkeep with heq | ⟨now, top1, he⟩
        · rw [heq]; exact hi s r hr ha hc q hq hid
        · cases he
    | wrote htx =>
        obtain ⟨x, hx, hturn⟩ := PromptPipeline.turn_of_call w.db htx
        rw [requestAfter_pipeline hr htx]
        rw [hx] at hc
        exact settled_of_turn ht hi hr ha hH hturn hc hq hid
    | thought he hth =>
        rcases hkeep with heq | ⟨now, top1, rfl⟩
        · rw [heq]
          cases hth with
          | dbError hcall =>
              cases he
              dsimp only [PromptPipeline.fail] at hc
              split at hc
              · rw [handleFailure_not_concluded] at hc; cases hc
              · rename_i hin
                exact (hH r (runOf_eq rfl hr) ha).2.2 rfl (by simpa using hin) q hq hid
          | unavailable hst => rw [handleFailure_not_concluded] at hc; cases hc
          | failed hx hst => rw [handleFailure_not_concluded] at hc; cases hc
          | _ => cases hc
        · cases he
  · rw [hcl.start] at hc
    cases hc

theorem concluded_reachable (h : (machine env).ReachableWhere Conclusive w) : Concluded w :=
  invariant_of_moves h concluded_init fun hr hi hH hm =>
    concluded_step hm (tied_reachable hr) hi hH

/--
**In a conclusive run notifications are truthful.** Whenever a slot notifies the
waiters of a request whose row nobody else has written since the slot's claim, the
request is completed or failed.
-/
theorem notifications_truthful (h : (machine env).ReachableWhere Conclusive w) :
    Truthful env w := by
  intro s r w' hr hstep hn ha
  have hset : Settled w r.req.id := by
    refine concluded_reachable h s r hr ha ?_
    cases move_of_step hstep with
    | @next _ r₀ how hs hd =>
        cases Slot.running.inj (hs.symm.trans hr)
        rw [hd]
        cases how with
        | cancelled => simp [note, setSlot, afterTask] at hn
        | returned => rfl
        | raised => rfl
    | think hs he ht => cases he
  obtain ⟨q, hq, hst⟩ := (tied_reachable h).request hr
  have hid : q.id = r.req.id := congrArg (·.1) hst
  exact ⟨q, hq, hid, hset q hq hid⟩

/-! ## The other steps -/

/-- A slot whose pipeline was not cancelled notifies next. -/
theorem notifies_next (env : Env S) {s : WorkerId} {r : Run} {how : Ending}
    (hr : w.slots s = .running r)
    (hd : r.stage = .done how) (hc : how ≠ .cancelled) :
    ∃ w', World.step env w (.next s) = some w' ∧
      .notified r.req.id ∈ w'.log.drop w.log.length := by
  have hstep : World.step env w (.next s)
      = some ((w.setSlot s (afterTask r how).1).note (afterTask r how).2) := by
    simp only [World.step, withRun, hr, hd]
  refine ⟨_, hstep, ?_⟩
  cases how with
  | cancelled => exact absurd rfl hc
  | returned => simp [note, setSlot, afterTask]
  | raised => simp [note, setSlot, afterTask]

theorem returned_ne_cancelled : Ending.returned ≠ .cancelled := by decide

theorem raised_ne_cancelled : Ending.raised ≠ .cancelled := by decide

/-- A pipeline that ends over a row that is not terminal makes its slot tell an untruth. -/
theorem untruthful_of_end (h : Move env w e w') {s : WorkerId} {r r' : Run} {how : Ending}
    (hr' : w'.slots s = .running r') (hsame : SameRun r r') (hd : r'.stage = .done how)
    (hc : how ≠ .cancelled) (ha : SoleWriter w'.log r) {q : PromptRequest}
    (hq : q ∈ w.db.requests.rows) (hid : q.id = r.req.id)
    (hn : (w.requestAfter env e q).status.isTerminal = false) : ¬ Truthful env w' := by
  intro htrue
  obtain ⟨w'', hstep, hnote⟩ := notifies_next env hr' hd hc
  obtain ⟨q', hq', hid', hterm⟩ := htrue s r' w'' hr' hstep hnote ((alone_same hsame).mpr ha)
  have hrow := request_goes_on h hq
  have hrid : (w.requestAfter env e q).id = q'.id := by
    rw [requestAfter_id, hid, hid', hsame.2.1]
  rw [Db.request_eq_of_id hrow hq' hrid, hterm] at hn
  cases hn

/-- A turn that does not write another's row leaves the run as alone as it was. -/
theorem alone_after_turn (h : Move env w e w') (ht : Tied env w) {s : WorkerId} {r : Run}
    {now : Time} {top1 : Option Nat} {t : Tx} (he : e = .pipeline s now top1)
    (hr : w.slots s = .running r) (htx : PromptPipeline.call env r now top1 = some t)
    (ha : SoleWriter w.log r) : SoleWriter w'.log r := by
  subst he
  have hi : w.issued env (.pipeline s now top1) = some (.slot s, t) :=
    issued_pipeline hr htx
  have htakes : w.takes t = [] := by
    obtain ⟨x, -, hturn⟩ := PromptPipeline.turn_of_call w.db htx
    cases hturn <;> rfl
  intro x hx hw
  rw [log_issued h hi, htakes, List.drop_append_of_le_length (ht.ticket hr)] at hx
  rcases List.mem_append.mp hx with hx | hx
  · exact ha x hx hw
  · rw [List.mem_singleton.mp hx]
    exact decide_eq_true (by rw [ht.workerId hr])

/-- A row that is not settled. -/
theorem open_row {q : Nat} (h : ¬ Settled w q) :
    ∃ r ∈ w.db.requests.rows, r.id = q ∧ r.status.isTerminal = false := by
  unfold Settled at h
  push Not at h
  obtain ⟨r, hr, hid, hn⟩ := h
  exact ⟨r, hr, hid, Bool.eq_false_iff.mpr hn⟩

/-- A deferral, or a retry without a lease, ends the pipeline and writes no request. -/
theorem turn_of_deferral {r : Run} {now : Time} {top1 : Option Nat} {t : Tx} {x : Stage}
    (hturn : PromptPipeline.Turn env w.db r now top1 t x)
    (hst : r.stage.defers = true ∨ (r.stage.retries = true ∧ ¬ Owns w r)) :
    x = .done .returned ∧ ∀ q, t.onRequest w.db q = q := by
  cases hturn with
  | deferred h => exact ⟨rfl, fun _ => rfl⟩
  | limited h => exact ⟨rfl, fun _ => rfl⟩
  | disowned h hown => exact ⟨rfl, fun _ => rfl⟩
  | released h hown =>
      rcases hst with hst | ⟨-, hno⟩
      · rw [h] at hst; cases hst
      · obtain ⟨j, hj, ho⟩ := Table.hits_iff.mp hown
        exact absurd (owns_of_row hj ho) hno
  | _ => simp_all [Stage.defers, Stage.retries]

/-- **A step that is not conclusive makes the next notification untrue.** -/
theorem untruthful_of_inconclusive (hreach : (machine env).Reachable w)
    (hs : World.step env w e = some w') (hn : ¬ Conclusive w e) : ¬ Truthful env w' := by
  have h := move_of_step hs
  have ht := tied_reachable hreach
  intro htrue
  refine hn fun r hr ha => ⟨fun hw hst => ?_, fun hw => ?_, fun hx hin => ?_⟩
  · obtain ⟨s, now, top1, t, x, he, hrun, htx, hturn, hr'⟩ := turn_of_writes h hr hw
    obtain ⟨rfl, hq₀⟩ := turn_of_deferral hturn hst
    by_contra hset
    obtain ⟨q, hq, hid, hopen⟩ := open_row hset
    subst he
    have hsame : SameRun r { r with stage := .done .returned } := ⟨rfl, rfl, rfl, rfl⟩
    refine untruthful_of_end h hr' hsame rfl returned_ne_cancelled
      (alone_after_turn h ht rfl hrun htx ha) hq hid ?_ htrue
    rw [requestAfter_pipeline hrun htx, hq₀]
    exact hopen
  · obtain ⟨s, now, top1, t, x, he, hrun, htx, hturn, hr'⟩ := turn_of_writes h hr hw
    cases hturn with
    | retried hst =>
        obtain ⟨q, hq, hqs⟩ := ht.request hrun
        have hid : q.id = r.req.id := congrArg (·.1) hqs
        subst he
        have hsame : SameRun r { r with stage := .done .returned } := ⟨rfl, rfl, rfl, rfl⟩
        refine absurd htrue (untruthful_of_end h hr' hsame rfl returned_ne_cancelled
          (alone_after_turn h ht rfl hrun htx ha) hq hid ?_)
        rw [requestAfter_pipeline hrun htx]
        simp only [Tx.onRequest]
        rw [Table.updateRow, if_pos hid]
        rfl
    | _ => simp_all [Stage.halfRetried]
  · obtain ⟨s, hslot, hrun⟩ := run_of_runOf hr
    by_contra hset
    obtain ⟨q, hq, hid, hopen⟩ := open_row hset
    rcases run_forward h hrun with ⟨r', hr', hrs⟩ | rfl | ⟨rfl, -⟩
    · cases hrs with
      | same he => exact he hslot
      | wrote htx => cases hx
      | beat hl => cases hx
      | thought he hth =>
          have hlog := log_thought h hrun he hth
          cases hth with
          | dbError hcall =>
              rw [List.append_nil] at hlog
              have hfail : ∀ exc, PromptPipeline.fail r exc = .done .raised :=
                fun _ => if_neg (by rw [hin]; decide)
              have ha' : SoleWriter w'.log r := by rw [hlog]; exact ha
              exact untruthful_of_end h hr' ⟨rfl, rfl, rfl, rfl⟩ (hfail _) raised_ne_cancelled ha'
                hq hid hopen htrue
          | _ => cases hx
    · cases hx
    · cases hx

/-! ## True and untrue notifications -/

/-- The pipeline in slot 0 has returned, and nobody else has written its request. -/
def Returned (w : World) : Prop :=
  ∃ r ∈ w.runOf (.next 0), r.stage = .done .returned ∧ SoleWriter w.log r

instance (w : World) : Decidable (Returned w) :=
  inferInstanceAs (Decidable (∃ r ∈ w.runOf (.next 0), _))

/-- A pipeline whose request the provider answers tells the truth. -/
theorem notifications_truthful_of_answer : ∃ w, Returned w ∧ Truthful deployment w := by
  obtain ⟨w, hw, ht⟩ := Machine.reachableWhere_of_run (m := machine deployment)
    (H := Conclusive) (E := answeredRun ++ [.pipeline 0 3 none])
    (p := fun w => decide (Returned w)) (by decide +kernel)
  exact ⟨w, of_decide_eq_true ht, notifications_truthful hw⟩

/-- A pipeline the limiter denies gives its job back and returns. -/
def deniedRun : List Event :=
  submission 0 "p" "a" ++ [.claim 0 1 [] (some 1), .pipeline 0 1 none, .pipeline 0 1 none,
    .limiter 0 .denied, .pipeline 0 2 none]

/-- **The waiters of a queued request are told that it is done.** -/
theorem notified_of_queued : ∃ w, (machine deployment).Reachable w ∧
    ¬ Truthful deployment w := by
  obtain ⟨w, -, hw, ht⟩ := Machine.reachable_of_run (m := machine deployment) (E := deniedRun)
    (p := fun w => decide (Returned w ∧ ∀ q ∈ w.db.requests.rows, q.status = .queued))
    (by decide +kernel)
  obtain ⟨⟨r, hr, hd, ha⟩, hq⟩ := of_decide_eq_true ht
  refine ⟨w, hw, fun htrue => ?_⟩
  obtain ⟨s, -, hrun⟩ := run_of_runOf hr
  obtain ⟨w', hstep, hnote⟩ := notifies_next deployment hrun hd returned_ne_cancelled
  obtain ⟨q, hqm, -, hterm⟩ := htrue s r w' hrun hstep hnote ha
  rw [hq q hqm] at hterm
  cases hterm

end PromptQueue.Proof
