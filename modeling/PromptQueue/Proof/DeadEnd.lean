import PromptQueue.Proof.Stranded
import PromptQueue.Proof.Reenqueue

/-!
# Dead ends

Which requests can still be completed? `Lifeline` lists what a request that is neither
completed nor failed has to hang on to: a job that is queued or in progress, a pipeline
or a call with a write to it ahead. A request with a lifeline can be completed, whatever
else is going on: some continuation of the run does it. One without has come to a dead
end — nothing that any process can do from there on, resubmissions included, ever makes
it terminal.

The first half builds the continuation: a job is claimed by a worker that has just
started, and a failed request is submitted once more. The second half is an invariant.
-/

namespace PromptQueue

/-- The stages from which a pipeline gets to its request, whatever became of the job. -/
def Stage.reaches : Stage → Bool
  | .markDead _ | .markFailed _ => true
  | x => PromptPipeline.inRun x

end PromptQueue

namespace PromptQueue.Proof

open PromptQueue Base World

variable {S : Type} [LinearOrder S] {env : Env S} {w w' : World} {e : Event}

/-- The request is completed. -/
def Completed (q : Nat) (w : World) : Prop :=
  ∃ r ∈ w.db.requests.rows, r.id = q ∧ r.status = .completed

/-- The request is completed or failed. -/
def Terminated (q : Nat) (w : World) : Prop :=
  ∃ r ∈ w.db.requests.rows, r.id = q ∧ r.status.isTerminal = true

/-- What can still bring a request to an end. -/
inductive Lifeline (w : World) (q : Nat) : Prop where
  /-- Its job can be claimed, or reclaimed. -/
  | job {j : ProcessingJob} (hj : j ∈ w.db.jobs.rows) (hjq : j.promptRequestId = q)
      (hr : Recoverable j)
  /-- A pipeline has a write to it ahead. -/
  | run {s : WorkerId} {r : Run} (hs : w.slots s = .running r) (hrq : r.req.id = q)
      (hst : r.stage.reaches = true)
  /-- A pipeline is about to release the job, and the job is still its own. -/
  | release {s : WorkerId} {r : Run} {j : ProcessingJob} (hs : w.slots s = .running r)
      (hrq : r.req.id = q) (hst : r.stage.releases = true) (hj : j ∈ w.db.jobs.rows)
      (ho : ProcessingJob.OwnedBy r.job.id s j)
  /-- A call is about to reset the job. -/
  | call {c : Nat} {k : Call} {x : PromptRequest} (hc : w.calls c = some k)
      (hx : x ∈ k.stage.reenqueues) (hid : x.id = q)

/-! ## Fresh processes -/

theorem reachable_step (h : (machine env).Reachable w) (hw : World.step env w e = some w') :
    (machine env).Reachable w' := h.tail (e := e) trivial hw

theorem leads_of_step {P : World → Prop} (hw : World.step env w e = some w')
    (h : (machine env).Leads P w') : (machine env).Leads P w :=
  Machine.Leads.head (m := machine env) (e := e) hw h

/-- Some slot has yet to start. -/
theorem fresh_slot (h : (machine env).Reachable w) : ∃ s, w.slots s = .idle := by
  have key : ∃ n : Nat, ∀ s : Nat, n ≤ s → w.slots s = .idle := by
    refine invariant_of_moves (I := fun w => ∃ n : Nat, ∀ s : Nat, n ≤ s → w.slots s = .idle) h
      ⟨0, fun _ _ => rfl⟩ fun {u v e} _ hi _ hm => ?_
    obtain ⟨n, hn⟩ := hi
    -- a move is of one slot at most
    refine ⟨max n (e.slot.elim 0 (· + 1)), fun s hs => ?_⟩
    rw [slot_frame hm, hn s (by omega)]
    intro he
    rw [he, Option.elim_some] at hs
    omega
  obtain ⟨n, hn⟩ := key
  exact ⟨n, hn n (Nat.le_refl n)⟩

/-- Some call has yet to be made. -/
theorem fresh_call (h : (machine env).Reachable w) : ∃ c, w.calls c = none := by
  have key : ∃ n, ∀ c, n ≤ c → w.calls c = none := by
    refine invariant_of_moves (I := fun w => ∃ n, ∀ c, n ≤ c → w.calls c = none) h
      ⟨0, fun _ _ => rfl⟩ fun {u v e} _ hi _ hm => ?_
    obtain ⟨n, hn⟩ := hi
    refine ⟨max n (e.caller.elim 0 (· + 1)), fun c hc => ?_⟩
    rw [call_frame hm, hn c (by omega)]
    intro he
    rw [he, Option.elim_some] at hc
    omega
  obtain ⟨n, hn⟩ := key
  exact ⟨n, hn n (Nat.le_refl n)⟩

/-! ## One step on the way -/

/-- A thought is a step. -/
theorem step_of_thought {s : WorkerId} {r r' : Run} {es : List Entry}
    (hs : w.slots s = .running r) (he : thinker e = some s) (ht : Thought env r e r' es) :
    ∃ w', World.step env w e = some w' ∧ w'.slots s = .running r' := by
  have hth := think_of_thought ht
  refine ⟨(w.setSlot s (.running r')).note es, ?_, setSlot_slots_self _ _ _⟩
  cases ht <;> (cases he; simp only [World.step, thinker, withRun, hs, hth, Option.map_some])

/-- A call about to issue a transaction can issue it. -/
theorem step_of_call {c : Nat} {k : Call} {now : Time} {t : Tx} (hc : w.calls c = some k)
    (ht : PromptProcessor.call env k now = some t) :
    ∃ w', World.step env w (.call c now true) = some w' ∧ w'.db = (w.db.exec t).1 ∧
      w'.calls c
        = some { k with stage := PromptProcessor.resume env k true (w.db.exec t).2 } := by
  refine ⟨(w.commit (.call c) t).setCall c
    (some { k with stage := PromptProcessor.resume env k true (w.db.exec t).2 }), ?_, rfl,
    setCall_calls_self _ _ _⟩
  simp only [World.step, hc, ht, Option.map_some]

/-- No repository call takes a pipeline underway anywhere else. -/
theorem turn_of_underway {db : Db} {r : Run} {now : Time} {top1 : Option Nat} {t : Tx} {x : Stage}
    (h : PromptPipeline.Turn env db r now top1 t x) (hp : r.stage.phase < 6) : x.phase ≤ 6 := by
  cases h <;> simp_all [Stage.phase]

/-- The last stage underway is the write itself. -/
theorem finishing_of_phase {x : Stage} (hp : x.phase = 6) :
    ∃ resp cached emb, x = .finishRequest resp cached emb := by
  cases x with
  | finishRequest resp cached emb => exact ⟨resp, cached, emb, rfl⟩
  | _ => simp [Stage.phase] at hp

/-- **A pipeline underway takes a step towards `mark_completed`.** -/
theorem step_of_underway (env : Env S) {s : WorkerId} {r : Run} (hs : w.slots s = .running r)
    (hp : r.stage.phase < 6) : ∃ e w' r', World.step env w e = some w' ∧
      w'.slots s = .running r' ∧ r'.req = r.req ∧ r.stage.phase < r'.stage.phase ∧
      r'.stage.phase ≤ 6 := by
  -- a repository call, and where it leads
  have turn : (PromptPipeline.call env r 0 none).isSome = true →
      ∃ e w' r', World.step env w e = some w' ∧ w'.slots s = .running r' ∧ r'.req = r.req ∧
        r.stage.phase < r'.stage.phase ∧ r'.stage.phase ≤ 6 := by
    intro hcall
    obtain ⟨t, ht⟩ := Option.isSome_iff_exists.mp hcall
    obtain ⟨x, w', hturn, -, hw, -, hr'⟩ := pipeline_turn hs ht
    exact ⟨_, w', _, hw, hr', rfl, phase_turn hturn, turn_of_underway hturn hp⟩
  -- an answer, and where it leads
  have think : ∀ {e : Event} {r' : Run} {es : List Entry}, thinker e = some s →
      Thought env r e r' es → r'.req = r.req → r'.stage.phase ≤ 6 →
      ∃ e w' r', World.step env w e = some w' ∧ w'.slots s = .running r' ∧ r'.req = r.req ∧
        r.stage.phase < r'.stage.phase ∧ r'.stage.phase ≤ 6 := by
    intro e r' es he hth hreq hx
    obtain ⟨w', hw, hr'⟩ := step_of_thought hs he hth
    exact ⟨e, w', r', hw, hr', hreq, phase_thought hth, hx⟩
  obtain ⟨x, hst⟩ : ∃ x, r.stage = x := ⟨_, rfl⟩
  cases x with
  | tryAcquire emb =>
      exact think (e := .limiter s .granted) rfl (.granted hst) rfl (by simp [Stage.phase])
  | llm emb => exact think (e := .llmCall s) rfl (.called hst) rfl (by simp [Stage.phase])
  | llmWait emb =>
      exact think (e := .llmReturn s "") rfl (.answered hst) rfl (by simp [Stage.phase])
  | findExact | findNearest emb | incrementHit y emb | store emb resp =>
      exact turn (by simp [PromptPipeline.call, hst])
  | _ =>
      rw [hst] at hp
      simp [Stage.phase] at hp

/-! ## Every lifeline leads to completion -/

/-- The write itself. -/
theorem leads_of_finishing (h : (machine env).Reachable w) {s : WorkerId} {r : Run}
    (hs : w.slots s = .running r) {resp : String} {cached : Bool} {emb : Vector}
    (hst : r.stage = .finishRequest resp cached emb) :
    (machine env).Leads (Completed r.req.id) w := by
  have ht : PromptPipeline.call env r 0 none
      = some (.requestMarkCompleted r.req.id resp cached (some emb) 0) := by
    simp only [PromptPipeline.call, hst]
  obtain ⟨x, w', -, -, hw, -, -⟩ := pipeline_turn hs ht
  obtain ⟨q, hq, hstat⟩ := (tied_reachable h).request hs
  have hid : q.id = r.req.id := congrArg (·.1) hstat
  refine leads_of_step hw (.here ⟨_, request_goes_on (move_of_step hw) hq, ?_, ?_⟩)
  · rw [requestAfter_id]
    exact hid
  · rw [requestAfter_pipeline hs ht]
    simp only [Tx.onRequest]
    rw [Table.updateRow, if_pos hid]
    rfl

/-- A pipeline underway can complete its request. -/
theorem leads_of_underway (h : (machine env).Reachable w) {s : WorkerId} {r : Run}
    (hs : w.slots s = .running r) (hp : r.stage.phase ≤ 6) :
    (machine env).Leads (Completed r.req.id) w := by
  -- every step brings the write closer
  obtain ⟨n, hn⟩ : ∃ n, 6 ≤ r.stage.phase + n := ⟨6, by omega⟩
  induction n generalizing w r with
  | zero =>
      obtain ⟨resp, cached, emb, hst⟩ := finishing_of_phase (show r.stage.phase = 6 by omega)
      exact leads_of_finishing h hs hst
  | succ n ih =>
      by_cases h6 : r.stage.phase = 6
      · obtain ⟨resp, cached, emb, hst⟩ := finishing_of_phase h6
        exact leads_of_finishing h hs hst
      · obtain ⟨e, w', r', hw, hs', hreq, hlt, hp'⟩ := step_of_underway env hs (by omega)
        refine leads_of_step hw ?_
        rw [← hreq]
        exact ih (reachable_step h hw) hs' hp' (by omega)

/-- A queued job can be claimed, by a worker that has yet to start. -/
theorem leads_of_queued (h : (machine env).Reachable w) {j : ProcessingJob}
    (hj : j ∈ w.db.jobs.rows) (hs : j.status = .queued) :
    (machine env).Leads (Completed j.promptRequestId) w := by
  obtain ⟨s, hidle⟩ := fresh_slot h
  have hd : ProcessingJob.Due j.scheduledAt j := ⟨hs, le_refl _⟩
  -- let other transactions hold the other rows
  obtain ⟨locked, hsel⟩ : ∃ locked, ProcessingJobRepository.Selects w.db.jobs.rows locked
      j.scheduledAt (some j.id) := by
    refine ⟨(w.db.jobs.rows.map (·.id)).filter (· ≠ j.id), j, hj, rfl, hd, by simp, ?_⟩
    intro k hk _ hfree
    have hid : k.id = j.id := by
      by_contra hne
      exact hfree (List.mem_filter.mpr ⟨List.mem_map_of_mem hk, decide_eq_true hne⟩)
    rw [Db.job_eq_of_id hk hj hid]
    exact .inr ⟨rfl, le_refl _⟩
  obtain ⟨r, w', hw, hr, -, hreq, hst, -⟩ := claim_turn env hidle hj hd hsel
  refine leads_of_step hw ?_
  rw [← hreq]
  exact leads_of_underway (reachable_step h hw) hr (by rw [hst]; exact Nat.zero_le 6)

/-- The second write of a re-enqueue leaves the job queued. -/
theorem leads_of_reset (h : (machine env).Reachable w) {c : Nat} {k : Call} {x : PromptRequest}
    (hc : w.calls c = some k) (hst : k.stage = .reenqueueReset x) {j : ProcessingJob}
    (hj : j ∈ w.db.jobs.rows) (hjx : j.promptRequestId = x.id) :
    (machine env).Leads (Completed x.id) w := by
  have ht : PromptProcessor.call env k 0 = some (.resetJob x.id 0) :=
    PromptProcessor.turn_iff.mpr (.reset hst)
  obtain ⟨w', hw, -, -⟩ := step_of_call hc ht
  have hqueued : (w.jobAfter env (.call c 0 true) j).status = .queued := by
    rw [jobAfter_call hc ht]
    simp only [Tx.onJob]
    rw [Table.updateRow, if_pos hjx]
    rfl
  refine leads_of_step hw ?_
  have hlead := leads_of_queued (reachable_step h hw) (job_goes_on (move_of_step hw) hj) hqueued
  rw [jobAfter_promptRequestId, hjx] at hlead
  exact hlead

/-- So does the first, which the second follows. -/
theorem leads_of_reenqueue (h : (machine env).Reachable w) {c : Nat} {k : Call}
    {x : PromptRequest} (hc : w.calls c = some k) (hst : k.stage = .reenqueueStatus x)
    {j : ProcessingJob} (hj : j ∈ w.db.jobs.rows) (hjx : j.promptRequestId = x.id) :
    (machine env).Leads (Completed x.id) w := by
  have ht : PromptProcessor.call env k 0 = some (.updateStatus x.id .queued 0) :=
    PromptProcessor.turn_iff.mpr (.reenqueue hst)
  obtain ⟨w', hw, -, hc'⟩ := step_of_call hc ht
  have hj' := job_goes_on (move_of_step hw) hj
  refine leads_of_step hw (leads_of_reset (reachable_step h hw) hc' ?_ hj' ?_)
  · simp only [PromptProcessor.resume, hst]
  · rw [jobAfter_promptRequestId]
    exact hjx

/-- A failed request can be submitted again. -/
theorem leads_of_failed (h : (machine env).Reachable w) {q : PromptRequest}
    (hq : q ∈ w.db.requests.rows) (hs : q.status = .failed) :
    (machine env).Leads (Completed q.id) w := by
  obtain ⟨c, hc⟩ := fresh_call h
  have ht := tied_reachable h
  have hw₁ : World.step env w (.submit c ⟨"", q.promptId, q.text, ""⟩)
      = some (w.setCall c (some ⟨⟨"", q.promptId, q.text, ""⟩, .check⟩)) := by
    simp only [World.step, hc]
  have hread : PromptProcessor.call env ⟨⟨"", q.promptId, q.text, ""⟩, .check⟩ 0
      = some (.getByPromptId q.promptId) :=
    PromptProcessor.turn_iff.mpr (.read rfl (isText_of_fits (rows_fit h q hq)))
  obtain ⟨w₂, hw₂, hdb, hc₂⟩ := step_of_call (setCall_calls_self w c _) hread
  have hfound : PromptRequestRepository.getByPromptId w.db q.promptId = some q :=
    Table.find?_uk hq rfl
  -- the check finds it failed, under the hash of its text
  have hstage : PromptProcessor.resume env ⟨⟨"", q.promptId, q.text, ""⟩, .check⟩ true
      (.request (some q)) = .reenqueueStatus q := by
    simp only [PromptProcessor.resume, IdempotencyService.check, ht.hashed hq, hs, ne_eq,
      not_true_eq_false, if_false]
  obtain ⟨j, hj, hjq⟩ := ht.paired hq
  have hj₂ : j ∈ w₂.db.jobs.rows := by
    rw [hdb]
    exact hj
  refine leads_of_step hw₁ (leads_of_step hw₂ (leads_of_reenqueue ?_ hc₂ ?_ hj₂ hjq))
  · exact reachable_step (reachable_step h hw₁) hw₂
  · simp only [Db.exec, setCall_db, hfound]
    exact hstage

/-- The last write of the failure handler leaves the request to be submitted again. -/
theorem leads_of_markFailed (h : (machine env).Reachable w) {s : WorkerId} {r : Run}
    (hs : w.slots s = .running r) {exc : Exc} (hst : r.stage = .markFailed exc) :
    (machine env).Leads (Completed r.req.id) w := by
  have ht : PromptPipeline.call env r 0 none
      = some (.requestMarkFailed r.req.id exc.message (r.req.retryCount + 1) 0) := by
    simp only [PromptPipeline.call, hst]
  obtain ⟨x, w', -, -, hw, -, -⟩ := pipeline_turn hs ht
  obtain ⟨q, hq, hstat⟩ := (tied_reachable h).request hs
  have hid : q.id = r.req.id := congrArg (·.1) hstat
  have hfail : (w.requestAfter env (.pipeline s 0 none) q).status = .failed := by
    rw [requestAfter_pipeline hs ht]
    simp only [Tx.onRequest]
    rw [Table.updateRow, if_pos hid]
    rfl
  refine leads_of_step hw ?_
  have hlead := leads_of_failed (reachable_step h hw) (request_goes_on (move_of_step hw) hq) hfail
  rw [requestAfter_id, hid] at hlead
  exact hlead

theorem leads_of_markDead (h : (machine env).Reachable w) {s : WorkerId} {r : Run}
    (hs : w.slots s = .running r) {exc : Exc} (hst : r.stage = .markDead exc) :
    (machine env).Leads (Completed r.req.id) w := by
  have ht : PromptPipeline.call env r 0 none = some (.markDead r.job.id exc.message 0) := by
    simp only [PromptPipeline.call, hst]
  obtain ⟨x, w', -, hx, hw, -, hs'⟩ := pipeline_turn hs ht
  have hst' : x = .markFailed exc := by
    rw [← hx]
    simp only [PromptPipeline.resume, hst]
  have hlead := leads_of_markFailed (reachable_step h hw) hs' hst'
  exact leads_of_step hw hlead

/-- Inside `_run` an error of the driver leads to the failure handler. -/
theorem leads_of_inRun (h : (machine env).Reachable w) {s : WorkerId} {r : Run}
    (hs : w.slots s = .running r) (hin : PromptPipeline.inRun r.stage = true)
    (hcall : (PromptPipeline.call env r 0 none).isSome = true) :
    (machine env).Leads (Completed r.req.id) w := by
  obtain ⟨w', hw, hs'⟩ := step_of_thought (e := .dbError s "") hs rfl (.dbError hcall)
  have hst' : PromptPipeline.fail r ⟨.databaseDriverError, ""⟩
      = .markDead ⟨.databaseDriverError, ""⟩ := by
    rw [PromptPipeline.fail, if_pos hin, PromptPipeline.handleFailure_driver]
  have hlead := leads_of_markDead (reachable_step h hw) hs' hst'
  exact leads_of_step hw hlead

/-- A pipeline that gets to its request completes it, or fails it and leaves it to a retry. -/
theorem leads_of_reaches (h : (machine env).Reachable w) {s : WorkerId} {r : Run}
    (hs : w.slots s = .running r) (hst : r.stage.reaches = true) :
    (machine env).Leads (Completed r.req.id) w := by
  obtain ⟨x, hrs⟩ : ∃ x, r.stage = x := ⟨_, rfl⟩
  cases x with
  | markDead exc => exact leads_of_markDead h hs hrs
  | markFailed exc => exact leads_of_markFailed h hs hrs
  | finishJob | deferRelease wait =>
      exact leads_of_inRun h hs (by simp [hrs, PromptPipeline.inRun])
        (by simp [hrs, PromptPipeline.call])
  | limitedRelease wait | retryRelease exc | retryStatus exc | done how =>
      rw [hrs] at hst
      cases hst
  | _ => exact leads_of_underway h hs (by simp [hrs, Stage.phase])

/-- A pipeline that releases a job of its own leaves it queued. -/
theorem leads_of_release (h : (machine env).Reachable w) {s : WorkerId} {r : Run}
    {j : ProcessingJob} (hs : w.slots s = .running r) (hst : r.stage.releases = true)
    (hj : j ∈ w.db.jobs.rows) (ho : ProcessingJob.OwnedBy r.job.id s j) :
    (machine env).Leads (Completed r.req.id) w := by
  have ht := tied_reachable h
  obtain ⟨wait, hcall⟩ := call_of_releases env hst 0 none
  obtain ⟨x, w', -, -, hw, -, -⟩ := pipeline_turn hs hcall
  have hqueued : (w.jobAfter env (.pipeline s 0 none) j).status = .queued := by
    rw [jobAfter_pipeline hs hcall]
    simp only [Tx.onJob, ht.workerId hs]
    rw [Table.updateRow, if_pos ho]
    rfl
  refine leads_of_step hw ?_
  have hlead := leads_of_queued (reachable_step h hw) (job_goes_on (move_of_step hw) hj) hqueued
  rw [jobAfter_promptRequestId, (ht.id_iff hs hj).mp ho.1] at hlead
  exact hlead

/-- A job in progress can be reclaimed, or is given up together with its request. -/
theorem leads_of_processing (h : (machine env).Reachable w) {j : ProcessingJob}
    (hj : j ∈ w.db.jobs.rows) (hs : j.status = .processing) :
    (machine env).Leads (Completed j.promptRequestId) w := by
  obtain ⟨t, hl⟩ := Option.isSome_iff_exists.mp ((shaped_reachable h).leased hj hs)
  have hx : ProcessingJob.Expired (t + 1) j := by
    refine ⟨hs, ?_⟩
    simp [ProcessingJob.leaseExpired, hl]
  have hw : World.step env w (.reap (t + 1)) = some (w.commit .reaper (.reapExpiredLeases (t + 1)))
    := rfl
  have h' := reachable_step h hw
  refine leads_of_step hw ?_
  by_cases ha : j.attemptCount < j.maxAttempts
  · have hqueued : (w.jobAfter env (.reap (t + 1)) j).status = .queued :=
      congrArg (·.status) (onJob_reclaimable ⟨hx, ha⟩)
    have hlead := leads_of_queued h' (job_goes_on (move_of_step hw) hj) hqueued
    rw [jobAfter_promptRequestId] at hlead
    exact hlead
  · obtain ⟨q, hq, hqj⟩ := w.db.fk j hj
    have hfail : (w.requestAfter env (.reap (t + 1)) q).status = .failed :=
      requestAfter_exhausted hj ⟨hx, Nat.not_lt.mp ha⟩ hqj
    have hlead := leads_of_failed h' (request_goes_on (move_of_step hw) hq) hfail
    rw [requestAfter_id, hqj] at hlead
    exact hlead

/-- **What has a lifeline can be completed.** -/
theorem leads_of_lifeline (h : (machine env).Reachable w) {q : PromptRequest}
    (hq : q ∈ w.db.requests.rows) (hl : Lifeline w q.id) :
    (machine env).Leads (Completed q.id) w := by
  cases hl with
  | job hj hjq hr =>
      rw [← hjq]
      rcases hr with hs | ⟨hs, -⟩
      · exact leads_of_queued h hj hs
      · exact leads_of_processing h hj hs
  | run hs hrq hst =>
      rw [← hrq]
      exact leads_of_reaches h hs hst
  | release hs hrq hst hj ho =>
      rw [← hrq]
      exact leads_of_release h hs hst hj ho
  | @call c k x hc hx hid =>
      obtain ⟨j, hj, hjq⟩ := (tied_reachable h).paired hq
      have hjx : j.promptRequestId = x.id := hjq.trans hid.symm
      rw [← hid]
      obtain ⟨st, hst⟩ : ∃ st, k.stage = st := ⟨_, rfl⟩
      rw [hst] at hx
      cases st with
      | reenqueueStatus y =>
          cases hx
          exact leads_of_reenqueue h hc hst hj hjx
      | reenqueueReset y =>
          cases hx
          exact leads_of_reset h hc hst hj hjx
      | _ => cases hx

/-! ## Without one nothing leads anywhere -/

/-- A request that is neither completed nor failed, and has no lifeline. -/
structure Forsaken (q : Nat) (w : World) : Prop where
  /-- The request, as it stands. -/
  row : ∃ r ∈ w.db.requests.rows, r.id = q ∧ r.status.isTerminal = false
  /-- There is nothing left that would end it. -/
  cut : ¬ Lifeline w q

/-- A job in progress is a lifeline: the reaper can take it. -/
theorem lifeline_of_processing (hsh : Shaped w) {j : ProcessingJob} (hj : j ∈ w.db.jobs.rows)
    (hs : j.status = .processing) : Lifeline w j.promptRequestId := by
  refine .job hj rfl (.inr ⟨hs, fun hl => ?_⟩)
  have hlease := hsh.leased hj hs
  rw [hl] at hlease
  cases hlease

/-- **Nobody writes the job of a forsaken request.** -/
theorem job_of_cut (h : Move env w e w') (ht : Tied env w) (hsh : Shaped w) {j : ProcessingJob}
    (hj : j ∈ w.db.jobs.rows) (hc : ¬ Lifeline w j.promptRequestId) :
    w.jobAfter env e j = j := by
  generalize hj' : w.jobAfter env e j = j'
  have hst := job_step h j
  rw [hj'] at hst
  -- whoever writes the row holds a lifeline
  cases hst with
  | same => rfl
  | claimed hs hp hd => exact absurd (.job hj rfl (.inl hd.1)) hc
  | extended hs hh => exact absurd (lifeline_of_processing hsh hj hh.2.2) hc
  | released hs hst ho =>
      rw [ht.workerId hs] at ho
      exact absurd (.release hs ((ht.id_iff hs hj).mp ho.1).symm hst hj ho) hc
  | completed hs hst hid =>
      exact absurd (.run hs ((ht.id_iff hs hj).mp hid).symm (by rw [hst]; rfl)) hc
  | buried hs hst hid =>
      exact absurd (.run hs ((ht.id_iff hs hj).mp hid).symm (by rw [hst]; rfl)) hc
  | reset hk hst hid => exact absurd (.call hk (by rw [hst]; rfl) hid.symm) hc
  | requeued hr => exact absurd (lifeline_of_processing hsh hj hr.1.1) hc
  | expired hx => exact absurd (lifeline_of_processing hsh hj hx.1.1) hc

/-- **Nobody ends a forsaken request.** -/
theorem request_of_cut (h : Move env w e w') (hsh : Shaped w) {r : PromptRequest}
    (hn : r.status.isTerminal = false) (hc : ¬ Lifeline w r.id) :
    (w.requestAfter env e r).status.isTerminal = false := by
  generalize hr' : w.requestAfter env e r = r'
  have hst := request_step h r
  rw [hr'] at hst
  cases hst with
  | same => exact hn
  | reenqueued hk hst hid => rfl
  | retried hs hst hid => rfl
  | requeued hj hr hid => rfl
  | completed hs hst hid => exact absurd (.run hs hid.symm (by rw [hst]; rfl)) hc
  | failed hs hst hid => exact absurd (.run hs hid.symm (by rw [hst]; rfl)) hc
  | expired hj hx hid =>
      rw [hid] at hc
      exact absurd (lifeline_of_processing hsh hj hx.1.1) hc

/-- A pipeline on its way to a write was on its way before it moved. -/
theorem lifeline_back {s : WorkerId} {r r' : Run} (h : RunStep env w e s r r')
    (hst : r'.stage.reaches = true ∨ r'.stage.releases = true) :
    r.stage.reaches = true ∨ r.stage = r'.stage := by
  cases h with
  | same he => exact .inr rfl
  | beat hl => exact .inr rfl
  | wrote htx =>
      left
      obtain ⟨x, hx, hturn⟩ := PromptPipeline.turn_of_call w.db htx
      rw [hx] at hst
      cases hturn <;> simp_all [Stage.reaches, Stage.releases, PromptPipeline.inRun]
  | @thought _ _ _ _ es he hth =>
      left
      by_cases hears : r.stage.hears = true
      · obtain ⟨x, hrs⟩ : ∃ x, r.stage = x := ⟨_, rfl⟩
        rw [hrs] at hears ⊢
        cases x <;> first | rfl | cases hears
      · rcases (thought_deaf hth (by simpa using hears)).2 with hx | ⟨message, hx⟩
        · rw [hx] at hst
          rcases hst with hst | hst <;> cases hst
        · -- a failing call ends the handler and leads into it
          by_cases hin : PromptPipeline.inRun r.stage = true
          · obtain ⟨x, hrs⟩ : ∃ x, r.stage = x := ⟨_, rfl⟩
            rw [hrs] at hin ⊢
            cases x <;> first | rfl | cases hin
          · rw [hx, PromptPipeline.fail, if_neg hin] at hst
            rcases hst with hst | hst <;> cases hst

/-- **No move hands a forsaken request a lifeline.** -/
theorem cut_step (h : Move env w e w') (ht : Tied env w) (hsh : Shaped w) {q : PromptRequest}
    (hq : q ∈ w.db.requests.rows) (hn : q.status.isTerminal = false)
    (hc : ¬ Lifeline w q.id) : ¬ Lifeline w' q.id := by
  -- the job of the request is the row it was
  have row : ∀ {j' : ProcessingJob}, j' ∈ w'.db.jobs.rows → j'.promptRequestId = q.id →
      j' ∈ w.db.jobs.rows := by
    intro j' hj' hjq
    rcases job_origin h hj' with ⟨j, hj, rfl⟩ | ⟨r, hins⟩
    · rw [jobAfter_promptRequestId] at hjq
      rw [job_of_cut h ht hsh hj (hjq ▸ hc)]
      exact hj
    · exact absurd (hjq.symm.trans hins.tied) (hins.request_fresh hq)
  intro hl
  cases hl with
  | job hj' hjq hr => exact hc (.job (row hj' hjq) hjq hr)
  | run hs' hrq hst =>
      rcases run_cases h hs' with ⟨r, hr, hrs⟩ | hcl
      · rw [hrs.sameRun.2.1] at hrq
        rcases lifeline_back hrs (.inl hst) with hst₀ | heq
        · exact hc (.run hr hrq hst₀)
        · exact hc (.run hr hrq (heq ▸ hst))
      · obtain ⟨now, locked, pick, j, q', -, -, hj, -, hd, -, hid, rfl⟩ := hcl.claim
        exact hc (.job hj (hid.symm.trans hrq) (.inl hd.1))
  | release hs' hrq hst hj' ho =>
      rcases run_cases h hs' with ⟨r, hr, hrs⟩ | hcl
      · rw [hrs.sameRun.2.1] at hrq
        rw [hrs.sameRun.1] at ho
        rcases lifeline_back hrs (.inr hst) with hst₀ | heq
        · exact hc (.run hr hrq hst₀)
        · obtain ⟨i, hi, hstat⟩ := ht.job hr
          have hid : i.id = r.job.id := congrArg (·.1) hstat
          have hi' := job_goes_on h hi
          have heqj := Db.job_eq_of_id hj' hi' (ho.1.trans (hid.symm.trans (jobAfter_id i).symm))
          have hiq : i.promptRequestId = q.id := ((ht.id_iff hr hi).mp hid).trans hrq
          rw [heqj, job_of_cut h ht hsh hi (hiq ▸ hc)] at ho
          exact hc (.release hr hrq (heq ▸ hst) hi ho)
      · rw [hcl.start] at hst
        cases hst
  | @call c k' x hk' hx hid =>
      rcases call_cases h hk' with ⟨k, hk, hks⟩ | ⟨args, -, rfl⟩
      · rcases reenqueue_from hks hx with ⟨rfl, -⟩ | ⟨now, inTime, -, hst, -⟩ |
          ⟨now, inTime, -, hd, -⟩
        · exact hc (.call hk hx hid)
        · exact hc (.call hk (by rw [hst]; rfl) hid)
        · -- a call decides to re-enqueue failed requests only
          obtain ⟨y, hy, hyx, hfail⟩ := failed_of_decides hd
          rw [Db.request_eq_of_id hq hy (hid.symm.trans hyx.symm), hfail] at hn
          cases hn
      · cases hx

theorem forsaken_step (h : Move env w e w') (ht : Tied env w) (hsh : Shaped w) {q : Nat}
    (hi : Forsaken q w) : Forsaken q w' := by
  obtain ⟨⟨r, hr, rfl, hn⟩, hc⟩ := hi
  refine ⟨⟨_, request_goes_on h hr, requestAfter_id r, request_of_cut h hsh hn hc⟩, ?_⟩
  exact cut_step h ht hsh hr hn hc

/-- **A dead end is for ever**: a forsaken request never comes to an end. -/
theorem forsaken_of_path (h : (machine env).Reachable w) {q : Nat} (hi : Forsaken q w)
    (hp : (machine env).PathWhere Machine.Always w w') : Forsaken q w' :=
  invariant_of_path hp hi h fun hr hi _ hm =>
    forsaken_step hm (tied_reachable hr) (shaped_reachable hr) hi

theorem not_terminated_of_forsaken {q : Nat} (hi : Forsaken q w) : ¬ Terminated q w := by
  rintro ⟨r, hr, hid, hterm⟩
  obtain ⟨r₀, hr₀, hid₀, hn⟩ := hi.row
  rw [Db.request_eq_of_id hr hr₀ (hid.trans hid₀.symm), hn] at hterm
  cases hterm

/--
**Which requests can still be completed.** In every reachable world some continuation of
the run completes a request exactly when the request is completed or failed already, or
has a lifeline; and where none completes it, none so much as fails it.
-/
theorem can_complete_iff (h : (machine env).Reachable w) {q : PromptRequest}
    (hq : q ∈ w.db.requests.rows) :
    ((machine env).Leads (Completed q.id) w ↔ q.status.isTerminal = true ∨ Lifeline w q.id) ∧
      ((machine env).Leads (Completed q.id) w ↔ (machine env).Leads (Terminated q.id) w) := by
  have possible : q.status.isTerminal = true ∨ Lifeline w q.id →
      (machine env).Leads (Completed q.id) w := by
    rintro (hterm | hl)
    · rcases RequestStatus.isTerminal_iff.mp hterm with hs | hs
      · exact .here ⟨q, hq, rfl, hs⟩
      · exact leads_of_failed h hq hs
    · exact leads_of_lifeline h hq hl
  have weaker : (machine env).Leads (Completed q.id) w → (machine env).Leads (Terminated q.id) w
      := by
    rintro ⟨v, hp, r, hr, hid, hs⟩
    exact ⟨v, hp, r, hr, hid, by rw [hs]; rfl⟩
  have needed : (machine env).Leads (Terminated q.id) w →
      q.status.isTerminal = true ∨ Lifeline w q.id := by
    rintro ⟨v, hp, hv⟩
    by_contra hno
    obtain ⟨hn, hc⟩ := not_or.mp hno
    have hf : Forsaken q.id w := ⟨⟨q, hq, rfl, Bool.eq_false_iff.mpr hn⟩, hc⟩
    exact not_terminated_of_forsaken (forsaken_of_path h hf hp) hv
  exact ⟨⟨fun hl => needed (weaker hl), possible⟩, weaker, fun hl => possible (needed hl)⟩

/--
The worker that died between `mark_dead` and `mark_failed` took the request with it: no
continuation, whoever submits it again and whatever else happens, completes it.
-/
theorem can_complete_iff_half_dead : ∃ w, (machine deployment).Reachable w ∧
    w.db.requests.rows.map (fun q => (q.id, q.status)) = [(1, .queued)] ∧
    ¬ (machine deployment).Leads (Completed 1) w := by
  obtain ⟨w, hw, hreach, ht⟩ := Machine.reachable_of_run (m := machine deployment)
    (E := halfDeadRun) (p := fun w => decide (w.slots 0 = .stopped ∧ w.calls 0 = none ∧
      w.db.requests.rows.map (fun q => (q.id, q.status)) = [(1, .queued)] ∧
      w.db.jobs.rows.map (·.status) = [.dead])) (by decide +kernel)
  obtain ⟨hslot, hcall, hreq, hjob⟩ := of_decide_eq_true ht
  obtain ⟨hslots, hcalls⟩ := untouched_of_run (n := 1) (m := 1) hw (by decide)
  obtain ⟨q, hq, hqe⟩ := List.map_eq_singleton_iff.mp hreq
  obtain ⟨i, hi, hie⟩ := List.map_eq_singleton_iff.mp hjob
  obtain ⟨hid, hstatus⟩ := Prod.mk.inj hqe
  have hmem : q ∈ w.db.requests.rows := by rw [hq]; exact List.mem_singleton_self q
  -- nothing runs, nothing calls, and the job is dead
  have hrun : ∀ s r, w.slots s ≠ .running r := by
    intro s r hs
    rcases Nat.eq_zero_or_pos s with rfl | hpos
    · exact absurd (hslot.symm.trans hs) nofun
    · exact absurd ((hslots s hpos).symm.trans hs) nofun
  have hcut : ¬ Lifeline w q.id := by
    intro hl
    cases hl with
    | job hj hjq hr =>
        rw [hi, List.mem_singleton] at hj
        rw [hj, Recoverable, hie] at hr
        rcases hr with hr | ⟨hr, -⟩ <;> cases hr
    | run hs hrq hst => exact hrun _ _ hs
    | release hs hrq hst hj ho => exact hrun _ _ hs
    | @call c k x hc hx hxq =>
        rcases Nat.eq_zero_or_pos c with rfl | hpos
        · exact absurd (hcall.symm.trans hc) nofun
        · exact absurd ((hcalls c hpos).symm.trans hc) nofun
  refine ⟨w, hreach, hreq, fun hlead => ?_⟩
  rw [← hid] at hlead
  rcases (can_complete_iff hreach hmem).1.mp hlead with hterm | hl
  · rw [hstatus] at hterm
    cases hterm
  · exact hcut hl

end PromptQueue.Proof
