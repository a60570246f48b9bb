import PromptQueue.Proof.Outcome

/-!
# A database that fails once

A repository call of `_run` that raises an exception of the driver ends the job. The
failure handler asks whether the class of the exception is retryable, the classes it
knows are the module's own, and nothing wraps the driver's exceptions in one of them. So
however many attempts are left, the handler goes on to mark the job dead and the request
failed, and unless somebody else writes the two rows that is how they stay.
-/

namespace PromptQueue

open Base World

/-- The stages that wait for a repository call of `_run`. -/
def Stage.queries : Stage → Bool
  | .findExact | .findNearest _ | .incrementHit _ _ | .deferRelease _ | .store _ _
  | .finishRequest _ _ _ | .finishJob => true
  | _ => false

variable {S : Type} [LinearOrder S] (env : Env S)

/-- An execution left alone from here on ends with its job in the queue again, or completed. -/
def Survives (s : WorkerId) (r : Run) (u : World) : Prop :=
  ∀ es v x how, (machine env).run u es = some v → (machine env).Meets (LeavesAlone env s r) u es →
    v.slots s = .running x → x.stage = .done how →
    ∃ j ∈ v.db.jobs.rows, j.id = r.job.id ∧ (j.status = .queued ∨ j.status = .completed)

/-- An execution left alone from here on ends with its job dead and its request failed. -/
def Buries (s : WorkerId) (r : Run) (message : String) (u : World) : Prop :=
  ∀ es v x how, (machine env).run u es = some v → (machine env).Meets (LeavesAlone env s r) u es →
    v.slots s = .running x → x.stage = .done how → how = .returned ∧
      (∃ j ∈ v.db.jobs.rows, j.id = r.job.id ∧ j.status = .dead) ∧
      ∃ q ∈ v.db.requests.rows, q.id = r.req.id ∧ q.status = .failed ∧ q.error = some message

/-- What the two rows are while the failure handler gives a job up. -/
inductive GivenUp (exc : Exc) (j : ProcessingJob) (q : PromptRequest) : Stage → Prop where
  | burying : GivenUp exc j q (.markDead exc)
  | failing (hj : j.status = .dead) : GivenUp exc j q (.markFailed exc)
  | ended (hj : j.status = .dead) (hq : q.status = .failed) (he : q.error = some exc.message) :
      GivenUp exc j q (.done .returned)

end PromptQueue

namespace PromptQueue.Proof

open PromptQueue Base World

variable {S : Type} [LinearOrder S] {env : Env S} {w u v : World} {e : Event}
variable {s : WorkerId} {r x y : Run} {exc : Exc} {j : ProcessingJob} {q : PromptRequest}

/-- An execution that gives its job up, and the two rows. -/
structure GivingUp (s : WorkerId) (r : Run) (exc : Exc) (u : World) (x : Run) (j : ProcessingJob)
    (q : PromptRequest) : Prop where
  slot : u.slots s = .running x
  job : x.job = r.job
  req : x.req = r.req
  jobRow : j ∈ u.db.jobs.rows
  jobId : j.id = r.job.id
  reqRow : q ∈ u.db.requests.rows
  reqId : q.id = r.req.id
  rows : GivenUp exc j q x.stage

theorem givenUp_handling {st : Stage} (h : GivenUp exc j q st) :
    PromptPipeline.inRun st = false ∧ st.hears = false := by
  cases h <;> exact ⟨rfl, rfl⟩

/-- A write of the handler. -/
theorem givenUp_turn {now : Time} {top1 : Option Nat} {t : Tx} {st : Stage}
    (h : GivenUp exc j q x.stage) (hj : j.id = x.job.id) (hq : q.id = x.req.id)
    (ht : PromptPipeline.Turn env u.db x now top1 t st) :
    GivenUp exc (t.onJob j) (t.onRequest u.db q) st := by
  generalize hx : x.stage = was at h
  cases h with
  | burying =>
      cases ht with
      | buried hst =>
          cases hx.symm.trans hst
          rw [Tx.onJob, Table.updateRow, if_pos hj]
          exact .failing rfl
      | _ => simp_all
  | failing hdead =>
      cases ht with
      | failed hst =>
          cases hx.symm.trans hst
          rw [Tx.onRequest, Table.updateRow, if_pos hq]
          exact .ended hdead rfl rfl
      | _ => simp_all
  | ended hdead hfailed herr => cases ht <;> simp_all

/-- A beat of the heartbeat leaves a job that is being given up where it is. -/
theorem givenUp_beat {leaseSeconds : Nat} {now : Time} {i : Nat} {st : Stage}
    (h : GivenUp exc j q st) :
    GivenUp exc ((Tx.extendLease i s leaseSeconds now).onJob j) q st := by
  have hstatus : ((Tx.extendLease i s leaseSeconds now).onJob j).status = j.status :=
    Table.updateRow_keeps (g := ProcessingJob.status) (by intro _; rfl) j
  cases h with
  | burying => exact .burying
  | failing hj => exact .failing (hstatus.trans hj)
  | ended hj hq he => exact .ended (hstatus.trans hj) hq he

/-- **One step, of whoever it is.** -/
theorem givingUp_step (hi : GivingUp s r exc u x j q) (hH : LeavesAlone env s r u e)
    (hstep : World.step env u e = some v) : ∃ y j' q', GivingUp s r exc v y j' q' := by
  have hm := move_of_step hstep
  by_cases he : e.slot = some s
  · have hjob := job_goes_on hm hi.jobRow
    have hreq := request_goes_on hm hi.reqRow
    rcases run_forward hm hi.slot with ⟨y, hy, hrs⟩ | rfl | ⟨rfl, -⟩
    · cases hrs with
      | same hne => exact absurd he hne
      | wrote ht =>
          obtain ⟨st, hst, hturn⟩ := PromptPipeline.turn_of_call u.db ht
          rw [hst] at hy
          rw [jobAfter_pipeline hi.slot ht] at hjob
          rw [requestAfter_pipeline hi.slot ht] at hreq
          refine ⟨_, _, _, hy, hi.job, hi.req, hjob, ?_, hreq, ?_, givenUp_turn hi.rows ?_ ?_ hturn⟩
          · exact (congrArg (·.1) (Tx.onJob_static _ j)).trans hi.jobId
          · exact (congrArg (·.1) (Tx.onRequest_static u.db _ q)).trans hi.reqId
          · rw [hi.job]; exact hi.jobId
          · rw [hi.req]; exact hi.reqId
      | @beat _ _ now lost hl =>
          have hiss : u.issued env (.heartbeat s now)
              = some (.heartbeat s, .extendLease x.job.id s env.leaseSeconds now) :=
            issued_heartbeat hi.slot
          simp only [jobAfter, requestAfter, hiss] at hjob hreq
          exact ⟨_, _, _, hy, hi.job, hi.req, hjob,
            (congrArg (·.1) (Tx.onJob_static _ j)).trans hi.jobId, hreq, hi.reqId,
            givenUp_beat hi.rows⟩
      | thought hth ht =>
          -- nothing is left to be heard, and what raises in the handler is excluded
          obtain ⟨hrun, hdeaf⟩ := givenUp_handling hi.rows
          cases ht with
          | dbError hc =>
              have hin := hH.handled he rfl x (runOf_eq he hi.slot)
              rw [hrun] at hin
              cases hin
          | cancelled hst hl => cases hH.stays he
          | aborted hst => cases hH.stays he
          | granted hst | denied hst | unavailable hst | guarded hst | called hst | answered hst
          | failed hx hst =>
              rw [hst] at hdeaf
              cases hdeaf
    · cases hH.stays he
    · cases hH.stays he
  · exact ⟨x, j, q, (slot_frame hm he).trans hi.slot, hi.job, hi.req,
      hH.jobs he v hstep j hi.jobRow hi.jobId, hi.jobId,
      hH.requests he v hstep q hi.reqRow hi.reqId, hi.reqId, hi.rows⟩

/-- **An execution that gives up does so to the end.** -/
theorem buries_of_givingUp {message : String}
    (hi : GivingUp s r ⟨.databaseDriverError, message⟩ u x j q) : Buries env s r message u := by
  intro es v y how hrun hmeets hy hdone
  obtain ⟨x', j', q', hi'⟩ := Machine.Meets.along
    (I := fun _ v => ∃ x j q, GivingUp s r ⟨.databaseDriverError, message⟩ v x j q) ⟨x, j, q, hi⟩
    hmeets hrun fun _ _ ⟨_, _, _, hi⟩ hH hstep => givingUp_step hi hH hstep
  cases Slot.running.inj (hi'.slot.symm.trans hy)
  have hrows := hi'.rows
  rw [hdone] at hrows
  cases hrows with
  | ended hj hq he =>
      exact ⟨rfl, ⟨j', hi'.jobRow, hi'.jobId, hj⟩, q', hi'.reqRow, hi'.reqId, hq, he⟩

/-- The handler is free to make its two writes. -/
theorem gives_up (env : Env S) (r : Run) (hs : u.slots s = .running x)
    (hst : x.stage = .markDead exc) : ∃ es v y, (machine env).run u es = some v ∧
      (machine env).Meets (LeavesAlone env s r) u es ∧
      v.slots s = .running y ∧ y.stage = .done .returned := by
  have hdead : PromptPipeline.call env x 0 none = some (.markDead x.job.id exc.message 0) := by
    simp only [PromptPipeline.call, hst]
  obtain ⟨st, u', -, hres, hu', -, hs'⟩ := pipeline_turn hs hdead
  simp only [PromptPipeline.resume, hst] at hres
  cases hres
  have hfail : PromptPipeline.call env { x with stage := .markFailed exc } 0 none
      = some (.requestMarkFailed x.req.id exc.message (x.req.retryCount + 1) 0) := rfl
  obtain ⟨st, v, -, rfl, hv, -, hs''⟩ := pipeline_turn hs' hfail
  refine ⟨[.pipeline s 0 none, .pipeline s 0 none], v, _, ?_, ?_, hs'', rfl⟩
  · exact Option.bind_eq_some_iff.mpr ⟨u', hu', Option.bind_eq_some_iff.mpr ⟨v, hv, rfl⟩⟩
  · refine Machine.meets_of_forall (fun e he _ => ?_) u
    rw [List.eq_of_mem_replicate (n := 2) he]
    exact leavesAlone_of_own rfl rfl rfl

/-- A call of `_run` that raises takes the pipeline into its failure handler, which gives up. -/
theorem givingUp_of_dbError (hr : (machine env).Reachable w) (hs : w.slots s = .running r)
    (hst : r.stage.queries = true) (message : String) : ∃ u x j q,
      World.step env w (.dbError s message) = some u ∧
      GivingUp s r ⟨.databaseDriverError, message⟩ u x j q ∧
      x.stage = .markDead ⟨.databaseDriverError, message⟩ := by
  have hcall : (PromptPipeline.call env r 0 none).isSome = true := by
    cases hrs : r.stage <;> simp [Stage.queries, PromptPipeline.call, hrs] at hst ⊢
  have hfail : PromptPipeline.fail r ⟨.databaseDriverError, message⟩
      = .markDead ⟨.databaseDriverError, message⟩ := by
    have hin : PromptPipeline.inRun r.stage = true := by
      cases hrs : r.stage <;> rw [hrs] at hst <;> first | rfl | cases hst
    rw [PromptPipeline.fail, if_pos hin, PromptPipeline.handleFailure_driver]
  have ht := tied_reachable hr
  obtain ⟨j, hj, hjs⟩ := ht.job hs
  obtain ⟨q, hq, hqs⟩ := ht.request hs
  refine ⟨(w.setSlot s (.running { r with
      stage := PromptPipeline.fail r ⟨.databaseDriverError, message⟩ })).note [], _, j, q, ?_,
    ⟨setSlot_slots_self _ _ _, rfl, rfl, hj, congrArg (·.1) hjs, hq, congrArg (·.1) hqs, ?_⟩, hfail⟩
  · simp only [World.step, thinker, withRun, hs, World.think, hcall, if_true, Option.map_some]
  · dsimp only
    rw [hfail]
    exact .burying

/-- An execution that gives up, and is free to, does not survive. -/
theorem not_survives_of_givingUp {message : String}
    (hi : GivingUp s r ⟨.databaseDriverError, message⟩ u x j q)
    (hx : x.stage = .markDead ⟨.databaseDriverError, message⟩) : ¬ Survives env s r u := by
  intro hsurv
  obtain ⟨es, v, y, hrun, hmeets, hy, hdone⟩ := gives_up env r hi.slot hx
  obtain ⟨j, hj, hid, hstatus⟩ := hsurv es v y .returned hrun hmeets hy hdone
  obtain ⟨-, ⟨j', hj', hid', hdead⟩, -⟩ :=
    buries_of_givingUp hi es v y .returned hrun hmeets hy hdone
  cases Db.job_eq_of_id hj hj' (hid.trans hid'.symm)
  rw [hdead] at hstatus
  rcases hstatus with h | h <;> cases h

/--
**A driver error is never retried.** Wherever a pipeline waits for a repository call of
`_run`, whatever attempts it has left and whatever it has written so far: if the call
raises, the job ends dead and its request failed, in every run that leaves the execution
alone, and there is such a run.
-/
theorem driver_error_buries (hr : (machine env).Reachable w) (hs : w.slots s = .running r)
    (hst : r.stage.queries = true) (message : String) :
    ∃ u, World.step env w (.dbError s message) = some u ∧ ¬ Survives env s r u ∧
      Buries env s r message u := by
  obtain ⟨u, x, j, q, hu, hi, hx⟩ := givingUp_of_dbError hr hs hst message
  exact ⟨u, hu, not_survives_of_givingUp hi hx, buries_of_givingUp hi⟩

/-- The first read of the first execution there is. -/
theorem driver_error_buries_first_read : ∃ w r u, HoldsJob 0 r w ∧ r.job.canRetry = true ∧
    World.step deployment w (.dbError 0 "connection reset") = some u ∧
    ¬ Survives deployment 0 r u ∧ Buries deployment 0 r "connection reset" u := by
  obtain ⟨w, -, hreach, ht⟩ := Machine.reachable_of_run (m := machine deployment) (E := firstClaim)
    (p := fun w => (w.runOf (.next 0)).any fun r =>
      decide (HoldsJob 0 r w ∧ r.job.canRetry = true)) (by decide +kernel)
  obtain ⟨r, -, ht⟩ := (Option.any_eq_true _ _).mp ht
  obtain ⟨hold, hcan⟩ := of_decide_eq_true ht
  obtain ⟨u, hu, hlost, hburied⟩ := driver_error_buries hreach hold.slot
    (by rw [hold.start]; rfl) "connection reset"
  exact ⟨w, r, u, hold, hcan, hu, hlost, hburied⟩

/-- A paid answer is lost the same way, on the first of three attempts. -/
theorem paid_answer_buried : ∃ w r u, (machine deployment).Reachable w ∧
    w.slots 0 = .running r ∧ r.stage = .store [1, 0] "answer" ∧ r.job.canRetry = true ∧
    (∃ j ∈ w.db.jobs.rows, ProcessingJob.HeldBy r.job.id 0 j) ∧
    World.step deployment w (.dbError 0 "connection reset") = some u ∧
    ¬ Survives deployment 0 r u := by
  obtain ⟨w, -, hreach, ht⟩ := Machine.reachable_of_run (m := machine deployment)
    (E := firstClaim ++ firstAnswer.take 6)
    (p := fun w => (w.runOf (.next 0)).any fun r => decide (w.slots 0 = .running r ∧
      r.stage = .store [1, 0] "answer" ∧ r.job.canRetry = true ∧
      ∃ j ∈ w.db.jobs.rows, ProcessingJob.HeldBy r.job.id 0 j)) (by decide +kernel)
  obtain ⟨r, -, ht⟩ := (Option.any_eq_true _ _).mp ht
  obtain ⟨hslot, hst, hcan, hheld⟩ := of_decide_eq_true ht
  obtain ⟨u, x, j, q, hu, hi, hx⟩ := givingUp_of_dbError hreach hslot (by rw [hst]; rfl)
    "connection reset"
  exact ⟨w, r, u, hreach, hslot, hst, hcan, hheld, hu, not_survives_of_givingUp hi hx⟩

end PromptQueue.Proof
