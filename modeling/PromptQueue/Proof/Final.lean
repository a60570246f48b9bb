import PromptQueue.Proof.Ownership
import PromptQueue.Proof.Replay

/-!
# Completed is final

A completed request keeps its answer as long as nobody writes its row again, and
none of the five writers looks before it writes. `Orderly` is what they would have
to look at: the request's status, for the four that take it out of `completed`,
and the job's `worker_id`, for the one that writes an answer.

`AnswerKept` is what makes that enough. Once a request is completed its job is
out of the queue, and the slot the job still names is past its own writes — so the
next owner `Orderly` would let through never comes.
-/

namespace PromptQueue

/-- The stages from which a pipeline ends without completing or releasing anything. -/
def Stage.finishing : Stage → Bool
  | .finishJob | .markDead _ | .markFailed _ | .done _ => true
  | _ => false

/-- The stages that wait for the request's `mark_completed`. -/
def Stage.answers : Stage → Bool
  | .finishRequest _ _ _ => true
  | _ => false

theorem Stage.not_finishing_of_releases {st : Stage} (h : st.releases = true) :
    st.finishing = false := by
  cases st <;> first | rfl | cases h

/-- The request a call is about to re-enqueue. -/
def CallStage.reenqueues : CallStage → Option PromptRequest
  | .reenqueueStatus q | .reenqueueReset q => some q
  | _ => none

end PromptQueue

namespace PromptQueue.Proof

open PromptQueue Base World

variable {S : Type} [LinearOrder S] {env : Env S} {w w' : World} {e : Event}

/-- Every answer given in `w` still stands in `w'`. -/
def Stands (w w' : World) : Prop :=
  ∀ q ∈ w.db.requests.rows, q.status = .completed → ∃ q' ∈ w'.db.requests.rows,
    q'.promptId = q.promptId ∧ q'.status = .completed ∧ q'.response = q.response

/-! ## What the writers do not look at -/

/-- The request is not completed. -/
def Unanswered (w : World) (q : Nat) : Prop :=
  ∀ r ∈ w.db.requests.rows, r.id = q → r.status ≠ .completed

instance (w : World) (q : Nat) : Decidable (Unanswered w q) :=
  inferInstanceAs (Decidable (∀ r ∈ w.db.requests.rows, _ → _))

/-- The job row still names the run's worker: the test `release_lease` makes. -/
def Owns (w : World) (r : Run) : Prop :=
  ∀ j ∈ w.db.jobs.rows, j.id = r.job.id → j.workerId = some (PromptPipeline.workerId r)

instance (w : World) (r : Run) : Decidable (Owns w r) :=
  inferInstanceAs (Decidable (∀ j ∈ w.db.jobs.rows, _ → _))

/--
A step that takes no answer back: a request is completed only by a run its job
still names; a failure or a retry is written, and a re-enqueue made, only while the
request is not completed; no lease the reaper finds expired is of a completed
request.
-/
def Orderly (w : World) (e : Event) : Prop :=
  (∀ r ∈ w.runOf e, e.writes = true →
    (r.stage.answers = true → Owns w r) ∧
    (r.stage.halfHandled = true → Unanswered w r.req.id)) ∧
  (∀ k ∈ w.callOf e, e.writes = true → ∀ q ∈ k.stage.reenqueues, Unanswered w q.id) ∧
  ∀ now ∈ e.reaps, ∀ j ∈ w.db.jobs.rows, ProcessingJob.Expired now j →
    Unanswered w j.promptRequestId

instance (w : World) : DecidablePred (Orderly w) :=
  fun _ => inferInstanceAs (Decidable (_ ∧ _ ∧ _))

/-- One row that passes the test is enough: ids are unique. -/
theorem owns_of_row {r : Run} {j : ProcessingJob} (hj : j ∈ w.db.jobs.rows)
    (ho : ProcessingJob.OwnedBy r.job.id (PromptPipeline.workerId r) j) : Owns w r := by
  intro i hi hid
  rw [Db.job_eq_of_id hi hj (hid.trans ho.1.symm)]
  exact ho.2

/-! ## The invariant -/

/--
A completed request's job is not queued, and the run in the slot it names, if that
run is still on it, is past its writes.
-/
def AnswerKept (w : World) : Prop :=
  ∀ q ∈ w.db.requests.rows, q.status = .completed → ∀ j ∈ w.db.jobs.rows,
    j.promptRequestId = q.id → j.status ≠ .queued ∧
      ∀ s r, j.workerId = some s → w.slots s = .running r → r.job.id = j.id →
        r.stage.finishing = true

theorem answerKept_init : AnswerKept World.init := by
  intro q hq; cases hq

/-- A pipeline past its writes stays there. -/
theorem finishing_step {s : WorkerId} {r r' : Run} (h : RunStep env w e s r r')
    (hf : r.stage.finishing = true) : r'.stage.finishing = true := by
  cases h with
  | same he => exact hf
  | beat hl => exact hf
  | wrote ht =>
      obtain ⟨x, hx, hturn⟩ := PromptPipeline.turn_of_call w.db ht
      rw [hx]
      cases hturn with
      | closed hst => rfl
      | _ => simp_all [Stage.finishing]
  | thought he ht =>
      have hdeaf : r.stage.hears = false := by
        cases hst : r.stage <;> rw [hst] at hf <;> first | rfl | cases hf
      rcases (thought_deaf ht hdeaf).2 with hx | ⟨message, hx⟩
      · rw [hx]
        rfl
      · rw [hx, PromptPipeline.fail]
        split
        · -- an error of the driver gives the job up
          rw [PromptPipeline.handleFailure_driver]
          rfl
        · rfl

/-- **An answer that stands is not overwritten by an orderly step.** -/
theorem answer_step (h : Move env w e w') (ht : Tied env w) (hi : AnswerKept w)
    (hH : Orderly w e) {q : PromptRequest} (hq : q ∈ w.db.requests.rows)
    (hc : q.status = .completed) : (w.requestAfter env e q).status = .completed ∧
      (w.requestAfter env e q).response = q.response := by
  generalize hq' : w.requestAfter env e q = q'
  have hst := request_step h q
  rw [hq'] at hst
  cases hst with
  | same => exact ⟨hc, rfl⟩
  | @reenqueued c k now inTime x _ hk hst hid =>
      have hopen := hH.2.1 k (callOf_eq rfl hk) rfl x (by rw [hst]; rfl)
      exact absurd hc (hopen q hq hid)
  | retried hs hst hid =>
      have hopen := (hH.1 _ (runOf_eq rfl hs) rfl).2 (by rw [hst]; rfl)
      exact absurd hc (hopen q hq hid)
  | failed hs hst hid =>
      have hopen := (hH.1 _ (runOf_eq rfl hs) rfl).2 (by rw [hst]; rfl)
      exact absurd hc (hopen q hq hid)
  | requeued hj hr hid => exact absurd hc (hH.2.2 _ rfl _ hj hr.1 q hq hid)
  | expired hj hx hid => exact absurd hc (hH.2.2 _ rfl _ hj hx.1 q hq hid)
  | @completed s now top1 r _ resp cached emb hs hst hid =>
      -- the owner of a completed request's job has no write of an answer left
      obtain ⟨j, hj, hjq⟩ := ht.paired hq
      have hjr := (ht.id_iff hs hj).mpr (hjq.trans hid)
      have hown := (hH.1 r (runOf_eq rfl hs) rfl).1 (by rw [hst]; rfl) j hj hjr
      rw [ht.workerId hs] at hown
      have hfin := (hi q hq hc j hj hjq).2 s r hown hs hjr.symm
      rw [hst] at hfin
      cases hfin

/-- The job of a request that is completed already. -/
theorem answerKept_old (h : Move env w e w') (ht : Tied env w) (hi : AnswerKept w)
    (hH : Orderly w e) {q : PromptRequest} (hq : q ∈ w.db.requests.rows)
    (hc : q.status = .completed) {j : ProcessingJob} (hj : j ∈ w.db.jobs.rows)
    (hjq : j.promptRequestId = q.id) : (w.jobAfter env e j).status ≠ .queued ∧
      ∀ s r', (w.jobAfter env e j).workerId = some s → w'.slots s = .running r' →
        r'.job.id = j.id → r'.stage.finishing = true := by
  obtain ⟨hne, hrun⟩ := hi q hq hc j hj hjq
  have hst := job_step h j
  refine ⟨?_, ?_⟩
  · generalize w.jobAfter env e j = j' at hst
    cases hst with
    | same => exact hne
    | claimed hs hp hd => exact absurd hd.1 hne
    | extended hs hh => exact hne
    | completed hs hst hid => exact JobStatus.noConfusion
    | buried hs hst hid => exact JobStatus.noConfusion
    | expired hx => exact JobStatus.noConfusion
    | @released s now top1 r _ due hs hst ho =>
        -- the run in the row is past its writes, so it has no lease to release
        rw [ProcessingJob.OwnedBy, ht.workerId hs] at ho
        have hfin := hrun s r ho.2 hs ho.1.symm
        rw [Stage.not_finishing_of_releases hst] at hfin
        cases hfin
    | @reset c k now inTime x _ hk hst hid =>
        have hopen := hH.2.1 k (callOf_eq rfl hk) rfl x (by rw [hst]; rfl)
        exact absurd hc (hopen q hq (hjq.symm.trans hid))
    | requeued hr => exact absurd hc (hH.2.2 _ rfl _ hj hr.1 q hq hjq.symm)
  · intro s r' ho hr' hid
    rcases run_cases h hr' with ⟨r, hr, hrs⟩ | hcl
    · rw [hrs.sameRun.1] at hid
      have ho := (owner_back hst ho).resolve_right (by rw [hr]; intro hs; cases hs)
      exact finishing_step hrs (hrun s r ho hr hid)
    · obtain ⟨now, locked, pick, i, x, -, -, hi, -, hd, -, -, rfl⟩ := hcl.claim
      rw [← Db.job_eq_of_id hi hj hid] at hne
      exact absurd hd.1 hne

/-- **One orderly step keeps the answers.** -/
theorem answerKept_step (h : Move env w e w') (ht : Tied env w) (hs : Shaped w)
    (hi : AnswerKept w) (hH : Orderly w e) : AnswerKept w' := by
  intro q' hq' hc' j' hj' hjq
  rcases pair_origin h hq' hj' hjq with ⟨q, hq, j, hj, hjq₀, rfl, rfl⟩ | hins
  · simp only [jobAfter_id]
    by_cases hc : q.status = .completed
    · exact answerKept_old h ht hi hH hq hc hj hjq₀
    · -- the request was completed just now, by a run its job names
      rcases completed_back (request_step h q) hc' with heq |
        ⟨s, now, top1, r, resp, cached, emb, rfl, hs', hst, hid, -⟩
      · rw [heq] at hc'
        exact absurd hc' hc
      · have hjr := (ht.id_iff hs' hj).mpr (hjq₀.trans hid)
        have hown := (hH.1 r (runOf_eq rfl hs') rfl).1 (by rw [hst]; rfl) j hj hjr
        rw [ht.workerId hs'] at hown
        have hcall : PromptPipeline.call env r now top1 = some (.requestMarkCompleted r.req.id
            resp cached (some emb) now) := by
          unfold PromptPipeline.call; rw [hst]
        rw [jobAfter_pipeline hs' hcall]
        refine ⟨fun hqd => ?_, fun s' r' ho hr' _ => ?_⟩
        · rw [hs.queued hj hqd] at hown
          cases hown
        · cases Option.some.inj (hown.symm.trans ho)
          rcases run_cases h hr' with ⟨r₀, hr₀, hrs⟩ | hcl
          · cases Slot.running.inj (hr₀.symm.trans hs')
            cases hrs with
            | same he => exact absurd rfl he
            | wrote htx =>
                obtain ⟨x, hx, hturn⟩ := PromptPipeline.turn_of_call w.db htx
                rw [hx]
                cases hturn with
                | finished _ => rfl
                | _ => simp_all
            | thought he hth => cases he
          · obtain ⟨_, _, _, _, _, he, -⟩ := hcl.claim
            cases he
  · obtain ⟨c, k, now, inTime, -, -, -, rfl, -⟩ := hins.call
    cases hc'

theorem answerKept_reachable (h : (machine env).ReachableWhere Orderly w) : AnswerKept w :=
  invariant_of_moves h answerKept_init fun hr hi hH hm =>
    answerKept_step hm (tied_reachable hr) (shaped_reachable hr) hi hH

/-! ## What callers see -/

/-- `GET /result` finds the row. -/
theorem getByPromptId_of_mem {db : Db} {q : PromptRequest} (hq : q ∈ db.requests.rows) :
    PromptRequestRepository.getByPromptId db q.promptId = some q :=
  Table.find?_uk hq rfl

/-- A call that is under way and returns right after reading a completed row returns its answer. -/
theorem returned_of_completed {k : Call} {inTime : Bool} {q row : PromptRequest}
    (hc : q.status = .completed) (hk : k.stage.ended = false)
    (hr : PromptProcessor.resume env k inTime (.request (some q)) = .returned (some row)) :
    row.status = .completed ∧ row.response = q.response := by
  have hafter : ∀ {row}, PromptProcessor.afterRead (some q) inTime = .returned (some row) →
      row = q := by
    intro row h
    simp only [PromptProcessor.afterRead, hc, RequestStatus.isTerminal, if_true] at h
    exact (Option.some.inj (CallStage.returned.inj h)).symm
  cases hst : k.stage with
  | check =>
      simp only [PromptProcessor.resume, hst] at hr
      split at hr <;> cases hr
  | returnExisting x =>
      simp only [PromptProcessor.resume, hst, Option.getD_some] at hr
      cases hr
      simp [PromptProcessor.reportCached, hc]
  | preCheck =>
      simp only [PromptProcessor.resume, hst] at hr
      rw [hafter hr]
      exact ⟨hc, rfl⟩
  | poll =>
      simp only [PromptProcessor.resume, hst] at hr
      rw [hafter hr]
      exact ⟨hc, rfl⟩
  | timeoutRead =>
      simp only [PromptProcessor.resume, hst] at hr
      cases hr
      exact ⟨hc, rfl⟩
  | returned x => rw [hst] at hk; cases hk
  | _ => simp [PromptProcessor.resume, hst] at hr

/-- A call that returns a row returns it right after reading the row of its prompt id. -/
theorem resume_of_read {k : Call} {now : Time} {inTime : Bool} {t : Tx} {q row : PromptRequest}
    (hq : q ∈ w.db.requests.rows) (hp : k.args.promptId = q.promptId)
    (ht : PromptProcessor.call env k now = some t)
    (hr : PromptProcessor.resume env k inTime (w.db.exec t).2 = .returned (some row)) :
    PromptProcessor.resume env k inTime (.request (some q)) = .returned (some row) := by
  have hread : t = .getByPromptId k.args.promptId →
      (w.db.exec t).2 = .request (some q) := by
    rintro rfl
    exact congrArg Res.request (hp ▸ getByPromptId_of_mem hq)
  cases PromptProcessor.turn_iff.mp ht with
  | read hst => rw [← hread rfl]; exact hr
  | depth hst =>
      simp only [PromptProcessor.resume, hst, Db.exec] at hr
      split at hr <;> cases hr
  | insert hst =>
      simp only [PromptProcessor.resume, hst] at hr
      split at hr <;> cases hr
  | reenqueue hst => simp only [PromptProcessor.resume, hst] at hr; cases hr
  | reset hst => simp only [PromptProcessor.resume, hst] at hr; cases hr

/--
**Completed is final in an orderly run.** Along every path a completed request
keeps its status and its response, and every call of its prompt id that returns
from then on returns that answer.
-/
theorem completed_is_final (h : (machine env).ReachableWhere Orderly w)
    (hp : (machine env).PathWhere Orderly w w') : Stands w w' ∧
      ∀ q ∈ w.db.requests.rows, q.status = .completed → ∀ c now inTime v k row,
        World.step env w' (.call c now inTime) = some v → v.calls c = some k →
        k.args.promptId = q.promptId → k.stage = .returned (some row) →
        row.status = .completed ∧ row.response = q.response := by
  have hstands : Stands w w' := by
    intro q hq hc
    refine (invariant_of_path (I := fun u => AnswerKept u ∧ ∃ q' ∈ u.db.requests.rows,
      q'.promptId = q.promptId ∧ q'.status = .completed ∧ q'.response = q.response) hp
      ⟨answerKept_reachable h, q, hq, rfl, hc, rfl⟩ h ?_).2
    rintro u v e hu ⟨hi, x, hx, hxp, hxc, hxr⟩ hH hm
    obtain ⟨hc', hr'⟩ := answer_step hm (tied_reachable hu) hi hH hx hxc
    refine ⟨answerKept_step hm (tied_reachable hu) (shaped_reachable hu) hi hH, _,
      request_goes_on hm hx, ?_, hc', hr'.trans hxr⟩
    exact (requestAfter_promptId x).trans hxp
  refine ⟨hstands, fun q hq hc c now inTime v k row hstep hk hkp hret => ?_⟩
  obtain ⟨x, hx, hxp, hxc, hxr⟩ := hstands q hq hc
  rcases call_cases (move_of_step hstep) hk with ⟨k₀, hk₀, hks⟩ | ⟨args, he, -⟩
  · cases hks with
    | same he => exact absurd rfl he
    | wrote ht =>
        have hread := resume_of_read (k := k₀) hx (hkp.trans hxp.symm) ht hret
        have hended : k₀.stage.ended = false := by
          cases hst : k₀.stage <;> first | rfl | (rw [PromptProcessor.call, hst] at ht; cases ht)
        rw [← hxr]
        exact returned_of_completed hxc hended hread
  · cases he

/-! ## An answer taken back -/

/-- One request, answered by the provider, up to the answer written to its row. -/
def answeredRun : List Event :=
  submission 0 "p" "a" ++ [.claim 0 1 [] (some 1), .pipeline 0 1 none, .pipeline 0 1 none,
    .limiter 0 .granted, .llmCall 0, .llmReturn 0 "answer", .pipeline 0 2 none,
    .pipeline 0 2 none]

/-- The worker closes its job and the caller reads the answer. -/
theorem completed_is_final_after_finish : ∃ w w', (∃ q ∈ w.db.requests.rows,
    q.status = .completed ∧ q.response = some "answer") ∧
      w'.db.jobs.rows.map (·.status) = [.completed] ∧ Stands w w' := by
  obtain ⟨w, w', hw, hp, ht, ht'⟩ := Machine.legs_of_run (m := machine deployment)
    (H := Orderly) (K := Orderly) (E := answeredRun)
    (F := [.pipeline 0 3 none, .next 0, .call 0 4 true])
    (p := fun w => decide (∃ q ∈ w.db.requests.rows,
      q.status = .completed ∧ q.response = some "answer"))
    (q := fun w' => decide (w'.db.jobs.rows.map (·.status) = [.completed])) (by decide +kernel)
  exact ⟨w, w', of_decide_eq_true ht, of_decide_eq_true ht', (completed_is_final hw hp).1⟩

/--
**The answer is taken back.** The worker dies between the two writes of `_finish`;
the job is still in progress, so the reaper finds its lease expired and puts the
completed request back in the queue.
-/
theorem completed_not_final : ∃ w w', (machine deployment).Reachable w ∧
    (machine deployment).PathWhere Machine.Always w w' ∧ ¬ Stands w w' := by
  obtain ⟨w, w', hw, hp, ht, ht'⟩ := Machine.legs_of_run (m := machine deployment)
    (H := Machine.Always) (K := Machine.Always) (E := answeredRun) (F := [.crash 0, .reap 20])
    (p := fun w => decide (∃ q ∈ w.db.requests.rows, q.status = .completed))
    (q := fun w' => decide (∀ q ∈ w'.db.requests.rows, q.status = .queued)) (by decide +kernel)
  obtain ⟨q, hq, hc⟩ := of_decide_eq_true ht
  refine ⟨w, w', hw, hp, fun hs => ?_⟩
  obtain ⟨q', hq', -, hc', -⟩ := hs q hq hc
  exact absurd (hc'.symm.trans (of_decide_eq_true ht' q' hq')) nofun

end PromptQueue.Proof
