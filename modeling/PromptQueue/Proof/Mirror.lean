import PromptQueue.Proof.Agreement
import PromptQueue.Proof.Ownership

/-!
# The status a client is shown

The state machine of a request has a state for being worked on, and the job row
enters it when it is claimed. The request row never does: `claim_next` writes one
table, and no other write names that status. So what a client is shown mirrors
the job exactly as long as nobody works on it.
-/

namespace PromptQueue

open Base World

/-- The status of a request as the status of its job would have it. -/
structure Mirrored (j : ProcessingJob) (q : PromptRequest) : Prop where
  /-- Somebody works on it, or it has just been answered or given up. -/
  processing : j.status = .processing → q.status = .processing ∨ q.status.isTerminal = true
  /-- It waits. -/
  queued : j.status = .queued → q.status = .queued

/-- The row of a request mirrors the row of its job. -/
def World.Mirrors (w : World) (requestId : Nat) : Prop :=
  ∀ j ∈ w.db.jobs.rows, ∀ q ∈ w.db.requests.rows, q.id = requestId →
    j.promptRequestId = requestId → Mirrored j q

/-- An event hands the job of a request to a worker. -/
def World.HandsOut (w : World) (requestId : Nat) (e : Event) : Prop :=
  ∃ s now locked i, e = .claim s now locked (some i) ∧
    ∃ j ∈ w.db.jobs.rows, j.id = i ∧ j.promptRequestId = requestId

end PromptQueue

namespace PromptQueue.Proof

open PromptQueue Base World

variable {S : Type} [LinearOrder S] {env : Env S} {w w' : World} {e : Event}

/-! ## A request nobody was handed -/

/-- A request whose job was never handed out: both rows wait, and nobody has a copy. -/
structure Waiting (w : World) (requestId : Nat) : Prop where
  slots : ∀ {s r}, w.slots s = .running r → r.req.id ≠ requestId
  requests : ∀ {q}, q ∈ w.db.requests.rows → q.id = requestId → q.status = .queued
  jobs : ∀ {j}, j ∈ w.db.jobs.rows → j.promptRequestId = requestId → j.status = .queued

theorem waiting_init (requestId : Nat) : Waiting World.init requestId := ⟨nofun, nofun, nofun⟩

/-- It goes on waiting, as long as it is not handed out. -/
theorem waiting_step {requestId : Nat} (h : Move env w e w') (ht : Tied env w)
    (hn : ¬ w.HandsOut requestId e) (hi : Waiting w requestId) : Waiting w' requestId where
  slots := by
    intro s r' hr'
    rcases run_cases h hr' with ⟨r, hr, hst⟩ | hc
    · rw [hst.sameRun.2.1]
      exact hi.slots hr
    · obtain ⟨now, locked, pick, j, q, rfl, -, hj, hp, -, -, hid, rfl⟩ := hc.claim
      cases hp
      intro hq
      exact hn ⟨s, now, locked, j.id, rfl, j, hj, rfl, hid.symm.trans hq⟩
  requests := by
    intro q' hq' hid
    rcases request_origin h hq' with ⟨q, hq, rfl⟩ | ⟨j, hins, -⟩
    · rw [requestAfter_id] at hid
      generalize hnew : w.requestAfter env e q = x
      have hst := request_step h q
      rw [hnew] at hst
      cases hst with
      | same => exact hi.requests hq hid
      | reenqueued hc hst hqid => rfl
      | retried hs hst hqid => exact absurd (hqid.symm.trans hid) (hi.slots hs)
      | completed hs hst hqid => exact absurd (hqid.symm.trans hid) (hi.slots hs)
      | failed hs hst hqid => exact absurd (hqid.symm.trans hid) (hi.slots hs)
      | requeued hj hr hqid => rfl
      | expired hj hx hqid =>
          have hwaits := hi.jobs hj (hqid.symm.trans hid)
          exact absurd (hwaits.symm.trans hx.1.1) nofun
    · obtain ⟨c, k, now, inTime, -, -, -, rfl, -⟩ := hins.call
      rfl
  jobs := by
    intro j' hj' hid
    rcases job_origin h hj' with ⟨j, hj, rfl⟩ | ⟨q, hins⟩
    · rw [jobAfter_promptRequestId] at hid
      -- a run of the job is a run of the request
      have norun : ∀ {s r}, w.slots s = .running r → j.id ≠ r.job.id := by
        intro s r hs hjid
        exact hi.slots hs (((ht.id_iff hs hj).mp hjid).symm.trans hid)
      generalize hnew : w.jobAfter env e j = x
      have hst := job_step h j
      rw [hnew] at hst
      cases hst with
      | same => exact hi.jobs hj hid
      | @claimed s now locked pick _ hs hp hd =>
          cases hp
          exact absurd ⟨s, now, locked, j.id, rfl, j, hj, rfl, hid⟩ hn
      | extended hs hh => exact absurd hh.1 (norun hs)
      | completed hs hst hjid => exact absurd hjid (norun hs)
      | buried hs hst hjid => exact absurd hjid (norun hs)
      | released hs hst ho => rfl
      | reset hc hst hq => rfl
      | requeued hr => rfl
      | expired hx => exact absurd ((hi.jobs hj hid).symm.trans hx.1.1) nofun
    · obtain ⟨c, k, now, inTime, -, -, -, -, rfl⟩ := hins.call
      rfl

theorem Waiting.mirrors {requestId : Nat} (hi : Waiting w requestId) : w.Mirrors requestId := by
  intro j hj q hq hid hjid
  refine ⟨fun hp => ?_, fun _ => hi.requests hq hid⟩
  exact absurd ((hi.jobs hj hjid).symm.trans hp) nofun

/-! ## A request that is handed out -/

/-- A claim leaves the requests alone. -/
theorem requestAfter_claim {s : WorkerId} {now : Time} {locked : List Nat} {pick : Option Nat}
    (q : PromptRequest) : w.requestAfter env (.claim s now locked pick) q = q := rfl

/-- **The step that hands a job out breaks the mirror**, if nothing had. -/
theorem handsOut_breaks {requestId : Nat} (h : Move env w e w') (hd : w.HandsOut requestId e)
    (hm : w.Mirrors requestId) : ¬ w'.Mirrors requestId := by
  obtain ⟨s, now, locked, i, rfl, j, hj, hji, hjid⟩ := hd
  intro hm'
  cases h with
  | think hs he ht => cases he
  | @claim _ _ _ _ hs hsel =>
      have hmove : Move env w (.claim s now locked (some i)) _ := .claim hs hsel
      obtain ⟨k, hk, hki, hdue, -, -⟩ := hsel
      cases Db.job_eq_of_id hk hj (hki.trans hji.symm)
      obtain ⟨q, hq, hqid⟩ := w.db.fk j hj
      have hrow := job_goes_on hmove hj
      rw [jobAfter_claim (congrArg some hji) hdue] at hrow
      have hq' := request_goes_on hmove hq
      rw [requestAfter_claim] at hq'
      have hqq := (hm j hj q hq (hqid.trans hjid) hjid).queued hdue.1
      rcases (hm' _ hrow q hq' (hqid.trans hjid) hjid).processing rfl with hp | hp
      · exact absurd (hqq.symm.trans hp) nofun
      · rw [hqq] at hp
        cases hp

/--
**A request mirrors its job in every state of a run exactly when the run never hands it
out.**
-/
theorem status_mirrors_iff (requestId : Nat) {es : List Event}
    (h : (machine env).run World.init es = some w) :
    (∀ fs gs u, es = fs ++ gs → (machine env).run World.init fs = some u → u.Mirrors requestId) ↔
      (machine env).Meets (fun u e => ¬ u.HandsOut requestId e) World.init es := by
  -- along a run that keeps it the rows wait, and the runs stay tied to their rows
  refine Machine.throughout_iff_meets (I := fun u => u.Mirrors requestId)
    (J := fun u => (machine env).Reachable u ∧ Waiting u requestId)
    ⟨.init, waiting_init requestId⟩ h (fun hi => hi.2.mirrors) ?_ ?_
  · intro u v e hi hkept hs
    refine ⟨hi.1.tail trivial hs, ?_⟩
    exact waiting_step (move_of_step hs) (tied_reachable hi.1) hkept hi.2
  · intro u v e hi hout hs
    exact handsOut_breaks (move_of_step hs) (not_not.mp hout) hi.2.mirrors

/-- A job in progress and a request that waits do not mirror each other. -/
theorem not_mirrors_of_held {j : ProcessingJob} {q : PromptRequest} (hj : j ∈ w.db.jobs.rows)
    (hq : q ∈ w.db.requests.rows) (hid : q.id = j.promptRequestId) (hp : j.status = .processing)
    (hqueued : q.status = .queued) : ¬ w.Mirrors j.promptRequestId := by
  intro hall
  rcases (hall j hj q hq hid rfl).processing hp with hs | hs
  · exact absurd (hqueued.symm.trans hs) nofun
  · rw [hqueued] at hs
    cases hs

/-- One request nobody claims, until the caller's deadline passes. -/
def noWorker : List Event :=
  submission 0 "p" "a" ++ [.call 0 1 true, .call 0 10 false, .call 0 10 false]

/-- One request, claimed by a worker that still has it when the caller's deadline passes. -/
def slowWorker : List Event :=
  submission 0 "p" "a" ++ [.claim 0 1 [] (some 1), .call 0 1 true, .call 0 10 false,
    .call 0 10 false]

/-- Without a worker the request mirrors its job all along; a slow one hands it out. -/
theorem status_mirrors_iff_slow_worker :
    (∃ w, (machine deployment).run World.init noWorker = some w ∧
      w.db.jobs.rows.map (·.status) = [.queued] ∧
      ∀ fs gs u, noWorker = fs ++ gs → (machine deployment).run World.init fs = some u →
        u.Mirrors 1) ∧
    ¬ (machine deployment).Meets (fun u e => ¬ u.HandsOut 1 e) World.init slowWorker := by
  constructor
  · obtain ⟨w, hw, -, ht⟩ := Machine.reachable_of_run (m := machine deployment) (E := noWorker)
      (p := fun w => decide (w.db.jobs.rows.map (·.status) = [.queued])) (by decide +kernel)
    refine ⟨w, hw, of_decide_eq_true ht, (status_mirrors_iff 1 hw).mpr ?_⟩
    refine Machine.meets_of_forall (fun e he u hout => ?_) World.init
    obtain ⟨s, now, locked, i, rfl, -⟩ := hout
    simp [noWorker, submission] at he
  · obtain ⟨w, hw, -, ht⟩ := Machine.reachable_of_run (m := machine deployment) (E := slowWorker)
      (p := fun w => decide (∃ j ∈ w.db.jobs.rows, ∃ q ∈ w.db.requests.rows,
        j.promptRequestId = 1 ∧ q.id = j.promptRequestId ∧ j.status = .processing ∧
          q.status = .queued)) (by decide +kernel)
    obtain ⟨j, hj, q, hq, hone, hid, hp, hqueued⟩ := of_decide_eq_true ht
    refine (status_mirrors_iff 1 hw).not.mp fun hall => ?_
    exact not_mirrors_of_held hj hq hid hp hqueued
      (hone ▸ hall slowWorker [] w (List.append_nil _).symm hw)

/-- **A worker holds the job, and the caller whose deadline passes is told that it is queued.** -/
theorem held_but_queued : ∃ w, (machine deployment).Reachable w ∧
    w.db.jobs.rows.map (·.status) = [.processing] ∧
    (∃ k row, w.calls 0 = some k ∧ k.stage = .returned (some row) ∧ row.status = .queued) ∧
    ¬ ∀ requestId, w.Mirrors requestId := by
  obtain ⟨w, -, hreach, hw⟩ := Machine.reachable_of_run (m := machine deployment)
    (E := slowWorker) (p := fun w => decide (w.db.jobs.rows.map (·.status) = [.processing] ∧
      ((w.calls 0).bind fun k => k.stage.result.map (·.status)) = some .queued ∧
      ∃ j ∈ w.db.jobs.rows, ∃ q ∈ w.db.requests.rows, q.id = j.promptRequestId ∧
        j.status = .processing ∧ q.status = .queued)) (by decide +kernel)
  obtain ⟨hjobs, hres, j, hj, q, hq, hid, hp, hqueued⟩ := of_decide_eq_true hw
  obtain ⟨k, hk, hres⟩ := Option.bind_eq_some_iff.mp hres
  obtain ⟨row, hrow, hstatus⟩ := Option.map_eq_some_iff.mp hres
  exact ⟨w, hreach, hjobs, ⟨k, row, hk, CallStage.result_eq hrow, hstatus⟩, fun hall =>
    not_mirrors_of_held hj hq hid hp hqueued (hall _)⟩

/-! ## What a client reads -/

/-- **No request is ever `processing`**: no write says so. -/
theorem never_processing {H : World → Event → Prop} (h : (machine env).ReachableWhere H w) :
    ∀ q ∈ w.db.requests.rows, q.status ≠ .processing := by
  refine invariant_of_moves (I := fun w => ∀ q ∈ w.db.requests.rows, q.status ≠ .processing) h
    (fun _ hq => absurd hq List.not_mem_nil) fun _ hi _ hm q' hq' => ?_
  rcases request_origin hm hq' with ⟨q, hq, rfl⟩ | ⟨j, hins, -⟩
  · generalize hnew : World.requestAfter env _ _ q = x
    have hst := request_step hm q
    rw [hnew] at hst
    cases hst with
    | same => exact hi q hq
    | _ => nofun
  · obtain ⟨c, k, now, inTime, -, -, -, rfl, -⟩ := hins.call
    nofun

/-- So neither `GET /result` nor a call that has timed out reads that status. -/
theorem read_never_processing {H : World → Event → Prop} (h : (machine env).ReachableWhere H w)
    {promptId : String} {row : PromptRequest}
    (hr : PromptRequestRepository.getByPromptId w.db promptId = some row) :
    row.status ≠ .processing :=
  never_processing h row (List.mem_of_find?_eq_some hr)

end PromptQueue.Proof
