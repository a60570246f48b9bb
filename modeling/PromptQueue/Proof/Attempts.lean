import PromptQueue.Proof.Final

/-!
# The retry counter

`claim_next` counts and never looks at the limit; the limit is looked at on the ways
back to the queue. The reaper compares the two columns, the retry asks `can_retry`,
a reset starts over — and a deferral does none of these. So the counter stays within
its limit as long as no deferral gives back a job on its last attempt.
-/

namespace PromptQueue.Proof

open PromptQueue Base World

variable {S : Type} [LinearOrder S] {env : Env S} {w w' : World} {e : Event}

/-- The counter of every job with a limit is within it, and no claim takes it beyond. -/
structure WithinLimit (env : Env S) (w : World) : Prop where
  /-- `attempt_count <= max_attempts`. -/
  bound : ∀ j ∈ w.db.jobs.rows, 1 ≤ j.maxAttempts → j.attemptCount ≤ j.maxAttempts
  /-- `claim_next` hands out no job that had its last attempt. -/
  handed : ∀ s now locked pick w', World.step env w (.claim s now locked pick) = some w' →
    ∀ j ∈ w.db.jobs.rows, some j.id = pick → 1 ≤ j.maxAttempts → j.attemptCount < j.maxAttempts

/-- Along the way a job that is out of attempts is not claimed, unless a client resets it. -/
def StaysDead (w w' : World) : Prop :=
  ∀ j ∈ w.db.jobs.rows, ∀ j' ∈ w'.db.jobs.rows, j'.id = j.id → 1 ≤ j.maxAttempts →
    j.status = .dead → j.maxAttempts ≤ j.attemptCount →
    resets w'.log j.promptRequestId = resets w.log j.promptRequestId →
    j'.attemptCount = j.attemptCount

/-- A step that defers no job on its last attempt, unless the row names another worker by now. -/
def Affordable (w : World) (e : Event) : Prop :=
  ∀ r ∈ w.runOf e, e.writes = true → r.stage.defers = true → Owns w r → 1 ≤ r.job.maxAttempts →
    r.job.canRetry = true

instance (w : World) : DecidablePred (Affordable w) :=
  fun e => inferInstanceAs (Decidable (∀ r ∈ w.runOf e, _))

/-! ## The invariant -/

/-- What keeps the counters within their limits. -/
structure Limited (w : World) : Prop where
  /-- A queued job has an attempt left, and no job has had more than its limit. -/
  row : ∀ {j}, j ∈ w.db.jobs.rows → 1 ≤ j.maxAttempts →
    j.attemptCount ≤ j.maxAttempts ∧ (j.status = .queued → j.attemptCount < j.maxAttempts)
  /-- A pipeline retries only while it may. -/
  retry : ∀ {s r}, w.slots s = .running r → r.stage.retries = true → r.job.canRetry = true

theorem limited_init : Limited World.init := ⟨nofun, nofun⟩

theorem handleFailure_retries {job : ProcessingJob} {exc : Exc}
    (h : (PromptPipeline.handleFailure job exc).retries = true) : job.canRetry = true := by
  rcases PromptPipeline.handleFailure_cases job exc with ⟨wait, -, hs⟩ | ⟨-, -, hs⟩ |
    ⟨-, -, hc, hs⟩
  · rw [hs] at h; cases h
  · rw [hs] at h; cases h
  · exact hc

/-- A pipeline comes to a retry through its failure handler. -/
theorem retries_step {s : WorkerId} {r r' : Run} (h : RunStep env w e s r r')
    (hst : r'.stage.retries = true) : r.stage.retries = true ∨ r.job.canRetry = true := by
  cases h with
  | same he => exact .inl hst
  | beat hl => exact .inl hst
  | wrote ht =>
      obtain ⟨x, hx, hturn⟩ := PromptPipeline.turn_of_call w.db ht
      rw [hx] at hst
      cases hturn <;> cases hst
  | thought he hth =>
      cases hth with
      | dbError hc =>
          dsimp only [PromptPipeline.fail] at hst
          split at hst
          · exact .inr (handleFailure_retries hst)
          · cases hst
      | unavailable h =>
          dsimp only at hst
          exact .inr (handleFailure_retries hst)
      | failed hx h => exact .inr (handleFailure_retries hst)
      | _ => cases hst

/-- A release that goes through gives back a job with an attempt left. -/
theorem release_affordable (ht : Tied env w) (hown : Ownership w) (hi : Limited w) {s : WorkerId}
    {r : Run} {now : Time} {top1 : Option Nat} (hH : Affordable w (.pipeline s now top1))
    (hr : w.slots s = .running r) (hst : r.stage.releases = true) {j : ProcessingJob}
    (hj : j ∈ w.db.jobs.rows)
    (ho : ProcessingJob.OwnedBy r.job.id (PromptPipeline.workerId r) j)
    (hmax : 1 ≤ j.maxAttempts) : j.attemptCount < j.maxAttempts := by
  have hrow := ho
  rw [ProcessingJob.OwnedBy, ht.workerId hr] at hrow
  obtain ⟨-, hatt⟩ := hown.latest hr hj hrow.1 hrow.2
  have hm : j.maxAttempts = r.job.maxAttempts :=
    congrArg (·.2.2.1) (ht.static_of_id hr hj hrow.1)
  have hcan : r.job.canRetry = true := by
    cases hrs : r.stage with
    | retryRelease exc => exact hi.retry hr (by rw [hrs]; rfl)
    | deferRelease wait =>
        exact hH r (runOf_eq rfl hr) rfl (by rw [hrs]; rfl) (owns_of_row hj ho) (by omega)
    | limitedRelease wait =>
        exact hH r (runOf_eq rfl hr) rfl (by rw [hrs]; rfl) (owns_of_row hj ho) (by omega)
    | _ => rw [hrs] at hst; cases hst
  have hlt : r.job.attemptCount < r.job.maxAttempts := of_decide_eq_true hcan
  omega

/-- **One affordable step keeps the counters within their limits.** -/
theorem limited_step (h : Move env w e w') (ht : Tied env w) (hown : Ownership w)
    (hi : Limited w) (hH : Affordable w e) : Limited w' where
  row := by
    intro j' hj' hmax
    rcases job_cases h hj' with ⟨j, hj, hst⟩ | ⟨q, hins⟩
    · cases hst with
      | same => exact hi.row hj hmax
      | claimed hs hp hd =>
          have hlt := (hi.row hj hmax).2 hd.1
          exact ⟨hlt, fun hq => by cases hq⟩
      | @extended _ _ _ j hs hh => exact hi.row (j := j) hj hmax
      | released hs hst ho =>
          have hlt := release_affordable ht hown hi hH hs hst hj ho hmax
          exact ⟨hlt.le, fun _ => hlt⟩
      | completed hs hst hid => exact ⟨(hi.row hj hmax).1, fun hq => by cases hq⟩
      | buried hs hst hid => exact ⟨(hi.row hj hmax).1, fun hq => by cases hq⟩
      | reset hc hst hid => exact ⟨Nat.zero_le _, fun _ => hmax⟩
      | requeued hr => exact ⟨hr.2.le, fun _ => hr.2⟩
      | expired hx => exact ⟨(hi.row hj hmax).1, fun hq => by cases hq⟩
    · obtain ⟨c, k, now, inTime, -, -, -, -, rfl⟩ := hins.call
      exact ⟨Nat.zero_le _, fun _ => hmax⟩
  retry := by
    intro s r' hr' hst
    rcases run_cases h hr' with ⟨r, hr, hrs⟩ | hcl
    · rw [hrs.sameRun.1]
      rcases retries_step hrs hst with hold | hnew
      · exact hi.retry hr hold
      · exact hnew
    · rw [hcl.start] at hst
      cases hst

theorem limited_reachable (h : (machine env).ReachableWhere Affordable w) : Limited w :=
  invariant_of_moves h limited_init fun hr hi hH hm =>
    limited_step hm (tied_reachable hr) (ownership_reachable hr) hi hH

/-- A move leaves the counter of a job that is out of attempts alone, or it is a reset. -/
theorem outOfAttempts_step (h : Move env w e w') (hi : Limited w) {j : ProcessingJob}
    (hj : j ∈ w.db.jobs.rows) (hmax : 1 ≤ j.maxAttempts) (hn : j.maxAttempts ≤ j.attemptCount) :
    (w.jobAfter env e j).attemptCount = j.attemptCount ∨
      resets w.log j.promptRequestId < resets w'.log j.promptRequestId := by
  have hst := job_step h j
  generalize w.jobAfter env e j = j' at hst
  cases hst with
  | claimed hs hp hd =>
      have hlt := (hi.row hj hmax).2 hd.1
      omega
  | @reset c k now inTime q _ hc hst hq =>
      right
      rw [hq, resets_of_reset h (reset_issued hc hst)]
      exact Nat.lt_succ_self _
  | _ => exact .inl rfl

/--
**In an affordable run no job has more attempts than its limit**, no job that had
its last is handed out, and what is dead for want of attempts is not claimed again
before a client resets it.
-/
theorem attempts_within_limit (h : (machine env).ReachableWhere Affordable w) :
    WithinLimit env w ∧ ∀ w', (machine env).PathWhere Affordable w w' → StaysDead w w' := by
  refine ⟨⟨fun j hj hmax => ((limited_reachable h).row hj hmax).1, ?_⟩, ?_⟩
  · intro s now locked pick w' hstep j hj hp hmax
    cases move_of_step hstep with
    | claim hs hsel =>
        subst hp
        obtain ⟨i, hi, hid, hd, -⟩ := hsel
        rw [Db.job_eq_of_id hi hj hid] at hd
        exact ((limited_reachable h).row hj hmax).2 hd.1
    | think hs he ht => cases he
  · intro w' hp j hj j' hj' hid hmax hdead hn hres
    have key := invariant_of_path (I := fun u => resets w.log j.promptRequestId
        ≤ resets u.log j.promptRequestId ∧
      (resets u.log j.promptRequestId = resets w.log j.promptRequestId →
        ∃ i ∈ u.db.jobs.rows, i.static = j.static ∧ i.attemptCount = j.attemptCount)) hp
      ⟨le_refl _, fun _ => ⟨j, hj, rfl, rfl⟩⟩ h ?_
    · obtain ⟨i, hi, hst, hatt⟩ := key.2 hres
      have hii : i.id = j.id := congrArg (·.1) hst
      rw [Db.job_eq_of_id hj' hi (hid.trans hii.symm)]
      exact hatt
    · rintro u v e hu ⟨hle, hrow⟩ hH hm
      have hmono := resets_mono hm j.promptRequestId
      refine ⟨hle.trans hmono, fun heq => ?_⟩
      obtain ⟨i, hi, hst, hatt⟩ := hrow (by omega)
      have hq : i.promptRequestId = j.promptRequestId := congrArg (·.2.1) hst
      have him : i.maxAttempts = j.maxAttempts := congrArg (·.2.2.1) hst
      rcases outOfAttempts_step hm (limited_reachable hu) hi (by omega) (by omega) with hsame | hlt
      · exact ⟨_, job_goes_on hm hi, (jobAfter_static i).trans hst, hsame.trans hatt⟩
      · rw [hq] at hlt
        omega

/-! ## A deferral too many -/

/-- A due job can be claimed by any idle slot: other transactions may hold all others. -/
theorem claimable (env : Env S) {s : WorkerId} {j : ProcessingJob} {now : Time}
    (hs : w.slots s = .idle)
    (hj : j ∈ w.db.jobs.rows) (hd : ProcessingJob.Due now j) :
    ∃ locked, (World.step env w (.claim s now locked (some j.id))).isSome = true := by
  have hsel : ProcessingJobRepository.Selects w.db.jobs.rows
      ((w.db.jobs.rows.map (·.id)).filter (· ≠ j.id)) now (some j.id) := by
    refine ⟨j, hj, rfl, hd, by simp, fun k hk hdk hnk => ?_⟩
    have hkj : k.id = j.id := by
      by_contra hne
      exact hnk (List.mem_filter.mpr ⟨List.mem_map_of_mem hk, by simpa using hne⟩)
    rw [Db.job_eq_of_id hk hj hkj]
    exact .inr ⟨rfl, le_refl _⟩
  refine ⟨(w.db.jobs.rows.map (·.id)).filter (· ≠ j.id), ?_⟩
  simp only [World.step, hs]
  rw [if_pos hsel]
  rfl

/-- **After a deferral too many the next claim goes beyond the limit.** -/
theorem over_limit_of_unaffordable (hreach : (machine env).Reachable w)
    (hs : World.step env w e = some w') (hn : ¬ Affordable w e) :
    ∃ s w'', World.step env w' (.next s) = some w'' ∧ ¬ WithinLimit env w'' := by
  have h := move_of_step hs
  have ht := tied_reachable hreach
  unfold Affordable at hn
  push Not at hn
  obtain ⟨r, hr, hw, hst, ho, hmax, hcan⟩ := hn
  obtain ⟨s, now, top1, t, x, rfl, hrun, htx, hturn, hr'⟩ := turn_of_writes h hr hw
  obtain ⟨j, hj, hstat⟩ := ht.job hrun
  have hid : j.id = r.job.id := congrArg (·.1) hstat
  have hjmax : j.maxAttempts = r.job.maxAttempts := congrArg (·.2.2.1) hstat
  have hown : ProcessingJob.OwnedBy r.job.id (PromptPipeline.workerId r) j := ⟨hid, ho j hj hid⟩
  have hatt : r.job.attemptCount = j.attemptCount := by
    refine ((ownership_reachable hreach).latest hrun hj hid ?_).2
    rw [ho j hj hid, ht.workerId hrun]
  -- the row goes back to the queue with its count as it is, and the slot goes on
  obtain ⟨due, hrow, hx⟩ : ∃ due, j.release due ∈ w'.db.jobs.rows ∧ x = .done .returned := by
    have hgoes := job_goes_on h hj
    rw [jobAfter_pipeline hrun htx] at hgoes
    cases hturn with
    | @deferred wait hs =>
        refine ⟨now + wait, ?_, rfl⟩
        rwa [Tx.onJob, Table.updateRow, if_pos hown] at hgoes
    | @limited wait hs =>
        refine ⟨now + wait, ?_, rfl⟩
        rwa [Tx.onJob, Table.updateRow, if_pos hown] at hgoes
    | _ => simp_all [Stage.defers]
  subst hx
  refine ⟨s, (w'.setSlot s .idle).note [.notified r.req.id], ?_, fun hlim => ?_⟩
  · simp only [World.step, withRun, hr', afterTask]
  · have hdue : ProcessingJob.Due due (j.release due) := ⟨rfl, le_refl _⟩
    obtain ⟨locked, hclaim⟩ := claimable env
      (w := (w'.setSlot s .idle).note [.notified r.req.id])
      (setSlot_slots_self w' s .idle) hrow hdue
    obtain ⟨w₂, hclaim⟩ := Option.isSome_iff_exists.mp hclaim
    have hlt : j.attemptCount < j.maxAttempts :=
      hlim.handed s due locked _ w₂ hclaim (j.release due) hrow rfl (hjmax ▸ hmax)
    have hno : ¬ r.job.attemptCount < r.job.maxAttempts := by
      simpa [ProcessingJob.canRetry] using hcan
    omega

/-- A claim the limiter denies, at a time. -/
def denial (now : Time) : List Event :=
  [.claim 0 now [] (some 1), .pipeline 0 now none, .pipeline 0 now none, .limiter 0 .denied,
    .pipeline 0 now none, .next 0]

/-- One deferral is affordable. -/
theorem attempts_within_limit_of_denial : ∃ w, w.db.jobs.rows.map (·.attemptCount) = [1] ∧
    WithinLimit deployment w := by
  obtain ⟨w, hw, ht⟩ := Machine.reachableWhere_of_run (m := machine deployment)
    (H := Affordable) (E := submission 0 "p" "a" ++ denial 1)
    (p := fun w => decide (w.db.jobs.rows.map (·.attemptCount) = [1])) (by decide +kernel)
  exact ⟨w, of_decide_eq_true ht, (attempts_within_limit hw).1⟩

/-- Five claims the limiter denies, and a sixth. -/
def deniedClaims : List Event :=
  submission 0 "p" "a" ++ denial 1 ++ denial 10 ++ denial 20 ++ denial 30 ++ denial 40 ++
    [.claim 0 50 [] (some 1)]

/-- **A job whose limit is five is claimed a sixth time.** -/
theorem attempts_beyond_limit : ∃ w, (machine deployment).Reachable w ∧
    ¬ WithinLimit deployment w := by
  obtain ⟨w, -, hw, ht⟩ := Machine.reachable_of_run (m := machine deployment)
    (E := deniedClaims) (p := fun w => decide (∃ j ∈ w.db.jobs.rows,
      1 ≤ j.maxAttempts ∧ j.maxAttempts < j.attemptCount)) (by decide +kernel)
  obtain ⟨j, hj, hmax, hlt⟩ := of_decide_eq_true ht
  refine ⟨w, hw, fun hlim => ?_⟩
  have hle := hlim.bound j hj hmax
  omega

end PromptQueue.Proof
