import PromptQueue.Proof.LiveLease

/-!
# One worker at a time

Nothing in the pipeline looks at the lease: `mark_completed` and `mark_dead` write to the
job whoever has it by now. That a pipeline writes to a job of its own is left to timing, and
`sole_worker_iff` is the timing it takes. In a run that is punctual a pipeline has its job
from the claim to the write it parts with it by, so no two slots are ever on one job.
-/

namespace PromptQueue

open Base

/-- The stages up to the write a pipeline parts with its job by. -/
def Stage.onJob : Stage → Bool
  | .markFailed _ | .retryStatus _ | .done _ => false
  | _ => true

/-- The stages that wait for that write. -/
def Stage.parts : Stage → Bool
  | .finishJob | .markDead _ => true
  | st => st.releases

/-- The workers at work. -/
structure Timed.Undivided (x : Timed) : Prop where
  /-- Each has its job. -/
  held : ∀ s r, x.world.slots s = .running r → r.stage.onJob = true →
    ∃ j ∈ x.world.db.jobs.rows, ProcessingJob.HeldBy r.job.id s j
  /-- No two are on one job. -/
  sole : ∀ s s' r r', x.world.slots s = .running r → x.world.slots s' = .running r' →
    r.stage.onJob = true → r'.stage.onJob = true → r.job.id = r'.job.id → s = s'
  /-- No heartbeat is about to cancel one. -/
  unlost : ∀ s r, x.world.slots s = .running r → r.stage.onJob = true → r.leaseLost = false

end PromptQueue

namespace PromptQueue.Proof

open PromptQueue Base World

variable {S : Type} [LinearOrder S] {env : Env S} {tm : Timing} {x x' : Timed}
variable {w w' : World} {e : Event} {s : WorkerId} {r r' : Run}

/-! ## On the job -/

theorem Stage.onJob_of_parts {st : Stage} (h : st.parts = true) : st.onJob = true := by
  cases st <;> first | rfl | cases h

theorem Stage.parts_of_releases {st : Stage} (h : st.releases = true) : st.parts = true := by
  cases st <;> first | rfl | cases h

/-- A pipeline that has parted with its job does not come back to it. -/
theorem onJob_back (h : RunStep env w e s r r') (hst : r'.stage.onJob = true) :
    r.stage.onJob = true := by
  cases h with
  | same he => exact hst
  | beat hl => exact hst
  | wrote ht =>
      obtain ⟨y, hy, hturn⟩ := PromptPipeline.turn_of_call w.db ht
      rw [hy] at hst
      cases hturn with
      | failed h => cases hst
      | retried h => cases hst
      | _ => simp_all [Stage.onJob]
  | thought he ht =>
      by_contra hoff
      have hdeaf : r.stage.hears = false := by
        cases hrs : r.stage <;> rw [hrs] at hoff <;> first | rfl | exact absurd rfl hoff
      have hout : PromptPipeline.inRun r.stage = false := by
        cases hrs : r.stage <;> rw [hrs] at hoff <;> first | rfl | exact absurd rfl hoff
      rcases (thought_deaf ht hdeaf).2 with hx | ⟨message, hx⟩
      · rw [hx] at hst
        cases hst
      · rw [hx, PromptPipeline.fail, hout] at hst
        cases hst

/-- The write a pipeline parts with its job by is its last on the job. -/
theorem offJob_of_parts {now : Time} {top1 : Option Nat}
    (h : RunStep env w (.pipeline s now top1) s r r') (hst : r.stage.parts = true) :
    r'.stage.onJob = false := by
  cases h with
  | same he => exact absurd rfl he
  | thought he ht => cases he
  | wrote ht =>
      obtain ⟨y, hy, hturn⟩ := PromptPipeline.turn_of_call w.db ht
      rw [hy]
      cases hturn with
      | closed _ | buried _ | deferred _ | limited _ | released _ _ | disowned _ _ => rfl
      | _ => simp_all [Stage.parts, Stage.releases]

/-! ## Held -/

/-- Every pipeline on a job has it. -/
def Held (w : World) : Prop :=
  ∀ s r, w.slots s = .running r → r.stage.onJob = true →
    ∃ j ∈ w.db.jobs.rows, ProcessingJob.HeldBy r.job.id s j

/-- Then no two are on one job. -/
theorem sole_of_held (hi : Held w) {s' : WorkerId} (hr : w.slots s = .running r)
    (hr' : w.slots s' = .running r') (hon : r.stage.onJob = true)
    (hon' : r'.stage.onJob = true) (hid : r.job.id = r'.job.id) : s = s' := by
  obtain ⟨j, hj, hheld⟩ := hi s r hr hon
  obtain ⟨j', hj', hheld'⟩ := hi s' r' hr' hon'
  have hjj : j = j' := Db.job_eq_of_id hj hj' (hheld.1.trans (hid.trans hheld'.1.symm))
  rw [hjj] at hheld
  exact Option.some.inj (hheld.2.1.symm.trans hheld'.2.1)

/-- **A move leaves a job with the pipeline on it**, short of a scan that finds it expired and
of a client's reset. -/
theorem held_move (h : Move env w e w') (hi : Held w)
    (hspare : ∀ now ∈ e.reaps, ∀ s r, w.slots s = .running r → ∀ j ∈ w.db.jobs.rows,
      ProcessingJob.HeldBy r.job.id s j → ¬ ProcessingJob.Expired now j)
    (hreset : e.writes = true → ∀ k ∈ w.callOf e, ∀ q, k.stage = .reenqueueReset q →
      ∀ j ∈ w.db.jobs.rows, j.promptRequestId = q.id → j.status ≠ .processing) : Held w' := by
  intro s r' hr' hon'
  rcases run_cases h hr' with ⟨r, hr, hrs⟩ | hcl
  · obtain ⟨j, hj, hheld⟩ := hi s r hr (onJob_back hrs hon')
    rw [hrs.sameRun.1]
    refine ⟨_, job_goes_on h hj, ?_⟩
    -- whoever parts with the job is the pipeline that has it, and then it is no longer on it
    have hparts : ∀ s₀ r₀ now top1, w.slots s₀ = .running r₀ → r₀.stage.parts = true →
        r₀.job.id = j.id → e ≠ .pipeline s₀ now top1 := by
      rintro s₀ r₀ now top1 hs₀ hst hid rfl
      cases sole_of_held hi hs₀ hr (Stage.onJob_of_parts hst) (onJob_back hrs hon')
        (hid.trans hheld.1)
      cases Slot.running.inj (hs₀.symm.trans hr)
      rw [offJob_of_parts hrs hst] at hon'
      cases hon'
    have hst := job_step h j
    generalize w.jobAfter env e j = j' at hst
    cases hst with
    | same => exact hheld
    | claimed hs hp hd => exact absurd (hd.1.symm.trans hheld.2.2) (by simp)
    | extended hs hh => exact hheld
    | released hs hst ho =>
        exact absurd rfl (hparts _ _ _ _ hs (Stage.parts_of_releases hst) ho.1.symm)
    | completed hs hst hid => exact absurd rfl (hparts _ _ _ _ hs (by rw [hst]; rfl) hid.symm)
    | buried hs hst hid => exact absurd rfl (hparts _ _ _ _ hs (by rw [hst]; rfl) hid.symm)
    | reset hc hst hid => exact absurd hheld.2.2 (hreset rfl _ (callOf_eq rfl hc) _ hst j hj hid)
    | requeued hx => exact absurd hx.1 (hspare _ rfl s r hr j hj hheld)
    | expired hx => exact absurd hx.1 (hspare _ rfl s r hr j hj hheld)
  · obtain ⟨now, locked, pick, j, q, rfl, -, hj, hp, hd, -, -, rfl⟩ := hcl.claim
    refine ⟨_, job_goes_on h hj, ?_⟩
    rw [jobAfter_claim hp hd]
    exact ⟨rfl, rfl, rfl⟩

/-- **In a punctual run every pipeline on a job has it.** -/
theorem held_reachable (hgap : tm.heartbeat.gap + 2 * tm.skew ≤ env.leaseSeconds)
    (h : (Timed.machine env tm).ReachableWhere (Punctual tm) x) : Held x.world := by
  refine invariant_of_timed (I := fun x => Held x.world) h
    (fun _ _ hr => by cases hr) fun {y z e} hr hi he hs => ?_
  rcases hs.world with ⟨-, hw⟩ | ⟨ev, hev, hw⟩
  · rw [hw]
    exact hi
  · refine held_move (move_of_step hw) hi ?_ (he.2 ev hev)
    intro now hnow
    obtain ⟨t, -, hloop⟩ | ⟨t, s, now', -, rfl⟩ | ⟨t, now', rfl, rfl⟩ := event_cases hs hev
    · have hno : ev.reaps = none := by
        cases ev <;> first | rfl | cases hloop
      rw [hno] at hnow
      cases hnow
    · cases hnow
    · cases hnow
      exact sparesLive_of_gap hgap (hr.mono fun _ _ h => h.1) he.1

end PromptQueue.Proof
