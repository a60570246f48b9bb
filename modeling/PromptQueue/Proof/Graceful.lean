import PromptQueue.Proof.Refinement
import PromptQueue.Proof.SoleWorker

/-!
# A shutdown that leaves nothing behind

`shutdown.py` lets jobs in flight finish. What that is worth shows in the database: as long as
no process is killed, no slot cancelled and no failure handler broken off, a job in progress
always has somebody on it, however its leases and its workers changed. So when the last slot
has come home no job is in progress.

The argument is about the system; `cluster_simulation` brings it to the processes.
-/

namespace PromptQueue

open Base

/-- Every job in progress has its worker on it. -/
def World.Manned (w : World) : Prop :=
  ∀ j ∈ w.db.jobs.rows, j.status = .processing → ∃ s r, w.slots s = .running r ∧
    r.stage.onJob = true ∧ r.leaseLost = false ∧ ProcessingJob.HeldBy r.job.id s j

end PromptQueue

namespace PromptQueue.Proof

open PromptQueue Base World

variable {S : Type} [LinearOrder S] {env : Env S} {w w' : World} {e : Event}
variable {s : WorkerId} {r r' : Run} {j : ProcessingJob}

/-- The write a pipeline parts with its job by takes the job out of progress. -/
theorem unheld_of_parts {now : Time} {top1 : Option Nat} {t : Tx}
    (ht : PromptPipeline.call env r now top1 = some t) (hst : r.stage.parts = true)
    (hown : ProcessingJob.OwnedBy r.job.id (PromptPipeline.workerId r) j) :
    (t.onJob j).status ≠ .processing := by
  unfold PromptPipeline.call at ht
  cases hrs : r.stage with
  | deferRelease wait =>
      rw [hrs] at ht
      cases ht
      simp only [Tx.onJob, Table.updateRow, if_pos hown]
      exact JobStatus.noConfusion
  | limitedRelease wait =>
      rw [hrs] at ht
      cases ht
      simp only [Tx.onJob, Table.updateRow, if_pos hown]
      exact JobStatus.noConfusion
  | retryRelease exc =>
      rw [hrs] at ht
      cases ht
      simp only [Tx.onJob, Table.updateRow, if_pos hown]
      exact JobStatus.noConfusion
  | finishJob =>
      rw [hrs] at ht
      cases ht
      simp only [Tx.onJob, Table.updateRow, if_pos hown.1]
      exact JobStatus.noConfusion
  | markDead exc =>
      rw [hrs] at ht
      cases ht
      simp only [Tx.onJob, Table.updateRow, if_pos hown.1]
      exact JobStatus.noConfusion
  | _ => rw [hrs] at hst; cases hst

/-- Any other write leaves the pipeline on its job. -/
theorem onJob_of_wrote {now : Time} {top1 : Option Nat} {t : Tx}
    (ht : PromptPipeline.call env r now top1 = some t) (hon : r.stage.onJob = true)
    (hst : r.stage.parts = false) :
    (PromptPipeline.resume env r (w.db.exec t).2).onJob = true := by
  obtain ⟨y, hy, hturn⟩ := PromptPipeline.turn_of_call w.db ht
  rw [hy]
  cases hturn <;> simp_all [Stage.onJob, Stage.parts, Stage.releases]

/-- So does what it hears, as long as it is not broken off. -/
theorem onJob_of_thought {es : List Entry} (hr : w.slots s = .running r)
    (he : thinker e = some s) (ht : Thought env r e r' es) (hno : ¬ w.Harms e)
    (hl : r.leaseLost = false) : r'.stage.onJob = true ∧ r'.leaseLost = false := by
  have handled : ∀ exc, (PromptPipeline.handleFailure r.job exc).onJob = true := by
    intro exc
    rcases PromptPipeline.handleFailure_cases r.job exc with ⟨_, _, h⟩ | ⟨_, _, h⟩ |
      ⟨_, _, _, h⟩ <;> rw [h] <;> rfl
  cases ht with
  | @dbError s₀ message hc =>
      cases he
      refine ⟨?_, hl⟩
      by_cases hin : PromptPipeline.inRun r.stage = true
      · simp only [PromptPipeline.fail, if_pos hin]
        exact handled _
      · exact absurd ⟨r, hr, by simpa using hin⟩ hno
  | granted hst => exact ⟨rfl, hl⟩
  | denied hst => exact ⟨rfl, hl⟩
  | unavailable hst => exact ⟨handled (redisUnavailableError _), hl⟩
  | guarded hst => exact ⟨rfl, hl⟩
  | called hst => exact ⟨rfl, hl⟩
  | answered hst => exact ⟨rfl, hl⟩
  | failed hx hst => exact ⟨handled _, hl⟩
  | cancelled hst hlost => rw [hl] at hlost; cases hlost
  | aborted hst => exact absurd trivial hno

/-- A slot that claims a job is on it. -/
theorem manned_of_claim {now : Time} {locked : List Nat} {pick : Option Nat}
    (h : Move env w (.claim s now locked pick) w') (hj : j ∈ w.db.jobs.rows)
    (hp : some j.id = pick) (hd : ProcessingJob.Due now j) :
    ∃ r, w'.slots s = .running r ∧ r.stage = .findExact ∧ r.leaseLost = false ∧
      r.job.id = j.id := by
  obtain ⟨q, hq⟩ := claimNext_due (w := s) (l := env.leaseSeconds) hj hp hd
  cases h with
  | claim hs hsel =>
      rw [setSlot_slots_self]
      simp only [Db.exec, hq, World.afterClaim]
      exact ⟨_, rfl, rfl, rfl, rfl⟩
  | think hs he ht => cases he

/-- **A move that breaks nothing off leaves every job in progress manned.** -/
theorem manned_step (h : Move env w e w') (ht : Tied env w) (hi : w.Manned)
    (hno : ¬ w.Harms e) : w'.Manned := by
  intro j' hj' hp'
  rcases job_origin h hj' with ⟨j, hj, rfl⟩ | ⟨q, hins⟩
  · by_cases hp : j.status = .processing
    · obtain ⟨s, r, hr, hon, hl, hheld⟩ := hi j hj hp
      rcases run_forward h hr with ⟨r', hr', hrs⟩ | rfl | ⟨rfl, how, hd⟩
      · have hheld' : ProcessingJob.HeldBy r.job.id s (w.jobAfter env e j) := by
          have hst := job_step h j
          generalize w.jobAfter env e j = j' at hst hp'
          cases hst with
          | same => exact hheld
          | claimed hs hpick hdue => exact absurd (hdue.1.symm.trans hp) (by simp)
          | extended hs hh => exact hheld
          | _ => cases hp'
        -- the pipeline is still on its job, else it would not be in progress
        have hgoes : r'.stage.onJob = true ∧ r'.leaseLost = false := by
          cases hrs with
          | same he => exact ⟨hon, hl⟩
          | beat hlost => exact ⟨hon, (held_of_heartbeat h hr hr' hj' hheld').1⟩
          | thought he hth => exact onJob_of_thought hr he hth hno hl
          | @wrote _ _ now top1 t htx =>
              cases hparts : r.stage.parts with
              | false => exact ⟨onJob_of_wrote htx hon hparts, hl⟩
              | true =>
                  rw [jobAfter_pipeline hr htx] at hp'
                  refine absurd hp' (unheld_of_parts htx hparts ⟨hheld.1, ?_⟩)
                  rw [ht.workerId hr]
                  exact hheld.2.1
        exact ⟨s, r', hr', hgoes.1, hgoes.2, by rw [hrs.sameRun.1]; exact hheld'⟩
      · exact absurd ⟨r, hr⟩ hno
      · rw [hd] at hon
        cases hon
    · have hst := job_step h j
      generalize hrow : w.jobAfter env e j = j' at hst hp'
      cases hst with
      | claimed hs hpick hdue =>
          obtain ⟨r, hr, hstage, hl, hid⟩ := manned_of_claim h hj hpick hdue
          exact ⟨_, r, hr, by rw [hstage]; rfl, hl, hid.symm, rfl, rfl⟩
      | same => exact absurd hp' hp
      | extended hs hh => exact absurd hh.2.2 hp
      | _ => cases hp'
  · obtain ⟨c, k, now, inTime, -, -, -, -, rfl⟩ := hins.call
    cases hp'

/-- **In a run that breaks nothing off every job in progress is manned.** -/
theorem manned_reachable (h : (machine env).ReachableWhere (Within False) w) : w.Manned :=
  invariant_of_moves h (by intro j hj; cases hj) fun hr hi hno hm =>
    manned_step hm (tied_reachable hr) hi hno

/-! ## The processes -/

section
variable {n : Nat} {c c' : Cluster} {ev : ClusterEvent} {t : PipelineTask}

/-- No failure handler has raised. -/
def Unraised (c : Cluster) : Prop := ∀ s t, c.tasks s = some t → t.stage ≠ .done .raised

theorem unraised_setTask {task : Option PipelineTask} (hi : Unraised c)
    (ht : ∀ t, task = some t → t.stage ≠ .done .raised) : Unraised (c.setTask s task) := by
  intro s' t hs'
  by_cases heq : s' = s
  · rw [heq, setTask_self] at hs'
    exact ht t hs'
  · rw [(others_of_setTask c s task s' heq).2] at hs'
    exact hi s' t hs'

theorem unraised_step (hst : Cluster.step env n c ev = some c') (hi : Unraised c)
    (hno : ¬ c.Harms ev) : Unraised c' := by
  cases ev with
  | submit i args =>
      simp only [Cluster.step] at hst
      split at hst <;> cases hst
      exact hi
  | call i now inTime =>
      simp only [Cluster.step] at hst
      split at hst
      · obtain ⟨t, ht, rfl⟩ := Option.map_eq_some_iff.mp hst
        exact hi
      · cases hst
  | callCrash i =>
      simp only [Cluster.step] at hst
      split at hst
      · split at hst <;> cases hst
        exact hi
      · cases hst
  | claim p i now locked pick =>
      simp only [Cluster.step] at hst
      split at hst
      · obtain ⟨q, hq, rfl⟩ := Option.map_eq_some_iff.mp hst
        refine unraised_setTask (c := Cluster.setProc _ p q) hi fun t ht => ?_
        obtain ⟨x, -, rfl⟩ := Option.map_eq_some_iff.mp ht
        simp
      · cases hst
  | orphan p i now locked pick => exact absurd trivial hno
  | kill p => exact absurd trivial hno
  | pipeline s now top1 =>
      obtain ⟨t, ht, hst⟩ := Option.bind_eq_some_iff.mp hst
      obtain ⟨tx, htx, rfl⟩ := Option.map_eq_some_iff.mp hst
      refine unraised_setTask (c := { c with db := _ }) hi ?_
      rintro _ ⟨⟩
      exact resume_ne_raised c.db htx
  | think e =>
      simp only [Cluster.step] at hst
      split at hst
      · cases hst
      · rename_i s ha he
        obtain ⟨t, ht, hst⟩ := Option.bind_eq_some_iff.mp hst
        obtain ⟨y, hy, rfl⟩ := Option.map_eq_some_iff.mp hst
        refine unraised_setTask hi ?_
        rintro _ ⟨⟩ hraise
        obtain ⟨⟨s', message, rfl⟩, hout, -⟩ := thought_raises (thought_of_think hy) hraise
        cases he
        exact hno ⟨t, ht, hout⟩
      · cases hst
  | heartbeat s now =>
      obtain ⟨t, ht, hst⟩ := Option.bind_eq_some_iff.mp hst
      split at hst
      · cases hst
        refine unraised_setTask (c := { c with db := _ }) hi ?_
        rintro _ ⟨⟩
        exact hi s t ht
      · cases hst
  | reap p now =>
      obtain ⟨q, hq, rfl⟩ := Option.map_eq_some_iff.mp hst
      exact hi
  | process p e =>
      simp only [Cluster.step] at hst
      split at hst
      · obtain ⟨q, hq, rfl⟩ := Option.map_eq_some_iff.mp hst
        cases e with
        | slot i e =>
            refine unraised_setTask (c := c) hi fun t ht => ?_
            split at ht
            · exact hi _ t ht
            · cases ht
        | cancelled i => exact absurd trivial hno
        | _ => exact hi
      · cases hst

theorem unraised_reachable
    (h : (Cluster.machine env n).ReachableWhere (fun c e => ¬ c.Harms e) c) : Unraised c :=
  h.invariant (I := Unraised) (by rintro s t ⟨⟩) fun _ hi hno hst => unraised_step hst hi hno

/-- The task behind a run that is on its job. -/
theorem task_of_running {x : Slot} {p : SlotPoint} {task : Option PipelineTask}
    (h : SlotMatches env p task x) (hx : x = .running r) (hon : r.stage.onJob = true)
    (hno : ∀ t, task = some t → t.stage ≠ .done .raised) :
    p = .pipeline ∧ ∃ t, task = some t ∧ t.Is r := by
  cases h with
  | waiting hp => cases hx
  | gone => cases hx
  | working hd h =>
      cases hx
      exact ⟨rfl, _, rfl, h⟩
  | raising h => exact absurd h.raised (hno _ rfl)
  | stopping h hd hne =>
      cases hx
      rw [stage_of_is h, hd] at hon
      cases hon
  | dropped hj hl hd hr hne =>
      cases hx
      rw [hr] at hon
      cases hon
  | announcing h hd hne =>
      cases hx
      rw [stage_of_is h, hd] at hon
      cases hon

end

/--
**A graceful shutdown leaves no job in progress.** As long as no process was killed, no slot
cancelled and no failure handler broken off, every job in progress is the job of the pipeline
task some slot awaits. So when every process that was started is over, none is in progress,
and no lease is left for a reaper to wait for.
-/
theorem graceful_shutdown_clean {n : Nat} {c : Cluster}
    (h : (Cluster.machine env n).ReachableWhere (fun c e => ¬ c.Harms e) c) :
    (∀ j ∈ c.db.jobs.rows, j.status = .processing → ∃ p i t, i < n ∧
      ((c.procs p).slots i).point = .pipeline ∧ c.tasks (slotId p i) = some t ∧
      t.stage.onJob = true ∧ ProcessingJob.HeldBy t.job.id (slotId p i) j) ∧
    ((∀ p, (c.procs p).PoolOver n ∨ c.procs p = WorkerProcess.init) →
      ∀ j ∈ c.db.jobs.rows, j.status ≠ .processing) := by
  have hmanned : ∀ j ∈ c.db.jobs.rows, j.status = .processing → ∃ p i t, i < n ∧
      ((c.procs p).slots i).point = .pipeline ∧ c.tasks (slotId p i) = some t ∧
      t.stage.onJob = true ∧ ProcessingJob.HeldBy t.job.id (slotId p i) j := by
    obtain ⟨w, hw, href⟩ := (cluster_simulation env n False).reachable h
    intro j hj hp
    rw [← href.db] at hj
    obtain ⟨s, r, hr, hon, -, hheld⟩ := manned_reachable hw j hj hp
    have hn : s.unpair.2 < n := by
      by_contra hn
      cases (href.others s (Nat.not_lt.mp hn)).2.symm.trans hr
    obtain ⟨hpoint, t, ht, his⟩ := task_of_running (href.slots s hn) hr hon
      (unraised_reachable h s)
    rw [job_of_is his] at hheld
    refine ⟨s.unpair.1, s.unpair.2, t, hn, hpoint, ?_, (stage_of_is his) ▸ hon, ?_⟩
    · rw [slotId_of_unpair]
      exact ht
    · rw [slotId_of_unpair]
      exact hheld
  refine ⟨hmanned, fun hover j hj hp => ?_⟩
  obtain ⟨p, i, t, hi, hpoint, -⟩ := hmanned j hj hp
  rcases hover p with hover | hinit
  · cases hpoint.symm.trans (hover i hi)
  · rw [hinit] at hpoint
    cases hpoint

/-! ## A process that is told to stop -/

/-- The process an event is about. -/
def processOf : ClusterEvent → Option Nat
  | .claim p _ _ _ _ | .orphan p _ _ _ _ | .reap p _ | .process p _ | .kill p => some p
  | _ => none

/-- The other processes are as they were. -/
theorem procs_frame {n : Nat} {c c' : Cluster} {ev : ClusterEvent} {p : Nat}
    (hst : Cluster.step env n c ev = some c') (hp : processOf ev ≠ some p) :
    c'.procs p = c.procs p := by
  have other : ∀ (c : Cluster) (p₀ : Nat) (q : WorkerProcess), some p₀ ≠ some p →
      (c.setProc p₀ q).procs p = c.procs p :=
    fun c p₀ q hne => Function.update_of_ne (fun h => hne (congrArg some h.symm)) ..
  cases ev with
  | submit i args =>
      simp only [Cluster.step] at hst
      split at hst <;> cases hst
      rfl
  | call i now inTime =>
      simp only [Cluster.step] at hst
      split at hst
      · obtain ⟨t, ht, rfl⟩ := Option.map_eq_some_iff.mp hst
        rfl
      · cases hst
  | callCrash i =>
      simp only [Cluster.step] at hst
      split at hst
      · split at hst <;> cases hst
        rfl
      · cases hst
  | claim p₀ i now locked pick =>
      simp only [Cluster.step] at hst
      split at hst
      · obtain ⟨q, hq, rfl⟩ := Option.map_eq_some_iff.mp hst
        exact other _ p₀ q hp
      · cases hst
  | orphan p₀ i now locked pick =>
      simp only [Cluster.step] at hst
      split at hst
      · obtain ⟨q, hq, rfl⟩ := Option.map_eq_some_iff.mp hst
        exact other _ p₀ q hp
      · cases hst
  | pipeline s now top1 =>
      obtain ⟨t, ht, hst⟩ := Option.bind_eq_some_iff.mp hst
      obtain ⟨tx, htx, rfl⟩ := Option.map_eq_some_iff.mp hst
      rfl
  | think e =>
      simp only [Cluster.step] at hst
      split at hst
      · cases hst
      · obtain ⟨t, ht, hst⟩ := Option.bind_eq_some_iff.mp hst
        obtain ⟨y, hy, rfl⟩ := Option.map_eq_some_iff.mp hst
        rfl
      · cases hst
  | heartbeat s now =>
      obtain ⟨t, ht, hst⟩ := Option.bind_eq_some_iff.mp hst
      split at hst <;> cases hst
      rfl
  | reap p₀ now =>
      obtain ⟨q, hq, rfl⟩ := Option.map_eq_some_iff.mp hst
      exact other _ p₀ q hp
  | kill p₀ =>
      cases hst
      exact other _ p₀ _ hp
  | process p₀ e =>
      simp only [Cluster.step] at hst
      split at hst
      · obtain ⟨q, hq, rfl⟩ := Option.map_eq_some_iff.mp hst
        refine (other _ p₀ q hp).trans ?_
        cases e <;> rfl
      · cases hst

/-- The one process of a deployment is told to stop in the middle of a job. -/
theorem graceful_shutdown_clean_told : ∃ c : Cluster, (c.procs 0).PoolOver 1 ∧
    c.db.jobs.rows.map (·.status) = [.completed] ∧
    ∀ j ∈ c.db.jobs.rows, j.status ≠ .processing := by
  obtain ⟨c, hc, ht⟩ := Machine.reachableWhere_of_run (m := Cluster.machine deployment 1)
    (H := fun c e => ¬ c.Harms e ∧ processOf e ∈ [none, some 0])
    (E := [.submit 0 ⟨"u", "p", "a", "normal"⟩, .call 0 0 true, .call 0 0 true, .call 0 0 true,
      .claim 0 0 1 [] (some 1), .pipeline 0 1 none, .process 0 .signal, .pipeline 0 1 none,
      .think (.limiter 0 .granted), .think (.llmCall 0), .think (.llmReturn 0 "answer"),
      .pipeline 0 2 none, .pipeline 0 2 none, .pipeline 0 2 none,
      .process 0 (.slot 0 (.pipelineEnded .returned)), .process 0 (.slot 0 .heartbeatStopped),
      .process 0 (.slot 0 .notified)])
    (p := fun c => decide ((c.procs 0).PoolOver 1 ∧
      c.db.jobs.rows.map (·.status) = [.completed])) (by decide +kernel)
  obtain ⟨hover, hjobs⟩ := of_decide_eq_true ht
  have hothers : ∀ p, p ≠ 0 → c.procs p = WorkerProcess.init := by
    refine hc.invariant (I := fun c => ∀ p, p ≠ 0 → c.procs p = WorkerProcess.init)
      (fun _ _ => rfl) fun _ hi he hst p hp => ?_
    refine (procs_frame hst fun hev => ?_).trans (hi p hp)
    rw [hev] at he
    simp [hp] at he
  refine ⟨c, hover, hjobs, (graceful_shutdown_clean (hc.mono fun _ _ he => he.1)).2 fun p => ?_⟩
  by_cases hp : p = 0
  · rw [hp]
    exact .inl hover
  · exact .inr (hothers p hp)

end PromptQueue.Proof
