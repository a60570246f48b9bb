import PromptQueue.Proof.LeaseColumns
import PromptQueue.Proof.Replay

/-!
# The lease a dead job keeps

The methods of the repositories and the runs of the system part the lease columns from
the status in the same way and in no other: by a scan for expired leases that finds a job
without an attempt left.
-/

namespace PromptQueue.Proof

open PromptQueue Base World

section
variable {S : Type} [LinearOrder S] {env : Env S} {w w' : World} {e : Event}

/-- The scans of a run are the reaper's. -/
theorem issued_reaps (env : Env S) (w : World) (e : Event) :
    ((w.issued env e).bind fun p => RepositoryCall.reaps (.tx p.2)) = e.reaps := by
  ext now
  constructor
  · intro h
    obtain ⟨⟨who, t⟩, hp, ht⟩ := Option.bind_eq_some_iff.mp h
    unfold RepositoryCall.reaps at ht
    split at ht <;> cases ht
    rename_i hc
    cases hc
    rw [reap_issuer hp]
    rfl
  · intro h
    unfold Event.reaps at h
    split at h <;> cases h
    rfl

/-- **A move keeps the columns of all jobs exactly when it gives none of them up.** -/
theorem leasesFollow_step_iff (h : Move env w e w') (hi : w.db.LeasesFollow) :
    w'.db.LeasesFollow ↔ w.db.Spares e.reaps := by
  rw [move_issued h, ← issued_reaps env w e]
  cases w.issued env e with
  | none => exact ⟨fun _ => nofun, fun _ => hi⟩
  | some p => exact leasesFollow_perform_iff (c := .tx p.2) hi

/--
**When the lease columns follow the status.** Throughout a history of calls, and
throughout a run of the system, they do so exactly when no scan in it finds an expired
job without an attempt left.
-/
theorem lease_columns_iff (env : Env S) :
    (∀ cs : List RepositoryCall,
      Db.machine.Throughout Db.LeasesFollow Db.empty cs ↔
        Db.machine.Meets (fun db c => db.Spares c.reaps) Db.empty cs) ∧
    ∀ (es : List Event) (w : World), (machine env).run World.init es = some w →
      ((machine env).Throughout (fun u => u.db.LeasesFollow) World.init es ↔
        (machine env).Meets (fun u e => u.db.Spares e.reaps) World.init es) := by
  constructor
  · intro cs
    obtain ⟨db, hrun⟩ := calls_run Db.empty cs
    refine Machine.throughout_iff_meets leasesFollow_empty hrun id ?_ ?_
    · intro u v c hi hc hs
      cases hs
      exact (leasesFollow_perform_iff hi).mpr hc
    · intro u v c hi hc hs hv
      cases hs
      exact hc ((leasesFollow_perform_iff hi).mp hv)
  · intro es w hrun
    refine Machine.throughout_iff_meets (J := fun u => u.db.LeasesFollow)
      leasesFollow_empty hrun id ?_ ?_
    · intro u v e hi hc hs
      exact (leasesFollow_step_iff (move_of_step hs) hi).mpr hc
    · intro u v e hi hc hs hv
      exact hc ((leasesFollow_step_iff (move_of_step hs) hi).mp hv)

end

/-! ## A job that dies of its workers -/

/-- One request, claimed by as many workers as it has attempts, each of which dies. -/
def deadlyJob : List Event :=
  submission 0 "p" "a" ++ (List.range 5).flatMap fun i =>
    [.claim i (100 * i) [] (some 1), .crash i, .reap (100 * i + 50)]

/-- A dead job with a lease has columns that do not follow its status. -/
theorem not_leasesFollow_of_dead {db : Db} {t : Time}
    (h : (JobStatus.dead, some t) ∈ db.jobs.rows.map fun j => (j.status, j.lockedUntil)) :
    ¬ db.LeasesFollow := by
  intro hall
  obtain ⟨j, hj, hcols⟩ := List.mem_map.mp h
  obtain ⟨hs, hl⟩ := Prod.mk.inj hcols
  have hp := (hall j hj).lease.mp (by rw [hl]; rfl)
  exact absurd (hs.symm.trans hp) nofun

/-- The same request, taken from a worker that dies and claimed by the next. -/
def luckyJob : List Event :=
  submission 0 "p" "a" ++ [.claim 0 0 [] (some 1), .crash 0, .reap 50, .claim 1 100 [] (some 1)]

/-- A job taken back with attempts left keeps its columns; one scan of the deadly job finds none
left. -/
theorem lease_columns_iff_deadly_job :
    (∃ w, (machine deployment).run World.init luckyJob = some w ∧
      (machine deployment).Throughout (fun u => u.db.LeasesFollow) World.init luckyJob) ∧
    ¬ (machine deployment).Meets (fun u e => u.db.Spares e.reaps) World.init deadlyJob := by
  constructor
  · obtain ⟨w, hw, -⟩ := Machine.exists_of_runWhere (m := machine deployment)
      (s := World.init) (H := fun u e => u.db.Spares e.reaps) (E := luckyJob) (p := fun _ => true)
      (by decide +kernel)
    have hrun := Machine.run_of_runWhere hw
    exact ⟨w, hrun, ((lease_columns_iff deployment).2 luckyJob w hrun).mpr
      (Machine.meets_of_runWhere hw)⟩
  · obtain ⟨w, hw, -, ht⟩ := Machine.reachable_of_run (m := machine deployment) (E := deadlyJob)
      (p := fun w => decide ((JobStatus.dead, some (415 : Time)) ∈
        w.db.jobs.rows.map fun j => (j.status, j.lockedUntil))) (by decide +kernel)
    refine ((lease_columns_iff deployment).2 deadlyJob w hw).not.mp fun hall => ?_
    exact not_leasesFollow_of_dead (of_decide_eq_true ht)
      (hall deadlyJob [] w (List.append_nil _).symm hw)

/-- **The last scan makes the job dead, and its lease stays.** -/
theorem dead_job_keeps_lease : ∃ w, (machine deployment).Reachable w ∧
    w.db.jobs.rows.map (fun j => (j.status, j.lockedUntil)) = [(.dead, some 415)] ∧
    ¬ w.db.LeasesFollow := by
  obtain ⟨w, -, hreach, hw⟩ := Machine.reachable_of_run (m := machine deployment) (E := deadlyJob)
    (p := fun w => decide (w.db.jobs.rows.map (fun j => (j.status, j.lockedUntil))
      = [(.dead, some 415)])) (by decide +kernel)
  have hrows := of_decide_eq_true hw
  exact ⟨w, hreach, hrows, not_leasesFollow_of_dead (hrows ▸ List.mem_singleton_self _)⟩

end PromptQueue.Proof
