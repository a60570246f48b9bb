import PromptQueue.Proof.TaskGroup

/-!
# The end of a worker process

`main` waits for two coroutines, and only one of them ever returns. The pool does once
the event is set, and the wait goes on for the reaper; what ends it is an error of the
pool. So a process ends only by a slot that raises, and one that is told to stop and
whose slots all come home runs its reaper until it is killed.
-/

namespace PromptQueue.Proof

open PromptQueue Base WorkerProcess

variable {n j : Nat} {p q : WorkerProcess} {s t : SlotTask} {e : SlotEvent} {ev : ProcessEvent}

/-- An exception can still come out of the slot. -/
def CanRaise (s : SlotTask) : Prop :=
  s.point ≠ .ended ∧ (s.shutdown = false ∨ s.point = .claimNext ∨ s.point = .pipeline ∨
    s.point = .heartbeatStop .raised ∨ s.point = .notify .raised)

instance (s : SlotTask) : Decidable (CanRaise s) :=
  inferInstanceAs (Decidable (s.point ≠ .ended ∧ (s.shutdown = false ∨ s.point = .claimNext ∨
    s.point = .pipeline ∨ s.point = .heartbeatStop .raised ∨ s.point = .notify .raised)))

/-- What can raise comes to raise. -/
theorem raises_of_canRaise (h : CanRaise s) :
    ∃ es u e v, SlotTask.machine.run s es = some u ∧ (∀ e ∈ es, e.resumes = true) ∧
      u.raises e = true ∧ u.step e = some v := by
  obtain ⟨hp, hs | hs | hs | hs | hs⟩ := h
  · by_cases hl : Leaving s
    · obtain ⟨point, shutdown, claims⟩ := s
      rcases hl with (hl | hl | hl) | hl
      · exact absurd (hl.symm.trans hs) (by decide)
      · exact absurd hl hp
      · cases hl
        exact ⟨[], _, .notified, _, rfl, by decide, rfl, rfl⟩
      · cases hl
        exact ⟨[.heartbeatStopped], _, .notified, _, rfl, by decide, rfl, rfl⟩
    · obtain ⟨es, u, hu, he, hpoint, -⟩ := comes_round hl
      exact ⟨es, u, .claimRaised, _, hu, he, decide_eq_true hpoint,
        SlotTask.step_iff.mpr (.broke hpoint)⟩
  · exact ⟨[], s, .claimRaised, _, rfl, nofun, decide_eq_true hs,
      SlotTask.step_iff.mpr (.broke hs)⟩
  · obtain ⟨point, shutdown, claims⟩ := s
    cases hs
    exact ⟨[.pipelineEnded .raised, .heartbeatStopped], _, .notified, _, rfl, by decide, rfl, rfl⟩
  · obtain ⟨point, shutdown, claims⟩ := s
    cases hs
    exact ⟨[.heartbeatStopped], _, .notified, _, rfl, by decide, rfl, rfl⟩
  · exact ⟨[], s, .notified, _, rfl, nofun, decide_eq_true hs,
      SlotTask.step_iff.mpr (.announced hs)⟩

/-- A slot that can raise could before. -/
theorem canRaise_back (h : s.step e = some t) (he : e ≠ .cancel) (ht : CanRaise t) :
    CanRaise s := by
  have hp : e ≠ .shutdown → s.point ≠ .ended := not_ended_of_step h
  have hhead : ∀ v : SlotTask, v.shutdown = s.shutdown → CanRaise v.loopHead →
      s.shutdown = false := by
    intro v hv hc
    by_contra hs
    rw [loopHead_of_shutdown (by rw [hv]; simpa using hs)] at hc
    exact hc.1 rfl
  cases SlotTask.step_iff.mp h with
  | told hs => exact ⟨ht.1, .inl hs⟩
  | cancelled _ => exact absurd rfl he
  | took hs => exact ⟨hp (by simp), .inr (.inl hs)⟩
  | foundNone hs => exact ⟨hp (by simp), .inr (.inl hs)⟩
  | broke hs => exact ⟨hp (by simp), .inr (.inl hs)⟩
  | opened _ => exact ⟨hp (by simp), .inl (by simpa [CanRaise] using ht)⟩
  | woken _ => exact ⟨hp (by simp), .inl (by simpa [CanRaise] using ht)⟩
  | refused _ => exact ⟨hp (by simp), .inl (hhead _ rfl ht)⟩
  | closed _ => exact ⟨hp (by simp), .inl (hhead _ rfl ht)⟩
  | finished hs => exact ⟨hp (by simp), .inr (.inr (.inl hs))⟩
  | @stopped how hs =>
      cases how with
      | raised => exact ⟨hp (by simp), .inr (.inr (.inr (.inl hs)))⟩
      | cancelled => exact ⟨hp (by simp), .inl (hhead _ rfl ht)⟩
      | returned => exact ⟨hp (by simp), .inl (by simpa [CanRaise, SlotTask.afterStop] using ht)⟩
  | @announced how hs =>
      cases how with
      | raised => exact ⟨hp (by simp), .inr (.inr (.inr (.inr hs)))⟩
      | cancelled => exact ⟨hp (by simp), .inl (hhead _ rfl ht)⟩
      | returned => exact ⟨hp (by simp), .inl (hhead _ rfl ht)⟩

theorem canRaise_of_raises (h : s.raises e = true) : CanRaise s := by
  unfold SlotTask.raises at h
  split at h
  · have hp : s.point = .claimNext := by simpa using h
    exact ⟨by rw [hp]; decide, .inr (.inl hp)⟩
  · have hp : s.point = .notify .raised := by simpa using h
    exact ⟨by rw [hp]; decide, .inr (.inr (.inr (.inr hp)))⟩
  · cases h

/-! ## What ends -/

/-- `main` is over. -/
def Exited (p : WorkerProcess) : Prop := p.main = .exited

/-- How many resumptions a pool of slots told to stop has before it. -/
def remaining (n : Nat) (p : WorkerProcess) : Nat := ∑ j ∈ Finset.range n, awaits (p.slots j)

/-- `main` closes what it opened. -/
theorem leads_of_over (hf : p.failed = true) (ho : p.PoolOver n) :
    (WorkerProcess.machine n).Leads Exited p := by
  have hclose : ∀ {p : WorkerProcess} {m : MainPoint}, p.main.close true = some m →
      (WorkerProcess.machine n).Leads Exited { p with main := m } →
      (WorkerProcess.machine n).Leads Exited p := by
    intro p m hm hl
    refine hl.head (e := .closed true) ?_
    exact Option.map_eq_some_iff.mpr ⟨m, hm, rfl⟩
  have hengine : ∀ {p : WorkerProcess}, p.main = .disposeEngine →
      (WorkerProcess.machine n).Leads Exited p :=
    fun hm => hclose (by rw [hm]; rfl) (.here rfl)
  have hredis : ∀ {p : WorkerProcess}, p.main = .closeRedis →
      (WorkerProcess.machine n).Leads Exited p :=
    fun hm => hclose (by rw [hm]; rfl) (hengine rfl)
  have hnotifier : ∀ {p : WorkerProcess}, p.main = .closeNotifier →
      (WorkerProcess.machine n).Leads Exited p :=
    fun hm => hclose (by rw [hm]; rfl) (hredis rfl)
  obtain ⟨x, hm⟩ : ∃ x, p.main = x := ⟨_, rfl⟩
  cases x with
  | gather =>
      have hq : WorkerProcess.step n p .gathered = some { p with main := .closeNotifier } :=
        if_pos ⟨hm, ho, .inl hf⟩
      exact Machine.Leads.head (e := .gathered) hq (hnotifier rfl)
  | closeNotifier => exact hnotifier hm
  | closeRedis => exact hredis hm
  | disposeEngine => exact hengine hm
  | exited => exact .here hm

/-- Slots told to stop come home one after the other. -/
theorem leads_of_told {N : Nat} (hN : remaining n p ≤ N) (hi : Supervised n p)
    (hf : p.failed = true) (hs : ∀ j < n, (p.slots j).shutdown = true) :
    (WorkerProcess.machine n).Leads Exited p := by
  induction N generalizing p with
  | zero =>
      refine leads_of_over hf fun j hj => ?_
      have hz := Finset.sum_eq_zero_iff.mp (Nat.le_zero.mp hN) j (Finset.mem_range.mpr hj)
      unfold awaits at hz
      by_contra hp
      have hpos : 0 < ahead (p.slots j).point := by
        obtain ⟨x, hx⟩ : ∃ x, (p.slots j).point = x := ⟨_, rfl⟩
        rw [hx] at hp ⊢
        cases x <;> simp [ahead] at hp ⊢
      omega
  | succ N ih =>
      by_cases ho : p.PoolOver n
      · exact leads_of_over hf ho
      · obtain ⟨j, hj⟩ := not_forall.mp ho
        obtain ⟨hj, hp⟩ := Classical.not_imp.mp hj
        obtain ⟨ev, q, hev, hq⟩ := turn_of_not_ended hj hp
        have hstep := process_step hq
        have hway : ∀ k < n, WayOut p k := fun k hk => .inl (.inl (.inl (hs k hk)))
        have hlt : remaining n q < remaining n p := by
          refine Finset.sum_lt_sum (fun k hk => ?_) ⟨j, Finset.mem_range.mpr hj, ?_⟩
          · have ha := (wayOut_step hstep hi (hway k (Finset.mem_range.mp hk))).2.2
            omega
          · have ha := (wayOut_step hstep hi (hway j hj)).2.2
            rw [hev] at ha
            exact ha
        have hl := ih (by omega) (supervised_step hstep hi) (failed_step hstep hf) fun k hk => ?_
        · exact hl.head hq
        · cases slot_step hstep k with
          | same _ hsame _ => rw [hsame]; exact hs k hk
          | told _ htold _ => rw [htold]
          | asked _ hsame _ _ _ => rw [hsame]; exact hs k hk
          | resumed _ _ _ hst _ => exact shutdown_step (hs k hk) hst
          | delivered _ _ hst _ => exact shutdown_step (hs k hk) hst

/-- A process that has failed can be stopped. -/
theorem leads_of_failed_pool (hi : Supervised n p) (hf : p.failed = true) :
    (WorkerProcess.machine n).Leads Exited p := by
  by_cases hm : p.main = .exited
  · exact .here hm
  · have hq : WorkerProcess.step n p .signal = some p.setEvent := if_neg hm
    have hl := leads_of_told (le_refl _) (supervised_step (process_step hq) hi) hf fun _ _ => rfl
    exact hl.head (e := .signal) hq

/-- Nothing will come out of any slot. -/
structure Unraising (n : Nat) (p : WorkerProcess) : Prop where
  unfailed : p.failed = false
  slots : ∀ j < n, ¬ CanRaise (p.slots j)

theorem unraising_step (h : ProcessStep n p ev q) (hi : Supervised n p) (hq : Unraising n p) :
    Unraising n q where
  unfailed := by
    cases h with
    | @raised i e t hj _ _ _ hr => exact absurd (canRaise_of_raises hr) (hq.slots i hj)
    | _ => exact hq.unfailed
  slots j hj hc := by
    have hno := hq.slots j hj
    cases slot_step h j with
    | same _ hs _ => exact hno (hs ▸ hc)
    | asked _ hs _ _ _ => exact hno (hs ▸ hc)
    | told _ hs _ =>
        rw [hs] at hc
        exact hno ⟨hc.1, .inr (hc.2.resolve_left Bool.noConfusion)⟩
    | resumed _ he _ hst _ =>
        refine hno (canRaise_back hst ?_ hc)
        rintro rfl
        cases he
    | delivered _ hcan _ _ =>
        exact absurd (hq.unfailed.symm.trans (hi.cancels j hcan).1) (by decide)

/--
**When a worker process can still end**: when one of its slots has raised, or an exception
can still come out of one. In particular one that was told to shut down, and whose slots
are past their claims and pipelines without an error, never exits.
-/
theorem can_exit_iff (hr : (WorkerProcess.machine n).Reachable p) :
    (WorkerProcess.machine n).Leads Exited p ↔
      p.failed = true ∨ ∃ j < n, CanRaise (p.slots j) := by
  have hi := supervised_reachable hr
  constructor
  · rintro ⟨q, hp, hq⟩
    by_contra hno
    obtain ⟨hf, hc⟩ := not_or.mp hno
    have hquiet : Unraising n p := ⟨by simpa using hf, fun j hj hj' => hc ⟨j, hj, hj'⟩⟩
    have hend : Supervised n q ∧ Unraising n q :=
      hp.invariant (I := fun u => Supervised n u ∧ Unraising n u) ⟨hi, hquiet⟩ hr fun _ hu _ hst =>
        ⟨supervised_step (process_step hst) hu.1, unraising_step (process_step hst) hu.1 hu.2⟩
    have hfail := (hend.1.gathers (by rw [hq]; decide)).1
    exact absurd (hend.2.unfailed.symm.trans hfail) (by decide)
  · intro h
    by_cases hf : p.failed = true
    · exact leads_of_failed_pool hi hf
    · obtain ⟨j, hj, hc⟩ := h.resolve_left hf
      have hcan : p.cancelling j = false := by simpa using fun h => hf (hi.cancels j h).1
      obtain ⟨es, u, e, v, hu, he, hraises, hst⟩ := raises_of_canRaise hc
      obtain ⟨q, hq, hslot, hcan⟩ := run_of_slot hj hcan he hu
      rw [← hslot] at hraises hst
      have her : e.resumes = true := by
        cases e <;> first | rfl | cases hraises
      obtain ⟨r, hr', -, -, hfail⟩ := step_of_slot hj hcan her hst
      have hp := Machine.path_of_run hq
      have hi' := supervised_reachable (Relation.ReflTransGen.trans hr hp)
      obtain ⟨x, hpx, hx⟩ := (leads_of_failed_pool (supervised_step (process_step hr') hi')
        (hfail hraises)).head (e := .slot j e) hr'
      exact ⟨x, Relation.ReflTransGen.trans hp hpx, hx⟩

theorem can_exit_iff_all_home :
    ∃ p, (WorkerProcess.machine 2).Reachable p ∧ p.PoolOver 2 ∧
      ¬ (WorkerProcess.machine 2).Leads Exited p := by
  have hr : (WorkerProcess.machine 2).Reachable _ :=
    Machine.path_of_run (show (WorkerProcess.machine 2).run _
      [.slot 0 (.claimed false), .slot 1 (.claimed true), .signal, .slot 0 (.connected false),
        .slot 1 (.pipelineEnded .returned), .slot 1 .heartbeatStopped, .slot 1 .notified]
      = some _ from rfl)
  refine ⟨_, hr, by decide, fun hl => ?_⟩
  exact absurd ((can_exit_iff hr).mp hl) (by decide)

end PromptQueue.Proof
