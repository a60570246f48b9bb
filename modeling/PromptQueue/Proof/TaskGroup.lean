import Mathlib.Algebra.BigOperators.Group.Finset.Basic
import Mathlib.Algebra.Order.BigOperators.Group.Finset
import PromptQueue.Proof.Shutdown
import PromptQueue.Worker.Process

/-!
# When a worker process stops

A task group ends when each of its slots does, and each has its own way out: told to shut
down it leaves at the head of its loop, cancelled it leaves where the cancellation is
heeded. `main` waits for more than the group. It gathers the pool with the reaper, whose
loop nothing ends while `main` runs: a process that was told to stop, and whose slots all
come home, is never done.
-/

namespace PromptQueue.Proof

open PromptQueue Base WorkerProcess

variable {n i j : Nat} {p q r : WorkerProcess} {s t u : SlotTask} {e : SlotEvent}
  {ev : ProcessEvent}

/-! ## One slot -/

/-- The slot is on its way out of its loop, or an exception is about to take it out. -/
def Leaving (s : SlotTask) : Prop :=
  Exiting s ∨ s.point = .heartbeatStop .raised

theorem leavingSlot_step (hl : Leaving s) (h : s.step e = some t) :
    Leaving t ∧ t.claims = s.claims ∧ awaits t + 1 ≤ awaits s := by
  rcases hl with hl | hp
  · obtain ⟨hl, hc, ha⟩ := exiting_step hl h
    exact ⟨.inl hl, hc, ha⟩
  · cases SlotTask.step_iff.mp h with
    | told hs => exact ⟨.inr hp, rfl, by simp [awaits, hs]⟩
    | cancelled hend =>
        obtain ⟨hl, hc, ha⟩ := exiting_cancelAt (.inr (.inr (.inr (.inr (.inr hp))))) hend
        exact ⟨.inl hl, hc, ha⟩
    | stopped hp' =>
        rw [hp] at hp'
        cases hp'
        exact ⟨.inl (.inr (.inr rfl)), rfl, by simp [SlotTask.afterStop, awaits, ahead, hp]⟩
    | _ hp' => rw [hp] at hp'; cases hp'

/-- The event stays set. -/
theorem shutdown_step (hs : s.shutdown = true) (h : s.step e = some t) : t.shutdown = true := by
  have hhead : ∀ v : SlotTask, v.shutdown = true → v.loopHead.shutdown = true := by
    intro v hv
    rw [loopHead_of_shutdown hv]
    exact hv
  have hstop : ∀ (v : SlotTask) how, v.shutdown = true → (v.afterStop how).shutdown = true := by
    intro v how hv
    cases how with
    | cancelled => exact hhead v hv
    | returned => exact hv
    | raised => exact hv
  cases SlotTask.step_iff.mp h with
  | told _ => rfl
  | cancelled _ =>
      unfold SlotTask.cancelAt
      split <;> first | exact hs | exact hstop s _ hs
  | refused _ => exact hhead s hs
  | closed _ => exact hhead s hs
  | stopped _ => exact hstop s _ hs
  | @announced how _ =>
      cases how with
      | raised => exact hs
      | returned => exact hhead s hs
      | cancelled => exact hhead s hs
  | _ _ => exact hs

/-- A slot that is not leaving comes back to the head of its loop. -/
theorem comes_round (h : ¬ Leaving s) :
    ∃ es u, SlotTask.machine.run s es = some u ∧ (∀ e ∈ es, e.resumes = true) ∧
      u.point = .claimNext ∧ s.claims < u.claims := by
  have hs : s.shutdown = false := by simpa using fun hs => h (.inl (.inl hs))
  have hhead : ∀ v : SlotTask, v.shutdown = false → v.claims = s.claims →
      v.loopHead.point = .claimNext ∧ s.claims < v.loopHead.claims := by
    intro v hv hc
    rw [loopHead_of_running hv]
    exact ⟨rfl, by simp only [hc]; omega⟩
  obtain ⟨x, hp⟩ : ∃ x, s.point = x := ⟨_, rfl⟩
  obtain ⟨point, shutdown, claims⟩ := s
  cases hp
  cases point with
  | claimNext =>
      exact ⟨[.claimed false, .connected false], _, rfl, by decide, hhead _ hs rfl⟩
  | connect => exact ⟨[.connected false], _, rfl, by decide, hhead _ hs rfl⟩
  | listen => exact ⟨[.heard, .unlistened], _, rfl, by decide, hhead _ hs rfl⟩
  | unlisten => exact ⟨[.unlistened], _, rfl, by decide, hhead _ hs rfl⟩
  | pipeline =>
      exact ⟨[.pipelineEnded .cancelled, .heartbeatStopped], _, rfl, by decide, hhead _ hs rfl⟩
  | heartbeatStop how =>
      cases how with
      | raised => exact absurd (.inr rfl) h
      | cancelled => exact ⟨[.heartbeatStopped], _, rfl, by decide, hhead _ hs rfl⟩
      | returned => exact ⟨[.heartbeatStopped, .notified], _, rfl, by decide, hhead _ hs rfl⟩
  | notify how =>
      cases how with
      | raised => exact absurd (.inl (.inr (.inr rfl))) h
      | cancelled => exact ⟨[.notified], _, rfl, by decide, hhead _ hs rfl⟩
      | returned => exact ⟨[.notified], _, rfl, by decide, hhead _ hs rfl⟩
  | ended => exact absurd (.inl (.inr (.inl rfl))) h

/-- A cancellation that is not heeded leaves the slot where it was going. -/
theorem stays_of_not_heeds (hh : ¬ Heeds s) (hp : s.point ≠ .ended) :
    ¬ Leaving s.cancelAt ∧ s.claims ≤ s.cancelAt.claims := by
  have hs : s.shutdown = false := by simpa using fun hs => hh (.inl hs)
  obtain ⟨point, shutdown, claims⟩ := s
  cases hs
  cases point with
  | ended => exact absurd rfl hp
  | listen => exact ⟨by simp [Leaving, Exiting, SlotTask.cancelAt], le_refl _⟩
  | pipeline => exact ⟨by simp [Leaving, Exiting, SlotTask.cancelAt], le_refl _⟩
  | heartbeatStop how =>
      cases how with
      | raised => exact absurd (.inr (.inr (.inr (.inr (.inr rfl))))) hh
      | returned =>
          exact ⟨by simp [Leaving, Exiting, SlotTask.cancelAt, SlotTask.afterStop], le_refl _⟩
      | cancelled =>
          simp [Leaving, Exiting, SlotTask.cancelAt, SlotTask.afterStop, SlotTask.loopHead]
  | claimNext => exact absurd (.inr (.inl rfl)) hh
  | connect => exact absurd (.inr (.inr (.inl rfl))) hh
  | unlisten => exact absurd (.inr (.inr (.inr (.inl rfl)))) hh
  | notify how => exact absurd (.inr (.inr (.inr (.inr (.inl ⟨how, rfl⟩))))) hh

/-- A slot that is over is not resumed. -/
theorem not_ended_of_step (h : s.step e = some t) (he : e ≠ .shutdown) : s.point ≠ .ended := by
  cases SlotTask.step_iff.mp h with
  | told _ => exact absurd rfl he
  | cancelled hp => exact hp
  | _ hp => rw [hp]; simp

/-- A resumption that raises is the slot's last. -/
theorem ended_of_raises (hr : s.raises e = true) (h : s.step e = some t) : t.point = .ended := by
  cases SlotTask.step_iff.mp h with
  | broke hp => rfl
  | @announced how hp =>
      have hr : s.point = .notify .raised := by simpa [SlotTask.raises] using hr
      rw [hr] at hp
      cases hp
      rfl
  | _ => cases hr

/-! ## One step of the process -/

/-- What can happen to a process, and how it is then. -/
inductive ProcessStep (n : Nat) (p : WorkerProcess) : ProcessEvent → WorkerProcess → Prop where
  | signal (hm : p.main ≠ .exited) : ProcessStep n p .signal p.setEvent
  | resumed {i : Nat} {e : SlotEvent} {t : SlotTask} (hi : i < n)
      (hc : p.cancelling i = false) (he : e.resumes = true) (hst : (p.slots i).step e = some t)
      (hr : (p.slots i).raises e = false) : ProcessStep n p (.slot i e) (p.setSlot i t)
  | raised {i : Nat} {e : SlotEvent} {t : SlotTask} (hi : i < n)
      (hc : p.cancelling i = false) (he : e.resumes = true) (hst : (p.slots i).step e = some t)
      (hr : (p.slots i).raises e = true) : ProcessStep n p (.slot i e) ((p.setSlot i t).abort n)
  | cancelled {i : Nat} {t : SlotTask} (hc : p.cancelling i = true)
      (hst : (p.slots i).step .cancel = some t) : ProcessStep n p (.cancelled i) (p.setSlot i t)
  | reaper {e : ReaperEvent} {x : ReaperPoint} (hst : p.reaper.step e = some x) :
      ProcessStep n p (.reaper e) { p with reaper := x }
  | gathered (hm : p.main = .gather) (hover : p.PoolOver n)
      (hf : p.failed = true ∨ p.reaper = .ended) :
      ProcessStep n p .gathered { p with main := .closeNotifier }
  | closed {ok : Bool} {x : MainPoint} (hst : p.main.close ok = some x) :
      ProcessStep n p (.closed ok) { p with main := x }
  | teardown (hm : p.main = .exited) : ProcessStep n p .teardown { p with reaper := .ended }

theorem process_step (h : WorkerProcess.step n p ev = some q) : ProcessStep n p ev q := by
  cases ev with
  | signal =>
      simp only [WorkerProcess.step] at h
      split at h
      · cases h
      · cases h
        exact .signal ‹_›
  | slot i e =>
      simp only [WorkerProcess.step] at h
      split at h
      · rename_i hg
        obtain ⟨t, hst, rfl⟩ := Option.map_eq_some_iff.mp h
        by_cases hr : (p.slots i).raises e = true
        · rw [if_pos hr]
          exact .raised hg.1 hg.2.1 hg.2.2 hst hr
        · rw [if_neg hr]
          exact .resumed hg.1 hg.2.1 hg.2.2 hst (by simpa using hr)
      · cases h
  | cancelled i =>
      simp only [WorkerProcess.step] at h
      split at h
      · obtain ⟨t, hst, rfl⟩ := Option.map_eq_some_iff.mp h
        exact .cancelled ‹_› hst
      · cases h
  | reaper e =>
      obtain ⟨x, hst, rfl⟩ := Option.map_eq_some_iff.mp h
      exact .reaper hst
  | gathered =>
      simp only [WorkerProcess.step] at h
      split at h
      · rename_i hg
        cases h
        exact .gathered hg.1 hg.2.1 hg.2.2
      · cases h
  | closed ok =>
      obtain ⟨x, hst, rfl⟩ := Option.map_eq_some_iff.mp h
      exact .closed hst
  | teardown =>
      simp only [WorkerProcess.step] at h
      split at h
      · rename_i hg
        cases h
        exact .teardown hg.1
      · cases h

@[simp] theorem setSlot_self (p : WorkerProcess) (i : Nat) (t : SlotTask) :
    (p.setSlot i t).slots i = t :=
  Function.update_self ..

@[simp] theorem setSlot_cancelling_self (p : WorkerProcess) (i : Nat) (t : SlotTask) :
    (p.setSlot i t).cancelling i = false :=
  Function.update_self ..

theorem setSlot_ne (p : WorkerProcess) {i j : Nat} (t : SlotTask) (h : j ≠ i) :
    (p.setSlot i t).slots j = p.slots j ∧ (p.setSlot i t).cancelling j = p.cancelling j :=
  ⟨Function.update_of_ne h .., Function.update_of_ne h ..⟩

@[simp] theorem abort_slots (n : Nat) (p : WorkerProcess) : (p.abort n).slots = p.slots := by
  unfold WorkerProcess.abort
  split <;> rfl

@[simp] theorem abort_main (n : Nat) (p : WorkerProcess) : (p.abort n).main = p.main := by
  unfold WorkerProcess.abort
  split <;> rfl

@[simp] theorem abort_reaper (n : Nat) (p : WorkerProcess) : (p.abort n).reaper = p.reaper := by
  unfold WorkerProcess.abort
  split <;> rfl

@[simp] theorem abort_failed (n : Nat) (p : WorkerProcess) : (p.abort n).failed = true := by
  unfold WorkerProcess.abort
  split
  · assumption
  · rfl

/-- A slot is cancelled by the first error if it is not over. -/
theorem abort_cancelling (n : Nat) (p : WorkerProcess) (j : Nat) :
    (p.failed = true ∧ (p.abort n).cancelling j = p.cancelling j) ∨
      (p.failed = false ∧
        (p.abort n).cancelling j = decide (j < n ∧ (p.slots j).point ≠ .ended)) := by
  unfold WorkerProcess.abort
  split
  · exact .inl ⟨‹_›, rfl⟩
  · rename_i hf
    exact .inr ⟨by simpa using hf, rfl⟩

/-- What a step of the process is for its slot `j`. -/
inductive SlotStep (n : Nat) (p q : WorkerProcess) (j : Nat) (ev : ProcessEvent) : Prop where
  | same (hev : ev.turns j = false) (hs : q.slots j = p.slots j)
      (hc : q.cancelling j = p.cancelling j)
  | told (hev : ev = .signal) (hs : q.slots j = { p.slots j with shutdown := true })
      (hc : q.cancelling j = p.cancelling j)
  /-- Another slot was the first to raise. -/
  | asked (hev : ev.turns j = false) (hs : q.slots j = p.slots j) (hf : p.failed = false)
      (hf' : q.failed = true)
      (hc : q.cancelling j = decide (j < n ∧ (p.slots j).point ≠ .ended))
  | resumed {e : SlotEvent} (hev : ev = .slot j e) (he : e.resumes = true)
      (hc : p.cancelling j = false) (hst : (p.slots j).step e = some (q.slots j))
      (hc' : q.cancelling j = false)
  | delivered (hev : ev = .cancelled j) (hc : p.cancelling j = true)
      (hst : (p.slots j).step .cancel = some (q.slots j)) (hc' : q.cancelling j = false)

theorem slot_step (h : ProcessStep n p ev q) (j : Nat) : SlotStep n p q j ev := by
  cases h with
  | signal hm => exact .told rfl rfl rfl
  | @resumed i e t hi hc he hst hr =>
      by_cases hij : j = i
      · subst hij
        exact .resumed rfl he hc (by rw [setSlot_self]; exact hst) (setSlot_cancelling_self ..)
      · obtain ⟨hs, hcan⟩ := setSlot_ne p t hij
        exact .same (decide_eq_false (Ne.symm hij)) hs hcan
  | @raised i e t hi hc he hst hr =>
      have hend := ended_of_raises hr hst
      have hcan := abort_cancelling n (p.setSlot i t) j
      by_cases hij : j = i
      · subst hij
        refine .resumed rfl he hc (by rw [abort_slots, setSlot_self]; exact hst) ?_
        rcases hcan with ⟨-, hcan⟩ | ⟨-, hcan⟩
        · rw [hcan, setSlot_cancelling_self]
        · rw [hcan, setSlot_self, decide_eq_false_iff_not]
          exact fun hj => hj.2 hend
      · obtain ⟨hs, hsame⟩ := setSlot_ne p t hij
        have hturn : (ProcessEvent.slot i e).turns j = false := decide_eq_false (Ne.symm hij)
        rcases hcan with ⟨-, hcan⟩ | ⟨hf, hcan⟩
        · exact .same hturn (by rw [abort_slots, hs]) (hcan.trans hsame)
        · exact .asked hturn (by rw [abort_slots, hs]) hf (abort_failed ..) (by rw [hcan, hs])
  | @cancelled i t hc hst =>
      by_cases hij : j = i
      · subst hij
        exact .delivered rfl hc (by rw [setSlot_self]; exact hst) (setSlot_cancelling_self ..)
      · obtain ⟨hs, hcan⟩ := setSlot_ne p t hij
        exact .same (decide_eq_false (Ne.symm hij)) hs hcan
  | reaper hst => exact .same rfl rfl rfl
  | gathered hm hover hf => exact .same rfl rfl rfl
  | closed hst => exact .same rfl rfl rfl
  | teardown hm => exact .same rfl rfl rfl

/-- Once failed, always failed. -/
theorem failed_step (h : ProcessStep n p ev q) (hf : p.failed = true) : q.failed = true := by
  cases h with
  | raised hi hc he hst hr => exact abort_failed ..
  | _ => exact hf

/-- What every process keeps to. -/
structure Supervised (n : Nat) (p : WorkerProcess) : Prop where
  /-- Only an error cancels a slot, and only one that is not over. -/
  cancels : ∀ j, p.cancelling j = true → p.failed = true ∧ j < n ∧ (p.slots j).point ≠ .ended
  /-- `gather` is over for an error only. -/
  gathers : p.main ≠ .gather → p.failed = true ∧ p.PoolOver n
  /-- The reaper runs as long as `main` does. -/
  scans : p.reaper = .ended → p.main = .exited

/-- A pool that is over stays so. -/
theorem poolOver_step (h : ProcessStep n p ev q) (ho : p.PoolOver n) : q.PoolOver n := by
  intro j hj
  have hend := ho j hj
  cases slot_step h j with
  | same _ hs _ => rw [hs, hend]
  | told _ hs _ => rw [hs]; exact hend
  | asked _ hs _ _ _ => rw [hs, hend]
  | resumed hev he hc hst hc' =>
      refine absurd hend (not_ended_of_step hst fun hs => ?_)
      rw [hs] at he
      cases he
  | delivered hev hc hst hc' => exact absurd hend (not_ended_of_step hst (by decide))

theorem supervised_step (h : ProcessStep n p ev q) (hi : Supervised n p) : Supervised n q where
  cancels j hj := by
    cases slot_step h j with
    | same _ hs hc =>
        obtain ⟨hf, hn, hp⟩ := hi.cancels j (hc ▸ hj)
        exact ⟨failed_step h hf, hn, by rw [hs]; exact hp⟩
    | told _ hs hc =>
        obtain ⟨hf, hn, hp⟩ := hi.cancels j (hc ▸ hj)
        exact ⟨failed_step h hf, hn, by rw [hs]; exact hp⟩
    | asked _ hs _ hf hc =>
        rw [hc, decide_eq_true_eq] at hj
        exact ⟨hf, hj.1, by rw [hs]; exact hj.2⟩
    | resumed _ _ _ _ hc => rw [hc] at hj; cases hj
    | delivered _ _ _ hc => rw [hc] at hj; cases hj
  gathers hm := by
    have key : p.failed = true ∧ p.PoolOver n := by
      cases h with
      | gathered hg hover hf =>
          refine ⟨hf.elim id fun hr => ?_, hover⟩
          exact absurd (hg.symm.trans (hi.scans hr)) (by decide)
      | closed hst =>
          refine hi.gathers fun hg => ?_
          rw [hg] at hst
          cases hst
      | raised _ _ _ _ _ => exact hi.gathers (by simpa [setSlot] using hm)
      | _ => exact hi.gathers hm
    exact ⟨failed_step h key.1, poolOver_step h key.2⟩
  scans hr := by
    cases h with
    | reaper hst =>
        simp only at hr
        subst hr
        unfold ReaperPoint.step at hst
        split at hst <;> cases hst
    | gathered hg _ _ => exact absurd (hg.symm.trans (hi.scans hr)) (by decide)
    | @closed ok x hst =>
        have hm := hi.scans hr
        rw [hm] at hst
        cases hst
    | teardown hm => exact hm
    | raised _ _ _ _ _ => simpa [setSlot] using hi.scans (by simpa [setSlot] using hr)
    | _ => exact hi.scans hr

theorem supervised_reachable (h : (WorkerProcess.machine n).Reachable p) : Supervised n p :=
  h.invariant ⟨nofun, fun hm => absurd rfl hm, nofun⟩
    fun _ hi _ hst => supervised_step (process_step hst) hi

/-! ## When the pool stops -/

/-- The pool comes to its end, and claims no job on the way. -/
structure PoolStops (n : Nat) (p : WorkerProcess) : Prop where
  /-- No slot calls `claim_next` again. -/
  claims : ∀ {es q}, (WorkerProcess.machine n).run p es = some q →
    ∀ j < n, (q.slots j).claims = (p.slots j).claims
  /-- Each is resumed a few times at most. -/
  bounded : ∀ {es q}, (WorkerProcess.machine n).run p es = some q →
    ∀ j < n, es.countP (·.turns j) ≤ awaits (p.slots j)
  /-- And none is stuck before the pool is over. -/
  resumes : ∀ {es q}, (WorkerProcess.machine n).run p es = some q →
    q.PoolOver n ∨ ∃ j < n, ∃ ev r, ev.turns j = true ∧ WorkerProcess.step n q ev = some r

/-- Slot `j` is leaving, or has been cancelled where it heeds that. -/
def WayOut (p : WorkerProcess) (j : Nat) : Prop :=
  Leaving (p.slots j) ∨ p.cancelling j = true ∧ Heeds (p.slots j)

/-- **A slot that has a way out takes it.** -/
theorem wayOut_step (h : ProcessStep n p ev q) (hi : Supervised n p) (hw : WayOut p j) :
    WayOut q j ∧ (q.slots j).claims = (p.slots j).claims ∧
      awaits (q.slots j) + (ev.turns j).toNat ≤ awaits (p.slots j) := by
  cases slot_step h j with
  | same hev hs hc => exact ⟨by rwa [WayOut, hs, hc], by rw [hs], by simp [hs, hev]⟩
  | told hev hs hc =>
      refine ⟨.inl (.inl (.inl (by rw [hs]))), by rw [hs], ?_⟩
      subst hev
      simp [hs, awaits, ProcessEvent.turns]
  | asked hev hs hf hf' hc =>
      refine ⟨?_, by rw [hs], by simp [hs, hev]⟩
      rcases hw with hl | ⟨hcan, -⟩
      · exact .inl (by rwa [hs])
      · rw [(hi.cancels j hcan).1] at hf
        cases hf
  | resumed hev he hc hst hc' =>
      have hl : Leaving (p.slots j) := hw.resolve_right fun hcan => by
        rw [hc] at hcan
        cases hcan.1
      obtain ⟨hl, hcl, ha⟩ := leavingSlot_step hl hst
      refine ⟨.inl hl, hcl, ?_⟩
      simpa [hev, ProcessEvent.turns] using ha
  | delivered hev hc hst hc' =>
      have key : Leaving (q.slots j) ∧ (q.slots j).claims = (p.slots j).claims ∧
          awaits (q.slots j) + 1 ≤ awaits (p.slots j) := by
        rcases hw with hl | ⟨-, hh⟩
        · exact leavingSlot_step hl hst
        · have hend := not_ended_of_step hst (by decide)
          obtain ⟨hl, hcl, ha⟩ := exiting_cancelAt hh hend
          have hq : q.slots j = (p.slots j).cancelAt := by
            rw [SlotTask.step, if_neg hend] at hst
            exact (Option.some.inj hst).symm
          rw [hq]
          exact ⟨.inl hl, hcl, ha⟩
      exact ⟨.inl key.1, key.2.1, by simpa [hev, ProcessEvent.turns] using key.2.2⟩

/-- A slot's resumption is a step of the process. -/
theorem step_of_slot (hj : j < n) (hc : p.cancelling j = false) (he : e.resumes = true)
    (hst : (p.slots j).step e = some t) :
    ∃ q, WorkerProcess.step n p (.slot j e) = some q ∧ q.slots j = t ∧ q.cancelling j = false ∧
      ((p.slots j).raises e = true → q.failed = true) := by
  have hq : WorkerProcess.step n p (.slot j e) = some
      (if (p.slots j).raises e then (p.setSlot j t).abort n else p.setSlot j t) := by
    rw [WorkerProcess.step, if_pos ⟨hj, hc, he⟩, hst, Option.map_some]
  refine ⟨_, hq, ?_⟩
  by_cases hr : (p.slots j).raises e = true
  · rw [if_pos hr] at hq ⊢
    cases slot_step (process_step hq) j with
    | resumed hev _ _ hst' hc' =>
        cases hev
        exact ⟨Option.some.inj (hst'.symm.trans hst), hc', fun _ => abort_failed ..⟩
    | same hev _ _ => exact absurd hev (by simp [ProcessEvent.turns])
    | asked hev _ _ _ _ => exact absurd hev (by simp [ProcessEvent.turns])
    | told hev _ _ => cases hev
    | delivered hev _ _ _ => cases hev
  · rw [if_neg hr]
    exact ⟨setSlot_self .., setSlot_cancelling_self .., fun h => absurd h hr⟩

/-- A slot that is not over can be resumed. -/
theorem turn_of_not_ended (hj : j < n) (hp : (p.slots j).point ≠ .ended) :
    ∃ ev q, ev.turns j = true ∧ WorkerProcess.step n p ev = some q := by
  by_cases hc : p.cancelling j = true
  · refine ⟨.cancelled j, p.setSlot j (p.slots j).cancelAt, decide_eq_true rfl, ?_⟩
    rw [WorkerProcess.step, if_pos hc, SlotTask.step, if_neg hp, Option.map_some]
  · obtain ⟨e, t, hcan, hsd, hst⟩ := resumes_of_not_ended hp
    have he : e.resumes = true := by
      unfold SlotEvent.resumes
      split
      · exact absurd rfl hsd
      · exact absurd rfl hcan
      · rfl
    obtain ⟨q, hq, -⟩ := step_of_slot hj (by simpa using hc) he hst
    exact ⟨.slot j e, q, decide_eq_true rfl, hq⟩

/-- **Where every slot has a way out, the pool stops.** -/
theorem stops_of_wayOut (hr : (WorkerProcess.machine n).Reachable p)
    (hw : ∀ j < n, WayOut p j) : PoolStops n p := by
  have key : ∀ {es q}, (WorkerProcess.machine n).run p es = some q → ∀ j < n,
      (q.slots j).claims = (p.slots j).claims ∧ es.countP (·.turns j) ≤ awaits (p.slots j) := by
    intro es q h j hj
    have hstep : ∀ {u v : WorkerProcess} {ev : ProcessEvent},
        (Supervised n u ∧ WayOut u j ∧ (u.slots j).claims = (p.slots j).claims) →
        Machine.Always u ev → (WorkerProcess.machine n).step u ev = some v →
        (Supervised n v ∧ WayOut v j ∧ (v.slots j).claims = (p.slots j).claims) ∧
          awaits (v.slots j) + (ev.turns j).toNat ≤ awaits (u.slots j) + 0 := by
      rintro u v ev ⟨hs, hu, hc⟩ - hv
      obtain ⟨hv', hcl, ha⟩ := wayOut_step (process_step hv) hs hu
      exact ⟨⟨supervised_step (process_step hv) hs, hv', hcl.trans hc⟩, ha⟩
    have hb := Machine.Meets.balance hstep ⟨supervised_reachable hr, hw j hj, rfl⟩
      (Machine.meets_always p es) h
    rw [Machine.tally_countP h, Machine.tally_zero] at hb
    exact ⟨hb.1.2.2, by omega⟩
  refine ⟨fun h j hj => (key h j hj).1, fun h j hj => (key h j hj).2, fun {_ q} _ => ?_⟩
  by_cases ho : q.PoolOver n
  · exact .inl ho
  · obtain ⟨j, hj⟩ := not_forall.mp ho
    obtain ⟨hj, hp⟩ := Classical.not_imp.mp hj
    exact .inr ⟨j, hj, turn_of_not_ended hj hp⟩

/-- A slot's run is a run of the process. -/
theorem run_of_slot {es : List SlotEvent} (hj : j < n) (hc : p.cancelling j = false)
    (he : ∀ e ∈ es, e.resumes = true) (h : SlotTask.machine.run (p.slots j) es = some t) :
    ∃ q, (WorkerProcess.machine n).run p (es.map (.slot j)) = some q ∧ q.slots j = t ∧
      q.cancelling j = false := by
  induction es generalizing p with
  | nil =>
      cases h
      exact ⟨p, rfl, rfl, hc⟩
  | cons e es ih =>
      obtain ⟨u, hu, h⟩ := Option.bind_eq_some_iff.mp h
      obtain ⟨q, hq, hs, hcan, -⟩ := step_of_slot hj hc (he e List.mem_cons_self) hu
      rw [← hs] at h
      obtain ⟨r, hr, hrs⟩ := ih hcan (fun e' he' => he e' (List.mem_cons_of_mem _ he')) h
      exact ⟨r, Option.bind_eq_some_iff.mpr ⟨q, hq, hr⟩, hrs⟩

/-- **A slot without a way out can claim again.** -/
theorem claims_of_not_wayOut (hi : Supervised n p) (hj : j < n) (hw : ¬ WayOut p j) :
    ∃ es q, (WorkerProcess.machine n).run p es = some q ∧
      (p.slots j).claims < (q.slots j).claims := by
  obtain ⟨hl, hh⟩ := not_or.mp hw
  by_cases hc : p.cancelling j = true
  · -- the cancellation is delivered at once, and not heeded
    have hp := (hi.cancels j hc).2.2
    obtain ⟨hstay, hle⟩ := stays_of_not_heeds (fun h => hh ⟨hc, h⟩) hp
    have hstep : WorkerProcess.step n p (.cancelled j)
        = some (p.setSlot j (p.slots j).cancelAt) := by
      rw [WorkerProcess.step, if_pos hc, SlotTask.step, if_neg hp, Option.map_some]
    obtain ⟨es, u, hu, he, -, hlt⟩ := comes_round hstay
    rw [← setSlot_self p j (p.slots j).cancelAt] at hu
    obtain ⟨q, hq, hs, -⟩ := run_of_slot hj (setSlot_cancelling_self ..) he hu
    refine ⟨.cancelled j :: es.map (.slot j), q, ?_, by rw [hs]; omega⟩
    exact Option.bind_eq_some_iff.mpr ⟨_, hstep, hq⟩
  · obtain ⟨es, u, hu, he, -, hlt⟩ := comes_round hl
    obtain ⟨q, hq, hs, -⟩ := run_of_slot hj (by simpa using hc) he hu
    exact ⟨_, q, hq, by rw [hs]; exact hlt⟩

/-- After the first error every slot left has been cancelled. -/
theorem wayOut_of_error (h : WorkerProcess.step n p (.slot i e) = some q) (hf : p.failed = false)
    (hf' : q.failed = true) :
    (∀ j < n, WayOut q j) ↔ ∀ j < n, j ≠ i → (p.slots j).point = .ended ∨ Heeds (p.slots j) := by
  have hleave : ∀ s : SlotTask, Leaving s → s.point = .ended ∨ Heeds s := by
    rintro s ((hs | hs | hs) | hs)
    · exact .inr (.inl hs)
    · exact .inl hs
    · exact .inr (.inr (.inr (.inr (.inr (.inl ⟨_, hs⟩)))))
    · exact .inr (.inr (.inr (.inr (.inr (.inr hs)))))
  cases process_step h with
  | resumed hi hc he hst hr => exact absurd (hf.symm.trans hf') (by decide)
  | @raised i e t hi hc he hst hr =>
      have hcan := fun j => (abort_cancelling n (p.setSlot i t) j).resolve_left
        fun hc => absurd (hf.symm.trans hc.1) (by decide)
      constructor
      · intro hw j hj hji
        have hwj := hw j hj
        rw [WayOut, abort_slots, (setSlot_ne p t hji).1] at hwj
        exact hwj.elim (hleave _) fun hh => .inr hh.2
      · intro hall j hj
        by_cases hji : j = i
        · subst hji
          refine .inl (.inl (.inr (.inl ?_)))
          rw [abort_slots, setSlot_self]
          exact ended_of_raises hr hst
        · rw [WayOut, abort_slots, (hcan j).2, (setSlot_ne p t hji).1]
          by_cases hend : (p.slots j).point = .ended
          · exact .inl (.inl (.inr (.inl hend)))
          · exact .inr ⟨decide_eq_true ⟨hj, hend⟩, (hall j hj hji).resolve_left hend⟩

/--
**When a pool stops.** From a state any run can reach, the pool claims no more and comes
to its end exactly when each of its slots has a way out. The signal gives every slot one.
The first error of a slot does exactly when each of the others is over or heeds a
cancellation where it stands: while one of them waits for a notification, for its pipeline
or for the heartbeat of one that did not raise, the pool goes on with that slot alone.
-/
theorem pool_stops_iff (hr : (WorkerProcess.machine n).Reachable p) :
    (PoolStops n p ↔ ∀ j < n, WayOut p j) ∧
    (∀ q, WorkerProcess.step n p .signal = some q → PoolStops n q) ∧
    ∀ i e q, WorkerProcess.step n p (.slot i e) = some q → p.failed = false → q.failed = true →
      (PoolStops n q ↔
        ∀ j < n, j ≠ i → (p.slots j).point = .ended ∨ Heeds (p.slots j)) := by
  have hiff : ∀ {p : WorkerProcess}, (WorkerProcess.machine n).Reachable p →
      (PoolStops n p ↔ ∀ j < n, WayOut p j) := by
    intro p hr
    refine ⟨fun hstop j hj => ?_, stops_of_wayOut hr⟩
    by_contra hw
    obtain ⟨es, q, hq, hlt⟩ := claims_of_not_wayOut (supervised_reachable hr) hj hw
    have hsame := hstop.claims hq j hj
    omega
  refine ⟨hiff hr, fun q hq => ?_, fun i e q hq hf hf' => ?_⟩
  · refine stops_of_wayOut (hr.tail (e := .signal) trivial hq) fun j hj => .inl (.inl (.inl ?_))
    cases process_step hq with
    | signal _ => rfl
  · rw [hiff (hr.tail (e := .slot i e) trivial hq), wayOut_of_error hq hf hf']

theorem pool_stops_iff_listening :
    ∃ p q, (WorkerProcess.machine 2).Reachable p ∧
      WorkerProcess.step 2 p (.slot 0 .claimRaised) = some q ∧ ¬ PoolStops 2 q := by
  have hr : (WorkerProcess.machine 2).Reachable _ :=
    Machine.path_of_run (show (WorkerProcess.machine 2).run _
      [.slot 1 (.claimed false), .slot 1 (.connected true)] = some _ from rfl)
  refine ⟨_, _, hr, rfl, fun hstop => ?_⟩
  have hall := ((pool_stops_iff hr).2.2 0 .claimRaised _ rfl rfl rfl).mp hstop
  rcases hall 1 (by omega) (by omega) with h | h
  · cases h
  · rcases h with h | h | h | h | ⟨_, h⟩ | h <;> cases h

end PromptQueue.Proof
