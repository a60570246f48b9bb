import PromptQueue.Worker.Pool

/-!
# A cancelled slot

A task group stops a slot by one `CancelledError`, delivered wherever the slot
waits. Four places on the slot's way catch one, each taking it for something else:
a listener that timed out, a lease that was lost, a heartbeat that stopped. There
the slot goes on to the next job, unless it was told to shut down anyway.
-/

namespace PromptQueue.Proof

open PromptQueue Base

variable {s t u : SlotTask} {e : SlotEvent}

/-- The cancelled slot `t`, which was `s`, claims no more and comes to its end. -/
structure Stops (s t : SlotTask) : Prop where
  /-- No further `claim_next`. -/
  claims : ∀ {es u}, SlotTask.machine.run t es = some u → u.claims = s.claims
  /-- Its runs are bounded. -/
  bounded : ∃ n, ∀ {es u}, SlotTask.machine.run t es = some u → es.length ≤ n
  /-- And it is stuck nowhere before the end. -/
  resumes : ∀ {es u}, SlotTask.machine.run t es = some u →
    u.point = .ended ∨ ∃ e v, e ≠ .cancel ∧ e ≠ .shutdown ∧ u.step e = some v

/--
Where a cancellation is heeded: the loops end anyway, or nothing between the await
and the end of the coroutine catches it, or an exception of the pipeline is on its
way out already.
-/
def Heeds (s : SlotTask) : Prop :=
  s.shutdown = true ∨ s.point = .claimNext ∨ s.point = .connect ∨ s.point = .unlisten ∨
    (∃ how, s.point = .notify how) ∨ s.point = .heartbeatStop .raised

/-! ## On the way out -/

/-- The slot will not come back to the head of its loop and go on. -/
def Exiting (s : SlotTask) : Prop :=
  s.shutdown = true ∨ s.point = .ended ∨ s.point = .notify .raised

/-- How many awaits an exiting slot can still come to. -/
def ahead : SlotPoint → Nat
  | .claimNext => 4
  | .pipeline | .connect => 3
  | .heartbeatStop _ | .listen => 2
  | .notify _ | .unlisten => 1
  | .ended => 0

/-- How many steps an exiting slot can still take; the event can be set on the way. -/
def awaits (s : SlotTask) : Nat := ahead s.point + (!s.shutdown).toNat

theorem loopHead_of_shutdown (h : s.shutdown = true) : s.loopHead = { s with point := .ended } :=
  if_pos h

theorem loopHead_of_running (h : s.shutdown = false) :
    s.loopHead = { s with point := .claimNext, claims := s.claims + 1 } :=
  if_neg (by rw [h]; decide)

/-- A exiting slot's loop is over when it comes to the head. -/
theorem exiting_loopHead (h : s.shutdown = true) :
    Exiting s.loopHead ∧ s.loopHead.claims = s.claims ∧ awaits s.loopHead = 0 := by
  rw [loopHead_of_shutdown h]
  refine ⟨.inl h, rfl, ?_⟩
  simp [awaits, ahead, h]

/-- The way out of a pipeline's end is the way out of the loop. -/
theorem exiting_afterStop {how : Ending} (h : s.shutdown = true) :
    Exiting (s.afterStop how) ∧ (s.afterStop how).claims = s.claims ∧
      awaits (s.afterStop how) ≤ 1 := by
  cases how with
  | cancelled =>
      obtain ⟨hl, hc, ha⟩ := exiting_loopHead h
      exact ⟨hl, hc, by rw [SlotTask.afterStop, ha]; omega⟩
  | returned => exact ⟨.inl h, rfl, by simp [SlotTask.afterStop, awaits, ahead, h]⟩
  | raised => exact ⟨.inl h, rfl, by simp [SlotTask.afterStop, awaits, ahead, h]⟩

theorem exiting_afterNotify {how : Ending} (h : s.shutdown = true) :
    Exiting (s.afterNotify how) ∧ (s.afterNotify how).claims = s.claims ∧
      awaits (s.afterNotify how) = 0 := by
  cases how with
  | raised => exact ⟨.inl h, rfl, by simp [SlotTask.afterNotify, awaits, ahead, h]⟩
  | returned => exact exiting_loopHead h
  | cancelled => exact exiting_loopHead h

/-- **A cancellation that is heeded puts the slot on its way out.** -/
theorem exiting_cancelAt (hh : Heeds s) (hp : s.point ≠ .ended) :
    Exiting s.cancelAt ∧ s.cancelAt.claims = s.claims ∧ awaits s.cancelAt + 1 ≤ awaits s := by
  unfold SlotTask.cancelAt
  cases hpt : s.point with
  | ended => exact absurd hpt hp
  | claimNext => exact ⟨.inr (.inl rfl), rfl, by simp [awaits, ahead, hpt]⟩
  | connect => exact ⟨.inr (.inl rfl), rfl, by simp [awaits, ahead, hpt]⟩
  | unlisten => exact ⟨.inr (.inl rfl), rfl, by simp [awaits, ahead, hpt]⟩
  | notify how => exact ⟨.inr (.inl rfl), rfl, by simp [awaits, ahead, hpt]⟩
  | listen =>
      have hsd : s.shutdown = true := by simpa [Heeds, hpt] using hh
      exact ⟨.inl hsd, rfl, by simp [awaits, ahead, hpt]⟩
  | pipeline =>
      have hsd : s.shutdown = true := by simpa [Heeds, hpt] using hh
      exact ⟨.inl hsd, rfl, by simp [awaits, ahead, hpt]⟩
  | heartbeatStop how =>
      rcases (by simpa [Heeds, hpt] using hh : s.shutdown = true ∨ how = .raised) with hsd | rfl
      · obtain ⟨hl, hc, ha⟩ := exiting_afterStop hsd
        refine ⟨hl, hc, ?_⟩
        have hs : awaits s = 2 := by simp [awaits, ahead, hpt, hsd]
        dsimp only
        omega
      · exact ⟨.inr (.inr rfl), rfl, by simp [SlotTask.afterStop, awaits, ahead, hpt]⟩

/-- **One step on the way out.** -/
theorem exiting_step (hl : Exiting s) (h : s.step e = some t) :
    Exiting t ∧ t.claims = s.claims ∧ awaits t + 1 ≤ awaits s := by
  have hm := SlotTask.step_iff.mp h
  rcases hl with hsd | hend | hraised
  · -- told to shut down: every way leads to the head of a loop that is over
    obtain ⟨hl, hc, ha⟩ := exiting_loopHead hsd
    cases hm with
    | told hs => rw [hsd] at hs; cases hs
    | cancelled hp => exact exiting_cancelAt (.inl hsd) hp
    | took hp => exact ⟨.inl hsd, rfl, by simp [awaits, ahead, hp]⟩
    | foundNone hp => exact ⟨.inl hsd, rfl, by simp [awaits, ahead, hp]⟩
    | broke hp => exact ⟨.inl hsd, rfl, by simp [awaits, ahead, hp]⟩
    | opened hp => exact ⟨.inl hsd, rfl, by simp [awaits, ahead, hp]⟩
    | woken hp => exact ⟨.inl hsd, rfl, by simp [awaits, ahead, hp]⟩
    | finished hp => exact ⟨.inl hsd, rfl, by simp [awaits, ahead, hp]⟩
    | refused hp => exact ⟨hl, hc, by rw [ha]; simp [awaits, ahead, hp, hsd]⟩
    | closed hp => exact ⟨hl, hc, by rw [ha]; simp [awaits, ahead, hp, hsd]⟩
    | stopped hp =>
        obtain ⟨hl, hc, ha⟩ := exiting_afterStop hsd
        have hs : awaits s = 2 := by simp [awaits, ahead, hp, hsd]
        exact ⟨hl, hc, by omega⟩
    | announced hp =>
        obtain ⟨hl, hc, ha⟩ := exiting_afterNotify hsd
        have hs : awaits s = 1 := by simp [awaits, ahead, hp, hsd]
        exact ⟨hl, hc, by omega⟩
  · -- at the end: only the event can still be set
    cases hm with
    | told hs => exact ⟨.inl rfl, rfl, by simp [awaits, ahead, hend, hs]⟩
    | cancelled hp => exact absurd hend hp
    | _ hp => rw [hend] at hp; cases hp
  · -- an exception of the pipeline goes on after `notify`
    cases hm with
    | told hs => exact ⟨.inl rfl, rfl, by simp [awaits, ahead, hraised, hs]⟩
    | cancelled hp => exact exiting_cancelAt (.inr (.inr (.inr (.inr (.inl ⟨_, hraised⟩))))) hp
    | announced hp =>
        rw [hraised] at hp
        cases hp
        exact ⟨.inr (.inl rfl), rfl, by simp [SlotTask.afterNotify, awaits, ahead, hraised]⟩
    | _ hp => rw [hraised] at hp; cases hp

/-- **A run on the way out:** no claim, and no more steps than awaits to go. -/
theorem exiting_run {es : List SlotEvent} (hl : Exiting s)
    (h : SlotTask.machine.run s es = some t) : t.claims = s.claims ∧ es.length ≤ awaits s := by
  have hstep : ∀ {u v : SlotTask} {e : SlotEvent}, (Exiting u ∧ u.claims = s.claims) →
      Machine.Always u e → SlotTask.machine.step u e = some v →
      (Exiting v ∧ v.claims = s.claims) ∧ awaits v + 1 ≤ awaits u + 0 := by
    intro u v e hu _ hv
    obtain ⟨hl, hc, ha⟩ := exiting_step hu.1 hv
    exact ⟨⟨hl, hc.trans hu.2⟩, ha⟩
  have hb := Machine.Meets.balance hstep ⟨hl, rfl⟩ (Machine.meets_always s es) h
  have hone := Machine.tally_one h
  rw [Machine.tally_zero] at hb
  exact ⟨hb.1.2, by omega⟩

/-- A slot that has not ended waits for something that can come. -/
theorem resumes_of_not_ended (h : s.point ≠ .ended) :
    ∃ e v, e ≠ .cancel ∧ e ≠ .shutdown ∧ s.step e = some v := by
  cases hp : s.point with
  | ended => exact absurd hp h
  | claimNext => exact ⟨.claimRaised, _, by decide, by decide, SlotTask.step_iff.mpr (.broke hp)⟩
  | connect => exact ⟨_, _, by decide, by decide, SlotTask.step_iff.mpr (.refused hp)⟩
  | listen => exact ⟨_, _, by decide, by decide, SlotTask.step_iff.mpr (.woken hp)⟩
  | unlisten => exact ⟨_, _, by decide, by decide, SlotTask.step_iff.mpr (.closed hp)⟩
  | pipeline =>
      exact ⟨.pipelineEnded .returned, _, by decide, by decide,
        SlotTask.step_iff.mpr (.finished hp)⟩
  | heartbeatStop how => exact ⟨_, _, by decide, by decide, SlotTask.step_iff.mpr (.stopped hp)⟩
  | notify how => exact ⟨_, _, by decide, by decide, SlotTask.step_iff.mpr (.announced hp)⟩

/-! ## When a cancelled slot stops -/

/-- Where a cancellation is not heeded, the slot can come back and claim. -/
theorem claims_after (hh : ¬ Heeds s) (h : s.step .cancel = some t) :
    ∃ es u, SlotTask.machine.run t es = some u ∧ s.claims < u.claims := by
  have hsd : s.shutdown = false := by simpa using fun hsd => hh (.inl hsd)
  cases SlotTask.step_iff.mp h with
  | cancelled hp =>
      unfold SlotTask.cancelAt
      cases hpt : s.point with
      | ended => exact absurd hpt hp
      | claimNext => exact absurd (.inr (.inl hpt)) hh
      | connect => exact absurd (.inr (.inr (.inl hpt))) hh
      | unlisten => exact absurd (.inr (.inr (.inr (.inl hpt)))) hh
      | notify how => exact absurd (.inr (.inr (.inr (.inr (.inl ⟨how, hpt⟩))))) hh
      | listen =>
          refine ⟨[.unlistened], _, rfl, ?_⟩
          rw [loopHead_of_running (by exact hsd)]
          exact Nat.lt_succ_self _
      | pipeline =>
          refine ⟨[.heartbeatStopped], _, rfl, ?_⟩
          rw [SlotTask.afterStop, loopHead_of_running (by exact hsd)]
          exact Nat.lt_succ_self _
      | heartbeatStop how =>
          cases how with
          | raised => exact absurd (.inr (.inr (.inr (.inr (.inr hpt))))) hh
          | cancelled =>
              refine ⟨[], _, rfl, ?_⟩
              dsimp only
              rw [SlotTask.afterStop, loopHead_of_running hsd]
              exact Nat.lt_succ_self _
          | returned =>
              refine ⟨[.notified], SlotTask.loopHead { s with point := .notify .returned }, rfl, ?_⟩
              rw [loopHead_of_running (by exact hsd)]
              exact Nat.lt_succ_self _

/--
**A cancelled slot stops exactly where the cancellation is heeded**: in `claim_next`,
while the listener's connection is opened or closed, in `notify`, and in the
`heartbeat.stop` of a pipeline that raised; anywhere, once the shutdown event is set.
Waiting for a notification, awaiting the pipeline and in the `heartbeat.stop` of any
other pipeline a handler takes the cancellation for its own.
-/
theorem cancelled_slot_stops_iff (h : s.step .cancel = some t) : Stops s t ↔ Heeds s := by
  constructor
  · intro hst
    by_contra hh
    obtain ⟨es, u, hu, hlt⟩ := claims_after hh h
    have hc := hst.claims hu
    omega
  · intro hh
    cases SlotTask.step_iff.mp h with
    | cancelled hp =>
        obtain ⟨hl, hc, -⟩ := exiting_cancelAt hh hp
        refine ⟨fun hu => (exiting_run hl hu).1.trans hc, ⟨_, fun hu => (exiting_run hl hu).2⟩,
          fun {_ u} _ => ?_⟩
        by_cases hend : u.point = .ended
        · exact .inl hend
        · exact .inr (resumes_of_not_ended hend)

/-- A slot that listens goes on, one that is about to claim stops. -/
theorem cancelled_slot_stops_iff_listening :
    ¬ Stops ⟨.listen, false, 1⟩ ⟨.unlisten, false, 1⟩ ∧
      Stops ⟨.claimNext, false, 1⟩ ⟨.ended, false, 1⟩ :=
  ⟨(cancelled_slot_stops_iff rfl).not.mpr (by simp [Heeds]),
    (cancelled_slot_stops_iff rfl).mpr (.inr (.inl rfl))⟩

/-- A slot cancelled while it waits for a notification claims again. -/
theorem cancelled_slot_claims :
    ¬ ∀ s t : SlotTask, SlotTask.machine.Reachable s → s.step .cancel = some t → Stops s t := by
  intro h
  have hr : SlotTask.machine.Reachable ⟨.listen, false, 1⟩ :=
    Machine.path_of_run
      (show SlotTask.machine.run _ [.claimed false, .connected true] = some _ from rfl)
  have hc : (2 : Nat) = 1 :=
    (h _ ⟨.unlisten, false, 1⟩ hr rfl).claims
      (show SlotTask.machine.run _ [.unlistened] = some ⟨.claimNext, false, 2⟩ from rfl)
  omega

/-! ## The loop and the rest of the system -/

/-- What the loop does after a pipeline is what `World.afterTask` says of the slot. -/
theorem loop_after_pipeline (r : Run) (how : Ending) (h : s.shutdown = false) :
    ((s.afterStop how).point = .notify how ↔ (World.afterTask r how).2 = [.notified r.req.id]) ∧
      ((s.afterNotify how).point = .claimNext ↔ (World.afterTask r how).1 = .idle) := by
  cases how with
  | returned =>
      simp [SlotTask.afterStop, SlotTask.afterNotify, World.afterTask, SlotTask.loopHead, h]
  | cancelled =>
      simp [SlotTask.afterStop, SlotTask.afterNotify, World.afterTask, SlotTask.loopHead, h]
  | raised => simp [SlotTask.afterStop, SlotTask.afterNotify, World.afterTask]

end PromptQueue.Proof
