import Mathlib.Algebra.Order.Field.Basic
import Mathlib.Tactic.Linarith
import Mathlib.Tactic.Ring

/-!
# Periodic attempts

A loop that sleeps, attempts something, and sleeps again whether or not the attempt went
through. Nothing forces such a loop to be in time; a `Pace` is a promise about it — how
long a sleep and an attempt take at most, and how many attempts fail in a row at most.
A loop that keeps the promise succeeds again within `Pace.gap` of its last success
(`Sound.due_le`), and no sooner bound holds: a loop may use the whole of it
(`late_succeed`).
-/

namespace PromptQueue.Base

variable {τ : Type} [Field τ] [LinearOrder τ]

/-- What can be promised of a loop. -/
structure Pace (τ : Type) [Field τ] [LinearOrder τ] where
  /-- The sleep it asks for. -/
  interval : τ
  /-- The longest a sleep takes. -/
  nap : τ
  /-- The longest an attempt takes. -/
  work : τ
  /-- How many attempts fail in a row. -/
  slack : Nat
  interval_nonneg : 0 ≤ interval
  interval_le_nap : interval ≤ nap
  work_nonneg : 0 ≤ work

/-- Where a loop stands. -/
structure Beat (τ : Type) where
  /-- In an attempt, not asleep. -/
  working : Bool
  /-- When the sleep or the attempt began. -/
  since : τ
  /-- How many attempts in a row have failed. -/
  failures : Nat
  /-- The last success, or the start. -/
  last : τ

/-- What a loop does. -/
inductive Tick where
  /-- The sleep is over. -/
  | wake
  /-- The attempt went through. -/
  | succeed
  /-- The attempt failed. -/
  | fail
  deriving DecidableEq, Repr

namespace Beat

/-- A loop that starts with a sleep. -/
def start (t : τ) : Beat τ where
  working := false
  since := t
  failures := 0
  last := t

/-- One tick. No sleep is shorter than the interval. -/
def step (p : Pace τ) (b : Beat τ) (t : τ) : Tick → Option (Beat τ)
  | .wake =>
      if b.working = false ∧ b.since + p.interval ≤ t then
        some { b with working := true, since := t }
      else none
  | .succeed =>
      if b.working = true then some { working := false, since := t, failures := 0, last := t }
      else none
  | .fail =>
      if b.working = true then
        some { b with working := false, since := t, failures := b.failures + 1 }
      else none

/-- When the sleep or the attempt is over at the latest. -/
def due (p : Pace τ) (b : Beat τ) : τ := b.since + if b.working then p.work else p.nap

/-- A tick that keeps the promise: it is not late, and not a failure too many. -/
def OnPace (p : Pace τ) (b : Beat τ) (t : τ) (k : Tick) : Prop :=
  t ≤ b.due p ∧ (k = .fail → b.failures < p.slack)

instance (p : Pace τ) (b : Beat τ) (t : τ) (k : Tick) : Decidable (b.OnPace p t k) :=
  inferInstanceAs (Decidable (_ ∧ _))

/-- The ticks of a loop. -/
inductive Ticks (p : Pace τ) (b : Beat τ) (t : τ) : Tick → Beat τ → Prop where
  | woke (hw : b.working = false) (ht : b.since + p.interval ≤ t) :
      Ticks p b t .wake { b with working := true, since := t }
  | succeeded (hw : b.working = true) :
      Ticks p b t .succeed { working := false, since := t, failures := 0, last := t }
  | failed (hw : b.working = true) :
      Ticks p b t .fail { b with working := false, since := t, failures := b.failures + 1 }

theorem ticks_of_step {p : Pace τ} {b b' : Beat τ} {t : τ} {k : Tick}
    (h : b.step p t k = some b') : Ticks p b t k b' := by
  unfold step at h
  split at h
  · split at h
    · rename_i hc
      cases h
      exact .woke hc.1 hc.2
    · cases h
  · split at h
    · rename_i hc
      cases h
      exact .succeeded hc
    · cases h
  · split at h
    · rename_i hc
      cases h
      exact .failed hc
    · cases h

end Beat

namespace Pace

/-- The longest a loop that keeps the promise goes without a success. -/
def gap (p : Pace τ) : τ := (p.slack + 1) * (p.nap + p.work)

theorem nap_nonneg (p : Pace τ) : 0 ≤ p.nap := p.interval_nonneg.trans p.interval_le_nap

end Pace

/-- What a loop that kept the promise so far has done. -/
structure Beat.Sound (p : Pace τ) (b : Beat τ) : Prop where
  /-- It has not failed too often. -/
  failures : b.failures ≤ p.slack
  /-- Each failed round took no longer than a sleep and an attempt. -/
  since : b.since
    ≤ b.last + b.failures * (p.nap + p.work) + if b.working then p.nap else 0

namespace Beat

section
variable {p : Pace τ} {b b' : Beat τ} {t : τ} {k : Tick}

theorem sound_start (p : Pace τ) (t : τ) : (start t).Sound p where
  failures := Nat.zero_le _
  since := by simp [start]

variable [IsStrictOrderedRing τ]

/-- **A tick that keeps the promise** keeps the account of it. -/
theorem Sound.step (h : b.Sound p) (hp : b.OnPace p t k) (hs : b.step p t k = some b') :
    b'.Sound p := by
  have hdue := hp.1
  have hsince := h.since
  cases ticks_of_step hs with
  | woke hw ht =>
      simp only [due, hw, Bool.false_eq_true, if_false] at hdue hsince
      refine ⟨h.failures, ?_⟩
      simp only [if_true]
      linarith
  | succeeded hw => exact sound_start p t
  | failed hw =>
      simp only [due, hw, if_true] at hdue hsince
      refine ⟨hp.2 rfl, ?_⟩
      simp only [Bool.false_eq_true, if_false]
      push_cast
      linarith

/-- **The gap.** Whatever such a loop is about is over within `gap` of its last success. -/
theorem Sound.due_le (h : b.Sound p) : b.due p ≤ b.last + p.gap := by
  have hsince := h.since
  have hnap := p.nap_nonneg
  have hwork := p.work_nonneg
  have hround : (b.failures : τ) * (p.nap + p.work) ≤ p.slack * (p.nap + p.work) := by
    have hcast : (b.failures : τ) ≤ p.slack := Nat.cast_le.mpr h.failures
    exact mul_le_mul_of_nonneg_right hcast (by linarith)
  have hgap : p.gap = p.slack * (p.nap + p.work) + (p.nap + p.work) := by
    unfold Pace.gap
    ring
  unfold due
  split at hsince
  · rename_i hb
    rw [if_pos hb]
    linarith
  · rename_i hb
    rw [if_neg hb]
    linarith

end

/-! ## As late as can be -/

/-- Asleep again after `n` failures, everything as slow as promised. -/
def late (p : Pace τ) (t : τ) (n : Nat) : Beat τ where
  working := false
  since := t + n * (p.nap + p.work)
  failures := n
  last := t

/-- The attempt that follows. -/
def lateAttempt (p : Pace τ) (t : τ) (n : Nat) : Beat τ where
  working := true
  since := t + n * (p.nap + p.work) + p.nap
  failures := n
  last := t

theorem late_zero (p : Pace τ) (t : τ) : late p t 0 = start t := by
  simp [late, start]

section
variable [IsStrictOrderedRing τ] {p : Pace τ}

/-- It sleeps as long as it may. -/
theorem late_wake (p : Pace τ) (t : τ) (n : Nat) :
    (late p t n).OnPace p (lateAttempt p t n).since .wake ∧
      (late p t n).step p (lateAttempt p t n).since .wake = some (lateAttempt p t n) := by
  constructor
  · exact ⟨by simp [due, late, lateAttempt], nofun⟩
  · have hlate : (late p t n).since + p.interval ≤ (lateAttempt p t n).since := by
      simp only [late, lateAttempt]
      linarith [p.interval_le_nap]
    simp only [step, hlate, and_true]
    rfl

/-- It fails as late as it may. -/
theorem late_fail (t : τ) {n : Nat} (hn : n < p.slack) :
    (lateAttempt p t n).OnPace p (late p t (n + 1)).since .fail ∧
      (lateAttempt p t n).step p (late p t (n + 1)).since .fail = some (late p t (n + 1)) := by
  constructor
  · refine ⟨?_, fun _ => hn⟩
    simp only [due, late, lateAttempt, if_true]
    push_cast
    linarith
  · rfl

/-- **The last attempt may end a whole gap after the start.** -/
theorem late_succeed (p : Pace τ) (t : τ) :
    (lateAttempt p t p.slack).OnPace p (t + p.gap) .succeed ∧
    ((lateAttempt p t p.slack).step p (t + p.gap) .succeed).isSome = true := by
  constructor
  · refine ⟨?_, nofun⟩
    simp only [due, lateAttempt, if_true, Pace.gap]
    linarith
  · rfl

end

end Beat

end PromptQueue.Base
