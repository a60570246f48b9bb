import PromptQueue.Services.LlmMock
import Mathlib.Order.Monotone.Basic

/-!
# The provider's guard, call by call

The guard forgets calls from the front of its deque only, and only when it is asked.
While its clock does not go back that is exact: what it remembers at a time is every
call it granted in the closed window that ends then, and nothing else.
-/

namespace PromptQueue

open Base

variable (limit : Nat) (window : Rat) (now : ℕ → Time)

/-- The guard after the first `n` calls of a sequence. -/
def guardAfter : ℕ → SlidingWindowGuard
  | 0 => .new limit window
  | n + 1 => ((guardAfter n).tryAcquire (now n)).1

/-- Whether the guard grants the `n`-th call. -/
def guardGranted (n : ℕ) : Bool := ((guardAfter limit window now n).tryAcquire (now n)).2

/-- The times of the calls granted before the `n`-th, oldest first. -/
def guardHistory : ℕ → List Time
  | 0 => []
  | n + 1 => if guardGranted limit window now n then guardHistory n ++ [now n] else guardHistory n

/-- How many calls before the `n`-th were granted at times from one to another, both included. -/
def grantedBetween (n : ℕ) (first last : Time) : ℕ :=
  ((Finset.range n).filter fun k => guardGranted limit window now k = true ∧
    first ≤ now k ∧ now k ≤ last).card

end PromptQueue

namespace PromptQueue.Proof

open PromptQueue Base

variable {limit : Nat} {window : Rat} {now : ℕ → Time}

/-- The history is the granted calls, so counting in it is counting them. -/
theorem countP_guardHistory (first last : Time) (n : ℕ) :
    (guardHistory limit window now n).countP (fun t => decide (first ≤ t ∧ t ≤ last))
      = grantedBetween limit window now n first last := by
  induction n with
  | zero => rfl
  | succ n ih =>
      unfold grantedBetween at ih ⊢
      rw [Finset.range_add_one, Finset.filter_insert, guardHistory]
      cases hg : guardGranted limit window now n with
      | false => rw [if_neg Bool.false_ne_true, if_neg fun h => Bool.false_ne_true h.1, ih]
      | true =>
          by_cases hin : first ≤ now n ∧ now n ≤ last
          · rw [if_pos rfl, if_pos ⟨rfl, hin⟩, List.countP_append, ih,
              Finset.card_insert_of_notMem (by simp)]
            simp [hin]
          · rw [if_pos rfl, if_neg fun h => hin h.2, List.countP_append, ih]
            simpa using hin

theorem guardAfter_settings (limit : Nat) (window : Rat) (now : ℕ → Time) (n : ℕ) :
    (guardAfter limit window now n).limit = limit ∧
      (guardAfter limit window now n).window = window := by
  induction n with
  | zero => exact ⟨rfl, rfl⟩
  | succ n ih =>
      obtain ⟨hlimit, hwindow⟩ :=
        (guardAfter limit window now n).tryAcquire_settings (now n)
      exact ⟨hlimit.trans ih.1, hwindow.trans ih.2⟩

/-- A call of the guard is a call of the window. -/
theorem guard_take (limit : Nat) (window : Rat) (now : ℕ → Time) (n : ℕ) :
    (guardAfter limit window now (n + 1)).calls
        = (Window.take limit window (guardAfter limit window now n).calls (now n)).1 ∧
      guardGranted limit window now n
        = (Window.take limit window (guardAfter limit window now n).calls (now n)).2 := by
  have h := (guardAfter limit window now n).tryAcquire_calls (now n)
  obtain ⟨hlimit, hwindow⟩ := guardAfter_settings limit window now n
  rw [hlimit, hwindow] at h
  exact h

/-- **The guard's deque against the whole history**, before every call. -/
theorem guard_kept (limit : Nat) (hw : 0 ≤ window) (hmono : Monotone now) (n : ℕ) :
    Window.Kept limit window (guardHistory limit window now n)
      (guardAfter limit window now n).calls (now (n - 1)) := by
  induction n with
  | zero => exact Window.kept_nil limit window (now 0)
  | succ n ih =>
      obtain ⟨hcalls, hgranted⟩ := guard_take limit window now n
      have hstep := ih.take (hmono (Nat.sub_le n 1)) hw
      rw [← hcalls, ← hgranted] at hstep
      exact hstep

/-- What the window holds at a call are the grants in the interval that ends with it. -/
theorem recent_length (hw : 0 ≤ window) (hmono : Monotone now) (n : ℕ) :
    (Window.recent window (guardAfter limit window now n).calls (now n)).length
      = grantedBetween limit window now n (now n - window) (now n) := by
  have hkept := guard_kept limit hw hmono n
  have hle : now (n - 1) ≤ now n := hmono (Nat.sub_le n 1)
  rw [hkept.recent_eq hle, ← List.countP_eq_length_filter, ← countP_guardHistory]
  refine List.countP_congr fun t ht => ?_
  simp only [decide_eq_true_eq]
  exact ⟨fun h => ⟨h, (hkept.past t ht).trans hle⟩, And.left⟩

/--
**The guard is exact.** It grants a call if and only if it granted fewer than `limit` in
the closed window that ends with it, so no closed window has more than `limit` of them.
-/
theorem guard_exact (limit : Nat) (window : Rat) (hw : 0 ≤ window) (now : ℕ → Time)
    (hmono : Monotone now) :
    (∀ n, guardGranted limit window now n = true ↔
      grantedBetween limit window now n (now n - window) (now n) < limit) ∧
    ∀ n start, grantedBetween limit window now n start (start + window) ≤ limit := by
  refine ⟨fun n => ?_, fun n start => ?_⟩
  · rw [(guard_take limit window now n).2, ← recent_length hw hmono n]
    unfold Window.take
    split
    · rename_i hfull
      exact ⟨fun h => absurd h Bool.false_ne_true, fun h => absurd hfull (not_le.mpr h)⟩
    · rename_i hroom
      exact ⟨fun _ => not_le.mp hroom, fun _ => rfl⟩
  · rw [← countP_guardHistory]
    exact (guard_kept limit hw hmono n).bound start

/-- Two calls a second under a limit of one: a call at the edge of the window still counts. -/
theorem guard_exact_at_edge :
    (∀ n, guardGranted 1 1 (fun n => (n / 2 : Nat)) n = true ↔
      grantedBetween 1 1 (fun n => (n / 2 : Nat)) n ((n / 2 : Nat) - 1) (n / 2 : Nat) < 1) ∧
    ∀ n start, grantedBetween 1 1 (fun n => (n / 2 : Nat)) n start (start + 1) ≤ 1 :=
  guard_exact 1 1 (by decide) (fun n => (n / 2 : Nat)) fun a b h => by
    dsimp only
    exact_mod_cast Nat.div_le_div_right h

end PromptQueue.Proof
