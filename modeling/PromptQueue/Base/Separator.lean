import Mathlib.Data.List.Basic

/-!
# Joining and cutting lists

Two lists joined with a separator between them can be cut apart again at the
separator, unless it occurs elsewhere: then the same list is joined from other pairs,
and `Shifted` names them. Cutting by position instead is always unambiguous; `slice` is
what lies between two positions.
-/

namespace PromptQueue.Base

variable {α : Type} {sep : α} {xs ys xs' ys' l : List α} {a b n : Nat}

/-! ## By a separator -/

/-- The first pair ends its first list where the second pair has its separator and more. -/
def Shifted (sep : α) (xs ys xs' ys' : List α) : Prop :=
  ∃ between, xs = xs' ++ sep :: between ∧ ys' = between ++ sep :: ys

/-- A shifted pair is another pair. -/
theorem Shifted.ne (h : Shifted sep xs ys xs' ys') : xs ≠ xs' := by
  obtain ⟨between, rfl, -⟩ := h
  simp

/-- **What two pairs are joined to:** one list if they are one pair, or if the cut is shifted. -/
theorem join_eq_iff : xs ++ sep :: ys = xs' ++ sep :: ys' ↔
    (xs = xs' ∧ ys = ys') ∨ Shifted sep xs ys xs' ys' ∨ Shifted sep xs' ys' xs ys := by
  constructor
  · intro h
    rcases List.append_eq_append_iff.mp h with ⟨zs, hxs, hys⟩ | ⟨zs, hxs, hys⟩
    · -- the cut of the second pair is the same, or further right
      cases zs with
      | nil =>
          rw [List.append_nil] at hxs
          exact .inl ⟨hxs.symm, (List.cons.inj hys).2⟩
      | cons z between =>
          rw [List.cons_append, List.cons.injEq] at hys
          obtain ⟨rfl, hrest⟩ := hys
          exact .inr (.inr ⟨between, hxs, hrest⟩)
    · cases zs with
      | nil =>
          rw [List.append_nil] at hxs
          exact .inl ⟨hxs, ((List.cons.inj hys).2).symm⟩
      | cons z between =>
          rw [List.cons_append, List.cons.injEq] at hys
          obtain ⟨rfl, hrest⟩ := hys
          exact .inr (.inl ⟨between, hxs, hrest⟩)
  · rintro (⟨rfl, rfl⟩ | ⟨between, rfl, rfl⟩ | ⟨between, rfl, rfl⟩)
    · rfl
    · rw [List.append_assoc, List.cons_append]
    · rw [List.append_assoc, List.cons_append]

/-! ## By position -/

/-- `l[a:b]`. -/
def slice (l : List α) (a b : Nat) : List α := (l.drop a).take (b - a)

/-- A slice that lies inside the list has its own length. -/
theorem slice_length (h : b ≤ l.length) : (slice l a b).length = b - a := by
  rw [slice, List.length_take, List.length_drop]
  omega

/-- A slice goes on where the one before it ends. -/
theorem take_append_slice (h : a ≤ b) : l.take a ++ slice l a b = l.take b := by
  rw [slice, ← List.take_add, Nat.add_sub_cancel' h]

/-- What lies before a position depends on nothing after it. -/
theorem slice_take (h : b ≤ n) : slice (l.take n) a b = slice l a b := by
  rw [slice, slice, List.drop_take, List.take_take]
  congr 1
  omega

end PromptQueue.Base
