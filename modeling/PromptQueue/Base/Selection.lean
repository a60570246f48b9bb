import Mathlib.Data.List.Perm.Basic
import Mathlib.Data.List.Pairwise
import Mathlib.Order.Defs.PartialOrder

/-!
# Taking the first

A pool of elements under a relation, and a process that takes one element after the
other out of it, each time one that precedes all that stay. Nothing is asked of the
relation: what is taken precedes what is left at the time, and that is enough for the
elements to come out in order, without one of them lost or taken twice.

Where the pool is ordered by a measure and only its first element is looked at, the
measure of that one decides whether any of them is above a bound.
-/

namespace PromptQueue.Base

variable {α : Type} {r : α → α → Prop}

/-- The elements taken out of a pool, in this order, and what is left in it. -/
inductive Picks (r : α → α → Prop) : List α → List α → List α → Prop where
  | nil {pool : List α} : Picks r pool [] pool
  | cons {pool pool' rest xs : List α} {x : α} (hp : pool.Perm (x :: pool'))
      (hx : ∀ y ∈ pool', r x y) (h : Picks r pool' xs rest) : Picks r pool (x :: xs) rest

namespace Picks

variable {pool xs rest : List α}

/-- Nothing is lost, and nothing appears. -/
theorem perm (h : Picks r pool xs rest) : pool.Perm (xs ++ rest) := by
  induction h with
  | nil => exact List.Perm.refl _
  | cons hp hx h ih => exact hp.trans (ih.cons _)

theorem mem_iff (h : Picks r pool xs rest) {x : α} : x ∈ pool ↔ x ∈ xs ∨ x ∈ rest := by
  rw [h.perm.mem_iff, List.mem_append]

theorem length (h : Picks r pool xs rest) : pool.length = xs.length + rest.length := by
  rw [h.perm.length_eq, List.length_append]

/-- **The elements come out in order.** -/
theorem sorted (h : Picks r pool xs rest) : xs.Pairwise r := by
  induction h with
  | nil => exact List.Pairwise.nil
  | cons hp hx h ih =>
      refine List.Pairwise.cons (fun y hy => ?_) ih
      exact hx y (h.mem_iff.mpr (.inl hy))

/-- **What was taken precedes what is left.** -/
theorem before (h : Picks r pool xs rest) : ∀ x ∈ xs, ∀ y ∈ rest, r x y := by
  induction h with
  | nil => exact fun x hx => absurd hx List.not_mem_nil
  | cons hp hx h ih =>
      intro x hmem y hy
      rcases List.mem_cons.mp hmem with rfl | hmem
      · exact hx y (h.mem_iff.mpr (.inr hy))
      · exact ih x hmem y hy

end Picks

/-! ## By a measure -/

section
variable {β : Type} [Preorder β] {f : α → β} {l : List α} {first : Option α} {t : β}

/-- What a query for the first element finds: a maximal one, or nothing in an empty list. -/
def IsTop (f : α → β) (l : List α) : Option α → Prop
  | none => l = []
  | some x => x ∈ l ∧ ∀ y ∈ l, f y ≤ f x

/-- **To reject the first element is to reject all of them.** -/
theorem IsTop.rejects (h : IsTop f l first) (hr : ∀ x ∈ first, f x ≤ t) : ∀ y ∈ l, f y ≤ t := by
  intro y hy
  cases first with
  | none =>
      rw [show l = [] from h] at hy
      cases hy
  | some x => exact le_trans (h.2 y hy) (hr x rfl)

end

end PromptQueue.Base
