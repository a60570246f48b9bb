import Mathlib.Data.List.Basic

/-!
# Leases

A lease on one thing, as the list of operations that were carried out on it: it is
granted to an owner, renewed, given back, revoked from outside, or found overdue.
`late t now` says that a lease last heard of at `t` is overdue at `now`; nothing is
assumed about it, and nothing about the times either.

`run_none` reads a history backwards: a lease that was granted and is free again
was given back by its owner, was revoked, or was found overdue at a time late for
the last that was heard of the owner.
-/

namespace PromptQueue.Base

/-- What can happen to a lease. -/
inductive LeaseOp (ω τ : Type) where
  /-- It is handed to an owner. -/
  | grant (owner : ω) (now : τ)
  /-- An owner says it is alive. -/
  | renew (owner : ω) (now : τ)
  /-- An owner gives it back. -/
  | release (owner : ω)
  /-- It is taken, whoever has it. -/
  | revoke
  /-- It is taken if it is overdue. -/
  | expire (now : τ)

/-- Whether an operation is a grant. -/
def LeaseOp.isGrant {ω τ : Type} : LeaseOp ω τ → Bool
  | .grant _ _ => true
  | _ => false

namespace Lease

variable {ω τ : Type} [DecidableEq ω] (late : τ → τ → Prop) [∀ t now, Decidable (late t now)]

/-- The owner and the time it was last heard of; `none` when the lease is free. -/
abbrev Cell (ω τ : Type) : Type := Option (ω × τ)

/-- One operation; an owner that does not hold the lease changes nothing. -/
def step (c : Cell ω τ) : LeaseOp ω τ → Cell ω τ
  | .grant o now => some (o, now)
  | .renew o now => c.map fun p => if p.1 = o then (o, now) else p
  | .release o => c.filter fun p => p.1 ≠ o
  | .revoke => none
  | .expire now => c.filter fun p => ¬ late p.2 now

/-- Any number of operations. -/
def run (c : Cell ω τ) (ops : List (LeaseOp ω τ)) : Cell ω τ := ops.foldl (step late) c

/-- The last time an owner was heard of, from `t` on. -/
def lastHeard (o : ω) (t : τ) (ops : List (LeaseOp ω τ)) : τ :=
  ops.foldl (fun t op =>
    match op with
    | .renew o' now => if o' = o then now else t
    | _ => t) t

theorem run_cons (c : Cell ω τ) (op : LeaseOp ω τ) (ops : List (LeaseOp ω τ)) :
    run late c (op :: ops) = run late (step late c op) ops := rfl

theorem run_append (c : Cell ω τ) (ops ops' : List (LeaseOp ω τ)) :
    run late c (ops ++ ops') = run late (run late c ops) ops' := List.foldl_append

/-- What was never granted is free. -/
theorem run_ungranted {ops : List (LeaseOp ω τ)} (h : ∀ op ∈ ops, op.isGrant = false) :
    run late none ops = none := by
  induction ops with
  | nil => rfl
  | cons op ops ih =>
      have hstep : step late (none : Cell ω τ) op = none := by
        cases op with
        | grant o now => exact absurd (h _ List.mem_cons_self) nofun
        | _ => rfl
      rw [run_cons, hstep]
      exact ih fun x hx => h x (List.mem_cons_of_mem _ hx)

/-- What takes a lease from the owner `o` last heard of at `t`. -/
def Takes (o : ω) (t : τ) (op : LeaseOp ω τ) : Prop :=
  op = .release o ∨ op = .revoke ∨ ∃ now, op = .expire now ∧ late t now

/-- An operation that is no grant takes the lease or leaves it with its owner. -/
theorem takes_or_keeps (o : ω) (t : τ) {op : LeaseOp ω τ} (h : op.isGrant = false) :
    Takes late o t op ∨ step late (some (o, t)) op = some (o, lastHeard o t [op]) := by
  cases op with
  | grant o' now => cases h
  | revoke => exact .inl (.inr (.inl rfl))
  | renew o' now =>
      right
      by_cases ho : o = o'
      · simp [step, lastHeard, ho]
      · simp [step, lastHeard, ho, Ne.symm ho]
  | release o' =>
      by_cases ho : o = o'
      · exact .inl (.inl (by rw [ho]))
      · exact .inr (by simp [step, lastHeard, ho])
  | expire now =>
      by_cases hl : late t now
      · exact .inl (.inr (.inr ⟨now, rfl, hl⟩))
      · exact .inr (by simp [step, lastHeard, hl])

/--
**A lease that is free again was given up or was late.** The operation that took it
is found where the owner was last heard of at `lastHeard` of what came before.
-/
theorem run_none {o : ω} {t : τ} {ops : List (LeaseOp ω τ)}
    (h : run late (some (o, t)) ops = none) (hn : ∀ op ∈ ops, op.isGrant = false) :
    ∃ a op b, ops = a ++ op :: b ∧ Takes late o (lastHeard o t a) op := by
  induction ops generalizing t with
  | nil => cases h
  | cons op ops ih =>
      have hop := hn op List.mem_cons_self
      have hops : ∀ x ∈ ops, x.isGrant = false := fun x hx => hn x (List.mem_cons_of_mem _ hx)
      -- the first operation is the one, or the owner holds on and the rest decides
      rcases takes_or_keeps late o t hop with ht | hk
      · exact ⟨[], op, ops, rfl, ht⟩
      · rw [run_cons, hk] at h
        obtain ⟨a, x, b, rfl, ht⟩ := ih h hops
        exact ⟨op :: a, x, b, rfl, ht⟩

/-- As long as nobody is granted the lease it stays with its owner or is free. -/
theorem run_kept {o : ω} {t : τ} {ops : List (LeaseOp ω τ)} (h : run late (some (o, t)) ops ≠ none)
    (hn : ∀ op ∈ ops, op.isGrant = false) : ∃ t', run late (some (o, t)) ops = some (o, t') := by
  induction ops generalizing t with
  | nil => exact ⟨t, rfl⟩
  | cons op ops ih =>
      have hops : ∀ x ∈ ops, x.isGrant = false := fun x hx => hn x (List.mem_cons_of_mem _ hx)
      rw [run_cons] at h ⊢
      rcases takes_or_keeps late o t (hn op List.mem_cons_self) with ht | hk
      · have hfree : step late (some (o, t)) op = none := by
          rcases ht with rfl | rfl | ⟨now, rfl, hl⟩
          · simp [step]
          · rfl
          · simp [step, hl]
        -- once free it stays free without a grant
        rw [hfree] at h
        exact absurd (run_ungranted late hops) h
      · rw [hk] at h ⊢
        exact ih h hops

end Lease

end PromptQueue.Base
