import PromptQueue.Base.Machine
import Mathlib

/-!
# Accounts

A bound on the work of a run is kept like an account: what the work costs is paid from a
balance, and the balance is a sum over many parts of a state of which a step changes one.
The first lemmas are about such sums, the rule at the end about the account.
-/

namespace PromptQueue.Base

/-- A sum over a list of distinct things, all but one of which go down. -/
theorem sum_map_le_of_others {α : Type} [DecidableEq α] {l : List α} (hl : l.Nodup) {a : α}
    (ha : a ∈ l) {f g : α → Nat} (h : ∀ b ∈ l, b ≠ a → f b ≤ g b) :
    (l.map f).sum + g a ≤ (l.map g).sum + f a := by
  rw [← List.sum_map_erase f ha, ← List.sum_map_erase g ha]
  have hrest : ((l.erase a).map f).sum ≤ ((l.erase a).map g).sum := by
    refine List.sum_le_sum fun b hb => ?_
    obtain ⟨hne, hb⟩ := (List.Nodup.mem_erase_iff hl).mp hb
    exact h b hb hne
  omega

/-- The same where all but one stay as they are. -/
theorem sum_map_of_others {α : Type} [DecidableEq α] {l : List α} (hl : l.Nodup) {a : α}
    (ha : a ∈ l) {f g : α → Nat} (h : ∀ b ∈ l, b ≠ a → f b = g b) :
    (l.map f).sum + g a = (l.map g).sum + f a := by
  have hle := sum_map_le_of_others hl ha fun b hb hne => (h b hb hne).le
  have hge := sum_map_le_of_others hl ha fun b hb hne => (h b hb hne).ge
  omega

/-- A count of which all but one thing stay as they are. -/
theorem countP_of_others {α : Type} [DecidableEq α] {l : List α} (hl : l.Nodup) {a : α}
    (ha : a ∈ l) {p q : α → Bool} (h : ∀ b ∈ l, b ≠ a → p b = q b) :
    l.countP p + (q a).toNat = l.countP q + (p a).toNat := by
  have hrest : (l.erase a).countP p = (l.erase a).countP q := by
    refine List.countP_congr fun b hb => ?_
    obtain ⟨hne, hb⟩ := (List.Nodup.mem_erase_iff hl).mp hb
    rw [h b hb hne]
  rw [(List.perm_cons_erase ha).countP_eq p, (List.perm_cons_erase ha).countP_eq q,
    List.countP_cons, List.countP_cons, hrest]
  cases p a <;> cases q a <;> simp

/-- A sum over finitely many places, one of which is given a new value. -/
theorem sum_update {α β : Type} [DecidableEq α] {F : Finset α} {a : α} (ha : a ∈ F)
    (f : α → β) (x : β) (g : β → Nat) :
    ∑ i ∈ F, g (Function.update f a x i) + g (f a) = ∑ i ∈ F, g (f i) + g x := by
  rw [← Finset.add_sum_erase F _ ha, ← Finset.add_sum_erase F (fun i => g (f i)) ha]
  have hrest : ∑ i ∈ F.erase a, g (Function.update f a x i) = ∑ i ∈ F.erase a, g (f i) := by
    refine Finset.sum_congr rfl fun i hi => ?_
    rw [Function.update_of_ne (Finset.ne_of_mem_erase hi)]
  rw [hrest, Function.update_self]
  omega

variable {σ ε : Type} {m : Machine σ ε}

/--
**Work is paid for.** If a step that works takes one from the balance, a step that bills puts
in what it adds to the bill, and no other step puts in anything, a run works no more often than
it was billed for.
-/
theorem Machine.work_le_bill (balance bill : σ → Nat) (works : ε → Bool) {I : σ → Prop}
    {s t : σ} {es : List ε} (hI : I s) (h : m.run s es = some t)
    (hstep : ∀ {u v : σ} {e : ε}, e ∈ es → I u → m.step u e = some v →
      I v ∧ balance v + (works e).toNat + bill u ≤ balance u + bill v) :
    balance t + es.countP works + bill s ≤ balance s + bill t := by
  have key : I t ∧ balance t + es.countP works + bill s ≤ balance s + bill t := by
    refine Meets.along (H := Always) (I := fun fs u => I u ∧
      balance u + fs.countP works + bill s ≤ balance s + bill u) ⟨hI, by simp⟩
      (meets_always s es) h ?_
    intro fs gs u v e hes _ hi _ hs
    obtain ⟨hv, hle⟩ := hstep (by rw [hes]; simp) hi.1 hs
    refine ⟨hv, ?_⟩
    have hold := hi.2
    rw [List.countP_append, List.countP_singleton]
    cases hw : works e <;> simp only [hw, Bool.toNat_true, Bool.toNat_false, if_true,
      Bool.false_eq_true, if_false] at hle ⊢ <;> omega
  exact key.2

end PromptQueue.Base
