import PromptQueue.Base.Machine
import Mathlib.Data.List.GetD
import Mathlib.Order.Lattice.Nat
import Mathlib.Order.Filter.AtTopBot.Basic
import Mathlib.Order.Filter.Finite

/-!
# Runs that never end

What has to happen in the end is a property of infinite runs. They are sequences of states and
labels here, and *from some point on* and *again and again* are the filter quantifiers of
`Filter.atTop`: fairness is an assumption of the second kind, and a run comes to rest by the first.
-/

namespace PromptQueue.Base

open Filter

variable {σ ε : Type}

/-- A sequence of numbers that neither falls nor grows for ever comes to a halt. -/
theorem settles {g : Nat → Nat} {B : Nat} (hmono : ∀ n, g n ≤ g (n + 1)) (hB : ∀ n, g n ≤ B) :
    ∃ N, ∀ n, N ≤ n → g n = g N := by
  have hbdd : BddAbove (Set.range g) := ⟨B, by rintro _ ⟨n, rfl⟩; exact hB n⟩
  obtain ⟨N, hN⟩ := Nat.sSup_mem (Set.range_nonempty g) hbdd
  refine ⟨N, fun n hn => le_antisymm ?_ (monotone_nat_of_le_succ hmono hn)⟩
  rw [hN]
  exact le_csSup hbdd (Set.mem_range_self n)

/-- An infinite run. -/
structure Trace (m : Machine σ ε) where
  state : Nat → σ
  label : Nat → ε
  start : state 0 = m.init
  next : ∀ n, m.step (state n) (label n) = some (state (n + 1))

namespace Trace

variable {m : Machine σ ε} {τ : Trace m}

/-- The first labels. -/
def labels (τ : Trace m) (n : Nat) : List ε := (List.range n).map τ.label

theorem labels_succ (τ : Trace m) (n : Nat) : τ.labels (n + 1) = τ.labels n ++ [τ.label n] := by
  unfold labels
  rw [List.range_succ, List.map_append]
  rfl

/-- What an infinite run starts with is a run. -/
theorem run_labels (τ : Trace m) (n : Nat) : m.run m.init (τ.labels n) = some (τ.state n) := by
  induction n with
  | zero => exact congrArg some τ.start.symm
  | succ n ih =>
      rw [labels_succ]
      exact Machine.run_concat ih (τ.next n)

/-- It reaches what a run whose steps meet its own conditions can reach. -/
theorem reachableWhere (τ : Trace m) {H : σ → ε → Prop}
    (hH : ∀ n, H (τ.state n) (τ.label n)) (n : Nat) :
    m.ReachableWhere H (τ.state n) := by
  induction n with
  | zero =>
      rw [τ.start]
      exact Machine.ReachableWhere.init
  | succ n ih => exact ih.tail (hH n) (τ.next n)

theorem reachable (τ : Trace m) (n : Nat) : m.Reachable (τ.state n) :=
  τ.reachableWhere (fun _ => trivial) n

/-- What holds at some point and is kept by every step after it holds from there on. -/
theorem stays (τ : Trace m) {P : σ → Prop} {N : Nat} (hN : P (τ.state N))
    (hstep : ∀ n, N ≤ n → P (τ.state n) → P (τ.state (n + 1))) :
    ∀ n, N ≤ n → P (τ.state n) := by
  intro n hn
  induction n, hn using Nat.le_induction with
  | base => exact hN
  | succ n hn ih => exact hstep n hn ih

/-- **What happens a bounded number of times stops happening.** -/
theorem stops (τ : Trace m) {p : ε → Bool} {B : Nat} (h : ∀ n, (τ.labels n).countP p ≤ B) :
    ∀ᶠ n in atTop, p (τ.label n) = false := by
  have hstep : ∀ n, (τ.labels (n + 1)).countP p
      = (τ.labels n).countP p + if p (τ.label n) = true then 1 else 0 := by
    intro n
    rw [labels_succ, List.countP_append, List.countP_singleton]
  obtain ⟨N, hN⟩ := settles (fun n => by rw [hstep]; exact Nat.le_add_right _ _) h
  refine eventually_atTop.mpr ⟨N, fun n hn => ?_⟩
  have hnow := hN n hn
  have hthen := hN (n + 1) (Nat.le_succ_of_le hn)
  rw [hstep] at hthen
  cases hp : p (τ.label n) with
  | false => rfl
  | true =>
      rw [hp, if_pos rfl] at hthen
      omega

/-- Weak fairness: what is enabled from some point on is done. -/
def WeaklyFair (τ : Trace m) (P : σ → Prop) (A : ε → Prop) : Prop :=
  ∃ᶠ n in atTop, P (τ.state n) → A (τ.label n)

theorem WeaklyFair.imp {P Q : σ → Prop} {A : ε → Prop} (h : τ.WeaklyFair P A)
    (hQ : ∀ s, Q s → P s) : τ.WeaklyFair Q A :=
  h.mono fun _ hA hq => hA (hQ _ hq)

/-- **The rule of weak fairness.** What nothing else disables is done in the end. -/
theorem WeaklyFair.happens {P : σ → Prop} {A : ε → Prop} (h : τ.WeaklyFair P A) {N : Nat}
    (hN : P (τ.state N))
    (hkeep : ∀ n, N ≤ n → P (τ.state n) → ¬ A (τ.label n) → P (τ.state (n + 1))) :
    ∃ n, N ≤ n ∧ P (τ.state n) ∧ A (τ.label n) := by
  by_contra hno
  have hnever : ∀ n, N ≤ n → P (τ.state n) → ¬ A (τ.label n) :=
    fun n hn hP hA => hno ⟨n, hn, hP, hA⟩
  have hall := τ.stays hN fun n hn hP => hkeep n hn hP (hnever n hn hP)
  obtain ⟨n, hn, hfair⟩ := frequently_atTop.mp h N
  exact hnever n hn (hall n hn) (hfair (hall n hn))

/-- An infinite run whose labels are given, each enabled where the ones before it lead. -/
theorem exists_of_steps {P : Nat → σ → Prop} {f : Nat → ε} (hinit : P 0 m.init)
    (hstep : ∀ n s, P n s → ∃ t, m.step s (f n) = some t ∧ P (n + 1) t) :
    ∃ τ : Trace m, ∀ n, τ.label n = f n ∧ P n (τ.state n) := by
  choose g hg hP using hstep
  let states : (n : Nat) → { s // P n s } := fun n =>
    Nat.rec ⟨m.init, hinit⟩ (fun n s => ⟨g n s.1 s.2, hP n s.1 s.2⟩) n
  exact ⟨⟨fun n => (states n).1, f, rfl, fun n => hg n (states n).1 (states n).2⟩,
    fun n => ⟨rfl, (states n).2⟩⟩

/--
**An infinite run with a given beginning,** that goes on as it is told: all it needs is a
property under which each of the labels ahead is enabled, and which it keeps.
-/
theorem exists_of_run {H : σ → ε → Prop} [∀ s e, Decidable (H s e)] {s : σ} {es : List ε}
    (h : m.runWhere H m.init es = some s) {Q : σ → Prop} (hs : Q s) (f : Nat → ε)
    (hstep : ∀ n t, Q t → H t (f n) ∧ ∃ u, m.step t (f n) = some u ∧ Q u) :
    ∃ τ : Trace m, (∀ n, H (τ.state n) (τ.label n)) ∧
      ∀ n, es.length ≤ n → τ.label n = f n ∧ Q (τ.state n) := by
  -- inside the beginning the rest of it is still to run
  let P : Nat → σ → Prop := fun n t =>
    (n < es.length → m.runWhere H t (es.drop n) = some s) ∧ (es.length ≤ n → Q t)
  have hinit : P 0 m.init := by
    refine ⟨fun _ => h, fun hn => ?_⟩
    rw [List.eq_nil_of_length_eq_zero (Nat.le_zero.mp hn)] at h
    cases h
    exact hs
  have hnext : ∀ n t, P n t → H t (es.getD n (f n)) ∧
      ∃ u, m.step t (es.getD n (f n)) = some u ∧ P (n + 1) u := by
    intro n t ht
    by_cases hn : n < es.length
    · have hrun := ht.1 hn
      rw [List.drop_eq_getElem_cons hn, Machine.runWhere] at hrun
      rw [List.getD_eq_getElem _ _ hn]
      split at hrun
      · rename_i hH
        obtain ⟨u, hu, hrun⟩ := Option.bind_eq_some_iff.mp hrun
        refine ⟨hH, u, hu, fun _ => hrun, fun hlast => ?_⟩
        rw [List.drop_eq_nil_of_le hlast] at hrun
        cases hrun
        exact hs
      · cases hrun
    · have hn := Nat.not_lt.mp hn
      rw [List.getD_eq_default _ _ hn]
      obtain ⟨hH, u, hu, hQ⟩ := hstep n t (ht.2 hn)
      exact ⟨hH, u, hu, fun hlt => absurd hlt (by omega), fun _ => hQ⟩
  obtain ⟨τ, hτ⟩ := exists_of_steps hinit fun n t ht => (hnext n t ht).2
  refine ⟨τ, fun n => ?_, fun n hn => ⟨(hτ n).1.trans ?_, (hτ n).2.2 hn⟩⟩
  · rw [(hτ n).1]
    exact (hnext n _ (hτ n).2).1
  · exact List.getD_eq_default _ _ hn

end Trace

end PromptQueue.Base
