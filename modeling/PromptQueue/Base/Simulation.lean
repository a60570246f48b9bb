import PromptQueue.Base.Machine

/-!
# Simulations

One machine does what another does when every step of the first is answered by steps of the
second, none or many, that end in related states. The side conditions come along: what the
runs of the first are asked has to give what is asked of the second. Then whatever the first
reaches, the second reaches too.
-/

namespace PromptQueue.Base

variable {σ ε τ δ : Type}

/-- Every run of `m` within `H` is, step by step, a run of `a` within `K`. -/
structure Simulation (m : Machine σ ε) (H : σ → ε → Prop) (a : Machine τ δ) (K : τ → δ → Prop)
    (R : σ → τ → Prop) : Prop where
  /-- Both start in related states. -/
  init : R m.init a.init
  /-- A step is answered by a path. -/
  step : ∀ {s t : σ} {e : ε} {x : τ}, m.ReachableWhere H s → a.ReachableWhere K x → R s x →
    H s e → m.step s e = some t → ∃ y, a.PathWhere K x y ∧ R t y

namespace Simulation

variable {m : Machine σ ε} {H : σ → ε → Prop} {a : Machine τ δ} {K : τ → δ → Prop}
variable {R : σ → τ → Prop}

/-- **A path is answered by a path.** -/
theorem path (h : Simulation m H a K R) {s t : σ} {x : τ} (hs : m.ReachableWhere H s)
    (hx : a.ReachableWhere K x) (hR : R s x) (hp : m.PathWhere H s t) :
    ∃ y, a.PathWhere K x y ∧ R t y := by
  have key : m.ReachableWhere H t ∧ ∃ y, a.PathWhere K x y ∧ R t y := by
    induction hp with
    | refl => exact ⟨hs, x, Relation.ReflTransGen.refl, hR⟩
    | tail _ hst ih =>
        obtain ⟨e, he, hst⟩ := hst
        obtain ⟨hu, y, hy, hRy⟩ := ih
        obtain ⟨z, hz, hRz⟩ := h.step hu (Relation.ReflTransGen.trans hx hy) hRy he hst
        exact ⟨hu.tail he hst, z, Relation.ReflTransGen.trans hy hz, hRz⟩
  exact key.2

/-- **What `m` reaches, `a` reaches.** -/
theorem reachable (h : Simulation m H a K R) {s : σ} (hs : m.ReachableWhere H s) :
    ∃ x, a.ReachableWhere K x ∧ R s x :=
  h.path Machine.ReachableWhere.init Machine.ReachableWhere.init h.init hs

end Simulation

end PromptQueue.Base
