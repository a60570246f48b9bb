import Mathlib.Logic.Relation

/-!
# Machines and their runs

A machine is an initial state and a partial step function on labels. Runs are
kept relational, with a side condition every step has to meet: `ReachableWhere H`
is what a run can reach when each of its steps satisfies `H` in the state it is
taken from, and plain reachability is the case where `H` asks nothing.

The side condition is what makes a conditional safety theorem sayable — *in every
run whose steps all meet `H`* — and the two induction rules below are the only
inductions over runs the development performs.
-/

namespace PromptQueue.Base

/-- A deterministic machine: the label settles every choice a step makes. -/
structure Machine (σ ε : Type) where
  /-- Where every run starts. -/
  init : σ
  /-- One step; `none` when the label is not enabled. -/
  step : σ → ε → Option σ

namespace Machine

variable {σ ε : Type} {m : Machine σ ε} {H : σ → ε → Prop}

/-- One step that meets the side condition. -/
def StepWhere (m : Machine σ ε) (H : σ → ε → Prop) (s t : σ) : Prop :=
  ∃ e, H s e ∧ m.step s e = some t

/-- Any number of steps, each meeting the side condition. -/
def PathWhere (m : Machine σ ε) (H : σ → ε → Prop) : σ → σ → Prop :=
  Relation.ReflTransGen (m.StepWhere H)

/-- What a run whose steps all meet the side condition can reach. -/
def ReachableWhere (m : Machine σ ε) (H : σ → ε → Prop) (s : σ) : Prop :=
  m.PathWhere H m.init s

/-- The side condition that asks nothing. -/
def Always : σ → ε → Prop := fun _ _ => True

instance (s : σ) (e : ε) : Decidable (Always s e) := isTrue trivial

/-- What any run at all can reach. -/
def Reachable (m : Machine σ ε) (s : σ) : Prop := m.ReachableWhere Always s

theorem ReachableWhere.init : m.ReachableWhere H m.init := Relation.ReflTransGen.refl

theorem ReachableWhere.tail {s t : σ} {e : ε} (h : m.ReachableWhere H s) (he : H s e)
    (hs : m.step s e = some t) : m.ReachableWhere H t :=
  Relation.ReflTransGen.tail h ⟨e, he, hs⟩

/-- A path that asks more of its steps is a path. -/
theorem PathWhere.mono {K : σ → ε → Prop} {s t : σ} (hp : m.PathWhere K s t)
    (hK : ∀ u e, K u e → H u e) : m.PathWhere H s t := by
  refine Relation.ReflTransGen.mono (fun u v hst => ?_) s t hp
  obtain ⟨e, he, hs⟩ := hst
  exact ⟨e, hK u e he, hs⟩

/-- A side condition that follows from another wherever the other leads. -/
theorem ReachableWhere.imp {K : σ → ε → Prop} {s : σ} (h : m.ReachableWhere H s)
    (himp : ∀ t e, m.ReachableWhere H t → H t e → K t e) : m.ReachableWhere K s := by
  have key : m.ReachableWhere K s ∧ m.ReachableWhere H s := by
    induction h with
    | refl => exact ⟨Relation.ReflTransGen.refl, Relation.ReflTransGen.refl⟩
    | tail _ hst ih =>
        obtain ⟨e, he, hst⟩ := hst
        exact ⟨ih.1.tail (himp _ e ih.2 he) hst, ih.2.tail he hst⟩
  exact key.1

/-- **Invariance along a path** that asks more of its steps than the run that led to it. -/
theorem PathWhere.invariant_within {K : σ → ε → Prop} {I : σ → Prop} {s t : σ}
    (hp : m.PathWhere K s t) (hs : I s) (hr : m.ReachableWhere H s) (hK : ∀ u e, K u e → H u e)
    (hstep : ∀ {u v : σ} {e : ε}, m.ReachableWhere H u → I u → K u e →
      m.step u e = some v → I v) : I t := by
  have key : I t ∧ m.ReachableWhere H t := by
    induction hp with
    | refl => exact ⟨hs, hr⟩
    | tail _ hst ih =>
        obtain ⟨e, he, hst⟩ := hst
        exact ⟨hstep ih.2 ih.1 he hst, ih.2.tail (hK _ e he) hst⟩
  exact key.1

/--
**Invariance along a path.** What holds where the path starts, and is kept by
every step that meets the side condition, holds where the path ends.
-/
theorem PathWhere.invariant {I : σ → Prop} {s t : σ} (hp : m.PathWhere H s t) (hs : I s)
    (hr : m.ReachableWhere H s)
    (hstep : ∀ {u v : σ} {e : ε}, m.ReachableWhere H u → I u → H u e →
      m.step u e = some v → I v) : I t :=
  hp.invariant_within hs hr (fun _ _ he => he) hstep

/-- **Invariance.** The rule every safety proof uses. -/
theorem ReachableWhere.invariant {I : σ → Prop} {s : σ} (h : m.ReachableWhere H s)
    (hinit : I m.init)
    (hstep : ∀ {u v : σ} {e : ε}, m.ReachableWhere H u → I u → H u e →
      m.step u e = some v → I v) : I s :=
  PathWhere.invariant h hinit ReachableWhere.init hstep

/-! ## Replaying a list of labels -/

/-- Run a list of labels, stopping at the first one that is not enabled. -/
def run (m : Machine σ ε) : σ → List ε → Option σ
  | s, [] => some s
  | s, e :: es => (m.step s e).bind fun t => m.run t es

/-- The same, stopping as well at a label that misses the side condition. -/
def runWhere (m : Machine σ ε) (H : σ → ε → Prop) [∀ s e, Decidable (H s e)] :
    σ → List ε → Option σ
  | s, [] => some s
  | s, e :: es => if H s e then (m.step s e).bind fun t => m.runWhere H t es else none

theorem path_of_runWhere [∀ s e, Decidable (H s e)] {s t : σ} {es : List ε}
    (h : m.runWhere H s es = some t) : m.PathWhere H s t := by
  induction es generalizing s with
  | nil => cases h; exact Relation.ReflTransGen.refl
  | cons e es ih =>
      rw [runWhere] at h
      split at h
      · rename_i he
        obtain ⟨u, hu, h⟩ := Option.bind_eq_some_iff.mp h
        exact Relation.ReflTransGen.head ⟨e, he, hu⟩ (ih h)
      · cases h

theorem run_of_runWhere [∀ s e, Decidable (H s e)] {s t : σ} {es : List ε}
    (h : m.runWhere H s es = some t) : m.run s es = some t := by
  induction es generalizing s with
  | nil => exact h
  | cons e es ih =>
      rw [runWhere] at h
      split at h
      · obtain ⟨u, hu, h⟩ := Option.bind_eq_some_iff.mp h
        exact Option.bind_eq_some_iff.mpr ⟨u, hu, ih h⟩
      · cases h

theorem path_of_run {s t : σ} {es : List ε} (h : m.run s es = some t) :
    m.PathWhere Always s t := by
  induction es generalizing s with
  | nil => cases h; exact Relation.ReflTransGen.refl
  | cons e es ih =>
      obtain ⟨u, hu, h⟩ := Option.bind_eq_some_iff.mp h
      exact Relation.ReflTransGen.head ⟨e, trivial, hu⟩ (ih h)

/-- A replay from the initial state whose result passes a test reaches such a state. -/
theorem reachable_of_run {E : List ε} {p : σ → Bool} (h : (m.run m.init E).any p = true) :
    ∃ s, m.run m.init E = some s ∧ m.Reachable s ∧ p s = true := by
  cases hs : m.run m.init E with
  | none => rw [hs] at h; cases h
  | some s => rw [hs] at h; exact ⟨s, rfl, path_of_run hs, h⟩

/-- The same under a side condition. -/
theorem reachableWhere_of_run [∀ s e, Decidable (H s e)] {E : List ε} {p : σ → Bool}
    (h : (m.runWhere H m.init E).any p = true) : ∃ s, m.ReachableWhere H s ∧ p s = true := by
  cases hs : m.runWhere H m.init E with
  | none => rw [hs] at h; cases h
  | some s => rw [hs] at h; exact ⟨s, path_of_runWhere hs, h⟩

/--
A replay in two legs, each under a condition of its own: a state it passes through,
and the state it ends in.
-/
theorem legs_of_run {K : σ → ε → Prop} [∀ s e, Decidable (H s e)] [∀ s e, Decidable (K s e)]
    {E F : List ε} {p q : σ → Bool}
    (h : ((m.runWhere H m.init E).any fun s => p s && (m.runWhere K s F).any q) = true) :
    ∃ s t, m.ReachableWhere H s ∧ m.PathWhere K s t ∧ p s = true ∧ q t = true := by
  obtain ⟨s, hs, hp⟩ := reachableWhere_of_run h
  obtain ⟨hp, hq⟩ := Bool.and_eq_true_iff.mp hp
  cases ht : m.runWhere K s F with
  | none => rw [ht] at hq; cases hq
  | some t => rw [ht] at hq; exact ⟨s, t, hs, path_of_runWhere ht, hp, hq⟩

/-- A replay of a run under a side condition. -/
theorem exists_of_runWhere [∀ s e, Decidable (H s e)] {s : σ} {E : List ε} {p : σ → Bool}
    (h : (m.runWhere H s E).any p = true) : ∃ t, m.runWhere H s E = some t ∧ p t = true :=
  (Option.any_eq_true _ _).mp h

/-- A run in two parts. -/
theorem run_append (s : σ) (es fs : List ε) :
    m.run s (es ++ fs) = (m.run s es).bind fun t => m.run t fs := by
  induction es generalizing s with
  | nil => rfl
  | cons e es ih =>
      rw [List.cons_append, run, run, Option.bind_assoc]
      exact congrArg _ (funext fun t => ih t)

/-- **A machine that follows another** runs through the labels it shares with it. -/
theorem run_filterMap {τ δ : Type} {n : Machine τ δ} {f : σ → τ} {g : ε → Option δ}
    (hstep : ∀ {s t : σ} {e : ε}, m.step s e = some t → n.run (f s) (g e).toList = some (f t))
    {s t : σ} {es : List ε} (h : m.run s es = some t) :
    n.run (f s) (es.filterMap g) = some (f t) := by
  induction es generalizing s with
  | nil =>
      cases h
      rfl
  | cons e es ih =>
      obtain ⟨u, hu, h⟩ := Option.bind_eq_some_iff.mp h
      have hcons : (e :: es).filterMap g = (g e).toList ++ es.filterMap g := by
        rw [List.filterMap_cons]
        cases g e <;> rfl
      rw [hcons, run_append, hstep hu]
      exact ih h

/-! ## What can still happen -/

/-- Some continuation gets to such a state. -/
def Leads (m : Machine σ ε) (P : σ → Prop) (s : σ) : Prop :=
  ∃ t, m.PathWhere Always s t ∧ P t

theorem Leads.here {P : σ → Prop} {s : σ} (h : P s) : m.Leads P s :=
  ⟨s, Relation.ReflTransGen.refl, h⟩

/-- A step towards it. -/
theorem Leads.head {P : σ → Prop} {s t : σ} {e : ε} (hs : m.step s e = some t)
    (h : m.Leads P t) : m.Leads P s := by
  obtain ⟨u, hp, hu⟩ := h
  exact ⟨u, Relation.ReflTransGen.head ⟨e, trivial, hs⟩ hp, hu⟩

/-! ## Conditions on every step of a run -/

/-- Every step of the run of `es` from `s` meets the condition. -/
def Meets (m : Machine σ ε) (H : σ → ε → Prop) : σ → List ε → Prop
  | _, [] => True
  | s, e :: es => H s e ∧ ∀ t, m.step s e = some t → m.Meets H t es

/-- What every step of a run meets, every step of its first part meets. -/
theorem Meets.left {s : σ} {es fs : List ε} (h : m.Meets H s (es ++ fs)) : m.Meets H s es := by
  induction es generalizing s with
  | nil => trivial
  | cons e es ih => exact ⟨h.1, fun t ht => ih (h.2 t ht)⟩

/-- Conditions that agree wherever a run can get to are met by the same runs. -/
theorem meets_congr {K : σ → ε → Prop} (hiff : ∀ s e, m.Reachable s → (H s e ↔ K s e)) {s : σ}
    (h : m.Reachable s) (es : List ε) : m.Meets H s es ↔ m.Meets K s es := by
  induction es generalizing s with
  | nil => exact Iff.rfl
  | cons e es ih =>
      have next : ∀ t, m.step s e = some t → (m.Meets H t es ↔ m.Meets K t es) :=
        fun t ht => ih (h.tail trivial ht)
      refine and_congr (hiff s e h) ⟨fun hm t ht => ?_, fun hm t ht => ?_⟩
      · exact (next t ht).mp (hm t ht)
      · exact (next t ht).mpr (hm t ht)

/-- A run that meets the condition meets it at the step after any state it goes through. -/
theorem Meets.after {s t : σ} {es : List ε} {e : ε} (h : m.Meets H s (es ++ [e]))
    (hr : m.run s es = some t) : H t e := by
  induction es generalizing s with
  | nil => cases hr; exact h.1
  | cons e' es ih =>
      obtain ⟨u, hu, hr⟩ := Option.bind_eq_some_iff.mp hr
      exact ih (h.2 u hu) hr

/-- A run and one step more. -/
theorem meets_concat {s t : σ} {es : List ε} {e : ε} (hr : m.run s es = some t) :
    m.Meets H s (es ++ [e]) ↔ m.Meets H s es ∧ H t e := by
  refine ⟨fun h => ⟨h.left, h.after hr⟩, fun h => ?_⟩
  induction es generalizing s with
  | nil =>
      cases hr
      exact ⟨h.2, fun _ _ => trivial⟩
  | cons e' es ih =>
      obtain ⟨u, hu, hr⟩ := Option.bind_eq_some_iff.mp hr
      refine ⟨h.1.1, fun v hv => ?_⟩
      cases Option.some.inj (hu.symm.trans hv)
      exact ih hr ⟨h.1.2 u hu, h.2⟩

/-- A condition that every label on the list meets anywhere. -/
theorem meets_of_forall {es : List ε} (h : ∀ e ∈ es, ∀ s, H s e) (s : σ) : m.Meets H s es := by
  induction es generalizing s with
  | nil => trivial
  | cons e es ih =>
      refine ⟨h e List.mem_cons_self s, fun t _ => ?_⟩
      exact ih (fun e' he' => h e' (List.mem_cons_of_mem _ he')) t

/-- A run under a side condition meets it. -/
theorem meets_of_runWhere [∀ s e, Decidable (H s e)] {s t : σ} {es : List ε}
    (h : m.runWhere H s es = some t) : m.Meets H s es := by
  induction es generalizing s with
  | nil => trivial
  | cons e es ih =>
      rw [runWhere] at h
      split at h
      · rename_i he
        obtain ⟨u, hu, h⟩ := Option.bind_eq_some_iff.mp h
        refine ⟨he, fun v hv => ?_⟩
        cases Option.some.inj (hu.symm.trans hv)
        exact ih h
      · cases h

/-- Every state the run of `es` from `s` goes through has the property. -/
def Throughout (m : Machine σ ε) (I : σ → Prop) (s : σ) (es : List ε) : Prop :=
  ∀ fs gs u, es = fs ++ gs → m.run s fs = some u → I u

/-- What holds throughout a run holds throughout what is left of it after a step. -/
theorem Throughout.tail {I : σ → Prop} {s t : σ} {e : ε} {es : List ε}
    (h : m.Throughout I s (e :: es)) (he : m.step s e = some t) : m.Throughout I t es := by
  intro fs gs u hes hr
  exact h (e :: fs) gs u (by rw [hes]; rfl) (Option.bind_eq_some_iff.mpr ⟨t, he, hr⟩)

/--
**What only some steps break.** If an invariant is kept by the steps that meet the
condition, and what it says is lost at those that do not, a run has it throughout
exactly when all its steps meet the condition.
-/
theorem throughout_iff_meets {I J : σ → Prop} {s t : σ} {es : List ε} (hs : J s)
    (h : m.run s es = some t) (hJ : ∀ {u : σ}, J u → I u)
    (hkeep : ∀ {u v : σ} {e : ε}, J u → H u e → m.step u e = some v → J v)
    (hbreak : ∀ {u v : σ} {e : ε}, J u → ¬ H u e → m.step u e = some v → ¬ I v) :
    m.Throughout I s es ↔ m.Meets H s es := by
  induction es generalizing s with
  | nil =>
      refine ⟨fun _ => trivial, fun _ fs gs u hes hr => ?_⟩
      rw [(List.append_eq_nil_iff.mp hes.symm).1] at hr
      cases hr
      exact hJ hs
  | cons e es ih =>
      obtain ⟨u, hu, h⟩ := Option.bind_eq_some_iff.mp h
      constructor
      · intro hall
        have hIu : I u := hall [e] es u rfl (Option.bind_eq_some_iff.mpr ⟨u, hu, rfl⟩)
        have he : H s e := Classical.byContradiction fun hn => hbreak hs hn hu hIu
        refine ⟨he, fun v hv => ?_⟩
        cases Option.some.inj (hu.symm.trans hv)
        exact (ih (hkeep hs he hu) h).mp (hall.tail hu)
      · intro hm fs gs v hes hr
        cases fs with
        | nil =>
            cases hr
            exact hJ hs
        | cons e' fs =>
            obtain ⟨rfl, rfl⟩ := List.cons.inj hes
            obtain ⟨v', hv', hr⟩ := Option.bind_eq_some_iff.mp hr
            cases Option.some.inj (hu.symm.trans hv')
            exact (ih (hkeep hs hm.1 hu) h).mpr (hm.2 _ hu) fs gs v rfl hr

/-- Some step of the run of `es` from `s` is like that, in the state it is taken from. -/
def Passes (m : Machine σ ε) (P : σ → ε → Prop) : σ → List ε → Prop
  | _, [] => False
  | s, e :: es => P s e ∨ ∃ t, m.step s e = some t ∧ m.Passes P t es

/-- A run in two parts passes what its second part starts with. -/
theorem passes_of_run {P : σ → ε → Prop} {s t : σ} {es fs : List ε} {e : ε}
    (h : m.run s es = some t) (he : P t e) : m.Passes P s (es ++ e :: fs) := by
  induction es generalizing s with
  | nil =>
      cases h
      exact .inl he
  | cons e' es ih =>
      obtain ⟨u, hu, h⟩ := Option.bind_eq_some_iff.mp h
      exact .inr ⟨u, hu, ih h⟩

/-- A run, and one step more. -/
theorem run_concat {s t u : σ} {es : List ε} {e : ε} (h : m.run s es = some t)
    (he : m.step t e = some u) : m.run s (es ++ [e]) = some u := by
  induction es generalizing s with
  | nil =>
      cases h
      exact Option.bind_eq_some_iff.mpr ⟨u, he, rfl⟩
  | cons e' es ih =>
      obtain ⟨v, hv, h⟩ := Option.bind_eq_some_iff.mp h
      exact Option.bind_eq_some_iff.mpr ⟨v, hv, ih h⟩

/--
**Invariance along a given run**, for an invariant that speaks of the labels behind it;
of the labels ahead a step knows that they are there.
-/
theorem Meets.along {I : List ε → σ → Prop} {s t : σ} {es : List ε} (hs : I [] s)
    (hm : m.Meets H s es) (h : m.run s es = some t)
    (hstep : ∀ {fs gs : List ε} {u v : σ} {e : ε}, es = fs ++ e :: gs → m.run s fs = some u →
      I fs u → H u e → m.step u e = some v → I (fs ++ [e]) v) : I es t := by
  -- the labels behind, `fs`, and those ahead, `gs`
  have key : ∀ (gs fs : List ε) (u : σ), es = fs ++ gs → m.run s fs = some u → I fs u →
      m.Meets H u gs → m.run u gs = some t → I es t := by
    intro gs
    induction gs with
    | nil =>
        intro fs u hes _ hI _ hr
        cases hr
        rw [hes, List.append_nil]
        exact hI
    | cons e gs ih =>
        intro fs u hes hfs hI hm hr
        obtain ⟨v, hv, hr⟩ := Option.bind_eq_some_iff.mp hr
        refine ih (fs ++ [e]) v ?_ (run_concat hfs hv) (hstep hes hfs hI hm.1 hv) (hm.2 v hv) hr
        rw [hes, List.append_assoc]
        rfl
  exact key es [] s rfl rfl hs hm h

/-! ## What a run costs -/

theorem meets_always (s : σ) (es : List ε) : m.Meets Always s es :=
  meets_of_forall (fun _ _ _ => trivial) s

/-- What the steps of a run cost, each in the state it is taken from. -/
def tally (m : Machine σ ε) (cost : σ → ε → Nat) : σ → List ε → Nat
  | _, [] => 0
  | s, e :: es => cost s e + (m.step s e).elim 0 fun t => m.tally cost t es

/-- Steps that cost nothing. -/
@[simp] theorem tally_zero (s : σ) (es : List ε) : m.tally (fun _ _ => 0) s es = 0 := by
  induction es generalizing s with
  | nil => rfl
  | cons e es ih =>
      unfold tally
      cases m.step s e with
      | none => rfl
      | some t => rw [Option.elim_some, ih t]

/-- Steps that cost nothing where they meet a condition, in a run that meets it. -/
theorem tally_of_meets {cost : σ → ε → Nat} (hfree : ∀ s e, H s e → cost s e = 0) {s : σ}
    {es : List ε} (h : m.Meets H s es) : m.tally cost s es = 0 := by
  induction es generalizing s with
  | nil => rfl
  | cons e es ih =>
      obtain ⟨he, hrest⟩ := h
      unfold tally
      rw [hfree s e he, Nat.zero_add]
      cases hs : m.step s e with
      | none => rfl
      | some t => exact ih (hrest t hs)

/-- Steps that cost one each: the length of the run. -/
theorem tally_one {s t : σ} {es : List ε} (h : m.run s es = some t) :
    m.tally (fun _ _ => 1) s es = es.length := by
  induction es generalizing s with
  | nil => rfl
  | cons e es ih =>
      obtain ⟨u, hu, h⟩ := Option.bind_eq_some_iff.mp h
      have htl := ih h
      simp only [tally, hu, Option.elim_some, htl, List.length_cons]
      omega

/-- Steps of one kind that cost one each: how many there are. -/
theorem tally_countP {s t : σ} {es : List ε} {k : ε → Bool} (h : m.run s es = some t) :
    m.tally (fun _ e => (k e).toNat) s es = es.countP k := by
  induction es generalizing s with
  | nil => rfl
  | cons e es ih =>
      obtain ⟨u, hu, h⟩ := Option.bind_eq_some_iff.mp h
      have htl := ih h
      simp only [tally, hu, Option.elim_some, htl, List.countP_cons]
      cases k e <;> simp [Nat.add_comm]

/-- One step more costs what it costs. -/
theorem tally_concat {cost : σ → ε → Nat} {s t : σ} {es : List ε} {e : ε}
    (h : m.run s es = some t) : m.tally cost s (es ++ [e]) = m.tally cost s es + cost t e := by
  induction es generalizing s with
  | nil =>
      cases h
      have hstop : ((m.step t e).elim 0 fun _ => 0) = 0 := by cases m.step t e <;> rfl
      simp only [List.nil_append, tally, hstop, Nat.zero_add, Nat.add_zero]
  | cons e' es ih =>
      obtain ⟨u, hu, h⟩ := Option.bind_eq_some_iff.mp h
      simp only [List.cons_append, tally, hu, Option.elim_some, ih h, Nat.add_assoc]

/--
**What a run gains and what it pays.** If no step gains more than it pays for, with
a value to draw on, neither does a run. An invariant may be kept beside.
-/
theorem Meets.balance {I : σ → Prop} {value : σ → Nat} {gain cost : σ → ε → Nat}
    (hstep : ∀ {s t : σ} {e : ε}, I s → H s e → m.step s e = some t →
      I t ∧ value t + gain s e ≤ value s + cost s e)
    {s t : σ} {es : List ε} (hs : I s) (hm : m.Meets H s es) (h : m.run s es = some t) :
    I t ∧ value t + m.tally gain s es ≤ value s + m.tally cost s es := by
  induction es generalizing s with
  | nil =>
      cases h
      exact ⟨hs, Nat.le_refl _⟩
  | cons e es ih =>
      obtain ⟨u, hu, h⟩ := Option.bind_eq_some_iff.mp h
      obtain ⟨hI, hle⟩ := hstep hs hm.1 hu
      obtain ⟨hIt, hrest⟩ := ih hI (hm.2 u hu) h
      refine ⟨hIt, ?_⟩
      simp only [tally, hu, Option.elim_some]
      omega

end Machine

end PromptQueue.Base
