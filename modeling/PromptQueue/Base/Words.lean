import Mathlib.Data.List.Basic

/-!
# Words

A list is cut at its separators, and what is between them are its words; joined with a
separator the words are a list again, with nothing of the old one but its words. Cutting
undoes joining, so the joined list is as good as the words.

`cut_induction` takes a list apart the same way: it has no separator, or it is a piece
without one, a separator and a list. A map that goes by the pieces is `Piecewise`, and
what it does to the words of a list it does word by word.
-/

namespace PromptQueue.Base

variable {α : Type} {sep : α → Bool} {c : α} {s t w : List α} {ws ws' : List (List α)}

/-- There is no separator in the list. -/
def Unbroken (sep : α → Bool) (w : List α) : Prop := ∀ x ∈ w, sep x = false

/-- There is nothing else in it. -/
def Blank (sep : α → Bool) (s : List α) : Prop := ∀ x ∈ s, sep x = true

/-- What can be a word. -/
def IsWord (sep : α → Bool) (w : List α) : Prop := w ≠ [] ∧ Unbroken sep w

/-- The words of a list. -/
def words (sep : α → Bool) (s : List α) : List (List α) :=
  (s.splitOnP sep).filter fun w => !w.isEmpty

/-- **Induction on the pieces of a list.** -/
theorem cut_induction {P : List α → Prop} (hfree : ∀ w, Unbroken sep w → P w)
    (hcut : ∀ w c t, Unbroken sep w → sep c = true → P t → P (w ++ c :: t)) (s : List α) :
    P s := by
  -- `w` is what was read of the first piece
  have key : ∀ s w, Unbroken sep w → P (w ++ s) := by
    intro s
    induction s with
    | nil =>
        intro w hw
        rw [List.append_nil]
        exact hfree w hw
    | cons x s ih =>
        intro w hw
        cases hx : sep x with
        | true => exact hcut w x s hw hx (ih [] nofun)
        | false =>
            have hwx : Unbroken sep (w ++ [x]) := by
              intro y hy
              rcases List.mem_append.mp hy with hy | hy
              · exact hw y hy
              · rw [List.mem_singleton.mp hy]; exact hx
            rw [List.append_cons]
            exact ih (w ++ [x]) hwx
  exact key s [] nofun

/-! ## Cutting -/

@[simp] theorem words_nil : words sep [] = [] := rfl

/-- A list is cut at each of its separators. -/
theorem words_cut (hc : sep c = true) (s t : List α) :
    words sep (s ++ c :: t) = words sep s ++ words sep t := by
  rw [words, List.splitOnP_append_cons s t hc, List.filter_append]
  rfl

/-- A piece is a word, unless it is empty. -/
theorem words_of_unbroken (hw : Unbroken sep w) :
    words sep w = if w = [] then [] else [w] := by
  rw [words, List.splitOnP_eq_singleton hw]
  cases w <;> rfl

theorem words_of_isWord (hw : IsWord sep w) : words sep w = [w] := by
  rw [words_of_unbroken hw.2, if_neg hw.1]

/-- The one word a piece can have is the piece. -/
theorem mem_words_of_unbroken {v : List α} (hv : Unbroken sep v) (hw : w ∈ words sep v) :
    w = v ∧ v ≠ [] := by
  rw [words_of_unbroken hv] at hw
  split at hw
  · cases hw
  · rename_i hne
    exact ⟨List.mem_singleton.mp hw, hne⟩

/-- **The words of a list are words.** -/
theorem isWord_of_mem : w ∈ words sep s → IsWord sep w := by
  have piece : ∀ {v}, Unbroken sep v → w ∈ words sep v → IsWord sep w := by
    intro v hv hw
    obtain ⟨rfl, hne⟩ := mem_words_of_unbroken hv hw
    exact ⟨hne, hv⟩
  induction s using cut_induction with
  | hfree v hv => exact piece hv
  | hcut v c t hv hc ih =>
      intro hw
      rw [words_cut hc] at hw
      rcases List.mem_append.mp hw with hw | hw
      · exact piece hv hw
      · exact ih hw

/-! ## Separators more or less -/

theorem words_cons (hc : sep c = true) (t : List α) : words sep (c :: t) = words sep t := by
  have hcut := words_cut hc [] t
  rwa [List.nil_append, words_nil, List.nil_append] at hcut

/-- Separators in front make no difference. -/
theorem words_blank_append {b : List α} (hb : Blank sep b) (t : List α) :
    words sep (b ++ t) = words sep t := by
  induction b with
  | nil => rfl
  | cons x b ih =>
      rw [List.cons_append, words_cons (hb x List.mem_cons_self)]
      exact ih fun y hy => hb y (List.mem_cons_of_mem x hy)

/-- Where there are separators, it makes no difference how many, or which. -/
theorem words_gap {b : List α} (hb : Blank sep b) (hne : b ≠ []) (s t : List α) :
    words sep (s ++ (b ++ t)) = words sep s ++ words sep t := by
  cases b with
  | nil => exact absurd rfl hne
  | cons x b =>
      rw [List.cons_append, words_cut (hb x List.mem_cons_self)]
      rw [words_blank_append fun y hy => hb y (List.mem_cons_of_mem x hy)]

/-- Separators behind make no difference. -/
theorem words_append_blank {b : List α} (hb : Blank sep b) (s : List α) :
    words sep (s ++ b) = words sep s := by
  cases b with
  | nil => rw [List.append_nil]
  | cons x b =>
      have hgap := words_gap hb (List.cons_ne_nil x b) s []
      rwa [List.append_nil, words_nil, List.append_nil] at hgap

/-! ## Joining -/

/-- **Cutting undoes joining.** -/
theorem words_join (hc : sep c = true) (h : ∀ w ∈ ws, IsWord sep w) :
    words sep ([c].intercalate ws) = ws := by
  induction ws with
  | nil => rfl
  | cons w ws ih =>
      have hw := words_of_isWord (h w List.mem_cons_self)
      have hws := ih fun v hv => h v (List.mem_cons_of_mem w hv)
      cases ws with
      | nil => rw [List.intercalate_singleton, hw]
      | cons v ws =>
          rw [List.intercalate_cons_cons, List.append_assoc, List.singleton_append,
            words_cut hc, hw, hws]
          rfl

/-- **The joined list is as good as the words.** -/
theorem join_inj (hc : sep c = true) (h : ∀ w ∈ ws, IsWord sep w)
    (h' : ∀ w ∈ ws', IsWord sep w) : [c].intercalate ws = [c].intercalate ws' ↔ ws = ws' := by
  refine ⟨fun he => ?_, fun he => by rw [he]⟩
  rw [← words_join hc h, he, words_join hc h']

/-! ## Word by word -/

/-- A map on lists that leaves the separators where they are and goes by the pieces. -/
structure Piecewise (sep : α → Bool) (f : List α → List α) : Prop where
  /-- It makes nothing of nothing. -/
  nil : f [] = []
  /-- A separator stays, and what is on one side of it does not bear on the other. -/
  cut : ∀ (s : List α) (c : α) (t : List α), sep c = true → f (s ++ c :: t) = f s ++ c :: f t
  /-- No separator comes from anything else. -/
  unbroken : ∀ w, Unbroken sep w → Unbroken sep (f w)

namespace Piecewise

variable {f : List α → List α}

/-- A map of the elements that leaves the separators alone, and makes none. -/
theorem map {g : α → α} (hsep : ∀ x, sep x = true → g x = x)
    (hfree : ∀ x, sep x = false → sep (g x) = false) : Piecewise sep (List.map g) where
  nil := rfl
  cut := by
    intro s c t hc
    rw [List.map_append, List.map_cons, hsep c hc]
  unbroken := by
    intro w hw y hy
    obtain ⟨x, hx, rfl⟩ := List.mem_map.mp hy
    exact hfree x (hw x hx)

/-- **What the map does to a list it does word by word.** -/
theorem words_map (hf : Piecewise sep f) (s : List α) :
    words sep (f s) = (words sep s).flatMap fun w => words sep (f w) := by
  have piece : ∀ {w}, Unbroken sep w →
      words sep (f w) = (words sep w).flatMap fun v => words sep (f v) := by
    intro w hw
    rw [words_of_unbroken hw]
    split
    · rename_i hnil
      rw [hnil, hf.nil, words_nil, List.flatMap_nil]
    · rw [List.flatMap_singleton]
  induction s using cut_induction with
  | hfree w hw => exact piece hw
  | hcut w c t hw hc ih =>
      rw [hf.cut w c t hc, words_cut hc, words_cut hc, List.flatMap_append, ih, piece hw]

/-- So it depends on the words alone what words it makes. -/
theorem words_congr (hf : Piecewise sep f) (h : words sep s = words sep t) :
    words sep (f s) = words sep (f t) := by
  rw [hf.words_map, hf.words_map, h]

/-- The words an idempotent map makes, it leaves as they are. -/
theorem words_fixed (hf : Piecewise sep f) (hidem : ∀ s, f (f s) = f s)
    (hw : w ∈ words sep (f s)) : f w = w := by
  rw [hf.words_map] at hw
  obtain ⟨v, hv, hw⟩ := List.mem_flatMap.mp hw
  -- the map makes one word of a word, or none
  obtain ⟨rfl, -⟩ := mem_words_of_unbroken (hf.unbroken v (isWord_of_mem hv).2) hw
  exact hidem v

/-- **Joining the words an idempotent map makes, and mapping again, makes no others.** -/
theorem words_join_words (hf : Piecewise sep f) (hidem : ∀ s, f (f s) = f s)
    (hc : sep c = true) (s : List α) :
    words sep (f ([c].intercalate (words sep (f s)))) = words sep (f s) := by
  rw [hf.words_map, words_join hc fun w => isWord_of_mem]
  have hsame : ∀ w ∈ words sep (f s), words sep (f w) = [w] := by
    intro w hw
    rw [hf.words_fixed hidem hw, words_of_isWord (isWord_of_mem hw)]
  rw [List.flatMap_congr hsame, List.flatMap_singleton']

end Piecewise

end PromptQueue.Base
