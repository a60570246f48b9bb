import Mathlib.Data.List.Nodup
import Mathlib.Tactic

/-!
# Tables with a primary key and one unique column

The shape every table of the development has: rows in a list, a sequence that
hands out primary keys, and one further column the database keeps unique. The
three facts a relational engine enforces on its own — keys come from the
sequence, no key repeats, no unique value repeats — are fields, so a table that
breaks one of them cannot be built and no proof has to carry them around.

`UPDATE … SET … WHERE` is `Table.update`, and it may only be given an assignment
that leaves both key columns alone. `INSERT` is `Table.insert`, which refuses a
row whose unique value is taken.
-/

namespace PromptQueue.Base

/-- A row type with a primary key and one more column declared `UNIQUE`. -/
class Keyed (α : Type) (κ : outParam Type) where
  /-- The primary key. -/
  pk : α → Nat
  /-- The other unique column. -/
  uk : α → κ

/-- An assignment that touches neither key column. -/
def KeepsKeys {α κ : Type} [Keyed α κ] (f : α → α) : Prop :=
  ∀ r, Keyed.pk (f r) = Keyed.pk r ∧ Keyed.uk (f r) = Keyed.uk r

/-- A table together with what the engine enforces on it. -/
structure Table (α : Type) {κ : Type} [Keyed α κ] where
  /-- The rows, in insertion order. -/
  rows : List α
  /-- The next value of the primary-key sequence. -/
  seq : Nat
  /-- Every key was handed out by the sequence. -/
  pk_lt : ∀ r ∈ rows, Keyed.pk r < seq
  /-- Primary keys do not repeat. -/
  pk_nodup : (rows.map Keyed.pk).Nodup
  /-- Unique values do not repeat. -/
  uk_nodup : (rows.map Keyed.uk).Nodup

namespace Table

variable {α κ : Type} [Keyed α κ]

/-- A table just created: no rows, and a sequence that starts at one. -/
def empty : Table α where
  rows := []
  seq := 1
  pk_lt := by intro r hr; cases hr
  pk_nodup := List.nodup_nil
  uk_nodup := List.nodup_nil

/-! ## Updating the rows a condition selects -/

/-- The row an `UPDATE` leaves behind. -/
def updateRow (p : α → Prop) [DecidablePred p] (f : α → α) (r : α) : α :=
  if p r then f r else r

theorem updateRow_pos {p : α → Prop} [DecidablePred p] {f : α → α} {r : α} (h : p r) :
    updateRow p f r = f r := if_pos h

theorem updateRow_neg {p : α → Prop} [DecidablePred p] {f : α → α} {r : α} (h : ¬ p r) :
    updateRow p f r = r := if_neg h

/-- What the assignment leaves alone, the update leaves alone. -/
theorem updateRow_keeps {β : Type} {p : α → Prop} [DecidablePred p] {f : α → α} {g : α → β}
    (hg : ∀ r, g (f r) = g r) (r : α) : g (updateRow p f r) = g r := by
  unfold updateRow; split
  · exact hg r
  · rfl

/-- What is so of a row, and of what the assignment makes of it, is so of what is left. -/
theorem updateRow_ind {p : α → Prop} [DecidablePred p] {f : α → α} {P : α → Prop} {r : α}
    (h : P r) (hf : p r → P (f r)) : P (updateRow p f r) := by
  unfold updateRow; split
  · rename_i hp
    exact hf hp
  · exact h

/-- A condition no row meets updates nothing. -/
theorem map_updateRow_of_none {p : α → Prop} [DecidablePred p] {f : α → α} {l : List α}
    (h : ∀ r ∈ l, ¬ p r) : l.map (updateRow p f) = l := by
  calc l.map (updateRow p f) = l.map id := List.map_congr_left fun r hr => updateRow_neg (h r hr)
    _ = l := List.map_id l

/-- Conditions that agree on the rows update them alike. -/
theorem map_updateRow_congr {p q : α → Prop} [DecidablePred p] [DecidablePred q] {f : α → α}
    {l : List α} (h : ∀ r ∈ l, (p r ↔ q r)) : l.map (updateRow p f) = l.map (updateRow q f) := by
  refine List.map_congr_left fun r hr => ?_
  unfold updateRow
  simp only [h r hr]

theorem pk_updateRow {p : α → Prop} [DecidablePred p] {f : α → α} (hf : KeepsKeys f) (r : α) :
    Keyed.pk (updateRow p f r) = Keyed.pk r := updateRow_keeps (fun r => (hf r).1) r

theorem uk_updateRow {p : α → Prop} [DecidablePred p] {f : α → α} (hf : KeepsKeys f) (r : α) :
    Keyed.uk (updateRow p f r) = Keyed.uk r := updateRow_keeps (fun r => (hf r).2) r

/-- `UPDATE t SET f WHERE p`. -/
def update (t : Table α) (p : α → Prop) [DecidablePred p] (f : α → α)
    (hf : KeepsKeys f) : Table α where
  rows := t.rows.map (updateRow p f)
  seq := t.seq
  pk_lt := by
    intro r hr
    obtain ⟨r₀, h₀, rfl⟩ := List.mem_map.mp hr
    rw [pk_updateRow hf]; exact t.pk_lt r₀ h₀
  pk_nodup := by
    rw [List.map_map, show Keyed.pk ∘ updateRow p f = (Keyed.pk : α → Nat) from
      funext (pk_updateRow hf)]
    exact t.pk_nodup
  uk_nodup := by
    rw [List.map_map, show Keyed.uk ∘ updateRow p f = (Keyed.uk : α → κ) from
      funext (uk_updateRow hf)]
    exact t.uk_nodup

/-- An update no row is up for leaves the table as it is. -/
theorem update_of_none {t : Table α} {p : α → Prop} [DecidablePred p] {f : α → α}
    {hf : KeepsKeys f} (h : ∀ r ∈ t.rows, ¬ p r) : t.update p f hf = t := by
  obtain ⟨rows, seq, pk_lt, pk_nodup, uk_nodup⟩ := t
  unfold update
  congr
  exact map_updateRow_of_none h

/-- Whether an `UPDATE … RETURNING` would return a row. -/
def hits (t : Table α) (p : α → Prop) [DecidablePred p] : Bool :=
  t.rows.any (fun r => decide (p r))

theorem hits_iff {t : Table α} {p : α → Prop} [DecidablePred p] :
    t.hits p = true ↔ ∃ r ∈ t.rows, p r := by
  simp [hits]

/-! ## Inserting a row -/

/--
`INSERT`, with the primary key drawn from the sequence. `none` is the engine's
integrity error: the unique value is taken, and nothing is written.
-/
def insert [DecidableEq κ] (t : Table α) (row : Nat → α)
    (hrow : ∀ n, Keyed.pk (row n) = n) : Option (Table α) :=
  if h : Keyed.uk (row t.seq) ∈ t.rows.map Keyed.uk then none
  else some {
    rows := t.rows ++ [row t.seq]
    seq := t.seq + 1
    pk_lt := by
      intro r hr
      rcases List.mem_append.mp hr with h' | h'
      · -- the sequence only moves on
        exact Nat.lt_succ_of_lt (t.pk_lt r h')
      · rw [List.mem_singleton.mp h', hrow]; exact Nat.lt_succ_self _
    pk_nodup := by
      rw [List.map_append, List.map_singleton, hrow, List.nodup_append]
      refine ⟨t.pk_nodup, List.nodup_singleton _, ?_⟩
      -- every key in the table is below the one just drawn
      intro a ha b hb he
      obtain ⟨r, hr, rfl⟩ := List.mem_map.mp ha
      rw [List.mem_singleton.mp hb] at he
      exact absurd he (Nat.ne_of_lt (t.pk_lt r hr))
    uk_nodup := by
      rw [List.map_append, List.map_singleton, List.nodup_append]
      refine ⟨t.uk_nodup, List.nodup_singleton _, ?_⟩
      intro a ha b hb he
      rw [List.mem_singleton.mp hb] at he
      exact h (he ▸ ha) }

/-- **What a successful insert does:** the value was free, and one row is appended. -/
theorem insert_some [DecidableEq κ] {t t' : Table α} {row : Nat → α}
    {hrow : ∀ n, Keyed.pk (row n) = n} (h : t.insert row hrow = some t') :
    t'.rows = t.rows ++ [row t.seq] ∧ ∀ r ∈ t.rows, Keyed.uk r ≠ Keyed.uk (row t.seq) := by
  unfold insert at h
  split at h
  · cases h
  · rename_i hfree
    cases h
    exact ⟨rfl, fun r hr he => hfree (List.mem_map.mpr ⟨r, hr, he⟩)⟩

/-- **What a refused insert means:** some row already holds the unique value. -/
theorem insert_none [DecidableEq κ] {t : Table α} {row : Nat → α}
    {hrow : ∀ n, Keyed.pk (row n) = n} (h : t.insert row hrow = none) :
    ∃ r ∈ t.rows, Keyed.uk r = Keyed.uk (row t.seq) := by
  unfold insert at h
  split at h
  · rename_i htaken
    obtain ⟨r, hr, he⟩ := List.mem_map.mp htaken
    exact ⟨r, hr, he⟩
  · cases h

/-! ## Rows are determined by their keys -/

theorem eq_of_pk {t : Table α} {r r' : α} (hr : r ∈ t.rows) (hr' : r' ∈ t.rows)
    (h : Keyed.pk r = Keyed.pk r') : r = r' :=
  List.inj_on_of_nodup_map t.pk_nodup hr hr' h

theorem eq_of_uk {t : Table α} {r r' : α} (hr : r ∈ t.rows) (hr' : r' ∈ t.rows)
    (h : Keyed.uk r = Keyed.uk r') : r = r' :=
  List.inj_on_of_nodup_map t.uk_nodup hr hr' h

/-- Reading by primary key finds exactly the row that carries it. -/
theorem find?_pk {t : Table α} {r : α} (hr : r ∈ t.rows) {n : Nat} (hn : Keyed.pk r = n) :
    t.rows.find? (fun q => Keyed.pk q == n) = some r := by
  cases hf : t.rows.find? (fun q => Keyed.pk q == n) with
  | none =>
      have := List.find?_eq_none.mp hf r hr
      simp [hn] at this
  | some q =>
      have hq := List.mem_of_find?_eq_some hf
      have hk : Keyed.pk q = n := by simpa using List.find?_some hf
      rw [eq_of_pk hq hr (hk.trans hn.symm)]

/-- Reading by the unique column finds exactly the row that carries the value. -/
theorem find?_uk [DecidableEq κ] {t : Table α} {r : α} (hr : r ∈ t.rows) {k : κ}
    (hk : Keyed.uk r = k) : t.rows.find? (fun q => Keyed.uk q == k) = some r := by
  cases hf : t.rows.find? (fun q => Keyed.uk q == k) with
  | none =>
      have := List.find?_eq_none.mp hf r hr
      simp [hk] at this
  | some q =>
      have hq := List.mem_of_find?_eq_some hf
      have hk' : Keyed.uk q = k := by simpa using List.find?_some hf
      rw [eq_of_uk hq hr (hk'.trans hk.symm)]

/-! ## Counting rows -/

/-- A function makes a condition true of no more rows than it was true of and those it turns. -/
theorem countP_map_le {β : Type} (p : β → Bool) (f : β → β) (l : List β) :
    (l.map f).countP p ≤ l.countP p + l.countP fun x => p (f x) && !p x := by
  induction l with
  | nil => exact Nat.le_refl 0
  | cons x l ih =>
      rw [List.map_cons, List.countP_cons, List.countP_cons, List.countP_cons]
      have hx : (if p (f x) then 1 else 0)
          ≤ (if p x then 1 else 0) + if (p (f x) && !p x) = true then 1 else 0 := by
        cases p x <;> cases p (f x) <;> decide
      omega

/-- At most one row meets a condition that settles a unique column. -/
theorem countP_le_one {t : Table α} {p : α → Bool}
    (h : ∀ r ∈ t.rows, ∀ r' ∈ t.rows, p r = true → p r' = true → r = r') :
    t.rows.countP p ≤ 1 := by
  have hnd : (t.rows.filter p).Nodup := (List.Nodup.of_map _ t.pk_nodup).filter _
  rw [List.countP_eq_length_filter]
  cases hl : t.rows.filter p with
  | nil => exact Nat.zero_le 1
  | cons r l =>
      cases l with
      | nil => exact Nat.le_refl 1
      | cons r' l =>
          rw [hl] at hnd
          obtain ⟨hr, hpr⟩ := List.mem_filter.mp (hl ▸ List.mem_cons_self : r ∈ t.rows.filter p)
          obtain ⟨hr', hpr'⟩ := List.mem_filter.mp
            (hl ▸ List.mem_cons_of_mem r List.mem_cons_self : r' ∈ t.rows.filter p)
          rw [h r hr r' hr' hpr hpr'] at hnd
          exact absurd List.mem_cons_self (List.nodup_cons.mp hnd).1

end Table

end PromptQueue.Base
