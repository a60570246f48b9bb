import Mathlib.Algebra.Order.Field.Basic
import Mathlib.Order.Interval.Finset.Nat
import Mathlib.Tactic

/-!
# Two rate limiters

A token bucket holds at most `capacity` tokens and gains `rate` of them per unit of
time; a call takes one if there is one. A sliding window remembers the calls it let
through and refuses one more when `limit` of them lie in the window that ends now.

What a bucket lets through between two calls is bounded by the tokens it can have
held at the first and what it gained since (`grants_le`). The times need not be in
order for this: a step back loses tokens, and the clamp at `capacity` loses tokens,
so the sum telescopes either way. A window is exact (`Window.recent_eq`), and lets no
more than `limit` calls through in any interval of its width (`Window.bound`), but
only while time does not go back.
-/

namespace PromptQueue.Base

/-! ## Token buckets -/

/-- A bucket: what it held when it was last looked at, and when that was. -/
structure Bucket (K : Type) where
  tokens : K
  last : K
  deriving DecidableEq, Repr

namespace Bucket

variable {K : Type} [Field K] [LinearOrder K] (capacity rate : K)

/-- What a bucket holds at a time. -/
def level (b : Bucket K) (now : K) : K := min capacity (b.tokens + (now - b.last) * rate)

/-- One call: the bucket after it, and whether it got a token. -/
def take (b : Bucket K) (now : K) : Bucket K × Bool :=
  if 1 ≤ b.level capacity rate now then (⟨b.level capacity rate now - 1, now⟩, true)
  else (⟨b.level capacity rate now, now⟩, false)

/-- The bucket after the first `n` calls of a sequence. -/
def after (b : Bucket K) (now : ℕ → K) : ℕ → Bucket K
  | 0 => b
  | n + 1 => ((b.after now n).take capacity rate (now n)).1

/-- Whether the `n`-th call of a sequence got a token. -/
def granted (b : Bucket K) (now : ℕ → K) (n : ℕ) : Bool :=
  ((b.after capacity rate now n).take capacity rate (now n)).2

variable {capacity rate}

@[simp] theorem take_last (b : Bucket K) (now : K) : (b.take capacity rate now).1.last = now := by
  unfold take; split <;> rfl

theorem take_granted {b : Bucket K} {now : K} (h : 1 ≤ b.level capacity rate now) :
    b.take capacity rate now = (⟨b.level capacity rate now - 1, now⟩, true) := if_pos h

theorem take_denied {b : Bucket K} {now : K} (h : ¬ 1 ≤ b.level capacity rate now) :
    b.take capacity rate now = (⟨b.level capacity rate now, now⟩, false) := if_neg h

/-- Buckets that hold the same at a time cannot be told apart from then on. -/
theorem take_congr {b c : Bucket K} {now : K}
    (h : b.level capacity rate now = c.level capacity rate now) :
    b.take capacity rate now = c.take capacity rate now := by
  unfold take; rw [h]

/-- A call is granted exactly when it pays a token of what the bucket holds. -/
theorem take_tokens (b : Bucket K) (now : K) : (b.take capacity rate now).1.tokens
      + (if (b.take capacity rate now).2 = true then 1 else 0) = b.level capacity rate now := by
  by_cases h : 1 ≤ b.level capacity rate now
  · rw [take_granted h]; simp
  · rw [take_denied h]; simp

/-- A bucket left alone for long enough is full. -/
theorem level_full {b : Bucket K} {now : K} (h : capacity ≤ b.tokens + (now - b.last) * rate) :
    b.level capacity rate now = capacity := min_eq_left h

/-! ### A run of calls -/

/-- How many of the calls from the `i`-th to the `j`-th of a sequence got a token. -/
def grants (capacity rate : K) (b : Bucket K) (now : ℕ → K) (i j : ℕ) : ℕ :=
  ((Finset.Icc i j).filter fun k => b.granted capacity rate now k = true).card

theorem grants_self (b : Bucket K) (now : ℕ → K) (i : ℕ) :
    b.grants capacity rate now i i = if b.granted capacity rate now i = true then 1 else 0 := by
  unfold grants
  rw [Finset.Icc_self, Finset.filter_singleton]
  split <;> rfl

theorem grants_succ (b : Bucket K) (now : ℕ → K) {i j : ℕ} (h : i ≤ j) :
    b.grants capacity rate now i (j + 1) = b.grants capacity rate now i j
      + if b.granted capacity rate now (j + 1) = true then 1 else 0 := by
  unfold grants
  rw [← Finset.insert_Icc_right_eq_Icc_add_one (by omega), Finset.filter_insert]
  split
  · exact Finset.card_insert_of_notMem (by simp)
  · rfl

/-- What the `n`-th call of a sequence pays. -/
theorem after_succ_tokens (b : Bucket K) (now : ℕ → K) (n : ℕ) :
    (b.after capacity rate now (n + 1)).tokens
      + ((if b.granted capacity rate now n = true then 1 else 0 : ℕ) : K)
      = (b.after capacity rate now n).level capacity rate (now n) := by
  rw [← take_tokens]
  unfold granted
  split <;> simp [after]

variable [IsStrictOrderedRing K]

/-- A bucket that just granted a call is not in debt. -/
theorem tokens_nonneg_of_granted {b : Bucket K} {now : K}
    (h : (b.take capacity rate now).2 = true) : 0 ≤ (b.take capacity rate now).1.tokens := by
  by_cases hl : 1 ≤ b.level capacity rate now
  · rw [take_granted hl]; exact sub_nonneg.mpr hl
  · rw [take_denied hl] at h; cases h

/-- Where time does not go back, no call leaves the bucket in debt. -/
theorem take_nonneg {b : Bucket K} {now : K} (hcap : 0 ≤ capacity) (hrate : 0 ≤ rate)
    (hb : 0 ≤ b.tokens) (ht : b.last ≤ now) : 0 ≤ (b.take capacity rate now).1.tokens := by
  by_cases hl : 1 ≤ b.level capacity rate now
  · rw [take_granted hl]; exact sub_nonneg.mpr hl
  · rw [take_denied hl]
    exact le_min hcap (add_nonneg hb (mul_nonneg (sub_nonneg.mpr ht) hrate))

/--
A bucket is in debt at a time that lies before the last call by more than its tokens
are worth.
-/
theorem level_nonneg_iff {b : Bucket K} {now : K} (hcap : 0 ≤ capacity) (hrate : 0 < rate) :
    0 ≤ b.level capacity rate now ↔ b.last ≤ now + b.tokens / rate := by
  have hscale : b.last ≤ now + b.tokens / rate ↔ (b.last - now) * rate ≤ b.tokens := by
    rw [← le_div_iff₀ hrate, sub_le_iff_le_add']
  unfold level
  rw [le_min_iff, hscale]
  constructor
  · intro h
    linarith [h.2, sub_mul now b.last rate, sub_mul b.last now rate]
  · intro h
    exact ⟨hcap, by linarith [sub_mul now b.last rate, sub_mul b.last now rate]⟩

/-- **The time a token takes is wait enough** for a bucket that is not in debt, and for no other. -/
theorem wait_enough_iff {b : Bucket K} (hcap : 1 ≤ capacity) (hrate : 0 < rate) :
    (∀ later, b.last + 1 / rate ≤ later → (b.take capacity rate later).2 = true) ↔
      0 ≤ b.tokens := by
  have granted_iff : ∀ later, (b.take capacity rate later).2 = true ↔
      1 ≤ b.tokens + (later - b.last) * rate := by
    intro later
    unfold take level
    split
    · rename_i h
      exact ⟨fun _ => (le_min_iff.mp h).2, fun _ => rfl⟩
    · rename_i h
      exact ⟨fun hf => absurd hf Bool.false_ne_true, fun hle => absurd (le_min hcap hle) h⟩
  constructor
  · intro h
    have hone := (granted_iff _).mp (h (b.last + 1 / rate) (le_refl _))
    rw [add_sub_cancel_left, one_div_mul_cancel hrate.ne'] at hone
    linarith
  · intro hb later hlater
    refine (granted_iff later).mpr ?_
    have hgap : 1 ≤ (later - b.last) * rate := by
      rw [← div_le_iff₀ hrate]
      linarith
    linarith

/--
**The balance of a run.** What the calls from the `i`-th to the `j`-th were granted,
and what is left, is at most a full bucket and what it gained in between. From one
call to the next the gain is that of the time between them, whatever its sign.
-/
theorem balance (b : Bucket K) (now : ℕ → K) {i j : ℕ} (h : i ≤ j) :
    (b.after capacity rate now (j + 1)).tokens + b.grants capacity rate now i j
      ≤ capacity + rate * (now j - now i) := by
  induction j, h using Nat.le_induction with
  | base =>
      rw [grants_self, after_succ_tokens, sub_self, mul_zero, add_zero]
      exact min_le_left _ _
  | succ j hij ih =>
      have hlast : (b.after capacity rate now (j + 1)).last = now j := take_last _ _
      have hgain : (b.after capacity rate now (j + 1)).level capacity rate (now (j + 1))
          ≤ (b.after capacity rate now (j + 1)).tokens + (now (j + 1) - now j) * rate := by
        rw [← hlast]; exact min_le_right _ _
      have hpay := @after_succ_tokens K _ _ capacity rate b now (j + 1)
      rw [grants_succ b now hij]
      push_cast at hpay ⊢
      linarith

/-- **Between two calls of which the second is granted, a bucket grants no more than it
can have held and gained.** -/
theorem grants_le (b : Bucket K) (now : ℕ → K) {i j : ℕ} (h : i ≤ j)
    (hj : b.granted capacity rate now j = true) :
    (b.grants capacity rate now i j : K) ≤ capacity + rate * (now j - now i) := by
  have hbal := @balance K _ _ capacity rate _ b now i j h
  have hpos : 0 ≤ (b.after capacity rate now (j + 1)).tokens := tokens_nonneg_of_granted hj
  linarith

end Bucket

/-! ## Sliding windows -/

namespace Window

/-- In order, dropping the calls before a time keeps those from it on. -/
theorem dropWhile_lt_eq_filter {K : Type} [LinearOrder K] {l : List K}
    (h : l.Pairwise (· ≤ ·)) (c : K) :
    l.dropWhile (fun t => decide (t < c)) = l.filter fun t => decide (c ≤ t) := by
  induction l with
  | nil => rfl
  | cons a l ih =>
      rw [List.pairwise_cons] at h
      by_cases ha : a < c
      · rw [List.dropWhile_cons_of_pos (by simpa using ha),
          List.filter_cons_of_neg (by simpa using ha), ih h.2]
      · rw [List.dropWhile_cons_of_neg (by simpa using ha)]
        refine (List.filter_eq_self.mpr fun x hx => ?_).symm
        have ha := not_lt.mp ha
        rcases List.mem_cons.mp hx with rfl | hx
        · exact decide_eq_true ha
        · exact decide_eq_true (ha.trans (h.1 x hx))

variable {K : Type} [AddCommGroup K] [LinearOrder K]

/-- The calls a window still remembers at a time. -/
def recent (width : K) (calls : List K) (now : K) : List K :=
  calls.dropWhile fun t => decide (t < now - width)

/-- One call: what the window remembers after it, and whether it was let through. -/
def take (limit : ℕ) (width : K) (calls : List K) (now : K) : List K × Bool :=
  if limit ≤ (recent width calls now).length then (recent width calls now, false)
  else (recent width calls now ++ [now], true)

/-- How many of the calls lie in the closed interval of the given width from `start` on. -/
def inWindow (width : K) (calls : List K) (start : K) : ℕ :=
  calls.countP fun t => decide (start ≤ t ∧ t ≤ start + width)

/-- What a window that remembers `calls`, last asked at `now`, let through in all. -/
structure Kept (limit : ℕ) (width : K) (history calls : List K) (now : K) : Prop where
  /-- Time did not go back. -/
  sorted : history.Pairwise (· ≤ ·)
  past : ∀ t ∈ history, t ≤ now
  /-- The window forgets what has left it, and nothing else. -/
  remembered : calls = history.filter fun t => decide (now - width ≤ t)
  /-- No interval of the width has more than `limit` calls. -/
  bound : ∀ start, inWindow width history start ≤ limit

theorem kept_nil (limit : ℕ) (width now : K) : Kept limit width [] [] now :=
  ⟨List.Pairwise.nil, nofun, rfl, fun _ => Nat.zero_le _⟩

variable [IsOrderedAddMonoid K] {limit : ℕ} {width : K} {history calls : List K} {now later : K}

/-- **What a window remembers is what it let through in the interval that ends now.** -/
theorem Kept.recent_eq (h : Kept limit width history calls now) (hle : now ≤ later) :
    recent width calls later = history.filter fun t => decide (later - width ≤ t) := by
  have hsorted : calls.Pairwise (· ≤ ·) := by rw [h.remembered]; exact h.sorted.filter _
  unfold recent
  rw [dropWhile_lt_eq_filter hsorted, h.remembered, List.filter_filter]
  refine List.filter_congr fun t _ => ?_
  have hcut : now - width ≤ later - width := sub_le_sub_right hle width
  rw [← Bool.decide_and]
  exact decide_eq_decide.mpr ⟨And.left, fun ht => ⟨ht, hcut.trans ht⟩⟩

/-- A call that is let through finds the interval that ends with it below the limit. -/
theorem Kept.inWindow_append (h : Kept limit width history calls now) (hle : now ≤ later)
    (hroom : (recent width calls later).length < limit) (start : K) :
    inWindow width (history ++ [later]) start ≤ limit := by
  unfold inWindow
  rw [List.countP_append]
  by_cases hin : start ≤ later ∧ later ≤ start + width
  · -- what the interval has besides is still remembered
    have hcount : (history.countP fun t => decide (start ≤ t ∧ t ≤ start + width))
        ≤ (recent width calls later).length := by
      rw [h.recent_eq hle, ← List.countP_eq_length_filter]
      refine List.countP_mono_left fun t _ ht => ?_
      have ht := of_decide_eq_true ht
      exact decide_eq_true ((sub_le_iff_le_add.mpr hin.2).trans ht.1)
    have hone : ([later].countP fun t => decide (start ≤ t ∧ t ≤ start + width)) ≤ 1 :=
      List.countP_le_length
    omega
  · have hzero : ([later].countP fun t => decide (start ≤ t ∧ t ≤ start + width)) = 0 := by
      simpa using hin
    rw [hzero]
    exact h.bound start

/-- **One call keeps a window's books.** -/
theorem Kept.take (h : Kept limit width history calls now) (hle : now ≤ later)
    (hw : 0 ≤ width) : Kept limit width
      (if (Window.take limit width calls later).2 = true then history ++ [later] else history)
      (Window.take limit width calls later).1 later := by
  have hrec := h.recent_eq hle
  unfold Window.take
  by_cases hfull : limit ≤ (recent width calls later).length
  · rw [if_pos hfull]
    exact ⟨h.sorted, fun t ht => (h.past t ht).trans hle, hrec, h.bound⟩
  · rw [if_neg hfull]
    refine ⟨?_, ?_, ?_, h.inWindow_append hle (not_le.mp hfull)⟩
    · refine List.pairwise_append.mpr ⟨h.sorted, List.pairwise_singleton _ _, ?_⟩
      intro t ht u hu
      rw [List.mem_singleton.mp hu]
      exact (h.past t ht).trans hle
    · intro t ht
      rcases List.mem_append.mp ht with ht | ht
      · exact (h.past t ht).trans hle
      · exact (List.mem_singleton.mp ht).le
    · rw [hrec]
      simp [List.filter_append, hw]

end Window

end PromptQueue.Base
