import PromptQueue.Services.RateLimit

/-!
# What the token buckets let through

A run of a limiter is a sequence of call times. The script is bounded whatever clocks
its callers have, because each call is settled against the one before it. With its
`EXPIRE` it is the in-memory limiter, as long as a bucket that is dropped would have
been full: the key lives for two minutes after the last call, and an empty bucket is
full after `capacity / refill_rate` seconds.
-/

namespace PromptQueue

open Base

section Script

variable (capacity : Nat) (refillRate : Rat)

/-- The hash after the first `n` calls of the script, when the key stays. -/
def luaAfter (start : Option (Bucket Rat)) (now : ℕ → Time) : ℕ → Option (Bucket Rat)
  | 0 => start
  | n + 1 => some (luaTokenBucket capacity refillRate (now n) (luaAfter start now n)).1

/-- Whether the script grants the `n`-th call. -/
def luaGranted (start : Option (Bucket Rat)) (now : ℕ → Time) (n : ℕ) : Bool :=
  (luaTokenBucket capacity refillRate (now n) (luaAfter capacity refillRate start now n)).2

/-- The key after the first `n` calls, on one clock. -/
def redisAfter (now : ℕ → Time) : ℕ → Option BucketKey
  | 0 => none
  | n + 1 => (RedisTokenBucketLimiter.tryAcquire capacity refillRate (now n) (now n)
      (redisAfter now n)).1

/-- Whether the limiter in Redis grants the `n`-th call. -/
def redisGranted (now : ℕ → Time) (n : ℕ) : Bool :=
  (RedisTokenBucketLimiter.tryAcquire capacity refillRate (now n) (now n)
    (redisAfter capacity refillRate now n)).2

/-- The in-memory limiter after the first `n` calls. -/
def memoryAfter (created : Time) (now : ℕ → Time) : ℕ → InMemoryTokenBucketLimiter
  | 0 => .new capacity refillRate created
  | n + 1 => ((memoryAfter created now n).tryAcquire (now n)).1

/-- Whether the in-memory limiter grants the `n`-th call. -/
def memoryGranted (created : Time) (now : ℕ → Time) (n : ℕ) : Bool :=
  ((memoryAfter capacity refillRate created now n).tryAcquire (now n)).2

end Script

end PromptQueue

namespace PromptQueue.Proof

open PromptQueue Base

variable {capacity : Nat} {rate : Rat}

/-! ## The script, whatever the clocks -/

/-- The bucket a first call at a time finds. -/
def opened (capacity : Nat) (start : Option (Bucket Rat)) (now : Time) : Bucket Rat :=
  start.getD ⟨capacity, now⟩

/-- The script is a token bucket that starts full, or as it was left. -/
theorem luaTokenBucket_eq (start : Option (Bucket Rat)) (now : Time) :
    luaTokenBucket capacity rate now start
      = (opened capacity start now).take (capacity : Rat) rate now := by
  cases start with
  | none => exact luaTokenBucket_none capacity rate now
  | some b => exact luaTokenBucket_some capacity rate now b

theorem opened_luaAfter (start : Option (Bucket Rat)) (now : ℕ → Time) (n : ℕ) :
    opened capacity (luaAfter capacity rate start now n) (now n)
      = (opened capacity start (now 0)).after (capacity : Rat) rate now n := by
  induction n with
  | zero => rfl
  | succ n ih =>
      rw [luaAfter, luaTokenBucket_eq, ih]
      rfl

theorem luaGranted_eq (start : Option (Bucket Rat)) (now : ℕ → Time) (n : ℕ) :
    luaGranted capacity rate start now n
      = (opened capacity start (now 0)).granted (capacity : Rat) rate now n := by
  unfold luaGranted Bucket.granted
  rw [luaTokenBucket_eq, opened_luaAfter]

/--
**Skewed clocks mint no tokens.** Whatever the key held before, and whatever times the
callers send, the calls from one to a later one that is granted include at most a full
bucket's worth and what was refilled between the two times.
-/
theorem script_grants_le (start : Option (Bucket Rat)) (now : ℕ → Time) {i j : ℕ} (hij : i ≤ j)
    (hj : luaGranted capacity rate start now j = true) :
    (((Finset.Icc i j).filter fun k => luaGranted capacity rate start now k = true).card : Rat)
      ≤ capacity + rate * (now j - now i) := by
  have hj' : (opened capacity start (now 0)).granted (capacity : Rat) rate now j = true := by
    rw [← luaGranted_eq]; exact hj
  have hle := Bucket.grants_le (opened capacity start (now 0)) now hij hj'
  unfold Bucket.grants at hle
  simpa only [luaGranted_eq] using hle

/-- Three replicas, the second of them ten seconds slow. -/
def skewedClocks (n : ℕ) : Time := if n = 1 then 0 else 10

/-- The slow one costs the others what it set back. -/
theorem script_grants_le_skewed : luaGranted 2 (1 / 10) none skewedClocks 2 = true ∧
    (((Finset.Icc 0 2).filter fun k => luaGranted 2 (1 / 10) none skewedClocks k = true).card
      : Rat) ≤ 2 + 1 / 10 * (skewedClocks 2 - skewedClocks 0) :=
  ⟨by decide +kernel, script_grants_le none skewedClocks (Nat.zero_le 2) (by decide +kernel)⟩

/-! ## `EXPIRE`, on one clock -/

/-- The key in Redis and the limiter in memory stand for the same bucket. -/
structure Matched (capacity : Nat) (rate : Rat) (key : Option BucketKey)
    (l : InMemoryTokenBucketLimiter) : Prop where
  capacity_eq : l.capacity = capacity
  rate_eq : l.refillPerSec = rate
  nonneg : 0 ≤ l.tokens
  /-- Before the first call there is no key, and the limiter is full. -/
  missing : key = none → l.tokens = capacity
  /-- The key was written by the last call. -/
  written : ∀ k ∈ key, k.hash = l.bucket ∧
    k.expireAt = l.lastRefill + RedisTokenBucketLimiter.expireSeconds

theorem matched_new (capacity : Nat) (rate : Rat) (created : Time) :
    Matched capacity rate none (.new capacity rate created) where
  capacity_eq := rfl
  rate_eq := rfl
  nonneg := Nat.cast_nonneg capacity
  missing := fun _ => rfl
  written := nofun

/-- A key that has expired would have been full. -/
theorem level_opened {key : Option BucketKey} {l : InMemoryTokenBucketLimiter} {now : Time}
    (h : Matched capacity rate key l) (hrate : 0 < rate) (hle : l.lastRefill ≤ now)
    (hfull : (capacity : Rat) ≤ 120 * rate) :
    (opened capacity (BucketKey.read key now) now).level (capacity : Rat) rate now
      = l.bucket.level (capacity : Rat) rate now := by
  have hopen : (⟨capacity, now⟩ : Bucket Rat).level (capacity : Rat) rate now = capacity :=
    Bucket.level_full (by simp)
  cases key with
  | none =>
      have hidle : 0 ≤ (now - l.lastRefill) * rate :=
        mul_nonneg (sub_nonneg.mpr hle) hrate.le
      refine hopen.trans (Bucket.level_full ?_).symm
      change (capacity : Rat) ≤ l.tokens + (now - l.lastRefill) * rate
      rw [h.missing rfl]
      linarith
  | some k =>
      obtain ⟨hhash, hexp⟩ := h.written k rfl
      by_cases hlive : now ≤ k.expireAt
      · rw [BucketKey.read_live hlive, hhash]
        rfl
      · rw [BucketKey.read_expired (not_le.mp hlive)]
        refine hopen.trans (Bucket.level_full ?_).symm
        change (capacity : Rat) ≤ l.tokens + (now - l.lastRefill) * rate
        -- more than two minutes of refill
        have hgap : 120 ≤ now - l.lastRefill := by
          rw [hexp, RedisTokenBucketLimiter.expireSeconds] at hlive
          linarith [not_le.mp hlive]
        have hgain : 120 * rate ≤ (now - l.lastRefill) * rate :=
          mul_le_mul_of_nonneg_right hgap hrate.le
        linarith [h.nonneg]

/-- **One call:** the same answer, and the two still stand for the same bucket. -/
theorem matched_step {key : Option BucketKey} {l : InMemoryTokenBucketLimiter} {now : Time}
    (h : Matched capacity rate key l) (hrate : 0 < rate) (hle : l.lastRefill ≤ now)
    (hfull : (capacity : Rat) ≤ 120 * rate) :
    (RedisTokenBucketLimiter.tryAcquire capacity rate now now key).2 = (l.tryAcquire now).2 ∧
      Matched capacity rate (RedisTokenBucketLimiter.tryAcquire capacity rate now now key).1
        (l.tryAcquire now).1 := by
  have hsame : luaTokenBucket capacity rate now (BucketKey.read key now)
      = l.bucket.take (capacity : Rat) rate now := by
    rw [luaTokenBucket_eq]
    exact Bucket.take_congr (level_opened h hrate hle hfull)
  obtain ⟨hbucket, hgranted⟩ := tryAcquire_bucket l now
  obtain ⟨hcap, hrt⟩ := tryAcquire_settings l now
  rw [h.capacity_eq, h.rate_eq] at hbucket hgranted
  have hlast : (l.tryAcquire now).1.lastRefill = now :=
    (congrArg Bucket.last hbucket).trans (Bucket.take_last _ _)
  unfold RedisTokenBucketLimiter.tryAcquire
  rw [hsame]
  refine ⟨hgranted.symm, hcap.trans h.capacity_eq, hrt.trans h.rate_eq, ?_, nofun, ?_⟩
  · have hpos : 0 ≤ (l.bucket.take (capacity : Rat) rate now).1.tokens :=
      Bucket.take_nonneg (Nat.cast_nonneg capacity) hrate.le h.nonneg hle
    rw [← hbucket] at hpos
    exact hpos
  · rintro k hk
    cases hk
    exact ⟨hbucket.symm, by rw [hlast]⟩

theorem memoryAfter_last (created : Time) (now : ℕ → Time) (n : ℕ) :
    (memoryAfter capacity rate created now (n + 1)).lastRefill = now n :=
  (congrArg Bucket.last (tryAcquire_bucket _ (now n)).1).trans (Bucket.take_last _ _)

/-- The two stand for the same bucket throughout a run. -/
theorem matched_run {created : Time} {now : ℕ → Time} (hrate : 0 < rate)
    (hfull : (capacity : Rat) ≤ 120 * rate) (hmono : Monotone now) (hc : created ≤ now 0)
    (n : ℕ) : (memoryAfter capacity rate created now n).lastRefill ≤ now n ∧
      Matched capacity rate (redisAfter capacity rate now n)
        (memoryAfter capacity rate created now n) := by
  induction n with
  | zero => exact ⟨hc, matched_new capacity rate created⟩
  | succ n ih =>
      refine ⟨?_, (matched_step ih.2 hrate ih.1 hfull).2⟩
      rw [memoryAfter_last]
      exact hmono (Nat.le_succ n)

/-! ## A key dropped too early -/

/-- The in-memory limiter is a token bucket. -/
theorem memoryAfter_bucket (created : Time) (now : ℕ → Time) (n : ℕ) :
    (memoryAfter capacity rate created now n).bucket
        = (⟨capacity, created⟩ : Bucket Rat).after (capacity : Rat) rate now n ∧
      (memoryAfter capacity rate created now n).capacity = capacity ∧
      (memoryAfter capacity rate created now n).refillPerSec = rate := by
  induction n with
  | zero => exact ⟨rfl, rfl, rfl⟩
  | succ n ih =>
      obtain ⟨hb, hcap, hrt⟩ := ih
      have hbucket := (tryAcquire_bucket (memoryAfter capacity rate created now n) (now n)).1
      have hset := tryAcquire_settings (memoryAfter capacity rate created now n) (now n)
      rw [hcap, hrt, hb] at hbucket
      exact ⟨hbucket, hset.1.trans hcap, hset.2.trans hrt⟩

theorem memoryGranted_eq (created : Time) (now : ℕ → Time) (n : ℕ) :
    memoryGranted capacity rate created now n
      = (⟨capacity, created⟩ : Bucket Rat).granted (capacity : Rat) rate now n := by
  have hm := @memoryAfter_bucket capacity rate created now n
  unfold memoryGranted Bucket.granted
  rw [(tryAcquire_bucket _ _).2, hm.1, hm.2.1, hm.2.2]

/-- A call that finds a token less every time. -/
theorem take_burst {k : ℕ} {t : Time} (hk : k < capacity) :
    (⟨capacity - k, t⟩ : Bucket Rat).take (capacity : Rat) rate t
      = (⟨capacity - (k + 1 : ℕ), t⟩, true) := by
  have hkc : ((k + 1 : ℕ) : Rat) ≤ capacity := Nat.cast_le.mpr hk
  have hpos : (0 : Rat) ≤ k := Nat.cast_nonneg k
  push_cast at hkc
  have hlevel : (⟨capacity - k, t⟩ : Bucket Rat).level (capacity : Rat) rate t = capacity - k := by
    unfold Bucket.level
    rw [sub_self, zero_mul, add_zero, min_eq_right]
    linarith
  rw [Bucket.take_granted (by rw [hlevel]; linarith), hlevel]
  push_cast
  rw [sub_sub]

/-- Calls at one time that find the key missing take its tokens one by one. -/
theorem opened_burst {now : ℕ → Time} {first : ℕ} {t : Time}
    (hread : BucketKey.read (redisAfter capacity rate now first) t = none) {k : ℕ}
    (hk : k ≤ capacity) (hnow : ∀ i < k, now (first + i) = t) :
    opened capacity (BucketKey.read (redisAfter capacity rate now (first + k)) t) t
      = ⟨capacity - k, t⟩ := by
  induction k with
  | zero => rw [Nat.add_zero, hread]; simp [opened]
  | succ k ih =>
      have ih := ih (by omega) fun i hi => hnow i (by omega)
      have hkey : redisAfter capacity rate now (first + (k + 1)) = some
          ⟨⟨capacity - (k + 1 : ℕ), t⟩, t + RedisTokenBucketLimiter.expireSeconds⟩ := by
        change (RedisTokenBucketLimiter.tryAcquire capacity rate (now (first + k))
          (now (first + k)) (redisAfter capacity rate now (first + k))).1 = _
        rw [hnow k (Nat.lt_succ_self k)]
        unfold RedisTokenBucketLimiter.tryAcquire
        rw [luaTokenBucket_eq, ih, take_burst hk]
      rw [hkey, BucketKey.read_live]
      · rfl
      · simp [RedisTokenBucketLimiter.expireSeconds]

theorem redisGranted_burst {now : ℕ → Time} {first : ℕ} {t : Time}
    (hread : BucketKey.read (redisAfter capacity rate now first) t = none) {k : ℕ}
    (hk : k < capacity) (hnow : ∀ i ≤ k, now (first + i) = t) :
    redisGranted capacity rate now (first + k) = true := by
  unfold redisGranted RedisTokenBucketLimiter.tryAcquire
  rw [hnow k (Nat.le_refl k), luaTokenBucket_eq,
    opened_burst hread hk.le fun i hi => hnow i hi.le, take_burst hk]

/-- As many calls as the bucket holds at the start, and as many again at a time. -/
def twoBursts (capacity : Nat) (later : Time) (n : ℕ) : Time :=
  if n < capacity then 0 else later

theorem twoBursts_monotone {later : Time} (h : 0 ≤ later) :
    Monotone (twoBursts capacity later) := by
  intro m n hmn
  unfold twoBursts
  split_ifs with hm hn
  · exact le_refl 0
  · exact h
  · omega
  · exact le_refl later

/-- Once the key has expired, the second burst is granted in full as well. -/
theorem redisGranted_twoBursts {later : Time}
    (h : RedisTokenBucketLimiter.expireSeconds < later) (hcap : 1 ≤ capacity) {k : ℕ}
    (hk : k < 2 * capacity) : redisGranted capacity rate (twoBursts capacity later) k = true := by
  have hfirst : ∀ i < capacity, twoBursts capacity later (0 + i) = 0 := fun i hi => by
    rw [Nat.zero_add]; exact if_pos hi
  by_cases hlt : k < capacity
  · have hgr : redisGranted capacity rate (twoBursts capacity later) (0 + k) = true :=
      redisGranted_burst rfl hlt fun i hi => hfirst i (by omega)
    rwa [Nat.zero_add] at hgr
  · -- the key was last written at the start
    have hdead : BucketKey.read (redisAfter capacity rate (twoBursts capacity later) capacity)
        later = none := by
      obtain ⟨n, rfl⟩ : ∃ n, capacity = n + 1 := ⟨capacity - 1, by omega⟩
      refine BucketKey.read_expired ?_
      have hzero := hfirst n (Nat.lt_succ_self n)
      rw [Nat.zero_add] at hzero
      rw [hzero, zero_add]
      exact h
    have hgr : redisGranted capacity rate (twoBursts capacity later) (capacity + (k - capacity))
        = true := redisGranted_burst hdead (by omega) fun i hi => if_neg (by omega)
    rwa [Nat.add_sub_cancel' (not_lt.mp hlt)] at hgr

/--
**When the limiter in Redis is the one that was tested.** On every non-decreasing
sequence of calls it grants and denies what the in-memory limiter does, if and only if
an empty bucket is full again by the time its key is dropped.
-/
theorem redis_refines_iff (hcap : 1 ≤ capacity) (hrate : 0 < rate) :
    (∀ (created : Time) (now : ℕ → Time), Monotone now → created ≤ now 0 →
      ∀ n, redisGranted capacity rate now n = memoryGranted capacity rate created now n) ↔
      (capacity : Rat) ≤ 120 * rate := by
  constructor
  · intro hsame
    by_contra hlt
    have hlt := not_le.mp hlt
    -- a time after the key is gone at which the bucket would not be full
    have hgap : (120 : Rat) < capacity / rate := (lt_div_iff₀ hrate).mpr hlt
    obtain ⟨later, hlater, hbefore⟩ := exists_between hgap
    have hmono : Monotone (twoBursts capacity later) := twoBursts_monotone (by linarith)
    have hzero : twoBursts capacity later 0 = 0 := if_pos hcap
    have hall : ∀ k < 2 * capacity, memoryGranted capacity rate 0 (twoBursts capacity later) k
        = true := fun k hk => by
      rw [← hsame 0 _ hmono hzero.ge k]
      exact redisGranted_twoBursts hlater hcap hk
    have hlast : Bucket.granted (capacity : Rat) rate ⟨capacity, 0⟩ (twoBursts capacity later)
        (2 * capacity - 1) = true := by
      rw [← memoryGranted_eq]
      exact hall _ (by omega)
    have hle := Bucket.grants_le _ (twoBursts capacity later) (Nat.zero_le _) hlast
    have hcount : Bucket.grants (capacity : Rat) rate ⟨capacity, 0⟩ (twoBursts capacity later) 0
        (2 * capacity - 1) = 2 * capacity := by
      unfold Bucket.grants
      rw [Finset.filter_true_of_mem, Nat.card_Icc]
      · omega
      · intro k hk
        rw [← memoryGranted_eq]
        exact hall k (by have := (Finset.mem_Icc.mp hk).2; omega)
    have hend : twoBursts capacity later (2 * capacity - 1) = later := if_neg (by omega)
    have hbefore : later * rate < capacity := (lt_div_iff₀ hrate).mp hbefore
    rw [hcount, hzero, hend] at hle
    push_cast at hle
    linarith
  · intro hfull created now hmono hc n
    obtain ⟨hle, hm⟩ := matched_run hrate hfull hmono hc n
    exact (matched_step hm hrate hle hfull).1

/-- The shipped settings are on the safe side: a minute fills the bucket. -/
theorem redis_refines_shipped : (1 ≤ 300 ∧ (0 : Rat) < 5) ∧
    ∀ (created : Time) (now : ℕ → Time), Monotone now → created ≤ now 0 →
      ∀ n, redisGranted 300 5 now n = memoryGranted 300 5 created now n :=
  ⟨by decide +kernel,
    (redis_refines_iff (by decide) (by decide +kernel)).mpr (by decide +kernel)⟩

/--
**A bucket of two, with a token every hundred seconds.** Both tokens go at the start.
Two minutes later there is one again, and the limiter in Redis grants two.
-/
theorem redis_not_refines : ¬ ∀ (capacity : Nat) (rate : Rat), 1 ≤ capacity → 0 < rate →
    ∀ (created : Time) (now : ℕ → Time), Monotone now → created ≤ now 0 →
      ∀ n, redisGranted capacity rate now n = memoryGranted capacity rate created now n := by
  intro h
  have hsame := h 2 (1 / 100) (by decide) (by decide +kernel) 0 (twoBursts 2 121)
    (twoBursts_monotone (by decide +kernel)) (by decide +kernel) 3
  exact absurd hsame (by decide +kernel)

end PromptQueue.Proof
