import PromptQueue.Proof.Replay
import PromptQueue.Proof.TokenBucket

/-!
# Whether the advertised wait is enough

A denied pipeline puts its job back for `wait_time_seconds`, the time one token takes.
That is enough for a bucket that holds what it was left with. The script settles every
call against the one before, on the time its caller sends, so a call from a replica whose
clock is behind takes tokens out of the bucket; when it takes more than there are, the
bucket is in debt, and a token takes longer than it is said to.
-/

namespace PromptQueue

open Base

section

variable (capacity : Nat) (refillPerSec : Rat) (clock now : ℕ → Time)

/--
The key after the first `n` calls of a sequence: the `n`-th is sent with the time
`now n`, when the clock of Redis says `clock n`.
-/
def sharedAfter : ℕ → Option BucketKey
  | 0 => none
  | n + 1 => (RedisTokenBucketLimiter.tryAcquire capacity refillPerSec (clock n) (now n)
      (sharedAfter n)).1

/-- Whether the `n`-th call is granted. -/
def sharedGranted (n : ℕ) : Bool :=
  (RedisTokenBucketLimiter.tryAcquire capacity refillPerSec (clock n) (now n)
    (sharedAfter capacity refillPerSec clock now n)).2

end

/--
A call whose time is behind that of the last one by no more than the tokens left are
worth. Where the key is missing, any time is.
-/
def InStep (refillPerSec : Rat) (clock now : Time) (key : Option BucketKey) : Prop :=
  ∀ b ∈ BucketKey.read key clock, b.last ≤ now + b.tokens / refillPerSec

end PromptQueue

namespace PromptQueue.Proof

open PromptQueue Base

variable {capacity : Nat} {rate : Rat} {clock now : ℕ → Time}

/-- A call that finds a bucket in step leaves it with what it has, and only such a call does. -/
theorem inStep_iff (hrate : 0 < rate) {c t : Time} {key : Option BucketKey} :
    InStep rate c t key ↔
      0 ≤ (opened capacity (BucketKey.read key c) t).level (capacity : Rat) rate t := by
  have hpos : (0 : Rat) ≤ capacity := Nat.cast_nonneg capacity
  unfold InStep opened
  cases BucketKey.read key c with
  | none =>
      have hfull : (⟨capacity, t⟩ : Bucket Rat).level (capacity : Rat) rate t = capacity :=
        Bucket.level_full (by simp)
      rw [Option.getD_none, hfull]
      exact ⟨fun _ => hpos, fun _ => nofun⟩
  | some b =>
      rw [Option.getD_some, Bucket.level_nonneg_iff hpos hrate]
      exact ⟨fun h => h b rfl, fun h b' hb' => Option.some.inj hb' ▸ h⟩

/-- What a denied call leaves under the key. -/
theorem key_of_denied {c t : Time} {key : Option BucketKey}
    (h : (RedisTokenBucketLimiter.tryAcquire capacity rate c t key).2 = false) :
    (RedisTokenBucketLimiter.tryAcquire capacity rate c t key).1 = some
      ⟨⟨(opened capacity (BucketKey.read key c) t).level (capacity : Rat) rate t, t⟩,
        c + RedisTokenBucketLimiter.expireSeconds⟩ := by
  unfold RedisTokenBucketLimiter.tryAcquire at h ⊢
  rw [luaTokenBucket_eq] at h ⊢
  have hlow : ¬ 1 ≤ (opened capacity (BucketKey.read key c) t).level (capacity : Rat) rate t := by
    intro hle
    rw [Bucket.take_granted hle] at h
    exact Bool.noConfusion h
  rw [Bucket.take_denied hlow]

/-- A call that finds the key missing is granted. -/
theorem granted_of_missing (hcap : 1 ≤ capacity) {c t : Time} {key : Option BucketKey}
    (h : BucketKey.read key c = none) :
    (RedisTokenBucketLimiter.tryAcquire capacity rate c t key).2 = true := by
  have hfull : (⟨capacity, t⟩ : Bucket Rat).level (capacity : Rat) rate t = capacity :=
    Bucket.level_full (by simp)
  unfold RedisTokenBucketLimiter.tryAcquire
  rw [luaTokenBucket_eq, h, opened, Option.getD_none, Bucket.take_granted]
  rw [hfull]
  exact_mod_cast hcap

/--
**When the wait is enough.** After a call that is denied, every call sent with a time
later by `wait_time_seconds` is granted, whenever it reaches Redis, if and only if the
denied one was in step.
-/
theorem wait_suffices_iff {S : Type} [LinearOrder S] (env : Env S) (hcap : 1 ≤ capacity)
    (hrate : 0 < env.refillPerSec) (clock now : ℕ → Time) (n : ℕ)
    (hd : sharedGranted capacity env.refillPerSec clock now n = false) :
    (∀ c later, now n + env.waitTimeSeconds ≤ later →
      (RedisTokenBucketLimiter.tryAcquire capacity env.refillPerSec c later
        (sharedAfter capacity env.refillPerSec clock now (n + 1))).2 = true) ↔
      InStep env.refillPerSec (clock n) (now n)
        (sharedAfter capacity env.refillPerSec clock now n) := by
  have hcap' : (1 : Rat) ≤ capacity := by exact_mod_cast hcap
  rw [inStep_iff hrate, sharedAfter, key_of_denied hd]
  generalize (opened capacity (BucketKey.read (sharedAfter capacity env.refillPerSec clock now n)
    (clock n)) (now n)).level (capacity : Rat) env.refillPerSec (now n) = left
  have henough := @Bucket.wait_enough_iff Rat _ _ capacity env.refillPerSec _ ⟨left, now n⟩
    hcap' hrate
  have hlive : ∀ {c later : Time}, c ≤ clock n + RedisTokenBucketLimiter.expireSeconds →
      (RedisTokenBucketLimiter.tryAcquire capacity env.refillPerSec c later
        (some ⟨⟨left, now n⟩, clock n + RedisTokenBucketLimiter.expireSeconds⟩)).2
        = ((⟨left, now n⟩ : Bucket Rat).take (capacity : Rat) env.refillPerSec later).2 := by
    intro c later hc
    unfold RedisTokenBucketLimiter.tryAcquire
    rw [luaTokenBucket_eq, BucketKey.read_live hc]
    rfl
  constructor
  · intro h
    refine henough.mp fun later hlater => ?_
    have hnow : clock n ≤ clock n + RedisTokenBucketLimiter.expireSeconds := by
      rw [RedisTokenBucketLimiter.expireSeconds]
      linarith
    rw [← hlive hnow]
    exact h (clock n) later hlater
  · intro hleft c later hlater
    by_cases hc : c ≤ clock n + RedisTokenBucketLimiter.expireSeconds
    · rw [hlive hc]
      exact henough.mpr hleft later hlater
    · exact granted_of_missing hcap (BucketKey.read_expired (not_le.mp hc))

/-! ## One clock -/

/-- While the times do not go back, the bucket is never in debt. -/
theorem nonneg_shared (hrate : 0 < rate) (hmono : Monotone now) (n : ℕ) :
    ∀ k ∈ sharedAfter capacity rate clock now n,
      0 ≤ k.hash.tokens ∧ k.hash.last ≤ now n := by
  induction n with
  | zero => nofun
  | succ n ih =>
      have hpos : (0 : Rat) ≤ capacity := Nat.cast_nonneg capacity
      have hfound : 0 ≤ (opened capacity (BucketKey.read (sharedAfter capacity rate clock now n)
          (clock n)) (now n)).tokens ∧ (opened capacity (BucketKey.read
          (sharedAfter capacity rate clock now n) (clock n)) (now n)).last ≤ now n := by
        unfold BucketKey.read opened
        cases hk : (sharedAfter capacity rate clock now n).filter
            (fun k => clock n ≤ k.expireAt) with
        | none => exact ⟨hpos, le_refl _⟩
        | some k => exact ih k (Option.filter_eq_some_iff.mp hk).1
      intro k hk
      unfold sharedAfter RedisTokenBucketLimiter.tryAcquire at hk
      rw [luaTokenBucket_eq] at hk
      have hk := Option.some.inj hk
      rw [← hk]
      exact ⟨Bucket.take_nonneg hpos hrate.le hfound.1 hfound.2,
        (Bucket.take_last _ _).le.trans (hmono (Nat.le_succ n))⟩

/-- **With one clock every call is in step**, so there the wait is always enough. -/
theorem inStep_of_monotone (hrate : 0 < rate) (hmono : Monotone now) (n : ℕ) :
    InStep rate (clock n) (now n) (sharedAfter capacity rate clock now n) := by
  intro b hb
  obtain ⟨k, hk, rfl⟩ := Option.map_eq_some_iff.mp hb
  obtain ⟨htokens, hlast⟩ := nonneg_shared hrate hmono n k (Option.filter_eq_some_iff.mp hk).1
  exact hlast.trans (le_add_of_nonneg_right (div_nonneg htokens hrate.le))

/-! ## Two clocks -/

/-- A bucket of two that gains a token in ten seconds. -/
def slowRefill : Env Rat := { deployment with refillPerSec := 1 / 10 }

/-- Two replicas, of which the second is a hundred seconds slow. -/
def slowReplica (n : ℕ) : Time := if n = 0 then 100 else 0

/-- A bucket that is in step and empty: the third call is denied, ten seconds later there is one. -/
theorem wait_suffices_iff_in_step :
    sharedGranted 2 slowRefill.refillPerSec (fun _ => 0) (fun _ => 0) 2 = false ∧
    ∀ c later, 0 + slowRefill.waitTimeSeconds ≤ later →
      (RedisTokenBucketLimiter.tryAcquire 2 slowRefill.refillPerSec c later
        (sharedAfter 2 slowRefill.refillPerSec (fun _ => 0) (fun _ => 0) 3)).2 = true := by
  have hdenied : sharedGranted 2 slowRefill.refillPerSec (fun _ => 0) (fun _ => 0) 2 = false := by
    decide +kernel
  have hrate : 0 < slowRefill.refillPerSec := by decide +kernel
  exact ⟨hdenied, (wait_suffices_iff slowRefill (by decide) hrate (fun _ => 0) (fun _ => 0) 2
    hdenied).mpr (inStep_of_monotone hrate monotone_const 2)⟩

/-- The slow replica is denied, and denied again after the wait it was told. -/
theorem wait_not_enough : ¬ ∀ (env : Env Rat) (capacity : Nat) (clock now : ℕ → Time) (n : ℕ),
    1 ≤ capacity → 0 < env.refillPerSec →
    sharedGranted capacity env.refillPerSec clock now n = false →
    ∀ c later, now n + env.waitTimeSeconds ≤ later →
      (RedisTokenBucketLimiter.tryAcquire capacity env.refillPerSec c later
        (sharedAfter capacity env.refillPerSec clock now (n + 1))).2 = true := by
  intro h
  have hgranted := h slowRefill 2 (fun _ => 0) slowReplica 1 (by decide) (by decide +kernel)
    (by decide +kernel) 0 10 (by decide +kernel)
  exact absurd hgranted (by decide +kernel)

end PromptQueue.Proof
