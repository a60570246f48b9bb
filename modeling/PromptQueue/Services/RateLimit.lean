import PromptQueue.Base.RateLimit
import PromptQueue.Models

/-!
# The rate limiters

`src/services/ratelimit.py`. The script runs atomically inside Redis, on the time its
caller sends along; `EXPIRE` counts on the clock of Redis. Numbers are exact. The
in-memory limiter is the one the unit tests run.
-/

namespace PromptQueue

open Base

/--
`_LUA_TOKEN_BUCKET`, on the hash under its key: the fields `tokens` and `last_refill`,
which are always set together. A missing key is read as a full bucket.
-/
def luaTokenBucket (capacity : Nat) (refillRate : Rat) (now : Time)
    (bucket : Option (Bucket Rat)) : Bucket Rat × Bool :=
  let tokens := (bucket.map (·.tokens)).getD (capacity : Rat)
  let lastRefill := (bucket.map (·.last)).getD now
  let tokens := min (capacity : Rat) (tokens + (now - lastRefill) * refillRate)
  if 1 ≤ tokens then (⟨tokens - 1, now⟩, true) else (⟨tokens, now⟩, false)

/-- The key `llm:ratelimit:global`. -/
structure BucketKey where
  hash : Bucket Rat
  /-- When Redis drops it. -/
  expireAt : Time
  deriving DecidableEq, Repr

/-- What `HMGET` finds at a time of the Redis clock. -/
def BucketKey.read (key : Option BucketKey) (clock : Time) : Option (Bucket Rat) :=
  (key.filter fun k => clock ≤ k.expireAt).map (·.hash)

namespace RedisTokenBucketLimiter

/-- `EXPIRE key 120`. -/
def expireSeconds : Rat := 120

/-- `try_acquire` of a caller whose clock says `now`, when that of Redis says `clock`. -/
def tryAcquire (capacity : Nat) (refillPerSec : Rat) (clock now : Time)
    (key : Option BucketKey) : Option BucketKey × Bool :=
  let (hash, granted) := luaTokenBucket capacity refillPerSec now (BucketKey.read key clock)
  (some ⟨hash, clock + expireSeconds⟩, granted)

end RedisTokenBucketLimiter

/-- `InMemoryTokenBucketLimiter`. -/
structure InMemoryTokenBucketLimiter where
  tokens : Rat
  capacity : Nat
  refillPerSec : Rat
  lastRefill : Time
  deriving DecidableEq, Repr

namespace InMemoryTokenBucketLimiter

/-- `__init__`, at a time. -/
def new (capacity : Nat) (refillPerSec : Rat) (created : Time) : InMemoryTokenBucketLimiter where
  tokens := capacity
  capacity := capacity
  refillPerSec := refillPerSec
  lastRefill := created

/-- `try_acquire`. -/
def tryAcquire (l : InMemoryTokenBucketLimiter) (now : Time) :
    InMemoryTokenBucketLimiter × Bool :=
  let elapsed := now - l.lastRefill
  let tokens := min (l.capacity : Rat) (l.tokens + elapsed * l.refillPerSec)
  if 1 ≤ tokens then ({ l with tokens := tokens - 1, lastRefill := now }, true)
  else ({ l with tokens := tokens, lastRefill := now }, false)

/-- What is in it, as a bucket. -/
def bucket (l : InMemoryTokenBucketLimiter) : Bucket Rat := ⟨l.tokens, l.lastRefill⟩

end InMemoryTokenBucketLimiter

/-! ## Both are token buckets -/

theorem luaTokenBucket_some (capacity : Nat) (refillRate : Rat) (now : Time) (b : Bucket Rat) :
    luaTokenBucket capacity refillRate now (some b) = b.take (capacity : Rat) refillRate now := by
  unfold luaTokenBucket
  rfl

theorem luaTokenBucket_none (capacity : Nat) (refillRate : Rat) (now : Time) :
    luaTokenBucket capacity refillRate now none
      = Bucket.take (capacity : Rat) refillRate ⟨capacity, now⟩ now := by
  unfold luaTokenBucket
  rfl

theorem tryAcquire_bucket (l : InMemoryTokenBucketLimiter) (now : Time) :
    (l.tryAcquire now).1.bucket = (l.bucket.take (l.capacity : Rat) l.refillPerSec now).1 ∧
      (l.tryAcquire now).2 = (l.bucket.take (l.capacity : Rat) l.refillPerSec now).2 := by
  have hlevel : min (l.capacity : Rat) (l.tokens + (now - l.lastRefill) * l.refillPerSec)
      = l.bucket.level (l.capacity : Rat) l.refillPerSec now := rfl
  unfold InMemoryTokenBucketLimiter.tryAcquire
  dsimp only
  rw [hlevel]
  by_cases h : 1 ≤ l.bucket.level (l.capacity : Rat) l.refillPerSec now
  · rw [if_pos h, Bucket.take_granted h]
    exact ⟨rfl, rfl⟩
  · rw [if_neg h, Bucket.take_denied h]
    exact ⟨rfl, rfl⟩

/-- A call leaves the settings as they are. -/
theorem tryAcquire_settings (l : InMemoryTokenBucketLimiter) (now : Time) :
    (l.tryAcquire now).1.capacity = l.capacity ∧
      (l.tryAcquire now).1.refillPerSec = l.refillPerSec := by
  unfold InMemoryTokenBucketLimiter.tryAcquire
  dsimp only
  split <;> exact ⟨rfl, rfl⟩

/-- A key that is still there is read as it was left. -/
theorem BucketKey.read_live {k : BucketKey} {clock : Time} (h : clock ≤ k.expireAt) :
    BucketKey.read (some k) clock = some k.hash := by
  simp [BucketKey.read, Option.filter, h]

/-- A key that has expired is missing. -/
theorem BucketKey.read_expired {k : BucketKey} {clock : Time} (h : k.expireAt < clock) :
    BucketKey.read (some k) clock = none := by
  simp [BucketKey.read, Option.filter, not_le.mpr h]

end PromptQueue
