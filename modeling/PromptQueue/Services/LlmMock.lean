import PromptQueue.Base.RateLimit
import PromptQueue.Exceptions

/-!
# The provider's own guard

`_SlidingWindowGuard` and the way `MockLLMProvider.complete` uses it, from
`src/services/llm_mock.py`. What the provider answers once the guard has let a call
through is up to it.
-/

namespace PromptQueue

open Base

/-- `_SlidingWindowGuard`. -/
structure SlidingWindowGuard where
  limit : Nat
  window : Rat
  calls : List Time
  deriving DecidableEq, Repr

namespace SlidingWindowGuard

/-- `__init__`. -/
def new (limit : Nat) (window : Rat) : SlidingWindowGuard := ⟨limit, window, []⟩

/-- `try_acquire`. -/
def tryAcquire (g : SlidingWindowGuard) (now : Time) : SlidingWindowGuard × Bool :=
  let cutoff := now - g.window
  let calls := g.calls.dropWhile fun t => decide (t < cutoff)
  if g.limit ≤ calls.length then ({ g with calls := calls }, false)
  else ({ g with calls := calls ++ [now] }, true)

end SlidingWindowGuard

namespace MockLLMProvider

/-- The window of its guard. -/
def guardWindow : Rat := 60

/-- The wait its guard asks for. -/
def guardWait : Rat := 1 / 5

/-- `RateLimitExceededError(wait_seconds=0.2)`. -/
def guardError : Exc where
  cls := .rateLimitExceededError guardWait
  message := "Rate limit exceeded; retry after 0.20s"

/-- `complete`, up to where the guard has decided. -/
def guarded (g : SlidingWindowGuard) (now : Time) : SlidingWindowGuard × Except Exc Unit :=
  let (g', passed) := g.tryAcquire now
  (g', if passed then .ok () else .error guardError)

end MockLLMProvider

/-! ## The guard is a sliding window -/

theorem SlidingWindowGuard.tryAcquire_calls (g : SlidingWindowGuard) (now : Time) :
    (g.tryAcquire now).1.calls = (Window.take g.limit g.window g.calls now).1 ∧
      (g.tryAcquire now).2 = (Window.take g.limit g.window g.calls now).2 := by
  unfold SlidingWindowGuard.tryAcquire Window.take Window.recent
  dsimp only
  split <;> exact ⟨rfl, rfl⟩

/-- A call leaves the settings as they are. -/
theorem SlidingWindowGuard.tryAcquire_settings (g : SlidingWindowGuard) (now : Time) :
    (g.tryAcquire now).1.limit = g.limit ∧ (g.tryAcquire now).1.window = g.window := by
  unfold SlidingWindowGuard.tryAcquire
  dsimp only
  split <;> exact ⟨rfl, rfl⟩

end PromptQueue
