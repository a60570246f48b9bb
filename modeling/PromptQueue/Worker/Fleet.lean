import PromptQueue.Base.Machine
import PromptQueue.Services.LlmMock
import PromptQueue.Services.RateLimit
import PromptQueue.World

/-!
# The workers and the rate of their calls

What a pipeline goes through before the provider is called: stage 2 asks the limiter,
which all processes share, and stage 3 the guard of the provider object its process
has. `Fleet` is the state these two keep, for any number of processes, each with any
number of slots, and any pipelines that come to stage 2 in them. All read one clock.

`throttled` puts it together with the whole system: there the limiter and the guard
answer what the fleet says.
-/

namespace PromptQueue

open Base

/-- What the limiter, the guards and the pipelines between them hold. -/
structure Fleet (P : Type) where
  /-- The limiter's key. -/
  redis : Option BucketKey
  /-- The guard of each process. -/
  guards : P → SlidingWindowGuard
  /-- Slots whose pipeline the limiter granted a call it has not made. -/
  admitted : WorkerId → Bool
  clock : Time
  /-- Ghost: the provider calls issued, oldest first, and by which process. -/
  issued : List (P × Time)

/-- What a pipeline does about the rate. -/
inductive FleetEvent where
  /-- Stage 2: `try_acquire` of the limiter. -/
  | acquire (s : WorkerId) (now : Time)
  /-- Stage 3: `complete` comes to the guard. -/
  | complete (s : WorkerId) (now : Time)
  /-- The pipeline ends between the two. -/
  | leave (s : WorkerId)
  deriving DecidableEq, Repr

namespace Fleet

variable {P : Type} [DecidableEq P]

/-- `RATE_LIMIT_REFILL_PER_SEC` for a capacity per minute, as shipped. -/
def refillPerSec (capacity : Nat) : Rat := capacity / 60

/-- Before the first call. -/
def init (P : Type) (capacity : Nat) : Fleet P where
  redis := none
  guards := fun _ => .new capacity MockLLMProvider.guardWindow
  admitted := fun _ => false
  clock := 0
  issued := []

/-- One move. The clock does not go back. -/
def step (capacity : Nat) (proc : WorkerId → P) (f : Fleet P) : FleetEvent → Option (Fleet P)
  | .acquire s now =>
      if f.clock ≤ now then
        let (redis, granted) :=
          RedisTokenBucketLimiter.tryAcquire capacity (refillPerSec capacity) now now f.redis
        some { f with
          redis := redis
          admitted := Function.update f.admitted s granted
          clock := now }
      else none
  | .complete s now =>
      if f.clock ≤ now ∧ f.admitted s = true then
        let (guard, passed) := (f.guards (proc s)).tryAcquire now
        some { f with
          guards := Function.update f.guards (proc s) guard
          admitted := Function.update f.admitted s false
          clock := now
          issued := if passed then f.issued ++ [(proc s, now)] else f.issued }
      else none
  | .leave s => some { f with admitted := Function.update f.admitted s false }

/-- The workers as a machine. -/
def machine (capacity : Nat) (proc : WorkerId → P) : Machine (Fleet P) FleetEvent where
  init := init P capacity
  step := step capacity proc

/-- How many calls all processes together issued in the minute from a time on. -/
def callsInMinute (f : Fleet P) (start : Time) : Nat :=
  Window.inWindow MockLLMProvider.guardWindow (f.issued.map (·.2)) start

end Fleet

/-! ## Together with the system -/

namespace World

variable {S : Type} [LinearOrder S] (env : Env S) {P : Type} [DecidableEq P] (capacity : Nat)
  (proc : WorkerId → P)

/-- The fleet's side of an event, and the fleets that answer as the event says. -/
def fleetSide (f : Fleet P) : Event → Time → Option (FleetEvent × (Fleet P → Bool))
  | .limiter s .granted, now => some (.acquire s now, fun g => g.admitted s)
  | .limiter s .denied, now => some (.acquire s now, fun g => !g.admitted s)
  | .llmCall s, now => some (.complete s now, fun g => f.issued.length < g.issued.length)
  | .llmLimited s wait message, now =>
      some (.complete s now, fun g => g.issued.length = f.issued.length ∧
        (⟨.rateLimitExceededError wait, message⟩ : Exc) = MockLLMProvider.guardError)
  | .cancel s, _ | .abort s, _ | .crash s, _ => some (.leave s, fun _ => true)
  | _, _ => none

/-- One move of the system with the answers of the fleet. -/
def throttledStep (x : World × Fleet P) (e : Event × Time) : Option (World × Fleet P) :=
  (World.step env x.1 e.1).bind fun w =>
    match fleetSide x.2 e.1 e.2 with
    | some (fe, ok) => ((x.2.step capacity proc fe).filter ok).map fun f => (w, f)
    | none => some (w, x.2)

/-- The system with its rate limits. -/
def throttled : Machine (World × Fleet P) (Event × Time) where
  init := (World.init, Fleet.init P capacity)
  step := throttledStep env capacity proc

end World

end PromptQueue
