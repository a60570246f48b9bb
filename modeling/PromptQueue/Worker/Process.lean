import Mathlib.Logic.Function.Basic
import PromptQueue.Worker.Pool

/-!
# The worker process

`WorkerPool.run` of `src/worker/pool.py`, the task group of the slots, and `main` of
`src/worker/__main__.py`, which gathers it with `Reaper.run` of `src/worker/reaper.py`. The
handler of `src/worker/shutdown.py` sets the event all slots read. A task group with an
error cancels the slots that are left, once, and waits for every one of them. A
`CancelledError` is thrown where the slot is resumed next, whatever it was waiting for.
-/

namespace PromptQueue

open Base

/-- The awaits of `Reaper.run`. -/
inductive ReaperPoint where
  | sleep
  /-- `reap_expired_leases`. -/
  | reap
  | notify
  | ended
  deriving DecidableEq, Repr

/-- The awaits of `main`, from the moment both are running. -/
inductive MainPoint where
  /-- `asyncio.gather(pool.run(), reaper.run())`. -/
  | gather
  /-- In the `finally`: `notifier.close()`, `redis_client.aclose()`, `engine.dispose()`. -/
  | closeNotifier
  | closeRedis
  | disposeEngine
  /-- `main` is over, and with it `asyncio.run`. -/
  | exited
  deriving DecidableEq, Repr

/-- A worker process. -/
structure WorkerProcess where
  slots : Nat → SlotTask
  /-- The slots the group has cancelled that have not been resumed since. -/
  cancelling : Nat → Bool
  /-- The group has errors. -/
  failed : Bool
  reaper : ReaperPoint
  main : MainPoint

/-- What the reaper's await comes back with. -/
inductive ReaperEvent where
  | woke
  /-- `reap_expired_leases` took some back, or none. -/
  | reaped (some : Bool)
  | notified
  /-- The query or the notification raised. -/
  | raised
  deriving DecidableEq, Repr

/-- What happens to a process. -/
inductive ProcessEvent where
  /-- SIGTERM or SIGINT. -/
  | signal
  /-- A slot's await comes back. -/
  | slot (i : Nat) (e : SlotEvent)
  /-- A slot the group has cancelled is resumed. -/
  | cancelled (i : Nat)
  | reaper (e : ReaperEvent)
  /-- `gather` is over. -/
  | gathered
  /-- A connection is closed, or closing it raised. -/
  | closed (ok : Bool)
  /-- `asyncio.run` cancels what is left when `main` is over. -/
  | teardown
  deriving DecidableEq, Repr

/-- The resumptions of slot `i`. -/
def ProcessEvent.turns (ev : ProcessEvent) (i : Nat) : Bool :=
  match ev with
  | .slot k _ | .cancelled k => k = i
  | _ => false

/-- What an await of a slot itself comes back with. -/
def SlotEvent.resumes : SlotEvent → Bool
  | .shutdown | .cancel => false
  | _ => true

/-- The resumptions that end a slot with an exception. -/
def SlotTask.raises (t : SlotTask) : SlotEvent → Bool
  | .claimRaised => t.point = .claimNext
  | .notified => t.point = .notify .raised
  | _ => false

/-- `Reaper.run`: a round that raises is logged, and the next one follows. -/
def ReaperPoint.step : ReaperPoint → ReaperEvent → Option ReaperPoint
  | .sleep, .woke => some .reap
  | .reap, .reaped true => some .notify
  | .reap, .reaped false => some .sleep
  | .notify, .notified => some .sleep
  | .reap, .raised | .notify, .raised => some .sleep
  | _, _ => none

/-- `main`'s `finally`: what raises is the end of it. -/
def MainPoint.close : MainPoint → Bool → Option MainPoint
  | .closeNotifier, true => some .closeRedis
  | .closeRedis, true => some .disposeEngine
  | .disposeEngine, true => some .exited
  | .closeNotifier, false | .closeRedis, false | .disposeEngine, false => some .exited
  | _, _ => none

namespace WorkerProcess

/-- The slots of a pool of `n` are all over: `pool.run()` returns, or raises its errors. -/
def PoolOver (n : Nat) (p : WorkerProcess) : Prop :=
  ∀ i < n, (p.slots i).point = .ended

instance (n : Nat) (p : WorkerProcess) : Decidable (p.PoolOver n) :=
  inferInstanceAs (Decidable (∀ i < n, (p.slots i).point = .ended))

/-- Both coroutines start. -/
def init : WorkerProcess where
  slots _ := SlotTask.machine.init
  cancelling _ := false
  failed := false
  reaper := .sleep
  main := .gather

/-- A slot goes on. -/
def setSlot (p : WorkerProcess) (i : Nat) (t : SlotTask) : WorkerProcess :=
  { p with
    slots := Function.update p.slots i t
    cancelling := Function.update p.cancelling i false }

/-- The handler sets the event. -/
def setEvent (p : WorkerProcess) : WorkerProcess :=
  { p with slots := fun i => { p.slots i with shutdown := true } }

/-- The group's first error: it cancels the slots of the pool that are not over. -/
def abort (n : Nat) (p : WorkerProcess) : WorkerProcess :=
  if p.failed then p
  else
    { p with
      failed := true
      cancelling := fun i => decide (i < n ∧ (p.slots i).point ≠ .ended) }

/-- One step of a process with a pool of `n` slots. -/
def step (n : Nat) (p : WorkerProcess) : ProcessEvent → Option WorkerProcess
  | .signal => if p.main = .exited then none else some p.setEvent
  | .slot i e =>
      if i < n ∧ p.cancelling i = false ∧ e.resumes = true then
        ((p.slots i).step e).map fun t =>
          if (p.slots i).raises e then (p.setSlot i t).abort n else p.setSlot i t
      else none
  | .cancelled i =>
      if p.cancelling i = true then ((p.slots i).step .cancel).map (p.setSlot i) else none
  | .reaper e => (p.reaper.step e).map fun r => { p with reaper := r }
  | .gathered =>
      -- an exception ends `gather` at once, else it waits for both
      if p.main = .gather ∧ p.PoolOver n ∧ (p.failed = true ∨ p.reaper = .ended) then
        some { p with main := .closeNotifier }
      else none
  | .closed ok => (p.main.close ok).map fun m => { p with main := m }
  | .teardown =>
      -- `except asyncio.CancelledError: break`
      if p.main = .exited ∧ p.reaper ≠ .ended then some { p with reaper := .ended } else none

/-- A process with a pool of `n` slots. -/
def machine (n : Nat) : Machine WorkerProcess ProcessEvent where
  init := init
  step := step n

end WorkerProcess

end PromptQueue
