import PromptQueue.Base.Machine
import PromptQueue.World

/-!
# A worker slot as a coroutine

`WorkerPool._worker_loop` of `src/worker/pool.py`, with what it awaits in
`src/worker/claimer.py`, `src/db/listen_notify.py` and `src/worker/heartbeat.py`. A
state is the await the coroutine is suspended at, an event is what that await comes
back with. `cancel` is a `CancelledError` delivered there, which is how a task group
stops the siblings of a task that raised.
-/

namespace PromptQueue

open Base

/-- The awaits of a slot. -/
inductive SlotPoint where
  /-- `next_job`: `claim_next`. -/
  | claimNext
  /-- `wait_for_notification`: `asyncpg.connect`. -/
  | connect
  /-- `wait_for_notification`: `add_listener` and `wait_for`. -/
  | listen
  /-- `wait_for_notification`: `remove_listener` and `close`. -/
  | unlisten
  /-- `await pipeline_task`. -/
  | pipeline
  /-- `HeartbeatManager.stop`, in the `finally` of a task that ended so. -/
  | heartbeatStop (how : Ending)
  /-- `notify`, in the same `finally`. -/
  | notify (how : Ending)
  /-- The coroutine has ended. -/
  | ended
  deriving DecidableEq, Repr

/-- A slot's coroutine. -/
structure SlotTask where
  point : SlotPoint
  /-- `shutdown_event.is_set()`. -/
  shutdown : Bool
  /-- Ghost: how many times it has called `claim_next`. -/
  claims : Nat
  deriving DecidableEq, Repr

/-- What an await comes back with, and what happens around the slot. -/
inductive SlotEvent where
  /-- The shutdown event is set. -/
  | shutdown
  /-- `claim_next` returned a job, or `None`. -/
  | claimed (found : Bool)
  /-- `claim_next` raised. -/
  | claimRaised
  /-- The connection is open, or could not be opened. -/
  | connected (ok : Bool)
  /-- A notification came, or the timeout, or the listener raised. -/
  | heard
  /-- The connection is closed, cleanly or not. -/
  | unlistened
  /-- The pipeline task is over. -/
  | pipelineEnded (how : Ending)
  /-- The heartbeat task is over. -/
  | heartbeatStopped
  /-- `notify` returned, or raised an `Exception`. -/
  | notified
  /-- The slot's task is cancelled. -/
  | cancel
  deriving DecidableEq, Repr

namespace SlotTask

/-- Both loops test the shutdown event before the next `claim_next`. -/
def loopHead (t : SlotTask) : SlotTask :=
  if t.shutdown then { t with point := .ended }
  else { t with point := .claimNext, claims := t.claims + 1 }

/-- After `heartbeat.stop`: an aborted pipeline is not notified. -/
def afterStop (t : SlotTask) (how : Ending) : SlotTask :=
  match how with
  | .cancelled => t.loopHead
  | how => { t with point := .notify how }

/-- After `notify`: an exception of the pipeline goes on out of the `finally`. -/
def afterNotify (t : SlotTask) (how : Ending) : SlotTask :=
  match how with
  | .raised => { t with point := .ended }
  | _ => t.loopHead

/-- Where a `CancelledError` takes the slot. -/
def cancelAt (t : SlotTask) : SlotTask :=
  match t.point with
  -- nothing on the way out catches it
  | .claimNext | .connect | .unlisten | .notify _ | .ended => { t with point := .ended }
  -- `except (asyncio.TimeoutError, asyncio.CancelledError): return None`
  | .listen => { t with point := .unlisten }
  -- `except asyncio.CancelledError: pipeline_aborted = True`
  | .pipeline => { t with point := .heartbeatStop .cancelled }
  -- `except asyncio.CancelledError: pass`
  | .heartbeatStop how => t.afterStop how

/-- One resumption. -/
def step (t : SlotTask) : SlotEvent → Option SlotTask
  | .shutdown => if t.shutdown then none else some { t with shutdown := true }
  | .cancel => if t.point = .ended then none else some t.cancelAt
  | e =>
      match t.point, e with
      | .claimNext, .claimed true => some { t with point := .pipeline }
      | .claimNext, .claimed false => some { t with point := .connect }
      | .claimNext, .claimRaised => some { t with point := .ended }
      | .connect, .connected true => some { t with point := .listen }
      | .connect, .connected false => some t.loopHead
      | .listen, .heard => some { t with point := .unlisten }
      | .unlisten, .unlistened => some t.loopHead
      | .pipeline, .pipelineEnded how => some { t with point := .heartbeatStop how }
      | .heartbeatStop how, .heartbeatStopped => some (t.afterStop how)
      | .notify how, .notified => some (t.afterNotify how)
      | _, _ => none

/-! ## One resumption -/

/-- What can happen to a slot, and where it is then. -/
inductive Moves (t : SlotTask) : SlotEvent → SlotTask → Prop where
  | told (hs : t.shutdown = false) : Moves t .shutdown { t with shutdown := true }
  | cancelled (hp : t.point ≠ .ended) : Moves t .cancel t.cancelAt
  | took (hp : t.point = .claimNext) : Moves t (.claimed true) { t with point := .pipeline }
  | foundNone (hp : t.point = .claimNext) : Moves t (.claimed false) { t with point := .connect }
  | broke (hp : t.point = .claimNext) : Moves t .claimRaised { t with point := .ended }
  | opened (hp : t.point = .connect) : Moves t (.connected true) { t with point := .listen }
  | refused (hp : t.point = .connect) : Moves t (.connected false) t.loopHead
  | woken (hp : t.point = .listen) : Moves t .heard { t with point := .unlisten }
  | closed (hp : t.point = .unlisten) : Moves t .unlistened t.loopHead
  | finished {how : Ending} (hp : t.point = .pipeline) :
      Moves t (.pipelineEnded how) { t with point := .heartbeatStop how }
  | stopped {how : Ending} (hp : t.point = .heartbeatStop how) :
      Moves t .heartbeatStopped (t.afterStop how)
  | announced {how : Ending} (hp : t.point = .notify how) : Moves t .notified (t.afterNotify how)

/-- **The resumptions of a slot are its moves.** -/
theorem step_iff {t u : SlotTask} {e : SlotEvent} : t.step e = some u ↔ Moves t e u := by
  constructor
  · intro h
    unfold step at h
    split at h
    · split at h
      · cases h
      · rename_i hs
        cases h
        exact .told (by simpa using hs)
    · split at h
      · cases h
      · rename_i hp
        cases h
        exact .cancelled hp
    · split at h
      · cases h
        exact .took ‹_›
      · cases h
        exact .foundNone ‹_›
      · cases h
        exact .broke ‹_›
      · cases h
        exact .opened ‹_›
      · cases h
        exact .refused ‹_›
      · cases h
        exact .woken ‹_›
      · cases h
        exact .closed ‹_›
      · cases h
        exact .finished ‹_›
      · cases h
        exact .stopped ‹_›
      · cases h
        exact .announced ‹_›
      · cases h
  · intro h
    cases h with
    | told hs => simp [step, hs]
    | cancelled hp => simp [step, hp]
    | took hp => simp only [step, hp]
    | foundNone hp => simp only [step, hp]
    | broke hp => simp only [step, hp]
    | opened hp => simp only [step, hp]
    | refused hp => simp only [step, hp]
    | woken hp => simp only [step, hp]
    | closed hp => simp only [step, hp]
    | finished hp => simp only [step, hp]
    | stopped hp => simp only [step, hp]
    | announced hp => simp only [step, hp]

/-- A slot as a machine, from its first `claim_next` on. -/
def machine : Machine SlotTask SlotEvent where
  init := ⟨.claimNext, false, 1⟩
  step := step

end SlotTask

end PromptQueue
