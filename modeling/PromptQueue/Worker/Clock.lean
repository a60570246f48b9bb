import PromptQueue.Base.Periodic
import PromptQueue.World

/-!
# The system in time

`World` leaves open when anything happens. Here its events carry the time they happen at,
and the two loops that come round by themselves are there as loops: `HeartbeatManager._run`
of `src/worker/heartbeat.py` for the job in each slot, and `Reaper.run` of
`src/worker/reaper.py`. Both sleep, attempt one transaction, and go on if it raises.

Time itself promises nothing. `Synced`, `Beating` and `Scanning` are what a deployment has
to see to: clocks that agree up to `skew`, heartbeats in time for the scans, and scans.
-/

namespace PromptQueue

open Base

/-- What a deployment sees to. -/
structure Timing where
  /-- How far the clock a transaction reads may be off when it commits. -/
  skew : Time
  skew_nonneg : 0 ≤ skew
  /-- `heartbeat_interval`, and how long its rounds take. -/
  heartbeat : Pace Time
  /-- `reaper_interval`, and how long its rounds take. -/
  reaper : Pace Time

/-- The system and where its loops stand. -/
structure Timed where
  world : World
  clock : Time
  /-- The heartbeat of the job in each slot. -/
  beats : WorkerId → Beat Time
  scans : Beat Time

/-- An event and when it happens; `now` is what the transaction reads off its clock. -/
inductive TimedEvent where
  /-- Any event but those of the two loops. -/
  | act (t : Time) (e : Event)
  /-- The heartbeat of a slot goes on. -/
  | heartbeat (t : Time) (s : WorkerId) (k : Tick) (now : Time)
  /-- The reaper goes on. -/
  | reaper (t : Time) (k : Tick) (now : Time)
  deriving DecidableEq, Repr

namespace TimedEvent

/-- When it happens. -/
def time : TimedEvent → Time
  | .act t _ | .heartbeat t _ _ _ | .reaper t _ _ => t

/-- What happens to the world. -/
def event : TimedEvent → Option Event
  | .act _ e => some e
  | .heartbeat _ s .succeed now => some (.heartbeat s now)
  | .reaper _ .succeed now => some (.reap now)
  | _ => none

end TimedEvent

/-- The events of the two loops. -/
def Event.looped : Event → Bool
  | .heartbeat _ _ | .reap _ => true
  | _ => false

/-- The slot that runs `claim_next`. -/
def Event.claims : Event → Option WorkerId
  | .claim s _ _ _ => some s
  | _ => none

/-- The time a transaction reads off its clock. -/
def Event.reads : Event → Option Time
  | .call _ now _ | .claim _ now _ _ | .pipeline _ now _ | .heartbeat _ now | .reap now => some now
  | _ => none

/-- The heartbeat of the job in a slot has not found its lease lost. -/
def World.beating (w : World) (s : WorkerId) : Bool :=
  match w.slots s with
  | .running r => !r.leaseLost
  | _ => false

namespace Timed

variable {S : Type} [LinearOrder S] (env : Env S) (tm : Timing)

/-- Every loop about to sleep for the first time. -/
def init : Timed where
  world := World.init
  clock := 0
  beats := fun _ => .start 0
  scans := .start 0

/-- The loops after an event. A claim starts the heartbeat of its job. -/
def loops (x : Timed) : TimedEvent → Option ((WorkerId → Beat Time) × Beat Time)
  | .act t e =>
      if e.looped then none
      else some (e.claims.elim x.beats fun s => Function.update x.beats s (.start t), x.scans)
  | .heartbeat t s k _ =>
      if x.world.beating s then
        ((x.beats s).step tm.heartbeat t k).map fun b => (Function.update x.beats s b, x.scans)
      else none
  | .reaper t k _ => (x.scans.step tm.reaper t k).map fun b => (x.beats, b)

/-- The world after an event, if it is one of the world's. -/
def follow (w : World) : Option Event → Option World
  | none => some w
  | some e => World.step env w e

/-- One event. The clock does not go back. -/
def step (x : Timed) (e : TimedEvent) : Option Timed :=
  if x.clock ≤ e.time then
    (x.loops tm e).bind fun l => (follow env x.world e.event).map fun w =>
      { world := w, clock := e.time, beats := l.1, scans := l.2 }
  else none

/-- The system in time. -/
def machine : Machine Timed TimedEvent where
  init := init
  step := step env tm

/-! ## What a deployment sees to -/

/-- The clocks agree with the time, up to the skew. -/
def Synced (_ : Timed) (e : TimedEvent) : Prop :=
  ∀ now ∈ e.event.bind Event.reads, e.time - tm.skew ≤ now ∧ now ≤ e.time + tm.skew

/-- The heartbeats keep their pace, and none is overdue when the reaper scans. -/
def Beating (x : Timed) : TimedEvent → Prop
  | .heartbeat t s k _ => (x.beats s).OnPace tm.heartbeat t k
  | .reaper t .succeed _ => ∀ j ∈ x.world.db.jobs.rows, ∀ s ∈ j.workerId,
      x.world.beating s = true → t ≤ (x.beats s).due tm.heartbeat
  | _ => True

/-- The reaper keeps its pace. -/
def Scanning (x : Timed) (e : TimedEvent) : Prop :=
  e.time ≤ x.scans.due tm.reaper ∧
    match e with
    | .reaper t k _ => x.scans.OnPace tm.reaper t k
    | _ => True

instance (x : Timed) (e : TimedEvent) : Decidable (Synced tm x e) :=
  inferInstanceAs (Decidable (∀ now ∈ e.event.bind Event.reads, _))

instance (x : Timed) (e : TimedEvent) : Decidable (Beating tm x e) :=
  match e with
  | .heartbeat t s k _ => inferInstanceAs (Decidable ((x.beats s).OnPace tm.heartbeat t k))
  | .reaper _ .succeed _ => inferInstanceAs (Decidable (∀ j ∈ x.world.db.jobs.rows, _))
  | .reaper _ .wake _ | .reaper _ .fail _ | .act _ _ => isTrue trivial

instance (x : Timed) (e : TimedEvent) : Decidable (Scanning tm x e) :=
  match e with
  | .reaper t k _ =>
      inferInstanceAs (Decidable (t ≤ x.scans.due tm.reaper ∧ x.scans.OnPace tm.reaper t k))
  | .heartbeat t _ _ _ => inferInstanceAs (Decidable (t ≤ x.scans.due tm.reaper ∧ True))
  | .act t _ => inferInstanceAs (Decidable (t ≤ x.scans.due tm.reaper ∧ True))

end Timed

end PromptQueue
