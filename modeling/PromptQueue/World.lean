import PromptQueue.Base.Machine
import PromptQueue.Services.PromptPipeline
import PromptQueue.Services.PromptProcessor

/-!
# The whole system

One database, any number of worker slots, any number of API calls, and the
reaper. Between two transactions anything may happen: another process takes a
step, a heartbeat ticks, a process dies. An `Event` names the process that moves
and settles every choice its move leaves open — the clock it reads, the answer of
the limiter, the provider and the vector index, whether a deadline has passed —
so `World.step` is a function and a list of events is a run.

Each event carries its own time. No theorem needs the clocks of different
processes to agree.

`World.log` is ghost state: every move appends what it did, and no move reads it.
-/

namespace PromptQueue

open Base

/-! ## Processes -/

/-- A worker slot of `WorkerPool`. -/
inductive Slot where
  /-- In `next_job`. -/
  | idle
  /-- Awaiting a pipeline task. -/
  | running (r : Run)
  /-- Gone; a restarted worker process draws new ids. -/
  | stopped
  deriving DecidableEq, Repr

/-- Who issues a transaction. -/
inductive Proc where
  | slot (s : WorkerId)
  | heartbeat (s : WorkerId)
  | call (c : Nat)
  | reaper
  deriving DecidableEq, Repr

/-! ## History -/

/-- What a move leaves in the history. -/
inductive Entry where
  /-- A transaction committed, with what it returned. -/
  | tx (who : Proc) (t : Tx) (res : Res)
  /-- The reaper took this lease; the row as it was, and the resets it had seen. -/
  | lost (job : ProcessingJob) (epoch : Nat)
  /-- A provider call got past the provider's own guard. -/
  | llmCalled (run : Run)
  /-- The provider answered. -/
  | llmReturned (run : Run) (response : String)
  /-- The provider call failed. -/
  | llmRaised (run : Run) (exc : Exc)
  /-- The limiter, or the provider's guard, denied a call. -/
  | limited (run : Run)
  /-- Redis was unreachable. -/
  | redisDown (run : Run)
  /-- `NOTIFY prompt_done_<id>`. -/
  | notified (requestId : Nat)
  deriving DecidableEq, Repr

/-- A `reset_job` of the request's job. -/
def Entry.isReset (requestId : Nat) : Entry → Bool
  | .tx _ (.resetJob q _) _ => q = requestId
  | _ => false

/-- How many times the job of a request was reset. -/
def resets (log : List Entry) (requestId : Nat) : Nat := log.countP (Entry.isReset requestId)

/-! ## The world -/

/-- The state of the system. -/
structure World where
  db : Db
  slots : WorkerId → Slot
  calls : Nat → Option Call
  /-- Ghost: everything that happened, oldest first. -/
  log : List Entry

namespace World

/-- Empty tables, every slot waiting for work, no call yet. -/
def init : World where
  db := Db.empty
  slots := fun _ => .idle
  calls := fun _ => none
  log := []

/-- The leases a transaction takes away: those the reaper finds expired. -/
def takes (w : World) : Tx → List Entry
  | .reapExpiredLeases now => (w.db.jobs.rows.filter fun j => ProcessingJob.Expired now j).map
      fun j => .lost j (resets w.log j.promptRequestId)
  | _ => []

/-- Run a transaction and record it. -/
def commit (w : World) (who : Proc) (t : Tx) : World :=
  { w with
    db := (w.db.exec t).1
    log := w.log ++ (.tx who t (w.db.exec t).2 :: w.takes t) }

/-- Put a slot in a state. -/
def setSlot (w : World) (s : WorkerId) (x : Slot) : World :=
  { w with slots := Function.update w.slots s x }

/-- Put a call at a stage, or forget it. -/
def setCall (w : World) (c : Nat) (k : Option Call) : World :=
  { w with calls := Function.update w.calls c k }

/-- Record something. -/
def note (w : World) (es : List Entry) : World := { w with log := w.log ++ es }

end World

/-! ## Events -/

open PromptPipeline (LimiterAnswer)

/-- One move of one process. -/
inductive Event where
  /-- `submit_and_wait` is called. -/
  | submit (c : Nat) (args : SubmitArgs)
  /-- A call's next transaction. -/
  | call (c : Nat) (now : Time) (inTime : Bool)
  /-- The API process dies, or the call ends in an error of the infrastructure or the driver. -/
  | callCrash (c : Nat)
  /-- An idle slot runs `claim_next`. -/
  | claim (s : WorkerId) (now : Time) (locked : List Nat) (pick : Option Nat)
  /-- A pipeline's next transaction. -/
  | pipeline (s : WorkerId) (now : Time) (top1 : Option Nat)
  /-- A pipeline's next transaction raises and has no effect. -/
  | dbError (s : WorkerId) (message : String)
  /-- The limiter answers. -/
  | limiter (s : WorkerId) (answer : LimiterAnswer)
  /-- The provider's guard raises `RateLimitExceededError`. -/
  | llmLimited (s : WorkerId) (waitSeconds : Rat) (message : String)
  /-- The provider call gets past the guard. -/
  | llmCall (s : WorkerId)
  /-- The provider answers. -/
  | llmReturn (s : WorkerId) (response : String)
  /-- The provider call fails. -/
  | llmRaise (s : WorkerId) (exc : Exc)
  /-- The heartbeat of a running job ticks. -/
  | heartbeat (s : WorkerId) (now : Time)
  /-- The heartbeat cancels the pipeline. -/
  | cancel (s : WorkerId)
  /-- The pipeline is cancelled from outside: a sibling slot of its task group raised. -/
  | abort (s : WorkerId)
  /-- The worker process dies. -/
  | crash (s : WorkerId)
  /-- The slot's loop goes on after its pipeline ended. -/
  | next (s : WorkerId)
  /-- The reaper scans. -/
  | reap (now : Time)
  deriving DecidableEq, Repr

/-- The slot an event moves. -/
def Event.slot : Event → Option WorkerId
  | .claim s _ _ _ | .pipeline s _ _ | .dbError s _ | .limiter s _ | .llmLimited s _ _
  | .llmCall s | .llmReturn s _ | .llmRaise s _ | .heartbeat s _ | .cancel s | .abort s
  | .crash s | .next s => some s
  | .submit _ _ | .call _ _ _ | .callCrash _ | .reap _ => none

/-- The call an event moves. -/
def Event.caller : Event → Option Nat
  | .submit c _ | .call c _ _ | .callCrash c => some c
  | _ => none

/-- The events that can end a pipeline without its next write. -/
def Event.breaks : Event → Bool
  | .crash _ | .cancel _ | .abort _ | .dbError _ _ => true
  | _ => false

/-- The events that are the next transaction of a pipeline or of a call. -/
def Event.writes : Event → Bool
  | .pipeline _ _ _ | .call _ _ _ => true
  | _ => false

/-- The events that end a call without its next write. -/
def Event.drops : Event → Bool
  | .callCrash _ => true
  | _ => false

/-- The time of a scan of the reaper. -/
def Event.reaps : Event → Option Time
  | .reap now => some now
  | _ => none

namespace World

variable {S : Type} [LinearOrder S] (env : Env S)

/-- Run `f` on what a slot is executing. -/
def withRun (w : World) (s : WorkerId) (f : Run → Option World) : Option World :=
  match w.slots s with
  | .running r => f r
  | _ => none

/-- A slot after `claim_next`: it runs what it was handed. -/
def afterClaim (w : World) : Res → Slot
  | .claimed (some (job, req)) => .running
      { job := job, req := req, stage := .findExact, leaseLost := false
        ticket := w.log.length + 1, epoch := resets w.log job.promptRequestId }
  | _ => .idle

/-- A slot after its pipeline ended, and whether `prompt_done` was notified. -/
def afterTask (r : Run) : Ending → Slot × List Entry
  | .returned => (.idle, [.notified r.req.id])
  | .cancelled => (.idle, [])
  | .raised => (.stopped, [.notified r.req.id])

/-- Where a pipeline goes without a transaction, and what it leaves in the history. -/
def think (r : Run) : Event → Option (Run × List Entry)
  | .dbError _ message =>
      if (PromptPipeline.call env r 0 none).isSome then
        some ({ r with stage := PromptPipeline.fail r ⟨.databaseDriverError, message⟩ }, [])
      else none
  | .limiter _ a =>
      match r.stage with
      | .tryAcquire emb => some ({ r with stage := PromptPipeline.acquire env r.job emb a },
          match a with
          | .granted => []
          | .denied => [.limited r]
          | .unavailable _ => [.redisDown r])
      | _ => none
  | .llmLimited _ wait message =>
      match r.stage with
      | .llm _ => some ({ r with
          stage := PromptPipeline.handleFailure r.job ⟨.rateLimitExceededError wait, message⟩ },
          [.limited r])
      | _ => none
  | .llmCall _ =>
      match r.stage with
      | .llm emb => some ({ r with stage := .llmWait emb }, [.llmCalled r])
      | _ => none
  | .llmReturn _ response =>
      match r.stage with
      | .llmWait emb => some ({ r with stage := .store emb response }, [.llmReturned r response])
      | _ => none
  | .llmRaise _ exc =>
      -- a rate-limit error is raised before the call is issued, never by the call
      if exc.rateLimitWait = none then
        match r.stage with
        | .llmWait _ => some ({ r with stage := PromptPipeline.handleFailure r.job exc },
            [.llmRaised r exc])
        | _ => none
      else none
  | .cancel _ =>
      match r.stage with
      | .done _ => none
      | _ => if r.leaseLost then some ({ r with stage := .done .cancelled }, []) else none
  | .abort _ =>
      match r.stage with
      | .done _ => none
      | _ => some ({ r with stage := .done .cancelled }, [])
  | _ => none

/-- The slot whose pipeline an event concerns, for the events `think` covers. -/
def thinker : Event → Option WorkerId
  | .dbError s _ | .limiter s _ | .llmLimited s _ _ | .llmCall s | .llmReturn s _
  | .llmRaise s _ | .cancel s | .abort s => some s
  | _ => none

/-- One move. -/
def step (w : World) (e : Event) : Option World :=
  match e with
  | .submit c args =>
      match w.calls c with
      | none => some (w.setCall c (some ⟨args, .check⟩))
      | some _ => none
  | .call c now inTime =>
      match w.calls c with
      | some k => (PromptProcessor.call env k now).map fun t =>
          (w.commit (.call c) t).setCall c
            (some { k with stage := PromptProcessor.resume env k inTime (w.db.exec t).2 })
      | none => none
  | .callCrash c =>
      match w.calls c with
      | some k => if k.stage.ended then none else some (w.setCall c none)
      | none => none
  | .claim s now locked pick =>
      match w.slots s with
      | .idle =>
          if ProcessingJobRepository.Selects w.db.jobs.rows locked now pick then
            let t := Tx.claimNext s env.leaseSeconds now pick
            some ((w.commit (.slot s) t).setSlot s (w.afterClaim (w.db.exec t).2))
          else none
      | _ => none
  | .pipeline s now top1 =>
      w.withRun s fun r => (PromptPipeline.call env r now top1).map fun t =>
        (w.commit (.slot s) t).setSlot s
          (.running { r with stage := PromptPipeline.resume env r (w.db.exec t).2 })
  | .heartbeat s now =>
      w.withRun s fun r =>
        if r.leaseLost then none
        else
          let t := Tx.extendLease r.job.id s env.leaseSeconds now
          some ((w.commit (.heartbeat s) t).setSlot s
            (.running { r with leaseLost := decide ((w.db.exec t).2 ≠ .updated true) }))
  | .crash s =>
      match w.slots s with
      | .stopped => none
      | _ => some (w.setSlot s .stopped)
  | .next s =>
      w.withRun s fun r =>
        match r.stage with
        | .done how => some ((w.setSlot s (afterTask r how).1).note (afterTask r how).2)
        | _ => none
  | .reap now => some (w.commit .reaper (.reapExpiredLeases now))
  | e =>
      match thinker e with
      | some s => w.withRun s fun r => (think env r e).map fun p =>
          (w.setSlot s (.running p.1)).note p.2
      | none => none

/-- The run in the slot an event moves. -/
def runOf (w : World) (e : Event) : Option Run :=
  e.slot.bind fun s =>
    match w.slots s with
    | .running r => some r
    | _ => none

/-- The call an event moves, as it stands. -/
def callOf (w : World) (e : Event) : Option Call := e.caller.bind w.calls

/-- The system as a machine. -/
def machine : Machine World Event where
  init := init
  step := step env

end World

end PromptQueue
