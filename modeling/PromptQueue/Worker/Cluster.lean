import Mathlib.Data.Nat.Pairing
import PromptQueue.Worker.Process

/-!
# The processes of a deployment

Everything at once: any number of worker processes, each with the coroutines of `WorkerProcess`,
the pipeline task and the heartbeat every slot starts for its job, and the calls of the API,
over one database. A slot goes from await to await, and what its awaits come back with is what
the database and its pipeline task have to say; a cancellation finds it wherever it is.

There is no ghost state. `World` has a slot that is idle, at work or gone where a slot here has
its awaits; that it may is `Proof.Refinement`.
-/

namespace PromptQueue

open Base

/-- The worker id of a slot of a process, `f"worker-{uuid.uuid4().hex[:8]}-slot{slot}"`. -/
def slotId (p i : Nat) : WorkerId := Nat.pair p i

/-- The awaits of a slot that has a pipeline task. -/
def SlotPoint.hasTask : SlotPoint → Bool
  | .pipeline | .heartbeatStop _ | .notify _ => true
  | _ => false

/-- The awaits of a slot whose heartbeat is running. -/
def SlotPoint.hasHeartbeat : SlotPoint → Bool
  | .pipeline | .heartbeatStop _ => true
  | _ => false

/-- A pipeline task, `PromptPipeline.execute`. -/
structure PipelineTask where
  job : ProcessingJob
  req : PromptRequest
  stage : Stage
  /-- The heartbeat of the job has called `pipeline_task.cancel()`. -/
  leaseLost : Bool
  deriving DecidableEq, Repr

namespace PipelineTask

/-- As a run without a past. -/
def run (t : PipelineTask) : Run where
  job := t.job
  req := t.req
  stage := t.stage
  leaseLost := t.leaseLost
  ticket := 0
  epoch := 0

/-- A `CancelledError` is thrown where the task is; a task that is over stays as it is. -/
def cancel (t : PipelineTask) : PipelineTask :=
  match t.stage with
  | .done _ => t
  | _ => { t with stage := .done .cancelled }

end PipelineTask

/-- The deployment. -/
structure Cluster where
  db : Db
  procs : Nat → WorkerProcess
  tasks : WorkerId → Option PipelineTask
  calls : Nat → Option Call

/-- What happens in it. -/
inductive ClusterEvent where
  /-- `submit_and_wait` is called. -/
  | submit (c : Nat) (args : SubmitArgs)
  /-- A call's next transaction. -/
  | call (c : Nat) (now : Time) (inTime : Bool)
  /-- The API process dies, or the call ends in an error of the infrastructure. -/
  | callCrash (c : Nat)
  /-- A slot's `claim_next` commits and comes back. -/
  | claim (p i : Nat) (now : Time) (locked : List Nat) (pick : Option Nat)
  /-- It commits, and the slot is cancelled before it comes back. -/
  | orphan (p i : Nat) (now : Time) (locked : List Nat) (pick : Option Nat)
  /-- A pipeline task's next transaction. -/
  | pipeline (s : WorkerId) (now : Time) (top1 : Option Nat)
  /-- A pipeline task goes on without one. -/
  | think (e : Event)
  /-- The heartbeat of a slot extends its lease. -/
  | heartbeat (s : WorkerId) (now : Time)
  /-- The reaper of a process scans. -/
  | reap (p : Nat) (now : Time)
  /-- Anything else in a worker process. -/
  | process (p : Nat) (e : ProcessEvent)
  /-- A worker process is killed. -/
  | kill (p : Nat)
  deriving DecidableEq, Repr

namespace WorkerProcess

/-- Nothing of it goes on. -/
def killed (p : WorkerProcess) : WorkerProcess where
  slots := fun i => { p.slots i with point := .ended }
  cancelling := fun _ => false
  failed := p.failed
  reaper := .ended
  main := .exited

end WorkerProcess

namespace Cluster

variable {S : Type} [LinearOrder S] (env : Env S) (n : Nat)

/-- Every process at its start, over empty tables. -/
def init : Cluster where
  db := Db.empty
  procs := fun _ => WorkerProcess.init
  tasks := fun _ => none
  calls := fun _ => none

/-- The await of a slot. -/
def point (c : Cluster) (s : WorkerId) : SlotPoint :=
  ((c.procs s.unpair.1).slots s.unpair.2).point

def setProc (c : Cluster) (p : Nat) (q : WorkerProcess) : Cluster :=
  { c with procs := Function.update c.procs p q }

def setTask (c : Cluster) (s : WorkerId) (t : Option PipelineTask) : Cluster :=
  { c with tasks := Function.update c.tasks s t }

def setCall (c : Cluster) (i : Nat) (k : Option Call) : Cluster :=
  { c with calls := Function.update c.calls i k }

/-- Whether the rest of the deployment lets an await come back so, without a transaction. -/
def answers (c : Cluster) (p : Nat) : ProcessEvent → Bool
  | .slot _ (.claimed _) => false
  | .slot i (.pipelineEnded how) => (c.tasks (slotId p i)).any fun t => t.stage = .done how
  | .reaper (.reaped _) => false
  | _ => true

/-- The tasks when process `p` has come to `q`: a cancelled slot cancels the task it awaits,
and a slot that turns to its next job has none. -/
def settle (c : Cluster) (p : Nat) (q : WorkerProcess) (e : ProcessEvent) : Cluster :=
  match e with
  | .slot i _ => c.setTask (slotId p i)
      (if (q.slots i).point.hasTask then c.tasks (slotId p i) else none)
  | .cancelled i => c.setTask (slotId p i)
      (if (q.slots i).point.hasTask then (c.tasks (slotId p i)).map PipelineTask.cancel else none)
  | _ => c

/-- One step of a deployment whose processes have pools of `n` slots. -/
def step (c : Cluster) : ClusterEvent → Option Cluster
  | .submit i args =>
      match c.calls i with
      | none => some (c.setCall i (some ⟨args, .check⟩))
      | some _ => none
  | .call i now inTime =>
      match c.calls i with
      | some k => (PromptProcessor.call env k now).map fun t =>
          { c with db := (c.db.exec t).1 }.setCall i
            (some { k with stage := PromptProcessor.resume env k inTime (c.db.exec t).2 })
      | none => none
  | .callCrash i =>
      match c.calls i with
      | some k => if k.stage.ended then none else some (c.setCall i none)
      | none => none
  | .claim p i now locked pick =>
      if ProcessingJobRepository.Selects c.db.jobs.rows locked now pick then
        let out := ProcessingJobRepository.claimNext c.db (slotId p i) env.leaseSeconds now pick
        (WorkerProcess.step n (c.procs p) (.slot i (.claimed out.2.isSome))).map fun q =>
          ({ c with db := out.1 }.setProc p q).setTask (slotId p i)
            (out.2.map fun (job, req) => ⟨job, req, .findExact, false⟩)
      else none
  | .orphan p i now locked pick =>
      if i < n ∧ ((c.procs p).slots i).point = .claimNext ∧
          ProcessingJobRepository.Selects c.db.jobs.rows locked now pick then
        (WorkerProcess.step n (c.procs p) (.cancelled i)).map fun q =>
          { c with db := (ProcessingJobRepository.claimNext c.db (slotId p i) env.leaseSeconds now
              pick).1 }.setProc p q
      else none
  | .pipeline s now top1 =>
      (c.tasks s).bind fun t => (PromptPipeline.call env t.run now top1).map fun tx =>
        { c with db := (c.db.exec tx).1 }.setTask s
          (some { t with stage := PromptPipeline.resume env t.run (c.db.exec tx).2 })
  | .think e =>
      match World.thinker e, e with
      -- a task is cancelled by its slot or by its heartbeat
      | some _, .abort _ => none
      | some s, _ => (c.tasks s).bind fun t => (World.think env t.run e).map fun x =>
          c.setTask s (some { t with stage := x.1.stage })
      | none, _ => none
  | .heartbeat s now =>
      (c.tasks s).bind fun t =>
        if t.leaseLost = false ∧ (c.point s).hasHeartbeat then
          let out := ProcessingJobRepository.extendLease c.db t.job.id s env.leaseSeconds now
          some ({ c with db := out.1 }.setTask s (some { t with leaseLost := !out.2 }))
        else none
  | .reap p now =>
      let out := ProcessingJobRepository.reapExpiredLeases c.db now
      (WorkerProcess.step n (c.procs p) (.reaper (.reaped (!out.2.isEmpty)))).map fun q =>
        { c with db := out.1 }.setProc p q
  | .process p e =>
      if c.answers p e then
        (WorkerProcess.step n (c.procs p) e).map fun q => (c.settle p q e).setProc p q
      else none
  | .kill p =>
      some ({ c with tasks := fun s => if s.unpair.1 = p then none else c.tasks s }.setProc p
        (c.procs p).killed)

/-- The deployment as a machine. -/
def machine : Machine Cluster ClusterEvent where
  init := init
  step := step env n

end Cluster

end PromptQueue
