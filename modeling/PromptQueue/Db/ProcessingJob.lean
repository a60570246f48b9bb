import PromptQueue.Db.Schema
import Mathlib.Algebra.Order.Ring.Rat

/-!
# `ProcessingJobRepository`

`src/db/repositories/processing_job.py`. Each method is one transaction, so each
is one function from the database to the database and what the method returns.
The assignments of the `UPDATE`s are functions on rows of their own, because
every invariant about the queue is about what one of them does to one row.

`claim_next` leaves one choice to the engine: which of several equally early rows
it locks, and which rows it skips because another transaction holds them. The
choice is the argument `pick`, and `Selects` says which choices the query allows.
-/

namespace PromptQueue

open Base

/-! ## Assignments -/

namespace ProcessingJob

variable (j : ProcessingJob)

/-- `SET` of `claim_next`. -/
def claim (workerId : WorkerId) (leaseSeconds : Nat) (now : Time) : ProcessingJob :=
  { j with
    status := .processing
    workerId := some workerId
    lockedUntil := some (now + leaseSeconds)
    lastHeartbeatAt := some now
    startedAt := j.startedAt.or (some now)
    attemptCount := j.attemptCount + 1 }

/-- `SET` of `extend_lease`. -/
def extend (leaseSeconds : Nat) (now : Time) : ProcessingJob :=
  { j with lockedUntil := some (now + leaseSeconds), lastHeartbeatAt := some now }

/-- `SET` of `release_lease`. -/
def release (scheduledAt : Time) : ProcessingJob :=
  { j with
    status := .queued
    workerId := none
    lockedUntil := none
    scheduledAt := scheduledAt }

/-- `SET` of `mark_completed`. -/
def complete (now : Time) : ProcessingJob :=
  { j with status := .completed, finishedAt := some now, lockedUntil := none }

/-- `SET` of `mark_failed`. -/
def fail (error : String) (now : Time) : ProcessingJob :=
  { j with
    status := .failed
    errorMessage := some error
    finishedAt := some now
    lockedUntil := none }

/-- `SET` of `mark_dead`. -/
def bury (error : String) (now : Time) : ProcessingJob :=
  { j with
    status := .dead
    errorMessage := some error
    finishedAt := some now
    lockedUntil := none }

/-- `SET` of `reset_job`. -/
def reset (now : Time) : ProcessingJob :=
  { j with
    status := .queued
    workerId := none
    attemptCount := 0
    lockedUntil := none
    lastHeartbeatAt := none
    startedAt := none
    finishedAt := none
    errorMessage := none
    scheduledAt := now }

/-- `SET` of the first statement of `reap_expired_leases`. -/
def requeue : ProcessingJob :=
  { j with status := .queued, workerId := none, lockedUntil := none }

/-- `SET` of the second statement of `reap_expired_leases`; `worker_id` and `locked_until` stay. -/
def expire (now : Time) : ProcessingJob :=
  { j with status := .dead, finishedAt := some now }

/-- `WHERE status = 'queued' AND scheduled_at <= :now`. -/
def Due (now : Time) (j : ProcessingJob) : Prop := j.status = .queued ∧ j.scheduledAt ≤ now

instance (now : Time) : DecidablePred (Due now) := fun _ => inferInstanceAs (Decidable (_ ∧ _))

/-- `ORDER BY priority ASC, scheduled_at ASC`. -/
def NotAfter (j k : ProcessingJob) : Prop :=
  j.priority < k.priority ∨ (j.priority = k.priority ∧ j.scheduledAt ≤ k.scheduledAt)

instance (j k : ProcessingJob) : Decidable (NotAfter j k) := inferInstanceAs (Decidable (_ ∨ _))

/-- `WHERE id = :job_id AND worker_id = :worker_id`. -/
def OwnedBy (jobId : Nat) (workerId : WorkerId) (j : ProcessingJob) : Prop :=
  j.id = jobId ∧ j.workerId = some workerId

instance (jobId : Nat) (workerId : WorkerId) : DecidablePred (OwnedBy jobId workerId) :=
  fun _ => inferInstanceAs (Decidable (_ ∧ _))

/-- `WHERE id = :job_id AND worker_id = :worker_id AND status = 'processing'`. -/
def HeldBy (jobId : Nat) (workerId : WorkerId) (j : ProcessingJob) : Prop :=
  j.id = jobId ∧ j.workerId = some workerId ∧ j.status = .processing

instance (jobId : Nat) (workerId : WorkerId) : DecidablePred (HeldBy jobId workerId) :=
  fun _ => inferInstanceAs (Decidable (_ ∧ _))

/-- `WHERE status = 'processing' AND locked_until < :now`. -/
def Expired (now : Time) (j : ProcessingJob) : Prop :=
  j.status = .processing ∧ j.leaseExpired now = true

instance (now : Time) : DecidablePred (Expired now) :=
  fun _ => inferInstanceAs (Decidable (_ ∧ _))

/-- Expired, with attempts left. -/
def Reclaimable (now : Time) (j : ProcessingJob) : Prop :=
  Expired now j ∧ j.attemptCount < j.maxAttempts

instance (now : Time) : DecidablePred (Reclaimable now) :=
  fun _ => inferInstanceAs (Decidable (_ ∧ _))

/-- Expired, with no attempt left. -/
def Exhausted (now : Time) (j : ProcessingJob) : Prop :=
  Expired now j ∧ j.maxAttempts ≤ j.attemptCount

instance (now : Time) : DecidablePred (Exhausted now) :=
  fun _ => inferInstanceAs (Decidable (_ ∧ _))

end ProcessingJob

/-! ## Methods -/

namespace ProcessingJobRepository

open ProcessingJob

/--
What the query of `claim_next` may lock when other transactions hold the rows in
`locked`: nothing if no unlocked row is due, else one that no other precedes.
-/
def Selects (jobs : List ProcessingJob) (locked : List Nat) (now : Time) : Option Nat → Prop
  | none => ∀ j ∈ jobs, Due now j → j.id ∈ locked
  | some i => ∃ j ∈ jobs, j.id = i ∧ Due now j ∧ j.id ∉ locked ∧
      ∀ k ∈ jobs, Due now k → k.id ∉ locked → NotAfter j k

instance (jobs : List ProcessingJob) (locked : List Nat) (now : Time) :
    DecidablePred (Selects jobs locked now)
  | none => inferInstanceAs (Decidable (∀ j ∈ jobs, Due now j → j.id ∈ locked))
  | some i => inferInstanceAs (Decidable (∃ j ∈ jobs, j.id = i ∧ Due now j ∧ j.id ∉ locked ∧
      ∀ k ∈ jobs, Due now k → k.id ∉ locked → NotAfter j k))

/--
`claim_next`. The row locked is `pick`; a job whose request is missing is still
updated, but nothing is handed out.
-/
def claimNext (db : Db) (workerId : WorkerId) (leaseSeconds : Nat) (now : Time)
    (pick : Option Nat) : Db × Option (ProcessingJob × PromptRequest) :=
  match db.jobs.rows.find? (fun j => decide (some j.id = pick ∧ Due now j)) with
  | none => (db, none)
  | some j =>
      (db.updateJobs (fun k => k.id = j.id) (·.claim workerId leaseSeconds now)
          (fun _ => ⟨rfl, rfl⟩),
        (db.requests.rows.find? (fun r => Keyed.pk r == j.promptRequestId)).map
          fun r => (j.claim workerId leaseSeconds now, r))

/-- `extend_lease`. -/
def extendLease (db : Db) (jobId : Nat) (workerId : WorkerId) (leaseSeconds : Nat)
    (now : Time) : Db × Bool :=
  (db.updateJobs (HeldBy jobId workerId) (·.extend leaseSeconds now) (fun _ => ⟨rfl, rfl⟩),
    db.jobs.hits (HeldBy jobId workerId))

/-- `release_lease`. -/
def releaseLease (db : Db) (jobId : Nat) (workerId : WorkerId) (retryAfterSeconds : Rat)
    (now : Time) : Db × Bool :=
  (db.updateJobs (OwnedBy jobId workerId) (·.release (now + retryAfterSeconds))
      (fun _ => ⟨rfl, rfl⟩),
    db.jobs.hits (OwnedBy jobId workerId))

/-- `mark_completed`. -/
def markCompleted (db : Db) (jobId : Nat) (now : Time) : Db :=
  db.updateJobs (fun j => j.id = jobId) (·.complete now) (fun _ => ⟨rfl, rfl⟩)

/-- `mark_failed`. -/
def markFailed (db : Db) (jobId : Nat) (error : String) (now : Time) : Db :=
  db.updateJobs (fun j => j.id = jobId) (·.fail error now) (fun _ => ⟨rfl, rfl⟩)

/-- `mark_dead`. -/
def markDead (db : Db) (jobId : Nat) (error : String) (now : Time) : Db :=
  db.updateJobs (fun j => j.id = jobId) (·.bury error now) (fun _ => ⟨rfl, rfl⟩)

/-- `reset_job`. -/
def resetJob (db : Db) (requestId : Nat) (now : Time) : Db :=
  db.updateJobs (fun j => j.promptRequestId = requestId) (·.reset now) (fun _ => ⟨rfl, rfl⟩)

/-- `queued_depth`. -/
def queuedDepth (db : Db) : Nat :=
  db.jobs.rows.countP fun j => j.status = .queued ∨ j.status = .processing

/-- `WHERE pr.id = r.prompt_request_id` for a row `r` of a `FROM` list. -/
def RequestOf (jobs : List ProcessingJob) (r : PromptRequest) : Prop :=
  ∃ j ∈ jobs, r.id = j.promptRequestId

instance (jobs : List ProcessingJob) : DecidablePred (RequestOf jobs) :=
  fun _ => inferInstanceAs (Decidable (∃ j ∈ jobs, _ = _))

/-- The request columns the first statement of `reap_expired_leases` sets. -/
def syncQueued (now : Time) (r : PromptRequest) : PromptRequest :=
  { r with status := .queued, updatedAt := now }

/-- The request columns its second statement sets, for a request of one of the jobs `dead`. -/
def syncFailed (dead : List ProcessingJob) (now : Time) (r : PromptRequest) : PromptRequest :=
  { r with
    status := .failed
    updatedAt := now
    error := (((dead.find? fun d => r.id = d.promptRequestId).bind (·.errorMessage)).or
      (some "Max attempts exceeded")) }

/--
`reap_expired_leases`: two data-modifying statements in one transaction. The
second sees what the first wrote, and its `dead` rows are the ones it returns
from `processing_jobs` after its own update.
-/
def reapExpiredLeases (db : Db) (now : Time) : Db × List Nat :=
  let reclaimed := db.jobs.rows.filter fun j => Reclaimable now j
  let db₁ := (db.updateJobs (Reclaimable now) requeue (fun _ => ⟨rfl, rfl⟩)).updateRequests
    (RequestOf reclaimed) (syncQueued now) (fun _ => ⟨rfl, rfl⟩)
  let reclaimedIds := (reclaimed.filter fun j =>
    db.requests.rows.any fun r => r.id = j.promptRequestId).map (·.id)
  let dead := (db₁.jobs.rows.filter fun j => Exhausted now j).map (·.expire now)
  let db₂ := (db₁.updateJobs (Exhausted now) (·.expire now) (fun _ => ⟨rfl, rfl⟩)).updateRequests
    (RequestOf dead) (syncFailed dead now) (fun _ => ⟨rfl, rfl⟩)
  (db₂, reclaimedIds)

end ProcessingJobRepository

end PromptQueue
