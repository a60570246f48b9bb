import PromptQueue.Base.Table
import Mathlib.Data.Rat.Defs

/-!
# The rows of the three tables

`src/models/enums.py` and `src/models/orm.py`, column for column. A nullable
column is an `Option`; a timestamp is a rational number of seconds, so that the
comparisons and sums of the source are exact; a vector is the list of its
components. Each table has its primary key and one column declared unique, which
is what the `Keyed` instances name.
-/

namespace PromptQueue

open Base

/-- Seconds since the epoch. -/
abbrev Time := Rat

/-- A worker slot's `worker_id`. Ids carry a fresh UUID, so no two slots share one. -/
abbrev WorkerId := Nat

/-- The 32 bytes of a SHA-256 digest. -/
abbrev Digest := BitVec 256

/-- An embedding. -/
abbrev Vector := List Rat

/-! ## Enumerations -/

/-- `RequestStatus`. -/
inductive RequestStatus where
  | received | queued | processing | completed | failed
  deriving DecidableEq, Repr

/-- `RequestStatus.is_terminal`. -/
def RequestStatus.isTerminal : RequestStatus → Bool
  | .completed | .failed => true
  | _ => false

@[simp] theorem RequestStatus.isTerminal_iff {s : RequestStatus} :
    s.isTerminal = true ↔ s = .completed ∨ s = .failed := by
  cases s <;> simp [isTerminal]

/-- `JobStatus`. -/
inductive JobStatus where
  | queued | processing | completed | failed | dead
  deriving DecidableEq, Repr

/-- `Priority`; the lower the value, the sooner the job is claimed. -/
inductive Priority where
  | high | normal | low
  deriving DecidableEq, Repr

/-- The integer the enumeration stands for. -/
def Priority.value : Priority → Nat
  | .high => 1
  | .normal => 2
  | .low => 3

/-- `Priority.from_str`: anything it does not know is `normal`. -/
def Priority.fromStr (value : String) : Priority :=
  match value.toLower with
  | "high" => .high
  | "normal" => .normal
  | "low" => .low
  | _ => .normal

/-! ## `prompt_requests` -/

/-- `PromptRequestORM`. -/
structure PromptRequest where
  id : Nat
  userId : String
  promptId : String
  text : String
  textHash : Digest
  priority : Nat
  embedding : Option Vector
  status : RequestStatus
  cached : Option Bool
  response : Option String
  error : Option String
  retryCount : Nat
  createdAt : Time
  updatedAt : Time
  completedAt : Option Time
  deriving DecidableEq, Repr

instance : Keyed PromptRequest String where
  pk := PromptRequest.id
  uk := PromptRequest.promptId

/-! ## `processing_jobs` -/

/-- `ProcessingJobORM`. -/
structure ProcessingJob where
  id : Nat
  promptRequestId : Nat
  status : JobStatus
  workerId : Option WorkerId
  attemptCount : Nat
  maxAttempts : Nat
  priority : Nat
  scheduledAt : Time
  lockedUntil : Option Time
  lastHeartbeatAt : Option Time
  startedAt : Option Time
  finishedAt : Option Time
  errorMessage : Option String
  createdAt : Time
  deriving DecidableEq, Repr

instance : Keyed ProcessingJob Nat where
  pk := ProcessingJob.id
  uk := ProcessingJob.promptRequestId

/-- `lease_expired`; a null `locked_until` never expires. -/
def ProcessingJob.leaseExpired (job : ProcessingJob) (now : Time) : Bool :=
  match job.lockedUntil with
  | none => false
  | some t => t < now

/-- `can_retry`. -/
def ProcessingJob.canRetry (job : ProcessingJob) : Bool :=
  job.attemptCount < job.maxAttempts

/-! ## `semantic_cache` -/

/-- `SemanticCacheORM`. -/
structure SemanticCache where
  id : Nat
  promptText : String
  textHash : Digest
  embedding : Vector
  response : String
  sourcePromptId : String
  hitCount : Nat
  createdAt : Time
  lastHitAt : Option Time
  deriving DecidableEq, Repr

instance : Keyed SemanticCache Digest where
  pk := SemanticCache.id
  uk := SemanticCache.textHash

end PromptQueue
