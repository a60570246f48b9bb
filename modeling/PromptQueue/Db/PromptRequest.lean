import PromptQueue.Db.ProcessingJob

/-!
# `PromptRequestRepository`

`src/db/repositories/prompt_request.py`.
-/

namespace PromptQueue

open Base

/-! ## Assignments -/

namespace PromptRequest

variable (r : PromptRequest)

/-- `SET` of `update_status` without extra fields. -/
def setStatus (status : RequestStatus) (now : Time) : PromptRequest :=
  { r with status := status, updatedAt := now }

/-- `SET` of `update_status(…, retry_count=…, error=…)`. -/
def setRetry (status : RequestStatus) (retryCount : Nat) (error : String) (now : Time) :
    PromptRequest :=
  { r with status := status, updatedAt := now, retryCount := retryCount, error := some error }

/-- `SET` of `mark_completed`. -/
def complete (response : String) (cached : Bool) (embedding : Option Vector) (now : Time) :
    PromptRequest :=
  { r with
    status := .completed
    response := some response
    cached := some cached
    error := none
    completedAt := some now
    updatedAt := now
    embedding := embedding.or r.embedding }

/-- `SET` of `mark_failed`. -/
def fail (error : String) (retryCount : Nat) (now : Time) : PromptRequest :=
  { r with
    status := .failed
    error := some error
    retryCount := retryCount
    updatedAt := now }

end PromptRequest

/-- The columns `submit_and_wait` fills in before `insert_with_job`. -/
structure NewRequest where
  userId : String
  promptId : String
  text : String
  textHash : Digest
  priority : Nat
  maxAttempts : Nat
  deriving DecidableEq, Repr

/-- A text the driver can send: PostgreSQL has none with a NUL. -/
def isText (s : String) : Bool := s.toList.all (·.toNat ≠ 0)

/-- A value of a `VARCHAR(255)` column. -/
def fitsVarchar (s : String) : Bool := s.length ≤ 255 && isText s

/-- The columns take the values. Of any others the `INSERT` makes a `DataError`. -/
def NewRequest.fits (new : NewRequest) : Bool :=
  fitsVarchar new.userId && fitsVarchar new.promptId && isText new.text

/-- The columns take what the row has in them. -/
def PromptRequest.fits (r : PromptRequest) : Bool :=
  fitsVarchar r.userId && fitsVarchar r.promptId && isText r.text

theorem fitsVarchar_of_fits {r : PromptRequest} (h : r.fits = true) :
    fitsVarchar r.promptId = true := by
  unfold PromptRequest.fits at h
  simp only [Bool.and_eq_true] at h
  exact h.1.2

theorem isText_of_fits {r : PromptRequest} (h : r.fits = true) : isText r.promptId = true :=
  (Bool.and_eq_true_iff.mp (fitsVarchar_of_fits h)).2

/-- The request row inserted, server-side defaults included. -/
def NewRequest.requestRow (new : NewRequest) (now : Time) (id : Nat) : PromptRequest where
  id := id
  userId := new.userId
  promptId := new.promptId
  text := new.text
  textHash := new.textHash
  priority := new.priority
  embedding := none
  status := .queued
  cached := none
  response := none
  error := none
  retryCount := 0
  createdAt := now
  updatedAt := now
  completedAt := none

/-- The job row inserted with it. -/
def NewRequest.jobRow (new : NewRequest) (requestId : Nat) (now : Time) (id : Nat) :
    ProcessingJob where
  id := id
  promptRequestId := requestId
  status := .queued
  workerId := none
  attemptCount := 0
  maxAttempts := new.maxAttempts
  priority := new.priority
  scheduledAt := now
  lockedUntil := none
  lastHeartbeatAt := none
  startedAt := none
  finishedAt := none
  errorMessage := none
  createdAt := now

/-! ## Methods -/

namespace PromptRequestRepository

/-- `get_by_prompt_id`. -/
def getByPromptId (db : Db) (promptId : String) : Option PromptRequest :=
  db.requests.rows.find? fun r => Keyed.uk r == promptId

/--
`insert_with_job` of values the columns take; `none` is the `IntegrityError`, after which
nothing is written.
-/
def insertWithJob (db : Db) (new : NewRequest) (now : Time) :
    Option (Db × PromptRequest × ProcessingJob) :=
  match hr : db.requests.insert (new.requestRow now) (fun _ => rfl) with
  | none => none
  | some requests =>
      match hj : db.jobs.insert (new.jobRow db.requests.seq now) (fun _ => rfl) with
      | none => none
      | some jobs => some
          ({ db with
              requests := requests
              jobs := jobs
              fk := by
                rw [(Table.insert_some hr).1, (Table.insert_some hj).1]
                intro j h
                rcases List.mem_append.mp h with h | h
                · obtain ⟨r, hr', he⟩ := db.fk j h
                  exact ⟨r, List.mem_append_left _ hr', he⟩
                · rw [List.mem_singleton.mp h]
                  exact ⟨_, List.mem_append_right _ (List.mem_singleton_self _), rfl⟩ },
            new.requestRow now db.requests.seq,
            new.jobRow db.requests.seq now db.jobs.seq)

/-- `update_status(row_id, status)`. -/
def updateStatus (db : Db) (rowId : Nat) (status : RequestStatus) (now : Time) : Db :=
  db.updateRequests (fun r => r.id = rowId) (·.setStatus status now) (fun _ => ⟨rfl, rfl⟩)

/-- `update_status(row_id, status, retry_count=…, error=…)`. -/
def updateRetry (db : Db) (rowId : Nat) (status : RequestStatus) (retryCount : Nat)
    (error : String) (now : Time) : Db :=
  db.updateRequests (fun r => r.id = rowId) (·.setRetry status retryCount error now)
    (fun _ => ⟨rfl, rfl⟩)

/-- `mark_completed`. -/
def markCompleted (db : Db) (rowId : Nat) (response : String) (cached : Bool)
    (embedding : Option Vector) (now : Time) : Db :=
  db.updateRequests (fun r => r.id = rowId) (·.complete response cached embedding now)
    (fun _ => ⟨rfl, rfl⟩)

/-- `mark_failed`. -/
def markFailed (db : Db) (rowId : Nat) (error : String) (retryCount : Nat) (now : Time) : Db :=
  db.updateRequests (fun r => r.id = rowId) (·.fail error retryCount now) (fun _ => ⟨rfl, rfl⟩)

end PromptRequestRepository

end PromptQueue
