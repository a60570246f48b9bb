import PromptQueue.Services.PromptProcessor

/-!
# What clients read

The two routes that show a request: `POST /process`, which answers with what
`submit_and_wait` returned or raised, and `GET /result/{prompt_id}`, which reads the row.
Both hand its columns on as they are.
-/

namespace PromptQueue

/-- `PromptRequestORM.processing_time_ms`: whole milliseconds, rounded towards zero. -/
def PromptRequest.processingTimeMs (row : PromptRequest) : Option Int :=
  row.completedAt.map fun completedAt =>
    let ms := (completedAt - row.createdAt) * 1000
    ms.num.tdiv ms.den

/-- `PromptResponse`. -/
structure PromptResponse where
  userId : String
  promptId : String
  status : RequestStatus
  cached : Option Bool := none
  response : Option String := none
  error : Option String := none
  retryCount : Option Nat := none
  processingTimeMs : Option Int := none
  deriving DecidableEq, Repr

/-- `_to_response`. -/
def toResponse (row : PromptRequest) (userId : String) : PromptResponse where
  userId := userId
  promptId := row.promptId
  status := row.status
  cached := row.cached
  response := row.response
  error := row.error
  retryCount := some row.retryCount
  processingTimeMs := row.processingTimeMs

/-- What a route answers. -/
inductive Answer where
  /-- 200. -/
  | ok (body : PromptResponse)
  /-- 404. -/
  | notFound (detail : String)
  /-- 409. -/
  | conflict (detail : String)
  /-- 429, with the header `Retry-After`. -/
  | tooManyRequests (detail : String) (retryAfter : Nat)
  /-- 500; the detail, if there is one, is the driver's. -/
  | internalServerError
  deriving DecidableEq, Repr

/-- `get_result`. -/
def getResult (db : Db) (promptId : String) : Answer :=
  match PromptRequestRepository.getByPromptId db promptId with
  | none => .notFound "prompt_id not found"
  | some row => .ok (toResponse row row.userId)

/-- `process_prompt`, as soon as its call of `submit_and_wait` is over. -/
def processPrompt (call : Call) : Option Answer :=
  match call.stage with
  | .returned (some row) => some (.ok (toResponse row call.args.userId))
  -- `_to_response` is outside the `try`, and finds no row to read
  | .returned none => some .internalServerError
  | .queueFull exc => some (.tooManyRequests exc.message 5)
  | .conflict exc => some (.conflict exc.message)
  | .integrityError => some .internalServerError
  | _ => none

end PromptQueue
