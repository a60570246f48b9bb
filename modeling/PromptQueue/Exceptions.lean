import PromptQueue.Models

/-!
# The exception hierarchy

`src/exceptions.py`. An exception is its class and its text, `str(exc)`; the one
class whose other payload is read back, `RateLimitExceededError`, keeps its wait.
Exceptions of the database driver and of SQLAlchemy are classes of their own,
outside the hierarchy of the module: nothing in the source turns one of them into
a `DatabaseUnavailableError`.
-/

namespace PromptQueue

/-- The classes an exception caught by the pipeline or raised by the API can have. -/
inductive ExcClass where
  | domainError
  | idempotencyConflictError
  | promptValidationError
  | queueFullError
  | infrastructureError
  | databaseUnavailableError
  | redisUnavailableError
  | providerError
  | llmProviderError
  | llmTimeoutError
  | llmRandomFailureError
  | rateLimitExceededError (waitSeconds : Rat)
  | jobError
  | jobLeaseExpiredError
  | jobMaxAttemptsExceededError
  /-- Raised by SQLAlchemy or the driver. -/
  | databaseDriverError
  /-- Any other subclass of `Exception`. -/
  | other
  deriving DecidableEq, Repr

/-- An exception instance. -/
structure Exc where
  cls : ExcClass
  /-- `str(exc)`. -/
  message : String
  deriving DecidableEq, Repr

/-- `isinstance(exc, RETRYABLE_ERRORS)`; none of the six classes has a subclass. -/
def ExcClass.retryable : ExcClass → Bool
  | .llmTimeoutError | .llmRandomFailureError | .databaseUnavailableError
  | .redisUnavailableError | .jobLeaseExpiredError | .rateLimitExceededError _ => true
  | _ => false

/-- `is_retryable`. -/
def isRetryable (exc : Exc) : Bool := exc.cls.retryable

/-- `isinstance(exc, RateLimitExceededError)`, with the wait it carries. -/
def Exc.rateLimitWait (exc : Exc) : Option Rat :=
  match exc.cls with
  | .rateLimitExceededError w => some w
  | _ => none

/-- `IdempotencyConflictError(prompt_id)`. -/
def idempotencyConflictError (promptId : String) : Exc where
  cls := .idempotencyConflictError
  message := "prompt_id '" ++ promptId ++ "' already exists with different text"

/-- `QueueFullError(depth, max_depth)`. -/
def queueFullError (depth maxDepth : Nat) : Exc where
  cls := .queueFullError
  message := "Queue at capacity (" ++ toString depth ++ "/" ++ toString maxDepth ++ "). "
    ++ "Back off and retry after a few seconds."

/-- `RedisUnavailableError(str(exc))`. -/
def redisUnavailableError (message : String) : Exc where
  cls := .redisUnavailableError
  message := message

/-- A failure of the driver is not among the retryable classes. -/
theorem driverError_not_retryable {exc : Exc} (h : exc.cls = .databaseDriverError) :
    isRetryable exc = false := by
  unfold isRetryable; rw [h]; rfl

end PromptQueue
