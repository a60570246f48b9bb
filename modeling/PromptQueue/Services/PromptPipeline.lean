import PromptQueue.Db.Transaction
import PromptQueue.Exceptions
import PromptQueue.Services.Cache

/-!
# The worker's pipeline

`PromptPipeline` of `src/services/prompt_pipeline.py`, with the two calls of
`SemanticCacheService` it goes through, as a machine whose states are the points
where it waits for something: a repository call, the limiter, the provider.

A run carries the job and the request **as they were when the job was claimed**.
Every decision of the pipeline — whether the job may be retried, how long to back
off, which retry count to write — is taken from that snapshot and never from the
row as it is now.
-/

namespace PromptQueue

/-- How a pipeline task ends. -/
inductive Ending where
  /-- `execute` returned. -/
  | returned
  /-- The task was cancelled. -/
  | cancelled
  /-- An exception escaped from the failure handler. -/
  | raised
  deriving DecidableEq, Repr

/-- Where the pipeline stands, and the local variables it still needs. -/
inductive Stage where
  /-- `lookup`, tier 1. -/
  | findExact
  /-- `lookup`, tier 2. -/
  | findNearest (embedding : Vector)
  /-- `lookup`, after a hit. -/
  | incrementHit (entry : SemanticCache) (embedding : Vector)
  /-- Stage 2. -/
  | tryAcquire (embedding : Vector)
  /-- The limiter said no. -/
  | deferRelease (waitSeconds : Rat)
  /-- Stage 3, before the provider's own guard. -/
  | llm (embedding : Vector)
  /-- Stage 3, the call is out. -/
  | llmWait (embedding : Vector)
  /-- Stage 4. -/
  | store (embedding : Vector) (response : String)
  /-- `_finish`, first write. -/
  | finishRequest (response : String) (cached : Bool) (embedding : Vector)
  /-- `_finish`, second write. -/
  | finishJob
  /-- `_handle_failure` of a `RateLimitExceededError`. -/
  | limitedRelease (waitSeconds : Rat)
  /-- `_handle_failure`, giving up: first write. -/
  | markDead (exc : Exc)
  /-- `_handle_failure`, giving up: second write. -/
  | markFailed (exc : Exc)
  /-- `_handle_failure`, retrying: first write. -/
  | retryRelease (exc : Exc)
  /-- `_handle_failure`, retrying: second write. -/
  | retryStatus (exc : Exc)
  /-- The task is over. -/
  | done (how : Ending)
  deriving DecidableEq, Repr

/-- Between the two writes of the failure handler. -/
def Stage.halfHandled : Stage → Bool
  | .markFailed _ | .retryStatus _ => true
  | _ => false

/-- One execution of the pipeline. -/
structure Run where
  /-- The job row `claim_next` returned. -/
  job : ProcessingJob
  /-- The request row it returned with it. -/
  req : PromptRequest
  stage : Stage
  /-- `extend_lease` returned `False`: the heartbeat is about to cancel the task. -/
  leaseLost : Bool
  /-- Ghost: how long the history was when the job was claimed. -/
  ticket : Nat
  /-- Ghost: how many client resets the job had seen when it was claimed. -/
  epoch : Nat
  deriving DecidableEq, Repr

namespace PromptPipeline

variable {S : Type} [LinearOrder S] (env : Env S)

/-- `min(30.0, 2.0 ** (attempt_count - 1))`. -/
def backoff (attemptCount : Nat) : Rat := min 30 (2 ^ attemptCount / 2)

/-- The branches of `_handle_failure`. -/
def handleFailure (job : ProcessingJob) (exc : Exc) : Stage :=
  match exc.rateLimitWait with
  | some wait => .limitedRelease wait
  | none =>
      if ¬ isRetryable exc = true ∨ ¬ job.canRetry = true then .markDead exc
      else .retryRelease exc

/-- What the failure handler decides. -/
theorem handleFailure_cases (job : ProcessingJob) (exc : Exc) :
    (∃ wait, exc.rateLimitWait = some wait ∧ handleFailure job exc = .limitedRelease wait) ∨
      (exc.rateLimitWait = none ∧ (isRetryable exc = false ∨ job.canRetry = false) ∧
        handleFailure job exc = .markDead exc) ∨
      (exc.rateLimitWait = none ∧ isRetryable exc = true ∧ job.canRetry = true ∧
        handleFailure job exc = .retryRelease exc) := by
  unfold handleFailure
  cases hw : exc.rateLimitWait with
  | some wait => exact .inl ⟨wait, rfl, rfl⟩
  | none =>
      by_cases hn : ¬ isRetryable exc = true ∨ ¬ job.canRetry = true
      · refine .inr (.inl ⟨rfl, ?_, if_pos hn⟩)
        simpa using hn
      · refine .inr (.inr ⟨rfl, ?_, ?_, if_neg hn⟩)
        · by_contra hr; exact hn (.inl hr)
        · by_contra hc; exact hn (.inr hc)

/-- An error of the driver is never worth a retry. -/
theorem handleFailure_driver (job : ProcessingJob) (message : String) :
    handleFailure job ⟨.databaseDriverError, message⟩
      = .markDead ⟨.databaseDriverError, message⟩ := by
  simp [handleFailure, Exc.rateLimitWait, driverError_not_retryable]

/-- The `worker_id` the pipeline passes along, `job.worker_id`. -/
def workerId (r : Run) : WorkerId := r.job.workerId.getD 0

/--
The repository call the pipeline waits for. `now` is what the method reads off
its clock, `top1` the row the vector index puts first.
-/
def call (r : Run) (now : Time) (top1 : Option Nat) : Option Tx :=
  match r.stage with
  | .findExact => some (.findExact (env.hashText r.req.text))
  | .findNearest _ => some (.selectNearest top1)
  | .incrementHit entry _ => some (.incrementHitCount entry.id now)
  | .deferRelease wait => some (.releaseLease r.job.id (workerId r) wait now)
  | .store emb resp => some (.upsert (env.entryFor r.req.promptId r.req.text emb resp) now)
  | .finishRequest resp cached emb =>
      some (.requestMarkCompleted r.req.id resp cached (some emb) now)
  | .finishJob => some (.jobMarkCompleted r.job.id now)
  | .limitedRelease wait => some (.releaseLease r.job.id (workerId r) wait now)
  | .markDead exc => some (.markDead r.job.id exc.message now)
  | .markFailed exc => some (.requestMarkFailed r.req.id exc.message (r.req.retryCount + 1) now)
  | .retryRelease _ =>
      some (.releaseLease r.job.id (workerId r) (backoff r.job.attemptCount) now)
  | .retryStatus exc =>
      some (.updateRetry r.req.id .queued (r.req.retryCount + 1) exc.message now)
  | .tryAcquire _ | .llm _ | .llmWait _ | .done _ => none

/-- Where the pipeline goes with what the call returned. -/
def resume (r : Run) (res : Res) : Stage :=
  match r.stage with
  | .findExact =>
      match res with
      | .entry (some e) => .incrementHit e e.embedding
      | _ => .findNearest (env.embed r.req.text)
  | .findNearest emb =>
      match res with
      | .entry (some e) =>
          match SemanticCacheRepository.aboveThreshold env.similarity env.threshold emb e with
          | some (entry, _) => .incrementHit entry emb
          | none => .tryAcquire emb
      | _ => .tryAcquire emb
  | .incrementHit entry emb => .finishRequest entry.response true emb
  | .deferRelease _ => .done .returned
  | .store emb resp => .finishRequest resp false emb
  | .finishRequest _ _ _ => .finishJob
  | .finishJob => .done .returned
  | .limitedRelease _ => .done .returned
  | .markDead exc => .markFailed exc
  | .markFailed _ => .done .returned
  | .retryRelease exc =>
      match res with
      | .updated true => .retryStatus exc
      | _ => .done .returned
  | .retryStatus _ => .done .returned
  | s => s

/-- What the limiter can answer. -/
inductive LimiterAnswer where
  | granted
  | denied
  /-- `RedisUnavailableError(message)`. -/
  | unavailable (message : String)
  deriving DecidableEq, Repr

/-- Stage 2 with the limiter's answer. -/
def acquire (job : ProcessingJob) (embedding : Vector) : LimiterAnswer → Stage
  | .granted => .llm embedding
  | .denied => .deferRelease env.waitTimeSeconds
  | .unavailable message => handleFailure job (redisUnavailableError message)

/-- Whether the pipeline stands inside `_run`, where `execute` catches what is raised. -/
def inRun : Stage → Bool
  | .findExact | .findNearest _ | .incrementHit _ _ | .tryAcquire _ | .deferRelease _ | .llm _
  | .llmWait _ | .store _ _ | .finishRequest _ _ _ | .finishJob => true
  | .limitedRelease _ | .markDead _ | .markFailed _ | .retryRelease _ | .retryStatus _
  | .done _ => false

/--
The call the pipeline waits for raises: inside `_run` the exception goes to the
failure handler, inside the handler it escapes.
-/
def fail (r : Run) (exc : Exc) : Stage :=
  if inRun r.stage then handleFailure r.job exc else .done .raised

/-! ## One turn -/

/--
The turns of a pipeline: the repository call it makes at a stage, and the stage it
goes to with what the call returned.
-/
inductive Turn (db : Db) (r : Run) (now : Time) (top1 : Option Nat) : Tx → Stage → Prop where
  | missedExact (hst : r.stage = .findExact)
      (hf : SemanticCacheRepository.findExact db (env.hashText r.req.text) = none) :
      Turn db r now top1 (.findExact (env.hashText r.req.text))
        (.findNearest (env.embed r.req.text))
  | hitExact {x : SemanticCache} (hst : r.stage = .findExact)
      (hf : SemanticCacheRepository.findExact db (env.hashText r.req.text) = some x) :
      Turn db r now top1 (.findExact (env.hashText r.req.text)) (.incrementHit x x.embedding)
  | missedNearest {emb : Vector} (hst : r.stage = .findNearest emb)
      (hf : SemanticCacheRepository.findNearest env.similarity db emb env.threshold top1 = none) :
      Turn db r now top1 (.selectNearest top1) (.tryAcquire emb)
  | hitNearest {emb : Vector} {x : SemanticCache} {sim : S} (hst : r.stage = .findNearest emb)
      (hf : SemanticCacheRepository.findNearest env.similarity db emb env.threshold top1
        = some (x, sim)) :
      Turn db r now top1 (.selectNearest top1) (.incrementHit x emb)
  | counted {x : SemanticCache} {emb : Vector} (hst : r.stage = .incrementHit x emb) :
      Turn db r now top1 (.incrementHitCount x.id now) (.finishRequest x.response true emb)
  | deferred {wait : Rat} (hst : r.stage = .deferRelease wait) :
      Turn db r now top1 (.releaseLease r.job.id (workerId r) wait now) (.done .returned)
  | stored {emb : Vector} {resp : String} (hst : r.stage = .store emb resp) :
      Turn db r now top1 (.upsert (env.entryFor r.req.promptId r.req.text emb resp) now)
        (.finishRequest resp false emb)
  | finished {resp : String} {cached : Bool} {emb : Vector}
      (hst : r.stage = .finishRequest resp cached emb) :
      Turn db r now top1 (.requestMarkCompleted r.req.id resp cached (some emb) now) .finishJob
  | closed (hst : r.stage = .finishJob) :
      Turn db r now top1 (.jobMarkCompleted r.job.id now) (.done .returned)
  | limited {wait : Rat} (hst : r.stage = .limitedRelease wait) :
      Turn db r now top1 (.releaseLease r.job.id (workerId r) wait now) (.done .returned)
  | buried {exc : Exc} (hst : r.stage = .markDead exc) :
      Turn db r now top1 (.markDead r.job.id exc.message now) (.markFailed exc)
  | failed {exc : Exc} (hst : r.stage = .markFailed exc) :
      Turn db r now top1 (.requestMarkFailed r.req.id exc.message (r.req.retryCount + 1) now)
        (.done .returned)
  | released {exc : Exc} (hst : r.stage = .retryRelease exc)
      (hown : db.jobs.hits (ProcessingJob.OwnedBy r.job.id (workerId r)) = true) :
      Turn db r now top1 (.releaseLease r.job.id (workerId r) (backoff r.job.attemptCount) now)
        (.retryStatus exc)
  | disowned {exc : Exc} (hst : r.stage = .retryRelease exc)
      (hown : db.jobs.hits (ProcessingJob.OwnedBy r.job.id (workerId r)) = false) :
      Turn db r now top1 (.releaseLease r.job.id (workerId r) (backoff r.job.attemptCount) now)
        (.done .returned)
  | retried {exc : Exc} (hst : r.stage = .retryStatus exc) :
      Turn db r now top1 (.updateRetry r.req.id .queued (r.req.retryCount + 1) exc.message now)
        (.done .returned)

variable {env}

/-- **Every repository call of a pipeline is one of its turns.** -/
theorem turn_of_call (db : Db) {r : Run} {now : Time} {top1 : Option Nat} {t : Tx}
    (h : call env r now top1 = some t) :
    ∃ x, resume env r (db.exec t).2 = x ∧ Turn env db r now top1 t x := by
  unfold call at h
  cases hst : r.stage with
  | findExact =>
      rw [hst] at h
      cases h
      cases hf : SemanticCacheRepository.findExact db (env.hashText r.req.text) with
      | none => exact ⟨_, by simp only [resume, hst, Db.exec, hf], .missedExact hst hf⟩
      | some x => exact ⟨_, by simp only [resume, hst, Db.exec, hf], .hitExact hst hf⟩
  | findNearest emb =>
      rw [hst] at h
      cases h
      cases hs : SemanticCacheRepository.selectNearest db top1 with
      | none =>
          refine ⟨_, ?_, .missedNearest hst ?_⟩
          · simp only [resume, hst, Db.exec, hs]
          · simp [SemanticCacheRepository.findNearest, hs]
      | some x =>
          cases ha : SemanticCacheRepository.aboveThreshold env.similarity env.threshold emb x with
          | none =>
              refine ⟨_, ?_, .missedNearest hst ?_⟩
              · simp only [resume, hst, Db.exec, hs, ha]
              · simp [SemanticCacheRepository.findNearest, hs, ha]
          | some p =>
              obtain ⟨y, sim⟩ := p
              have hf : SemanticCacheRepository.findNearest env.similarity db emb env.threshold
                  top1 = some (y, sim) := by
                simp [SemanticCacheRepository.findNearest, hs, ha]
              exact ⟨_, by simp only [resume, hst, Db.exec, hs, ha], .hitNearest hst hf⟩
  | retryRelease exc =>
      rw [hst] at h
      cases h
      cases hown : db.jobs.hits (ProcessingJob.OwnedBy r.job.id (workerId r)) with
      | true =>
          refine ⟨_, ?_, .released hst hown⟩
          simp only [resume, hst, Db.exec, ProcessingJobRepository.releaseLease, hown]
      | false =>
          refine ⟨_, ?_, .disowned hst hown⟩
          simp only [resume, hst, Db.exec, ProcessingJobRepository.releaseLease, hown]
  | incrementHit x emb =>
      rw [hst] at h
      cases h
      exact ⟨_, by simp only [resume, hst], .counted hst⟩
  | deferRelease wait =>
      rw [hst] at h
      cases h
      exact ⟨_, by simp only [resume, hst], .deferred hst⟩
  | store emb resp =>
      rw [hst] at h
      cases h
      exact ⟨_, by simp only [resume, hst], .stored hst⟩
  | finishRequest resp cached emb =>
      rw [hst] at h
      cases h
      exact ⟨_, by simp only [resume, hst], .finished hst⟩
  | finishJob =>
      rw [hst] at h
      cases h
      exact ⟨_, by simp only [resume, hst], .closed hst⟩
  | limitedRelease wait =>
      rw [hst] at h
      cases h
      exact ⟨_, by simp only [resume, hst], .limited hst⟩
  | markDead exc =>
      rw [hst] at h
      cases h
      exact ⟨_, by simp only [resume, hst], .buried hst⟩
  | markFailed exc =>
      rw [hst] at h
      cases h
      exact ⟨_, by simp only [resume, hst], .failed hst⟩
  | retryStatus exc =>
      rw [hst] at h
      cases h
      exact ⟨_, by simp only [resume, hst], .retried hst⟩
  | _ => rw [hst] at h; cases h

/-! ## The failure handler -/

/-- What the failure handler does is its own. -/
theorem handleFailure_not_inRun (job : ProcessingJob) (exc : Exc) :
    inRun (handleFailure job exc) = false := by
  rcases handleFailure_cases job exc with ⟨wait, -, hs⟩ | ⟨-, -, hs⟩ | ⟨-, -, -, hs⟩ <;>
    (rw [hs]; rfl)

theorem fail_not_inRun (r : Run) (exc : Exc) : inRun (fail r exc) = false := by
  unfold fail
  split
  · exact handleFailure_not_inRun r.job exc
  · rfl

end PromptPipeline

end PromptQueue
