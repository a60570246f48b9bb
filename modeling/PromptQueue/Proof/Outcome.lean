import PromptQueue.Proof.Ownership
import PromptQueue.Proof.Replay

/-!
# How an execution ends

One execution of the pipeline, from the moment it holds its job, when nobody else
writes the two rows. Whatever the cache, the limiter and the provider say, and
whichever of its own repository calls in `_run` raise, it ends after a bounded
number of its moves, and in one of three ways.

`Standing` says what the two rows are at each stage. The rows are written once or
twice in an execution, always near its end, so most stages say the same: the job is
held, and the request is as it was.
-/

namespace PromptQueue

open Base World

/-- The exception an event raises into the pipeline of its slot. -/
def Event.raised : Event → Option Exc
  | .dbError _ message => some ⟨.databaseDriverError, message⟩
  | .limiter _ (.unavailable message) => some (redisUnavailableError message)
  | .llmLimited _ wait message => some ⟨.rateLimitExceededError wait, message⟩
  | .llmRaise _ exc => some exc
  | _ => none

/-- The events that take a pipeline on: its transactions, and what it hears. -/
def Event.advances : Event → Bool
  | .pipeline _ _ _ | .dbError _ _ | .limiter _ _ | .llmLimited _ _ _ | .llmCall _
  | .llmReturn _ _ | .llmRaise _ _ => true
  | _ => false

/--
The events after which a slot no longer executes what it did: a death, a cancellation,
the loop.
-/
def Event.leaves : Event → Bool
  | .crash _ | .cancel _ | .abort _ | .next _ => true
  | _ => false

variable {S : Type} [LinearOrder S] (env : Env S)

/-- A slot about to execute a job it holds, with a request that is queued. -/
structure HoldsJob (s : WorkerId) (r : Run) (w : World) : Prop where
  slot : w.slots s = .running r
  start : r.stage = .findExact
  job : r.job ∈ w.db.jobs.rows
  held : ProcessingJob.HeldBy r.job.id s r.job
  req : r.req ∈ w.db.requests.rows
  queued : r.req.status = .queued
  tied : r.req.id = r.job.promptRequestId

instance (s : WorkerId) (r : Run) (w : World) : Decidable (HoldsJob s r w) :=
  decidable_of_iff (w.slots s = .running r ∧ r.stage = .findExact ∧ r.job ∈ w.db.jobs.rows ∧
      ProcessingJob.HeldBy r.job.id s r.job ∧ r.req ∈ w.db.requests.rows ∧
      r.req.status = .queued ∧ r.req.id = r.job.promptRequestId)
    ⟨fun ⟨h₁, h₂, h₃, h₄, h₅, h₆, h₇⟩ => ⟨h₁, h₂, h₃, h₄, h₅, h₆, h₇⟩,
      fun h => ⟨h.slot, h.start, h.job, h.held, h.req, h.queued, h.tied⟩⟩

/--
A step that leaves an execution alone: what others do keeps the two rows, and what the
slot does itself neither ends the task from outside nor fails inside the failure handler.
-/
structure LeavesAlone (s : WorkerId) (r : Run) (w : World) (e : Event) : Prop where
  jobs : e.slot ≠ some s → ∀ w' ∈ World.step env w e, ∀ j ∈ w.db.jobs.rows,
    j.id = r.job.id → j ∈ w'.db.jobs.rows
  requests : e.slot ≠ some s → ∀ w' ∈ World.step env w e, ∀ q ∈ w.db.requests.rows,
    q.id = r.req.id → q ∈ w'.db.requests.rows
  stays : e.slot = some s → e.leaves = false
  handled : e.slot = some s → e.raised.isSome = true → ∀ x ∈ w.runOf e,
    PromptPipeline.inRun x.stage = true

/-- The three ways an execution can end. -/
inductive Outcome where
  | completed
  | requeued
  | dead
  deriving DecidableEq, Repr

/-- The status a job has when its execution ended in a way. -/
def Outcome.jobStatus : Outcome → JobStatus
  | .completed => .completed
  | .requeued => .queued
  | .dead => .dead

section
variable (s : WorkerId) (r : Run) (w : World) (es : List Event)

/-- In the run the slot looked a cache row up: by the hash of its text, or by its embedding. -/
def LooksUp (x : SemanticCache) : Prop :=
  (machine env).Passes (fun u e =>
    (u.issued env e = some (.slot s, .findExact (env.hashText r.req.text)) ∧
      SemanticCacheRepository.findExact u.db (env.hashText r.req.text) = some x) ∨
    ∃ top1 sim, u.issued env e = some (.slot s, .selectNearest top1) ∧
      SemanticCacheRepository.findNearest env.similarity u.db (env.embed r.req.text)
        env.threshold top1 = some (x, sim)) w es

/-- What an execution answers with: a cache hit's response, or the provider's. -/
inductive Replies : String → Bool → Prop where
  | hit {x : SemanticCache} (hx : LooksUp env s r w es x) : Replies x.response true
  | asked {response : String} (he : Event.llmReturn s response ∈ es) : Replies response false

/-- In the run an exception was raised into the pipeline. -/
def RaisedIn (exc : Exc) : Prop := ∃ e ∈ es, e.slot = some s ∧ e.raised = some exc

/-- A wait an execution was told: the limiter's, or the provider's. -/
inductive Told : Rat → Prop where
  | denied (he : Event.limiter s .denied ∈ es) : Told env.waitTimeSeconds
  | limited {exc : Exc} {wait : Rat} (hx : RaisedIn s es exc)
      (hw : exc.rateLimitWait = some wait) : Told wait

/-- In the run the slot gave its job back, at a time and until another. -/
def GivesBack (wait : Rat) (now : Time) : Prop :=
  (machine env).Passes (fun u e =>
    u.issued env e = some (.slot s, .releaseLease r.job.id s wait now)) w es

/-- A job back in the queue, due at a time. -/
def BackInQueue (due : Time) (j : ProcessingJob) : Prop :=
  j.status = .queued ∧ j.workerId = none ∧ j.lockedUntil = none ∧ j.scheduledAt = due

/-- How the two rows are when the execution is over, each way it can end. -/
inductive EndsIn : Outcome → ProcessingJob → PromptRequest → Prop where
  | completed {j : ProcessingJob} {q : PromptRequest} {response : String} {cached : Bool}
      (ha : Replies env s r w es response cached) (hj : j.status = .completed)
      (hq : q.status = .completed) (hr : q.response = some response)
      (hc : q.cached = some cached) : EndsIn .completed j q
  | deferred {j : ProcessingJob} {wait : Rat} {now : Time} (hw : Told env s es wait)
      (hg : GivesBack env s r w es wait now) (hj : BackInQueue (now + wait) j)
      (hq : r.req.status = .queued) : EndsIn .requeued j r.req
  | retried {j : ProcessingJob} {q : PromptRequest} {exc : Exc} {now : Time}
      (hx : RaisedIn s es exc) (hretry : isRetryable exc = true)
      (hcan : r.job.canRetry = true)
      (hg : GivesBack env s r w es (PromptPipeline.backoff r.job.attemptCount) now)
      (hj : BackInQueue (now + PromptPipeline.backoff r.job.attemptCount) j)
      (hq : q.status = .queued) (hn : q.retryCount = r.req.retryCount + 1)
      (he : q.error = some exc.message) : EndsIn .requeued j q
  | dead {j : ProcessingJob} {q : PromptRequest} {exc : Exc} (hx : RaisedIn s es exc)
      (hfatal : isRetryable exc = false ∨ r.job.canRetry = false) (hj : j.status = .dead)
      (hq : q.status = .failed) (hn : q.retryCount = r.req.retryCount + 1)
      (he : q.error = some exc.message) : EndsIn .dead j q

/-- How many moves the execution in a slot has made. -/
def ownMoves : Nat := es.countP fun e => e.slot = some s ∧ e.advances = true

/-- **What an execution left alone does**, of which `es` is what happened so far. -/
structure Executes (w' : World) : Prop where
  /-- It makes eleven moves at most. -/
  bounded : ownMoves s es ≤ 11
  /-- It is over, or can move on. -/
  goesOn : ∃ x, w'.slots s = .running x ∧ (x.stage = .done .returned ∨
    ∃ e, e.slot = some s ∧ e.advances = true ∧ LeavesAlone env s r w' e ∧
      (World.step env w' e).isSome = true)
  /-- When it is over it has returned, in exactly one of the three ways. -/
  outcome : ∀ x how, w'.slots s = .running x → x.stage = .done how → how = .returned ∧
    ∃! o, ∃ j ∈ w'.db.jobs.rows, ∃ q ∈ w'.db.requests.rows, j.id = r.job.id ∧ q.id = r.req.id ∧
      EndsIn env s r w es o j q

/-- What the two rows are while the execution stands at a stage. -/
inductive Standing : Stage → ProcessingJob → PromptRequest → Prop where
  | exact {j : ProcessingJob} (hj : ProcessingJob.HeldBy r.job.id s j) :
      Standing .findExact j r.req
  | nearest {j : ProcessingJob} (hj : ProcessingJob.HeldBy r.job.id s j) :
      Standing (.findNearest (env.embed r.req.text)) j r.req
  | hit {j : ProcessingJob} {x : SemanticCache} {emb : Vector}
      (hj : ProcessingJob.HeldBy r.job.id s j) (hx : LooksUp env s r w es x) :
      Standing (.incrementHit x emb) j r.req
  | asking {j : ProcessingJob} {emb : Vector} (hj : ProcessingJob.HeldBy r.job.id s j) :
      Standing (.tryAcquire emb) j r.req
  | calling {j : ProcessingJob} {emb : Vector} (hj : ProcessingJob.HeldBy r.job.id s j) :
      Standing (.llm emb) j r.req
  | waiting {j : ProcessingJob} {emb : Vector} (hj : ProcessingJob.HeldBy r.job.id s j) :
      Standing (.llmWait emb) j r.req
  | deferring {j : ProcessingJob} {wait : Rat} (hj : ProcessingJob.HeldBy r.job.id s j)
      (hw : Told env s es wait) : Standing (.deferRelease wait) j r.req
  | answered {j : ProcessingJob} {emb : Vector} {response : String}
      (hj : ProcessingJob.HeldBy r.job.id s j) (ha : Replies env s r w es response false) :
      Standing (.store emb response) j r.req
  | finishing {j : ProcessingJob} {response : String} {cached : Bool} {emb : Vector}
      (hj : ProcessingJob.HeldBy r.job.id s j) (ha : Replies env s r w es response cached) :
      Standing (.finishRequest response cached emb) j r.req
  | closing {j : ProcessingJob} {q : PromptRequest} {response : String} {cached : Bool}
      (hj : ProcessingJob.HeldBy r.job.id s j) (ha : Replies env s r w es response cached)
      (hq : q.status = .completed) (hr : q.response = some response)
      (hc : q.cached = some cached) : Standing .finishJob j q
  | limiting {j : ProcessingJob} {wait : Rat} (hj : ProcessingJob.HeldBy r.job.id s j)
      (hw : Told env s es wait) : Standing (.limitedRelease wait) j r.req
  | burying {j : ProcessingJob} {q : PromptRequest} {exc : Exc}
      (hj : ProcessingJob.HeldBy r.job.id s j) (hx : RaisedIn s es exc)
      (hfatal : isRetryable exc = false ∨ r.job.canRetry = false) :
      Standing (.markDead exc) j q
  | failing {j : ProcessingJob} {q : PromptRequest} {exc : Exc} (hj : j.status = .dead)
      (hx : RaisedIn s es exc) (hfatal : isRetryable exc = false ∨ r.job.canRetry = false) :
      Standing (.markFailed exc) j q
  | retrying {j : ProcessingJob} {exc : Exc} (hj : ProcessingJob.HeldBy r.job.id s j)
      (hx : RaisedIn s es exc) (hretry : isRetryable exc = true)
      (hcan : r.job.canRetry = true) : Standing (.retryRelease exc) j r.req
  | released {j : ProcessingJob} {exc : Exc} {now : Time} (hx : RaisedIn s es exc)
      (hretry : isRetryable exc = true) (hcan : r.job.canRetry = true)
      (hg : GivesBack env s r w es (PromptPipeline.backoff r.job.attemptCount) now)
      (hj : BackInQueue (now + PromptPipeline.backoff r.job.attemptCount) j) :
      Standing (.retryStatus exc) j r.req
  | ended {j : ProcessingJob} {q : PromptRequest} {o : Outcome}
      (ho : EndsIn env s r w es o j q) : Standing (.done .returned) j q

end

end PromptQueue

namespace PromptQueue.Proof

open PromptQueue Base World

variable {S : Type} [LinearOrder S] {env : Env S} {w u v : World} {e : Event}
variable {s : WorkerId} {r x : Run} {es : List Event} {j : ProcessingJob} {q : PromptRequest}

/-! ## The stages -/

/-- Inside `_run` the job is held. -/
theorem standing_inRun {st : Stage} (h : Standing env s r w es st j q)
    (hst : PromptPipeline.inRun st = true) : ProcessingJob.HeldBy r.job.id s j := by
  cases h <;> first | assumption | cases hst

/-- The failure handler, entered with the request as it was. -/
theorem standing_handleFailure {exc : Exc} (hj : ProcessingJob.HeldBy r.job.id s j)
    (hx : RaisedIn s es exc) :
    Standing env s r w es (PromptPipeline.handleFailure r.job exc) j r.req := by
  rcases PromptPipeline.handleFailure_cases r.job exc with ⟨wait, hw, hst⟩ |
    ⟨-, hfatal, hst⟩ | ⟨-, hretry, hcan, hst⟩
  · rw [hst]
    exact .limiting hj (.limited hx hw)
  · rw [hst]
    exact .burying hj hx hfatal
  · rw [hst]
    exact .retrying hj hx hretry hcan

/-- The driver's errors bury the job, whatever has been written to the request. -/
theorem standing_driver {message : String} (hj : ProcessingJob.HeldBy r.job.id s j)
    (hx : RaisedIn s es ⟨.databaseDriverError, message⟩) :
    Standing env s r w es
      (PromptPipeline.handleFailure r.job ⟨.databaseDriverError, message⟩) j q := by
  rw [PromptPipeline.handleFailure_driver]
  exact .burying hj hx (.inl (driverError_not_retryable rfl))

/-- **What the execution hears** changes no row. -/
theorem standing_thought {y : Run} {es' : List Entry} (h : Standing env s r w es x.stage j q)
    (hjob : x.job = r.job) (he : e.slot = some s) (hmem : e ∈ es) (hstay : e.leaves = false)
    (hin : e.raised.isSome = true → PromptPipeline.inRun x.stage = true)
    (ht : Thought env x e y es') : Standing env s r w es y.stage j q := by
  -- an event that raises is where the exception comes from
  have raised : ∀ {exc : Exc}, e.raised = some exc → RaisedIn s es exc :=
    fun hexc => ⟨e, hmem, he, hexc⟩
  cases ht with
  | dbError hc =>
      have hrun := hin rfl
      have hj := standing_inRun h hrun
      dsimp only
      rw [PromptPipeline.fail, if_pos hrun, hjob]
      exact standing_driver hj (raised rfl)
  | granted hst =>
      rw [hst] at h
      cases h with
      | asking hj => exact .calling hj
  | denied hst =>
      cases he
      rw [hst] at h
      cases h with
      | asking hj => exact .deferring hj (.denied hmem)
  | unavailable hst =>
      rw [hst] at h
      cases h with
      | asking hj =>
          dsimp only
          rw [hjob]
          exact standing_handleFailure hj (raised rfl)
  | guarded hst =>
      rw [hst] at h
      cases h with
      | calling hj => exact .limiting hj (.limited (raised rfl) rfl)
  | called hst =>
      rw [hst] at h
      cases h with
      | calling hj => exact .waiting hj
  | answered hst =>
      cases he
      rw [hst] at h
      cases h with
      | waiting hj => exact .answered hj (.asked hmem)
  | failed hx hst =>
      rw [hst] at h
      cases h with
      | waiting hj =>
          dsimp only
          rw [hjob]
          exact standing_handleFailure hj (raised rfl)
  | cancelled hst hl => cases hstay
  | aborted hst => cases hstay

/-- A job that is held is the one a release gives back. -/
theorem backInQueue_of_release (wait : Rat) (now : Time) (hown : r.job.workerId = some s)
    (hj : ProcessingJob.HeldBy r.job.id s j) :
    BackInQueue (now + wait)
      ((Tx.releaseLease r.job.id (PromptPipeline.workerId r) wait now).onJob j) := by
  have howned : ProcessingJob.OwnedBy r.job.id (PromptPipeline.workerId r) j := by
    refine ⟨hj.1, ?_⟩
    rw [PromptPipeline.workerId, hown]
    exact hj.2.1
  rw [Tx.onJob, Table.updateRow, if_pos howned]
  exact ⟨rfl, rfl, rfl, rfl⟩

/-- **What the execution writes** is what the next stage says of the two rows. -/
theorem standing_turn {now : Time} {top1 : Option Nat} {t : Tx} {st : Stage}
    (h : Standing env s r w es x.stage j q) (hown : r.job.workerId = some s)
    (hqueued : r.req.status = .queued) (hjob : x.job = r.job) (hreq : x.req = r.req)
    (hrow : j ∈ u.db.jobs.rows)
    (hid : q.id = r.req.id) (hiss : u.issued env e = some (.slot s, t))
    (hnow : ∀ P : World → Event → Prop, P u e → (machine env).Passes P w es)
    (ht : PromptPipeline.Turn env u.db x now top1 t st) :
    Standing env s r w es st (t.onJob j) (t.onRequest u.db q) := by
  have hworker : PromptPipeline.workerId x = PromptPipeline.workerId r := by
    rw [PromptPipeline.workerId, PromptPipeline.workerId, hjob]
  have hslot : PromptPipeline.workerId r = s := by
    rw [PromptPipeline.workerId, hown]
    rfl
  have gives : ∀ wait, u.issued env e = some (.slot s,
      .releaseLease x.job.id (PromptPipeline.workerId x) wait now) →
      GivesBack env s r w es wait now := by
    intro wait hrel
    rw [hjob, hworker, hslot] at hrel
    exact hnow _ hrel
  cases ht with
  | missedExact hst hf =>
      rw [hst] at h
      cases h with
      | exact hj =>
          rw [hreq]
          exact .nearest hj
  | @hitExact y hst hf =>
      rw [hst] at h
      cases h with
      | exact hj =>
          rw [hreq] at hiss hf
          exact .hit hj (hnow _ (.inl ⟨hiss, hf⟩))
  | missedNearest hst hf =>
      rw [hst] at h
      cases h with
      | nearest hj => exact .asking hj
  | @hitNearest emb y sim hst hf =>
      rw [hst] at h
      cases h with
      | nearest hj => exact .hit hj (hnow _ (.inr ⟨top1, sim, hiss, hf⟩))
  | counted hst =>
      rw [hst] at h
      cases h with
      | hit hj hx => exact .finishing hj (.hit hx)
  | stored hst =>
      rw [hst] at h
      cases h with
      | answered hj ha => exact .finishing hj ha
  | finished hst =>
      rw [hst] at h
      cases h with
      | finishing hj ha =>
          rw [hreq, Tx.onRequest, Table.updateRow, if_pos rfl]
          exact .closing hj ha rfl rfl rfl
  | closed hst =>
      rw [hst] at h
      cases h with
      | closing hj ha hq hr hc =>
          rw [hjob, Tx.onJob, Table.updateRow, if_pos hj.1]
          exact .ended (.completed ha rfl hq hr hc)
  | @deferred wait hst =>
      have hg := gives wait hiss
      rw [hst] at h
      rw [hjob, hworker]
      cases h with
      | deferring hj hw =>
          exact .ended (.deferred hw hg (backInQueue_of_release wait now hown hj) hqueued)
  | @limited wait hst =>
      have hg := gives wait hiss
      rw [hst] at h
      rw [hjob, hworker]
      cases h with
      | limiting hj hw =>
          exact .ended (.deferred hw hg (backInQueue_of_release wait now hown hj) hqueued)
  | buried hst =>
      rw [hst] at h
      cases h with
      | burying hj hx hfatal =>
          rw [hjob, Tx.onJob, Table.updateRow, if_pos hj.1]
          exact .failing rfl hx hfatal
  | failed hst =>
      rw [hst] at h
      cases h with
      | failing hj hx hfatal =>
          rw [hreq, Tx.onRequest, Table.updateRow, if_pos hid]
          exact .ended (.dead hx hfatal hj rfl rfl rfl)
  | released hst hhits =>
      have hg := gives _ hiss
      rw [hst] at h
      rw [hjob] at hg ⊢
      rw [hworker]
      cases h with
      | retrying hj hx hretry hcan =>
          exact .released hx hretry hcan hg (backInQueue_of_release _ now hown hj)
  | disowned hst hhits =>
      -- the row is there, so the release finds it
      rw [hst] at h
      cases h with
      | retrying hj hx hretry hcan =>
          have hfound : u.db.jobs.hits
              (ProcessingJob.OwnedBy x.job.id (PromptPipeline.workerId x)) = true := by
            rw [Table.hits_iff, hworker, hslot, hjob]
            exact ⟨j, hrow, hj.1, hj.2.1⟩
          rw [hfound] at hhits
          cases hhits
  | retried hst =>
      rw [hst] at h
      cases h with
      | released hx hretry hcan hg hj =>
          rw [hreq, Tx.onRequest, Table.updateRow, if_pos rfl]
          exact .ended (.retried hx hretry hcan hg hj rfl rfl rfl)

/-- **A beat of its own heartbeat** moves a lease that is held, and no other row. -/
theorem standing_beat {leaseSeconds : Nat} {now : Time} {st : Stage}
    (h : Standing env s r w es st j q) :
    Standing env s r w es st ((Tx.extendLease r.job.id s leaseSeconds now).onJob j) q := by
  rw [Tx.onJob]
  by_cases hheld : ProcessingJob.HeldBy r.job.id s j
  · rw [Table.updateRow_pos hheld]
    have hstill : ProcessingJob.HeldBy r.job.id s (j.extend leaseSeconds now) := hheld
    have hp := hheld.2.2
    cases h with
    | exact hj => exact .exact hstill
    | nearest hj => exact .nearest hstill
    | hit hj hx => exact .hit hstill hx
    | asking hj => exact .asking hstill
    | calling hj => exact .calling hstill
    | waiting hj => exact .waiting hstill
    | deferring hj hw => exact .deferring hstill hw
    | answered hj ha => exact .answered hstill ha
    | finishing hj ha => exact .finishing hstill ha
    | closing hj ha hq hr hc => exact .closing hstill ha hq hr hc
    | limiting hj hw => exact .limiting hstill hw
    | burying hj hx hfatal => exact .burying hstill hx hfatal
    | retrying hj hx hretry hcan => exact .retrying hstill hx hretry hcan
    | failing hj hx hfatal => cases hp.symm.trans hj
    | released hx hretry hcan hg hj => cases hp.symm.trans hj.1
    | ended ho =>
        cases ho with
        | completed ha hj hq hr hc => cases hp.symm.trans hj
        | deferred hw hg hj hq => cases hp.symm.trans hj.1
        | retried hx hretry hcan hg hj hq hn he => cases hp.symm.trans hj.1
        | dead hx hfatal hj hq hn he => cases hp.symm.trans hj
  · rw [Table.updateRow_neg hheld]
    exact h

/-! ## The run -/

/-- An execution in a state of the run, with what happened so far. -/
structure Underway (env : Env S) (s : WorkerId) (r : Run) (w : World) (es fs : List Event)
    (u : World) (x : Run) (j : ProcessingJob) (q : PromptRequest) : Prop where
  slot : u.slots s = .running x
  job : x.job = r.job
  req : x.req = r.req
  jobRow : j ∈ u.db.jobs.rows
  jobId : j.id = r.job.id
  reqRow : q ∈ u.db.requests.rows
  reqId : q.id = r.req.id
  standing : Standing env s r w es x.stage j q
  /-- Every move takes the pipeline to a later phase. -/
  moves : ownMoves s fs ≤ x.stage.phase

theorem ownMoves_concat_le (s : WorkerId) (fs : List Event) (e : Event) :
    ownMoves s (fs ++ [e]) ≤ ownMoves s fs + 1 := by
  unfold ownMoves
  rw [List.countP_append]
  exact Nat.add_le_add_left List.countP_le_length _

theorem ownMoves_concat_eq (fs : List Event) (he : e.slot = some s → e.advances = false) :
    ownMoves s (fs ++ [e]) = ownMoves s fs := by
  unfold ownMoves
  rw [List.countP_append, List.countP_singleton, if_neg, Nat.add_zero]
  intro hadv
  obtain ⟨hs, hadv⟩ := of_decide_eq_true hadv
  rw [he hs] at hadv
  cases hadv

/-- A transaction of the execution. -/
theorem underway_wrote {fs gs : List Event} {now : Time} {top1 : Option Nat} {t : Tx}
    (hw : HoldsJob s r w) (hes : es = fs ++ .pipeline s now top1 :: gs)
    (hfs : (machine env).run w fs = some u) (hi : Underway env s r w es fs u x j q)
    (hm : Move env u (.pipeline s now top1) v) (ht : PromptPipeline.call env x now top1 = some t)
    (hy : v.slots s = .running { x with stage := PromptPipeline.resume env x (u.db.exec t).2 }) :
    ∃ y j' q', Underway env s r w es (fs ++ [.pipeline s now top1]) v y j' q' := by
  obtain ⟨st, hst, hturn⟩ := PromptPipeline.turn_of_call u.db ht
  rw [hst] at hy
  have hiss : u.issued env (.pipeline s now top1) = some (.slot s, t) :=
    issued_pipeline hi.slot ht
  have hjob := job_goes_on hm hi.jobRow
  have hreq := request_goes_on hm hi.reqRow
  rw [jobAfter_pipeline hi.slot ht] at hjob
  rw [requestAfter_pipeline hi.slot ht] at hreq
  refine ⟨_, _, _, hy, hi.job, hi.req, hjob, ?_, hreq, ?_, ?_, ?_⟩
  · exact (congrArg (·.1) (t.onJob_static j)).trans hi.jobId
  · exact (congrArg (·.1) (t.onRequest_static u.db q)).trans hi.reqId
  · refine standing_turn hi.standing hw.held.2.1 hw.queued hi.job hi.req hi.jobRow hi.reqId hiss
      ?_ hturn
    intro P hP
    rw [hes]
    exact Machine.passes_of_run hfs hP
  · have hle := ownMoves_concat_le s fs (.pipeline s now top1)
    have hcount := hi.moves
    have hlt := phase_turn hturn
    dsimp only
    omega

/-- A beat of its heartbeat. -/
theorem underway_beat {fs : List Event} {now : Time} {lost : Bool}
    (hi : Underway env s r w es fs u x j q) (hm : Move env u (.heartbeat s now) v)
    (hy : v.slots s = .running { x with leaseLost := lost }) :
    ∃ y j' q', Underway env s r w es (fs ++ [.heartbeat s now]) v y j' q' := by
  have hiss : u.issued env (.heartbeat s now)
      = some (.heartbeat s, .extendLease x.job.id s env.leaseSeconds now) :=
    issued_heartbeat hi.slot
  have hjob := job_goes_on hm hi.jobRow
  have hreq := request_goes_on hm hi.reqRow
  simp only [jobAfter, requestAfter, hiss, Tx.onRequest, id] at hjob hreq
  rw [hi.job] at hjob
  have heq : ownMoves s (fs ++ [.heartbeat s now]) = ownMoves s fs :=
    ownMoves_concat_eq fs fun _ => rfl
  refine ⟨_, _, _, hy, hi.job, hi.req, hjob, ?_, hreq, hi.reqId, standing_beat hi.standing,
    heq.trans_le hi.moves⟩
  exact (congrArg (·.1) (Tx.onJob_static _ j)).trans hi.jobId

/-- Something the execution hears. -/
theorem underway_thought {fs gs : List Event} {y : Run} {es' : List Entry}
    (hes : es = fs ++ e :: gs) (hi : Underway env s r w es fs u x j q)
    (hH : LeavesAlone env s r u e) (hm : Move env u e v) (he : thinker e = some s)
    (ht : Thought env x e y es') (hsame : SameRun x y) (hy : v.slots s = .running y) :
    ∃ y j' q', Underway env s r w es (fs ++ [e]) v y j' q' := by
  have hslot := slot_of_thinker he
  have hjob := job_goes_on hm hi.jobRow
  have hreq := request_goes_on hm hi.reqRow
  simp only [jobAfter, requestAfter, issued_of_thinker he] at hjob hreq
  refine ⟨y, j, q, hy, hsame.1.trans hi.job, hsame.2.1.trans hi.req, hjob, hi.jobId, hreq,
    hi.reqId, ?_, ?_⟩
  · refine standing_thought hi.standing hi.job hslot ?_ (hH.stays hslot) ?_ ht
    · rw [hes]
      exact List.mem_append_right fs List.mem_cons_self
    · intro hr
      exact hH.handled hslot hr x (runOf_eq hslot hi.slot)
  · have hle := ownMoves_concat_le s fs e
    have hcount := hi.moves
    have hlt := phase_thought ht
    omega

/-- **One step, of whoever it is**, and the execution is underway still. -/
theorem underway_step {fs gs : List Event} (hw : HoldsJob s r w)
    (hes : es = fs ++ e :: gs) (hfs : (machine env).run w fs = some u)
    (hi : Underway env s r w es fs u x j q) (hH : LeavesAlone env s r u e)
    (hstep : World.step env u e = some v) :
    ∃ y j' q', Underway env s r w es (fs ++ [e]) v y j' q' := by
  have hm := move_of_step hstep
  by_cases he : e.slot = some s
  · rcases run_forward hm hi.slot with ⟨y, hy, hrs⟩ | rfl | ⟨rfl, -⟩
    · cases hrs with
      | same hne => exact absurd he hne
      | wrote ht => exact underway_wrote hw hes hfs hi hm ht hy
      | beat hl => exact underway_beat hi hm hy
      | thought hth ht =>
          exact underway_thought hes hi hH hm hth ht (RunStep.thought (w := u) hth ht).sameRun hy
    · cases hH.stays he
    · cases hH.stays he
  · have heq : ownMoves s (fs ++ [e]) = ownMoves s fs :=
      ownMoves_concat_eq fs fun h => absurd h he
    exact ⟨x, j, q, (slot_frame hm he).trans hi.slot, hi.job, hi.req,
      hH.jobs he v hstep j hi.jobRow hi.jobId, hi.jobId,
      hH.requests he v hstep q hi.reqRow hi.reqId, hi.reqId, hi.standing, heq.trans_le hi.moves⟩

/-- **An execution left alone is underway** in every state of the run. -/
theorem underway_of_run {w' : World} (hw : HoldsJob s r w)
    (hm : (machine env).Meets (LeavesAlone env s r) w es)
    (hr : (machine env).run w es = some w') :
    ∃ x j q, Underway env s r w es es w' x j q := by
  refine Machine.Meets.along (I := fun fs u => ∃ x j q, Underway env s r w es fs u x j q)
    ?_ hm hr ?_
  · refine ⟨r, r.job, r.req, hw.slot, rfl, rfl, hw.job, rfl, hw.req, rfl, ?_, Nat.zero_le _⟩
    rw [hw.start]
    exact .exact hw.held
  · rintro fs gs u v e hes hfs ⟨x, j, q, hi⟩ hH hstep
    exact underway_step hw hes hfs hi hH hstep

/-! ## How it ends -/

/-- A move of the execution's own that raises nothing leaves it alone. -/
theorem leavesAlone_of_own (he : e.slot = some s) (hl : e.leaves = false)
    (hr : e.raised = none) : LeavesAlone env s r u e where
  jobs := fun hne => absurd he hne
  requests := fun hne => absurd he hne
  stays := fun _ => hl
  handled := by
    intro _ hsome
    rw [hr] at hsome
    cases hsome

/-- **An execution that is not over can move on.** -/
theorem goesOn_of_underway {fs : List Event} (hi : Underway env s r w es fs u x j q) :
    x.stage = .done .returned ∨ ∃ e, e.slot = some s ∧ e.advances = true ∧
      LeavesAlone env s r u e ∧ (World.step env u e).isSome = true := by
  have write : (PromptPipeline.call env x 0 none).isSome = true →
      (World.step env u (.pipeline s 0 none)).isSome = true := by
    intro hc
    simp only [World.step, withRun, hi.slot, Option.isSome_map]
    exact hc
  have hear : ∀ {e : Event}, thinker e = some s → (World.think env x e).isSome = true →
      (World.step env u e).isSome = true := by
    intro e he ht
    cases e <;> first
      | cases he; done
      | simpa only [World.step, he, withRun, hi.slot, Option.isSome_map] using ht
  have hst := hi.standing
  generalize hx : x.stage = st at hst
  cases hst with
  | ended ho => exact .inl rfl
  | asking hj =>
      refine .inr ⟨.limiter s .granted, rfl, rfl, leavesAlone_of_own rfl rfl rfl, hear rfl ?_⟩
      simp only [World.think, hx, Option.isSome_some]
  | calling hj =>
      refine .inr ⟨.llmCall s, rfl, rfl, leavesAlone_of_own rfl rfl rfl, hear rfl ?_⟩
      simp only [World.think, hx, Option.isSome_some]
  | waiting hj =>
      refine .inr ⟨.llmReturn s "", rfl, rfl, leavesAlone_of_own rfl rfl rfl, hear rfl ?_⟩
      simp only [World.think, hx, Option.isSome_some]
  | _ =>
      refine .inr ⟨.pipeline s 0 none, rfl, rfl, leavesAlone_of_own rfl rfl rfl, write ?_⟩
      simp only [PromptPipeline.call, hx, Option.isSome_some]

theorem jobStatus_of_endsIn {o : Outcome} (h : EndsIn env s r w es o j q) :
    j.status = o.jobStatus := by
  cases h with
  | completed ha hj hq hr hc => exact hj
  | deferred hw hg hj hq => exact hj.1
  | retried hx hretry hcan hg hj hq hn he => exact hj.1
  | dead hx hfatal hj hq hn he => exact hj

/-- A claim. -/
def firstClaim : List Event := submission 0 "p" "a" ++ [.claim 0 1 [] (some 1)]

/-- An execution that misses the cache, is granted its call and stores the answer. -/
def firstAnswer : List Event :=
  [.pipeline 0 1 none, .pipeline 0 1 none, .limiter 0 .granted, .llmCall 0, .heartbeat 0 2,
    .llmReturn 0 "answer", .pipeline 0 3 none, .pipeline 0 3 none, .pipeline 0 3 none]

end PromptQueue.Proof
