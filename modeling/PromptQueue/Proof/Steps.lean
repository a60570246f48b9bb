import PromptQueue.Proof.Effects

/-!
# Who can do what

The inversion lemmas every invariant is proved from. `JobStep` and `RequestStep`
list the ways a move can change one row, each with the process that did it and the
guard of its `UPDATE`; `RunStep`, `Thought` and `CallStep` do the same for the
state of a pipeline and of a call; `Fresh` lists what a move can add to the
history.
-/

namespace PromptQueue

/-- The stages that wait for `release_lease`. -/
def Stage.releases : Stage → Bool
  | .deferRelease _ | .limitedRelease _ | .retryRelease _ => true
  | _ => false

/-- The stages that wait for the `release_lease` of a deferral. -/
def Stage.defers : Stage → Bool
  | .deferRelease _ | .limitedRelease _ => true
  | _ => false

/-- The stages that wait for the `release_lease` of a retry. -/
def Stage.retries : Stage → Bool
  | .retryRelease _ => true
  | _ => false

/-- The stages that wait for an answer of the limiter or the provider. -/
def Stage.hears : Stage → Bool
  | .tryAcquire _ | .llm _ | .llmWait _ => true
  | _ => false

/-- How far a pipeline has come. No way leads back. -/
def Stage.phase : Stage → Nat
  | .findExact => 0
  | .findNearest _ => 1
  | .incrementHit _ _ | .tryAcquire _ => 2
  | .llm _ => 3
  | .llmWait _ => 4
  | .store _ _ => 5
  | .finishRequest _ _ _ => 6
  | .finishJob | .deferRelease _ => 7
  | .limitedRelease _ | .markDead _ | .retryRelease _ => 8
  | .retryStatus _ => 9
  | .markFailed _ => 10
  | .done _ => 11

end PromptQueue

namespace PromptQueue.Proof

open PromptQueue Base World

variable {S : Type} [LinearOrder S] {env : Env S} {w w' : World} {e : Event}

/-! ## Job rows -/

/-- The ways a move can act on a job row. -/
inductive JobStep (env : Env S) (w : World) : Event → ProcessingJob → ProcessingJob → Prop where
  | same {e : Event} {j : ProcessingJob} : JobStep env w e j j
  | claimed {s : WorkerId} {now : Time} {locked : List Nat} {pick : Option Nat}
      {j : ProcessingJob} (hs : w.slots s = .idle) (hp : some j.id = pick)
      (hd : ProcessingJob.Due now j) :
      JobStep env w (.claim s now locked pick) j (j.claim s env.leaseSeconds now)
  | extended {s : WorkerId} {now : Time} {r : Run} {j : ProcessingJob}
      (hs : w.slots s = .running r) (hh : ProcessingJob.HeldBy r.job.id s j) :
      JobStep env w (.heartbeat s now) j (j.extend env.leaseSeconds now)
  | released {s : WorkerId} {now : Time} {top1 : Option Nat} {r : Run} {j : ProcessingJob}
      {due : Time} (hs : w.slots s = .running r) (hst : r.stage.releases = true)
      (ho : ProcessingJob.OwnedBy r.job.id (PromptPipeline.workerId r) j) :
      JobStep env w (.pipeline s now top1) j (j.release due)
  | completed {s : WorkerId} {now : Time} {top1 : Option Nat} {r : Run} {j : ProcessingJob}
      (hs : w.slots s = .running r) (hst : r.stage = .finishJob) (hj : j.id = r.job.id) :
      JobStep env w (.pipeline s now top1) j (j.complete now)
  | buried {s : WorkerId} {now : Time} {top1 : Option Nat} {r : Run} {j : ProcessingJob}
      {exc : Exc} (hs : w.slots s = .running r) (hst : r.stage = .markDead exc)
      (hj : j.id = r.job.id) :
      JobStep env w (.pipeline s now top1) j (j.bury exc.message now)
  | reset {c : Nat} {k : Call} {now : Time} {inTime : Bool} {q : PromptRequest}
      {j : ProcessingJob} (hc : w.calls c = some k) (hst : k.stage = .reenqueueReset q)
      (hj : j.promptRequestId = q.id) : JobStep env w (.call c now inTime) j (j.reset now)
  | requeued {now : Time} {j : ProcessingJob} (hr : ProcessingJob.Reclaimable now j) :
      JobStep env w (.reap now) j j.requeue
  | expired {now : Time} {j : ProcessingJob} (hx : ProcessingJob.Exhausted now j) :
      JobStep env w (.reap now) j (j.expire now)

theorem JobStep.update {p : ProcessingJob → Prop} [DecidablePred p]
    {f : ProcessingJob → ProcessingJob} {j : ProcessingJob}
    (h : p j → JobStep env w e j (f j)) : JobStep env w e j (Table.updateRow p f j) :=
  Table.updateRow_ind (P := JobStep env w e j) .same h

/-- **What a move does to a job row is one of the cases.** -/
theorem job_step (h : Move env w e w') (j : ProcessingJob) :
    JobStep env w e j (w.jobAfter env e j) := by
  cases h with
  | submit hc => exact .same
  | callCrash hc he => exact .same
  | crash hs => exact .same
  | next hs hd => exact .same
  | think hs he ht =>
      rw [jobAfter, issued_of_thinker he]
      exact .same
  | claim hs hsel =>
      simp only [jobAfter, issued, Tx.onJob]
      refine JobStep.update fun hp => ?_
      exact .claimed hs hp.1 hp.2
  | heartbeat hs hl =>
      simp only [jobAfter, issued, hs, Tx.onJob]
      exact JobStep.update fun hp => .extended hs hp
  | @reap now =>
      simp only [jobAfter, issued, Tx.onJob]
      by_cases hr : ProcessingJob.Reclaimable now j
      · rw [Table.updateRow_pos hr, Table.updateRow_neg (not_exhausted_requeue _ j)]
        exact .requeued hr
      · rw [Table.updateRow_neg hr]
        exact JobStep.update fun hx => .expired hx
  | @call c k now inTime t hc ht =>
      simp only [jobAfter, issued, hc, ht, Option.map_some]
      cases PromptProcessor.turn_iff.mp ht with
      | reset hst =>
          simp only [Tx.onJob]
          exact JobStep.update fun hp => .reset hc hst hp
      | _ => exact .same
  | @pipeline s r now top1 t hs ht =>
      simp only [jobAfter, issued, hs, ht, Option.map_some]
      obtain ⟨x, -, hturn⟩ := PromptPipeline.turn_of_call w.db ht
      cases hturn with
      | deferred hst | limited hst | released hst _ | disowned hst _ =>
          simp only [Tx.onJob]
          exact JobStep.update fun hp => .released hs (by rw [hst]; rfl) hp
      | closed hst =>
          simp only [Tx.onJob]
          exact JobStep.update fun hp => .completed hs hst hp
      | buried hst =>
          simp only [Tx.onJob]
          exact JobStep.update fun hp => .buried hs hst hp
      | _ => exact .same

/-! ## Request rows -/

/-- The ways a move can act on a request row. -/
inductive RequestStep (w : World) : Event → PromptRequest → PromptRequest → Prop where
  | same {e : Event} {r : PromptRequest} : RequestStep w e r r
  | reenqueued {c : Nat} {k : Call} {now : Time} {inTime : Bool} {q r : PromptRequest}
      (hc : w.calls c = some k) (hst : k.stage = .reenqueueStatus q) (hr : r.id = q.id) :
      RequestStep w (.call c now inTime) r (r.setStatus .queued now)
  | retried {s : WorkerId} {now : Time} {top1 : Option Nat} {x : Run} {r : PromptRequest}
      {exc : Exc} (hs : w.slots s = .running x) (hst : x.stage = .retryStatus exc)
      (hr : r.id = x.req.id) : RequestStep w (.pipeline s now top1) r
        (r.setRetry .queued (x.req.retryCount + 1) exc.message now)
  | completed {s : WorkerId} {now : Time} {top1 : Option Nat} {x : Run} {r : PromptRequest}
      {resp : String} {cached : Bool} {emb : Vector} (hs : w.slots s = .running x)
      (hst : x.stage = .finishRequest resp cached emb) (hr : r.id = x.req.id) :
      RequestStep w (.pipeline s now top1) r (r.complete resp cached (some emb) now)
  | failed {s : WorkerId} {now : Time} {top1 : Option Nat} {x : Run} {r : PromptRequest}
      {exc : Exc} (hs : w.slots s = .running x) (hst : x.stage = .markFailed exc)
      (hr : r.id = x.req.id) : RequestStep w (.pipeline s now top1) r
        (r.fail exc.message (x.req.retryCount + 1) now)
  | requeued {now : Time} {j : ProcessingJob} {r : PromptRequest} (hj : j ∈ w.db.jobs.rows)
      (hr : ProcessingJob.Reclaimable now j) (ht : r.id = j.promptRequestId) :
      RequestStep w (.reap now) r (ProcessingJobRepository.syncQueued now r)
  | expired {now : Time} {j : ProcessingJob} {r : PromptRequest} {dead : List ProcessingJob}
      (hj : j ∈ w.db.jobs.rows) (hx : ProcessingJob.Exhausted now j)
      (ht : r.id = j.promptRequestId) :
      RequestStep w (.reap now) r (ProcessingJobRepository.syncFailed dead now r)

theorem RequestStep.update {p : PromptRequest → Prop} [DecidablePred p]
    {f : PromptRequest → PromptRequest} {r : PromptRequest}
    (h : p r → RequestStep w e r (f r)) : RequestStep w e r (Table.updateRow p f r) :=
  Table.updateRow_ind (P := RequestStep w e r) .same h

/-- What the reaper does to a request row. -/
theorem reap_request (now : Time) (r : PromptRequest) :
    RequestStep w (.reap now) r (w.requestAfter env (.reap now) r) := by
  simp only [requestAfter, issued, Tx.onRequest, reapRequest]
  by_cases hq : ProcessingJobRepository.RequestOf
      (w.db.jobs.rows.filter fun j => ProcessingJob.Reclaimable now j) r
  · have hpos : Table.updateRow (ProcessingJobRepository.RequestOf
        (w.db.jobs.rows.filter fun j => ProcessingJob.Reclaimable now j))
        (ProcessingJobRepository.syncQueued now) r = ProcessingJobRepository.syncQueued now r :=
      Table.updateRow_pos hq
    rw [hpos]
    obtain ⟨j, hj, ht⟩ := hq
    obtain ⟨hj, hr⟩ := List.mem_filter.mp hj
    have hr := of_decide_eq_true hr
    -- a request has one job, so the second statement leaves this row alone
    rw [Table.updateRow_neg]
    · exact .requeued hj hr ht
    · rintro ⟨d, hd, hti⟩
      obtain ⟨i, hi, rfl⟩ := List.mem_map.mp hd
      obtain ⟨hi, hx⟩ := List.mem_filter.mp hi
      rw [Db.job_unique hi hj (hti.symm.trans ht)] at hx
      exact not_exhausted_of_reclaimable hr (of_decide_eq_true hx)
  · rw [Table.updateRow_neg hq]
    refine RequestStep.update fun hd => ?_
    obtain ⟨d, hd, ht⟩ := hd
    obtain ⟨j, hj, rfl⟩ := List.mem_map.mp hd
    obtain ⟨hj, hx⟩ := List.mem_filter.mp hj
    exact .expired hj (of_decide_eq_true hx) ht

/-- **What a move does to a request row is one of the cases.** -/
theorem request_step (h : Move env w e w') (r : PromptRequest) :
    RequestStep w e r (w.requestAfter env e r) := by
  cases h with
  | submit hc => exact .same
  | callCrash hc he => exact .same
  | crash hs => exact .same
  | next hs hd => exact .same
  | claim hs hsel => exact .same
  | reap => exact reap_request _ r
  | think hs he ht =>
      rw [requestAfter, issued_of_thinker he]
      exact .same
  | heartbeat hs hl =>
      simp only [requestAfter, issued, hs, Tx.onRequest]
      exact .same
  | @call c k now inTime t hc ht =>
      simp only [requestAfter, issued, hc, ht, Option.map_some]
      cases PromptProcessor.turn_iff.mp ht with
      | reenqueue hst =>
          simp only [Tx.onRequest]
          exact RequestStep.update fun hp => .reenqueued hc hst hp
      | _ => exact .same
  | @pipeline s x now top1 t hs ht =>
      simp only [requestAfter, issued, hs, ht, Option.map_some]
      obtain ⟨y, -, hturn⟩ := PromptPipeline.turn_of_call w.db ht
      cases hturn with
      | finished hst =>
          simp only [Tx.onRequest]
          exact RequestStep.update fun hp => .completed hs hst hp
      | failed hst =>
          simp only [Tx.onRequest]
          exact RequestStep.update fun hp => .failed hs hst hp
      | retried hst =>
          simp only [Tx.onRequest]
          exact RequestStep.update fun hp => .retried hs hst hp
      | _ => exact .same

/-- A request that is completed was completed before, or by the pipeline that moves. -/
theorem completed_back {q q' : PromptRequest} (h : RequestStep w e q q')
    (hc : q'.status = .completed) :
    q' = q ∨ ∃ s now top1 r resp cached emb, e = .pipeline s now top1 ∧
      w.slots s = .running r ∧ r.stage = .finishRequest resp cached emb ∧ q.id = r.req.id ∧
      q' = q.complete resp cached (some emb) now := by
  cases h with
  | same => exact .inl rfl
  | completed hs hst hid => exact .inr ⟨_, _, _, _, _, _, _, rfl, hs, hst, hid, rfl⟩
  | reenqueued hk hst hid => cases hc
  | retried hs hst hid => cases hc
  | failed hs hst hid => cases hc
  | requeued hj hr hid => cases hc
  | expired hj hx hid => cases hc

/-! ## Rows, exactly -/

theorem jobAfter_pipeline {s : WorkerId} {r : Run} {now : Time} {top1 : Option Nat} {t : Tx}
    (hs : w.slots s = .running r) (ht : PromptPipeline.call env r now top1 = some t)
    (j : ProcessingJob) : w.jobAfter env (.pipeline s now top1) j = t.onJob j := by
  simp [jobAfter, issued, hs, ht]

theorem requestAfter_pipeline {s : WorkerId} {r : Run} {now : Time} {top1 : Option Nat}
    {t : Tx} (hs : w.slots s = .running r) (ht : PromptPipeline.call env r now top1 = some t)
    (q : PromptRequest) :
    w.requestAfter env (.pipeline s now top1) q = t.onRequest w.db q := by
  simp [requestAfter, issued, hs, ht]

theorem jobAfter_call {c : Nat} {k : Call} {now : Time} {inTime : Bool} {t : Tx}
    (hc : w.calls c = some k) (ht : PromptProcessor.call env k now = some t)
    (j : ProcessingJob) : w.jobAfter env (.call c now inTime) j = t.onJob j := by
  simp [jobAfter, issued, hc, ht]

theorem requestAfter_call {c : Nat} {k : Call} {now : Time} {inTime : Bool} {t : Tx}
    (hc : w.calls c = some k) (ht : PromptProcessor.call env k now = some t)
    (q : PromptRequest) : w.requestAfter env (.call c now inTime) q = t.onRequest w.db q := by
  simp [requestAfter, issued, hc, ht]

/-- A call that is about to reset a job resets it. -/
theorem reset_issued {c : Nat} {k : Call} {now : Time} {inTime : Bool} {q : PromptRequest}
    (hc : w.calls c = some k) (hst : k.stage = .reenqueueReset q) :
    w.issued env (.call c now inTime) = some (.call c, .resetJob q.id now) := by
  have hcall : PromptProcessor.call env k now = some (.resetJob q.id now) :=
    PromptProcessor.turn_iff.mpr (.reset hst)
  exact issued_call hc hcall

/-- The reaper fails the request of a job it buries. -/
theorem requestAfter_exhausted {now : Time} {j : ProcessingJob} {q : PromptRequest}
    (hj : j ∈ w.db.jobs.rows) (hx : ProcessingJob.Exhausted now j)
    (ht : q.id = j.promptRequestId) :
    (w.requestAfter env (.reap now) q).status = .failed := by
  simp only [requestAfter, issued, Tx.onRequest, reapRequest]
  have hd : j.expire now ∈ (w.db.jobs.rows.filter
      fun j => ProcessingJob.Exhausted now j).map (·.expire now) :=
    List.mem_map_of_mem (List.mem_filter.mpr ⟨hj, decide_eq_true hx⟩)
  rw [Table.updateRow_pos]
  · rfl
  · refine ⟨_, hd, ?_⟩
    rw [Table.updateRow_keeps (g := PromptRequest.id) (by intro _; rfl)]
    exact ht

/-! ## Rows, read backwards -/

/-- A job row was there before and a move acted on it, or a call just inserted it. -/
theorem job_cases (h : Move env w e w') {j' : ProcessingJob} (hj : j' ∈ w'.db.jobs.rows) :
    (∃ j ∈ w.db.jobs.rows, JobStep env w e j j') ∨ ∃ q, Inserted env w e q j' := by
  rcases job_origin h hj with ⟨j, hj₀, rfl⟩ | hins
  · exact .inl ⟨j, hj₀, job_step h j⟩
  · exact .inr hins

/-! ## Cache rows -/

/-- A pipeline's `store` of an entry whose hash was free. -/
structure Stored (env : Env S) (w : World) (e : Event) (x : SemanticCache) : Prop where
  /-- The run, and when it stored. -/
  run : ∃ s r now top1 emb resp, e = .pipeline s now top1 ∧ w.slots s = .running r ∧
    r.stage = .store emb resp ∧
    x = (env.entryFor r.req.promptId r.req.text emb resp).row now w.db.cache.seq

/-- Only `upsert` adds a cache row, and only a pipeline at `store` issues it. -/
theorem upsert_issuer {who : Proc} {new : NewEntry} {now : Time}
    (h : w.issued env e = some (who, .upsert new now)) :
    ∃ s r top1 emb resp, e = .pipeline s now top1 ∧ w.slots s = .running r ∧
      r.stage = .store emb resp ∧ new = env.entryFor r.req.promptId r.req.text emb resp := by
  cases issues_of_issued h with
  | call hc hk => cases PromptProcessor.turn_iff.mp hk
  | pipeline hs hr =>
      obtain ⟨x, -, hturn⟩ := PromptPipeline.turn_of_call w.db hr
      cases hturn with
      | stored hst => exact ⟨_, _, _, _, _, rfl, hs, hst, rfl⟩

/-- A cache row was there before the move, or a pipeline just stored it. -/
theorem entry_origin (h : Move env w e w') {x' : SemanticCache} (hx : x' ∈ w'.db.cache.rows) :
    (∃ x ∈ w.db.cache.rows, x' = w.entryAfter env e x) ∨ Stored env w e x' := by
  rw [move_issued h] at hx
  unfold entryAfter
  split at hx
  · rename_i p hp
    obtain ⟨who, t⟩ := p
    rw [Db.exec_cache] at hx
    rcases List.mem_append.mp hx with hx | hx
    · obtain ⟨x, hx₀, rfl⟩ := List.mem_map.mp hx
      exact .inl ⟨x, hx₀, rfl⟩
    · cases t with
      | upsert new now =>
          unfold Tx.newEntries at hx
          dsimp only at hx
          split at hx
          · rw [List.mem_singleton.mp hx]
            obtain ⟨s, r, top1, emb, resp, he, hs, hst, rfl⟩ := upsert_issuer hp
            exact .inr ⟨s, r, _, top1, emb, resp, he, hs, hst, rfl⟩
          · cases hx
      | _ => cases hx
  · exact .inl ⟨x', hx, rfl⟩

/-! ## Pipelines -/

/-- The ways a pipeline can move without a transaction, and what each leaves in the history. -/
inductive Thought (env : Env S) (r : Run) : Event → Run → List Entry → Prop where
  | dbError {s : WorkerId} {message : String}
      (ht : (PromptPipeline.call env r 0 none).isSome = true) :
      Thought env r (.dbError s message)
        { r with stage := PromptPipeline.fail r ⟨.databaseDriverError, message⟩ } []
  | granted {s : WorkerId} {emb : Vector} (hst : r.stage = .tryAcquire emb) :
      Thought env r (.limiter s .granted) { r with stage := .llm emb } []
  | denied {s : WorkerId} {emb : Vector} (hst : r.stage = .tryAcquire emb) :
      Thought env r (.limiter s .denied) { r with stage := .deferRelease env.waitTimeSeconds }
        [.limited r]
  | unavailable {s : WorkerId} {emb : Vector} {message : String}
      (hst : r.stage = .tryAcquire emb) :
      Thought env r (.limiter s (.unavailable message))
        { r with stage := PromptPipeline.handleFailure r.job (redisUnavailableError message) }
        [.redisDown r]
  | guarded {s : WorkerId} {emb : Vector} {wait : Rat} {message : String}
      (hst : r.stage = .llm emb) :
      Thought env r (.llmLimited s wait message) { r with stage := .limitedRelease wait }
        [.limited r]
  | called {s : WorkerId} {emb : Vector} (hst : r.stage = .llm emb) :
      Thought env r (.llmCall s) { r with stage := .llmWait emb } [.llmCalled r]
  | answered {s : WorkerId} {emb : Vector} {response : String} (hst : r.stage = .llmWait emb) :
      Thought env r (.llmReturn s response) { r with stage := .store emb response }
        [.llmReturned r response]
  | failed {s : WorkerId} {emb : Vector} {exc : Exc} (hx : exc.rateLimitWait = none)
      (hst : r.stage = .llmWait emb) :
      Thought env r (.llmRaise s exc)
        { r with stage := PromptPipeline.handleFailure r.job exc } [.llmRaised r exc]
  | cancelled {s : WorkerId} (hst : ∀ how, r.stage ≠ .done how) (hl : r.leaseLost = true) :
      Thought env r (.cancel s) { r with stage := .done .cancelled } []
  | aborted {s : WorkerId} (hst : ∀ how, r.stage ≠ .done how) :
      Thought env r (.abort s) { r with stage := .done .cancelled } []

theorem thought_of_think {r : Run} {p : Run × List Entry}
    (h : World.think env r e = some p) : Thought env r e p.1 p.2 := by
  unfold World.think at h
  split at h
  · split at h <;> cases h
    rename_i hc
    exact .dbError hc
  · split at h <;> cases h
    rename_i a _ emb hst
    cases a with
    | granted => exact .granted hst
    | denied => exact .denied hst
    | unavailable message => exact .unavailable hst
  · split at h <;> cases h
    rename_i hst
    exact .guarded hst
  · split at h <;> cases h
    rename_i hst
    exact .called hst
  · split at h <;> cases h
    rename_i hst
    exact .answered hst
  · split at h
    · rename_i hx
      split at h <;> cases h
      rename_i hst
      exact .failed hx hst
    · cases h
  · split at h
    · cases h
    · rename_i hst
      split at h <;> cases h
      rename_i hl
      exact .cancelled hst hl
  · split at h <;> cases h
    rename_i hst
    exact .aborted hst
  · cases h

/-- There is nothing else to a thought. -/
theorem think_of_thought {r r' : Run} {es : List Entry} (h : Thought env r e r' es) :
    World.think env r e = some (r', es) := by
  cases h with
  | dbError ht => simp only [World.think, ht, if_true]
  | granted hst => simp only [World.think, hst, PromptPipeline.acquire]
  | denied hst => simp only [World.think, hst, PromptPipeline.acquire]
  | unavailable hst => simp only [World.think, hst, PromptPipeline.acquire]
  | guarded hst => simp only [World.think, hst, PromptPipeline.handleFailure, Exc.rateLimitWait]
  | called hst => simp only [World.think, hst]
  | answered hst => simp only [World.think, hst]
  | failed hx hst => simp only [World.think, hst, hx, if_true]
  | cancelled hst hl =>
      cases hrs : r.stage with
      | done how => exact absurd hrs (hst how)
      | _ => simp only [World.think, hrs, hl, if_true]
  | aborted hst =>
      cases hrs : r.stage with
      | done how => exact absurd hrs (hst how)
      | _ => simp only [World.think, hrs]

/-- A pipeline that waits for no answer is cancelled, or its transaction raises. -/
theorem thought_deaf {r r' : Run} {es : List Entry} (h : Thought env r e r' es)
    (hst : r.stage.hears = false) : e.breaks = true ∧ (r'.stage = .done .cancelled ∨
      ∃ message, r'.stage = PromptPipeline.fail r ⟨.databaseDriverError, message⟩) := by
  cases h with
  | dbError hc => exact ⟨rfl, .inr ⟨_, rfl⟩⟩
  | cancelled hd hl => exact ⟨rfl, .inl rfl⟩
  | aborted hd => exact ⟨rfl, .inl rfl⟩
  | granted hs => rw [hs] at hst; cases hst
  | denied hs => rw [hs] at hst; cases hst
  | unavailable hs => rw [hs] at hst; cases hst
  | guarded hs => rw [hs] at hst; cases hst
  | called hs => rw [hs] at hst; cases hst
  | answered hs => rw [hs] at hst; cases hst
  | failed hx hs => rw [hs] at hst; cases hst

/-- How the run in a slot moves on. -/
inductive RunStep (env : Env S) (w : World) : Event → WorkerId → Run → Run → Prop where
  | same {e : Event} {s : WorkerId} {r : Run} (he : e.slot ≠ some s) : RunStep env w e s r r
  | wrote {s : WorkerId} {r : Run} {now : Time} {top1 : Option Nat} {t : Tx}
      (ht : PromptPipeline.call env r now top1 = some t) :
      RunStep env w (.pipeline s now top1) s r
        { r with stage := PromptPipeline.resume env r (w.db.exec t).2 }
  | beat {s : WorkerId} {r : Run} {now : Time} {lost : Bool} (hl : r.leaseLost = false) :
      RunStep env w (.heartbeat s now) s r { r with leaseLost := lost }
  | thought {e : Event} {s : WorkerId} {r r' : Run} {es : List Entry} (he : thinker e = some s)
      (ht : Thought env r e r' es) : RunStep env w e s r r'

/-- A slot that just ran `claim_next` and was handed a job. -/
structure Claimed (env : Env S) (w : World) (e : Event) (s : WorkerId) (r : Run) : Prop where
  /-- The claim, the due job row it locked and the request row it read. -/
  claim : ∃ now locked pick j q, e = .claim s now locked pick ∧ w.slots s = .idle ∧
    j ∈ w.db.jobs.rows ∧ some j.id = pick ∧ ProcessingJob.Due now j ∧
    q ∈ w.db.requests.rows ∧ q.id = j.promptRequestId ∧
    r = { job := j.claim s env.leaseSeconds now, req := q, stage := .findExact, leaseLost := false
          ticket := w.log.length + 1, epoch := resets w.log j.promptRequestId }

/-- It stands at the beginning of the pipeline. -/
theorem Claimed.start {s : WorkerId} {r : Run} (h : Claimed env w e s r) :
    r.stage = .findExact := by
  obtain ⟨now, locked, pick, j, q, -, -, -, -, -, -, -, rfl⟩ := h.claim
  rfl

/-- Its lease is its own. -/
theorem Claimed.unlost {s : WorkerId} {r : Run} (h : Claimed env w e s r) :
    r.leaseLost = false := by
  obtain ⟨now, locked, pick, j, q, -, -, -, -, -, -, -, rfl⟩ := h.claim
  rfl

/-- Its request is the row it read. -/
theorem Claimed.request {s : WorkerId} {r : Run} (h : Claimed env w e s r) :
    r.req ∈ w.db.requests.rows := by
  obtain ⟨now, locked, pick, j, q, -, -, -, -, -, hq, -, rfl⟩ := h.claim
  exact hq

/-- **Where a run comes from, in full.** -/
theorem run_cases (h : Move env w e w') {s : WorkerId} {r' : Run}
    (hr' : w'.slots s = .running r') :
    (∃ r, w.slots s = .running r ∧ RunStep env w e s r r') ∨ Claimed env w e s r' := by
  -- an event of another slot leaves the run where it is
  have other : ∀ {s₀ : WorkerId} {x : Slot}, s ≠ s₀ → e.slot = some s₀ →
      Function.update w.slots s₀ x s = .running r' →
      ∃ r, w.slots s = .running r ∧ RunStep env w e s r r' := by
    intro s₀ x hs he hu
    rw [Function.update_of_ne hs] at hu
    exact ⟨r', hu, .same (by rw [he]; exact fun h => hs (Option.some.inj h).symm)⟩
  cases h with
  | submit hc => exact .inl ⟨r', hr', .same nofun⟩
  | callCrash hc he => exact .inl ⟨r', hr', .same nofun⟩
  | call hc ht => exact .inl ⟨r', hr', .same nofun⟩
  | reap => exact .inl ⟨r', hr', .same nofun⟩
  | @crash s₀ hs =>
      by_cases hss : s = s₀
      · subst hss
        rw [setSlot_slots_self] at hr'
        cases hr'
      · exact .inl (other hss rfl hr')
  | @pipeline s₀ r now top1 t hs ht =>
      by_cases hss : s = s₀
      · subst hss
        rw [setSlot_slots_self] at hr'
        cases hr'
        exact .inl ⟨r, hs, .wrote ht⟩
      · exact .inl (other hss rfl hr')
  | @heartbeat s₀ r now hs hl =>
      by_cases hss : s = s₀
      · subst hss
        rw [setSlot_slots_self] at hr'
        cases hr'
        exact .inl ⟨r, hs, .beat hl⟩
      · exact .inl (other hss rfl hr')
  | @next s₀ r how hs hd =>
      by_cases hss : s = s₀
      · subst hss
        -- however the task ended, its slot runs nothing now
        rw [note_slots, setSlot_slots_self] at hr'
        cases how <;> cases hr'
      · exact .inl (other hss rfl hr')
  | @think s₀ r e p hs he ht =>
      by_cases hss : s = s₀
      · subst hss
        rw [note_slots, setSlot_slots_self] at hr'
        cases hr'
        exact .inl ⟨r, hs, .thought he (thought_of_think ht)⟩
      · exact .inl (other hss (slot_of_thinker he) hr')
  | @claim s₀ now locked pick hs hsel =>
      by_cases hss : s = s₀
      · subst hss
        rw [setSlot_slots_self] at hr'
        unfold afterClaim at hr'
        split at hr'
        · rename_i job req hres
          cases hr'
          have hc : (ProcessingJobRepository.claimNext w.db s env.leaseSeconds now pick).2
              = some (job, req) := Res.claimed.inj hres
          obtain ⟨j, hj, hp, hd, rfl, hq, hid⟩ := claimNext_some hc
          exact .inr ⟨now, locked, pick, j, req, rfl, hs, hj, hp, hd, hq, hid, rfl⟩
        · cases hr'
      · exact .inl (other hss rfl hr')

theorem RunStep.sameRun {s : WorkerId} {r r' : Run} (h : RunStep env w e s r r') :
    SameRun r r' := by
  cases h with
  | same he => exact .refl r
  | wrote ht => exact ⟨rfl, rfl, rfl, rfl⟩
  | beat hl => exact ⟨rfl, rfl, rfl, rfl⟩
  | thought he ht => cases ht <;> exact ⟨rfl, rfl, rfl, rfl⟩

/-- What is not this slot's event leaves the slot alone. -/
theorem slot_frame (h : Move env w e w') {s : WorkerId} (he : e.slot ≠ some s) :
    w'.slots s = w.slots s := by
  have ne : ∀ {s₀ : WorkerId}, e.slot = some s₀ → s ≠ s₀ := by
    rintro s₀ hs rfl
    exact he hs
  cases h with
  | submit hc => rfl
  | callCrash hc he => rfl
  | call hc ht => rfl
  | reap => rfl
  | claim hs hsel => exact setSlot_slots_ne _ _ (ne rfl)
  | pipeline hs ht => exact setSlot_slots_ne _ _ (ne rfl)
  | heartbeat hs hl => exact setSlot_slots_ne _ _ (ne rfl)
  | crash hs => exact setSlot_slots_ne _ _ (ne rfl)
  | next hs hd => exact setSlot_slots_ne _ _ (ne rfl)
  | think hs hth ht => exact setSlot_slots_ne _ _ (ne (slot_of_thinker hth))

/-- **Where a run goes:** it moves on, its process dies, or its slot turns to the next job. -/
theorem run_forward (h : Move env w e w') {s : WorkerId} {r : Run}
    (hr : w.slots s = .running r) :
    (∃ r', w'.slots s = .running r' ∧ RunStep env w e s r r') ∨ e = .crash s ∨
      (e = .next s ∧ ∃ how, r.stage = .done how) := by
  by_cases he : e.slot = some s
  · cases h with
    | submit hc => cases he
    | callCrash hc he => cases he
    | call hc ht => cases he
    | reap => cases he
    | crash hs => cases he; exact .inr (.inl rfl)
    | claim hs hsel => cases he; exact absurd (hs.symm.trans hr) nofun
    | @pipeline s₀ r₀ now top1 t hs ht =>
        cases he
        cases Slot.running.inj (hs.symm.trans hr)
        exact .inl ⟨_, setSlot_slots_self _ _ _, .wrote ht⟩
    | @heartbeat s₀ r₀ now hs hl =>
        cases he
        cases Slot.running.inj (hs.symm.trans hr)
        exact .inl ⟨_, setSlot_slots_self _ _ _, .beat hl⟩
    | @next s₀ r₀ how hs hd =>
        cases he
        cases Slot.running.inj (hs.symm.trans hr)
        exact .inr (.inr ⟨rfl, how, hd⟩)
    | @think s₀ r₀ e p hs hth ht =>
        have hss : s₀ = s := Option.some.inj ((slot_of_thinker hth).symm.trans he)
        subst hss
        cases Slot.running.inj (hs.symm.trans hr)
        exact .inl ⟨p.1, setSlot_slots_self _ _ _, .thought hth (thought_of_think ht)⟩
  · exact .inl ⟨r, (slot_frame h he).trans hr, .same he⟩

/-- The run an event moves is in the slot it moves. -/
theorem run_of_runOf {r : Run} (h : w.runOf e = some r) :
    ∃ s, e.slot = some s ∧ w.slots s = .running r := by
  obtain ⟨s, hs, h⟩ := Option.bind_eq_some_iff.mp h
  cases hr : w.slots s with
  | running x =>
      rw [hr] at h
      cases h
      exact ⟨s, hs, hr⟩
  | idle => rw [hr] at h; cases h
  | stopped => rw [hr] at h; cases h

/-- A transaction of a pipeline, and the turn it is. -/
theorem turn_of_writes (h : Move env w e w') {r : Run} (hr : w.runOf e = some r)
    (hw : e.writes = true) : ∃ s now top1 t x, e = .pipeline s now top1 ∧
      w.slots s = .running r ∧ PromptPipeline.call env r now top1 = some t ∧
      PromptPipeline.Turn env w.db r now top1 t x ∧
      w'.slots s = .running { r with stage := x } := by
  obtain ⟨s, hs, hrun⟩ := run_of_runOf hr
  cases h with
  | @pipeline s₀ r₀ now top1 t hs₀ ht =>
      cases hs
      cases Slot.running.inj (hs₀.symm.trans hrun)
      obtain ⟨x, hx, hturn⟩ := PromptPipeline.turn_of_call w.db ht
      refine ⟨s, now, top1, t, x, rfl, hrun, ht, hturn, ?_⟩
      rw [setSlot_slots_self, hx]
  | call hc ht => cases hs
  | think hs he ht => cases e <;> first | (cases he; done) | cases hw
  | _ => cases hw

/-! ## The way of a pipeline -/

theorem phase_handleFailure (job : ProcessingJob) (exc : Exc) :
    (PromptPipeline.handleFailure job exc).phase = 8 := by
  rcases PromptPipeline.handleFailure_cases job exc with ⟨wait, -, hs⟩ | ⟨-, -, hs⟩ |
    ⟨-, -, -, hs⟩ <;> (rw [hs]; rfl)

theorem phase_le (x : Stage) : x.phase ≤ 11 := by
  cases x <;> simp [Stage.phase]

theorem phase_inRun {x : Stage} : PromptPipeline.inRun x = true ↔ x.phase < 8 := by
  cases x <;> simp [PromptPipeline.inRun, Stage.phase]

/-- A call that raises takes the pipeline on, into its failure handler or out of it. -/
theorem phase_fail {r : Run} {now : Time} {top1 : Option Nat} {exc : Exc}
    (h : (PromptPipeline.call env r now top1).isSome = true) :
    r.stage.phase < (PromptPipeline.fail r exc).phase := by
  unfold PromptPipeline.fail
  cases hin : PromptPipeline.inRun r.stage with
  | true =>
      rw [if_pos rfl, phase_handleFailure]
      exact phase_inRun.mp hin
  | false =>
      rw [if_neg Bool.false_ne_true]
      cases hst : r.stage <;> simp [PromptPipeline.call, hst] at h <;> simp [Stage.phase]

theorem phase_turn {db : Db} {r : Run} {now : Time} {top1 : Option Nat} {t : Tx} {x : Stage}
    (h : PromptPipeline.Turn env db r now top1 t x) : r.stage.phase < x.phase := by
  cases h <;> simp_all [Stage.phase]

theorem phase_thought {r r' : Run} {es : List Entry} (h : Thought env r e r' es) :
    r.stage.phase < r'.stage.phase := by
  -- a pipeline that is not over has somewhere to go
  have open_ : (∀ how, r.stage ≠ .done how) → r.stage.phase < 11 := by
    intro hst
    cases hrs : r.stage with
    | done how => exact absurd hrs (hst how)
    | _ => simp [Stage.phase]
  cases h with
  | dbError ht => exact phase_fail ht
  | granted hst => simp [hst, Stage.phase]
  | denied hst => simp [hst, Stage.phase]
  | unavailable hst =>
      rw [hst, phase_handleFailure]
      exact (by decide : 2 < 8)
  | guarded hst => simp [hst, Stage.phase]
  | called hst => simp [hst, Stage.phase]
  | answered hst => simp [hst, Stage.phase]
  | failed hx hst =>
      rw [hst, phase_handleFailure]
      exact (by decide : 4 < 8)
  | cancelled hst hl => exact open_ hst
  | aborted hst => exact open_ hst

/-- **A pipeline only goes on:** what moves it moves it to a later phase. -/
theorem phase_step {s : WorkerId} {r r' : Run} (h : RunStep env w e s r r') :
    r'.stage = r.stage ∨ r.stage.phase < r'.stage.phase := by
  cases h with
  | same he => exact .inl rfl
  | beat hl => exact .inl rfl
  | wrote ht =>
      obtain ⟨x, hx, hturn⟩ := PromptPipeline.turn_of_call w.db ht
      rw [← hx] at hturn
      exact .inr (phase_turn hturn)
  | thought he ht => exact .inr (phase_thought ht)

theorem phase_mono {s : WorkerId} {r r' : Run} (h : RunStep env w e s r r') :
    r.stage.phase ≤ r'.stage.phase := by
  rcases phase_step h with heq | hlt
  · exact le_of_eq (congrArg Stage.phase heq.symm)
  · exact hlt.le

/-! ## Calls -/

/-- How a call moves on. -/
inductive CallStep (env : Env S) (w : World) : Event → Nat → Call → Call → Prop where
  | same {e : Event} {c : Nat} {k : Call} (he : e.caller ≠ some c) : CallStep env w e c k k
  | wrote {c : Nat} {k : Call} {now : Time} {inTime : Bool} {t : Tx}
      (ht : PromptProcessor.call env k now = some t) :
      CallStep env w (.call c now inTime) c k
        { k with stage := PromptProcessor.resume env k inTime (w.db.exec t).2 }

/-- A call in the new world was just made, or is a call of the old one further along. -/
theorem call_cases (h : Move env w e w') {c : Nat} {k' : Call} (hk' : w'.calls c = some k') :
    (∃ k, w.calls c = some k ∧ CallStep env w e c k k') ∨
      ∃ args, e = .submit c args ∧ k' = ⟨args, .check⟩ := by
  have other : ∀ {c₀ : Nat} {x : Option Call}, c ≠ c₀ → e.caller = some c₀ →
      Function.update w.calls c₀ x c = some k' →
      ∃ k, w.calls c = some k ∧ CallStep env w e c k k' := by
    intro c₀ x hc he hu
    rw [Function.update_of_ne hc] at hu
    exact ⟨k', hu, .same (by rw [he]; exact fun h => hc (Option.some.inj h).symm)⟩
  cases h with
  | claim hs hsel => exact .inl ⟨k', hk', .same nofun⟩
  | pipeline hs ht => exact .inl ⟨k', hk', .same nofun⟩
  | heartbeat hs hl => exact .inl ⟨k', hk', .same nofun⟩
  | crash hs => exact .inl ⟨k', hk', .same nofun⟩
  | next hs hd => exact .inl ⟨k', hk', .same nofun⟩
  | reap => exact .inl ⟨k', hk', .same nofun⟩
  | @think s r e p hs he ht =>
      refine .inl ⟨k', hk', .same ?_⟩
      cases e <;> simp [thinker, Event.caller] at he ⊢
  | @submit c₀ args hc =>
      by_cases hcc : c = c₀
      · subst hcc
        rw [setCall_calls_self] at hk'
        cases hk'
        exact .inr ⟨args, rfl, rfl⟩
      · exact .inl (other hcc rfl hk')
  | @callCrash c₀ k hc he =>
      by_cases hcc : c = c₀
      · subst hcc
        rw [setCall_calls_self] at hk'
        cases hk'
      · exact .inl (other hcc rfl hk')
  | @call c₀ k now inTime t hc ht =>
      by_cases hcc : c = c₀
      · subst hcc
        rw [setCall_calls_self] at hk'
        cases hk'
        exact .inl ⟨k, hc, .wrote ht⟩
      · exact .inl (other hcc rfl hk')

/-- **Where a call goes:** it moves on, or its process dies. -/
theorem call_forward (h : Move env w e w') {c : Nat} {k : Call} (hk : w.calls c = some k) :
    (∃ k', w'.calls c = some k' ∧ CallStep env w e c k k') ∨ e = .callCrash c := by
  have other : ∀ {c₀ : Nat} {x : Option Call}, c ≠ c₀ → e.caller = some c₀ →
      ∃ k', Function.update w.calls c₀ x c = some k' ∧ CallStep env w e c k k' := by
    intro c₀ x hc he
    rw [Function.update_of_ne hc]
    exact ⟨k, hk, .same (by rw [he]; exact fun h => hc (Option.some.inj h).symm)⟩
  cases h with
  | claim hs hsel => exact .inl ⟨k, hk, .same nofun⟩
  | pipeline hs ht => exact .inl ⟨k, hk, .same nofun⟩
  | heartbeat hs hl => exact .inl ⟨k, hk, .same nofun⟩
  | crash hs => exact .inl ⟨k, hk, .same nofun⟩
  | next hs hd => exact .inl ⟨k, hk, .same nofun⟩
  | reap => exact .inl ⟨k, hk, .same nofun⟩
  | @think s r e p hs he ht =>
      refine .inl ⟨k, hk, .same ?_⟩
      cases e <;> simp [thinker, Event.caller] at he ⊢
  | @submit c₀ args hc =>
      by_cases hcc : c = c₀
      · subst hcc
        rw [hc] at hk
        cases hk
      · exact .inl (other hcc rfl)
  | @callCrash c₀ k₀ hc he =>
      by_cases hcc : c = c₀
      · subst hcc; exact .inr rfl
      · exact .inl (other hcc rfl)
  | @call c₀ k₀ now inTime t hc ht =>
      by_cases hcc : c = c₀
      · subst hcc
        cases Option.some.inj (hc.symm.trans hk)
        exact .inl ⟨_, setCall_calls_self _ _ _, .wrote ht⟩
      · exact .inl (other hcc rfl)

/-! ## The history -/

/-- The ways an entry can come into the history. -/
inductive Fresh (env : Env S) (w : World) : Event → Entry → Prop where
  | tx {e : Event} {who : Proc} {t : Tx} (ht : w.issued env e = some (who, t)) :
      Fresh env w e (.tx who t (w.db.exec t).2)
  | lost {now : Time} {j : ProcessingJob} (hj : j ∈ w.db.jobs.rows)
      (hx : ProcessingJob.Expired now j) :
      Fresh env w (.reap now) (.lost j (resets w.log j.promptRequestId))
  | thought {e : Event} {s : WorkerId} {r r' : Run} {es : List Entry} {x : Entry}
      (hs : w.slots s = .running r) (he : thinker e = some s) (ht : Thought env r e r' es)
      (hx : x ∈ es) : Fresh env w e x
  | notified {s : WorkerId} {q : Nat} : Fresh env w (.next s) (.notified q)

/-- A pipeline about to release its lease releases its own. -/
theorem call_of_releases (env : Env S) {r : Run} (hst : r.stage.releases = true) (now : Time)
    (top1 : Option Nat) : ∃ wait, PromptPipeline.call env r now top1
      = some (.releaseLease r.job.id (PromptPipeline.workerId r) wait now) := by
  unfold PromptPipeline.call
  cases hrs : r.stage <;> rw [hrs] at hst <;> first | exact ⟨_, rfl⟩ | cases hst

/-- Only a pipeline issues a release, and only of its own lease. -/
theorem release_issuer {who : Proc} {i : Nat} {s : WorkerId} {wait : Rat} {now : Time}
    (h : w.issued env e = some (who, .releaseLease i s wait now)) :
    ∃ s₀ r top1, e = .pipeline s₀ now top1 ∧ who = .slot s₀ ∧ w.slots s₀ = .running r ∧
      r.stage.releases = true ∧ i = r.job.id ∧ s = PromptPipeline.workerId r := by
  cases issues_of_issued h with
  | call hc hk => cases PromptProcessor.turn_iff.mp hk
  | @pipeline s₀ r now' top1 _ hs hr =>
      obtain ⟨x, -, hturn⟩ := PromptPipeline.turn_of_call w.db hr
      cases hturn with
      | deferred hst | limited hst | released hst _ | disowned hst _ =>
          exact ⟨s₀, r, top1, rfl, rfl, hs, by rw [hst]; rfl, rfl, rfl⟩

/-- Only a call resets a job, and it is its second update. -/
theorem reset_issuer {who : Proc} {q : Nat} {now : Time}
    (h : w.issued env e = some (who, .resetJob q now)) :
    ∃ c k inTime x, e = .call c now inTime ∧ who = .call c ∧ w.calls c = some k ∧
      k.stage = .reenqueueReset x ∧ x.id = q := by
  cases issues_of_issued h with
  | call hc hk =>
      cases PromptProcessor.turn_iff.mp hk with
      | reset hst => exact ⟨_, _, _, _, rfl, rfl, hc, hst, rfl⟩
  | pipeline hs hr =>
      obtain ⟨x, -, hturn⟩ := PromptPipeline.turn_of_call w.db hr
      cases hturn

/-- Only the reaper issues a reap. -/
theorem reap_issuer {who : Proc} {now : Time}
    (h : w.issued env e = some (who, .reapExpiredLeases now)) : e = .reap now := by
  cases issues_of_issued h with
  | call hc hk => cases PromptProcessor.turn_iff.mp hk
  | pipeline hs hr =>
      obtain ⟨x, -, hturn⟩ := PromptPipeline.turn_of_call w.db hr
      cases hturn
  | reap => rfl

/-- A move that commits a transaction records it, and the leases it took. -/
theorem log_issued (h : Move env w e w') {who : Proc} {t : Tx}
    (hi : w.issued env e = some (who, t)) :
    w'.log = w.log ++ (.tx who t (w.db.exec t).2 :: w.takes t) := by
  cases h with
  | submit hc => cases hi
  | callCrash hc he => cases hi
  | crash hs => cases hi
  | next hs hd => cases hi
  | claim hs hsel => cases hi; rfl
  | reap => cases hi; rfl
  | call hc ht => rw [issued_call hc ht] at hi; cases hi; rfl
  | pipeline hs ht => rw [issued_pipeline hs ht] at hi; cases hi; rfl
  | heartbeat hs hl => rw [issued_heartbeat hs] at hi; cases hi; rfl
  | think hs he ht =>
      rw [issued_of_thinker he] at hi
      cases hi

/-- A move that is a thought records what it leaves. -/
theorem log_thought (h : Move env w e w') {s : WorkerId} {r r' : Run} {es : List Entry}
    (hs : w.slots s = .running r) (he : thinker e = some s) (ht : Thought env r e r' es) :
    w'.log = w.log ++ es := by
  have hth := think_of_thought ht
  cases h with
  | think hs₀ he₀ ht₀ =>
      cases Option.some.inj (he₀.symm.trans he)
      cases Slot.running.inj (hs₀.symm.trans hs)
      cases Option.some.inj (ht₀.symm.trans hth)
      rfl
  | _ => cases he

/-- **What a move adds to the history.** -/
theorem log_cases (h : Move env w e w') :
    ∃ es, w'.log = w.log ++ es ∧ ∀ x ∈ es, Fresh env w e x := by
  -- a move that commits adds its transaction and, if it reaps, the leases it took
  have ofTx : ∀ {who : Proc} {t : Tx}, w.issued env e = some (who, t) →
      ∃ es, w'.log = w.log ++ es ∧ ∀ x ∈ es, Fresh env w e x := by
    intro who t hi
    refine ⟨_, log_issued h hi, fun x hx => ?_⟩
    rcases List.mem_cons.mp hx with rfl | hx
    · exact .tx hi
    · unfold takes at hx
      split at hx
      · cases reap_issuer hi
        obtain ⟨j, hj, rfl⟩ := List.mem_map.mp hx
        obtain ⟨hj, he⟩ := List.mem_filter.mp hj
        exact .lost hj (of_decide_eq_true he)
      · cases hx
  cases h with
  | submit hc => exact ⟨[], (List.append_nil _).symm, fun x hx => by cases hx⟩
  | callCrash hc he => exact ⟨[], (List.append_nil _).symm, fun x hx => by cases hx⟩
  | crash hs => exact ⟨[], (List.append_nil _).symm, fun x hx => by cases hx⟩
  | call hc ht => exact ofTx (issued_call hc ht)
  | claim hs hsel => exact ofTx rfl
  | pipeline hs ht => exact ofTx (issued_pipeline hs ht)
  | heartbeat hs hl => exact ofTx (issued_heartbeat hs)
  | reap => exact ofTx rfl
  | @next s r how hs hd =>
      refine ⟨_, rfl, fun x hx => ?_⟩
      cases how <;> simp only [afterTask, List.mem_singleton, List.not_mem_nil] at hx <;>
        (rw [hx]; exact .notified)
  | think hs he ht => exact ⟨_, rfl, fun x hx => .thought hs he (thought_of_think ht) hx⟩

/-- The history before a move is a prefix of the history after it. -/
theorem log_grows (h : Move env w e w') : w.log <+: w'.log := by
  obtain ⟨es, hlog, -⟩ := log_cases h
  exact ⟨es, hlog.symm⟩

/-- **A provider call is all its move records, and no other move records one.** -/
theorem call_recorded (h : Move env w e w') :
    (∃ es, w'.log = w.log ++ es ∧ ∀ r, Entry.llmCalled r ∉ es) ∨
      ∃ s r emb, e = .llmCall s ∧ w.slots s = .running r ∧ r.stage = .llm emb ∧
        w'.log = w.log ++ [.llmCalled r] := by
  obtain ⟨es, hlog, hfresh⟩ := log_cases h
  by_cases hx : ∃ r, Entry.llmCalled r ∈ es
  · obtain ⟨r, hr⟩ := hx
    cases hfresh _ hr with
    | @thought _ s r₀ _ es₀ _ hs he ht hx =>
        have hes := log_thought h hs he ht
        cases ht with
        | @called s₀ emb hst =>
            cases he
            cases List.mem_singleton.mp hx
            exact .inr ⟨s, r, emb, rfl, hs, hst, hes⟩
        | _ => simp at hx
  · exact .inl ⟨es, hlog, fun r hr => hx ⟨r, hr⟩⟩

/-- An entry of the new history was in the old one, or the move put it there. -/
theorem entry_cases (h : Move env w e w') {x : Entry} (hx : x ∈ w'.log) :
    x ∈ w.log ∨ Fresh env w e x := by
  obtain ⟨es, hlog, hfresh⟩ := log_cases h
  rw [hlog] at hx
  rcases List.mem_append.mp hx with hx | hx
  · exact .inl hx
  · exact .inr (hfresh x hx)

end PromptQueue.Proof
