import PromptQueue.Db.Calls
import PromptQueue.Proof.Moves

/-!
# What a move does to a row, to a run and to a call

A move commits at most one transaction, and a transaction acts on each row by
itself. So for every row there are two things to say: which function the move
applies to it (`jobAfter`, `requestAfter`), and, read backwards, which processes
can make that function do anything at all (`JobStep`, `RequestStep`). The first is
exact, the second is what an invariant is checked against.
-/

namespace PromptQueue

variable {S : Type} [LinearOrder S] (env : Env S)

/-- The transaction an event commits, and who commits it. -/
def World.issued (w : World) : Event → Option (Proc × Tx)
  | .call c now _ =>
      match w.calls c with
      | some k => (PromptProcessor.call env k now).map fun t => (.call c, t)
      | none => none
  | .claim s now _ pick => some (.slot s, .claimNext s env.leaseSeconds now pick)
  | .pipeline s now top1 =>
      match w.slots s with
      | .running r => (PromptPipeline.call env r now top1).map fun t => (.slot s, t)
      | _ => none
  | .heartbeat s now =>
      match w.slots s with
      | .running r => some (.heartbeat s, .extendLease r.job.id s env.leaseSeconds now)
      | _ => none
  | .reap now => some (.reaper, .reapExpiredLeases now)
  | _ => none

/-- A job row after an event. -/
def World.jobAfter (w : World) (e : Event) (j : ProcessingJob) : ProcessingJob :=
  match w.issued env e with
  | some p => p.2.onJob j
  | none => j

/-- A request row after an event. -/
def World.requestAfter (w : World) (e : Event) (r : PromptRequest) : PromptRequest :=
  match w.issued env e with
  | some p => p.2.onRequest w.db r
  | none => r

/-- A cache row after an event. -/
def World.entryAfter (w : World) (e : Event) (x : SemanticCache) : SemanticCache :=
  match w.issued env e with
  | some p => p.2.onEntry x
  | none => x

end PromptQueue

namespace PromptQueue.Proof

open PromptQueue Base World

variable {S : Type} [LinearOrder S] {env : Env S} {w w' : World} {e : Event}

theorem runOf_eq {s : WorkerId} {r : Run} (he : e.slot = some s) (hr : w.slots s = .running r) :
    w.runOf e = some r := by
  simp [runOf, he, hr]

theorem callOf_eq {c : Nat} {k : Call} (he : e.caller = some c) (hk : w.calls c = some k) :
    w.callOf e = some k := by
  simp [callOf, he, hk]

/-- The slot of a thought. -/
theorem slot_of_thinker {s : WorkerId} (he : thinker e = some s) : e.slot = some s := by
  cases e <;> first | exact he | cases he

/-! ## What is issued -/

theorem issued_call {c : Nat} {k : Call} {now : Time} {inTime : Bool} {t : Tx}
    (hc : w.calls c = some k) (ht : PromptProcessor.call env k now = some t) :
    w.issued env (.call c now inTime) = some (.call c, t) := by
  simp only [issued, hc, ht, Option.map_some]

theorem issued_pipeline {s : WorkerId} {r : Run} {now : Time} {top1 : Option Nat} {t : Tx}
    (hs : w.slots s = .running r) (ht : PromptPipeline.call env r now top1 = some t) :
    w.issued env (.pipeline s now top1) = some (.slot s, t) := by
  simp only [issued, hs, ht, Option.map_some]

theorem issued_heartbeat {s : WorkerId} {r : Run} {now : Time} (hs : w.slots s = .running r) :
    w.issued env (.heartbeat s now)
      = some (.heartbeat s, .extendLease r.job.id s env.leaseSeconds now) := by
  simp only [issued, hs]

/-- A thought commits no transaction. -/
theorem issued_of_thinker {s : WorkerId} (he : thinker e = some s) : w.issued env e = none := by
  cases e <;> first | rfl | cases he

theorem move_issued (h : Move env w e w') :
    w'.db = match w.issued env e with
      | some p => (w.db.exec p.2).1
      | none => w.db := by
  cases h with
  | submit hc => rfl
  | callCrash hc he => rfl
  | crash hs => rfl
  | call hc ht => rw [issued_call hc ht]; rfl
  | claim hs hsel => rfl
  | pipeline hs ht => rw [issued_pipeline hs ht]; rfl
  | heartbeat hs hl => rw [issued_heartbeat hs]; rfl
  | next hs hd => rfl
  | reap => rfl
  | think hs he ht =>
      rw [issued_of_thinker he]
      rfl

/--
**To the database a run of the system is a history of calls**: the transactions its
processes issue, and whatever is known of these.
-/
theorem db_reachable {H : World → Event → Prop} {K : Db → RepositoryCall → Prop}
    (h : (machine env).ReachableWhere H w)
    (hK : ∀ {u : World} {e : Event} {who : Proc} {t : Tx}, u.issued env e = some (who, t) →
      K u.db (.tx t)) : Db.machine.ReachableWhere K w.db := by
  refine h.invariant (I := fun w => Db.machine.ReachableWhere K w.db) .init
    fun {u v e} _ hi _ hs => ?_
  rw [move_issued (move_of_step hs)]
  cases hp : u.issued env e with
  | none => exact hi
  | some p => exact hi.tail (hK hp) rfl

/-- The same, as a relation: which process issues which transaction. -/
inductive Issues (env : Env S) (w : World) : Event → Proc → Tx → Prop where
  | call {c : Nat} {k : Call} {now : Time} {inTime : Bool} {t : Tx} (hc : w.calls c = some k)
      (ht : PromptProcessor.call env k now = some t) :
      Issues env w (.call c now inTime) (.call c) t
  | claim {s : WorkerId} {now : Time} {locked : List Nat} {pick : Option Nat} :
      Issues env w (.claim s now locked pick) (.slot s)
        (.claimNext s env.leaseSeconds now pick)
  | pipeline {s : WorkerId} {r : Run} {now : Time} {top1 : Option Nat} {t : Tx}
      (hs : w.slots s = .running r) (ht : PromptPipeline.call env r now top1 = some t) :
      Issues env w (.pipeline s now top1) (.slot s) t
  | heartbeat {s : WorkerId} {r : Run} {now : Time} (hs : w.slots s = .running r) :
      Issues env w (.heartbeat s now) (.heartbeat s)
        (.extendLease r.job.id s env.leaseSeconds now)
  | reap {now : Time} : Issues env w (.reap now) .reaper (.reapExpiredLeases now)

theorem issues_of_issued {who : Proc} {t : Tx} (h : w.issued env e = some (who, t)) :
    Issues env w e who t := by
  unfold issued at h
  split at h
  · split at h
    · rename_i hc
      obtain ⟨t, ht, he⟩ := Option.map_eq_some_iff.mp h
      cases he
      exact .call hc ht
    · cases h
  · cases h; exact .claim
  · split at h
    · rename_i hs
      obtain ⟨t, ht, he⟩ := Option.map_eq_some_iff.mp h
      cases he
      exact .pipeline hs ht
    · cases h
  · split at h <;> cases h
    rename_i hs
    exact .heartbeat hs
  · cases h; exact .reap
  · cases h

/-! ## Rows go on -/

theorem jobAfter_static (j : ProcessingJob) : (w.jobAfter env e j).static = j.static := by
  unfold jobAfter
  split
  · exact Tx.onJob_static _ j
  · rfl

@[simp] theorem jobAfter_id (j : ProcessingJob) : (w.jobAfter env e j).id = j.id :=
  congrArg (·.1) (jobAfter_static j)

@[simp] theorem jobAfter_promptRequestId (j : ProcessingJob) :
    (w.jobAfter env e j).promptRequestId = j.promptRequestId :=
  congrArg (·.2.1) (jobAfter_static j)

theorem requestAfter_static (r : PromptRequest) : (w.requestAfter env e r).static = r.static := by
  unfold requestAfter
  split
  · exact Tx.onRequest_static _ _ r
  · rfl

@[simp] theorem requestAfter_id (r : PromptRequest) : (w.requestAfter env e r).id = r.id :=
  congrArg (·.1) (requestAfter_static r)

@[simp] theorem requestAfter_promptId (r : PromptRequest) :
    (w.requestAfter env e r).promptId = r.promptId := congrArg (·.2.1) (requestAfter_static r)

@[simp] theorem requestAfter_text (r : PromptRequest) :
    (w.requestAfter env e r).text = r.text := congrArg (·.2.2.1) (requestAfter_static r)

@[simp] theorem requestAfter_textHash (r : PromptRequest) :
    (w.requestAfter env e r).textHash = r.textHash :=
  congrArg (·.2.2.2.1) (requestAfter_static r)

theorem entryAfter_static (x : SemanticCache) : (w.entryAfter env e x).static = x.static := by
  unfold entryAfter
  split
  · exact Tx.onEntry_static _ x
  · rfl

@[simp] theorem entryAfter_textHash (x : SemanticCache) :
    (w.entryAfter env e x).textHash = x.textHash := congrArg (·.2.2.1) (entryAfter_static x)

@[simp] theorem entryAfter_response (x : SemanticCache) :
    (w.entryAfter env e x).response = x.response :=
  congrArg (·.2.2.2.2.1) (entryAfter_static x)

theorem job_goes_on (h : Move env w e w') {j : ProcessingJob} (hj : j ∈ w.db.jobs.rows) :
    w.jobAfter env e j ∈ w'.db.jobs.rows := by
  rw [move_issued h]
  unfold jobAfter
  split
  · rw [Db.exec_jobs]
    exact List.mem_append_left _ (List.mem_map_of_mem hj)
  · exact hj

theorem request_goes_on (h : Move env w e w') {r : PromptRequest}
    (hr : r ∈ w.db.requests.rows) : w.requestAfter env e r ∈ w'.db.requests.rows := by
  rw [move_issued h]
  unfold requestAfter
  split
  · rw [Db.exec_requests]
    exact List.mem_append_left _ (List.mem_map_of_mem hr)
  · exact hr

theorem entry_goes_on (h : Move env w e w') {x : SemanticCache} (hx : x ∈ w.db.cache.rows) :
    w.entryAfter env e x ∈ w'.db.cache.rows := by
  rw [move_issued h]
  unfold entryAfter
  split
  · rw [Db.exec_cache]
    exact List.mem_append_left _ (List.mem_map_of_mem hx)
  · exact hx

/-! ## Where a row comes from -/

/-- A call whose insert went through, with the rows it wrote. -/
structure Inserted (env : Env S) (w : World) (e : Event) (r : PromptRequest)
    (j : ProcessingJob) : Prop where
  /-- The call, and when it inserted. -/
  call : ∃ c k now inTime, e = .call c now inTime ∧ w.calls c = some k ∧ k.stage = .insert ∧
    r = (PromptProcessor.newRequest env k.args).requestRow now w.db.requests.seq ∧
    j = (PromptProcessor.newRequest env k.args).jobRow w.db.requests.seq now w.db.jobs.seq
  /-- Its `prompt_id` was free. -/
  free : ∀ q ∈ w.db.requests.rows, q.promptId ≠ r.promptId

/-- Only `insert_with_job` adds a row to the queue tables, and only a call issues it. -/
theorem insert_issuer {who : Proc} {new : NewRequest} {now : Time}
    (h : w.issued env e = some (who, .insertWithJob new now)) :
    ∃ c k inTime, e = .call c now inTime ∧ w.calls c = some k ∧ k.stage = .insert ∧
      new = PromptProcessor.newRequest env k.args := by
  cases issues_of_issued h with
  | call hc hk =>
      cases PromptProcessor.turn_iff.mp hk with
      | insert hst => exact ⟨_, _, _, rfl, hc, hst, rfl⟩
  | pipeline hs hr =>
      obtain ⟨x, -, hturn⟩ := PromptPipeline.turn_of_call w.db hr
      cases hturn

theorem inserted_of_some {who : Proc} {new : NewRequest} {now : Time}
    (h : w.issued env e = some (who, .insertWithJob new now)) {db' : Db} {r : PromptRequest}
    {j : ProcessingJob} (hi : PromptRequestRepository.insertWithJob w.db new now
      = some (db', r, j)) : Inserted env w e r j := by
  obtain ⟨c, k, inTime, he, hc, hst, rfl⟩ := insert_issuer h
  obtain ⟨-, -, -, hr, hj, hfree⟩ := insertWithJob_some hi
  exact ⟨⟨c, k, now, inTime, he, hc, hst, hr, hj⟩, by rw [hr]; exact hfree⟩

theorem Inserted.request_fresh {r : PromptRequest} {j : ProcessingJob}
    (h : Inserted env w e r j) {q : PromptRequest} (hq : q ∈ w.db.requests.rows) :
    q.id ≠ r.id := by
  obtain ⟨c, k, now, inTime, -, -, -, rfl, -⟩ := h.call
  exact Nat.ne_of_lt (w.db.requests.pk_lt q hq)

theorem Inserted.job_fresh {r : PromptRequest} {j : ProcessingJob}
    (h : Inserted env w e r j) {i : ProcessingJob} (hi : i ∈ w.db.jobs.rows) : i.id ≠ j.id := by
  obtain ⟨c, k, now, inTime, -, -, -, -, rfl⟩ := h.call
  exact Nat.ne_of_lt (w.db.jobs.pk_lt i hi)

theorem Inserted.tied {r : PromptRequest} {j : ProcessingJob} (h : Inserted env w e r j) :
    j.promptRequestId = r.id := by
  obtain ⟨c, k, now, inTime, -, -, -, rfl, rfl⟩ := h.call
  rfl

/-- **The job rows after a move:** those of before, as it left them, and the one it inserted. -/
theorem jobs_after (h : Move env w e w') :
    w'.db.jobs.rows = w.db.jobs.rows.map (w.jobAfter env e) ∨
      ∃ q j, Inserted env w e q j ∧
        w'.db.jobs.rows = w.db.jobs.rows.map (w.jobAfter env e) ++ [j] := by
  rw [move_issued h]
  cases hp : w.issued env e with
  | none =>
      have hafter : w.jobAfter env e = id := by
        funext j
        simp only [jobAfter, hp, id]
      rw [hafter]
      exact .inl (List.map_id _).symm
  | some p =>
      obtain ⟨who, t⟩ := p
      have hafter : w.jobAfter env e = t.onJob := by
        funext j
        simp only [jobAfter, hp]
      rw [hafter]
      dsimp only
      rw [Db.exec_jobs]
      cases t with
      | insertWithJob new now =>
          unfold Tx.newJobs
          dsimp only
          split
          · rename_i hi
            exact .inr ⟨_, _, inserted_of_some hp hi, rfl⟩
          · exact .inl (List.append_nil _)
      | _ => exact .inl (List.append_nil _)

/-- A job row was there before the move, or a call just inserted it. -/
theorem job_origin (h : Move env w e w') {j' : ProcessingJob} (hj : j' ∈ w'.db.jobs.rows) :
    (∃ j ∈ w.db.jobs.rows, j' = w.jobAfter env e j) ∨ ∃ r, Inserted env w e r j' := by
  have hold : j' ∈ w.db.jobs.rows.map (w.jobAfter env e) →
      ∃ j ∈ w.db.jobs.rows, j' = w.jobAfter env e j := by
    intro hj
    obtain ⟨j, hj₀, rfl⟩ := List.mem_map.mp hj
    exact ⟨j, hj₀, rfl⟩
  rcases jobs_after h with hrows | ⟨q, j, hins, hrows⟩
  · exact .inl (hold (hrows ▸ hj))
  · rw [hrows] at hj
    rcases List.mem_append.mp hj with hj | hj
    · exact .inl (hold hj)
    · rw [List.mem_singleton.mp hj]
      exact .inr ⟨q, hins⟩

/-- A request row was there before the move, or a call just inserted it. -/
theorem request_origin (h : Move env w e w') {r' : PromptRequest}
    (hr : r' ∈ w'.db.requests.rows) :
    (∃ r ∈ w.db.requests.rows, r' = w.requestAfter env e r) ∨
      ∃ j, Inserted env w e r' j ∧ j ∈ w'.db.jobs.rows := by
  rw [move_issued h] at hr ⊢
  unfold requestAfter
  split at hr
  · rename_i p hp
    obtain ⟨who, t⟩ := p
    rw [Db.exec_requests] at hr
    rcases List.mem_append.mp hr with hr | hr
    · obtain ⟨r, hr₀, rfl⟩ := List.mem_map.mp hr
      exact .inl ⟨r, hr₀, rfl⟩
    · cases t with
      | insertWithJob new now =>
          unfold Tx.newRequests at hr
          dsimp only at hr
          split at hr
          · rename_i hi
            rw [List.mem_singleton.mp hr]
            refine .inr ⟨_, inserted_of_some hp hi, ?_⟩
            simp only [Db.exec_jobs, Tx.newJobs, hi]
            exact List.mem_append_right _ (List.mem_singleton_self _)
          · cases hr
      | _ => cases hr
  · exact .inl ⟨r', hr, rfl⟩

/-- **A request and its job come into the world together.** -/
theorem pair_origin (h : Move env w e w') {r' : PromptRequest} {j' : ProcessingJob}
    (hr : r' ∈ w'.db.requests.rows) (hj : j' ∈ w'.db.jobs.rows)
    (ht : j'.promptRequestId = r'.id) :
    (∃ r ∈ w.db.requests.rows, ∃ j ∈ w.db.jobs.rows, j.promptRequestId = r.id ∧
      r' = w.requestAfter env e r ∧ j' = w.jobAfter env e j) ∨ Inserted env w e r' j' := by
  rcases request_origin h hr with ⟨r, hr₀, rfl⟩ | ⟨j, hi, hjn⟩
  · rcases job_origin h hj with ⟨j, hj₀, rfl⟩ | ⟨q, hi⟩
    · exact .inl ⟨r, hr₀, j, hj₀, by simpa using ht, rfl, rfl⟩
    · rw [hi.tied, requestAfter_id] at ht
      exact absurd ht.symm (hi.request_fresh hr₀)
  · rw [Db.job_unique hj hjn (ht.trans hi.tied.symm)]
    exact .inr hi

end PromptQueue.Proof
