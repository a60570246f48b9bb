import PromptQueue.Db.PromptRequest
import PromptQueue.Db.SemanticCache

/-!
# Repository calls as transactions

Every method of the three repositories opens one session and one transaction, so
to the rest of the system it is an atomic step. `Tx` lists the calls the services
and the workers make, arguments included — the time the method reads off its clock
is one of them — and `Db.exec` runs one.

What a transaction does to a table is, apart from the inserts, always a function
applied to each row on its own. `Tx.onJob` and `Tx.onRequest` name those
functions; the lemmas below are what the proofs unfold instead of the methods.
-/

namespace PromptQueue

open Base

/-- The repository calls. -/
inductive Tx where
  | claimNext (workerId : WorkerId) (leaseSeconds : Nat) (now : Time) (pick : Option Nat)
  | extendLease (jobId : Nat) (workerId : WorkerId) (leaseSeconds : Nat) (now : Time)
  | releaseLease (jobId : Nat) (workerId : WorkerId) (retryAfterSeconds : Rat) (now : Time)
  | jobMarkCompleted (jobId : Nat) (now : Time)
  | markDead (jobId : Nat) (error : String) (now : Time)
  | resetJob (requestId : Nat) (now : Time)
  | reapExpiredLeases (now : Time)
  | queuedDepth
  | getByPromptId (promptId : String)
  | insertWithJob (new : NewRequest) (now : Time)
  | updateStatus (rowId : Nat) (status : RequestStatus) (now : Time)
  | updateRetry (rowId : Nat) (status : RequestStatus) (retryCount : Nat) (error : String)
      (now : Time)
  | requestMarkCompleted (rowId : Nat) (response : String) (cached : Bool)
      (embedding : Option Vector) (now : Time)
  | requestMarkFailed (rowId : Nat) (error : String) (retryCount : Nat) (now : Time)
  | findExact (textHash : Digest)
  | selectNearest (top1 : Option Nat)
  | upsert (new : NewEntry) (now : Time)
  | incrementHitCount (entryId : Nat) (now : Time)
  deriving DecidableEq, Repr

/-- What the calls return. -/
inductive Res where
  | unit
  | updated (found : Bool)
  | claimed (handed : Option (ProcessingJob × PromptRequest))
  | reclaimed (ids : List Nat)
  | depth (n : Nat)
  | request (row : Option PromptRequest)
  | inserted (request : PromptRequest) (job : ProcessingJob)
  | integrityError
  | entry (row : Option SemanticCache)
  deriving DecidableEq, Repr

/-- Run one transaction. -/
def Db.exec (db : Db) : Tx → Db × Res
  | .claimNext w l now pick =>
      let (db', c) := ProcessingJobRepository.claimNext db w l now pick
      (db', .claimed c)
  | .extendLease j w l now =>
      let (db', b) := ProcessingJobRepository.extendLease db j w l now
      (db', .updated b)
  | .releaseLease j w wait now =>
      let (db', b) := ProcessingJobRepository.releaseLease db j w wait now
      (db', .updated b)
  | .jobMarkCompleted j now => (ProcessingJobRepository.markCompleted db j now, .unit)
  | .markDead j error now => (ProcessingJobRepository.markDead db j error now, .unit)
  | .resetJob r now => (ProcessingJobRepository.resetJob db r now, .unit)
  | .reapExpiredLeases now =>
      let (db', ids) := ProcessingJobRepository.reapExpiredLeases db now
      (db', .reclaimed ids)
  | .queuedDepth => (db, .depth (ProcessingJobRepository.queuedDepth db))
  | .getByPromptId p => (db, .request (PromptRequestRepository.getByPromptId db p))
  | .insertWithJob new now =>
      match PromptRequestRepository.insertWithJob db new now with
      | some (db', r, j) => (db', .inserted r j)
      | none => (db, .integrityError)
  | .updateStatus r s now => (PromptRequestRepository.updateStatus db r s now, .unit)
  | .updateRetry r s n e now => (PromptRequestRepository.updateRetry db r s n e now, .unit)
  | .requestMarkCompleted r resp c emb now =>
      (PromptRequestRepository.markCompleted db r resp c emb now, .unit)
  | .requestMarkFailed r e n now => (PromptRequestRepository.markFailed db r e n now, .unit)
  | .findExact h => (db, .entry (SemanticCacheRepository.findExact db h))
  | .selectNearest top1 => (db, .entry (SemanticCacheRepository.selectNearest db top1))
  | .upsert new now => (SemanticCacheRepository.upsert db new now, .unit)
  | .incrementHitCount e now => (SemanticCacheRepository.incrementHitCount db e now, .unit)

/-! ## Row by row -/

/-- What a transaction does to one job row. -/
def Tx.onJob : Tx → ProcessingJob → ProcessingJob
  | .claimNext w l now pick =>
      Table.updateRow (fun j => some j.id = pick ∧ ProcessingJob.Due now j) (·.claim w l now)
  | .extendLease j w l now => Table.updateRow (ProcessingJob.HeldBy j w) (·.extend l now)
  | .releaseLease j w wait now =>
      Table.updateRow (ProcessingJob.OwnedBy j w) (·.release (now + wait))
  | .jobMarkCompleted j now => Table.updateRow (fun k => k.id = j) (·.complete now)
  | .markDead j error now => Table.updateRow (fun k => k.id = j) (·.bury error now)
  | .resetJob r now => Table.updateRow (fun k => k.promptRequestId = r) (·.reset now)
  | .reapExpiredLeases now => fun j =>
      Table.updateRow (ProcessingJob.Exhausted now) (·.expire now)
        (Table.updateRow (ProcessingJob.Reclaimable now) ProcessingJob.requeue j)
  | _ => id

/-- What the reaper does to one request row, given the jobs it re-queued and the dead ones. -/
def reapRequest (reclaimed dead : List ProcessingJob) (now : Time) (r : PromptRequest) :
    PromptRequest :=
  Table.updateRow (ProcessingJobRepository.RequestOf dead)
    (ProcessingJobRepository.syncFailed dead now)
    (Table.updateRow (ProcessingJobRepository.RequestOf reclaimed)
      (ProcessingJobRepository.syncQueued now) r)

/-- What a transaction does to one request row; only the reaper looks at another table. -/
def Tx.onRequest (db : Db) : Tx → PromptRequest → PromptRequest
  | .reapExpiredLeases now => reapRequest
      (db.jobs.rows.filter fun j => ProcessingJob.Reclaimable now j)
      ((db.jobs.rows.filter fun j => ProcessingJob.Exhausted now j).map (·.expire now)) now
  | .updateStatus i s now => Table.updateRow (fun r => r.id = i) (·.setStatus s now)
  | .updateRetry i s n e now => Table.updateRow (fun r => r.id = i) (·.setRetry s n e now)
  | .requestMarkCompleted i resp c emb now =>
      Table.updateRow (fun r => r.id = i) (·.complete resp c emb now)
  | .requestMarkFailed i e n now => Table.updateRow (fun r => r.id = i) (·.fail e n now)
  | _ => id

/-- What a transaction does to one cache row. -/
def Tx.onEntry : Tx → SemanticCache → SemanticCache
  | .incrementHitCount i now => Table.updateRow (fun e => e.id = i) (·.hit now)
  | _ => id

/-! ## Columns no transaction touches -/

/-- A job's keys, its retry limit and its priority. -/
def ProcessingJob.static (j : ProcessingJob) : Nat × Nat × Nat × Nat :=
  (j.id, j.promptRequestId, j.maxAttempts, j.priority)

theorem Tx.onJob_static (t : Tx) (j : ProcessingJob) : (t.onJob j).static = j.static := by
  cases t with
  | reapExpiredLeases now =>
      exact (Table.updateRow_keeps (g := ProcessingJob.static) (by intro _; rfl) _).trans
        (Table.updateRow_keeps (by intro _; rfl) j)
  | _ =>
      first
        | rfl
        | exact Table.updateRow_keeps (g := ProcessingJob.static) (by intro _; rfl) j

/-- What a request was submitted with. -/
def PromptRequest.static (r : PromptRequest) : Nat × String × String × Digest × String :=
  (r.id, r.promptId, r.text, r.textHash, r.userId)

theorem Tx.onRequest_static (db : Db) (t : Tx) (r : PromptRequest) :
    (t.onRequest db r).static = r.static := by
  cases t with
  | reapExpiredLeases now =>
      exact (Table.updateRow_keeps (g := PromptRequest.static) (by intro _; rfl) _).trans
        (Table.updateRow_keeps (by intro _; rfl) r)
  | _ =>
      first
        | rfl
        | exact Table.updateRow_keeps (g := PromptRequest.static) (by intro _; rfl) r

/-- Everything of a cache row but its hit counters. -/
def SemanticCache.static (e : SemanticCache) :
    Nat × String × Digest × Vector × String × String :=
  (e.id, e.promptText, e.textHash, e.embedding, e.response, e.sourcePromptId)

theorem Tx.onEntry_static (t : Tx) (e : SemanticCache) : (t.onEntry e).static = e.static := by
  cases t with
  | incrementHitCount i now =>
      exact Table.updateRow_keeps (g := SemanticCache.static) (by intro _; rfl) e
  | _ => rfl

/-! ## Rows a transaction adds -/

/-- The job row a transaction adds. -/
def Tx.newJobs (db : Db) : Tx → List ProcessingJob
  | .insertWithJob new now =>
      match PromptRequestRepository.insertWithJob db new now with
      | some (_, _, j) => [j]
      | none => []
  | _ => []

/-- The request row a transaction adds. -/
def Tx.newRequests (db : Db) : Tx → List PromptRequest
  | .insertWithJob new now =>
      match PromptRequestRepository.insertWithJob db new now with
      | some (_, r, _) => [r]
      | none => []
  | _ => []

/-- The cache row a transaction adds. -/
def Tx.newEntries (db : Db) : Tx → List SemanticCache
  | .upsert new now =>
      if (db.cache.insert (new.row now) (new.row_pk now)).isSome then [new.row now db.cache.seq]
      else []
  | _ => []

/-! ## What the two methods with a choice in them do -/

theorem claimNext_rows (db : Db) (w : WorkerId) (l : Nat) (now : Time) (pick : Option Nat) :
    (ProcessingJobRepository.claimNext db w l now pick).1.jobs.rows
      = db.jobs.rows.map (Tx.claimNext w l now pick).onJob := by
  unfold ProcessingJobRepository.claimNext
  split
  · rename_i hf
    refine (Table.map_updateRow_of_none fun j hj hp => ?_).symm
    exact absurd (decide_eq_true hp) (List.find?_eq_none.mp hf j hj)
  · rename_i j hf
    have hj := List.mem_of_find?_eq_some hf
    have hp : some j.id = pick ∧ ProcessingJob.Due now j := by simpa using List.find?_some hf
    refine Table.map_updateRow_congr fun k hk => ⟨fun he => ?_, fun he => ?_⟩
    · rw [Db.job_eq_of_id hk hj he]; exact hp
    · exact Option.some.inj (he.1.trans hp.1.symm)

/-- `claim_next` moves no table but the jobs. -/
theorem claimNext_frame (db : Db) (w : WorkerId) (l : Nat) (now : Time) (pick : Option Nat) :
    (ProcessingJobRepository.claimNext db w l now pick).1.requests = db.requests ∧
      (ProcessingJobRepository.claimNext db w l now pick).1.cache = db.cache := by
  unfold ProcessingJobRepository.claimNext
  split <;> exact ⟨rfl, rfl⟩

/-- **What a claim hands out:** the due row that was locked, as updated, and its request. -/
theorem claimNext_some {db : Db} {w : WorkerId} {l : Nat} {now : Time} {pick : Option Nat}
    {job : ProcessingJob} {req : PromptRequest}
    (h : (ProcessingJobRepository.claimNext db w l now pick).2 = some (job, req)) :
    ∃ j ∈ db.jobs.rows, some j.id = pick ∧ ProcessingJob.Due now j ∧ job = j.claim w l now ∧
      req ∈ db.requests.rows ∧ req.id = j.promptRequestId := by
  unfold ProcessingJobRepository.claimNext at h
  split at h
  · cases h
  · rename_i j hf
    obtain ⟨r, hr, he⟩ := Option.map_eq_some_iff.mp h
    have hp : some j.id = pick ∧ ProcessingJob.Due now j := by simpa using List.find?_some hf
    have hid : r.id = j.promptRequestId := by simpa [Keyed.pk] using List.find?_some hr
    obtain ⟨h₁, h₂⟩ := Prod.mk.inj he
    exact ⟨j, List.mem_of_find?_eq_some hf, hp.1, hp.2, h₁.symm,
      h₂ ▸ List.mem_of_find?_eq_some hr, h₂ ▸ hid⟩

/-- The row that was locked is handed out: its request is there. -/
theorem claimNext_due {db : Db} {w : WorkerId} {l : Nat} {now : Time} {pick : Option Nat}
    {j : ProcessingJob} (hj : j ∈ db.jobs.rows) (hp : some j.id = pick)
    (hd : ProcessingJob.Due now j) :
    ∃ q, (ProcessingJobRepository.claimNext db w l now pick).2 = some (j.claim w l now, q) := by
  unfold ProcessingJobRepository.claimNext
  split
  · rename_i hf
    exact absurd (decide_eq_true ⟨hp, hd⟩) (List.find?_eq_none.mp hf j hj)
  · rename_i k hf
    have hk : some k.id = pick ∧ ProcessingJob.Due now k := by simpa using List.find?_some hf
    have hid : k.id = j.id := Option.some.inj (hk.1.trans hp.symm)
    have hkj : k = j := Db.job_eq_of_id (List.mem_of_find?_eq_some hf) hj hid
    obtain ⟨q, hq, hqid⟩ := db.fk j hj
    refine ⟨q, ?_⟩
    rw [hkj, Table.find?_pk hq hqid]
    rfl

/-- **What a successful insert does.** -/
theorem insertWithJob_some {db db' : Db} {new : NewRequest} {now : Time} {r : PromptRequest}
    {j : ProcessingJob}
    (h : PromptRequestRepository.insertWithJob db new now = some (db', r, j)) :
    db'.requests.rows = db.requests.rows ++ [r] ∧ db'.jobs.rows = db.jobs.rows ++ [j] ∧
      db'.cache = db.cache ∧ r = new.requestRow now db.requests.seq ∧
      j = new.jobRow db.requests.seq now db.jobs.seq ∧
      ∀ q ∈ db.requests.rows, q.promptId ≠ new.promptId := by
  unfold PromptRequestRepository.insertWithJob at h
  split at h
  · cases h
  · rename_i requests hr
    split at h
    · cases h
    · rename_i jobs hj
      cases h
      exact ⟨(Table.insert_some hr).1, (Table.insert_some hj).1, rfl, rfl, rfl,
        (Table.insert_some hr).2⟩

/-- **The only integrity error is a taken `prompt_id`.** -/
theorem insertWithJob_none {db : Db} {new : NewRequest} {now : Time}
    (h : PromptRequestRepository.insertWithJob db new now = none) :
    ∃ q ∈ db.requests.rows, q.promptId = new.promptId := by
  unfold PromptRequestRepository.insertWithJob at h
  split at h
  · rename_i hr
    exact Table.insert_none hr
  · split at h
    · rename_i hj
      -- the new job's request id is fresh, so its own unique column cannot clash
      obtain ⟨k, hk, he⟩ := Table.insert_none hj
      obtain ⟨q, hq, hid⟩ := db.fk k hk
      have hlt : q.id < db.requests.seq := db.requests.pk_lt q hq
      exact absurd (hid.trans he) (Nat.ne_of_lt hlt)
    · cases h

/-- The two guards of the reaper split the expired rows. -/
theorem not_exhausted_of_reclaimable {now : Time} {j : ProcessingJob}
    (h : ProcessingJob.Reclaimable now j) : ¬ ProcessingJob.Exhausted now j :=
  fun he => absurd he.2 (Nat.not_le.mpr h.2)

/-- A row the first statement of the reaper re-queued is out of reach of the second. -/
theorem not_exhausted_requeue (now : Time) (j : ProcessingJob) :
    ¬ ProcessingJob.Exhausted now j.requeue := fun he => JobStatus.noConfusion he.1.1

/-- So the second statement sees the exhausted rows exactly as they were. -/
theorem filter_exhausted_requeue (l : List ProcessingJob) (now : Time) :
    (l.map (Table.updateRow (ProcessingJob.Reclaimable now) ProcessingJob.requeue)).filter
        (fun j => ProcessingJob.Exhausted now j)
      = l.filter (fun j => ProcessingJob.Exhausted now j) := by
  induction l with
  | nil => rfl
  | cons j l ih =>
      rw [List.map_cons]
      by_cases h : ProcessingJob.Reclaimable now j
      · rw [Table.updateRow_pos h,
          List.filter_cons_of_neg (by simpa using not_exhausted_requeue now j),
          List.filter_cons_of_neg (by simpa using not_exhausted_of_reclaimable h), ih]
      · rw [Table.updateRow_neg h, List.filter_cons, List.filter_cons, ih]

/-- The reaper re-queues what it can. -/
theorem onJob_reclaimable {now : Time} {j : ProcessingJob}
    (h : ProcessingJob.Reclaimable now j) : (Tx.reapExpiredLeases now).onJob j = j.requeue := by
  simp only [Tx.onJob]
  rw [Table.updateRow_pos h, Table.updateRow_neg (not_exhausted_requeue now j)]

/-- The rest of what it finds expired it buries. -/
theorem onJob_exhausted {now : Time} {j : ProcessingJob} (h : ProcessingJob.Exhausted now j) :
    (Tx.reapExpiredLeases now).onJob j = j.expire now := by
  have hn : Table.updateRow (ProcessingJob.Reclaimable now) ProcessingJob.requeue j = j :=
    Table.updateRow_neg fun hr => not_exhausted_of_reclaimable hr h
  simp only [Tx.onJob]
  rw [hn, Table.updateRow_pos h]

/-- Either way it takes what it finds expired. -/
theorem onJob_expired {now : Time} {j : ProcessingJob} (h : ProcessingJob.Expired now j) :
    (Tx.reapExpiredLeases now).onJob j = j.requeue ∨
      (Tx.reapExpiredLeases now).onJob j = j.expire now := by
  by_cases ha : j.attemptCount < j.maxAttempts
  · exact .inl (onJob_reclaimable ⟨h, ha⟩)
  · exact .inr (onJob_exhausted ⟨h, Nat.not_lt.mp ha⟩)

/-- It touches nothing else. -/
theorem onJob_unexpired {now : Time} {j : ProcessingJob} (h : ¬ ProcessingJob.Expired now j) :
    (Tx.reapExpiredLeases now).onJob j = j := by
  have hn : Table.updateRow (ProcessingJob.Reclaimable now) ProcessingJob.requeue j = j :=
    Table.updateRow_neg fun hr => h hr.1
  simp only [Tx.onJob]
  rw [hn, Table.updateRow_neg fun hx => h hx.1]

/-! ## `exec`, table by table -/

theorem Db.exec_jobs (db : Db) (t : Tx) :
    (db.exec t).1.jobs.rows = db.jobs.rows.map t.onJob ++ t.newJobs db := by
  cases t with
  | claimNext w l now pick =>
      exact (claimNext_rows db w l now pick).trans (List.append_nil _).symm
  | insertWithJob new now =>
      simp only [Db.exec, Tx.newJobs, Tx.onJob, List.map_id]
      split
      · rename_i h; exact (insertWithJob_some h).2.1
      · simp
  | reapExpiredLeases now => exact List.map_map.trans (List.append_nil _).symm
  | upsert new now =>
      simp only [Db.exec, Tx.newJobs, Tx.onJob, List.map_id, List.append_nil,
        SemanticCacheRepository.upsert]
      split <;> rfl
  | _ =>
      first
        | exact (List.append_nil _).symm
        | exact ((List.append_nil _).trans (List.map_id _)).symm

theorem Db.exec_requests (db : Db) (t : Tx) :
    (db.exec t).1.requests.rows = db.requests.rows.map (t.onRequest db) ++ t.newRequests db := by
  cases t with
  | claimNext w l now pick =>
      simp only [Db.exec, Tx.newRequests, Tx.onRequest, List.map_id, List.append_nil]
      rw [(claimNext_frame db w l now pick).1]
  | insertWithJob new now =>
      simp only [Db.exec, Tx.newRequests, Tx.onRequest, List.map_id]
      split
      · rename_i h; exact (insertWithJob_some h).1
      · simp
  | reapExpiredLeases now =>
      have hd := filter_exhausted_requeue db.jobs.rows now
      have hrows : (db.exec (.reapExpiredLeases now)).1.requests.rows
          = db.requests.rows.map (reapRequest
              (db.jobs.rows.filter fun j => ProcessingJob.Reclaimable now j)
              (((db.jobs.rows.map (Table.updateRow (ProcessingJob.Reclaimable now)
                ProcessingJob.requeue)).filter fun j => ProcessingJob.Exhausted now j).map
                (·.expire now)) now) := List.map_map
      rw [hrows, hd]
      exact (List.append_nil _).symm
  | upsert new now =>
      simp only [Db.exec, Tx.newRequests, Tx.onRequest, List.map_id, List.append_nil,
        SemanticCacheRepository.upsert]
      split <;> rfl
  | _ =>
      first
        | exact (List.append_nil _).symm
        | exact ((List.append_nil _).trans (List.map_id _)).symm

theorem Db.exec_cache (db : Db) (t : Tx) :
    (db.exec t).1.cache.rows = db.cache.rows.map t.onEntry ++ t.newEntries db := by
  cases t with
  | claimNext w l now pick =>
      simp only [Db.exec, Tx.newEntries, Tx.onEntry, List.map_id, List.append_nil]
      rw [(claimNext_frame db w l now pick).2]
  | insertWithJob new now =>
      simp only [Db.exec, Tx.newEntries, Tx.onEntry, List.map_id, List.append_nil]
      split
      · rename_i h; rw [(insertWithJob_some h).2.2.1]
      · rfl
  | upsert new now =>
      simp only [Db.exec, Tx.newEntries, Tx.onEntry, List.map_id, SemanticCacheRepository.upsert]
      cases h : db.cache.insert (new.row now) (new.row_pk now) with
      | none => simp
      | some cache => exact (Table.insert_some h).1
  | _ =>
      first
        | exact (List.append_nil _).symm
        | exact ((List.append_nil _).trans (List.map_id _)).symm

end PromptQueue
