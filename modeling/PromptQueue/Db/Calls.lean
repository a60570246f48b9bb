import PromptQueue.Base.Machine
import PromptQueue.Db.Transaction

/-!
# The database under any calls

The transactions of a run are those its processes come to issue. Here nobody is behind
a call: the methods of the repositories are called one after the other, in any order and
with any arguments, also by workers that lost their lease and clients that gave up. What
a row looks like after every such history is the work of the methods alone.
-/

namespace PromptQueue

open Base

/-- A call of a repository. -/
inductive RepositoryCall where
  /-- One of those the services and the workers make. -/
  | tx (t : Tx)
  /-- `mark_failed` of a job, which nothing calls. -/
  | jobMarkFailed (jobId : Nat) (error : String) (now : Time)
  deriving DecidableEq, Repr

/-- What a call leaves of the database. -/
def Db.perform (db : Db) : RepositoryCall → Db
  | .tx t => (db.exec t).1
  | .jobMarkFailed jobId error now => ProcessingJobRepository.markFailed db jobId error now

/-- The database as a machine. -/
def Db.machine : Machine Db RepositoryCall where
  init := Db.empty
  step db c := some (db.perform c)

namespace RepositoryCall

/-- What a call does to one job row. -/
def onJob : RepositoryCall → ProcessingJob → ProcessingJob
  | .tx t => t.onJob
  | .jobMarkFailed jobId error now =>
      Table.updateRow (fun j => j.id = jobId) (·.fail error now)

/-- What a call does to one request row. -/
def onRequest (db : Db) : RepositoryCall → PromptRequest → PromptRequest
  | .tx t => t.onRequest db
  | .jobMarkFailed _ _ _ => id

/-- The job row a call adds. -/
def newJobs (db : Db) : RepositoryCall → List ProcessingJob
  | .tx t => t.newJobs db
  | .jobMarkFailed _ _ _ => []

/-- The request row a call adds. -/
def newRequests (db : Db) : RepositoryCall → List PromptRequest
  | .tx t => t.newRequests db
  | .jobMarkFailed _ _ _ => []

/-- The time of a scan for expired leases. -/
def reaps : RepositoryCall → Option Time
  | .tx (.reapExpiredLeases now) => some now
  | _ => none

end RepositoryCall

/-- **A job row after a call** is one of before, as the call left it, or the one it added. -/
theorem Db.perform_jobs (db : Db) (c : RepositoryCall) :
    (db.perform c).jobs.rows = db.jobs.rows.map c.onJob ++ c.newJobs db := by
  cases c with
  | tx t => exact Db.exec_jobs db t
  | jobMarkFailed jobId error now => exact (List.append_nil _).symm

/-- So is a request row. -/
theorem Db.perform_requests (db : Db) (c : RepositoryCall) :
    (db.perform c).requests.rows = db.requests.rows.map (c.onRequest db) ++ c.newRequests db := by
  cases c with
  | tx t => exact Db.exec_requests db t
  | jobMarkFailed jobId error now => exact ((List.append_nil _).trans (List.map_id _)).symm

/-- A job row a call added is queued, with the defaults of the table. -/
theorem RepositoryCall.newJobs_some {db : Db} {c : RepositoryCall} {j : ProcessingJob}
    (hj : j ∈ c.newJobs db) :
    ∃ new now, j = NewRequest.jobRow new db.requests.seq now db.jobs.seq := by
  cases c with
  | jobMarkFailed jobId error now => cases hj
  | tx t =>
      cases t with
      | insertWithJob new now =>
          simp only [newJobs, Tx.newJobs] at hj
          split at hj
          · rename_i hi
            rw [List.mem_singleton.mp hj]
            exact ⟨new, now, (insertWithJob_some hi).2.2.2.2.1⟩
          · cases hj
      | _ => cases hj

/-- So is a request row. -/
theorem RepositoryCall.newRequests_some {db : Db} {c : RepositoryCall} {q : PromptRequest}
    (hq : q ∈ c.newRequests db) :
    ∃ new now, q = NewRequest.requestRow new now db.requests.seq := by
  cases c with
  | jobMarkFailed jobId error now => cases hq
  | tx t =>
      cases t with
      | insertWithJob new now =>
          simp only [newRequests, Tx.newRequests] at hq
          split at hq
          · rename_i hi
            rw [List.mem_singleton.mp hq]
            exact ⟨new, now, (insertWithJob_some hi).2.2.2.1⟩
          · cases hq
      | _ => cases hq

/-- A job row goes on as the call left it. -/
theorem Db.onJob_mem {db : Db} {c : RepositoryCall} {j : ProcessingJob}
    (hj : j ∈ db.jobs.rows) : c.onJob j ∈ (db.perform c).jobs.rows := by
  rw [Db.perform_jobs]
  exact List.mem_append_left _ (List.mem_map_of_mem hj)

/-- A job row after a call is one of before, as the call left it, or a new one. -/
theorem Db.job_of_perform {db : Db} {c : RepositoryCall} {j' : ProcessingJob}
    (hj' : j' ∈ (db.perform c).jobs.rows) : (∃ j ∈ db.jobs.rows, c.onJob j = j') ∨
      ∃ new requestId now jobId, NewRequest.jobRow new requestId now jobId = j' := by
  rw [Db.perform_jobs] at hj'
  rcases List.mem_append.mp hj' with hj' | hj'
  · exact .inl (List.mem_map.mp hj')
  · obtain ⟨new, now, rfl⟩ := RepositoryCall.newJobs_some hj'
    exact .inr ⟨new, _, now, _, rfl⟩

/-- So is a request row. -/
theorem Db.request_of_perform {db : Db} {c : RepositoryCall} {q' : PromptRequest}
    (hq' : q' ∈ (db.perform c).requests.rows) : (∃ q ∈ db.requests.rows, c.onRequest db q = q') ∨
      ∃ new now id, NewRequest.requestRow new now id = q' := by
  rw [Db.perform_requests] at hq'
  rcases List.mem_append.mp hq' with hq' | hq'
  · exact .inl (List.mem_map.mp hq')
  · obtain ⟨new, now, rfl⟩ := RepositoryCall.newRequests_some hq'
    exact .inr ⟨new, now, _, rfl⟩

/-- **The invariance rule for job rows**: what a new row has and no call takes from one. -/
theorem Db.jobs_invariant {K : Db → RepositoryCall → Prop} {P : ProcessingJob → Prop} {db : Db}
    (h : Db.machine.ReachableWhere K db)
    (hnew : ∀ new requestId now jobId, P (NewRequest.jobRow new requestId now jobId))
    (hcall : ∀ {db : Db} {c : RepositoryCall} {j : ProcessingJob}, K db c → P j → P (c.onJob j)) :
    ∀ j ∈ db.jobs.rows, P j := by
  refine h.invariant (I := fun db => ∀ j ∈ db.jobs.rows, P j)
    (fun _ hj => absurd hj List.not_mem_nil) fun {db db' c} _ hi hc hs j' hj' => ?_
  cases hs
  rcases Db.job_of_perform hj' with ⟨j, hj, rfl⟩ | ⟨new, requestId, now, jobId, rfl⟩
  · exact hcall hc (hi j hj)
  · exact hnew new requestId now jobId

/-- **The invariance rule for request rows.** -/
theorem Db.requests_invariant {K : Db → RepositoryCall → Prop} {P : PromptRequest → Prop}
    {db : Db} (h : Db.machine.ReachableWhere K db)
    (hnew : ∀ new now id, P (NewRequest.requestRow new now id))
    (hcall : ∀ {db : Db} {c : RepositoryCall} {q : PromptRequest}, K db c → P q →
      P (c.onRequest db q)) : ∀ q ∈ db.requests.rows, P q := by
  refine h.invariant (I := fun db => ∀ q ∈ db.requests.rows, P q)
    (fun _ hq => absurd hq List.not_mem_nil) fun {db db' c} _ hi hc hs q' hq' => ?_
  cases hs
  rcases Db.request_of_perform hq' with ⟨q, hq, rfl⟩ | ⟨new, now, id, rfl⟩
  · exact hcall hc (hi q hq)
  · exact hnew new now id

end PromptQueue
