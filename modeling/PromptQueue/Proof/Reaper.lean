import PromptQueue.Proof.Steps

/-!
# What one scan of the reaper leaves behind

`reap_expired_leases` is two statements in one transaction, each an `UPDATE` of the jobs
whose outcome is joined back to the requests. The two guards split the expired rows, and
the second statement cannot meet a row the first one wrote, so the scan is one function
on each job row and one on each request row. It is stated here for any tables at all,
not only for those a run can produce.
-/

namespace PromptQueue

open Base

/-- What a scan makes of a job row. -/
inductive JobReaped (now : Time) : ProcessingJob → ProcessingJob → Prop where
  | requeued {j : ProcessingJob} (hs : j.status = .processing) (hx : j.leaseExpired now = true)
      (ha : j.attemptCount < j.maxAttempts) :
      JobReaped now j { j with status := .queued, workerId := none, lockedUntil := none }
  | dead {j : ProcessingJob} (hs : j.status = .processing) (hx : j.leaseExpired now = true)
      (ha : j.maxAttempts ≤ j.attemptCount) :
      JobReaped now j { j with status := .dead, finishedAt := some now }
  | untouched {j : ProcessingJob} (hn : ¬ (j.status = .processing ∧ j.leaseExpired now = true)) :
      JobReaped now j j

/-- What a scan makes of a request row, given the jobs. -/
inductive RequestReaped (now : Time) (jobs : List ProcessingJob) :
    PromptRequest → PromptRequest → Prop where
  | requeued {r : PromptRequest} {j : ProcessingJob} (hj : j ∈ jobs)
      (ht : j.promptRequestId = r.id) (hs : j.status = .processing)
      (hx : j.leaseExpired now = true) (ha : j.attemptCount < j.maxAttempts) :
      RequestReaped now jobs r { r with status := .queued, updatedAt := now }
  | failed {r : PromptRequest} {j : ProcessingJob} (hj : j ∈ jobs)
      (ht : j.promptRequestId = r.id) (hs : j.status = .processing)
      (hx : j.leaseExpired now = true) (ha : j.maxAttempts ≤ j.attemptCount) :
      RequestReaped now jobs r { r with
        status := .failed
        updatedAt := now
        error := some (j.errorMessage.getD "Max attempts exceeded") }
  | untouched {r : PromptRequest} (hn : ∀ j ∈ jobs, j.promptRequestId = r.id →
      ¬ (j.status = .processing ∧ j.leaseExpired now = true)) : RequestReaped now jobs r r

/-- **The postcondition of a scan.** -/
structure Reaped (now : Time) (db db' : Db) (ids : List Nat) : Prop where
  /-- Every job row is where it was, and is what a scan makes of it. -/
  jobs : List.Forall₂ (JobReaped now) db.jobs.rows db'.jobs.rows
  /-- So is every request row. -/
  requests : List.Forall₂ (RequestReaped now db.jobs.rows) db.requests.rows db'.requests.rows
  /-- Nothing else moves. -/
  frame : db'.cache = db.cache ∧ db'.jobs.seq = db.jobs.seq ∧ db'.requests.seq = db.requests.seq
  /-- No job is handled in both ways. -/
  disjoint : ∀ j ∈ db.jobs.rows,
    ¬ (ProcessingJob.Reclaimable now j ∧ ProcessingJob.Exhausted now j)
  /-- The ids returned are those of the jobs put back in the queue, each once. -/
  ids_nodup : ids.Nodup
  ids_iff : ∀ i, i ∈ ids ↔ ∃ j ∈ db.jobs.rows, j.id = i ∧ ProcessingJob.Reclaimable now j
  /-- No expired lease is left. -/
  none_left : ∀ j ∈ db'.jobs.rows, ¬ (j.status = .processing ∧ j.leaseExpired now = true)
  /-- A second scan at the same time finds nothing. -/
  again : ProcessingJobRepository.reapExpiredLeases db' now = (db', [])

end PromptQueue

namespace PromptQueue.Proof

open PromptQueue Base World

variable {now : Time}

/-- Row by row, a map is a relation. -/
theorem forall₂_map {α : Type} {R : α → α → Prop} {f : α → α} {l : List α}
    (h : ∀ x ∈ l, R x (f x)) : List.Forall₂ R l (l.map f) := by
  rw [List.forall₂_map_right_iff, List.forall₂_same]
  exact h

/-- A job row. -/
theorem job_reaped (now : Time) (j : ProcessingJob) :
    JobReaped now j ((Tx.reapExpiredLeases now).onJob j) := by
  by_cases hx : ProcessingJob.Expired now j
  · by_cases ha : j.attemptCount < j.maxAttempts
    · rw [onJob_reclaimable ⟨hx, ha⟩]
      exact .requeued hx.1 hx.2 ha
    · rw [onJob_exhausted ⟨hx, Nat.not_lt.mp ha⟩]
      exact .dead hx.1 hx.2 (Nat.not_lt.mp ha)
  · rw [onJob_unexpired hx]
    exact .untouched hx

/-- What a scan wrote is not expired. -/
theorem unexpired_of_reaped {j j' : ProcessingJob} (h : JobReaped now j j') :
    ¬ ProcessingJob.Expired now j' := by
  cases h with
  | requeued hs hx ha => exact fun he => JobStatus.noConfusion he.1
  | dead hs hx ha => exact fun he => JobStatus.noConfusion he.1
  | untouched hn => exact hn

/-- The one dead job a request can have is the one the second statement joins it with. -/
theorem find_dead {db : Db} {j : ProcessingJob} (hj : j ∈ db.jobs.rows)
    (hx : ProcessingJob.Exhausted now j) {r : PromptRequest} (ht : j.promptRequestId = r.id) :
    ((db.jobs.rows.filter fun j => ProcessingJob.Exhausted now j).map (·.expire now)).find?
      (fun d => r.id = d.promptRequestId) = some (j.expire now) := by
  have hmem : j.expire now ∈ (db.jobs.rows.filter
      fun j => ProcessingJob.Exhausted now j).map (·.expire now) :=
    List.mem_map_of_mem (List.mem_filter.mpr ⟨hj, decide_eq_true hx⟩)
  cases hf : ((db.jobs.rows.filter fun j => ProcessingJob.Exhausted now j).map
      (·.expire now)).find? (fun d => r.id = d.promptRequestId) with
  | none =>
      have hne := List.find?_eq_none.mp hf (j.expire now) hmem
      exact absurd (decide_eq_true ht.symm) hne
  | some d =>
      have hid := List.find?_some hf
      obtain ⟨i, hi, rfl⟩ := List.mem_map.mp (List.mem_of_find?_eq_some hf)
      have hid : r.id = i.promptRequestId := of_decide_eq_true hid
      rw [Db.job_unique (List.mem_filter.mp hi).1 hj (hid.symm.trans ht.symm)]

/-- A request row. -/
theorem request_reaped (db : Db) (now : Time) (r : PromptRequest) :
    RequestReaped now db.jobs.rows r ((Tx.reapExpiredLeases now).onRequest db r) := by
  simp only [Tx.onRequest, reapRequest]
  by_cases hq : ProcessingJobRepository.RequestOf
      (db.jobs.rows.filter fun j => ProcessingJob.Reclaimable now j) r
  · rw [Table.updateRow_pos hq, Table.updateRow_neg]
    · obtain ⟨j, hj, ht⟩ := hq
      obtain ⟨hj, hr⟩ := List.mem_filter.mp hj
      have hr : ProcessingJob.Reclaimable now j := of_decide_eq_true hr
      exact .requeued hj ht.symm hr.1.1 hr.1.2 hr.2
    · -- a request has one job, so the second statement leaves this row alone
      rintro ⟨d, hd, hti⟩
      obtain ⟨j, hj, ht⟩ := hq
      obtain ⟨hj, hr⟩ := List.mem_filter.mp hj
      obtain ⟨i, hi, rfl⟩ := List.mem_map.mp hd
      obtain ⟨hi, hx⟩ := List.mem_filter.mp hi
      rw [Db.job_unique hi hj (hti.symm.trans ht)] at hx
      exact not_exhausted_of_reclaimable (of_decide_eq_true hr) (of_decide_eq_true hx)
  · rw [Table.updateRow_neg hq]
    by_cases hd : ProcessingJobRepository.RequestOf ((db.jobs.rows.filter
        fun j => ProcessingJob.Exhausted now j).map (·.expire now)) r
    · rw [Table.updateRow_pos hd]
      obtain ⟨d, hd, ht⟩ := hd
      obtain ⟨j, hj, rfl⟩ := List.mem_map.mp hd
      obtain ⟨hj, hx⟩ := List.mem_filter.mp hj
      have hx : ProcessingJob.Exhausted now j := of_decide_eq_true hx
      have herr : (((some (j.expire now)).bind (·.errorMessage)).or
          (some "Max attempts exceeded")) = some (j.errorMessage.getD "Max attempts exceeded") := by
        rw [Option.bind_some, show (j.expire now).errorMessage = j.errorMessage from rfl]
        cases j.errorMessage <;> rfl
      rw [ProcessingJobRepository.syncFailed, find_dead hj hx ht.symm, herr]
      exact .failed hj ht.symm hx.1.1 hx.1.2 hx.2
    · rw [Table.updateRow_neg hd]
      refine .untouched fun j hj ht hx => ?_
      by_cases ha : j.attemptCount < j.maxAttempts
      · exact hq ⟨j, List.mem_filter.mpr ⟨hj, decide_eq_true ⟨hx, ha⟩⟩, ht.symm⟩
      · exact hd ⟨j.expire now, List.mem_map_of_mem (List.mem_filter.mpr
          ⟨hj, decide_eq_true ⟨hx, Nat.not_lt.mp ha⟩⟩), ht.symm⟩

/-- Every job has its request, so the ids are those of all the jobs re-queued. -/
theorem reclaimed_ids (db : Db) (now : Time) :
    (ProcessingJobRepository.reapExpiredLeases db now).2
      = (db.jobs.rows.filter fun j => ProcessingJob.Reclaimable now j).map (·.id) := by
  unfold ProcessingJobRepository.reapExpiredLeases
  dsimp only
  rw [List.filter_eq_self.mpr]
  intro j hj
  obtain ⟨r, hr, ht⟩ := db.fk j (List.mem_filter.mp hj).1
  exact List.any_eq_true.mpr ⟨r, hr, decide_eq_true ht⟩

/-- Where no lease has expired a scan does nothing. -/
theorem reap_of_unexpired {db : Db}
    (h : ∀ j ∈ db.jobs.rows, ¬ ProcessingJob.Expired now j) :
    ProcessingJobRepository.reapExpiredLeases db now = (db, []) := by
  have hr : (db.jobs.rows.filter fun j => ProcessingJob.Reclaimable now j) = [] :=
    List.filter_eq_nil_iff.mpr fun j hj hd => h j hj (of_decide_eq_true hd).1
  have hx : (db.jobs.rows.filter fun j => ProcessingJob.Exhausted now j) = [] :=
    List.filter_eq_nil_iff.mpr fun j hj hd => h j hj (of_decide_eq_true hd).1
  have nobody : ∀ {jobs : List ProcessingJob}, jobs = [] →
      ∀ r ∈ db.requests.rows, ¬ ProcessingJobRepository.RequestOf jobs r := by
    rintro jobs rfl r - ⟨j, hj, -⟩
    cases hj
  have h₁ : db.updateJobs (ProcessingJob.Reclaimable now) ProcessingJob.requeue
      (fun _ => ⟨rfl, rfl⟩) = db := Db.updateJobs_of_none fun j hj hd => h j hj hd.1
  have h₂ : db.updateRequests (ProcessingJobRepository.RequestOf
      (db.jobs.rows.filter fun j => ProcessingJob.Reclaimable now j))
      (ProcessingJobRepository.syncQueued now) (fun _ => ⟨rfl, rfl⟩) = db :=
    Db.updateRequests_of_none (nobody hr)
  have h₃ : db.updateJobs (ProcessingJob.Exhausted now) (·.expire now)
      (fun _ => ⟨rfl, rfl⟩) = db := Db.updateJobs_of_none fun j hj hd => h j hj hd.1
  refine Prod.ext ?_ ?_
  · unfold ProcessingJobRepository.reapExpiredLeases
    simp only [h₁, h₂, h₃]
    exact Db.updateRequests_of_none (nobody (by rw [hx]; rfl))
  · rw [reclaimed_ids, hr]
    rfl

/--
**What a scan does to any tables.** The expired jobs with attempts left go back to the
queue, the others are dead, their requests follow, and nothing else changes; what is
returned is what was re-queued, and there is nothing left for a second scan.
-/
theorem reap_postcondition (db : Db) (now : Time) :
    Reaped now db (ProcessingJobRepository.reapExpiredLeases db now).1
      (ProcessingJobRepository.reapExpiredLeases db now).2 := by
  have hjobs := Db.exec_jobs db (.reapExpiredLeases now)
  have hrequests := Db.exec_requests db (.reapExpiredLeases now)
  rw [show (Tx.reapExpiredLeases now).newJobs db = [] from rfl, List.append_nil] at hjobs
  rw [show (Tx.reapExpiredLeases now).newRequests db = [] from rfl, List.append_nil] at hrequests
  change (ProcessingJobRepository.reapExpiredLeases db now).1.jobs.rows = _ at hjobs
  change (ProcessingJobRepository.reapExpiredLeases db now).1.requests.rows = _ at hrequests
  have hleft : ∀ j ∈ (ProcessingJobRepository.reapExpiredLeases db now).1.jobs.rows,
      ¬ ProcessingJob.Expired now j := by
    intro j' hj'
    rw [hjobs] at hj'
    obtain ⟨j, -, rfl⟩ := List.mem_map.mp hj'
    exact unexpired_of_reaped (job_reaped now j)
  refine ⟨?_, ?_, ⟨rfl, rfl, rfl⟩, fun j _ hb => not_exhausted_of_reclaimable hb.1 hb.2, ?_, ?_,
    hleft, reap_of_unexpired hleft⟩
  · rw [hjobs]
    exact forall₂_map fun j _ => job_reaped now j
  · rw [hrequests]
    exact forall₂_map fun r _ => request_reaped db now r
  · rw [reclaimed_ids]
    exact db.jobs.pk_nodup.sublist (List.filter_sublist.map _)
  · intro i
    rw [reclaimed_ids]
    simp only [List.mem_map, List.mem_filter, decide_eq_true_eq]
    constructor
    · rintro ⟨j, ⟨hj, hr⟩, hid⟩
      exact ⟨j, hj, hid, hr⟩
    · rintro ⟨j, hj, hid, hr⟩
      exact ⟨j, ⟨hj, hr⟩, hid⟩

end PromptQueue.Proof
