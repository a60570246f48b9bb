import PromptQueue.Db.Calls

/-!
# The lease columns of a job

An `UPDATE` that sets the `status` of a job sets, in the same statement, the columns that
go with it. One does not: the second statement of `reap_expired_leases` makes a job dead
and leaves its `locked_until` standing. So the columns follow the status as long as no scan
finds an expired job without an attempt left, and the scan that finds one ends it.

Here the methods are called in any order.
-/

namespace PromptQueue

open Base

/-- What the lease columns of a job say, given its status. -/
structure LeaseColumns (j : ProcessingJob) : Prop where
  /-- There is a lease exactly while the job is in progress. -/
  lease : j.lockedUntil.isSome = true ↔ j.status = .processing
  /-- A job in progress has an owner. -/
  owner : j.status = .processing → j.workerId.isSome = true
  /-- A job that is over has an end. -/
  finished : j.status = .completed ∨ j.status = .dead → j.finishedAt.isSome = true

/-- The columns of every job follow its status. -/
def Db.LeasesFollow (db : Db) : Prop := ∀ j ∈ db.jobs.rows, LeaseColumns j

/-- A scan, if there is one, finds no expired job without an attempt left. -/
def Db.Spares (db : Db) (reap : Option Time) : Prop :=
  ∀ now ∈ reap, ∀ j ∈ db.jobs.rows, ¬ ProcessingJob.Exhausted now j

instance (db : Db) (reap : Option Time) : Decidable (db.Spares reap) :=
  inferInstanceAs (Decidable (∀ now ∈ reap, _))

/-- What every history leaves of the columns, whatever its scans find. -/
structure LeaseBasics (j : ProcessingJob) : Prop where
  /-- A job in progress has a lease. -/
  leased : j.status = .processing → j.lockedUntil.isSome = true
  /-- A lease is of a job in progress, or was left to a dead one. -/
  left : j.lockedUntil.isSome = true → j.status = .processing ∨ j.status = .dead
  /-- A queued job belongs to nobody. -/
  unowned : j.status = .queued → j.workerId = none
  /-- A job in progress has an owner. -/
  owner : j.status = .processing → j.workerId.isSome = true
  /-- A job that is over has an end. -/
  finished : j.status = .completed ∨ j.status = .dead → j.finishedAt.isSome = true

end PromptQueue

namespace PromptQueue.Proof

open PromptQueue Base

/-! ## One call -/

section
variable {db : Db} {c : RepositoryCall} {j j' : ProcessingJob} {now : Time}

/-- The columns of a row in progress that was given a lease. -/
theorem leaseColumns_held (hl : j.lockedUntil.isSome = true) (hs : j.status = .processing)
    (hw : j.workerId.isSome = true) : LeaseColumns j where
  lease := ⟨fun _ => hs, fun _ => hl⟩
  owner _ := hw
  finished := by rw [hs]; rintro (h | h) <;> cases h

/-- The columns of a row that waits, without a lease. -/
theorem leaseColumns_idle (hl : j.lockedUntil = none) (hs : j.status = .queued) :
    LeaseColumns j where
  lease := by rw [hl, hs]; decide
  owner := by rw [hs]; nofun
  finished := by rw [hs]; rintro (h | h) <;> cases h

/-- The columns of a row that is over, without a lease. -/
theorem leaseColumns_ended (hl : j.lockedUntil = none)
    (hs : j.status = .completed ∨ j.status = .failed ∨ j.status = .dead)
    (hf : j.finishedAt.isSome = true) : LeaseColumns j := by
  have hp : j.status ≠ .processing := by
    rcases hs with hs | hs | hs <;> (rw [hs]; decide)
  refine ⟨⟨fun h => ?_, fun h => absurd h hp⟩, fun h => absurd h hp, fun _ => hf⟩
  rw [hl] at h
  cases h

/-- What the columns of a row in order leave to be said is that a queued job has no owner. -/
theorem leaseBasics_of_columns (h : LeaseColumns j)
    (hu : j.status = .queued → j.workerId = none) : LeaseBasics j where
  leased := h.lease.mpr
  left hl := .inl (h.lease.mp hl)
  unowned := hu
  owner := h.owner
  finished := h.finished

/-- The ways a call can write the lease columns of a row. -/
inductive LeaseWrite (c : RepositoryCall) (j : ProcessingJob) : ProcessingJob → Prop where
  | untouched : LeaseWrite c j j
  /-- A worker has it. -/
  | held {j' : ProcessingJob} (hl : j'.lockedUntil.isSome = true) (hs : j'.status = .processing)
      (hw : j'.workerId.isSome = true) : LeaseWrite c j j'
  /-- It waits. -/
  | idle {j' : ProcessingJob} (hl : j'.lockedUntil = none) (hs : j'.status = .queued)
      (hw : j'.workerId = none) : LeaseWrite c j j'
  /-- It is over. -/
  | ended {j' : ProcessingJob} (hl : j'.lockedUntil = none)
      (hs : j'.status = .completed ∨ j'.status = .failed ∨ j'.status = .dead)
      (hf : j'.finishedAt.isSome = true) : LeaseWrite c j j'
  /-- `locked_until` of a job in progress. -/
  | extended {l : Nat} {now : Time} (hs : j.status = .processing) :
      LeaseWrite c j (j.extend l now)
  /-- The status, and not the lease. -/
  | expired {now : Time} (hc : now ∈ c.reaps) (hx : ProcessingJob.Exhausted now j) :
      LeaseWrite c j (j.expire now)

theorem LeaseWrite.update {p : ProcessingJob → Prop} [DecidablePred p]
    {f : ProcessingJob → ProcessingJob} (h : p j → LeaseWrite c j (f j)) :
    LeaseWrite c j (Table.updateRow p f j) :=
  Table.updateRow_ind (P := LeaseWrite c j) .untouched h

/-- **What a call does to a job row is one of these.** -/
theorem lease_write (c : RepositoryCall) (j : ProcessingJob) : LeaseWrite c j (c.onJob j) := by
  cases c with
  | jobMarkFailed i error now =>
      simp only [RepositoryCall.onJob]
      exact .update fun _ => .ended rfl (.inr (.inl rfl)) rfl
  | tx t =>
      simp only [RepositoryCall.onJob]
      cases t with
      | claimNext w l now pick =>
          simp only [Tx.onJob]
          exact .update fun _ => .held rfl rfl rfl
      | extendLease i w l now =>
          simp only [Tx.onJob]
          exact .update fun hh => .extended hh.2.2
      | releaseLease i w wait now =>
          simp only [Tx.onJob]
          exact .update fun _ => .idle rfl rfl rfl
      | jobMarkCompleted i now =>
          simp only [Tx.onJob]
          exact .update fun _ => .ended rfl (.inl rfl) rfl
      | markDead i error now =>
          simp only [Tx.onJob]
          exact .update fun _ => .ended rfl (.inr (.inr rfl)) rfl
      | resetJob q now =>
          simp only [Tx.onJob]
          exact .update fun _ => .idle rfl rfl rfl
      | reapExpiredLeases now =>
          by_cases hx : ProcessingJob.Expired now j
          · by_cases ha : j.attemptCount < j.maxAttempts
            · rw [onJob_reclaimable ⟨hx, ha⟩]
              exact .idle rfl rfl rfl
            · have hex : ProcessingJob.Exhausted now j := ⟨hx, Nat.not_lt.mp ha⟩
              rw [onJob_exhausted hex]
              exact .expired rfl hex
          · rw [onJob_unexpired hx]
            exact .untouched
      | _ => exact .untouched

/-- An exhausted job has a lease, and a scan leaves it. -/
theorem lockedUntil_expire (hx : ProcessingJob.Exhausted now j) :
    (j.expire now).lockedUntil.isSome = true := by
  have hlate := hx.1.2
  unfold ProcessingJob.leaseExpired at hlate
  cases hl : j.lockedUntil with
  | none => rw [hl] at hlate; cases hlate
  | some t => simp [ProcessingJob.expire, hl]

/-- A call keeps a row in order, unless it is a scan that gives the job up. -/
theorem leaseColumns_onJob (h : LeaseColumns j)
    (hc : ∀ now ∈ c.reaps, ¬ ProcessingJob.Exhausted now j) : LeaseColumns (c.onJob j) := by
  generalize hnew : c.onJob j = j'
  have hw := lease_write c j
  rw [hnew] at hw
  cases hw with
  | untouched => exact h
  | held hl hs hw => exact leaseColumns_held hl hs hw
  | idle hl hs hw => exact leaseColumns_idle hl hs
  | ended hl hs hf => exact leaseColumns_ended hl hs hf
  | extended hs => exact leaseColumns_held rfl hs (h.owner hs)
  | expired hnow hx => exact absurd hx (hc _ hnow)

/-- **A call keeps the columns of all jobs exactly when it gives none of them up.** -/
theorem leasesFollow_perform_iff (h : db.LeasesFollow) :
    (db.perform c).LeasesFollow ↔ db.Spares c.reaps := by
  constructor
  · intro hall now hnow j hj hx
    obtain rfl : c = .tx (.reapExpiredLeases now) := by
      unfold RepositoryCall.reaps at hnow
      split at hnow <;> cases hnow
      rfl
    have hrow : RepositoryCall.onJob (.tx (.reapExpiredLeases now)) j = j.expire now :=
      onJob_exhausted hx
    have hcols : LeaseColumns (j.expire now) := by
      rw [← hrow]
      exact hall _ (Db.onJob_mem hj)
    exact absurd (hcols.lease.mp (lockedUntil_expire hx)) nofun
  · intro hc j' hj'
    rcases Db.job_of_perform hj' with ⟨j, hj, rfl⟩ | ⟨new, requestId, now, jobId, rfl⟩
    · exact leaseColumns_onJob (h j hj) fun now hnow => hc now hnow j hj
    · exact leaseColumns_idle rfl rfl

/-- What holds of the columns after any history. -/
theorem leaseBasics_onJob (h : LeaseBasics j) : LeaseBasics (c.onJob j) := by
  generalize hnew : c.onJob j = j'
  have hw := lease_write c j
  rw [hnew] at hw
  cases hw with
  | untouched => exact h
  | held hl hs hw =>
      refine leaseBasics_of_columns (leaseColumns_held hl hs hw) fun hq => ?_
      exact absurd (hs.symm.trans hq) (by decide)
  | idle hl hs hw => exact leaseBasics_of_columns (leaseColumns_idle hl hs) fun _ => hw
  | ended hl hs hf =>
      refine leaseBasics_of_columns (leaseColumns_ended hl hs hf) fun hq => ?_
      rw [hq] at hs
      rcases hs with hs | hs | hs <;> cases hs
  | extended hs => exact ⟨fun _ => rfl, fun _ => .inl hs, h.unowned, h.owner, h.finished⟩
  | expired hnow hx => exact ⟨nofun, fun _ => .inr rfl, nofun, nofun, fun _ => rfl⟩

end

/-! ## Histories -/

/-- Every history of calls can be carried out. -/
theorem calls_run (db : Db) (cs : List RepositoryCall) :
    ∃ db', Db.machine.run db cs = some db' := by
  induction cs generalizing db with
  | nil => exact ⟨db, rfl⟩
  | cons c cs ih => exact ih (db.perform c)

theorem leasesFollow_empty : Db.empty.LeasesFollow := fun _ hj => absurd hj List.not_mem_nil

/-- **After any history** a job in progress has its lease, and one that is over its end. -/
theorem leaseBasics_reachable {K : Db → RepositoryCall → Prop} {db : Db}
    (h : Db.machine.ReachableWhere K db) : ∀ j ∈ db.jobs.rows, LeaseBasics j := by
  refine Db.jobs_invariant h (fun new requestId now jobId => ?_) fun _ hj => ?_
  · exact leaseBasics_of_columns (leaseColumns_idle rfl rfl) fun _ => rfl
  · exact leaseBasics_onJob hj

end PromptQueue.Proof
