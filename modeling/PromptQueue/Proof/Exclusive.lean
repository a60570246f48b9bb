import PromptQueue.Base.Lease
import PromptQueue.Proof.Replay

/-!
# Nobody else gets a leased job

The history says what happened to the lease of a job: `Entry.leaseOp` reads each
entry as an operation on it, and `leaseOf` runs them. The row of the job has to
agree with that at all times, which is `Reads`: a queued row means a free lease, a
row in progress names the owner and, in `locked_until`, when it was last heard of.

With that the law about two successive claims is the law of the lease library, read
back into the history.
-/

namespace PromptQueue

open Base

/-- What an entry does to the lease of a job, given the job's request. -/
def Entry.leaseOp (job req : Nat) : Entry → Option (LeaseOp WorkerId Time)
  | .tx _ (.claimNext s _ now _) (.claimed (some (j, _))) =>
      if j.id = job then some (.grant s now) else none
  | .tx _ (.extendLease i s _ now) (.updated true) =>
      if i = job then some (.renew s now) else none
  | .tx _ (.releaseLease i s _ _) (.updated true) => if i = job then some (.release s) else none
  | .tx _ (.resetJob q _) _ => if q = req then some .revoke else none
  | .tx _ (.reapExpiredLeases now) _ => some (.expire now)
  | _ => none

/-- A successful claim of a job. -/
def Entry.grants (job : Nat) : Entry → Bool
  | .tx _ (.claimNext _ _ _ _) (.claimed (some (j, _))) => j.id = job
  | _ => false

/-- The slot a claim handed a job to, the time it was stamped with, and the job. -/
def Entry.handed : Entry → Option (WorkerId × Time × ProcessingJob)
  | .tx _ (.claimNext s _ now _) (.claimed (some (j, _))) => some (s, now, j)
  | _ => none

/-- The lease a transaction asks for. -/
def Tx.lease : Tx → Option Nat
  | .claimNext _ l _ _ | .extendLease _ _ l _ => some l
  | _ => none

variable {S : Type} [LinearOrder S] (env : Env S)

/-- A worker last heard of at `t` is overdue at `now`. -/
def Overdue (t now : Time) : Prop := t + env.leaseSeconds < now

instance (t now : Time) : Decidable (Overdue env t now) := inferInstanceAs (Decidable (_ < _))

/-- The lease of a job, by the history. -/
def leaseOf (log : List Entry) (job req : Nat) : Lease.Cell WorkerId Time :=
  Lease.run (Overdue env) none (log.filterMap (Entry.leaseOp job req))

/-- The time of a claim, or of the slot's last successful `extend_lease` of the job after it. -/
def lastBeat (job : Nat) (s : WorkerId) (claimed : Time) (log : List Entry) : Time :=
  log.foldl (fun t x =>
    match x with
    | .tx _ (.extendLease i s' _ now) (.updated true) => if i = job ∧ s' = s then now else t
    | _ => t) claimed

/-- The slot `s`, which claimed a job at `t`, gave it up, was reset, or was late for the reaper. -/
def Vacated (job req : Nat) (s : WorkerId) (t : Time) (log : List Entry) : Prop :=
  (∃ wait now, Entry.tx (.slot s) (.releaseLease job s wait now) (.updated true) ∈ log) ∨
    (∃ c now res, Entry.tx (.call c) (.resetJob req now) res ∈ log) ∨
    ∃ a now res b, log = a ++ Entry.tx .reaper (.reapExpiredLeases now) res :: b ∧
      lastBeat job s t a + env.leaseSeconds < now

/--
What a claim is worth: the job is claimed again only after the claim was vacated,
and until it is vacated nobody else has the job.
-/
def Exclusive (w : World) : Prop :=
  ∀ pre x rest s t j, w.log = pre ++ x :: rest → x.handed = some (s, t, j) →
    (∀ mid y post, rest = mid ++ y :: post → y.grants j.id = true →
      (∀ z ∈ mid, z.grants j.id = false) → Vacated env j.id j.promptRequestId s t mid) ∧
    (¬ Vacated env j.id j.promptRequestId s t rest →
      (∀ z ∈ rest, z.grants j.id = false) ∧
        ∀ i ∈ w.db.jobs.rows, i.id = j.id → i.workerId = some s)

end PromptQueue

namespace PromptQueue.Proof

open PromptQueue Base World

variable {S : Type} [LinearOrder S] {env : Env S} {w w' : World} {e : Event}
variable {H : World → Event → Prop}

/-! ## Rows and leases -/

/-- The row says what the lease is. -/
structure Reads (env : Env S) (j : ProcessingJob) (c : Lease.Cell WorkerId Time) : Prop where
  /-- A queued job is free. -/
  queued : j.status = .queued → c = none
  /-- A job in progress is held, and expires with its lease. -/
  leased : j.status = .processing → ∃ s t, c = some (s, t) ∧ j.workerId = some s ∧
    j.lockedUntil = some (t + env.leaseSeconds)
  /-- Whoever holds the lease is named. -/
  named : ∀ s t, c = some (s, t) → j.workerId = some s

theorem reads_free {j : ProcessingJob} (h : j.status ≠ .processing) : Reads env j none where
  queued := fun _ => rfl
  leased := fun hp => absurd hp h
  named := fun s t hc => by cases hc

theorem reads_claim (j : ProcessingJob) (s : WorkerId) (now : Time) :
    Reads env (j.claim s env.leaseSeconds now) (some (s, now)) where
  queued := fun hq => by cases hq
  leased := fun _ => ⟨s, now, rfl, rfl, rfl⟩
  named := fun s' t hc => by cases hc; rfl

theorem reads_extend {i : Nat} {s : WorkerId} {j : ProcessingJob} {now : Time}
    {c : Lease.Cell WorkerId Time} (hh : ProcessingJob.HeldBy i s j) (hr : Reads env j c) :
    Reads env (j.extend env.leaseSeconds now) (Lease.step (Overdue env) c (.renew s now)) := by
  obtain ⟨s', t, rfl, hw, -⟩ := hr.leased hh.2.2
  have hs : s' = s := Option.some.inj (hw.symm.trans hh.2.1)
  have hstep : Lease.step (Overdue env) (some (s', t)) (.renew s now) = some (s, now) := by
    simp [Lease.step, hs]
  rw [hstep]
  refine ⟨fun hq => ?_, fun _ => ⟨s, now, rfl, hh.2.1, rfl⟩, fun s₁ t₁ hc => ?_⟩
  · exact JobStatus.noConfusion (hh.2.2.symm.trans hq)
  · cases hc; exact hh.2.1

theorem reads_release {i : Nat} {s : WorkerId} {j : ProcessingJob} {due : Time}
    {c : Lease.Cell WorkerId Time} (ho : ProcessingJob.OwnedBy i s j) (hr : Reads env j c) :
    Reads env (j.release due) (Lease.step (Overdue env) c (.release s)) := by
  have hfree : Lease.step (Overdue env) c (.release s) = none := by
    cases hc : c with
    | none => rfl
    | some p =>
        have hs : p.1 = s := Option.some.inj ((hr.named p.1 p.2 hc).symm.trans ho.2)
        simp [Lease.step, hs]
  rw [hfree]
  exact reads_free JobStatus.noConfusion

/-- A row taken out of circulation keeps naming the owner. -/
theorem reads_closed {j j' : ProcessingJob} {c : Lease.Cell WorkerId Time} (hr : Reads env j c)
    (hw : j'.workerId = j.workerId) (hq : j'.status ≠ .queued) (hp : j'.status ≠ .processing) :
    Reads env j' c where
  queued := fun h => absurd h hq
  leased := fun h => absurd h hp
  named := fun s t hc => hw.trans (hr.named s t hc)

/-- The reaper takes the leases that are overdue, and no other. -/
theorem reads_reap {j : ProcessingJob} {c : Lease.Cell WorkerId Time} (now : Time)
    (hr : Reads env j c) : Reads env ((Tx.reapExpiredLeases now).onJob j)
      (Lease.step (Overdue env) c (.expire now)) := by
  by_cases hx : ProcessingJob.Expired now j
  · obtain ⟨s, t, rfl, hw, hl⟩ := hr.leased hx.1
    have hlate : Overdue env t now := by
      have := hx.2
      simpa [Overdue, ProcessingJob.leaseExpired, hl] using this
    have hfree : Lease.step (Overdue env) (some (s, t)) (.expire now) = none := by
      simp [Lease.step, hlate]
    rw [hfree]
    rcases onJob_expired hx with hj | hj <;> (rw [hj]; exact reads_free JobStatus.noConfusion)
  · rw [onJob_unexpired hx]
    by_cases hp : j.status = .processing
    · obtain ⟨s, t, rfl, hw, hl⟩ := hr.leased hp
      have hlate : ¬ Overdue env t now := fun hlate => hx ⟨hp, by
        simpa [Overdue, ProcessingJob.leaseExpired, hl] using hlate⟩
      have hkeep : Lease.step (Overdue env) (some (s, t)) (.expire now) = some (s, t) := by
        simp [Lease.step, hlate]
      rw [hkeep]; exact hr
    · refine ⟨fun hq => ?_, fun h => absurd h hp, fun s t hc => ?_⟩
      · rw [hr.queued hq]; rfl
      · exact hr.named s t (Option.filter_eq_some_iff.mp hc).1

/-! ## One transaction -/

/-- Claims and heartbeats both ask for `lease_seconds`. -/
theorem lease_of_issued {who : Proc} {t : Tx} (h : w.issued env e = some (who, t)) {l : Nat}
    (hl : t.lease = some l) : l = env.leaseSeconds := by
  cases issues_of_issued h with
  | claim => cases hl; rfl
  | heartbeat hs => cases hl; rfl
  | reap => cases hl
  | call hc hk => cases PromptProcessor.turn_iff.mp hk <;> cases hl
  | pipeline hs hr =>
      obtain ⟨x, -, hturn⟩ := PromptPipeline.turn_of_call w.db hr
      cases hturn <;> cases hl

/-- An `UPDATE` of one job that found a row, but not this one, was for another job. -/
theorem other_job {db : Db} {p : ProcessingJob → Prop} [DecidablePred p] {i : Nat}
    {j : ProcessingJob} (hp : ∀ k, p k → k.id = i) (hhit : db.jobs.hits p = true)
    (hj : j ∈ db.jobs.rows) (hn : ¬ p j) : i ≠ j.id := by
  obtain ⟨k, hk, hkp⟩ := Table.hits_iff.mp hhit
  intro he
  have hkj : k = j := Db.job_eq_of_id hk hj ((hp k hkp).trans he)
  exact hn (hkj ▸ hkp)

/-- The lease after an entry. -/
def leaseAfter (env : Env S) (c : Lease.Cell WorkerId Time) (x : Entry) (job req : Nat) :
    Lease.Cell WorkerId Time :=
  Lease.run (Overdue env) c (x.leaseOp job req).toList

theorem leaseAfter_none {c : Lease.Cell WorkerId Time} {x : Entry} {job req : Nat}
    (h : x.leaseOp job req = none) : leaseAfter env c x job req = c := by
  unfold leaseAfter; rw [h]; rfl

theorem leaseAfter_some {c : Lease.Cell WorkerId Time} {x : Entry} {job req : Nat}
    (op : LeaseOp WorkerId Time) (h : x.leaseOp job req = some op) :
    leaseAfter env c x job req = Lease.step (Overdue env) c op := by
  unfold leaseAfter; rw [h]; rfl

/-- A claim, read as an operation on the lease of a row. -/
theorem claim_leaseOp (who : Proc) (s : WorkerId) (l : Nat) (now : Time) (pick : Option Nat)
    {j : ProcessingJob} (hj : j ∈ w.db.jobs.rows) :
    (Entry.tx who (.claimNext s l now pick) (w.db.exec (.claimNext s l now pick)).2).leaseOp
      j.id j.promptRequestId
        = if some j.id = pick ∧ ProcessingJob.Due now j then some (.grant s now) else none := by
  split
  · rename_i hp
    obtain ⟨q, hres⟩ := claimNext_due (w := s) (l := l) hj hp.1 hp.2
    simp [Db.exec, hres, Entry.leaseOp, ProcessingJob.claim]
  · rename_i hp
    cases hres : (ProcessingJobRepository.claimNext w.db s l now pick).2 with
    | none => simp [Db.exec, hres, Entry.leaseOp]
    | some p =>
        obtain ⟨i, q⟩ := p
        obtain ⟨k, hk, hkp, hd, rfl, -, -⟩ := claimNext_some hres
        have hne : k.id ≠ j.id := by
          intro he
          rw [Db.job_eq_of_id hk hj he] at hkp hd
          exact hp ⟨hkp, hd⟩
        simp [Db.exec, hres, Entry.leaseOp, ProcessingJob.claim, hne]

/-- A heartbeat, read the same way. -/
theorem extend_leaseOp (who : Proc) (i : Nat) (s : WorkerId) (l : Nat) (now : Time)
    {j : ProcessingJob} (hj : j ∈ w.db.jobs.rows) :
    (Entry.tx who (.extendLease i s l now) (w.db.exec (.extendLease i s l now)).2).leaseOp
      j.id j.promptRequestId
        = if ProcessingJob.HeldBy i s j then some (.renew s now) else none := by
  split
  · rename_i hh
    have hhit : w.db.jobs.hits (ProcessingJob.HeldBy i s) = true := Table.hits_iff.mpr ⟨j, hj, hh⟩
    simp [Db.exec, ProcessingJobRepository.extendLease, hhit, Entry.leaseOp, hh.1]
  · rename_i hn
    cases hhit : w.db.jobs.hits (ProcessingJob.HeldBy i s) with
    | false => simp [Db.exec, ProcessingJobRepository.extendLease, hhit, Entry.leaseOp]
    | true =>
        have hne : i ≠ j.id := other_job (fun k hk => hk.1) hhit hj hn
        simp [Db.exec, ProcessingJobRepository.extendLease, hhit, Entry.leaseOp, hne]

/-- A release, read the same way. -/
theorem release_leaseOp (who : Proc) (i : Nat) (s : WorkerId) (wait : Rat) (now : Time)
    {j : ProcessingJob} (hj : j ∈ w.db.jobs.rows) :
    (Entry.tx who (.releaseLease i s wait now) (w.db.exec (.releaseLease i s wait now)).2).leaseOp
      j.id j.promptRequestId
        = if ProcessingJob.OwnedBy i s j then some (.release s) else none := by
  split
  · rename_i ho
    have hhit : w.db.jobs.hits (ProcessingJob.OwnedBy i s) = true := Table.hits_iff.mpr ⟨j, hj, ho⟩
    simp [Db.exec, ProcessingJobRepository.releaseLease, hhit, Entry.leaseOp, ho.1]
  · rename_i hn
    cases hhit : w.db.jobs.hits (ProcessingJob.OwnedBy i s) with
    | false => simp [Db.exec, ProcessingJobRepository.releaseLease, hhit, Entry.leaseOp]
    | true =>
        have hne : i ≠ j.id := other_job (fun k hk => hk.1) hhit hj hn
        simp [Db.exec, ProcessingJobRepository.releaseLease, hhit, Entry.leaseOp, hne]

/-- **A transaction does to the row what its entry does to the lease.** -/
theorem reads_tx {who : Proc} {t : Tx} {j : ProcessingJob} {c : Lease.Cell WorkerId Time}
    (hi : w.issued env e = some (who, t)) (hj : j ∈ w.db.jobs.rows) (hr : Reads env j c) :
    Reads env (t.onJob j)
      (leaseAfter env c (.tx who t (w.db.exec t).2) j.id j.promptRequestId) := by
  cases t with
  | claimNext s l now pick =>
      obtain rfl := lease_of_issued hi rfl
      have hop := claim_leaseOp who s env.leaseSeconds now pick hj
      by_cases hp : some j.id = pick ∧ ProcessingJob.Due now j
      · rw [if_pos hp] at hop
        rw [leaseAfter_some _ hop, Tx.onJob, Table.updateRow, if_pos hp]
        exact reads_claim j s now
      · rw [if_neg hp] at hop
        rw [leaseAfter_none hop, Tx.onJob, Table.updateRow, if_neg hp]
        exact hr
  | extendLease i s l now =>
      obtain rfl := lease_of_issued hi rfl
      have hop := extend_leaseOp who i s env.leaseSeconds now hj
      by_cases hh : ProcessingJob.HeldBy i s j
      · rw [if_pos hh] at hop
        rw [leaseAfter_some _ hop, Tx.onJob, Table.updateRow_pos hh]
        exact reads_extend hh hr
      · rw [if_neg hh] at hop
        rw [leaseAfter_none hop, Tx.onJob, Table.updateRow_neg hh]
        exact hr
  | releaseLease i s wait now =>
      have hop := release_leaseOp who i s wait now hj
      by_cases ho : ProcessingJob.OwnedBy i s j
      · rw [if_pos ho] at hop
        rw [leaseAfter_some _ hop, Tx.onJob, Table.updateRow_pos ho]
        exact reads_release ho hr
      · rw [if_neg ho] at hop
        rw [leaseAfter_none hop, Tx.onJob, Table.updateRow_neg ho]
        exact hr
  | resetJob q now =>
      rw [Tx.onJob, Table.updateRow]
      by_cases hq : j.promptRequestId = q
      · rw [if_pos hq, leaseAfter_some .revoke (by exact if_pos hq.symm)]
        exact reads_free (by intro h; cases h)
      · rw [if_neg hq, leaseAfter_none (by exact if_neg (Ne.symm hq))]
        exact hr
  | reapExpiredLeases now =>
      rw [leaseAfter_some (.expire now) rfl]
      exact reads_reap now hr
  | jobMarkCompleted i now =>
      -- the row is closed and `worker_id` stays, which is all that is asked of a closed row
      rw [leaseAfter_none rfl, Tx.onJob, Table.updateRow]
      split
      · exact reads_closed hr rfl (by intro h; cases h) (by intro h; cases h)
      · exact hr
  | markDead i error now =>
      rw [leaseAfter_none rfl, Tx.onJob, Table.updateRow]
      split
      · exact reads_closed hr rfl (by intro h; cases h) (by intro h; cases h)
      · exact hr
  | _ =>
      rw [leaseAfter_none rfl]
      exact hr

/-! ## The invariant -/

/-- What the history of leases and the tables say about each other. -/
structure LeaseView (env : Env S) (w : World) : Prop where
  /-- Every row says what its lease is. -/
  reads : ∀ {j}, j ∈ w.db.jobs.rows →
    Reads env j (leaseOf env w.log j.id j.promptRequestId)
  /-- What was claimed is still there. -/
  known : ∀ {who t j q}, Entry.tx who t (.claimed (some (j, q))) ∈ w.log →
    ∃ i ∈ w.db.jobs.rows, i.static = j.static
  /-- What was claimed was free. -/
  free : ∀ {a who t j q b}, w.log = a ++ Entry.tx who t (.claimed (some (j, q))) :: b →
    leaseOf env a j.id j.promptRequestId = none
  /-- Leases are released by the slots they were granted to. -/
  releaser : ∀ {who i s wait now res},
    Entry.tx who (.releaseLease i s wait now) res ∈ w.log → who = .slot s
  /-- Jobs are reset by clients. -/
  resetter : ∀ {who q now res}, Entry.tx who (.resetJob q now) res ∈ w.log → ∃ c, who = .call c
  /-- Leases expire by the reaper. -/
  reaper : ∀ {who now res}, Entry.tx who (.reapExpiredLeases now) res ∈ w.log → who = .reaper

theorem leaseView_init : LeaseView env World.init where
  reads := nofun
  known := nofun
  free := by intro a who t j q b h; cases a <;> cases h
  releaser := nofun
  resetter := nofun
  reaper := nofun

theorem leaseOf_append (log es : List Entry) (job req : Nat) :
    leaseOf env (log ++ es) job req
      = Lease.run (Overdue env) (leaseOf env log job req)
          (es.filterMap (Entry.leaseOp job req)) := by
  unfold leaseOf
  rw [List.filterMap_append, Lease.run_append]

/-- Only a claim grants a lease. -/
theorem grants_of_leaseOp {x : Entry} {job req : Nat} {op : LeaseOp WorkerId Time}
    (h : x.leaseOp job req = some op) (hg : x.grants job = false) : op.isGrant = false := by
  unfold Entry.leaseOp at h
  split at h
  · split at h
    · rename_i hid
      simp [Entry.grants, hid] at hg
    · cases h
  all_goals first
    | (split at h <;> cases h <;> rfl)
    | (cases h; rfl)
    | cases h

theorem leaseOf_ungranted {log : List Entry} {job : Nat} (req : Nat)
    (h : ∀ x ∈ log, x.grants job = false) : leaseOf env log job req = none := by
  refine Lease.run_ungranted _ fun op hop => ?_
  obtain ⟨x, hx, hxo⟩ := List.mem_filterMap.mp hop
  exact grants_of_leaseOp hxo (h x hx)

/-- The leases the reaper takes are told by its transaction; the entries for them add nothing. -/
theorem takes_leaseOp (t : Tx) (job req : Nat) :
    (w.takes t).filterMap (Entry.leaseOp job req) = [] := by
  unfold takes
  split
  · refine List.filterMap_eq_nil_iff.mpr fun x hx => ?_
    obtain ⟨j, -, rfl⟩ := List.mem_map.mp hx
    rfl
  · rfl

/-- What a pipeline thinks leaves its lease alone. -/
theorem thought_leaseOp {r r' : Run} {es : List Entry} (h : Thought env r e r' es) {x : Entry}
    (hx : x ∈ es) (job req : Nat) : x.leaseOp job req = none := by
  cases h <;> simp at hx <;> (rw [hx]; rfl)

/-- **The lease of a row after a move.** -/
theorem leaseOf_move (h : Move env w e w') (job req : Nat) :
    leaseOf env w'.log job req = match w.issued env e with
      | some (who, t) =>
          leaseAfter env (leaseOf env w.log job req) (.tx who t (w.db.exec t).2) job req
      | none => leaseOf env w.log job req := by
  cases hi : w.issued env e with
  | some p =>
      obtain ⟨who, t⟩ := p
      rw [log_issued h hi, leaseOf_append, List.filterMap_cons]
      unfold leaseAfter
      cases hop : Entry.leaseOp job req (.tx who t (w.db.exec t).2) <;>
        simp only [takes_leaseOp, hop, Option.toList]
  | none =>
      obtain ⟨es, hlog, hfresh⟩ := log_cases h
      have hnil : es.filterMap (Entry.leaseOp job req) = [] := by
        refine List.filterMap_eq_nil_iff.mpr fun x hx => ?_
        cases hfresh x hx with
        | tx ht => rw [hi] at ht; cases ht
        | lost hj hx => cases hi
        | notified => rfl
        | thought hs he ht hx => exact thought_leaseOp ht hx job req
      rw [hlog, leaseOf_append, hnil]
      rfl

/-- Only `claim_next` hands out a job, and only one that was due. -/
theorem due_of_claimed {db : Db} {t : Tx} {j : ProcessingJob} {q : PromptRequest}
    (h : (db.exec t).2 = .claimed (some (j, q))) :
    ∃ s l now pick, t = .claimNext s l now pick ∧ ∃ i ∈ db.jobs.rows,
      ProcessingJob.Due now i ∧ j = i.claim s l now := by
  cases t with
  | claimNext s l now pick =>
      obtain ⟨i, hi, -, hd, hj, -, -⟩ := claimNext_some (Res.claimed.inj h)
      exact ⟨s, l, now, pick, rfl, i, hi, hd, hj⟩
  | insertWithJob new now =>
      simp only [Db.exec] at h
      split at h <;> cases h
  | _ => cases h

/-- An entry of a longer history stands in the old part, or comes after all of it. -/
theorem append_split {α : Type} {l m a b : List α} {x : α} (h : l ++ m = a ++ x :: b) :
    (∃ b', l = a ++ x :: b') ∨ ∃ c, a = l ++ c ∧ m = c ++ x :: b := by
  rcases List.append_eq_append_iff.mp h with ⟨c, ha, hm⟩ | ⟨c, hl, hm⟩
  · exact .inr ⟨c, ha, hm⟩
  · cases c with
    | nil => exact .inr ⟨[], by simpa using hl.symm, by simpa using hm.symm⟩
    | cons y c =>
        obtain ⟨rfl, -⟩ := List.cons.inj hm
        exact .inl ⟨c, hl⟩

/-- Where a row of the history that was claimed stood before the move. -/
theorem known_back (h : Move env w e w') (hi : LeaseView env w) {who : Proc} {t : Tx}
    {j : ProcessingJob} {q : PromptRequest}
    (hx : Entry.tx who t (.claimed (some (j, q))) ∈ w'.log) :
    ∃ i ∈ w.db.jobs.rows, i.static = j.static := by
  rcases entry_cases h hx with hx | hf
  · exact hi.known hx
  · generalize hres : Res.claimed (some (j, q)) = res at hf
    cases hf with
    | tx hiss =>
        obtain ⟨s, l, now, pick, -, i, hi', -, rfl⟩ := due_of_claimed hres.symm
        exact ⟨i, hi', rfl⟩
    | thought hs he ht hx => cases ht <;> simp at hx

/-- **One move keeps the view.** -/
theorem leaseView_step (h : Move env w e w') (ht : Tied env w) (hi : LeaseView env w) :
    LeaseView env w' where
  reads := by
    intro j' hj'
    rcases job_origin h hj' with ⟨j, hj, rfl⟩ | ⟨q, hins⟩
    · have hold := hi.reads hj
      rw [jobAfter_id, jobAfter_promptRequestId, leaseOf_move h]
      unfold jobAfter
      cases hiss : w.issued env e with
      | some p => exact reads_tx hiss hj hold
      | none => exact hold
    · -- a job that was just inserted was never claimed
      have hfree : leaseOf env w'.log j'.id j'.promptRequestId = none := by
        refine leaseOf_ungranted _ fun x hx => ?_
        cases hg : x.grants j'.id with
        | false => rfl
        | true =>
            unfold Entry.grants at hg
            split at hg
            · rename_i j q
              have hid : j.id = j'.id := of_decide_eq_true hg
              obtain ⟨i, hi', hs⟩ := known_back h hi hx
              exact absurd ((congrArg (·.1) hs).trans hid) (hins.job_fresh hi')
            · cases hg
      rw [hfree]
      obtain ⟨c, k, now, inTime, -, -, -, -, rfl⟩ := hins.call
      exact reads_free (by intro hp; cases hp)
  known := by
    intro who t j q hx
    obtain ⟨i, hi', hs⟩ := known_back h hi hx
    exact ⟨_, job_goes_on h hi', (jobAfter_static i).trans hs⟩
  free := by
    intro a who t j q b hsplit
    obtain ⟨es, hlog, hfresh⟩ := log_cases h
    rw [hlog] at hsplit
    rcases append_split hsplit with ⟨b', hold⟩ | ⟨c, ha, hnew⟩
    · exact hi.free hold
    · have hf : Fresh env w e (.tx who t (.claimed (some (j, q)))) :=
        hfresh _ (by rw [hnew]; exact List.mem_append_right _ List.mem_cons_self)
      generalize hres : Res.claimed (some (j, q)) = res at hf
      cases hf with
      | thought hs he ht hx => cases ht <;> simp at hx
      | tx hiss =>
          obtain ⟨s, l, now, pick, rfl, i, hi', hd, rfl⟩ := due_of_claimed hres.symm
          -- the claim is all the move adds, so it finds the history as it was
          have hes := log_issued h hiss
          rw [hlog, List.append_cancel_left_eq, hnew] at hes
          have hc : c = [] := by
            have hlen := congrArg List.length hes
            simp [takes] at hlen
            exact List.eq_nil_of_length_eq_zero (by omega)
          rw [ha, hc, List.append_nil]
          exact (hi.reads hi').queued hd.1
  releaser := by
    intro who i s wait now res hx
    rcases entry_cases h hx with hx | hf
    · exact hi.releaser hx
    · cases hf with
      | tx hiss =>
          obtain ⟨s₀, r, top1, -, rfl, hr, -, -, rfl⟩ := release_issuer hiss
          rw [ht.workerId hr]
      | thought hs he ht hx => cases ht <;> simp at hx
  resetter := by
    intro who q now res hx
    rcases entry_cases h hx with hx | hf
    · exact hi.resetter hx
    · cases hf with
      | tx hiss =>
          obtain ⟨c, -, -, -, -, hwho, -⟩ := reset_issuer hiss
          exact ⟨c, hwho⟩
      | thought hs he ht hx => cases ht <;> simp at hx
  reaper := by
    intro who now res hx
    rcases entry_cases h hx with hx | hf
    · exact hi.reaper hx
    · cases hf with
      | tx hiss =>
          obtain rfl := reap_issuer hiss
          cases hiss
          rfl
      | thought hs he ht hx => cases ht <;> simp at hx

/-- **Every reachable world has the view.** -/
theorem leaseView_reachable (h : (machine env).ReachableWhere H w) : LeaseView env w :=
  invariant_of_moves h leaseView_init fun hr hi _ hm => leaseView_step hm (tied_reachable hr) hi

/-! ## Two successive claims -/

/-- What the slot was last heard of is what its lease was last heard of. -/
theorem lastBeat_eq (job req : Nat) (s : WorkerId) (t : Time) (log : List Entry) :
    lastBeat job s t log = Lease.lastHeard s t (log.filterMap (Entry.leaseOp job req)) := by
  unfold lastBeat Lease.lastHeard
  rw [List.foldl_filterMap]
  congr 1
  funext t x
  unfold Entry.leaseOp
  split
  · rename_i i s' l now
    by_cases hi : i = job <;> simp [hi]
  · rename_i hne
    split
    · rename_i op hop
      split
      · rename_i o now
        split at hop
        · split at hop <;> cases hop
        · rename_i who i s' l now'
          exact absurd rfl (hne who i s' l now')
        all_goals first | (split at hop <;> cases hop) | cases hop
      · rfl
    · rfl

/-- Which entry of the history takes a lease. -/
theorem entry_of_takes (hv : LeaseView env w) {x : Entry} (hx : x ∈ w.log) {job req : Nat}
    {s : WorkerId} {t : Time} {op : LeaseOp WorkerId Time} (hop : x.leaseOp job req = some op)
    (ht : Lease.Takes (Overdue env) s t op) :
    (∃ wait now, x = .tx (.slot s) (.releaseLease job s wait now) (.updated true)) ∨
      (∃ c now res, x = .tx (.call c) (.resetJob req now) res) ∨
      ∃ now res, x = .tx .reaper (.reapExpiredLeases now) res ∧ Overdue env t now := by
  unfold Entry.leaseOp at hop
  split at hop
  · split at hop <;> cases hop
    rcases ht with h | h | ⟨now, h, -⟩ <;> cases h
  · split at hop <;> cases hop
    rcases ht with h | h | ⟨now, h, -⟩ <;> cases h
  · rename_i who i s' wait now
    split at hop <;> cases hop
    rename_i hid
    rcases ht with h | h | ⟨now, h, -⟩
    · cases h
      rw [hv.releaser hx, hid]
      exact .inl ⟨wait, now, rfl⟩
    · cases h
    · cases h
  · rename_i who q now res
    split at hop <;> cases hop
    rename_i hq
    obtain ⟨c, rfl⟩ := hv.resetter hx
    rw [hq]
    exact .inr (.inl ⟨c, now, res, rfl⟩)
  · rename_i who now res
    cases hop
    rcases ht with h | h | ⟨now', h, hlate⟩
    · cases h
    · cases h
    · cases h
      rw [hv.reaper hx]
      exact .inr (.inr ⟨now, res, rfl, hlate⟩)
  · cases hop

theorem vacated_append {job req : Nat} {s : WorkerId} {t : Time} {log : List Entry}
    (h : Vacated env job req s t log) (es : List Entry) :
    Vacated env job req s t (log ++ es) := by
  rcases h with ⟨wait, now, hx⟩ | ⟨c, now, res, hx⟩ | ⟨a, now, res, b, rfl, hlate⟩
  · exact .inl ⟨wait, now, List.mem_append_left _ hx⟩
  · exact .inr (.inl ⟨c, now, res, List.mem_append_left _ hx⟩)
  · exact .inr (.inr ⟨a, now, res, b ++ es, by simp, hlate⟩)

/-- A claim leaves the lease with the slot it was made by. -/
theorem leaseOf_claim {pre rest : List Entry} {x : Entry} {s : WorkerId} {t : Time}
    {j : ProcessingJob} (hx : x.handed = some (s, t, j)) (req : Nat) :
    leaseOf env (pre ++ x :: rest) j.id req
      = Lease.run (Overdue env) (some (s, t)) (rest.filterMap (Entry.leaseOp j.id req)) := by
  have hop : x.leaseOp j.id req = some (.grant s t) := by
    unfold Entry.handed at hx
    split at hx <;> cases hx
    simp [Entry.leaseOp]
  rw [leaseOf_append, List.filterMap_cons_some hop, Lease.run_cons]
  rfl

/-- **A lease that is free again was vacated.** -/
theorem vacated_of_free (hv : LeaseView env w) {log : List Entry} (hlog : ∀ x ∈ log, x ∈ w.log)
    {job req : Nat} {s : WorkerId} {t : Time} (hn : ∀ z ∈ log, z.grants job = false)
    (hfree : Lease.run (Overdue env) (some (s, t)) (log.filterMap (Entry.leaseOp job req))
      = none) : Vacated env job req s t log := by
  have hops : ∀ op ∈ log.filterMap (Entry.leaseOp job req), op.isGrant = false := by
    intro op hop
    obtain ⟨x, hx, hxo⟩ := List.mem_filterMap.mp hop
    exact grants_of_leaseOp hxo (hn x hx)
  obtain ⟨a', op, b', hsplit, htakes⟩ := Lease.run_none _ hfree hops
  obtain ⟨a, c, rfl, ha, hc⟩ := List.filterMap_eq_append_iff.mp hsplit
  obtain ⟨a₂, x, b, rfl, ha₂, hx, -⟩ := List.filterMap_eq_cons_iff.mp hc
  -- what lies between the two parts is no operation on the lease
  have hbefore : Lease.lastHeard s t a' = lastBeat job s t (a ++ a₂) := by
    rw [lastBeat_eq job req, List.filterMap_append, ha,
      List.filterMap_eq_nil_iff.mpr ha₂, List.append_nil]
  have hmem : x ∈ a ++ (a₂ ++ x :: b) := by simp
  rcases entry_of_takes hv (hlog x hmem) hx htakes with ⟨wait, now, rfl⟩ | ⟨c, now, res, rfl⟩ |
    ⟨now, res, rfl, hlate⟩
  · exact .inl ⟨wait, now, hmem⟩
  · exact .inr (.inl ⟨c, now, res, hmem⟩)
  · rw [hbefore] at hlate
    exact .inr (.inr ⟨a ++ a₂, now, res, b, by simp, hlate⟩)

/--
**Lease exclusivity.** In every reachable world, whoever moves in whatever order and
whatever the clocks say: between two successive claims of a job the first slot
released it, a client reset it, or the reaper came later than the lease that was
last heard of. A slot none of this happened to still has its job.
-/
theorem lease_exclusive (h : (machine env).Reachable w) : Exclusive env w := by
  have hv : LeaseView env w := leaseView_reachable h
  intro pre x rest s t j hlog hx
  have hrest : ∀ z ∈ rest, z ∈ w.log := by
    intro z hz
    rw [hlog]
    exact List.mem_append_right _ (List.mem_cons_of_mem _ hz)
  obtain ⟨i, hi, hs⟩ : ∃ i ∈ w.db.jobs.rows, i.static = j.static := by
    have hmem : x ∈ w.log := by rw [hlog]; simp
    unfold Entry.handed at hx
    split at hx <;> cases hx
    exact hv.known hmem
  have again : ∀ mid y post, rest = mid ++ y :: post → y.grants j.id = true →
      (∀ z ∈ mid, z.grants j.id = false) → Vacated env j.id j.promptRequestId s t mid := by
    intro mid y post hmid hy hn
    unfold Entry.grants at hy
    split at hy
    · rename_i who s' l now pick j' q
      have hid : j'.id = j.id := of_decide_eq_true hy
      have hmem : Entry.tx who (.claimNext s' l now pick) (.claimed (some (j', q))) ∈ rest := by
        rw [hmid]
        exact List.mem_append_right _ List.mem_cons_self
      obtain ⟨i', hi', hs'⟩ := hv.known (hrest _ hmem)
      have hii : i' = i := Db.job_eq_of_id hi' hi
        ((congrArg (·.1) hs').trans (hid.trans (congrArg (·.1) hs).symm))
      have hreq : j'.promptRequestId = j.promptRequestId :=
        congrArg (·.2.1) (hs'.symm.trans ((congrArg _ hii).trans hs))
      -- the second claim found the lease free, so what lies between vacated it
      rw [hmid, ← List.cons_append, ← List.append_assoc] at hlog
      have hfree := hv.free hlog
      rw [hid, hreq, leaseOf_claim hx] at hfree
      exact vacated_of_free hv (fun z hz => hrest z (by rw [hmid]; simp [hz])) hn hfree
    · cases hy
  refine ⟨again, fun hkept => ?_⟩
  -- the first claim that followed, if there were one, would find the job vacated
  have hn : ∀ z ∈ rest, z.grants j.id = false := by
    cases hf : rest.find? (Entry.grants j.id) with
    | none => exact fun z hz => eq_false_of_ne_true (List.find?_eq_none.mp hf z hz)
    | some y =>
        obtain ⟨hy, mid, post, hmid, hbefore⟩ := List.find?_eq_some_iff_append.mp hf
        have hvac := again mid y post hmid hy fun z hz => by simpa using hbefore z hz
        rw [hmid] at hkept
        exact absurd (vacated_append hvac (y :: post)) hkept
  refine ⟨hn, fun k hk hid => ?_⟩
  have hki : k = i := Db.job_eq_of_id hk hi (hid.trans (congrArg (·.1) hs).symm)
  have hreads := hv.reads hi
  rw [show i.id = j.id from congrArg (·.1) hs, show i.promptRequestId = j.promptRequestId from
    congrArg (·.2.1) hs, hlog, leaseOf_claim hx] at hreads
  have hheld : Lease.run (Overdue env) (some (s, t))
      (rest.filterMap (Entry.leaseOp j.id j.promptRequestId)) ≠ none :=
    fun hfree => hkept (vacated_of_free hv hrest hn hfree)
  have hops : ∀ op ∈ rest.filterMap (Entry.leaseOp j.id j.promptRequestId),
      op.isGrant = false := by
    intro op hop
    obtain ⟨z, hz, hzo⟩ := List.mem_filterMap.mp hop
    exact grants_of_leaseOp hzo (hn z hz)
  obtain ⟨t', ht'⟩ := Lease.run_kept _ hheld hops
  rw [hki]
  exact hreads.named s t' ht'

/-- Two workers, one after the other, with a lost lease in between. -/
theorem lease_exclusive_after_reap : ∃ w, (w.log.filter (Entry.grants 1)).length = 2 ∧
    Exclusive deployment w := by
  obtain ⟨w, -, hw, ht⟩ := Machine.reachable_of_run (m := machine deployment)
    (E := submission 0 "p" "a" ++ [.claim 0 1 [] (some 1), .heartbeat 0 6, .reap 20, .reap 22,
      .claim 1 23 [] (some 1)])
    (p := fun w => decide ((w.log.filter (Entry.grants 1)).length = 2)) (by decide +kernel)
  exact ⟨w, of_decide_eq_true ht, lease_exclusive hw⟩

end PromptQueue.Proof
