import PromptQueue.Base.Selection
import PromptQueue.Proof.Replay
import Mathlib.Data.Prod.Lex
import Mathlib.Data.Finset.Max

/-!
# The order of claims

Calls of `claim_next` one after the other, by any workers, with nothing in between: no
row is locked, so each takes a due job that no other precedes. The due jobs are a pool
the claims pick from, and a claimed job is no longer due, which is all there is to it.
-/

namespace PromptQueue

open Base

/-- One call of `claim_next`. -/
structure ClaimCall where
  workerId : WorkerId
  leaseSeconds : Nat
  deriving DecidableEq, Repr

/-- Calls of `claim_next` at one time, what they return, and the database after them. -/
inductive Claims (now : Time) :
    Db → List ClaimCall → List (Option (ProcessingJob × PromptRequest)) → Db → Prop where
  | nil {db : Db} : Claims now db [] [] db
  | cons {db db' : Db} {c : ClaimCall} {calls : List ClaimCall}
      {outs : List (Option (ProcessingJob × PromptRequest))} {pick : Option Nat}
      (hsel : ProcessingJobRepository.Selects db.jobs.rows [] now pick)
      (h : Claims now
        (ProcessingJobRepository.claimNext db c.workerId c.leaseSeconds now pick).1
        calls outs db') :
      Claims now db (c :: calls)
        ((ProcessingJobRepository.claimNext db c.workerId c.leaseSeconds now pick).2 :: outs) db'

/-- A job row before and after it is claimed. -/
structure ClaimedBy (c : ClaimCall) (now : Time) (j j' : ProcessingJob) : Prop where
  status : j'.status = .processing
  workerId : j'.workerId = some c.workerId
  lockedUntil : j'.lockedUntil = some (now + c.leaseSeconds)
  heartbeat : j'.lastHeartbeatAt = some now
  attempts : j'.attemptCount = j.attemptCount + 1
  /-- A job that was started before keeps the time it was. -/
  started : ∀ t, j.startedAt = some t → j'.startedAt = some t
  /-- No other column is set. -/
  others : { j' with
    status := j.status, workerId := j.workerId, lockedUntil := j.lockedUntil
    lastHeartbeatAt := j.lastHeartbeatAt, attemptCount := j.attemptCount
    startedAt := j.startedAt } = j

/-- The jobs a claim may take. -/
def dueJobs (now : Time) (db : Db) : List ProcessingJob :=
  db.jobs.rows.filter fun j => ProcessingJob.Due now j

/--
What a sequence of claims does with the jobs it takes, in `order`: whom each is handed
to, and what becomes of every row, `final`.
-/
structure Handed (now : Time) (db db' : Db) (calls : List ClaimCall)
    (outs : List (Option (ProcessingJob × PromptRequest))) (order : List ProcessingJob)
    (final : ProcessingJob → ProcessingJob) : Prop where
  /-- Every call takes one while there is one. -/
  count : order.length = min calls.length (dueJobs now db).length
  /-- The `i`-th call claims the `i`-th job for its caller, and hands it out with its request. -/
  handed : ∀ (i : Nat) (j : ProcessingJob) (c : ClaimCall), order[i]? = some j →
    calls[i]? = some c → ClaimedBy c now j (final j) ∧
      ∃ q ∈ db.requests.rows, q.id = j.promptRequestId ∧ outs[i]? = some (some (final j, q))
  /-- Then there is nothing left to claim. -/
  nothing : ∀ i : Nat, order.length ≤ i → i < calls.length → outs[i]? = some none
  rows : db'.jobs.rows = db.jobs.rows.map final
  /-- Every other row is unchanged. -/
  untouched : ∀ j ∈ db.jobs.rows, j ∉ order → final j = j
  frame : db'.requests = db.requests ∧ db'.cache = db.cache

/-- The jobs claimed, and their order. -/
structure InOrder (now : Time) (db : Db) (calls : List ClaimCall) (order : List ProcessingJob) :
    Prop where
  /-- Only jobs that were due are claimed, and no job twice. -/
  due : ∀ j ∈ order, j ∈ db.jobs.rows ∧ j.status = .queued ∧ j.scheduledAt ≤ now
  distinct : (order.map (·.id)).Nodup
  /-- They come out by priority, and within a priority by the time they were due. -/
  sorted : order.Pairwise fun j k =>
    j.priority < k.priority ∨ (j.priority = k.priority ∧ j.scheduledAt ≤ k.scheduledAt)
  /-- What was due and is not among them comes after them. -/
  first : ∀ j ∈ order, ∀ k ∈ dueJobs now db, k ∉ order →
    j.priority < k.priority ∨ (j.priority = k.priority ∧ j.scheduledAt ≤ k.scheduledAt)
  /-- With enough calls, all that was due is claimed. -/
  all : (dueJobs now db).length ≤ calls.length → ∀ j ∈ dueJobs now db, j ∈ order

end PromptQueue

namespace PromptQueue.Proof

open PromptQueue Base

variable {now : Time} {db db' : Db} {c : ClaimCall} {j : ProcessingJob}

theorem mem_dueJobs : j ∈ dueJobs now db ↔ j ∈ db.jobs.rows ∧ ProcessingJob.Due now j := by
  unfold dueJobs
  rw [List.mem_filter, decide_eq_true_eq]

theorem claimedBy_claim (c : ClaimCall) (now : Time) (j : ProcessingJob) :
    ClaimedBy c now j (j.claim c.workerId c.leaseSeconds now) where
  status := rfl
  workerId := rfl
  lockedUntil := rfl
  heartbeat := rfl
  attempts := rfl
  started := by
    intro t ht
    simp only [ProcessingJob.claim, ht, Option.some_or]
  others := rfl

/-- A claimed job is no longer due. -/
theorem not_due_claim (s : WorkerId) (leaseSeconds : Nat) (j : ProcessingJob) :
    ¬ ProcessingJob.Due now (j.claim s leaseSeconds now) := fun h => JobStatus.noConfusion h.1

/-! ## One claim -/

/-- The database after a claim of a job. -/
abbrev claimedDb (now : Time) (db : Db) (c : ClaimCall) (j : ProcessingJob) : Db :=
  (ProcessingJobRepository.claimNext db c.workerId c.leaseSeconds now (some j.id)).1

/-- What a claim does to the rows. -/
def claimRow (now : Time) (c : ClaimCall) (j : ProcessingJob) : ProcessingJob → ProcessingJob :=
  (Tx.claimNext c.workerId c.leaseSeconds now (some j.id)).onJob

theorem claimRow_self (hd : ProcessingJob.Due now j) :
    claimRow now c j j = j.claim c.workerId c.leaseSeconds now := by
  unfold claimRow Tx.onJob
  exact Table.updateRow_pos ⟨rfl, hd⟩

theorem claimRow_ne {k : ProcessingJob} (h : k.id ≠ j.id) : claimRow now c j k = k := by
  unfold claimRow Tx.onJob
  exact Table.updateRow_neg fun hp => h (Option.some.inj hp.1)

theorem rows_claimedDb : (claimedDb now db c j).jobs.rows = db.jobs.rows.map (claimRow now c j) :=
  claimNext_rows db c.workerId c.leaseSeconds now (some j.id)

/-- **The pool after a claim** is the pool without the job. -/
theorem due_claimedDb (hj : j ∈ db.jobs.rows) (hd : ProcessingJob.Due now j) :
    (dueJobs now db).Perm (j :: dueJobs now (claimedDb now db c j)) := by
  obtain ⟨l₁, l₂, hl⟩ := List.append_of_mem hj
  have hne : ∀ k ∈ l₁ ++ l₂, k.id ≠ j.id := by
    have hnd : ((l₁ ++ j :: l₂).map (·.id)).Nodup := hl ▸ db.jobs.pk_nodup
    rw [List.map_append, List.map_cons, List.nodup_middle, List.nodup_cons, ← List.map_append]
      at hnd
    exact fun k hk hid => hnd.1 (hid ▸ List.mem_map_of_mem hk)
  -- the claim touches no row but the job's
  have keep : ∀ l : List ProcessingJob, (∀ k ∈ l, k ∈ l₁ ++ l₂) → l.map (claimRow now c j) = l := by
    intro l hsub
    calc l.map (claimRow now c j) = l.map id :=
          List.map_congr_left fun k hk => claimRow_ne (hne k (hsub k hk))
      _ = l := List.map_id l
  have hgone : decide (ProcessingJob.Due now (j.claim c.workerId c.leaseSeconds now)) ≠ true := by
    simpa using not_due_claim c.workerId c.leaseSeconds j
  unfold dueJobs
  rw [rows_claimedDb, hl, List.map_append, List.map_cons, claimRow_self hd,
    keep l₁ fun k hk => List.mem_append_left _ hk, keep l₂ fun k hk => List.mem_append_right _ hk,
    List.filter_append, List.filter_append, List.filter_cons, List.filter_cons,
    if_pos (decide_eq_true hd), if_neg hgone]
  exact List.perm_middle

/-- Without locks, a call that selects no row finds none due. -/
theorem due_of_none (h : ProcessingJobRepository.Selects db.jobs.rows [] now none) :
    dueJobs now db = [] := by
  refine List.filter_eq_nil_iff.mpr fun j hj hd => ?_
  exact absurd (h j hj (of_decide_eq_true hd)) List.not_mem_nil

theorem claimNext_none (db : Db) (s : WorkerId) (leaseSeconds : Nat) (now : Time) :
    ProcessingJobRepository.claimNext db s leaseSeconds now none = (db, none) := by
  unfold ProcessingJobRepository.claimNext
  have hf : (db.jobs.rows.find? fun j => decide (some j.id = none ∧ ProcessingJob.Due now j))
      = none := List.find?_eq_none.mpr fun j _ => by simp
  rw [hf]

/-- There is always a row the query may lock, or none that is due. -/
theorem exists_selects (db : Db) (now : Time) :
    ∃ pick, ProcessingJobRepository.Selects db.jobs.rows [] now pick := by
  cases hdue : dueJobs now db with
  | nil =>
      refine ⟨none, fun j hj hd => ?_⟩
      have hmem : j ∈ dueJobs now db := mem_dueJobs.mpr ⟨hj, hd⟩
      rw [hdue] at hmem
      exact absurd hmem List.not_mem_nil
  | cons k l =>
      have hne : (dueJobs now db).toFinset.Nonempty := by
        rw [hdue]
        exact ⟨k, by simp⟩
      -- the least due job in the order of the query
      obtain ⟨j, hj, hmin⟩ := Finset.exists_min_image (dueJobs now db).toFinset
        (fun j => toLex (j.priority, j.scheduledAt)) hne
      obtain ⟨hj, hd⟩ := mem_dueJobs.mp (List.mem_toFinset.mp hj)
      refine ⟨some j.id, j, hj, rfl, hd, List.not_mem_nil, fun i hi hdi _ => ?_⟩
      exact Prod.Lex.toLex_le_toLex.mp
        (hmin i (List.mem_toFinset.mpr (mem_dueJobs.mpr ⟨hi, hdi⟩)))

/-! ## A run of claims -/

/-- Any sequence of calls can be made. -/
theorem claims_exist (now : Time) (db : Db) (calls : List ClaimCall) :
    ∃ outs db', Claims now db calls outs db' := by
  induction calls generalizing db with
  | nil => exact ⟨[], db, .nil⟩
  | cons c calls ih =>
      obtain ⟨pick, hsel⟩ := exists_selects db now
      obtain ⟨outs, db', h⟩ := ih
        (ProcessingJobRepository.claimNext db c.workerId c.leaseSeconds now pick).1
      exact ⟨_, db', .cons hsel h⟩

/-- A call that finds nothing due takes nothing, and neither do those after it. -/
theorem handed_none {calls : List ClaimCall}
    {outs : List (Option (ProcessingJob × PromptRequest))} {order : List ProcessingJob}
    {final : ProcessingJob → ProcessingJob} (hdue : dueJobs now db = [])
    (h : Handed now db db' calls outs order final) :
    Handed now db db' (c :: calls) (none :: outs) order final := by
  have hnil : order = [] := by
    have hcount := h.count
    rw [hdue] at hcount
    exact List.length_eq_zero_iff.mp (by simpa using hcount)
  refine { h with count := ?_, handed := ?_, nothing := ?_ }
  · rw [hnil, hdue]
    simp
  · intro i j c hj
    rw [hnil] at hj
    cases hj
  · intro i _ hi
    cases i with
    | zero => rfl
    | succ i => exact h.nothing i (by rw [hnil]; exact Nat.zero_le i) (Nat.lt_of_succ_lt_succ hi)

/-- A call that claims a job, and what the calls after it do with the rest of the pool. -/
theorem handed_some {calls : List ClaimCall}
    {outs : List (Option (ProcessingJob × PromptRequest))} {order : List ProcessingJob}
    {final : ProcessingJob → ProcessingJob} (hj : j ∈ db.jobs.rows)
    (hd : ProcessingJob.Due now j)
    (hpicks : ∀ k ∈ order, k ∈ dueJobs now (claimedDb now db c j))
    (h : Handed now (claimedDb now db c j) db' calls outs order final) :
    Handed now db db' (c :: calls)
      ((ProcessingJobRepository.claimNext db c.workerId c.leaseSeconds now (some j.id)).2 :: outs)
      (j :: order) (final ∘ claimRow now c j) := by
  have hframe := claimNext_frame db c.workerId c.leaseSeconds now (some j.id)
  have hlen := (due_claimedDb (c := c) hj hd).length_eq
  -- the claimed row stays as it is
  have hself : (final ∘ claimRow now c j) j = j.claim c.workerId c.leaseSeconds now := by
    have hmem : j.claim c.workerId c.leaseSeconds now ∈ (claimedDb now db c j).jobs.rows := by
      rw [rows_claimedDb, ← claimRow_self hd]
      exact List.mem_map_of_mem hj
    rw [Function.comp_apply, claimRow_self hd]
    refine h.untouched _ hmem fun hin => ?_
    exact not_due_claim _ _ j (mem_dueJobs.mp (hpicks _ hin)).2
  -- a job claimed later is another row
  have hother : ∀ k ∈ order, claimRow now c j k = k := by
    intro k hk
    refine claimRow_ne fun hid => ?_
    obtain ⟨hmem, hdk⟩ := mem_dueJobs.mp (hpicks k hk)
    rw [rows_claimedDb] at hmem
    obtain ⟨i, hi, rfl⟩ := List.mem_map.mp hmem
    have hii : i.id = j.id := (congrArg (·.1) (Tx.onJob_static _ i)).symm.trans hid
    rw [Db.job_eq_of_id hi hj hii, claimRow_self hd] at hdk
    exact not_due_claim _ _ j hdk
  refine ⟨?_, ?_, ?_, ?_, ?_, h.frame.1.trans hframe.1, h.frame.2.trans hframe.2⟩
  · have hcount := h.count
    simp only [List.length_cons] at hlen ⊢
    omega
  · intro i k d hk hcall
    cases i with
    | zero =>
        cases hk
        cases hcall
        rw [hself]
        obtain ⟨q, hout⟩ := claimNext_due (w := c.workerId) (l := c.leaseSeconds) hj rfl hd
        obtain ⟨i, hi, hp, -, -, hq, hid⟩ := claimNext_some hout
        rw [Db.job_eq_of_id hi hj (Option.some.inj hp)] at hid
        exact ⟨claimedBy_claim c now j, q, hq, hid, congrArg some hout⟩
    | succ i =>
        have hmem : k ∈ order := List.mem_of_getElem? hk
        obtain ⟨hby, q, hq, hid, hout⟩ := h.handed i k d hk hcall
        rw [Function.comp_apply, hother k hmem]
        exact ⟨hby, q, hframe.1 ▸ hq, hid, hout⟩
  · intro i hle hi
    cases i with
    | zero => exact absurd hle (Nat.not_succ_le_zero _)
    | succ i => exact h.nothing i (Nat.le_of_succ_le_succ hle) (Nat.lt_of_succ_lt_succ hi)
  · rw [h.rows, rows_claimedDb, List.map_map]
  · intro k hk hn
    have hne : k.id ≠ j.id := fun hid => hn (Db.job_eq_of_id hk hj hid ▸ List.mem_cons_self)
    rw [Function.comp_apply, claimRow_ne hne]
    refine h.untouched k ?_ fun hin => hn (List.mem_cons_of_mem j hin)
    rw [rows_claimedDb]
    exact List.mem_map.mpr ⟨k, hk, claimRow_ne hne⟩

/-- **Claims pick from the jobs that are due.** -/
theorem claims_pick {calls : List ClaimCall}
    {outs : List (Option (ProcessingJob × PromptRequest))} (h : Claims now db calls outs db') :
    ∃ order final,
      Picks ProcessingJob.NotAfter (dueJobs now db) order (dueJobs now db') ∧
        Handed now db db' calls outs order final := by
  induction h with
  | nil =>
      refine ⟨[], id, .nil, ?_, ?_, ?_, (List.map_id _).symm, fun _ _ _ => rfl, rfl, rfl⟩
      · simp
      · intro i j c hj
        cases hj
      · intro i _ hi
        cases hi
  | @cons db db' c calls outs pick hsel h ih =>
      obtain ⟨order, final, hpicks, hh⟩ := ih
      cases pick with
      | none =>
          have hdue := due_of_none hsel
          rw [claimNext_none] at hpicks hh ⊢
          exact ⟨order, final, hpicks, handed_none hdue hh⟩
      | some i =>
          obtain ⟨j, hj, rfl, hd, -, hfirst⟩ := hsel
          have hperm := due_claimedDb (c := c) hj hd
          refine ⟨j :: order, _, .cons hperm (fun k hk => ?_) hpicks,
            handed_some hj hd (fun k hk => hpicks.mem_iff.mpr (.inl hk)) hh⟩
          obtain ⟨hk, hdk⟩ := mem_dueJobs.mp (hperm.mem_iff.mpr (List.mem_cons_of_mem j hk))
          exact hfirst k hk hdk List.not_mem_nil

/--
**Claims come out in order.** Whoever makes them, the calls of `claim_next` at a time
take the jobs that are due then, each once, by priority and then by the time they were
due, until there is none left.
-/
theorem claims_in_order {calls : List ClaimCall}
    {outs : List (Option (ProcessingJob × PromptRequest))} (h : Claims now db calls outs db') :
    ∃ order final, InOrder now db calls order ∧ Handed now db db' calls outs order final := by
  obtain ⟨order, final, hpicks, hh⟩ := claims_pick h
  refine ⟨order, final, ⟨?_, ?_, hpicks.sorted, ?_, ?_⟩, hh⟩
  · intro j hj
    obtain ⟨hrow, hd⟩ := mem_dueJobs.mp (hpicks.mem_iff.mpr (.inl hj))
    exact ⟨hrow, hd.1, hd.2⟩
  · have hnd : ((dueJobs now db).map (·.id)).Nodup :=
      db.jobs.pk_nodup.sublist (List.filter_sublist.map _)
    rw [(hpicks.perm.map _).nodup_iff, List.map_append] at hnd
    exact (List.nodup_append.mp hnd).1
  · intro j hj k hk hn
    rcases hpicks.mem_iff.mp hk with hk | hk
    · exact absurd hk hn
    · exact hpicks.before j hj k hk
  · intro hle j hj
    have hlen := hpicks.length
    have hcount := hh.count
    have hrest : dueJobs now db' = [] := List.length_eq_zero_iff.mp (by omega)
    rw [hrest] at hpicks
    exact (hpicks.mem_iff.mp hj).resolve_right List.not_mem_nil

/-- Two jobs that are due, the second of high priority, and one that is not due yet. -/
def threeJobs : Db :=
  let request (id : Nat) (promptId : String) : PromptRequest :=
    (PromptProcessor.newRequest deployment ⟨"u", promptId, "a", "normal"⟩).requestRow 0 id
  let job (id priority : Nat) (due : Time) : ProcessingJob :=
    { (PromptProcessor.newRequest deployment ⟨"u", "p", "a", "normal"⟩).jobRow id 0 id with
      priority := priority, scheduledAt := due }
  { requests := ⟨[request 1 "p", request 2 "q", request 3 "r"], 4, by decide, by decide, by decide⟩
    jobs := ⟨[job 1 2 0, job 2 1 0, job 3 1 9], 4, by decide, by decide, by decide⟩
    cache := Table.empty
    fk := by decide }

/-- Two workers call three times: two of the three jobs come out. -/
theorem claims_in_order_three : ∃ outs db' order final,
    Claims 1 threeJobs [⟨0, 15⟩, ⟨1, 15⟩, ⟨0, 15⟩] outs db' ∧
      InOrder 1 threeJobs [⟨0, 15⟩, ⟨1, 15⟩, ⟨0, 15⟩] order ∧
      Handed 1 threeJobs db' [⟨0, 15⟩, ⟨1, 15⟩, ⟨0, 15⟩] outs order final ∧ order.length = 2 := by
  obtain ⟨outs, db', h⟩ := claims_exist 1 threeJobs [⟨0, 15⟩, ⟨1, 15⟩, ⟨0, 15⟩]
  obtain ⟨order, final, hin, hh⟩ := claims_in_order h
  exact ⟨outs, db', order, final, h, hin, hh, hh.count.trans (by decide +kernel)⟩

end PromptQueue.Proof
