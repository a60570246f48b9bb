import PromptQueue.Base.Potential
import PromptQueue.Proof.Attempts
import PromptQueue.Proof.Budget

/-!
# How much work there can be

A job may be handed out again and again: after a retry, a deferral, a lost lease, a release by a
worker it was long taken from. Nothing in the code counts all of these together, and still there
is a bound. Each order of a job, its insertion or a client's reset, pays for `max_attempts`
claims, and each denial of the limiter or of the provider's guard for one more; every other way
back to the queue asks for an attempt that is left. `claims_step` keeps that account, with the
attempts the job rows have left and the deferrals not yet written on one side of it.

Between two claims a slot has a dozen turns to take at most. So the whole fleet's work is bounded
by what it was asked to do, whatever fails and however often.
-/

namespace PromptQueue

/-- The claims a job row still pays for: a queued job will be claimed in any case. -/
def ProcessingJob.chances (j : ProcessingJob) : Nat :=
  if j.status = .queued then max 1 (j.maxAttempts - j.attemptCount)
  else j.maxAttempts - j.attemptCount

/-- The same, for the jobs of some requests only. -/
def ProcessingJob.chancesOf (p : Nat → Bool) (j : ProcessingJob) : Nat :=
  if p j.promptRequestId then j.chances else 0

/-- A deferral the limiter has decided on and the pipeline has yet to write. -/
def Slot.owes (p : Nat → Bool) : Slot → Nat
  | .running r => (r.stage.defers && p r.job.promptRequestId).toNat
  | _ => 0

/-- The turns a slot can take before it asks for its next job. -/
def Slot.turns : Slot → Nat
  | .running r => 12 - r.stage.phase
  | _ => 0

/-- A claim that handed a job out. -/
def Entry.handsOut (p : Nat → Bool) : Entry → Bool
  | .tx _ (.claimNext _ _ _ _) (.claimed (some (j, _))) => p j.promptRequestId
  | _ => false

/-- A job was inserted, or reset for a client. -/
def Entry.orders (p : Nat → Bool) : Entry → Bool
  | .tx _ (.insertWithJob _ _) (.inserted _ j) => p j.promptRequestId
  | .tx _ (.resetJob q _) _ => p q
  | _ => false

/-- The limiter, or the provider's guard, denied a call. -/
def Entry.turnsAway (p : Nat → Bool) : Entry → Bool
  | .limited r => p r.job.promptRequestId
  | _ => false

/-- A claim of a job, or a turn of a pipeline. Heartbeats and empty polls are no work. -/
def Event.works : Event → Bool
  | .claim _ _ _ pick => pick.isSome
  | .pipeline _ _ _ | .dbError _ _ | .limiter _ _ | .llmLimited _ _ _ | .llmCall _
  | .llmReturn _ _ | .llmRaise _ _ | .cancel _ | .abort _ | .next _ => true
  | .submit _ _ | .call _ _ _ | .callCrash _ | .heartbeat _ _ | .crash _ | .reap _ => false

namespace World

/-- The claims the job rows of some requests still pay for. -/
def chances (p : Nat → Bool) (w : World) : Nat :=
  (w.db.jobs.rows.map (ProcessingJob.chancesOf p)).sum

/-- The claims of the jobs of some requests so far. -/
def claimed (p : Nat → Bool) (w : World) : Nat := w.log.countP (Entry.handsOut p)

variable {S : Type} [LinearOrder S] (env : Env S)

/-- The claims that orders and denials have paid for so far. -/
def paid (p : Nat → Bool) (w : World) : Nat :=
  max 1 env.maxJobAttempts * w.log.countP (Entry.orders p) + w.log.countP (Entry.turnsAway p)

end World

end PromptQueue

namespace PromptQueue.Proof

open PromptQueue Base World

variable {S : Type} [LinearOrder S] {env : Env S} {w w' : World} {e : Event}
variable {p : Nat → Bool}

/-! ## Two facts about every job -/

/-- Every job has the limit of the settings. -/
theorem maxAttempts_reachable {H : World → Event → Prop} (h : (machine env).ReachableWhere H w) :
    ∀ j ∈ w.db.jobs.rows, j.maxAttempts = env.maxJobAttempts := by
  refine invariant_of_moves (I := fun w => ∀ j ∈ w.db.jobs.rows,
    j.maxAttempts = env.maxJobAttempts) h (fun j hj => by cases hj) ?_
  intro u v e _ hi _ hm j' hj'
  rcases job_origin hm hj' with ⟨j, hj, rfl⟩ | ⟨q, hins⟩
  · have hst : (u.jobAfter env e j).static = j.static := jobAfter_static j
    exact (congrArg (·.2.2.1) hst).trans (hi j hj)
  · obtain ⟨c, k, now, inTime, -, -, -, -, rfl⟩ := hins.call
    rfl

/-- A pipeline retries only while it may. -/
theorem retrying_reachable {H : World → Event → Prop} (h : (machine env).ReachableWhere H w) :
    ∀ s r, w.slots s = .running r → r.stage.retries = true → r.job.canRetry = true := by
  refine invariant_of_moves (I := fun w => ∀ s r, w.slots s = .running r →
    r.stage.retries = true → r.job.canRetry = true) h (fun s r hr => by cases hr)
    fun _ hi _ hm s r' hr' hst => ?_
  rcases run_cases hm hr' with ⟨r, hr, hrs⟩ | hcl
  · rw [hrs.sameRun.1]
    rcases retries_step hrs hst with hold | hnew
    · exact hi s r hr hold
    · exact hnew
  · rw [hcl.start] at hst
    cases hst

/-- The row a retry gives back has an attempt left. -/
theorem attempt_left (h : (machine env).Reachable w) {s : WorkerId} {r : Run}
    (hr : w.slots s = .running r) (hst : r.stage.retries = true) {j : ProcessingJob}
    (hj : j ∈ w.db.jobs.rows) (ho : ProcessingJob.OwnedBy r.job.id (PromptPipeline.workerId r) j) :
    j.attemptCount < j.maxAttempts := by
  have ht := tied_reachable h
  have hcan : r.job.attemptCount < r.job.maxAttempts :=
    of_decide_eq_true (retrying_reachable h s r hr hst)
  have hmax : j.maxAttempts = r.job.maxAttempts :=
    congrArg (·.2.2.1) (ht.static_of_id hr hj ho.1)
  rw [ProcessingJob.OwnedBy, ht.workerId hr] at ho
  have hatt := ((ownership_reachable h).latest hr hj ho.1 ho.2).2
  omega

/-! ## What the rows pay for -/

theorem chances_le_of_rows {p : Nat → Bool} {j j' : ProcessingJob}
    (hq : j'.promptRequestId = j.promptRequestId) (h : j'.chances ≤ j.chances) :
    j'.chancesOf p ≤ j.chancesOf p := by
  unfold ProcessingJob.chancesOf
  rw [hq]
  split
  · exact h
  · exact Nat.le_refl 0

/-- An update that gives no job another chance, unless it is a call's, or a release of a job
without an attempt left. -/
theorem chances_kept {j j' : ProcessingJob} (h : JobStep env w e j j') (hc : e.caller = none)
    (hrel : ∀ r ∈ w.runOf e, r.stage.releases = true →
      ProcessingJob.OwnedBy r.job.id (PromptPipeline.workerId r) j →
      j.attemptCount < j.maxAttempts) : j'.chances ≤ j.chances := by
  cases h with
  | same => exact Nat.le_refl _
  | claimed hs hp hd =>
      show j.maxAttempts - (j.attemptCount + 1) ≤ j.chances
      rw [ProcessingJob.chances, if_pos hd.1]
      omega
  | extended hs hh => exact Nat.le_refl _
  | released hs hst ho =>
      have hlt := hrel _ (runOf_eq rfl hs) hst ho
      show max 1 (j.maxAttempts - j.attemptCount) ≤ j.chances
      unfold ProcessingJob.chances
      split <;> omega
  | completed hs hst hid =>
      show j.maxAttempts - j.attemptCount ≤ j.chances
      unfold ProcessingJob.chances
      split <;> omega
  | buried hs hst hid =>
      show j.maxAttempts - j.attemptCount ≤ j.chances
      unfold ProcessingJob.chances
      split <;> omega
  | reset hk hst hid => cases hc
  | requeued hr =>
      have hlt := hr.2
      show max 1 (j.maxAttempts - j.attemptCount) ≤ j.chances
      unfold ProcessingJob.chances
      split <;> omega
  | expired hx =>
      show j.maxAttempts - j.attemptCount ≤ j.chances
      unfold ProcessingJob.chances
      split <;> omega

/-- What the rows pay for, after a move that gives none of them another chance. -/
theorem chances_le (h : Move env w e w') (hno : ∀ q j, ¬ Inserted env w e q j)
    (hle : ∀ j ∈ w.db.jobs.rows, (w.jobAfter env e j).chances ≤ j.chances) :
    w'.chances p ≤ w.chances p := by
  rcases jobs_after h with hrows | ⟨q, j, hins, -⟩
  · unfold World.chances
    rw [hrows, List.map_map]
    exact List.sum_le_sum fun j hj => chances_le_of_rows (jobAfter_promptRequestId j) (hle j hj)
  · exact absurd hins (hno q j)

/-- The same, for all rows but one. -/
theorem chances_le_of_others (h : Move env w e w') (hno : ∀ q j, ¬ Inserted env w e q j)
    {j : ProcessingJob} (hj : j ∈ w.db.jobs.rows)
    (hle : ∀ i ∈ w.db.jobs.rows, i ≠ j → (w.jobAfter env e i).chances ≤ i.chances) :
    w'.chances p + j.chancesOf p ≤ w.chances p + (w.jobAfter env e j).chancesOf p := by
  rcases jobs_after h with hrows | ⟨q, j, hins, -⟩
  · unfold World.chances
    rw [hrows, List.map_map]
    exact sum_map_le_of_others (List.Nodup.of_map _ w.db.jobs.pk_nodup) hj fun i hi hne =>
      chances_le_of_rows (jobAfter_promptRequestId i) (hle i hi hne)
  · exact absurd hins (hno q j)

/-- Only a call inserts. -/
theorem not_inserted (hc : e.caller = none) (q : PromptRequest) (j : ProcessingJob) :
    ¬ Inserted env w e q j := by
  intro hins
  obtain ⟨c, k, now, inTime, rfl, -⟩ := hins.call
  cases hc

/-! ## The account of the claims -/

/-- The claims so far, and those that are paid for and to come. -/
def account (F : Finset WorkerId) (p : Nat → Bool) (w : World) : Nat :=
  w.chances p + ∑ s ∈ F, (w.slots s).owes p + w.claimed p

variable {F : Finset WorkerId}

/-- Entries that are neither claims nor payments. -/
theorem unpaid (env : Env S) (p : Nat → Bool) {es : List Entry} (hlog : w'.log = w.log ++ es)
    (hes : ∀ x ∈ es, x.handsOut p = false ∧ x.orders p = false ∧ x.turnsAway p = false) :
    w'.claimed p = w.claimed p ∧ w'.paid env p = w.paid env p := by
  have zero : ∀ f : Entry → Bool, (∀ x ∈ es, f x = false) → es.countP f = 0 := by
    intro f hf
    refine List.countP_eq_zero.mpr fun x hx => ?_
    rw [hf x hx]
    exact Bool.false_ne_true
  unfold World.claimed World.paid
  rw [hlog, List.countP_append, List.countP_append, List.countP_append,
    zero _ fun x hx => (hes x hx).1, zero _ fun x hx => (hes x hx).2.1,
    zero _ fun x hx => (hes x hx).2.2]
  exact ⟨rfl, rfl⟩

/-- One slot in a new state. -/
theorem owes_update {s : WorkerId} {x : Slot} (hs : s ∈ F)
    (hw : w'.slots = Function.update w.slots s x) :
    ∑ i ∈ F, (w'.slots i).owes p + (w.slots s).owes p = ∑ i ∈ F, (w.slots i).owes p + x.owes p := by
  rw [hw]
  exact sum_update hs w.slots x (Slot.owes p)

/-- A reaper's scan. -/
theorem account_reap {now : Time} (h : Move env w (.reap now) w') :
    account F p w' + w.paid env p ≤ account F p w + w'.paid env p := by
  have hch : w'.chances p ≤ w.chances p :=
    chances_le h (not_inserted rfl) fun j _ => chances_kept (job_step h j) rfl fun r hr => by
      cases hr
  obtain ⟨hcl, hpaid⟩ := unpaid env p (log_issued h rfl) (by
    intro x hx
    rcases List.mem_cons.mp hx with rfl | hx
    · exact ⟨rfl, rfl, rfl⟩
    · obtain ⟨j, -, rfl⟩ := List.mem_map.mp hx
      exact ⟨rfl, rfl, rfl⟩)
  have hslots : w'.slots = w.slots := by
    cases h with
    | reap => rfl
    | think hs he ht => cases he
  unfold account
  rw [hcl, hpaid, hslots]
  omega

/-- A claim puts what it was handed into its idle slot. -/
theorem claim_slots {s : WorkerId} {now : Time} {locked : List Nat} {pick : Option Nat}
    (h : Move env w (.claim s now locked pick) w') : w.slots s = .idle ∧
      w'.slots = Function.update w.slots s
        (w.afterClaim (w.db.exec (.claimNext s env.leaseSeconds now pick)).2) := by
  cases h with
  | claim hs hsel => exact ⟨hs, rfl⟩
  | think hs he ht => cases he

/-- A claim: what it takes from the row is one more claim in the history. -/
theorem account_claim {s : WorkerId} {now : Time} {locked : List Nat} {pick : Option Nat}
    (h : Move env w (.claim s now locked pick) w') (hF : s ∈ F) :
    account F p w' + w.paid env p ≤ account F p w + w'.paid env p := by
  have hlog := log_issued h rfl
  obtain ⟨hidle, hslots⟩ := claim_slots h
  have hno : ∀ q j, ¬ Inserted env w (.claim s now locked pick) q j := not_inserted rfl
  have hkept : ∀ j, (w.jobAfter env (.claim s now locked pick) j).chances ≤ j.chances := by
    intro j
    refine chances_kept (job_step h j) rfl fun r hr => ?_
    rw [runOf, Event.slot, Option.bind_some, hidle] at hr
    cases hr
  have howes := owes_update (p := p) hF hslots
  cases hc : (ProcessingJobRepository.claimNext w.db s env.leaseSeconds now pick).2 with
  | none =>
      have hres : (w.db.exec (.claimNext s env.leaseSeconds now pick)).2 = .claimed none := by
        simp only [Db.exec, hc]
      rw [hres] at hlog howes
      have hnone : (w.afterClaim (.claimed none)).owes p = 0 := rfl
      obtain ⟨hcl, hpaid⟩ := unpaid env p hlog (by
        intro x hx
        cases List.mem_singleton.mp hx
        exact ⟨rfl, rfl, rfl⟩)
      have hch := chances_le (p := p) h hno fun j _ => hkept j
      unfold account
      omega
  | some y =>
      obtain ⟨job, req⟩ := y
      obtain ⟨j, hj, hp, hd, rfl, -, -⟩ := claimNext_some hc
      have hres : (w.db.exec (.claimNext s env.leaseSeconds now pick)).2
          = .claimed (some (j.claim s env.leaseSeconds now, req)) := by
        simp only [Db.exec, hc]
      rw [hres] at hlog howes
      have hstart : (w.afterClaim (.claimed (some (j.claim s env.leaseSeconds now, req)))).owes p
          = 0 := rfl
      have hch := chances_le_of_others (p := p) h hno hj fun i _ _ => hkept i
      have hafter : w.jobAfter env (.claim s now locked pick) j
          = j.claim s env.leaseSeconds now := by
        simp only [jobAfter, issued, Tx.onJob]
        exact Table.updateRow_pos ⟨hp, hd⟩
      rw [hafter] at hch
      have hrow : (j.claim s env.leaseSeconds now).chancesOf p
          + (p j.promptRequestId).toNat ≤ j.chancesOf p := by
        show (if p j.promptRequestId then j.maxAttempts - (j.attemptCount + 1) else 0) + _ ≤ _
        rw [ProcessingJob.chancesOf, ProcessingJob.chances, if_pos hd.1]
        cases p j.promptRequestId
        · exact Nat.le_refl 0
        · simp only [if_true, Bool.toNat_true]
          omega
      have hcl : w'.claimed p = w.claimed p + (p j.promptRequestId).toNat := by
        unfold World.claimed
        rw [hlog, List.countP_append]
        show _ + List.countP (Entry.handsOut p) [_] = _
        rw [List.countP_singleton]
        show _ + (if p j.promptRequestId = true then 1 else 0) = _
        cases p j.promptRequestId <;> rfl
      have hpaid : w'.paid env p = w.paid env p := by
        unfold World.paid
        rw [hlog, List.countP_append, List.countP_append]
        rfl
      unfold account
      omega

/-- A pipeline's transaction is a turn of the run in its slot. -/
theorem pipeline_slots {s : WorkerId} {now : Time} {top1 : Option Nat}
    (h : Move env w (.pipeline s now top1) w') : ∃ r t x, w.slots s = .running r ∧
      PromptPipeline.call env r now top1 = some t ∧
      PromptPipeline.Turn env w.db r now top1 t x ∧
      w'.slots = Function.update w.slots s (.running { r with stage := x }) := by
  cases h with
  | @pipeline s r now top1 t hs ht =>
      obtain ⟨x, hx, hturn⟩ := PromptPipeline.turn_of_call w.db ht
      exact ⟨r, t, x, hs, ht, hturn, by rw [← hx]; rfl⟩
  | think hs he ht => cases he

/-- The row a run releases, against what it paid for. -/
theorem chances_released {j : ProcessingJob} {due : Time} :
    (j.release due).chancesOf p ≤ j.chancesOf p + (p j.promptRequestId).toNat := by
  show (if p j.promptRequestId then max 1 (j.maxAttempts - j.attemptCount) else 0) ≤ _
  unfold ProcessingJob.chancesOf ProcessingJob.chances
  cases p j.promptRequestId
  · exact Nat.le_refl 0
  · simp only [if_true, Bool.toNat_true]
    split <;> omega

/-- A pipeline's transaction: a deferral it owed, or nothing the account sees. -/
theorem account_pipeline {s : WorkerId} {now : Time} {top1 : Option Nat}
    (hreach : (machine env).Reachable w) (h : Move env w (.pipeline s now top1) w')
    (hF : s ∈ F) : account F p w' + w.paid env p ≤ account F p w + w'.paid env p := by
  obtain ⟨r, t, x, hr, hcall, hturn, hslots⟩ := pipeline_slots h
  have ht := tied_reachable hreach
  have hno : ∀ q j, ¬ Inserted env w (.pipeline s now top1) q j := not_inserted rfl
  have hlog := log_issued h (issued_pipeline hr hcall)
  obtain ⟨hcl, hpaid⟩ := unpaid env p hlog (by
    intro y hy
    cases hturn <;> (cases List.mem_singleton.mp hy; exact ⟨rfl, rfl, rfl⟩))
  have howes := owes_update (p := p) hF hslots
  have hdone : (Slot.running { r with stage := x }).owes p = 0 := by
    cases hturn <;> rfl
  -- only the row the run owns is released
  have hothers : ∀ j, (r.stage.defers = true → j.id ≠ r.job.id) → j ∈ w.db.jobs.rows →
      (w.jobAfter env (.pipeline s now top1) j).chances ≤ j.chances := by
    intro j hne hj
    refine chances_kept (job_step h j) rfl fun r' hr' hst ho => ?_
    cases Option.some.inj ((runOf_eq rfl hr).symm.trans hr')
    refine attempt_left hreach hr ?_ hj ho
    cases hrs : r.stage with
    | retryRelease exc => rfl
    | deferRelease wait => exact absurd ho.1 (hne (by rw [hrs]; rfl))
    | limitedRelease wait => exact absurd ho.1 (hne (by rw [hrs]; rfl))
    | _ => rw [hrs] at hst; cases hst
  unfold account
  by_cases hd : r.stage.defers = true
  · obtain ⟨j, hj, hstat⟩ := ht.job hr
    have hid : j.id = r.job.id := congrArg (·.1) hstat
    have hreq : j.promptRequestId = r.job.promptRequestId := congrArg (·.2.1) hstat
    have hch := chances_le_of_others (p := p) h hno hj fun i hi hne =>
      hothers i (fun _ hii => hne (Db.job_eq_of_id hi hj (hii.trans hid.symm))) hi
    have hrow : (w.jobAfter env (.pipeline s now top1) j).chancesOf p
        ≤ j.chancesOf p + (p j.promptRequestId).toNat := by
      have hst := job_step h j
      generalize w.jobAfter env (.pipeline s now top1) j = j' at hst
      cases hst with
      | same => omega
      | released hs hst ho => exact chances_released
      | @completed _ _ _ r' _ hs hst hid' =>
          cases Slot.running.inj (hr.symm.trans hs)
          rw [hst] at hd
          cases hd
      | @buried _ _ _ r' _ exc hs hst hid' =>
          cases Slot.running.inj (hr.symm.trans hs)
          rw [hst] at hd
          cases hd
    have howe : (w.slots s).owes p = (p j.promptRequestId).toNat := by
      rw [hr, Slot.owes, hd, Bool.true_and, hreq]
    omega
  · have hch := chances_le (p := p) h hno fun j hj => hothers j (fun hd' => absurd hd' hd) hj
    omega

/-- What the failure handler does with an error that is no denial is no deferral. -/
theorem handleFailure_defers (job : ProcessingJob) {exc : Exc} (h : exc.rateLimitWait = none) :
    (PromptPipeline.handleFailure job exc).defers = false := by
  rcases PromptPipeline.handleFailure_cases job exc with ⟨wait, hw, -⟩ | ⟨-, -, hs⟩ |
    ⟨-, -, -, hs⟩
  · rw [h] at hw
    cases hw
  · rw [hs]
    rfl
  · rw [hs]
    rfl

/-- A pipeline comes to a deferral through a denial, which is recorded. -/
theorem thought_defers {r r' : Run} {es : List Entry} (h : Thought env r e r' es) :
    (r'.stage.defers = true ∧ es = [.limited r]) ∨
      (r'.stage.defers = false ∧ ∀ x ∈ es, x.handsOut p = false ∧ x.orders p = false ∧
        x.turnsAway p = false) := by
  cases h with
  | denied hst => exact .inl ⟨rfl, rfl⟩
  | guarded hst => exact .inl ⟨rfl, rfl⟩
  | dbError hc =>
      refine .inr ⟨?_, fun x hx => by cases hx⟩
      show (PromptPipeline.fail r _).defers = false
      unfold PromptPipeline.fail
      split
      · exact handleFailure_defers r.job rfl
      · rfl
  | granted hst => exact .inr ⟨rfl, fun x hx => by cases hx⟩
  | @unavailable s emb message hst =>
      have hexc : (redisUnavailableError message).rateLimitWait = none := rfl
      refine .inr ⟨handleFailure_defers r.job hexc, fun x hx => ?_⟩
      cases List.mem_singleton.mp hx
      exact ⟨rfl, rfl, rfl⟩
  | called hst =>
      refine .inr ⟨rfl, fun x hx => ?_⟩
      cases List.mem_singleton.mp hx
      exact ⟨rfl, rfl, rfl⟩
  | answered hst =>
      refine .inr ⟨rfl, fun x hx => ?_⟩
      cases List.mem_singleton.mp hx
      exact ⟨rfl, rfl, rfl⟩
  | failed hx hst =>
      refine .inr ⟨handleFailure_defers r.job hx, fun x hx => ?_⟩
      cases List.mem_singleton.mp hx
      exact ⟨rfl, rfl, rfl⟩
  | cancelled hst hl => exact .inr ⟨rfl, fun x hx => by cases hx⟩
  | aborted hst => exact .inr ⟨rfl, fun x hx => by cases hx⟩

/-- A thought: a denial pays for the deferral it leads to. -/
theorem account_thought {s : WorkerId} {r r' : Run} {es : List Entry}
    (hth : Thought env r e r' es) (hF : s ∈ F) (hdb : w'.db = w.db)
    (hslots : w'.slots = Function.update w.slots s (.running r')) (hlog : w'.log = w.log ++ es)
    (hsame : SameRun r r') : account F p w' + w.paid env p ≤ account F p w + w'.paid env p := by
  have howes := owes_update (p := p) hF hslots
  have hch : w'.chances p = w.chances p := by
    unfold World.chances
    rw [hdb]
  unfold account
  rcases thought_defers (p := p) hth with ⟨hd, rfl⟩ | ⟨hd, hes⟩
  · have hnew : (Slot.running r').owes p = (p r.job.promptRequestId).toNat := by
      rw [Slot.owes, hd, Bool.true_and, hsame.1]
    have hcl : w'.claimed p = w.claimed p := by
      unfold World.claimed
      rw [hlog, List.countP_append]
      rfl
    have hpaid : w'.paid env p = w.paid env p + (p r.job.promptRequestId).toNat := by
      unfold World.paid
      have horders : [Entry.limited r].countP (Entry.orders p) = 0 := rfl
      have haway : [Entry.limited r].countP (Entry.turnsAway p)
          = (p r.job.promptRequestId).toNat := by
        rw [List.countP_singleton, Entry.turnsAway]
        cases p r.job.promptRequestId <;> rfl
      rw [hlog, List.countP_append, List.countP_append, horders, haway, Nat.add_zero,
        Nat.add_assoc]
    omega
  · have hnew : (Slot.running r').owes p = 0 := by
      rw [Slot.owes, hd, Bool.false_and]
      rfl
    obtain ⟨hcl, hpaid⟩ := unpaid env p hlog hes
    omega

/-- A call's transaction leaves the slots alone. -/
theorem call_slots {c : Nat} {now : Time} {inTime : Bool}
    (h : Move env w (.call c now inTime) w') : ∃ k t, w.calls c = some k ∧
      PromptProcessor.call env k now = some t ∧ w'.db = (w.db.exec t).1 ∧
      w'.slots = w.slots := by
  cases h with
  | call hc ht => exact ⟨_, _, hc, ht, rfl, rfl⟩
  | think hs he ht => cases he

/-- Where the rows and the slots stay, so does the account, but for what is paid. -/
theorem account_same (hch : w'.chances p = w.chances p) (hslots : w'.slots = w.slots)
    {es : List Entry} (hlog : w'.log = w.log ++ es) (hes : ∀ x ∈ es,
      x.handsOut p = false ∧ x.orders p = false ∧ x.turnsAway p = false) :
    account F p w' + w.paid env p ≤ account F p w + w'.paid env p := by
  obtain ⟨hcl, hpaid⟩ := unpaid env p hlog hes
  unfold account
  rw [hch, hslots, hcl, hpaid]

/-- An order pays for `max_attempts` claims, and one at least. -/
theorem account_order {q : Nat} {x : Entry} (hslots : w'.slots = w.slots)
    (hlog : w'.log = w.log ++ [x]) (hhand : x.handsOut p = false) (haway : x.turnsAway p = false)
    (horder : x.orders p = p q)
    (hch : w'.chances p ≤ w.chances p + if p q then max 1 env.maxJobAttempts else 0) :
    account F p w' + w.paid env p ≤ account F p w + w'.paid env p := by
  have hcl : w'.claimed p = w.claimed p := by
    unfold World.claimed
    rw [hlog, List.countP_append, List.countP_singleton, hhand]
    rfl
  have hpaid : w'.paid env p = w.paid env p + if p q then max 1 env.maxJobAttempts else 0 := by
    unfold World.paid
    rw [hlog, List.countP_append, List.countP_append, List.countP_singleton,
      List.countP_singleton, horder, haway, Nat.mul_add]
    cases p q <;> simp
    omega
  unfold account
  rw [hcl, hpaid, hslots]
  omega

/-- The rows after a reset. -/
theorem chances_reset {c : Nat} {k : Call} {now : Time} {inTime : Bool} {q : PromptRequest}
    (hreach : (machine env).Reachable w) (h : Move env w (.call c now inTime) w')
    (hk : w.calls c = some k) (hst : k.stage = .reenqueueReset q) :
    w'.chances p ≤ w.chances p + if p q.id then max 1 env.maxJobAttempts else 0 := by
  have hno : ∀ r j, ¬ Inserted env w (.call c now inTime) r j := by
    intro r j hins
    obtain ⟨c', k', now', inTime', he, hk', hst', -⟩ := hins.call
    cases he
    cases Option.some.inj (hk.symm.trans hk')
    rw [hst] at hst'
    cases hst'
  have hcall : PromptProcessor.call env k now = some (.resetJob q.id now) :=
    PromptProcessor.turn_iff.mpr (.reset hst)
  have hafter : ∀ j, w.jobAfter env (.call c now inTime) j
      = Table.updateRow (fun i => i.promptRequestId = q.id) (·.reset now) j := by
    intro j
    rw [jobAfter_call hk hcall]
    rfl
  have hother : ∀ j : ProcessingJob, j.promptRequestId ≠ q.id →
      (w.jobAfter env (.call c now inTime) j).chances ≤ j.chances := by
    intro j hne
    rw [hafter, Table.updateRow, if_neg hne]
  by_cases hj : ∃ j ∈ w.db.jobs.rows, j.promptRequestId = q.id
  · obtain ⟨j, hj, hjq⟩ := hj
    have hle := chances_le_of_others (p := p) h hno hj fun i hi hne =>
      hother i fun hiq => hne (Db.job_unique hi hj (hiq.trans hjq.symm))
    have hrow : (w.jobAfter env (.call c now inTime) j).chancesOf p
        = if p q.id then max 1 env.maxJobAttempts else 0 := by
      rw [hafter, Table.updateRow, if_pos hjq]
      show (if p j.promptRequestId then max 1 (j.maxAttempts - 0) else 0) = _
      rw [hjq, maxAttempts_reachable hreach j hj]
      rfl
    omega
  · have hle := chances_le (p := p) h hno fun j hj' => hother j fun hjq => hj ⟨j, hj', hjq⟩
    omega

/-- A call's transaction: an order, or nothing the account sees. -/
theorem account_call {c : Nat} {now : Time} {inTime : Bool}
    (hreach : (machine env).Reachable w) (h : Move env w (.call c now inTime) w') :
    account F p w' + w.paid env p ≤ account F p w + w'.paid env p := by
  obtain ⟨k, t, hk, ht, hdb, hslots⟩ := call_slots h
  have hlog := log_issued h (issued_call hk ht)
  have same : w'.db.jobs = w.db.jobs → w'.chances p = w.chances p := by
    intro hjobs
    unfold World.chances
    rw [hjobs]
  have quiet : ∀ {x : Entry}, x.handsOut p = false ∧ x.orders p = false ∧ x.turnsAway p = false →
      ∀ y ∈ [x], y.handsOut p = false ∧ y.orders p = false ∧ y.turnsAway p = false := by
    intro x hx y hy
    rw [List.mem_singleton.mp hy]
    exact hx
  cases PromptProcessor.turn_iff.mp ht with
  | read hst =>
      exact account_same (same (by rw [hdb]; rfl)) hslots hlog (quiet ⟨rfl, rfl, rfl⟩)
  | depth hst =>
      exact account_same (same (by rw [hdb]; rfl)) hslots hlog (quiet ⟨rfl, rfl, rfl⟩)
  | reenqueue hst =>
      exact account_same (same (by rw [hdb]; rfl)) hslots hlog (quiet ⟨rfl, rfl, rfl⟩)
  | @reset q hst =>
      exact account_order hslots hlog rfl rfl rfl (chances_reset hreach h hk hst)
  | insert hst =>
      cases hins : PromptRequestRepository.insertWithJob w.db
          (PromptProcessor.newRequest env k.args) now with
      | none =>
          have hres : w.db.exec (.insertWithJob (PromptProcessor.newRequest env k.args) now)
              = (w.db, .integrityError) := by
            simp only [Db.exec, hins]
          rw [hres] at hdb hlog
          exact account_same (same (by rw [hdb])) hslots hlog (quiet ⟨rfl, rfl, rfl⟩)
      | some y =>
          obtain ⟨db', r, j⟩ := y
          obtain ⟨-, hjobs, -, -, hj, -⟩ := insertWithJob_some hins
          have hres : w.db.exec (.insertWithJob (PromptProcessor.newRequest env k.args) now)
              = (db', .inserted r j) := by
            simp only [Db.exec, hins]
          rw [hres] at hdb hlog
          refine account_order (q := j.promptRequestId) hslots hlog rfl rfl rfl (le_of_eq ?_)
          unfold World.chances
          rw [hdb, hjobs, List.map_append, List.sum_append]
          show _ + (j.chancesOf p + 0) = _
          rw [hj]
          rfl

/-- A slot that takes up or owes nothing new, in a move that touches no row. -/
theorem account_slot {s : WorkerId} {x : Slot} {es : List Entry} (hF : s ∈ F)
    (hdb : w'.db = w.db) (hslots : w'.slots = Function.update w.slots s x)
    (hx : x.owes p ≤ (w.slots s).owes p) (hlog : w'.log = w.log ++ es) (hes : ∀ x ∈ es,
      x.handsOut p = false ∧ x.orders p = false ∧ x.turnsAway p = false) :
    account F p w' + w.paid env p ≤ account F p w + w'.paid env p := by
  have howes := owes_update (p := p) hF hslots
  obtain ⟨hcl, hpaid⟩ := unpaid env p hlog hes
  have hch : w'.chances p = w.chances p := by
    unfold World.chances
    rw [hdb]
  unfold account
  omega

/-- A heartbeat leaves its run where it is. -/
theorem heartbeat_slots {s : WorkerId} {now : Time} (h : Move env w (.heartbeat s now) w') :
    ∃ r lost, w.slots s = .running r ∧
      w'.slots = Function.update w.slots s (.running { r with leaseLost := lost }) := by
  cases h with
  | heartbeat hs hl => exact ⟨_, _, hs, rfl⟩
  | think hs he ht => cases he

/-- A heartbeat. -/
theorem account_heartbeat {s : WorkerId} {now : Time} (h : Move env w (.heartbeat s now) w')
    (hF : s ∈ F) : account F p w' + w.paid env p ≤ account F p w + w'.paid env p := by
  have hch : w'.chances p ≤ w.chances p := by
    refine chances_le h (not_inserted rfl) fun j _ => ?_
    have hst := job_step h j
    generalize w.jobAfter env (.heartbeat s now) j = j' at hst
    cases hst with
    | same => exact Nat.le_refl _
    | extended hs hh => exact Nat.le_refl _
  obtain ⟨r, lost, hr, hslots⟩ := heartbeat_slots h
  obtain ⟨hcl, hpaid⟩ := unpaid env p (log_issued h (issued_heartbeat hr)) (by
    intro x hx
    cases List.mem_singleton.mp hx
    exact ⟨rfl, rfl, rfl⟩)
  have howes := owes_update (p := p) hF hslots
  have hsame : (Slot.running { r with leaseLost := lost }).owes p = (w.slots s).owes p := by
    rw [hr]
    rfl
  unfold account
  omega

/-- **One step keeps the account of the claims.** -/
theorem account_step (hreach : (machine env).Reachable w) (h : Move env w e w')
    (hF : ∀ s, e.slot = some s → s ∈ F) :
    account F p w' + w.paid env p ≤ account F p w + w'.paid env p := by
  cases h with
  | reap => exact account_reap (.reap)
  | claim hs hsel => exact account_claim (.claim hs hsel) (hF _ rfl)
  | pipeline hs ht => exact account_pipeline hreach (.pipeline hs ht) (hF _ rfl)
  | call hc ht => exact account_call hreach (.call hc ht)
  | heartbeat hs hl => exact account_heartbeat (.heartbeat hs hl) (hF _ rfl)
  | think hs he ht =>
      have hth := thought_of_think ht
      exact account_thought hth (hF _ (slot_of_thinker he)) rfl rfl rfl
        (RunStep.thought (w := w) he hth).sameRun
  | submit hc => exact account_same rfl rfl (List.append_nil _).symm fun x hx => by cases hx
  | callCrash hc he => exact account_same rfl rfl (List.append_nil _).symm fun x hx => by cases hx
  | crash hs =>
      exact account_slot (hF _ rfl) rfl rfl (Nat.zero_le _) (List.append_nil _).symm
        fun x hx => by cases hx
  | @next s r how hs hd =>
      refine account_slot (hF _ rfl) rfl rfl ?_ rfl fun x hx => ?_
      · cases how <;> exact Nat.zero_le _
      · cases how with
        | cancelled => cases hx
        | returned => cases List.mem_singleton.mp hx; exact ⟨rfl, rfl, rfl⟩
        | raised => cases List.mem_singleton.mp hx; exact ⟨rfl, rfl, rfl⟩

/-! ## The account of the turns -/

/-- Every job counts. -/
def everyRequest : Nat → Bool := fun _ => true

theorem claimed_mono (h : Move env w e w') : w.claimed p ≤ w'.claimed p :=
  (log_grows h).sublist.countP_le

/-- A claim of a job hands it out. -/
theorem claimed_claim {s : WorkerId} {now : Time} {locked : List Nat} {i : Nat}
    (h : Move env w (.claim s now locked (some i)) w') :
    w'.claimed everyRequest = w.claimed everyRequest + 1 := by
  have hlog := log_issued h rfl
  cases h with
  | think hs he ht => cases he
  | claim hs hsel =>
      obtain ⟨j, hj, rfl, hd, -⟩ := hsel
      obtain ⟨q, hq⟩ := claimNext_due (w := s) (l := env.leaseSeconds) hj rfl hd
      have hres : (w.db.exec (.claimNext s env.leaseSeconds now (some j.id))).2
          = .claimed (some (j.claim s env.leaseSeconds now, q)) := by
        simp only [Db.exec, hq]
      unfold World.claimed
      rw [hlog, List.countP_append, hres]
      rfl

/-- One slot in a new state. -/
theorem turns_update {s : WorkerId} {x : Slot} (hs : s ∈ F)
    (hw : w'.slots = Function.update w.slots s x) :
    ∑ i ∈ F, (w'.slots i).turns + (w.slots s).turns = ∑ i ∈ F, (w.slots i).turns + x.turns := by
  rw [hw]
  exact sum_update hs w.slots x Slot.turns

/-- A run that goes on has a turn less to take. -/
theorem turns_of_phase {r r' : Run} (h : r.stage.phase < r'.stage.phase) :
    (Slot.running r').turns + 1 ≤ (Slot.running r).turns := by
  have hle := phase_le r'.stage
  show 12 - r'.stage.phase + 1 ≤ 12 - r.stage.phase
  omega

/-- **One step takes a turn at most,** and a claim of a job makes a dozen. -/
theorem turns_step (h : Move env w e w') (hF : ∀ s, e.slot = some s → s ∈ F) :
    ∑ s ∈ F, (w'.slots s).turns + e.works.toNat + 13 * w.claimed everyRequest
      ≤ ∑ s ∈ F, (w.slots s).turns + 13 * w'.claimed everyRequest := by
  have hcl := claimed_mono (p := everyRequest) h
  have stay : w'.slots = w.slots → e.works = false →
      ∑ s ∈ F, (w'.slots s).turns + e.works.toNat + 13 * w.claimed everyRequest
        ≤ ∑ s ∈ F, (w.slots s).turns + 13 * w'.claimed everyRequest := by
    intro hs hw
    rw [hs, hw, Bool.toNat_false]
    omega
  have put : ∀ {s : WorkerId} {x : Slot}, e.slot = some s →
      w'.slots = Function.update w.slots s x → x.turns + e.works.toNat ≤ (w.slots s).turns →
      ∑ s ∈ F, (w'.slots s).turns + e.works.toNat + 13 * w.claimed everyRequest
        ≤ ∑ s ∈ F, (w.slots s).turns + 13 * w'.claimed everyRequest := by
    intro s x hs hw hx
    have hup := turns_update (hF s hs) hw
    omega
  have hmove := h
  cases h with
  | submit hc => exact stay rfl rfl
  | callCrash hc he => exact stay rfl rfl
  | call hc ht => exact stay rfl rfl
  | reap => exact stay rfl rfl
  | crash hs => exact put rfl rfl (Nat.zero_le _)
  | @heartbeat s r now hs hl => exact put rfl rfl (by rw [hs]; exact Nat.le_refl _)
  | @next s r how hs hd =>
      refine put rfl rfl ?_
      rw [hs, Slot.turns, hd]
      cases how <;> exact Nat.le_refl _
  | pipeline hs ht =>
      obtain ⟨r, t, x, hr, -, hturn, hslots⟩ := pipeline_slots hmove
      refine put rfl hslots ?_
      rw [hr]
      exact turns_of_phase (phase_turn hturn)
  | @think s r e y hs he ht =>
      refine put (slot_of_thinker he) rfl ?_
      have hlt := turns_of_phase (phase_thought (thought_of_think ht))
      rw [hs]
      have hone := Bool.toNat_le e.works
      omega
  | @claim s now locked pick hs hsel =>
      obtain ⟨-, hslots⟩ := claim_slots hmove
      have hup := turns_update (hF s rfl) hslots
      rw [hs] at hup
      have hidle : Slot.idle.turns = 0 := rfl
      cases pick with
      | none =>
          have hnone : (ProcessingJobRepository.claimNext w.db s env.leaseSeconds now none).2
              = none := by
            cases hc : (ProcessingJobRepository.claimNext w.db s env.leaseSeconds now none).2 with
            | none => rfl
            | some y =>
                obtain ⟨j, -, hp, -⟩ := claimNext_some hc
                cases hp
          have hres : (w.db.exec (.claimNext s env.leaseSeconds now none)).2 = .claimed none := by
            simp only [Db.exec, hnone]
          refine put rfl hslots ?_
          rw [hres]
          exact Nat.zero_le _
      | some i =>
          have hone := claimed_claim hmove
          have hstart : (w.afterClaim (w.db.exec
              (.claimNext s env.leaseSeconds now (some i))).2).turns ≤ 12 := by
            unfold Slot.turns
            split
            · exact Nat.sub_le 12 _
            · exact Nat.zero_le 12
          have hwork : (Event.claim s now locked (some i)).works.toNat = 1 := rfl
          omega

/-! ## The bounds -/

variable {es : List Event}

/-- The slots the events of a run move. -/
theorem mem_slots (he : e ∈ es) (s : WorkerId) (hs : e.slot = some s) :
    s ∈ (es.filterMap Event.slot).toFinset :=
  List.mem_toFinset.mpr (List.mem_filterMap.mpr ⟨e, he, hs⟩)

/-- No job is claimed more often than was paid for. -/
theorem claimed_le_paid (h : (machine env).run World.init es = some w) (p : Nat → Bool) :
    w.claimed p ≤ w.paid env p := by
  have hpaid := Machine.work_le_bill (s := World.init)
    (account (es.filterMap Event.slot).toFinset p) (World.paid env p) (fun _ => false)
    (I := (machine env).Reachable) Machine.ReachableWhere.init h
    fun he hu hs => ⟨hu.tail trivial hs, account_step hu (move_of_step hs) (mem_slots he)⟩
  have hinit : account (es.filterMap Event.slot).toFinset p World.init = 0 := by
    unfold account
    simp [World.chances, World.claimed, World.init, Db.empty, Table.empty, Slot.owes]
  have hzero : World.paid env p World.init = 0 := rfl
  unfold account at hpaid hinit
  omega

/-- Between two claims a slot takes a dozen turns at most. -/
theorem works_le_claimed (h : (machine env).run World.init es = some w) :
    es.countP Event.works ≤ 13 * w.claimed everyRequest := by
  have hturns := Machine.work_le_bill (s := World.init)
    (fun u => ∑ s ∈ (es.filterMap Event.slot).toFinset, (u.slots s).turns)
    (fun u => 13 * u.claimed everyRequest) Event.works (I := fun _ => True) trivial h
    fun he _ hs => ⟨trivial, turns_step (move_of_step hs) (mem_slots he)⟩
  have hinit : ∑ s ∈ (es.filterMap Event.slot).toFinset, (World.init.slots s).turns = 0 :=
    Finset.sum_const_zero
  have hzero : World.init.claimed everyRequest = 0 := rfl
  omega

/--
**The fleet does no more work than it was asked for.** In every run from empty tables, the jobs
of any set of requests have been claimed `max_attempts` times at most for each time one of them
was inserted or reset, and once for each denial of the limiter or the guard; and all slots
together have taken thirteen turns at most for each claim.
-/
theorem work_bounded (h : (machine env).run World.init es = some w) :
    (∀ p, w.claimed p ≤ w.paid env p) ∧ es.countP Event.works ≤ 13 * w.claimed everyRequest :=
  ⟨claimed_le_paid h, works_le_claimed h⟩

/-- Four attempts fail, the fifth is denied, and the sixth, which the denial paid for, is the last:
the bound is met. -/
theorem work_bounded_exhausted : ∃ es w, (machine deployment).run World.init es = some w ∧
    w.db.jobs.rows.map (·.status) = [.dead] ∧
    w.claimed everyRequest = w.paid deployment everyRequest ∧ es.countP Event.works ≤ 78 := by
  obtain ⟨w, hw, -, ht⟩ := Machine.reachable_of_run (m := machine deployment)
    (E := submission 0 "p" "a" ++ outage 1 ++ outage 10 ++ outage 50 ++ outage 100 ++ denial 200 ++
      outage 300)
    (p := fun w => decide (w.db.jobs.rows.map (·.status) = [.dead] ∧ w.claimed everyRequest = 6 ∧
      w.paid deployment everyRequest = 6)) (by decide +kernel)
  obtain ⟨hjobs, hcl, hpaid⟩ := of_decide_eq_true ht
  have hwork := (work_bounded hw).2
  rw [hcl] at hwork
  exact ⟨_, w, hw, hjobs, hcl.trans hpaid.symm, hwork⟩

end PromptQueue.Proof
