import PromptQueue.Proof.Ownership
import PromptQueue.Proof.Replay
import Mathlib.Data.Finset.Prod
import Mathlib.Order.Interval.Finset.Nat

/-!
# How often a job calls the provider

`attempt_count` is no bound on the claims of a job: a deferral re-queues it without
a look at the count. So calls are counted with tokens instead. A claim carries the
token of its attempt, and all claims from `max_attempts` on share the last one;
there are `max_attempts` tokens, and no token is spent twice.

For the first tokens that is because attempts are numbered. For the last one it is
because a claim that holds it and can still call keeps the job out of the queue
(`held`), and one that has called does so for good (`called`).
-/

namespace PromptQueue

/-- The stages a provider call can still come from. -/
def Stage.mayCall : Stage → Bool
  | .findExact | .findNearest _ | .tryAcquire _ | .llm _ => true
  | _ => false

/-- A claim made with no retry left, or past that. -/
def Run.LastTry (r : Run) : Prop := r.job.maxAttempts ≤ r.job.attemptCount

/-- A run that can still call the provider, or give its last try back unused. -/
def Run.Pending (r : Run) : Prop :=
  r.stage.mayCall = true ∨ (r.LastTry ∧ r.stage.releases = true)

/-- The job, the resets it had seen, and the attempt, where all last tries count as one. -/
def Run.token (r : Run) : Nat × Nat × Nat :=
  (r.job.id, r.epoch, min r.job.attemptCount r.job.maxAttempts)

/-- The token a provider call spends. -/
def Entry.callToken : Entry → Option (Nat × Nat × Nat)
  | .llmCalled r => some r.token
  | _ => none

/-- The tokens spent, in order. -/
def callTokens (log : List Entry) : List (Nat × Nat × Nat) := log.filterMap Entry.callToken

/-- A provider call for a claim of the job made after `epoch` resets of it. -/
def Entry.callsFor (job epoch : Nat) : Entry → Bool
  | .llmCalled r => r.job.id = job ∧ r.epoch = epoch
  | _ => false

/-- The provider calls the claims of a job led to that were made after `epoch` resets of it. -/
def providerCalls (log : List Entry) (job epoch : Nat) : Nat :=
  log.countP (Entry.callsFor job epoch)

end PromptQueue

namespace PromptQueue.Proof

open PromptQueue Base World

variable {S : Type} [LinearOrder S] {env : Env S} {w w' : World} {e : Event}
variable {H : World → Event → Prop}

/-! ## Attempts are numbered -/

/-- A run that is under way, or that called the provider. -/
def Seen (w : World) (r : Run) : Prop :=
  (∃ s, w.slots s = .running r) ∨ Entry.llmCalled r ∈ w.log

/-- A run that was seen was seen before, or has just been claimed. -/
theorem seen_back (h : Move env w e w') {r' : Run} (hr : Seen w' r') :
    (∃ r, Seen w r ∧ SameRun r r') ∨ ∃ s, Claimed env w e s r' := by
  rcases hr with ⟨s, hs⟩ | hx
  · rcases run_cases h hs with ⟨r, hr, hst⟩ | hc
    · exact .inl ⟨r, .inl ⟨s, hr⟩, hst.sameRun⟩
    · exact .inr ⟨s, hc⟩
  · rcases entry_cases h hx with hx | hf
    · exact .inl ⟨r', .inr hx, .refl r'⟩
    · cases hf with
      | @thought _ s r _ es _ hs he ht hx =>
          have hrr : r' = r := by cases ht <;> simp at hx; exact hx
          exact .inl ⟨r', .inl ⟨s, hrr ▸ hs⟩, .refl r'⟩

/-- An epoch that is current after a move was current before, and no reset came between. -/
theorem epoch_back (h : Move env w e w') {q n : Nat} (hle : n ≤ resets w.log q)
    (hn : n = resets w'.log q) :
    n = resets w.log q ∧ ∀ who now, w.issued env e ≠ some (who, .resetJob q now) := by
  have hmono := resets_mono h q
  refine ⟨by omega, fun who now hi => ?_⟩
  have hcount : resets w'.log q = resets w.log q + 1 + (w.takes (.resetJob q now)).countP
      (Entry.isReset q) := by
    unfold resets
    rw [log_issued h hi, List.countP_append, List.countP_cons_of_pos (by simp [Entry.isReset])]
    omega
  omega

/-- Within an epoch `attempt_count` only grows. -/
theorem attempts_le {j j' : ProcessingJob} (h : JobStep env w e j j')
    (hn : ∀ who now, w.issued env e ≠ some (who, .resetJob j.promptRequestId now)) :
    j.attemptCount ≤ j'.attemptCount := by
  cases h with
  | claimed hs hp hd => exact Nat.le_succ _
  | reset hc hst hid => exact absurd (reset_issued hc hst) (hid ▸ hn _ _)
  | _ => exact Nat.le_refl _

/-- What the numbers of the claims say. -/
structure Numbered (w : World) : Prop where
  /-- Attempts count from one. -/
  pos : ∀ {r}, Seen w r → 1 ≤ r.job.attemptCount
  /-- The row has the number of the latest attempt. -/
  le : ∀ {r j}, Seen w r → j ∈ w.db.jobs.rows → j.id = r.job.id →
    r.epoch = resets w.log j.promptRequestId → r.job.attemptCount ≤ j.attemptCount
  /-- The resets a run had seen have happened. -/
  epoch : ∀ {r}, Seen w r → r.epoch ≤ resets w.log r.job.promptRequestId
  /-- Its job is there. -/
  job : ∀ {r}, Seen w r → ∃ j ∈ w.db.jobs.rows, j.static = r.job.static

theorem numbered_init : Numbered World.init := by
  have hnone : ∀ r, ¬ Seen World.init r := by
    rintro r (⟨s, hs⟩ | hx)
    · cases hs
    · cases hx
  exact ⟨fun h => absurd h (hnone _), fun h => absurd h (hnone _), fun h => absurd h (hnone _),
    fun h => absurd h (hnone _)⟩

/-- The row of a job that was claimed before was there before the move. -/
theorem Numbered.job_back (hi : Numbered w) (h : Move env w e w') {r : Run} (hr : Seen w r)
    {j' : ProcessingJob} (hj' : j' ∈ w'.db.jobs.rows) (hid : j'.id = r.job.id) :
    ∃ j ∈ w.db.jobs.rows, j' = w.jobAfter env e j ∧ j.static = r.job.static := by
  obtain ⟨i, hi', hs⟩ := hi.job hr
  have hii : i.id = r.job.id := congrArg (·.1) hs
  rcases job_origin h hj' with ⟨j, hj, rfl⟩ | ⟨q, hins⟩
  · rw [jobAfter_id] at hid
    have hji : j = i := Db.job_eq_of_id hj hi' (hid.trans hii.symm)
    exact ⟨j, hj, rfl, hji ▸ hs⟩
  · exact absurd (hii.trans hid.symm) (hins.job_fresh hi')

theorem numbered_step (h : Move env w e w') (hi : Numbered w) : Numbered w' where
  pos := by
    intro r' hr'
    rcases seen_back h hr' with ⟨r, hr, hsame⟩ | ⟨s, hc⟩
    · rw [hsame.1]
      exact hi.pos hr
    · obtain ⟨now, locked, pick, j, q, -, -, -, -, -, -, -, rfl⟩ := hc.claim
      exact Nat.succ_pos _
  le := by
    intro r' j' hr' hj' hid hep
    rcases seen_back h hr' with ⟨r, hr, hsame⟩ | ⟨s, hc⟩
    · rw [hsame.1] at hid ⊢
      rw [hsame.2.2.2] at hep
      obtain ⟨j, hj, rfl, hs⟩ := hi.job_back h hr hj' hid
      have hq : j.promptRequestId = r.job.promptRequestId := congrArg (·.2.1) hs
      rw [jobAfter_promptRequestId] at hep
      obtain ⟨hep₀, hnr⟩ := epoch_back h (hq ▸ hi.epoch hr) hep
      have hold := hi.le hr hj (congrArg (·.1) hs) hep₀
      have hgrow := attempts_le (job_step h j) hnr
      omega
    · rw [claimed_row h hc hj' hid]
  epoch := by
    intro r' hr'
    rcases seen_back h hr' with ⟨r, hr, hsame⟩ | ⟨s, hc⟩
    · rw [hsame.1, hsame.2.2.2]
      exact (hi.epoch hr).trans (resets_mono h _)
    · obtain ⟨now, locked, pick, j, q, -, -, -, -, -, -, -, rfl⟩ := hc.claim
      exact resets_mono h _
  job := by
    intro r' hr'
    rcases seen_back h hr' with ⟨r, hr, hsame⟩ | ⟨s, hc⟩
    · obtain ⟨j, hj, hs⟩ := hi.job hr
      rw [hsame.1]
      exact ⟨_, job_goes_on h hj, (jobAfter_static j).trans hs⟩
    · obtain ⟨now, locked, pick, j, q, -, -, hj, -, -, -, -, rfl⟩ := hc.claim
      exact ⟨_, job_goes_on h hj, jobAfter_static j⟩

theorem numbered_reachable (h : (machine env).ReachableWhere H w) : Numbered w :=
  invariant_of_moves h numbered_init fun _ hi _ hm => numbered_step hm hi

/-! ## Tokens -/

theorem token_same {r r' : Run} (h : SameRun r r') : r'.token = r.token := by
  unfold Run.token
  rw [h.1, h.2.2.2]

/-- The failure handler ends a last try: it gives nothing back unused and calls nothing. -/
theorem not_pending_handleFailure {r : Run} {exc : Exc} (hx : exc.rateLimitWait = none) :
    ¬ Run.Pending { r with stage := PromptPipeline.handleFailure r.job exc } := by
  unfold Run.Pending Run.LastTry
  rcases PromptPipeline.handleFailure_cases r.job exc with ⟨wait, hw, -⟩ | ⟨-, -, hs⟩ |
    ⟨-, -, hretry, hs⟩
  · rw [hx] at hw; cases hw
  · rw [hs]
    simp [Stage.mayCall, Stage.releases]
  · rw [hs]
    have hlt : r.job.attemptCount < r.job.maxAttempts := of_decide_eq_true hretry
    simp [Stage.mayCall, Nat.not_le.mpr hlt]

/-- A pipeline that can no longer call stays so. -/
theorem pending_back {s : WorkerId} {r r' : Run} (h : RunStep env w e s r r')
    (hp : r'.Pending) : r.Pending := by
  cases h with
  | same he => exact hp
  | beat hl => exact hp
  | @wrote _ _ now top1 t ht =>
      obtain ⟨x, hx, hturn⟩ := PromptPipeline.turn_of_call w.db ht
      rw [hx] at hp
      cases hturn with
      | missedExact hst hf => exact .inl (by rw [hst]; rfl)
      | missedNearest hst hf => exact .inl (by rw [hst]; rfl)
      | _ => simp [Run.Pending, Stage.mayCall, Stage.releases] at hp
  | thought he hth =>
      cases hth with
      | granted hst => exact .inl (by rw [hst]; rfl)
      | denied hst => exact .inl (by rw [hst]; rfl)
      | guarded hst => exact .inl (by rw [hst]; rfl)
      | unavailable hst => exact absurd hp (not_pending_handleFailure rfl)
      | failed hx hst => exact absurd hp (not_pending_handleFailure hx)
      | dbError hc =>
          unfold PromptPipeline.fail at hp
          split at hp
          · exact absurd hp (not_pending_handleFailure rfl)
          · simp [Run.Pending, Stage.mayCall, Stage.releases] at hp
      | _ => simp [Run.Pending, Stage.mayCall, Stage.releases] at hp

/--
A new claim has a token of its own: of two attempts of one epoch the later has the
larger number, unless both are last tries, and a last try that is still to be
reckoned with keeps its job from being claimed.
-/
theorem token_new (hn : Numbered w) {s : WorkerId} {r r' : Run} (hc : Claimed env w e s r')
    (hr : Seen w r) (hbusy : ∀ j ∈ w.db.jobs.rows, r.LastTry → j.id = r.job.id →
      r.epoch = resets w.log j.promptRequestId → j.status ≠ .queued) : r.token ≠ r'.token := by
  obtain ⟨now, locked, pick, j, q, -, -, hj, -, hd, -, -, rfl⟩ := hc.claim
  intro htok
  obtain ⟨hid, hep, hmin⟩ : r.job.id = j.id ∧ r.epoch = resets w.log j.promptRequestId ∧
      min r.job.attemptCount r.job.maxAttempts = min (j.attemptCount + 1) j.maxAttempts := by
    simpa [Run.token, ProcessingJob.claim] using htok
  have hle : r.job.attemptCount ≤ j.attemptCount := hn.le hr hj hid.symm hep
  -- the claim found the job queued
  by_cases hlast : r.LastTry
  · exact hbusy j hj hlast hid.symm hep hd.1
  · obtain ⟨i, hi, hs⟩ := hn.job hr
    have hij : i = j := Db.job_eq_of_id hi hj ((congrArg (·.1) hs).trans hid)
    have hmax : j.maxAttempts = r.job.maxAttempts := hij ▸ congrArg (·.2.2.1) hs
    unfold Run.LastTry at hlast
    omega

/-- **The only move that spends a token is the provider call of the run that has it.** -/
theorem callTokens_cases (h : Move env w e w') : callTokens w'.log = callTokens w.log ∨
    ∃ s r emb, e = .llmCall s ∧ w.slots s = .running r ∧ r.stage = .llm emb ∧
      callTokens w'.log = callTokens w.log ++ [r.token] := by
  rcases call_recorded h with ⟨es, hlog, hnone⟩ | ⟨s, r, emb, he, hs, hst, hlog⟩
  · left
    have hnil : es.filterMap Entry.callToken = [] := by
      refine List.filterMap_eq_nil_iff.mpr fun x hx => ?_
      cases x with
      | llmCalled r => exact absurd hx (hnone r)
      | _ => rfl
    unfold callTokens
    rw [hlog, List.filterMap_append, hnil, List.append_nil]
  · right
    refine ⟨s, r, emb, he, hs, hst, ?_⟩
    unfold callTokens
    rw [hlog, List.filterMap_append]
    rfl

/-- A call leaves its token in the history. -/
theorem mem_callTokens {log : List Entry} {k : Nat × Nat × Nat} :
    k ∈ callTokens log ↔ ∃ r, Entry.llmCalled r ∈ log ∧ r.token = k := by
  unfold callTokens
  rw [List.mem_filterMap]
  constructor
  · rintro ⟨x, hx, hk⟩
    cases x with
    | llmCalled r => exact ⟨r, hx, Option.some.inj hk⟩
    | _ => cases hk
  · rintro ⟨r, hr, rfl⟩
    exact ⟨_, hr, rfl⟩

/-! ## The invariant -/

/-- How the tokens of the claims are spent. -/
structure Spent (w : World) : Prop where
  /-- A pending last try has its job. -/
  held : ∀ {s r j}, w.slots s = .running r → r.Pending → r.LastTry → j ∈ w.db.jobs.rows →
    j.id = r.job.id → r.epoch = resets w.log j.promptRequestId →
    j.workerId = some s ∧ j.status ≠ .queued
  /-- After a last try has called, its job is not queued again. -/
  called : ∀ {r j}, Entry.llmCalled r ∈ w.log → r.LastTry → j ∈ w.db.jobs.rows →
    j.id = r.job.id → r.epoch = resets w.log j.promptRequestId →
    j.status ≠ .queued ∧ j.attemptCount = r.job.attemptCount
  /-- No two pending runs have one token. -/
  apart : ∀ {s s' r r'}, w.slots s = .running r → w.slots s' = .running r' → r.Pending →
    r'.Pending → r.token = r'.token → s = s'
  /-- The token of a pending run is not spent. -/
  unspent : ∀ {s r}, w.slots s = .running r → r.Pending → r.token ∉ callTokens w.log
  /-- No token is spent twice. -/
  once : (callTokens w.log).Nodup

theorem spent_init : Spent World.init where
  held := nofun
  called := nofun
  apart := nofun
  unspent := nofun
  once := List.nodup_nil

/-- A run that released its lease is pending no more. -/
theorem not_pending_of_released {r : Run} (h : r.stage.afterRelease = true) : ¬ r.Pending := by
  unfold Run.Pending
  cases hst : r.stage <;> rw [hst] at h <;> cases h <;> simp [Stage.mayCall, Stage.releases]

/-- What a move leaves of the row a pending last try has. -/
theorem held_step (h : Move env w e w') (ht : Tied env w) (ho : Ownership w) (hi : Spent w)
    {s : WorkerId} {r r' : Run} {j : ProcessingJob} (hr : w.slots s = .running r)
    (hst : RunStep env w e s r r') (hp : r'.Pending) (hlast : r.LastTry)
    (hj : j ∈ w.db.jobs.rows) (hid : j.id = r.job.id)
    (hep : r.epoch = resets w.log j.promptRequestId)
    (hnr : ∀ who now, w.issued env e ≠ some (who, .resetJob j.promptRequestId now)) :
    (w.jobAfter env e j).workerId = some s ∧ (w.jobAfter env e j).status ≠ .queued := by
  obtain ⟨how, hq⟩ := hi.held hr (pending_back hst hp) hlast hj hid hep
  have hatt : r.job.attemptCount = j.attemptCount := (ho.latest hr hj hid how).2
  have hmax : j.maxAttempts = r.job.maxAttempts := congrArg (·.2.2.1) (ht.static_of_id hr hj hid)
  have hjs := job_step h j
  generalize w.jobAfter env e j = j' at hjs
  cases hjs with
  | same => exact ⟨how, hq⟩
  | claimed hs hpick hd => exact absurd hd.1 hq
  | extended hs hh => exact ⟨how, hq⟩
  | completed hs hst hid => exact ⟨how, by intro hc; cases hc⟩
  | buried hs hst hid => exact ⟨how, by intro hc; cases hc⟩
  | expired hx => exact ⟨how, by intro hc; cases hc⟩
  | reset hc hrs hjq => exact absurd (reset_issued hc hrs) (hjq ▸ hnr _ _)
  | requeued hrec =>
      have hlt := hrec.2
      unfold Run.LastTry at hlast
      omega
  | released hs hrel hown =>
      -- only the run itself can match the row, and it is pending no more when it has
      rw [ProcessingJob.OwnedBy, ht.workerId hs] at hown
      cases Option.some.inj (how.symm.trans hown.2)
      cases Slot.running.inj (hs.symm.trans hr)
      exact absurd hp (not_pending_of_released (afterRelease_of_releases hst hrel))

/-- What a move leaves of the row of a last try that has called. -/
theorem called_step (h : Move env w e w') (ht : Tied env w) (ho : Ownership w) (hi : Spent w)
    {r : Run} {j : ProcessingJob} (hr : Entry.llmCalled r ∈ w.log) (hlast : r.LastTry)
    (hj : j ∈ w.db.jobs.rows) (hs : j.static = r.job.static)
    (hep : r.epoch = resets w.log j.promptRequestId)
    (hnr : ∀ who now, w.issued env e ≠ some (who, .resetJob j.promptRequestId now)) :
    (w.jobAfter env e j).status ≠ .queued ∧
      (w.jobAfter env e j).attemptCount = r.job.attemptCount := by
  have hid : j.id = r.job.id := congrArg (·.1) hs
  have hmax : j.maxAttempts = r.job.maxAttempts := congrArg (·.2.2.1) hs
  obtain ⟨hq, hatt⟩ := hi.called hr hlast hj hid hep
  have hjs := job_step h j
  generalize w.jobAfter env e j = j' at hjs
  cases hjs with
  | same => exact ⟨hq, hatt⟩
  | claimed hs hpick hd => exact absurd hd.1 hq
  | extended hs hh => exact ⟨hq, hatt⟩
  | completed hs hst hid => exact ⟨(by intro hc; cases hc), hatt⟩
  | buried hs hst hid => exact ⟨(by intro hc; cases hc), hatt⟩
  | expired hx => exact ⟨(by intro hc; cases hc), hatt⟩
  | reset hc hrs hjq => exact absurd (reset_issued hc hrs) (hjq ▸ hnr _ _)
  | requeued hrec =>
      have hlt := hrec.2
      unfold Run.LastTry at hlast
      omega
  | @released s₀ now top1 r₀ _ due hs₀ hrel hown =>
      -- whoever releases the row has its latest attempt, which is the try that was spent
      rw [ProcessingJob.OwnedBy, ht.workerId hs₀] at hown
      obtain ⟨hep₀, hatt₀⟩ := ho.latest hs₀ hj hown.1 hown.2
      have hmax₀ : j.maxAttempts = r₀.job.maxAttempts :=
        congrArg (·.2.2.1) (ht.static_of_id hs₀ hj hown.1)
      have hlast₀ : r₀.LastTry := by
        unfold Run.LastTry at hlast ⊢
        omega
      have htok : r.token = r₀.token := by
        unfold Run.token
        rw [← hid, hown.1, hep, hep₀, ← hatt, hatt₀, ← hmax, hmax₀]
      exact absurd (mem_callTokens.mpr ⟨r, hr, htok⟩) (hi.unspent hs₀ (.inr ⟨hlast₀, hrel⟩))

/-- A run that was just claimed has a token no pending run has. -/
theorem apart_claimed (hn : Numbered w) (hi : Spent w) {s s' : WorkerId} {r r' : Run}
    (hr : w.slots s = .running r) (hp : r.Pending) (hc : Claimed env w e s' r') :
    r.token ≠ r'.token :=
  token_new hn hc (.inl ⟨s, hr⟩) fun _ hj hlast hid hep => (hi.held hr hp hlast hj hid hep).2

/-- And one that is not spent. -/
theorem unspent_claimed (hn : Numbered w) (hi : Spent w) {s : WorkerId} {r' : Run}
    (hc : Claimed env w e s r') : r'.token ∉ callTokens w.log := by
  intro hmem
  obtain ⟨r, hr, htok⟩ := mem_callTokens.mp hmem
  exact token_new hn hc (.inr hr)
    (fun _ hj hlast hid hep => (hi.called hr hlast hj hid hep).1) htok

/-- **One move keeps the books.** -/
theorem spent_step (h : Move env w e w') (ht : Tied env w) (ho : Ownership w) (hn : Numbered w)
    (hi : Spent w) : Spent w' where
  held := by
    intro s r' j' hr' hp hlast hj' hid hep
    rcases run_cases h hr' with ⟨r, hr, hst⟩ | hc
    · have hsame := hst.sameRun
      rw [hsame.2.2.2] at hep
      unfold Run.LastTry at hlast
      rw [hsame.1] at hid hlast
      obtain ⟨j, hj, rfl, hs⟩ := hn.job_back h (.inl ⟨s, hr⟩) hj' hid
      have hq : j.promptRequestId = r.job.promptRequestId := congrArg (·.2.1) hs
      rw [jobAfter_promptRequestId] at hep
      obtain ⟨hep₀, hnr⟩ := epoch_back h (hq ▸ ht.epoch hr) hep
      exact held_step h ht ho hi hr hst hp hlast hj (congrArg (·.1) hs) hep₀ hnr
    · rw [claimed_row h hc hj' hid]
      obtain ⟨now, locked, pick, j, q, -, -, -, -, -, -, -, rfl⟩ := hc.claim
      exact ⟨rfl, by intro hq; cases hq⟩
  called := by
    intro r j' hr hlast hj' hid hep
    rcases entry_cases h hr with hr | hf
    · obtain ⟨j, hj, rfl, hs⟩ := hn.job_back h (.inr hr) hj' hid
      have hq : j.promptRequestId = r.job.promptRequestId := congrArg (·.2.1) hs
      rw [jobAfter_promptRequestId] at hep
      obtain ⟨hep₀, hnr⟩ := epoch_back h (hq ▸ hn.epoch (.inr hr)) hep
      exact called_step h ht ho hi hr hlast hj hs hep₀ hnr
    · cases hf with
      | @thought _ s r₀ _ es _ hs he hth hx =>
          cases hth with
          | @called s₀ emb hst =>
              cases List.mem_singleton.mp hx
              obtain ⟨j, hj, hrow, hstatic⟩ := hn.job_back h (.inl ⟨s, hs⟩) hj' hid
              -- a call is no transaction: the row is the one the run has
              have hjj : j' = j := hrow
              subst hjj
              have hreq : j'.promptRequestId = r.job.promptRequestId := congrArg (·.2.1) hstatic
              obtain ⟨hep₀, -⟩ := epoch_back h (hreq ▸ ht.epoch hs) hep
              have hp : r.Pending := .inl (by rw [hst]; rfl)
              obtain ⟨how, hq⟩ := hi.held hs hp hlast hj hid hep₀
              exact ⟨hq, (ho.latest hs hj hid how).2.symm⟩
          | _ => simp at hx
  apart := by
    intro s s' r r' hr hr' hp hp' htok
    rcases run_cases h hr with ⟨x, hx, hst⟩ | hc
    · rw [token_same hst.sameRun] at htok
      rcases run_cases h hr' with ⟨x', hx', hst'⟩ | hc'
      · rw [token_same hst'.sameRun] at htok
        exact hi.apart hx hx' (pending_back hst hp) (pending_back hst' hp') htok
      · exact absurd htok (apart_claimed hn hi hx (pending_back hst hp) hc')
    · rcases run_cases h hr' with ⟨x', hx', hst'⟩ | hc'
      · rw [token_same hst'.sameRun] at htok
        exact absurd htok.symm (apart_claimed hn hi hx' (pending_back hst' hp') hc)
      · obtain ⟨now, locked, pick, j, q, he, -⟩ := hc.claim
        obtain ⟨now', locked', pick', j', q', he', -⟩ := hc'.claim
        cases he.symm.trans he'
        rfl
  unspent := by
    intro s r' hr' hp hmem
    rcases callTokens_cases h with hlog | ⟨s₀, r₀, emb, rfl, hs₀, hst₀, hlog⟩
    · rw [hlog] at hmem
      rcases run_cases h hr' with ⟨r, hr, hst⟩ | hc
      · rw [token_same hst.sameRun] at hmem
        exact hi.unspent hr (pending_back hst hp) hmem
      · exact unspent_claimed hn hi hc hmem
    · rcases run_cases h hr' with ⟨r, hr, hst⟩ | hc
      · have hp₀ : r.Pending := pending_back hst hp
        rw [hlog, token_same hst.sameRun] at hmem
        rcases List.mem_append.mp hmem with hmem | hmem
        · exact hi.unspent hr hp₀ hmem
        · have hss : s = s₀ := hi.apart hr hs₀ hp₀ (.inl (by rw [hst₀]; rfl))
            (List.mem_singleton.mp hmem)
          subst hss
          cases Slot.running.inj (hr.symm.trans hs₀)
          -- the run that just called is waiting for the answer
          cases hst with
          | same he => exact absurd rfl he
          | thought he hth =>
              cases hth with
              | called hst => simp [Run.Pending, Stage.mayCall, Stage.releases] at hp
      · obtain ⟨now, locked, pick, j, q, he, -⟩ := hc.claim
        cases he
  once := by
    rcases callTokens_cases h with hlog | ⟨s, r, emb, rfl, hs, hst, hlog⟩
    · rw [hlog]
      exact hi.once
    · have hfree : r.token ∉ callTokens w.log := hi.unspent hs (.inl (by rw [hst]; rfl))
      rw [hlog, List.nodup_append]
      refine ⟨hi.once, List.nodup_singleton _, ?_⟩
      intro a ha b hb hab
      rw [List.mem_singleton.mp hb] at hab
      exact hfree (hab ▸ ha)

/-- **In every reachable world no token is spent twice.** -/
theorem spent_reachable (h : (machine env).ReachableWhere H w) : Spent w :=
  invariant_of_moves h spent_init fun hr hi _ hm => spent_step hm (tied_reachable hr)
    (ownership_reachable hr) (numbered_reachable hr) hi

/-! ## The bound -/

/-- The calls for a job, counted by the tokens they spent. -/
theorem providerCalls_eq (log : List Entry) (job epoch : Nat) : providerCalls log job epoch
    = ((callTokens log).filter fun k => k.1 = job ∧ k.2.1 = epoch).length := by
  unfold providerCalls callTokens
  induction log with
  | nil => rfl
  | cons x log ih =>
      cases x with
      | llmCalled r =>
          have hcons : (Entry.llmCalled r :: log).filterMap Entry.callToken
              = r.token :: log.filterMap Entry.callToken := rfl
          rw [List.countP_cons, ih, hcons, List.filter_cons]
          by_cases hk : r.job.id = job ∧ r.epoch = epoch <;>
            simp [Entry.callsFor, Run.token, hk]
      | _ => rw [List.countP_cons_of_neg (by simp [Entry.callsFor]), ih]; rfl

/--
**A job costs at most `max_attempts` provider calls an epoch.** However its claims
are deferred, lost, released late, cancelled or crashed, the claims made after any
given number of client resets lead to no more calls than the job may be tried.
-/
theorem provider_calls_le (h : (machine env).Reachable w) {j : ProcessingJob}
    (hj : j ∈ w.db.jobs.rows) (hmax : 1 ≤ j.maxAttempts) (epoch : Nat) :
    providerCalls w.log j.id epoch ≤ j.maxAttempts := by
  have hi : Spent w := spent_reachable h
  have hn : Numbered w := numbered_reachable h
  rw [providerCalls_eq]
  have hnd : ((callTokens w.log).filter fun k => k.1 = j.id ∧ k.2.1 = epoch).Nodup :=
    hi.once.filter _
  -- the tokens of the job and the epoch are numbered from one to `max_attempts`
  have hsub : ((callTokens w.log).filter fun k => k.1 = j.id ∧ k.2.1 = epoch).toFinset
      ⊆ {j.id} ×ˢ {epoch} ×ˢ Finset.Icc 1 j.maxAttempts := by
    intro k hk
    obtain ⟨hmem, hkey⟩ := List.mem_filter.mp (List.mem_toFinset.mp hk)
    have hkey := of_decide_eq_true hkey
    obtain ⟨r, hr, rfl⟩ := mem_callTokens.mp hmem
    obtain ⟨i, hi', hs⟩ := hn.job (.inr hr)
    have hij : i = j := Db.job_eq_of_id hi' hj ((congrArg (·.1) hs).trans hkey.1)
    have hjmax : j.maxAttempts = r.job.maxAttempts := hij ▸ congrArg (·.2.2.1) hs
    have hpos := hn.pos (.inr hr)
    simp only [Finset.mem_product, Finset.mem_singleton, Finset.mem_Icc]
    refine ⟨hkey.1, hkey.2, ?_, ?_⟩
    · show 1 ≤ min r.job.attemptCount r.job.maxAttempts
      omega
    · show min r.job.attemptCount r.job.maxAttempts ≤ j.maxAttempts
      omega
  calc ((callTokens w.log).filter fun k => k.1 = j.id ∧ k.2.1 = epoch).length
      = ((callTokens w.log).filter fun k => k.1 = j.id ∧ k.2.1 = epoch).toFinset.card :=
        (List.toFinset_card_of_nodup hnd).symm
    _ ≤ ({j.id} ×ˢ {epoch} ×ˢ Finset.Icc 1 j.maxAttempts).card := Finset.card_le_card hsub
    _ = j.maxAttempts := by simp

/-- A job of one try that was deferred once and then called the provider. -/
theorem provider_calls_le_past_deferral : ∃ w : World, ∃ j ∈ w.db.jobs.rows, j.maxAttempts = 1 ∧
    j.attemptCount = 2 ∧ providerCalls w.log j.id 0 ≤ j.maxAttempts := by
  obtain ⟨w, -, hw, ht⟩ := Machine.reachable_of_run
    (m := machine { deployment with maxJobAttempts := 1 })
    (E := submission 0 "p" "a" ++ [.claim 0 1 [] (some 1), .pipeline 0 1 none,
      .pipeline 0 1 none, .limiter 0 .denied, .pipeline 0 1 none, .next 0,
      .claim 0 3 [] (some 1), .pipeline 0 3 none, .pipeline 0 3 none, .limiter 0 .granted,
      .llmCall 0])
    (p := fun w => decide (∃ j ∈ w.db.jobs.rows, j.maxAttempts = 1 ∧ j.attemptCount = 2))
    (by decide +kernel)
  obtain ⟨j, hj, hmax, hatt⟩ := of_decide_eq_true ht
  exact ⟨w, j, hj, hmax, hatt, provider_calls_le hw hj (by omega) 0⟩

end PromptQueue.Proof
