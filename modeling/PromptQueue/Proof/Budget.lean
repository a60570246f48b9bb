import PromptQueue.Proof.CallBound

/-!
# What uses up the retry budget

A job is given up when a claim fails with `attempt_count` at `max_attempts`. The
count goes up when the job is claimed, so it counts the claims that were denied by
the limiter, or that found Redis down, like those the provider failed or whose
lease was lost.

`Accounted` is the balance: every attempt but the latest failed or was deferred. So
at the moment a job is given up its failures are `attempt_count` less the claims
that were only deferred, and that is as many as `max_attempts` exactly when the
deferrals are paid for by attempts beyond the budget.
-/

namespace PromptQueue

/-- The claim of a job at an attempt failed: the provider raised, or the lease was lost. -/
def Entry.fails (job epoch attempt : Nat) : Entry → Bool
  | .llmRaised r _ => r.job.id = job ∧ r.epoch = epoch ∧ r.job.attemptCount = attempt
  | .lost j n => j.id = job ∧ n = epoch ∧ j.attemptCount = attempt
  | _ => false

/-- The claim was denied by the limiter or the provider's guard, or Redis was unreachable. -/
def Entry.defers (job epoch attempt : Nat) : Entry → Bool
  | .limited r | .redisDown r =>
      r.job.id = job ∧ r.epoch = epoch ∧ r.job.attemptCount = attempt
  | _ => false

/-- Whether an attempt of a job, after `epoch` resets of it, failed. -/
def failed (log : List Entry) (job epoch attempt : Nat) : Bool :=
  log.any (Entry.fails job epoch attempt)

/-- Whether it was deferred. -/
def deferred (log : List Entry) (job epoch attempt : Nat) : Bool :=
  log.any (Entry.defers job epoch attempt)

/-- How many of the first `n` attempts failed. -/
def failures (log : List Entry) (job epoch n : Nat) : Nat :=
  (List.range' 1 n).countP (failed log job epoch)

/-- How many of them did not fail but were deferred, or are the latest. -/
def spared (log : List Entry) (job epoch n : Nat) : Nat :=
  (List.range' 1 n).countP fun k =>
    !failed log job epoch k && (deferred log job epoch k || k == n)

/-- The exception a stage is about to mark a job dead for. -/
def Stage.burial : Stage → Option Exc
  | .markDead exc => some exc
  | _ => none

/--
A step that gives a job up because its budget is exhausted: `mark_dead` for an error
worth a retry, or a reap with no attempt left.
-/
def GivesUp (w : World) (e : Event) (j : ProcessingJob) : Prop :=
  (e.writes = true ∧ ∃ r ∈ w.runOf e, ∃ exc ∈ r.stage.burial, isRetryable exc = true ∧
    r.job.canRetry = false ∧ j.id = r.job.id) ∨
  ∃ now ∈ e.reaps, ProcessingJob.Exhausted now j

instance (w : World) (e : Event) : DecidablePred (GivesUp w e) :=
  fun _ => inferInstanceAs (Decidable (_ ∨ _))

/-- The history, with the leases the step itself finds lost. -/
def World.historyWith (w : World) (e : Event) : List Entry :=
  match e with
  | .reap now => w.log ++ w.takes (.reapExpiredLeases now)
  | _ => w.log

variable {S : Type} [LinearOrder S] (env : Env S)

/-- The step gives no job up that did not fail `max_attempts` times since its last reset. -/
def BudgetKept (w : World) (e : Event) : Prop :=
  ∀ w', World.step env w e = some w' → ∀ j ∈ w.db.jobs.rows, j.status ≠ .dead → GivesUp w e j →
    j.maxAttempts ≤ failures w'.log j.id (resets w.log j.promptRequestId) j.attemptCount

/-- A job the step gives up has an attempt more than its budget for every claim it was spared. -/
def Overspent (w : World) (e : Event) : Prop :=
  (World.step env w e).isSome = true → ∀ j ∈ w.db.jobs.rows, j.status ≠ .dead → GivesUp w e j →
    j.maxAttempts + spared (w.historyWith e) j.id (resets w.log j.promptRequestId) j.attemptCount
      ≤ j.attemptCount

instance (w : World) : DecidablePred (Overspent env w) :=
  fun _ => inferInstanceAs (Decidable (_ → _))

end PromptQueue

namespace PromptQueue.Proof

open PromptQueue Base World

variable {S : Type} [LinearOrder S] {env : Env S} {w w' : World} {e : Event}
variable {H : World → Event → Prop}

/-! ## The balance -/

/-- The attempt failed or was deferred. -/
def Ended (log : List Entry) (job epoch attempt : Nat) : Prop :=
  failed log job epoch attempt = true ∨ deferred log job epoch attempt = true

theorem ended_mono (h : Move env w e w') {job epoch attempt : Nat}
    (he : Ended w.log job epoch attempt) : Ended w'.log job epoch attempt := by
  have hsub := (log_grows h).subset
  rcases he with he | he
  · obtain ⟨x, hx, hxf⟩ := List.any_eq_true.mp he
    exact .inl (List.any_eq_true.mpr ⟨x, hsub hx, hxf⟩)
  · obtain ⟨x, hx, hxd⟩ := List.any_eq_true.mp he
    exact .inr (List.any_eq_true.mpr ⟨x, hsub hx, hxd⟩)

/-- How the attempts of a job ended. -/
structure Accounted (w : World) : Prop where
  /-- All but the latest have ended, and so has the latest of a job that is queued. -/
  ended : ∀ {j}, j ∈ w.db.jobs.rows → ∀ k, 1 ≤ k →
    k < j.attemptCount ∨ (k = j.attemptCount ∧ j.status = .queued) →
    Ended w.log j.id (resets w.log j.promptRequestId) k
  /-- A run that is about to release its lease has ended. -/
  leaving : ∀ {s r}, w.slots s = .running r → r.stage.releases = true →
    Ended w.log r.job.id r.epoch r.job.attemptCount

theorem accounted_init : Accounted World.init where
  ended := nofun
  leaving := nofun

/-- A pipeline gets to a release by a denial, an outage or a failure of the provider. -/
theorem leaving_step (h : Move env w e w') {s : WorkerId} {r r' : Run}
    (hr : w.slots s = .running r) (hst : RunStep env w e s r r')
    (hrel : r'.stage.releases = true) :
    r.stage.releases = true ∨ Ended w'.log r.job.id r.epoch r.job.attemptCount := by
  cases hst with
  | same he => exact .inl hrel
  | beat hl => exact .inl hrel
  | wrote ht =>
      obtain ⟨x, hx, hturn⟩ := PromptPipeline.turn_of_call w.db ht
      rw [hx] at hrel
      cases hturn <;> cases hrel
  | thought he hth =>
      have hlog := log_thought h hr he hth
      cases hth with
      | denied hst => exact .inr (.inr (by rw [hlog]; simp [deferred, Entry.defers]))
      | guarded hst => exact .inr (.inr (by rw [hlog]; simp [deferred, Entry.defers]))
      | unavailable hst => exact .inr (.inr (by rw [hlog]; simp [deferred, Entry.defers]))
      | failed hx hst => exact .inr (.inl (by rw [hlog]; simp [failed, Entry.fails]))
      | dbError hc =>
          dsimp only [PromptPipeline.fail] at hrel
          split at hrel
          · rw [PromptPipeline.handleFailure_driver] at hrel
            cases hrel
          · cases hrel
      | _ => cases hrel

/-- **One move keeps the balance.** -/
theorem accounted_step (h : Move env w e w') (ht : Tied env w) (ho : Ownership w)
    (hi : Accounted w) : Accounted w' where
  ended := by
    intro j' hj' k hk hlate
    rcases job_origin h hj' with ⟨j, hj, rfl⟩ | ⟨q, hins⟩
    · rw [jobAfter_id, jobAfter_promptRequestId]
      rcases resets_cases h j.promptRequestId with hep | ⟨who, now, hiss⟩
      · rw [hep]
        have hold : k < j.attemptCount ∨ (k = j.attemptCount ∧ j.status = .queued) →
            Ended w'.log j.id (resets w.log j.promptRequestId) k :=
          fun hl => ended_mono h (hi.ended hj k hk hl)
        have hjs := job_step h j
        generalize w.jobAfter env e j = j' at hjs hlate
        cases hjs with
        | same => exact hold hlate
        | claimed hs hpick hd =>
            rcases hlate with hlt | ⟨-, hq⟩
            · have hlt : k < j.attemptCount + 1 := hlt
              rcases Nat.lt_or_eq_of_le (Nat.le_of_lt_succ hlt) with hl | hl
              · exact hold (.inl hl)
              · exact hold (.inr ⟨hl, hd.1⟩)
            · cases hq
        | extended hs hh => exact hold hlate
        | completed hs hst hid =>
            rcases hlate with hlt | ⟨-, hq⟩
            · exact hold (.inl hlt)
            · cases hq
        | buried hs hst hid =>
            rcases hlate with hlt | ⟨-, hq⟩
            · exact hold (.inl hlt)
            · cases hq
        | expired hx =>
            rcases hlate with hlt | ⟨-, hq⟩
            · exact hold (.inl hlt)
            · cases hq
        | reset hc hrs hjq =>
            -- the count starts over, so there is no attempt to account for
            rcases hlate with hlt | ⟨hz, -⟩
            · exact absurd hlt (Nat.not_lt_zero k)
            · exact absurd hz (Nat.ne_of_gt hk)
        | @requeued now _ hrec =>
            rcases hlate with hlt | ⟨hz, -⟩
            · exact hold (.inl hlt)
            · -- the lease of the latest attempt is the one the reaper just found lost
              have hiss : w.issued env (.reap now) = some (.reaper, .reapExpiredLeases now) := rfl
              have hlost : Entry.lost j (resets w.log j.promptRequestId) ∈ w'.log := by
                rw [log_issued h hiss]
                exact List.mem_append_right _ (List.mem_cons_of_mem _ (List.mem_map_of_mem
                  (List.mem_filter.mpr ⟨hj, decide_eq_true hrec.1⟩)))
              have hz : k = j.attemptCount := hz
              exact .inl (List.any_eq_true.mpr ⟨_, hlost, by simp [Entry.fails, hz]⟩)
        | @released s now top1 r _ due hs hrel hown =>
            -- the latest attempt is the releasing run's own, which got there by ending
            rcases hlate with hlt | ⟨hz, -⟩
            · exact hold (.inl hlt)
            · rw [ProcessingJob.OwnedBy, ht.workerId hs] at hown
              obtain ⟨hep₀, hatt₀⟩ := ho.latest hs hj hown.1 hown.2
              have hz : k = j.attemptCount := hz
              rw [hz, hown.1, ← hep₀, ← hatt₀]
              exact ended_mono h (hi.leaving hs hrel)
      · rw [jobAfter_reset hiss] at hlate
        rcases hlate with hlt | ⟨hz, -⟩
        · exact absurd hlt (Nat.not_lt_zero k)
        · exact absurd hz (Nat.ne_of_gt hk)
    · obtain ⟨c, x, now, inTime, -, -, -, -, rfl⟩ := hins.call
      rcases hlate with hlt | ⟨hz, -⟩
      · exact absurd hlt (Nat.not_lt_zero k)
      · exact absurd hz (Nat.ne_of_gt hk)
  leaving := by
    intro s r' hr' hrel
    rcases run_cases h hr' with ⟨r, hr, hst⟩ | hc
    · rw [hst.sameRun.1, hst.sameRun.2.2.2]
      rcases leaving_step h hr hst hrel with hold | hend
      · exact ended_mono h (hi.leaving hr hold)
      · exact hend
    · rw [hc.start] at hrel
      cases hrel

theorem accounted_reachable (h : (machine env).ReachableWhere H w) : Accounted w :=
  invariant_of_moves h accounted_init fun hr hi _ hm =>
    accounted_step hm (tied_reachable hr) (ownership_reachable hr) hi

/-- Attempts either failed or were spared, when all but the latest have ended. -/
theorem failures_add_spared {log : List Entry} {job epoch n : Nat}
    (h : ∀ k, 1 ≤ k → k < n → Ended log job epoch k) :
    failures log job epoch n + spared log job epoch n = n := by
  have hspared : spared log job epoch n
      = (List.range' 1 n).countP fun k => ¬ failed log job epoch k = true := by
    refine List.countP_congr fun k hk => ?_
    obtain ⟨hk₁, hkn⟩ := List.mem_range'_1.mp hk
    rcases Nat.lt_or_ge k n with hlt | hge
    · rcases h k hk₁ hlt with hf | hd
      · simp [hf]
      · simp [hd]
    · have hkn : k = n := by omega
      simp [hkn]
  have hlen := List.length_eq_countP_add_countP (failed log job epoch) (l := List.range' 1 n)
  rw [List.length_range'] at hlen
  rw [hspared]
  unfold failures
  exact hlen.symm

/-! ## Giving a job up -/

/-- What ended in the old history ended in any longer one. -/
theorem ended_append {log : List Entry} (es : List Entry) {job epoch attempt : Nat}
    (h : Ended log job epoch attempt) : Ended (log ++ es) job epoch attempt := by
  unfold Ended failed deferred at h ⊢
  rw [List.any_append, List.any_append, Bool.or_eq_true, Bool.or_eq_true]
  exact h.imp .inl .inl

theorem ended_history {job epoch attempt : Nat} (h : Ended w.log job epoch attempt) :
    Ended (w.historyWith e) job epoch attempt := by
  cases e with
  | reap now => exact ended_append _ h
  | _ => exact h

/-- What gives a job up: a pipeline that marks it dead, or the reaper. -/
theorem issued_giveUp (env : Env S) {j : ProcessingJob} (hg : GivesUp w e j) :
    (∃ who i error now, w.issued env e = some (who, .markDead i error now) ∧
      w.historyWith e = w.log) ∨ ∃ now, e = .reap now := by
  rcases hg with ⟨hw, r, hr, exc, hexc, -⟩ | ⟨now, hnow, -⟩
  · cases e with
    | pipeline s now top1 =>
        cases hs : w.slots s with
        | running x =>
            have hx : x = r := Option.some.inj ((runOf_eq rfl hs).symm.trans hr)
            subst hx
            have hcall : PromptPipeline.call env x now top1
                = some (.markDead x.job.id exc.message now) := by
              unfold Stage.burial at hexc
              unfold PromptPipeline.call
              split at hexc <;> cases hexc
              rename_i hst
              rw [hst]
            refine .inl ⟨.slot s, x.job.id, exc.message, now, ?_, rfl⟩
            exact issued_pipeline hs hcall
        | idle => simp [runOf, Event.slot, hs] at hr
        | stopped => simp [runOf, Event.slot, hs] at hr
    | call c now inTime => simp [runOf, Event.slot] at hr
    | _ => cases hw
  · cases e with
    | reap t => exact .inr ⟨t, rfl⟩
    | _ => cases hnow

/-- The transaction that gives a job up is itself no failure. -/
theorem failed_giveUp (h : Move env w e w') {j : ProcessingJob} (hg : GivesUp w e j)
    (job epoch attempt : Nat) :
    failed w'.log job epoch attempt = failed (w.historyWith e) job epoch attempt := by
  have htx : ∀ who t res, Entry.fails job epoch attempt (.tx who t res) = false :=
    fun _ _ _ => rfl
  rcases issued_giveUp env hg with ⟨who, i, error, now, hiss, hhist⟩ | ⟨now, rfl⟩
  · unfold failed
    rw [log_issued h hiss, hhist, List.any_append, List.any_cons, htx]
    simp [takes]
  · have hiss : w.issued env (.reap now) = some (.reaper, .reapExpiredLeases now) := rfl
    unfold failed
    rw [log_issued h hiss, List.any_append, List.any_cons, htx, Bool.false_or,
      ← List.any_append]
    rfl

/-- **What a job has failed when it is given up.** -/
theorem failures_giveUp (hr : (machine env).ReachableWhere H w) (h : Move env w e w')
    {j : ProcessingJob} (hj : j ∈ w.db.jobs.rows) (hg : GivesUp w e j) :
    failures w'.log j.id (resets w.log j.promptRequestId) j.attemptCount
      + spared (w.historyWith e) j.id (resets w.log j.promptRequestId) j.attemptCount
        = j.attemptCount := by
  have hended : ∀ k, 1 ≤ k → k < j.attemptCount →
      Ended (w.historyWith e) j.id (resets w.log j.promptRequestId) k :=
    fun k hk hlt => ended_history ((accounted_reachable hr).ended hj k hk (.inl hlt))
  have hfail : failed w'.log j.id (resets w.log j.promptRequestId)
      = failed (w.historyWith e) j.id (resets w.log j.promptRequestId) :=
    funext fun k => failed_giveUp h hg _ _ k
  have hsum := failures_add_spared hended
  unfold failures at hsum ⊢
  rw [hfail]
  exact hsum

/-- The budget is kept at a step exactly when what the step gives up is overspent. -/
theorem budgetKept_iff (hr : (machine env).Reachable w) :
    BudgetKept env w e ↔ Overspent env w e := by
  constructor
  · intro hk hstep j hj hn hg
    obtain ⟨w', hw'⟩ := Option.isSome_iff_exists.mp hstep
    have hmax := hk w' hw' j hj hn hg
    have hsum := failures_giveUp hr (move_of_step hw') hj hg
    omega
  · intro ho w' hw' j hj hn hg
    have hmax := ho (by rw [hw']; rfl) j hj hn hg
    have hsum := failures_giveUp hr (move_of_step hw') hj hg
    omega

/--
**Which runs keep the retry budget.** A run never gives a job up before its claims
failed `max_attempts` times, if and only if, whenever it gives a job up,
`attempt_count` exceeds `max_attempts` by as many claims as were spared.
-/
theorem retry_budget_iff (env : Env S) (es : List Event) :
    (machine env).Meets (BudgetKept env) World.init es ↔
      (machine env).Meets (Overspent env) World.init es :=
  Machine.meets_congr (fun _ _ hr => budgetKept_iff hr) Machine.ReachableWhere.init es

/-! ## An outage -/

/-- A claim that finds Redis down and gives its lease back, at a time. -/
def outage (now : Time) : List Event :=
  [.claim 0 now [] (some 1), .pipeline 0 now none, .pipeline 0 now none,
    .limiter 0 (.unavailable "down"), .pipeline 0 now none, .pipeline 0 now none, .next 0]

/-- Five claims while Redis is down, the last up to the point where the job is given up. -/
def outageRun : List Event :=
  submission 0 "p" "a" ++ outage 1 ++ outage 10 ++ outage 20 ++ outage 40 ++
    [.claim 0 80 [] (some 1), .pipeline 0 80 none, .pipeline 0 80 none,
      .limiter 0 (.unavailable "down")]

/-- **The outage kills the job, and no claim ever failed.** -/
theorem outage_exhausts_budget : ¬ (machine deployment).Meets (BudgetKept deployment) World.init
    (outageRun ++ [.pipeline 0 80 none]) := by
  obtain ⟨w, hw, hreach, ht⟩ := Machine.reachable_of_run (m := machine deployment)
    (E := outageRun) (p := fun w => decide (¬ Overspent deployment w (.pipeline 0 80 none)))
    (by decide +kernel)
  intro hkept
  exact of_decide_eq_true ht ((budgetKept_iff hreach).mp (hkept.after hw))

end PromptQueue.Proof
