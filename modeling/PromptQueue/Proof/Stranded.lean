import PromptQueue.Proof.Ownership
import PromptQueue.Proof.Replay

/-!
# No request waits for ever

A request that is neither completed nor failed has to have a job something will
come back to: queued, so a worker can claim it, or in progress under a lease, so
the reaper can take it. Request and job are written by separate transactions, so
between two of them the promise is kept by the process that still has the second
one to make — and by nobody once that process is gone.

Two gaps are left open like that, `mark_dead` before `mark_failed` and the two
writes of a re-enqueue, and two writes are made without a look at the other table,
`mark_completed` of a job and the retry's write to the request. `Careful` excludes
exactly these four, and then nothing is ever stranded.
-/

namespace PromptQueue

/-- Between `mark_dead` and `mark_failed`. -/
def Stage.halfDead : Stage → Bool
  | .markFailed _ => true
  | _ => false

/-- The request whose re-enqueue a call has half done. -/
def CallStage.halfReenqueued : CallStage → Option PromptRequest
  | .reenqueueReset q => some q
  | _ => none

end PromptQueue

namespace PromptQueue.Proof

open PromptQueue Base World

variable {S : Type} [LinearOrder S] {env : Env S} {w w' : World} {e : Event}

/-- A job a worker can claim or the reaper can reclaim. -/
def Recoverable (j : ProcessingJob) : Prop :=
  j.status = .queued ∨ (j.status = .processing ∧ j.lockedUntil ≠ none)

instance : DecidablePred Recoverable := fun _ => inferInstanceAs (Decidable (_ ∨ _))

/-- A live process still has a write to this request or its job ahead of it. -/
def PendingWrite (w : World) (q : Nat) : Prop :=
  (∃ s r, w.slots s = .running r ∧ r.req.id = q ∧ ∀ how, r.stage ≠ .done how) ∨
    ∃ c k x, w.calls c = some k ∧
      (k.stage = .reenqueueStatus x ∨ k.stage = .reenqueueReset x) ∧ x.id = q

/-- **No stranded request.** -/
def NoStranded (w : World) : Prop :=
  ∀ q ∈ w.db.requests.rows, q.status.isTerminal = false → ¬ PendingWrite w q.id →
    ∃ j ∈ w.db.jobs.rows, j.promptRequestId = q.id ∧ Recoverable j

/-! ## The steps that strand -/

/-- The request is terminal. -/
def Settled (w : World) (q : Nat) : Prop :=
  ∀ r ∈ w.db.requests.rows, r.id = q → r.status.isTerminal = true

instance (w : World) (q : Nat) : Decidable (Settled w q) :=
  inferInstanceAs (Decidable (∀ r ∈ w.db.requests.rows, _ → _))

/-- The request's job is recoverable. -/
def Kept (w : World) (q : Nat) : Prop :=
  ∀ j ∈ w.db.jobs.rows, j.promptRequestId = q → Recoverable j

instance (w : World) (q : Nat) : Decidable (Kept w q) :=
  inferInstanceAs (Decidable (∀ j ∈ w.db.jobs.rows, _ → _))

/--
A step that strands nobody: no pipeline ends between `mark_dead` and `mark_failed`
and no call between the two writes of its re-enqueue unless the request is terminal
or the job recoverable anyway; a job is marked completed only while its request is
terminal; a retry re-queues the request only while the job is recoverable.
-/
def Careful (w : World) (e : Event) : Prop :=
  (∀ r ∈ w.runOf e,
    (e.breaks = true → r.stage.halfDead = true → Settled w r.req.id ∨ Kept w r.req.id) ∧
    (e.writes = true → r.stage = .finishJob → Settled w r.req.id) ∧
    (e.writes = true → r.stage.halfRetried = true → Kept w r.req.id)) ∧
  ∀ k ∈ w.callOf e, e.drops = true → ∀ q ∈ k.stage.halfReenqueued, Settled w q.id ∨ Kept w q.id

instance (w : World) : DecidablePred (Careful w) := fun _ => inferInstanceAs (Decidable (_ ∧ _))

/-! ## What holds instead of luck -/

/-- The one write that will set things right is still to come. -/
def Owed (w : World) (q : Nat) : Prop :=
  (∃ s r, w.slots s = .running r ∧ r.req.id = q ∧ r.stage.halfDead = true) ∨
    ∃ c k x, w.calls c = some k ∧ k.stage = .reenqueueReset x ∧ x.id = q

/-- A request that is not terminal has a recoverable job, or is owed a write. -/
def Guarded (w : World) : Prop :=
  ∀ q ∈ w.db.requests.rows, ∀ j ∈ w.db.jobs.rows, j.promptRequestId = q.id →
    q.status.isTerminal = false → Recoverable j ∨ Owed w q.id

theorem guarded_init : Guarded World.init := by
  intro q hq; cases hq

/-- A step that touches no table. -/
theorem issued_of_breaks (he : e.breaks = true) : w.issued env e = none := by
  cases e <;> first | rfl | cases he

/-- A recoverable job stays recoverable, or the request is settled or owed a write. -/
theorem recoverable_step (h : Move env w e w') (ht : Tied env w) (hH : Careful w e)
    {q : PromptRequest} {j : ProcessingJob} (hq : q ∈ w.db.requests.rows)
    (hj : j ∈ w.db.jobs.rows) (hjq : j.promptRequestId = q.id) (hr : Recoverable j)
    (hn : q.status.isTerminal = false)
    (hn' : (w.requestAfter env e q).status.isTerminal = false) :
    Recoverable (w.jobAfter env e j) ∨ Owed w' q.id := by
  generalize hj' : w.jobAfter env e j = j'
  have hst := job_step h j
  rw [hj'] at hst
  cases hst with
  | same => exact .inl hr
  | claimed hs hp hd => exact .inl (.inr ⟨rfl, nofun⟩)
  | extended hs hh => exact .inl (.inr ⟨hh.2.2, nofun⟩)
  | released hs hst ho => exact .inl (.inl rfl)
  | reset hc hst hid => exact .inl (.inl rfl)
  | requeued hrec => exact .inl (.inl rfl)
  | @completed s now top1 r _ hs hst hid =>
      -- a job is completed under a settled request only
      have hsettled := (hH.1 r (runOf_eq rfl hs)).2.1 rfl hst
      have hid := ((ht.id_iff hs hj).mp hid).symm.trans hjq
      rw [hsettled q hq hid.symm] at hn
      cases hn
  | @buried s now top1 r _ exc hs hst hid =>
      -- from here on the pipeline owes the request its failure
      have hid := ((ht.id_iff hs hj).mp hid).symm.trans hjq
      rcases run_forward h hs with ⟨r', hr', hrs⟩ | he | ⟨he, -⟩
      · refine .inr (.inl ⟨s, r', hr', ?_, ?_⟩)
        · rw [hrs.sameRun.2.1]; exact hid
        · cases hrs with
          | same he => exact absurd rfl he
          | wrote htx =>
              obtain ⟨x, hx, hturn⟩ := PromptPipeline.turn_of_call w.db htx
              rw [hx]
              cases hturn with
              | buried _ => rfl
              | _ => simp_all
          | thought he ht => cases he
      · cases he
      · cases he
  | expired hx =>
      -- the reaper fails the request in the same transaction
      rw [requestAfter_exhausted hj hx hjq.symm] at hn'
      cases hn'

/-- What a request is owed stays owed until it is paid. -/
theorem owed_step (h : Move env w e w') (hH : Careful w e)
    {q : PromptRequest} {j : ProcessingJob} (hq : q ∈ w.db.requests.rows)
    (hj : j ∈ w.db.jobs.rows) (hjq : j.promptRequestId = q.id) (ho : Owed w q.id)
    (hn' : (w.requestAfter env e q).status.isTerminal = false) :
    Recoverable (w.jobAfter env e j) ∨ Owed w' q.id := by
  -- a process that goes without its write leaves both rows alone
  have spared : w.issued env e = none → Settled w q.id ∨ Kept w q.id →
      Recoverable (w.jobAfter env e j) ∨ Owed w' q.id := by
    intro hi hsk
    simp only [requestAfter, hi] at hn'
    rcases hsk with hs | hk
    · rw [hs q hq rfl] at hn'
      cases hn'
    · refine .inl ?_
      simp only [jobAfter, hi]
      exact hk j hj hjq
  rcases ho with ⟨s, r, hr, hrq, hst⟩ | ⟨c, k, x, hk, hst, hx⟩
  · have hrun : e.slot = some s → e.breaks = true →
        Recoverable (w.jobAfter env e j) ∨ Owed w' q.id := fun hs hb =>
      spared (issued_of_breaks hb) (hrq ▸ (hH.1 r (runOf_eq hs hr)).1 hb hst)
    rcases run_forward h hr with ⟨r', hr', hrs⟩ | rfl | ⟨-, how, hd⟩
    · cases hrs with
      | same he => exact .inr (.inl ⟨s, _, hr', hrq, hst⟩)
      | beat hl => exact .inr (.inl ⟨s, _, hr', hrq, hst⟩)
      | wrote htx =>
          obtain ⟨x, -, hturn⟩ := PromptPipeline.turn_of_call w.db htx
          cases hturn with
          | failed hst' =>
              -- the write it owed: the request is failed now
              rw [requestAfter_pipeline hr htx] at hn'
              simp only [Tx.onRequest] at hn'
              rw [Table.updateRow, if_pos hrq.symm] at hn'
              cases hn'
          | _ => simp_all [Stage.halfDead]
      | @thought _ _ _ _ es he hth =>
          have hdeaf : r.stage.hears = false := by
            cases hrs : r.stage <;> rw [hrs] at hst <;> first | rfl | cases hst
          exact hrun (slot_of_thinker he) (thought_deaf hth hdeaf).1
    · exact hrun rfl rfl
    · rw [hd] at hst; cases hst
  · rcases call_forward h hk with ⟨k', hk', hks⟩ | rfl
    · cases hks with
      | same he => exact .inr (.inr ⟨c, _, x, hk', hst, hx⟩)
      | @wrote _ _ now inTime t htx =>
          -- the write it owed: the job is queued now
          have hcall : PromptProcessor.call env k now = some (.resetJob x.id now) :=
            PromptProcessor.turn_iff.mpr (.reset hst)
          refine .inl (.inl ?_)
          rw [jobAfter_call hk hcall]
          simp only [Tx.onJob]
          rw [Table.updateRow, if_pos (hjq.trans hx.symm)]
          rfl
    · refine spared rfl (hx ▸ hH.2 k (callOf_eq rfl hk) rfl x ?_)
      rw [hst]; rfl

/-- **One careful step leaves every request guarded.** -/
theorem guarded_step (h : Move env w e w') (ht : Tied env w) (hi : Guarded w)
    (hH : Careful w e) : Guarded w' := by
  intro q' hq' j' hj' hjq hn'
  rcases pair_origin h hq' hj' hjq with ⟨q, hq, j, hj, hjq₀, rfl, rfl⟩ | hins
  · rw [requestAfter_id]
    cases hn : q.status.isTerminal with
    | false =>
        rcases hi q hq j hj hjq₀ hn with hr | ho
        · exact recoverable_step h ht hH hq hj hjq₀ hr hn hn'
        · exact owed_step h hH hq hj hjq₀ ho hn'
    | true =>
        generalize hq'' : w.requestAfter env e q = q' at hn'
        have hst := request_step h q
        rw [hq''] at hst
        cases hst with
        | same => rw [hn] at hn'; cases hn'
        | completed hs hst hid => cases hn'
        | failed hs hst hid => cases hn'
        | expired hj hx hid => cases hn'
        | @reenqueued c k now inTime x _ hc hst hid =>
            -- the call owes the job its reset
            rcases call_forward h hc with ⟨k', hk', hks⟩ | he
            · refine .inr (.inr ⟨c, k', x, hk', ?_, hid.symm⟩)
              cases hks with
              | same he => exact absurd rfl he
              | wrote htx => simp [PromptProcessor.resume, hst]
            · cases he
        | @retried s now top1 r _ exc hs hst hid =>
            refine .inl ?_
            have hcall : PromptPipeline.call env r now top1 = some (.updateRetry r.req.id .queued
                (r.req.retryCount + 1) exc.message now) := by
              unfold PromptPipeline.call; rw [hst]
            rw [jobAfter_pipeline hs hcall]
            exact (hH.1 r (runOf_eq rfl hs)).2.2 rfl (by rw [hst]; rfl) j hj (hjq₀.trans hid)
        | @requeued now i _ hi hr hid =>
            rw [Db.job_unique hj hi (hjq₀.trans hid)]
            exact .inl (.inl (congrArg (·.status) (onJob_reclaimable hr)))
  · obtain ⟨c, k, now, inTime, -, -, -, -, rfl⟩ := hins.call
    exact .inl (.inl rfl)

theorem guarded_reachable (h : (machine env).ReachableWhere Careful w) : Guarded w :=
  invariant_of_moves h guarded_init fun hr hi hH hm => guarded_step hm (tied_reachable hr) hi hH

/--
**In a careful run no request is ever stranded.** Every request that is neither
completed nor failed, and that no live process will write, has a job a worker can
claim or the reaper can reclaim.
-/
theorem no_stranded_request (h : (machine env).ReachableWhere Careful w) : NoStranded w := by
  intro q hq hn hp
  obtain ⟨j, hj, hjq⟩ := (tied_reachable h).paired hq
  refine ⟨j, hj, hjq, ?_⟩
  rcases guarded_reachable h q hq j hj hjq hn with hr | ho
  · exact hr
  · refine absurd ?_ hp
    rcases ho with ⟨s, r, hr, hrq, hst⟩ | ⟨c, k, x, hk, hst, hx⟩
    · refine .inl ⟨s, r, hr, hrq, fun how hd => ?_⟩
      rw [hd] at hst; cases hst
    · exact .inr ⟨c, k, x, hk, .inr hst, hx⟩

/-- A worker dies in the middle of a job, carefully: the reaper can still take the lease. -/
theorem no_stranded_request_after_crash : ∃ w, w.slots 0 = .stopped ∧
    w.db.jobs.rows.map (·.status) = [.processing] ∧ NoStranded w := by
  obtain ⟨w, hw, ht⟩ := Machine.reachableWhere_of_run (m := machine deployment) (H := Careful)
    (E := submission 0 "p" "a" ++ [.claim 0 1 [] (some 1), .pipeline 0 2 none, .crash 0])
    (p := fun w => decide (w.slots 0 = .stopped ∧
      w.db.jobs.rows.map (·.status) = [.processing])) (by decide +kernel)
  obtain ⟨hs, hj⟩ := of_decide_eq_true ht
  exact ⟨w, hs, hj, no_stranded_request hw⟩

/-! ## A stranded request -/

/--
One claim. The cache misses, the provider refuses the prompt, which is not worth a
retry; the failure handler marks the job dead, and the process dies before it marks
the request failed. The caller stops waiting.
-/
def halfDeadRun : List Event :=
  submission 0 "p" "a" ++ [.claim 0 1 [] (some 1), .pipeline 0 1 none, .pipeline 0 1 none,
    .limiter 0 .granted, .llmCall 0, .llmRaise 0 ⟨.llmProviderError, "prompt refused"⟩,
    .pipeline 0 2 none, .crash 0, .callCrash 0]

/-- **The run leaves no process at work and a request nothing will ever come back to.** -/
theorem stranded_request_exists : ∃ w, (machine deployment).Reachable w ∧ ¬ NoStranded w := by
  obtain ⟨w, hw, hreach, ht⟩ := Machine.reachable_of_run (m := machine deployment)
    (E := halfDeadRun) (p := fun w => decide (w.slots 0 = .stopped ∧ w.calls 0 = none ∧
      w.db.requests.rows.map (fun q => (q.id, q.status)) = [(1, .queued)] ∧
      w.db.jobs.rows.map (·.status) = [.dead])) (by decide +kernel)
  obtain ⟨hslot, hcall, hreq, hjob⟩ := of_decide_eq_true ht
  obtain ⟨hslots, hcalls⟩ := untouched_of_run (n := 1) (m := 1) hw (by decide)
  obtain ⟨q, hq, hqe⟩ := List.map_eq_singleton_iff.mp hreq
  obtain ⟨j, hj, hje⟩ := List.map_eq_singleton_iff.mp hjob
  have hidle : ¬ PendingWrite w q.id := by
    rintro (⟨s, r, hs, -, -⟩ | ⟨c, k, x, hk, -, -⟩)
    · rcases Nat.eq_zero_or_pos s with rfl | hpos
      · exact absurd (hslot.symm.trans hs) nofun
      · exact absurd ((hslots s hpos).symm.trans hs) nofun
    · rcases Nat.eq_zero_or_pos c with rfl | hpos
      · exact absurd (hcall.symm.trans hk) nofun
      · exact absurd ((hcalls c hpos).symm.trans hk) nofun
  refine ⟨w, hreach, fun hns => ?_⟩
  have hn : q.status.isTerminal = false := by rw [(Prod.mk.inj hqe).2]; rfl
  obtain ⟨i, hi, -, hrec⟩ := hns q (by rw [hq]; exact List.mem_singleton_self q) hn hidle
  rw [hj, List.mem_singleton] at hi
  subst hi
  rcases hrec with h | ⟨h, -⟩ <;> exact absurd (hje.symm.trans h) nofun

end PromptQueue.Proof
