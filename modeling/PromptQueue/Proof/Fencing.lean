import PromptQueue.Proof.Ownership
import PromptQueue.Proof.Replay

/-!
# Stale runs

A run whose job was taken from it goes on until its heartbeat notices. Two of its
writes are fenced by `worker_id`, `extend_lease` and `release_lease`; the four that
end a job are not, and `release_lease` is let down by the row of a job the reaper
buried, which keeps the `worker_id` of the run it was taken from.

`Fenced` is a run of the system in which no stale run gets as far as one of these.
There the two guarded writes, the one write left after a release, and everything
else a stale run does leave its job and its request alone.
-/

namespace PromptQueue

/-- The stages that wait for a write without a look at `worker_id`. -/
def Stage.unfenced : Stage → Bool
  | .finishRequest _ _ _ | .finishJob | .markDead _ | .markFailed _ => true
  | _ => false

end PromptQueue

namespace PromptQueue.Proof

open PromptQueue Base World

variable {S : Type} [LinearOrder S] {env : Env S} {w w' : World} {e : Event}

/-- The job row and the request row of a run are what they were. -/
def Untouched (w w' : World) (r : Run) : Prop :=
  (∀ j ∈ w.db.jobs.rows, j.id = r.job.id → j ∈ w'.db.jobs.rows) ∧
    ∀ q ∈ w.db.requests.rows, q.id = r.req.id → q ∈ w'.db.requests.rows

/-- A step of a stale run, its heartbeat included, touches neither of its rows. -/
def StaleHarmless (env : Env S) (w : World) (e : Event) : Prop :=
  ∀ s r w', e.slot = some s → w.slots s = .running r → Taken w.log r →
    World.step env w e = some w' → Untouched w w' r

/--
A step no stale run does harm with: it does not complete, bury or fail anything,
and it does not release a dead job that still names it.
-/
def Fenced (w : World) (e : Event) : Prop :=
  ∀ r ∈ w.runOf e, e.writes = true → Taken w.log r → r.stage.unfenced = false ∧
    (r.stage.releases = true → ∀ j ∈ w.db.jobs.rows,
      ProcessingJob.OwnedBy r.job.id (PromptPipeline.workerId r) j → j.status ≠ .dead)

instance (w : World) : DecidablePred (Fenced w) :=
  fun e => inferInstanceAs (Decidable (∀ r ∈ w.runOf e, _))

/-! ## The invariant -/

theorem taken_iff {log : List Entry} {r : Run} :
    Taken log r ↔ ∃ x, claimEnd log r = some x ∧ x.isRelease = false := by
  unfold Taken
  cases claimEnd log r <;> simp

/-- What stays true of stale runs. -/
structure Fence (w : World) : Prop where
  /-- A stale run's row names its slot only if the job is dead. -/
  buried : ∀ {s r j}, w.slots s = .running r → Taken w.log r → j ∈ w.db.jobs.rows →
    j.id = r.job.id → j.workerId = some s → j.status = .dead
  /-- A pipeline between its release and its retry gave the job back itself. -/
  retried : ∀ {s r}, w.slots s = .running r → r.stage.halfRetried = true →
    ∃ x, claimEnd w.log r = some x ∧ x.isRelease = true

theorem fence_init : Fence World.init := ⟨nofun, nofun⟩

/-- How a claim is taken. -/
theorem taken_by {r : Run} {x : Entry} (hf : Fresh env w e x) (he : x.ends r = true)
    (hx : x.isRelease = false) :
    (∃ now, e = .reap now ∧ ∃ j ∈ w.db.jobs.rows, ProcessingJob.Expired now j ∧
      j.id = r.job.id) ∨
    ∃ who now, w.issued env e = some (who, .resetJob r.job.promptRequestId now) := by
  cases hf with
  | lost hj hx' => exact .inl ⟨_, rfl, _, hj, hx', of_decide_eq_true he⟩
  | notified => cases he
  | thought hs he' ht hx' => cases ht <;> simp at hx' <;> (rw [hx'] at he; cases he)
  | @tx _ who t hi =>
      cases t with
      | resetJob q now =>
          have : q = r.job.promptRequestId := of_decide_eq_true he
          exact .inr ⟨who, now, this ▸ hi⟩
      | releaseLease j s wait now => cases hx
      | _ => cases he

/-- A run that gets an unguarded write through holds its claim, and its row names it. -/
theorem holder_of_unfenced (hown : Ownership w) (hH : Fenced w e) {s : WorkerId} {r : Run}
    (hr : w.slots s = .running r) (he : e.slot = some s) (hw : e.writes = true)
    (hst : r.stage.unfenced = true) : claimEnd w.log r = none := by
  cases hx : claimEnd w.log r with
  | none => rfl
  | some x =>
      cases hrel : x.isRelease with
      | true =>
          have hafter := hown.released hr hx hrel
          cases hrs : r.stage <;> rw [hrs] at hst hafter <;> cases hst <;> cases hafter
      | false =>
          have hfree := (hH r (runOf_eq he hr) hw (taken_iff.mpr ⟨x, hx, hrel⟩)).1
          rw [hst] at hfree; cases hfree

/-- The row of a job that was taken before. -/
theorem buried_old (h : Move env w e w') (hown : Ownership w) (hi : Fence w) (hH : Fenced w e)
    {s : WorkerId} {r : Run} {j : ProcessingJob} (hr : w.slots s = .running r)
    (htk : Taken w.log r) (hj : j ∈ w.db.jobs.rows) (hid : j.id = r.job.id)
    (ho : (w.jobAfter env e j).workerId = some s) : (w.jobAfter env e j).status = .dead := by
  have hst := job_step h j
  have ho₀ := (owner_back hst ho).resolve_right (by rw [hr]; nofun)
  have hdead := hi.buried hr htk hj hid ho₀
  generalize w.jobAfter env e j = j' at hst ho
  cases hst with
  | same => exact hdead
  | claimed hs hp hd => exact absurd (hd.1.symm.trans hdead) nofun
  | extended hs hh => exact absurd (hh.2.2.symm.trans hdead) nofun
  | buried hs hst hid => rfl
  | expired hx => rfl
  | released hs hst hoo => cases ho
  | reset hc hst hid => cases ho
  | requeued hrec => cases ho
  | @completed s₀ now top1 r₀ _ hs₀ hst hid₀ =>
      -- who completes a job holds its claim, and the slot in the row is the stale run's
      have hn := holder_of_unfenced hown hH hs₀ rfl rfl (by rw [hst]; rfl)
      cases Option.some.inj (ho₀.symm.trans (hown.held hs₀ hn hj hid₀))
      cases Slot.running.inj (hs₀.symm.trans hr)
      obtain ⟨x, hx, -⟩ := taken_iff.mp htk
      rw [hn] at hx; cases hx

theorem handleFailure_not_retried (job : ProcessingJob) (exc : Exc) :
    (PromptPipeline.handleFailure job exc).halfRetried = false := by
  rcases PromptPipeline.handleFailure_cases job exc with ⟨wait, -, hs⟩ | ⟨-, -, hs⟩ |
    ⟨-, -, -, hs⟩ <;> (rw [hs]; rfl)

/-- A pipeline gets to the second write of a retry by a release that went through. -/
theorem retried_step {s : WorkerId} {r r' : Run} (hr : w.slots s = .running r)
    (h : RunStep env w e s r r') (hst : r'.stage.halfRetried = true) :
    r.stage.halfRetried = true ∨ ∃ now top1 wait, e = .pipeline s now top1 ∧
      r.stage.releases = true ∧ w.issued env e = some (.slot s,
        .releaseLease r.job.id (PromptPipeline.workerId r) wait now) ∧
      (w.db.exec (.releaseLease r.job.id (PromptPipeline.workerId r) wait now)).2
        = .updated true := by
  cases h with
  | same he => exact .inl hst
  | beat hl => exact .inl hst
  | thought he hth =>
      cases hth with
      | dbError hc =>
          dsimp only [PromptPipeline.fail] at hst
          split at hst
          · rw [handleFailure_not_retried] at hst; cases hst
          · cases hst
      | unavailable h => rw [handleFailure_not_retried] at hst; cases hst
      | failed hx h => rw [handleFailure_not_retried] at hst; cases hst
      | _ => cases hst
  | @wrote _ _ now top1 t ht =>
      right
      have hiss : w.issued env (.pipeline s now top1) = some (.slot s, t) :=
        issued_pipeline hr ht
      obtain ⟨x, hx, hturn⟩ := PromptPipeline.turn_of_call w.db ht
      rw [hx] at hst
      cases hturn with
      | released hrs hown =>
          exact ⟨now, top1, _, rfl, by rw [hrs]; rfl, hiss, congrArg Res.updated hown⟩
      | _ => cases hst

/-- **One fenced step keeps the fence.** -/
theorem fence_step (h : Move env w e w') (ht : Tied env w) (hown : Ownership w)
    (hi : Fence w) (hH : Fenced w e) : Fence w' where
  buried := by
    intro s r' j' hr' htk hj' hid ho
    rcases run_cases h hr' with ⟨r, hr, hrs⟩ | hcl
    · obtain ⟨x, hx, hrel⟩ := taken_iff.mp htk
      rw [claimEnd_same hrs.sameRun] at hx
      rw [hrs.sameRun.1] at hid
      obtain ⟨j, hj, hid₀, rfl⟩ := ht.job_back h hr hj' hid
      rcases claimEnd_cases h (ht.ticket hr) hx with hx | ⟨-, hf, he⟩
      · exact buried_old h hown hi hH hr (taken_iff.mpr ⟨x, hx, hrel⟩) hj hid₀ ho
      · rcases taken_by hf he hrel with ⟨now, rfl, i, hi', hexp, hii⟩ | ⟨who, now, hiss⟩
        · -- a re-queued row names nobody, so this one was buried
          cases Db.job_eq_of_id hi' hj (hii.trans hid₀.symm)
          rcases onJob_expired hexp with heq | heq
          · exact absurd ((congrArg (·.workerId) heq).symm.trans ho) nofun
          · exact congrArg (·.status) heq
        · have hstatic : j.promptRequestId = r.job.promptRequestId :=
            congrArg (·.2.1) (ht.static_of_id hr hj hid₀)
          rw [← hstatic] at hiss
          rw [jobAfter_reset hiss] at ho; cases ho
    · obtain ⟨x, hx, -⟩ := taken_iff.mp htk
      rw [claimEnd_claimed h hcl] at hx; cases hx
  retried := by
    intro s r' hr' hst
    rcases run_cases h hr' with ⟨r, hr, hrs⟩ | hcl
    · rw [claimEnd_same hrs.sameRun]
      rcases retried_step hr hrs hst with hst | ⟨now, top1, wait, rfl, hrel, hiss, hres⟩
      · obtain ⟨x, hx, hrel⟩ := hi.retried hr hst
        exact ⟨x, claimEnd_mono h (ht.ticket hr) hx, hrel⟩
      · cases hx : claimEnd w.log r with
        | none =>
            refine ⟨.tx (.slot s) (.releaseLease r.job.id (PromptPipeline.workerId r) wait now)
              (w.db.exec (.releaseLease r.job.id (PromptPipeline.workerId r) wait now)).2,
              ?_, rfl⟩
            rw [log_issued h hiss, claimEnd_append (ht.ticket hr), hx, Option.none_or,
              List.find?_cons_of_pos (Entry.ends_release.mpr ⟨hres, rfl, rfl⟩)]
        | some x =>
            cases hxr : x.isRelease with
            | true => exact ⟨x, claimEnd_mono h (ht.ticket hr) hx, hxr⟩
            | false =>
                -- a stale run's release goes through only on a dead row
                have htk := taken_iff.mpr ⟨x, hx, hxr⟩
                have hhits := Res.updated.inj hres
                obtain ⟨j, hj, hown⟩ := Table.hits_iff.mp hhits
                have hfree := (hH r (runOf_eq rfl hr) rfl htk).2 hrel j hj hown
                rw [ProcessingJob.OwnedBy, ht.workerId hr] at hown
                exact absurd (hi.buried hr htk hj hown.1 hown.2) hfree
    · rw [hcl.start] at hst
      cases hst

theorem fence_reachable (h : (machine env).ReachableWhere Fenced w) : Fence w :=
  invariant_of_moves h fence_init fun hr hi hH hm =>
    fence_step hm (tied_reachable hr) (ownership_reachable hr) hi hH

/--
**In a fenced run stale workers do no harm.** Whatever stage a run had reached when
its job was taken from it, and whoever has claimed the job since, its next write
leaves the job row and the request row as they are.
-/
theorem stale_run_harmless (h : (machine env).ReachableWhere Fenced w) (hH : Fenced w e) :
    StaleHarmless env w e := by
  intro s r w' he hr htk hstep
  have hm := move_of_step hstep
  have ht := tied_reachable h
  have hi := fence_reachable h
  have free := fun hw => hH r (runOf_eq he hr) hw htk
  refine ⟨fun j hj hid => ?_, fun q hq hid => ?_⟩
  · have hgoes := job_goes_on hm hj
    have hst := job_step hm j
    generalize w.jobAfter env e j = j' at hst hgoes
    cases hst with
    | same => exact hgoes
    | claimed hs hp hd => cases he; exact absurd (hs.symm.trans hr) nofun
    | reset hc hst hid => cases he
    | requeued hrec => cases he
    | expired hx => cases he
    | extended hs hh =>
        cases he
        cases Slot.running.inj (hs.symm.trans hr)
        exact absurd (hh.2.2.symm.trans (hi.buried hr htk hj hid hh.2.1)) nofun
    | released hs hst hown =>
        cases he
        cases Slot.running.inj (hs.symm.trans hr)
        have hfree := (free rfl).2 hst j hj hown
        rw [ProcessingJob.OwnedBy, ht.workerId hr] at hown
        exact absurd (hi.buried hr htk hj hid hown.2) hfree
    | completed hs hst hid =>
        cases he
        cases Slot.running.inj (hs.symm.trans hr)
        have hfree := (free rfl).1
        rw [hst] at hfree; cases hfree
    | buried hs hst hid =>
        cases he
        cases Slot.running.inj (hs.symm.trans hr)
        have hfree := (free rfl).1
        rw [hst] at hfree; cases hfree
  · have hgoes := request_goes_on hm hq
    have hst := request_step hm q
    generalize w.requestAfter env e q = q' at hst hgoes
    cases hst with
    | same => exact hgoes
    | reenqueued hk hst hid => cases he
    | requeued hj hr hid => cases he
    | expired hj hx hid => cases he
    | retried hs hst hid =>
        cases he
        cases Slot.running.inj (hs.symm.trans hr)
        -- its claim ended with its own release, so it was not taken
        obtain ⟨x, hx, hrel⟩ := hi.retried hr (by rw [hst]; rfl)
        obtain ⟨y, hy, hn⟩ := taken_iff.mp htk
        cases hx.symm.trans hy
        rw [hrel] at hn; cases hn
    | completed hs hst hid =>
        cases he
        cases Slot.running.inj (hs.symm.trans hr)
        have hfree := (free rfl).1
        rw [hst] at hfree; cases hfree
    | failed hs hst hid =>
        cases he
        cases Slot.running.inj (hs.symm.trans hr)
        have hfree := (free rfl).1
        rw [hst] at hfree; cases hfree

/-! ## A stale worker -/

/-- The run in the slot an event moves is stale. -/
def StaleAt (w : World) (e : Event) : Prop := ∃ r ∈ w.runOf e, Taken w.log r

instance (w : World) (e : Event) : Decidable (StaleAt w e) :=
  inferInstanceAs (Decidable (∃ r ∈ w.runOf e, _))

/-- A claim that was denied by the limiter and lost its lease before it could give it back. -/
def lateReleaseRun : List Event :=
  submission 0 "p" "a" ++ [.claim 0 1 [] (some 1), .pipeline 0 1 none, .pipeline 0 1 none,
    .limiter 0 .denied, .reap 20, .claim 1 21 [] (some 1)]

/-- Its release comes late and finds another worker's id in the row. -/
theorem stale_run_harmless_late_release : ∃ w, StaleAt w (.pipeline 0 22 none) ∧
    StaleHarmless deployment w (.pipeline 0 22 none) := by
  obtain ⟨w, hw, ht⟩ := Machine.reachableWhere_of_run (m := machine deployment) (H := Fenced)
    (E := lateReleaseRun) (p := fun w => decide (StaleAt w (.pipeline 0 22 none) ∧
      Fenced w (.pipeline 0 22 none))) (by decide +kernel)
  obtain ⟨hst, hH⟩ := of_decide_eq_true ht
  exact ⟨w, hst, stale_run_harmless hw hH⟩

/-- A claim that lost its lease while the provider was answering; another worker has the job. -/
def lateAnswerRun : List Event :=
  submission 0 "p" "a" ++ [.claim 0 1 [] (some 1), .pipeline 0 1 none, .pipeline 0 1 none,
    .limiter 0 .granted, .llmCall 0, .reap 20, .claim 1 21 [] (some 1), .llmReturn 0 "answer",
    .pipeline 0 22 none]

/-- **The stale worker completes the request under the other's hands.** -/
theorem stale_run_not_harmless : ∃ w e, (machine deployment).Reachable w ∧
    ¬ StaleHarmless deployment w e := by
  obtain ⟨w, -, hw, ht⟩ := Machine.reachable_of_run (m := machine deployment)
    (E := lateAnswerRun) (p := fun w => decide ((∃ r ∈ w.runOf (.pipeline 0 23 none),
      Taken w.log r ∧ r.req.id = 1) ∧ (∃ q ∈ w.db.requests.rows, q.id = 1 ∧ q.status = .queued) ∧
      (World.step deployment w (.pipeline 0 23 none)).any (fun w' =>
        w'.db.requests.rows.all (·.status = .completed)) = true)) (by decide +kernel)
  obtain ⟨⟨r, hr, htk, hrq⟩, ⟨q, hq, hqid, hqs⟩, hstep⟩ := of_decide_eq_true ht
  refine ⟨w, .pipeline 0 23 none, hw, fun hh => ?_⟩
  cases hs : w.slots 0 with
  | running r₀ =>
      rw [runOf_eq rfl hs] at hr
      cases hr
      cases hw' : World.step deployment w (.pipeline 0 23 none) with
      | none => rw [hw'] at hstep; cases hstep
      | some w' =>
          rw [hw'] at hstep
          have hq' := (hh 0 r w' rfl hs htk hw').2 q hq (hqid.trans hrq.symm)
          have hall := of_decide_eq_true (List.all_eq_true.mp hstep q hq')
          exact absurd (hqs.symm.trans hall) nofun
  | idle => simp [runOf, Event.slot, hs] at hr
  | stopped => simp [runOf, Event.slot, hs] at hr

end PromptQueue.Proof
