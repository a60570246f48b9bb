import PromptQueue.Proof.Fencing

/-!
# What the heartbeat aborts

`extend_lease` fails for any row that is not in progress under the slot, and the
heartbeat takes every failure for a lost lease. So it is not enough that the lease
of a run is there: nobody else may end the job, and the heartbeat must not tick
between the write by which the pipeline gives the job up itself and the write to
the request that belongs to it.
-/

namespace PromptQueue

/-- The stages that wait for a write that ends the job without a look at `worker_id`. -/
def Stage.closes : Stage → Bool
  | .finishJob | .markDead _ => true
  | _ => false

/-- The ticks of a heartbeat. -/
def Event.ticks : Event → Bool
  | .heartbeat _ _ => true
  | _ => false

end PromptQueue

namespace PromptQueue.Proof

open PromptQueue Base World

variable {S : Type} [LinearOrder S] {env : Env S} {w w' : World} {e : Event}

/-- The heartbeat cancels a pipeline only if the job was taken from its claim. -/
def AbortsTaken (env : Env S) (w : World) : Prop :=
  ∀ s r, w.slots s = .running r → (World.step env w (.cancel s)).isSome = true →
    Taken w.log r

/-- A slot is executing the job that is in progress under its name. -/
def Attended (w : World) (jobId : Nat) : Prop :=
  ∃ j ∈ w.db.jobs.rows, j.id = jobId ∧ j.status = .processing ∧ ∃ s ∈ j.workerId,
    ∃ r ∈ w.runOf (.cancel s), r.job.id = jobId ∧ r.stage.phase < 11

instance (w : World) (jobId : Nat) : Decidable (Attended w jobId) :=
  inferInstanceAs (Decidable (∃ j ∈ w.db.jobs.rows, _ ∧ _ ∧ ∃ s ∈ j.workerId, ∃ r ∈ _, _))

/--
A step that gives no heartbeat a wrong idea: it is not a tick between the two writes
of a failure handler whose job was not taken, and a run whose job was taken does not
complete or bury it under a slot that is executing it.
-/
def Timely (w : World) (e : Event) : Prop :=
  ∀ r ∈ w.runOf e,
    (e.ticks = true → r.stage.halfHandled = true → Taken w.log r) ∧
    (e.writes = true → r.stage.closes = true → Taken w.log r → ¬ Attended w r.job.id)

instance (w : World) : DecidablePred (Timely w) :=
  fun e => inferInstanceAs (Decidable (∀ r ∈ w.runOf e, _))

/-! ## The invariant -/

/-- What a heartbeat can go by. -/
structure Beats (w : World) : Prop where
  /-- A job whose claim has not ended is in progress until its own pipeline ends it. -/
  held : ∀ {s r j}, w.slots s = .running r → claimEnd w.log r = none → r.stage.phase < 10 →
    j ∈ w.db.jobs.rows → j.id = r.job.id → j.status = .processing
  /-- A heartbeat that gave up did so over a job that was taken, or over none. -/
  lost : ∀ {s r}, w.slots s = .running r → r.leaseLost = true →
    Taken w.log r ∨ r.stage.phase = 11

theorem beats_init : Beats World.init := ⟨nofun, nofun⟩

theorem taken_mono (h : Move env w e w') (ht : Tied env w) {s : WorkerId} {r : Run}
    (hr : w.slots s = .running r) (htk : Taken w.log r) : Taken w'.log r := by
  obtain ⟨x, hx, hrel⟩ := taken_iff.mp htk
  exact taken_iff.mpr ⟨x, claimEnd_mono h (ht.ticket hr) hx, hrel⟩

theorem taken_same {log : List Entry} {r r' : Run} (h : SameRun r r') :
    Taken log r' ↔ Taken log r := by
  unfold Taken
  rw [claimEnd_same h]

/-- How the claim of a run stands: open, released by the run itself, or taken. -/
theorem claim_trichotomy (hown : Ownership w) {s : WorkerId} {r : Run}
    (hr : w.slots s = .running r) :
    claimEnd w.log r = none ∨ r.stage.afterRelease = true ∨ Taken w.log r := by
  cases hx : claimEnd w.log r with
  | none => exact .inl rfl
  | some x =>
      cases hrel : x.isRelease with
      | true => exact .inr (.inl (hown.released hr hx hrel))
      | false => exact .inr (.inr (taken_iff.mpr ⟨x, hx, hrel⟩))

/-- Only the holder of a job in progress, or a late run, closes it. -/
theorem closer_taken (hown : Ownership w) {s s₀ : WorkerId} {r₀ : Run} {j : ProcessingJob}
    (hr₀ : w.slots s₀ = .running r₀) (hst : r₀.stage.closes = true) (hj : j ∈ w.db.jobs.rows)
    (hid : j.id = r₀.job.id) (ho : j.workerId = some s) (hne : s₀ ≠ s) : Taken w.log r₀ := by
  rcases claim_trichotomy hown hr₀ with hn | hrel | htk
  · have ho₀ := hown.held hr₀ hn hj hid
    exact absurd (Option.some.inj (ho₀.symm.trans ho)) hne
  · cases hrs : r₀.stage <;> rw [hrs] at hst hrel <;> cases hst <;> cases hrel
  · exact htk

/-- A pipeline that closes its job has no more than its last write ahead of it. -/
theorem closes_step {s : WorkerId} {r r' : Run} {now : Time} {top1 : Option Nat}
    (h : RunStep env w (.pipeline s now top1) s r r') (hst : r.stage.closes = true) :
    10 ≤ r'.stage.phase := by
  cases h with
  | same he => exact absurd rfl he
  | thought he ht => cases he
  | wrote ht =>
      obtain ⟨x, hx, hturn⟩ := PromptPipeline.turn_of_call w.db ht
      rw [hx]
      cases hturn with
      | closed _ => exact (by decide : 10 ≤ 11)
      | buried _ => exact Nat.le_refl 10
      | _ => simp_all [Stage.closes]

/-- The job of an open claim stays in progress until its own pipeline ends it. -/
theorem stillHeld_step (h : Move env w e w') (ht : Tied env w) (hs : Shaped w)
    (hown : Ownership w) (hi : Beats w) (hH : Timely w e) {s : WorkerId} {r r' : Run}
    {j : ProcessingJob} (hr : w.slots s = .running r) (hr' : w'.slots s = .running r')
    (hrs : RunStep env w e s r r') (hn' : claimEnd w'.log r' = none) (hph : r'.stage.phase < 10)
    (hj : j ∈ w.db.jobs.rows) (hid : j.id = r.job.id) :
    (w.jobAfter env e j).status = .processing := by
  have hn : claimEnd w.log r = none := by
    rw [claimEnd_same hrs.sameRun] at hn'
    cases hx : claimEnd w.log r with
    | none => rfl
    | some x => rw [claimEnd_mono h (ht.ticket hr) hx] at hn'; cases hn'
  have hp : j.status = .processing :=
    hi.held hr hn (Nat.lt_of_le_of_lt (phase_mono hrs) hph) hj hid
  have ho : j.workerId = some s := hown.held hr hn hj hid
  have ho' : (w.jobAfter env e j).workerId = some s := by
    refine (ownership_step h ht hs hown).held hr' hn' (job_goes_on h hj) ?_
    rw [jobAfter_id, hrs.sameRun.1]
    exact hid
  have hst := job_step h j
  -- a run that closes the job is late, or it is the run itself and past its writes
  have closed : ∀ {s₀ : WorkerId} {now : Time} {top1 : Option Nat} {r₀ : Run},
      e = .pipeline s₀ now top1 → w.slots s₀ = .running r₀ → r₀.stage.closes = true →
      j.id = r₀.job.id → (w.jobAfter env e j).status = .processing := by
    rintro s₀ now top1 r₀ rfl hs₀ hst₀ hid₀
    by_cases hss : s₀ = s
    · subst hss
      cases Slot.running.inj (hs₀.symm.trans hr)
      have := closes_step hrs hst₀
      omega
    · have htk := closer_taken hown hs₀ hst₀ hj hid₀ ho hss
      have hlt : r.stage.phase < 11 := by
        have := phase_mono hrs
        omega
      exact absurd ⟨j, hj, hid₀, hp, s, ho, r, runOf_eq rfl hr, hid.symm.trans hid₀, hlt⟩
        ((hH r₀ (runOf_eq rfl hs₀)).2 rfl hst₀ htk)
  generalize hj' : w.jobAfter env e j = j' at hst ho' closed
  cases hst with
  | same => exact hp
  | claimed hs hp hd => rfl
  | extended hs hh => exact hp
  | released hs hst hoo => cases ho'
  | reset hc hst hid => cases ho'
  | requeued hrec => cases ho'
  | completed hs hst hid₀ => exact closed rfl hs (by rw [hst]; rfl) hid₀
  | buried hs hst hid₀ => exact closed rfl hs (by rw [hst]; rfl) hid₀
  | expired hx =>
      rw [claimEnd_same hrs.sameRun] at hn'
      exact absurd hn' (claimEnd_of_reaped h (ht.ticket hr) hj hx.1 hid)

/-- A tick that finds the job in progress under the slot renews the lease. -/
theorem renewed {s : WorkerId} {i : Nat} {l : Nat} {now : Time} {j : ProcessingJob}
    (hj : j ∈ w.db.jobs.rows) (hh : ProcessingJob.HeldBy i s j) :
    (w.db.exec (.extendLease i s l now)).2 = .updated true :=
  congrArg Res.updated (Table.hits_iff.mpr ⟨j, hj, hh⟩)

/-- A tick outside the failure handler's gap gives up only over a job that was taken. -/
theorem lost_of_tick (ht : Tied env w) (hown : Ownership w) (hi : Beats w) {s : WorkerId}
    {r : Run} {now : Time} (hr : w.slots s = .running r) (hH : Timely w (.heartbeat s now))
    (hl : (w.db.exec (.extendLease r.job.id s env.leaseSeconds now)).2 ≠ .updated true) :
    Taken w.log r ∨ r.stage.phase = 11 := by
  rcases claim_trichotomy hown hr with hn | hrel | htk
  · by_cases hph : r.stage.phase < 10
    · obtain ⟨j, hj, hst⟩ := ht.job hr
      have hid : j.id = r.job.id := congrArg (·.1) hst
      exact absurd (renewed hj ⟨hid, hown.held hr hn hj hid, hi.held hr hn hph hj hid⟩) hl
    · cases hrs : r.stage with
      | markFailed exc => exact .inl ((hH r (runOf_eq rfl hr)).1 rfl (by rw [hrs]; rfl))
      | done how => exact .inr rfl
      | _ => rw [hrs] at hph; exact absurd (by simp [Stage.phase]) hph
  · cases hrs : r.stage with
    | retryStatus exc => exact .inl ((hH r (runOf_eq rfl hr)).1 rfl (by rw [hrs]; rfl))
    | done how => exact .inr rfl
    | _ => rw [hrs] at hrel; cases hrel
  · exact .inl htk

theorem thought_lease {r r' : Run} {es : List Entry} (h : Thought env r e r' es) :
    r'.leaseLost = r.leaseLost := by
  cases h <;> rfl

/-- After a tick the heartbeat has given up exactly if the renewal failed. -/
theorem lease_of_tick {s : WorkerId} {now : Time} (h : Move env w (.heartbeat s now) w')
    {r r' : Run} (hr : w.slots s = .running r) (hr' : w'.slots s = .running r') :
    r'.leaseLost
      = decide ((w.db.exec (.extendLease r.job.id s env.leaseSeconds now)).2 ≠ .updated true) := by
  cases h with
  | heartbeat hs hl =>
      cases Slot.running.inj (hs.symm.trans hr)
      rw [setSlot_slots_self] at hr'
      cases hr'
      rfl
  | think hs he ht => cases he

/-- **One timely step misleads no heartbeat.** -/
theorem beats_step (h : Move env w e w') (ht : Tied env w) (hs : Shaped w)
    (hown : Ownership w) (hi : Beats w) (hH : Timely w e) : Beats w' where
  held := by
    intro s r' j' hr' hn' hph hj' hid
    rcases run_cases h hr' with ⟨r, hr, hrs⟩ | hcl
    · rw [hrs.sameRun.1] at hid
      obtain ⟨j, hj, hid₀, rfl⟩ := ht.job_back h hr hj' hid
      exact stillHeld_step h ht hs hown hi hH hr hr' hrs hn' hph hj hid₀
    · rw [claimed_row h hcl hj' hid]
      obtain ⟨now, locked, pick, j, q, -, -, -, -, -, -, -, rfl⟩ := hcl.claim
      rfl
  lost := by
    intro s r' hr' hl
    rcases run_cases h hr' with ⟨r, hr, hrs⟩ | hcl
    · -- what was true of the run before is true of it now
      have keep : Taken w.log r ∨ r.stage.phase = 11 → Taken w'.log r' ∨ r'.stage.phase = 11 := by
        rintro (htk | hph)
        · exact .inl ((taken_same hrs.sameRun).mpr (taken_mono h ht hr htk))
        · refine .inr (Nat.le_antisymm (phase_le _) ?_)
          rw [← hph]
          exact phase_mono hrs
      apply keep
      cases hrs with
      | same he => exact hi.lost hr hl
      | wrote htx => exact hi.lost hr hl
      | thought he hth =>
          rw [thought_lease hth] at hl
          exact hi.lost hr hl
      | beat hl₀ =>
          rw [lease_of_tick h hr hr'] at hl
          exact lost_of_tick ht hown hi hr hH (of_decide_eq_true hl)
    · rw [hcl.unlost] at hl
      cases hl

theorem beats_reachable (h : (machine env).ReachableWhere Timely w) : Beats w :=
  invariant_of_moves h beats_init fun hr hi hH hm =>
    beats_step hm (tied_reachable hr) (shaped_reachable hr) (ownership_reachable hr) hi hH

/--
**In a timely run the heartbeat aborts only what was taken.** Whenever it cancels a
pipeline, the reaper had taken the job from that claim, or a client had reset it.
-/
theorem abort_only_taken (h : (machine env).ReachableWhere Timely w) : AbortsTaken env w := by
  intro s r hr hc
  obtain ⟨w', hw'⟩ := Option.isSome_iff_exists.mp hc
  cases move_of_step hw' with
  | @think _ _ _ p hs he hth =>
      cases he
      cases Slot.running.inj (hs.symm.trans hr)
      have hthought := thought_of_think hth
      generalize p.1 = r', p.2 = es at hthought
      cases hthought with
      | cancelled hst hl =>
          rcases (beats_reachable h).lost hr hl with htk | hph
          · exact htk
          · cases hrs : r.stage with
            | done how => exact absurd hrs (hst how)
            | _ => rw [hrs] at hph; cases hph

/-! ## An untimely step -/

/-- A run that has given its job up, or has lost it, does not hold it. -/
def Relinquished (w : World) : Prop :=
  ∀ s r, w.slots s = .running r → r.stage.halfHandled = true ∨ claimEnd w.log r ≠ none →
    ∀ j ∈ w.db.jobs.rows, ¬ ProcessingJob.HeldBy r.job.id s j

/-- A job that a running slot holds after a move it held before. -/
theorem held_back (h : Move env w e w') {s : WorkerId} {r : Run} {i : Nat} {j : ProcessingJob}
    (hr : w.slots s = .running r) (hh : ProcessingJob.HeldBy i s (w.jobAfter env e j)) :
    ProcessingJob.HeldBy i s j := by
  have hst := job_step h j
  generalize w.jobAfter env e j = j' at hst hh
  cases hst with
  | same => exact hh
  | extended hs hh₀ => exact hh
  | claimed hs hp hd =>
      cases hh.2.1
      rw [hr] at hs
      cases hs
  | released hs hst ho => cases hh.2.1
  | reset hc hst hid => cases hh.2.1
  | requeued hrec => cases hh.2.1
  | completed hs hst hid => cases hh.2.2
  | buried hs hst hid => cases hh.2.2
  | expired hx => cases hh.2.2

/-- Its own release takes the job from a slot. -/
theorem unheld_of_release {s : WorkerId} {i : Nat} (wait : Rat) (now : Time)
    (j : ProcessingJob) : ¬ ProcessingJob.HeldBy i s ((Tx.releaseLease i s wait now).onJob j) := by
  rw [Tx.onJob]
  by_cases ho : ProcessingJob.OwnedBy i s j
  · rw [Table.updateRow_pos ho]
    intro hh
    cases hh.2.1
  · rw [Table.updateRow_neg ho]
    intro hh
    exact ho ⟨hh.1, hh.2.1⟩

/-- A pipeline gets between the two writes of its failure handler by giving its job up. -/
theorem unheld_of_halfHandled (ht : Tied env w) {s : WorkerId} {r r' : Run}
    (hr : w.slots s = .running r) (hrs : RunStep env w e s r r')
    (hn : r.stage.halfHandled = false) (hb : r'.stage.halfHandled = true) {j : ProcessingJob}
    (hid : j.id = r.job.id) : ¬ ProcessingJob.HeldBy r.job.id s (w.jobAfter env e j) := by
  cases hrs with
  | same he => rw [hn] at hb; cases hb
  | beat hl => rw [hn] at hb; cases hb
  | wrote htx =>
      obtain ⟨x, hx, hturn⟩ := PromptPipeline.turn_of_call w.db htx
      rw [hx] at hb
      rw [jobAfter_pipeline hr htx]
      cases hturn with
      | buried hst =>
          rw [Tx.onJob, Table.updateRow, if_pos hid]
          intro hh
          cases hh.2.2
      | released hst hown =>
          rw [ht.workerId hr]
          exact unheld_of_release _ _ j
      | _ => cases hb
  | thought he hth =>
      -- the failure handler is entered before its first write
      have hlt : r'.stage.phase ≤ 8 ∨ r'.stage.phase = 11 := by
        cases hth with
        | dbError hc =>
            dsimp only
            unfold PromptPipeline.fail
            split
            · exact .inl (phase_handleFailure _ _).le
            · exact .inr rfl
        | unavailable hst =>
            dsimp only
            exact .inl (phase_handleFailure _ _).le
        | failed hx hst =>
            dsimp only
            exact .inl (phase_handleFailure _ _).le
        | cancelled hst hl => exact .inr rfl
        | aborted hst => exact .inr rfl
        | _ => exact .inl (by simp [Stage.phase])
      cases hst : r'.stage <;> rw [hst] at hb hlt <;> cases hb <;> simp [Stage.phase] at hlt

/-- A claim ends with the row in other hands, or in none. -/
theorem unheld_of_ended (h : Move env w e w') (ht : Tied env w) {s : WorkerId} {r : Run}
    (hr : w.slots s = .running r) (hn : claimEnd w.log r = none) (he : claimEnd w'.log r ≠ none)
    {j : ProcessingJob} (hj : j ∈ w.db.jobs.rows) (hid : j.id = r.job.id) :
    ¬ ProcessingJob.HeldBy r.job.id s (w.jobAfter env e j) := by
  obtain ⟨x, hx⟩ := Option.ne_none_iff_exists'.mp he
  rcases claimEnd_cases h (ht.ticket hr) hx with hold | ⟨-, hf, hends⟩
  · rw [hn] at hold
    cases hold
  · intro hh
    cases hrel : x.isRelease with
    | true =>
        obtain ⟨now, top1, rfl, hst⟩ := releaser_of_fresh ht hr hf hends hrel
        obtain ⟨wait, hcall⟩ := call_of_releases env hst now top1
        rw [jobAfter_pipeline hr hcall, ht.workerId hr] at hh
        exact unheld_of_release _ _ j hh
    | false =>
        rcases taken_by hf hends hrel with ⟨now, rfl, i, hi, hexp, hii⟩ | ⟨who, now, hiss⟩
        · rw [Db.job_eq_of_id hi hj (hii.trans hid.symm)] at hexp
          have hreap : w.jobAfter env (.reap now) j = (Tx.reapExpiredLeases now).onJob j := rfl
          rw [hreap] at hh
          rcases onJob_expired hexp with hrow | hrow
          · rw [hrow] at hh
            cases hh.2.1
          · rw [hrow] at hh
            cases hh.2.2
        · have hq : j.promptRequestId = r.job.promptRequestId :=
            congrArg (·.2.1) (ht.static_of_id hr hj hid)
          rw [← hq] at hiss
          rw [jobAfter_reset hiss] at hh
          cases hh.2.1

/-- **What is given up stays given up.** -/
theorem relinquished_step (h : Move env w e w') (ht : Tied env w) (hi : Relinquished w) :
    Relinquished w' := by
  intro s r' hr' hend j' hj' hheld
  rcases run_cases h hr' with ⟨r, hr, hrs⟩ | hcl
  · rw [hrs.sameRun.1] at hheld
    rw [claimEnd_same hrs.sameRun] at hend
    obtain ⟨j, hj, hid, rfl⟩ := ht.job_back h hr hj' hheld.1
    -- it was held before, so it was not given up then
    have hopen : ¬ (r.stage.halfHandled = true ∨ claimEnd w.log r ≠ none) := fun hgone =>
      hi s r hr hgone j hj (held_back h hr hheld)
    push Not at hopen
    rcases hend with hb | he
    · exact unheld_of_halfHandled ht hr hrs (Bool.eq_false_iff.mpr hopen.1) hb hid hheld
    · exact unheld_of_ended h ht hr hopen.2 he hj hid hheld
  · have hnone := claimEnd_claimed h hcl
    obtain ⟨now, locked, pick, j, q, -, -, -, -, -, -, -, rfl⟩ := hcl.claim
    rcases hend with hb | he
    · cases hb
    · exact he hnone

theorem relinquished_reachable {H : World → Event → Prop}
    (h : (machine env).ReachableWhere H w) : Relinquished w :=
  invariant_of_moves h (by intro s r hr; cases hr) fun hr hi _ hm =>
    relinquished_step hm (tied_reachable hr) hi

/-- A pipeline at work whose heartbeat has given up is cancelled. -/
theorem aborts_of_lost {s : WorkerId} {r : Run} (hr : w.slots s = .running r)
    (hl : r.leaseLost = true) (hph : r.stage.phase < 11) (hn : ¬ Taken w.log r) :
    ¬ AbortsTaken env w := by
  intro hall
  refine hn (hall s r hr ?_)
  cases hst : r.stage with
  | done how =>
      rw [hst] at hph
      exact absurd hph (Nat.lt_irrefl 11)
  | _ => simp [World.step, thinker, withRun, hr, World.think, hst, hl]

/-- A tick ends no claim. -/
theorem taken_of_tick {s : WorkerId} {now : Time} (h : Move env w (.heartbeat s now) w')
    {r : Run} (ht : r.ticket ≤ w.log.length) (htk : Taken w'.log r) : Taken w.log r := by
  obtain ⟨x, hx, hrel⟩ := taken_iff.mp htk
  rcases claimEnd_cases h ht hx with hold | ⟨-, hf, hends⟩
  · exact taken_iff.mpr ⟨x, hold, hrel⟩
  · rcases taken_by hf hends hrel with ⟨now', he, -⟩ | ⟨who, now', hiss⟩
    · cases he
    · obtain ⟨c, k, inTime, x', he, -⟩ := reset_issuer hiss
      cases he

/-- **A tick that finds nothing held misleads**, unless the job was taken. -/
theorem misled_by_tick {s : WorkerId} {now : Time} (h : Move env w (.heartbeat s now) w')
    (ht : Tied env w) {r : Run} (hr : w.slots s = .running r) (hph : r.stage.phase < 11)
    (hn : ¬ Taken w.log r)
    (hheld : ∀ j ∈ w.db.jobs.rows, ¬ ProcessingJob.HeldBy r.job.id s j) :
    ¬ AbortsTaken env w' := by
  have hmiss : (w.db.exec (.extendLease r.job.id s env.leaseSeconds now)).2 ≠ .updated true := by
    intro hres
    have hhits : w.db.jobs.hits (ProcessingJob.HeldBy r.job.id s) = true := Res.updated.inj hres
    obtain ⟨j, hj, hh⟩ := Table.hits_iff.mp hhits
    exact hheld j hj hh
  have hntk : ¬ Taken w'.log r := fun htk => hn (taken_of_tick h (ht.ticket hr) htk)
  rcases run_forward h hr with ⟨r', hr', hrs⟩ | he | ⟨he, -⟩
  · have hl := lease_of_tick h hr hr'
    rw [decide_eq_true hmiss] at hl
    refine aborts_of_lost hr' hl ?_ fun htk => hntk ((taken_same hrs.sameRun).mp htk)
    cases hrs with
    | same he => exact absurd rfl he
    | beat hl => exact hph
    | thought he hth => cases he
  · cases he
  · cases he

/-- A late run that ends the job under its new worker misleads that worker's heartbeat. -/
theorem misled_by_close (h : Move env w e w') (hreach : (machine env).Reachable w)
    (hreach' : (machine env).Reachable w') {r₀ : Run} (hr₀ : w.runOf e = some r₀)
    (hw : e.writes = true) (hcl : r₀.stage.closes = true) (htk : Taken w.log r₀)
    (hatt : Attended w r₀.job.id) :
    ∃ w'', (machine env).PathWhere Machine.Always w' w'' ∧ ¬ AbortsTaken env w'' := by
  have ht := tied_reachable hreach
  have hrel := relinquished_reachable hreach
  obtain ⟨j, hj, hid₀, hp, s, ho, r, hr, hid, hph⟩ := hatt
  obtain ⟨s', hs', hr⟩ := run_of_runOf hr
  cases hs'
  obtain ⟨s₀, now, top1, t, x, rfl, hrun₀, htx, hturn, -⟩ := turn_of_writes h hr₀ hw
  have hheld : ProcessingJob.HeldBy r.job.id s j := ⟨hid₀.trans hid.symm, ho, hp⟩
  have hopen : claimEnd w.log r = none := by
    by_contra he
    exact hrel s r hr (.inr he) j hj hheld
  have hne : s₀ ≠ s := by
    rintro rfl
    cases Slot.running.inj (hrun₀.symm.trans hr)
    rw [Taken, hopen] at htk
    cases htk
  have hr' : w'.slots s = .running r := by
    refine (slot_frame h ?_).trans hr
    intro he
    exact hne (Option.some.inj he)
  -- the write ends no claim, and the row is not in progress after it
  have hiss : w.issued env (.pipeline s₀ now top1) = some (.slot s₀, t) :=
    issued_pipeline hrun₀ htx
  have hntk : ¬ Taken w'.log r := by
    intro htk'
    obtain ⟨y, hy, hyrel⟩ := taken_iff.mp htk'
    rcases claimEnd_cases h (ht.ticket hr) hy with hold | ⟨-, hf, hends⟩
    · rw [hopen] at hold
      cases hold
    · rcases taken_by hf hends hyrel with ⟨now', he, -⟩ | ⟨who, now', hiss'⟩
      · cases he
      · obtain ⟨c, k, inTime, x', he, -⟩ := reset_issuer hiss'
        cases he
  have hended : (t.onJob j).status ≠ .processing := by
    cases hturn with
    | closed hst =>
        rw [Tx.onJob, Table.updateRow, if_pos hid₀]
        intro hc
        cases hc
    | buried hst =>
        rw [Tx.onJob, Table.updateRow, if_pos hid₀]
        intro hc
        cases hc
    | _ => simp_all [Stage.closes]
  have hunheld : ∀ j' ∈ w'.db.jobs.rows, ¬ ProcessingJob.HeldBy r.job.id s j' := by
    intro j' hj' hh
    have hrow := job_goes_on h hj
    rw [jobAfter_pipeline hrun₀ htx] at hrow
    have hjid : (t.onJob j).id = r.job.id :=
      (congrArg (·.1) (t.onJob_static j)).trans hheld.1
    rw [Db.job_eq_of_id hj' hrow (hh.1.trans hjid.symm)] at hh
    exact hended hh.2.2
  cases hl : r.leaseLost with
  | true => exact ⟨w', Relation.ReflTransGen.refl, aborts_of_lost hr' hl hph hntk⟩
  | false =>
      have hstep : (World.step env w' (.heartbeat s 0)).isSome = true := by
        simp [World.step, withRun, hr', hl]
      obtain ⟨w'', hstep⟩ := Option.isSome_iff_exists.mp hstep
      refine ⟨w'', Relation.ReflTransGen.single ⟨.heartbeat s 0, trivial, hstep⟩, ?_⟩
      exact misled_by_tick (move_of_step hstep) (tied_reachable hreach') hr' hph hntk hunheld

/-- **From an untimely step a run can go on to abort a pipeline whose job was not taken.** -/
theorem misled_of_untimely (hreach : (machine env).Reachable w)
    (hs : World.step env w e = some w') (hn : ¬ Timely w e) :
    ∃ w'', (machine env).PathWhere Machine.Always w' w'' ∧ ¬ AbortsTaken env w'' := by
  have h := move_of_step hs
  by_contra hnone
  refine hn fun r hr => ⟨fun htick hb => ?_, fun hw hcl htk hatt => ?_⟩
  · by_contra hntk
    refine hnone ⟨w', Relation.ReflTransGen.refl, ?_⟩
    obtain ⟨s, hslot, hrun⟩ := run_of_runOf hr
    have hph : r.stage.phase < 11 := by
      cases hst : r.stage <;> rw [hst] at hb <;> cases hb <;> simp [Stage.phase]
    cases e with
    | heartbeat s₀ now =>
        cases hslot
        exact misled_by_tick h (tied_reachable hreach) hrun hph hntk
          (relinquished_reachable hreach s r hrun (.inl hb))
    | _ => cases htick
  · exact hnone (misled_by_close h hreach (hreach.tail trivial hs) hr hw hcl htk hatt)

/-! ## Aborts -/

/-- Where the heartbeat of slot 0 is about to cancel its pipeline. -/
def Aborting (env : Env S) (w : World) : Prop := (World.step env w (.cancel 0)).isSome = true

instance (env : Env S) (w : World) : Decidable (Aborting env w) :=
  inferInstanceAs (Decidable (_ = true))

/-- A pipeline outlives its lease, and its heartbeat finds another worker on the job. -/
def takenRun : List Event :=
  submission 0 "p" "a" ++ [.claim 0 1 [] (some 1), .pipeline 0 1 none, .reap 20,
    .claim 1 21 [] (some 1), .heartbeat 0 22]

/-- It is aborted, and rightly. -/
theorem abort_only_taken_after_reap : ∃ w, Aborting deployment w ∧
    AbortsTaken deployment w := by
  obtain ⟨w, hw, ht⟩ := Machine.reachableWhere_of_run (m := machine deployment) (H := Timely)
    (E := takenRun) (p := fun w => decide (Aborting deployment w)) (by decide +kernel)
  exact ⟨w, of_decide_eq_true ht, abort_only_taken hw⟩

/-- A pipeline fails for good; its heartbeat ticks between `mark_dead` and `mark_failed`. -/
def buriedRun : List Event :=
  submission 0 "p" "a" ++ [.claim 0 1 [] (some 1), .dbError 0 "connection reset",
    .pipeline 0 2 none, .heartbeat 0 3]

/-- **A pipeline is aborted over its own write**, with its request still to be failed. -/
theorem abort_own_write : ∃ w, (machine deployment).Reachable w ∧
    ¬ AbortsTaken deployment w := by
  obtain ⟨w, -, hw, ht⟩ := Machine.reachable_of_run (m := machine deployment)
    (E := buriedRun) (p := fun w => decide (Aborting deployment w ∧
      ∃ r ∈ w.runOf (.cancel 0), r.stage.halfHandled = true ∧ ¬ Taken w.log r)) (by decide +kernel)
  obtain ⟨hc, r, hr, -, hn⟩ := of_decide_eq_true ht
  refine ⟨w, hw, fun hh => ?_⟩
  cases hs : w.slots 0 with
  | running r₀ =>
      rw [runOf_eq rfl hs] at hr
      cases hr
      exact hn (hh 0 r hs hc)
  | idle => simp [runOf, Event.slot, hs] at hr
  | stopped => simp [runOf, Event.slot, hs] at hr

end PromptQueue.Proof
