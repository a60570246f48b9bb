import PromptQueue.Proof.Stranded

/-!
# How full the queue gets

The queue is bounded at one place, where a new prompt is let in, and the bound is
tested on a depth that was read in a transaction of its own. Everything else that
puts a job in flight goes untested: a re-enqueue, by intent, and a release that finds
the job already ended.

`load` counts what is in flight together with the calls that were let in and have
not inserted yet. It moves up by one step at a time, and only by a step of three
kinds; one that finds room does no harm, so the bound is missed by no more than the
number of those that find none. Two calls that read the depth before either inserts
are enough to miss it.
-/

namespace PromptQueue

/-- `status IN ('queued', 'processing')`. -/
def ProcessingJob.InFlight (j : ProcessingJob) : Prop :=
  j.status = .queued ∨ j.status = .processing

instance : DecidablePred ProcessingJob.InFlight := fun _ => inferInstanceAs (Decidable (_ ∨ _))

/-- Whether a call is about to insert. -/
def CallStage.inserts : CallStage → Bool
  | .insert => true
  | _ => false

namespace World

/-- The calls that were let in and have not inserted yet. -/
def admitted (w : World) : Finset Nat := w.callsAt CallStage.inserts

/-- What is in flight or about to be. -/
def load (w : World) : Nat := ProcessingJobRepository.queuedDepth w.db + w.admitted.card

variable {S : Type} [LinearOrder S] (env : Env S)

/-- A call that passes its depth check. -/
def LetsIn (w : World) (e : Event) : Prop :=
  e.writes = true ∧ ∃ k ∈ w.callOf e, k.stage = .depth ∧
    ProcessingJobRepository.queuedDepth w.db < env.maxQueueDepth

/-- A re-enqueue, or a release, of a job that is not in flight. -/
def Revives (w : World) (e : Event) : Prop :=
  e.writes = true ∧
    ((∃ k ∈ w.callOf e, ∃ q ∈ k.stage.halfReenqueued, ∃ j ∈ w.db.jobs.rows,
      j.promptRequestId = q.id ∧ ¬ j.InFlight) ∨
    ∃ r ∈ w.runOf e, r.stage.releases = true ∧ ∃ j ∈ w.db.jobs.rows,
      ProcessingJob.OwnedBy r.job.id (PromptPipeline.workerId r) j ∧ ¬ j.InFlight)

instance (w : World) : DecidablePred (w.LetsIn env) := fun _ => inferInstanceAs (Decidable (_ ∧ _))

instance (w : World) : DecidablePred w.Revives := fun _ => inferInstanceAs (Decidable (_ ∧ _))

/-- A step that adds to the load finds room, for the calls that were let in before too. -/
def FindsRoom (w : World) (e : Event) : Prop :=
  w.LetsIn env e ∨ w.Revives e → w.load < env.maxQueueDepth

instance (w : World) : DecidablePred (w.FindsRoom env) :=
  fun _ => inferInstanceAs (Decidable (_ → _))

/-- One, for a step that adds to the load and finds no room. -/
def overfill (w : World) (e : Event) : Nat := if w.FindsRoom env e then 0 else 1

end World

end PromptQueue

namespace PromptQueue.Proof

open PromptQueue Base World

variable {S : Type} [LinearOrder S] {env : Env S} {w w' : World} {e : Event}

/-! ## The calls that were let in -/

/-- No read leads to the insert. -/
theorem read_not_insert (env : Env S) {k : Call} (h : k.stage.reads = true) (inTime : Bool)
    (res : Res) :
    PromptProcessor.resume env k inTime res ≠ .insert := by
  have hafter : ∀ row, PromptProcessor.afterRead row inTime ≠ .insert := by
    intro row
    unfold PromptProcessor.afterRead
    repeat' split
    all_goals simp
  unfold PromptProcessor.resume
  cases hst : k.stage with
  | check =>
      dsimp only
      split
      · split <;> simp
      · simp
  | returnExisting x => dsimp only; split <;> simp
  | refetch => dsimp only; split <;> simp
  | preCheck =>
      dsimp only
      split
      · exact hafter _
      · simp
  | poll =>
      dsimp only
      split
      · exact hafter _
      · simp
  | timeoutRead => dsimp only; split <;> simp
  | _ => rw [hst] at h; cases h

/-- A call comes to its insert from a depth check that it passes. -/
theorem insert_from_depth {c : Nat} {k k' : Call} (h : CallStep env w e c k k')
    (hst : k'.stage = .insert) :
    (k' = k ∧ e.caller ≠ some c) ∨ ∃ now inTime, e = .call c now inTime ∧ k.stage = .depth ∧
      ProcessingJobRepository.queuedDepth w.db < env.maxQueueDepth := by
  cases h with
  | same he => exact .inl ⟨rfl, he⟩
  | @wrote c k now inTime t ht =>
      right
      refine ⟨now, inTime, rfl, ?_⟩
      cases PromptProcessor.turn_iff.mp ht with
      | depth hd =>
          refine ⟨hd, ?_⟩
          simp only [PromptProcessor.resume, hd, Db.exec] at hst
          split at hst
          · cases hst
          · rename_i hn; exact Nat.lt_of_not_le hn
      | insert hd =>
          simp only [PromptProcessor.resume, hd] at hst
          split at hst <;> cases hst
      | reenqueue hd => simp only [PromptProcessor.resume, hd] at hst; cases hst
      | reset hd => simp only [PromptProcessor.resume, hd] at hst; cases hst
      | read hd =>
          dsimp only at hst
          exact (read_not_insert env hd inTime _ hst).elim

/-- Who was let in, without a look at the history. -/
theorem mem_admitted (hi : OnRecord w) {c : Nat} :
    c ∈ w.admitted ↔ ∃ k, w.calls c = some k ∧ k.stage = .insert := by
  have hins : ∀ st : CallStage, st.inserts = true ↔ st = .insert := by
    intro st
    cases st <;> simp [CallStage.inserts]
  unfold admitted
  rw [mem_callsAt hi rfl]
  simp only [hins]

/-- **Who is let in by a move:** at most the call that just passed its check. -/
theorem admitted_step (h : Move env w e w') (hi : OnRecord w) {c : Nat} (hc : c ∈ w'.admitted) :
    (c ∈ w.admitted ∧ e.caller ≠ some c) ∨
      (w.LetsIn env e ∧ e.caller = some c) := by
  obtain ⟨k', hk', hst⟩ := (mem_admitted (onRecord_step h hi)).mp hc
  rcases call_cases h hk' with ⟨k, hk, hks⟩ | ⟨args, -, rfl⟩
  · rcases insert_from_depth hks hst with ⟨rfl, he⟩ | ⟨now, inTime, rfl, hd, hn⟩
    · exact .inl ⟨(mem_admitted hi).mpr ⟨k', hk, hst⟩, he⟩
    · exact .inr ⟨⟨rfl, k, callOf_eq rfl hk, hd, hn⟩, rfl⟩
  · cases hst

/-- What is let in and what is inserted, against what was let in before. -/
theorem admitted_card (h : Move env w e w') (hi : OnRecord w) :
    (w'.admitted.card ≤ w.admitted.card + if w.LetsIn env e then 1 else 0) ∧
      ∀ q j, Inserted env w e q j → w'.admitted.card + 1 ≤ w.admitted.card := by
  refine ⟨?_, fun q j hins => ?_⟩
  · by_cases hl : w.LetsIn env e
    · rw [if_pos hl]
      obtain ⟨-, k, hk, -⟩ := hl
      obtain ⟨c, hc, -⟩ := Option.bind_eq_some_iff.mp hk
      have hsub : w'.admitted ⊆ insert c w.admitted := by
        intro x hx
        rcases admitted_step h hi hx with ⟨hx, -⟩ | ⟨-, he⟩
        · exact Finset.mem_insert_of_mem hx
        · rw [Option.some.inj (he.symm.trans hc)]
          exact Finset.mem_insert_self c _
      exact (Finset.card_le_card hsub).trans (Finset.card_insert_le c _)
    · rw [if_neg hl, Nat.add_zero]
      refine Finset.card_le_card fun x hx => ?_
      rcases admitted_step h hi hx with ⟨hx, -⟩ | ⟨hl', -⟩
      · exact hx
      · exact absurd hl' hl
  · obtain ⟨c, k, now, inTime, rfl, hk, hst, -⟩ := hins.call
    have hc : c ∈ w.admitted := (mem_admitted hi).mpr ⟨k, hk, hst⟩
    have hsub : w'.admitted ⊆ w.admitted.erase c := by
      intro x hx
      rcases admitted_step h hi hx with ⟨hx, he⟩ | ⟨⟨-, k', hk', hd, -⟩, -⟩
      · refine Finset.mem_erase.mpr ⟨?_, hx⟩
        rintro rfl
        exact he rfl
      · rw [callOf_eq rfl hk] at hk'
        cases hk'
        rw [hst] at hd
        cases hd
    have hcard := Finset.card_le_card hsub
    rw [Finset.card_erase_of_mem hc] at hcard
    have hpos := Finset.card_pos.mpr ⟨c, hc⟩
    omega

/-! ## The jobs in flight -/

/-- A move puts a job in flight that was not only by a re-enqueue or a release, of that job. -/
theorem revived {j j' : ProcessingJob} (h : JobStep env w e j j') (hn : ¬ j.InFlight)
    (hf : j'.InFlight) : e.writes = true ∧
      ((∃ k ∈ w.callOf e, ∃ q ∈ k.stage.halfReenqueued, j.promptRequestId = q.id) ∨
      ∃ r ∈ w.runOf e, r.stage.releases = true ∧
        ProcessingJob.OwnedBy r.job.id (PromptPipeline.workerId r) j) := by
  cases h with
  | same => exact absurd hf hn
  | claimed hs hp hd => exact absurd (.inl hd.1) hn
  | extended hs hh => exact absurd (.inr hh.2.2) hn
  | completed hs hst hid => rcases hf with hf | hf <;> cases hf
  | buried hs hst hid => rcases hf with hf | hf <;> cases hf
  | expired hx => rcases hf with hf | hf <;> cases hf
  | requeued hr => exact absurd (.inr hr.1.1) hn
  | released hs hst ho => exact ⟨rfl, .inr ⟨_, runOf_eq rfl hs, hst, ho⟩⟩
  | reset hc hst hq => exact ⟨rfl, .inl ⟨_, callOf_eq rfl hc, _, by rw [hst]; rfl, hq⟩⟩

/-- An event moves a slot or a call, not both. -/
theorem slot_or_call {r : Run} {k : Call} (hr : r ∈ w.runOf e) (hk : k ∈ w.callOf e) : False := by
  obtain ⟨s, hs, -⟩ := Option.bind_eq_some_iff.mp hr
  obtain ⟨c, hc, -⟩ := Option.bind_eq_some_iff.mp hk
  cases e <;> first | (cases hs; done) | cases hc

/-- The jobs a move puts in flight that were not. -/
def revivals (env : Env S) (w : World) (e : Event) : Nat :=
  w.db.jobs.rows.countP fun j =>
    decide (w.jobAfter env e j).InFlight && !decide j.InFlight

/-- There is one at most, and none unless the move re-enqueues or releases such a job. -/
theorem revivals_le (h : Move env w e w') : revivals env w e ≤ if w.Revives e then 1 else 0 := by
  have hrev : ∀ j, (decide (w.jobAfter env e j).InFlight && !decide j.InFlight) = true →
      ¬ j.InFlight ∧ (w.jobAfter env e j).InFlight := by
    intro j hj
    simpa [and_comm] using hj
  by_cases hr : w.Revives e
  · rw [if_pos hr]
    refine Table.countP_le_one fun i hi j hj hpi hpj => ?_
    obtain ⟨hni, hfi⟩ := hrev i hpi
    obtain ⟨hnj, hfj⟩ := hrev j hpj
    obtain ⟨-, hi'⟩ := revived (job_step h i) hni hfi
    obtain ⟨-, hj'⟩ := revived (job_step h j) hnj hfj
    rcases hi' with ⟨k, hk, q, hq, hiq⟩ | ⟨r, hr, -, hio⟩
    · rcases hj' with ⟨k', hk', q', hq', hjq⟩ | ⟨r, hr, -, -⟩
      · cases Option.some.inj (hk.symm.trans hk')
        cases Option.some.inj (hq.symm.trans hq')
        exact Db.job_unique hi hj (hiq.trans hjq.symm)
      · exact (slot_or_call hr hk).elim
    · rcases hj' with ⟨k', hk', q', hq', hjq⟩ | ⟨r', hr', -, hjo⟩
      · exact (slot_or_call hr hk').elim
      · cases Option.some.inj (hr.symm.trans hr')
        exact Db.job_eq_of_id hi hj (hio.1.trans hjo.1.symm)
  · rw [if_neg hr, Nat.le_zero]
    refine List.countP_eq_zero.mpr fun j hj hp => hr ?_
    obtain ⟨hn, hf⟩ := hrev j hp
    obtain ⟨hw, hcase⟩ := revived (job_step h j) hn hf
    refine ⟨hw, hcase.imp ?_ ?_⟩
    · rintro ⟨k, hk, q, hq, hjq⟩
      exact ⟨k, hk, q, hq, j, hj, hjq, hn⟩
    · rintro ⟨r, hr, hst, ho⟩
      exact ⟨r, hr, hst, j, hj, ho, hn⟩

/-- What is in flight after a move. -/
theorem depth_step (h : Move env w e w') :
    ProcessingJobRepository.queuedDepth w'.db
        ≤ ProcessingJobRepository.queuedDepth w.db + revivals env w e ∨
      (∃ q j, Inserted env w e q j) ∧ ProcessingJobRepository.queuedDepth w'.db
        ≤ ProcessingJobRepository.queuedDepth w.db + revivals env w e + 1 := by
  have hmap := Table.countP_map_le (fun j : ProcessingJob => decide j.InFlight)
    (w.jobAfter env e) w.db.jobs.rows
  rcases jobs_after h with hrows | ⟨q, j, hins, hrows⟩
  · left
    unfold ProcessingJobRepository.queuedDepth
    rw [hrows]
    exact hmap
  · refine .inr ⟨⟨q, j, hins⟩, ?_⟩
    unfold ProcessingJobRepository.queuedDepth
    rw [hrows, List.countP_append]
    exact Nat.add_le_add hmap List.countP_le_length

/-- **The load moves up by one step at a time, and only where `overfill` looks.** -/
theorem load_step (h : Move env w e w') (hi : OnRecord w) :
    w'.load ≤ w.load + if w.LetsIn env e ∨ w.Revives e then 1 else 0 := by
  have hrev := revivals_le h
  obtain ⟨hlet, hins⟩ := admitted_card h hi
  -- a call that passes its check revives nothing
  have hboth : ¬ (w.LetsIn env e ∧ w.Revives e) := by
    rintro ⟨⟨-, k, hk, hd, -⟩, -, ⟨k', hk', q, hq, -⟩ | ⟨r, hr, -⟩⟩
    · cases Option.some.inj (hk.symm.trans hk')
      rw [hd] at hq
      cases hq
    · exact slot_or_call hr hk
  have hsum : (if w.LetsIn env e then 1 else 0) + (if w.Revives e then 1 else 0)
      ≤ if w.LetsIn env e ∨ w.Revives e then 1 else 0 := by
    by_cases hl : w.LetsIn env e
    · have hr : ¬ w.Revives e := fun hr => hboth ⟨hl, hr⟩
      simp [hl, hr]
    · simp [hl]
  unfold load
  rcases depth_step h with hd | ⟨⟨q, j, hi⟩, hd⟩
  · omega
  · have hcard := hins q j hi
    omega

/-- One step, against the room there was. -/
theorem room_step (h : Move env w e w') (hi : OnRecord w) :
    w'.load - env.maxQueueDepth ≤ w.load - env.maxQueueDepth + overfill env w e := by
  have hload := load_step h hi
  unfold overfill
  by_cases hroom : w.FindsRoom env e
  · rw [if_pos hroom]
    by_cases hg : w.LetsIn env e ∨ w.Revives e
    · have hlt := hroom hg
      rw [if_pos hg] at hload
      omega
    · rw [if_neg hg] at hload
      omega
  · rw [if_neg hroom]
    split at hload <;> omega

/--
**How full the queue gets.** In every run whose steps find room for what they add there are
at most `max_queue_depth` jobs in flight, in every state it comes to. In any run at all the
bound is missed by one at most for each step that found none.
-/
theorem in_flight_le {es : List Event} (h : (machine env).run World.init es = some w) :
    ((machine env).Meets (FindsRoom env) World.init es →
      ProcessingJobRepository.queuedDepth w.db ≤ env.maxQueueDepth) ∧
    ProcessingJobRepository.queuedDepth w.db
      ≤ env.maxQueueDepth + (machine env).tally (overfill env) World.init es := by
  have hstep : ∀ {u v : World} {e : Event}, (machine env).Reachable u → Machine.Always u e →
      (machine env).step u e = some v → (machine env).Reachable v ∧
        v.load - env.maxQueueDepth + 0 ≤ u.load - env.maxQueueDepth + overfill env u e := by
    intro u v e hu _ hs
    exact ⟨hu.tail trivial hs, room_step (move_of_step hs) (onRecord_reachable hu)⟩
  have hb := (Machine.Meets.balance hstep Machine.ReachableWhere.init
    (Machine.meets_always World.init es) h).2
  have hinit : (machine env).init.load = 0 := rfl
  have hm : (machine env).init = World.init := rfl
  rw [Machine.tally_zero, hinit, hm] at hb
  have hle : ProcessingJobRepository.queuedDepth w.db ≤ w.load := Nat.le_add_right _ _
  have htotal : ProcessingJobRepository.queuedDepth w.db
      ≤ env.maxQueueDepth + (machine env).tally (overfill env) World.init es := by
    omega
  refine ⟨fun hmeets => ?_, htotal⟩
  have hzero : (machine env).tally (overfill env) World.init es = 0 :=
    Machine.tally_of_meets (fun u e hu => if_pos hu) hmeets
  omega

/-! ## A full queue, and one that is too full -/

/-- One prompt fills the queue, and the next is turned away. -/
def turnedAwayRun : List Event :=
  submission 0 "p" "a" ++
    [.submit 1 ⟨"u", "q", "b", "normal"⟩, .call 1 0 true, .call 1 0 true]

/-- Prompts that come one after the other find room, or are turned away: the bound is met. -/
theorem in_flight_le_turned_away : ∃ w, (machine narrow).run World.init turnedAwayRun = some w ∧
    (∃ k, w.calls 1 = some k ∧ k.stage.ended = true) ∧
    ProcessingJobRepository.queuedDepth w.db = 1 ∧
    ProcessingJobRepository.queuedDepth w.db ≤ narrow.maxQueueDepth := by
  obtain ⟨w, hw, ht⟩ := Machine.exists_of_runWhere (m := machine narrow) (H := FindsRoom narrow)
    (s := World.init) (E := turnedAwayRun)
    (p := fun w => decide ((∃ k ∈ w.calls 1, k.stage.ended = true) ∧
      ProcessingJobRepository.queuedDepth w.db = 1)) (by decide +kernel)
  obtain ⟨⟨k, hk, hend⟩, hd⟩ := of_decide_eq_true ht
  have hrun := Machine.run_of_runWhere hw
  exact ⟨w, hrun, ⟨k, hk, hend⟩, hd, (in_flight_le hrun).1 (Machine.meets_of_runWhere hw)⟩

/-- Two new prompts, which both read the depth before either is inserted. -/
def racingRun : List Event :=
  [.submit 0 ⟨"u", "p", "a", "normal"⟩, .submit 1 ⟨"u", "q", "b", "normal"⟩, .call 0 0 true,
    .call 1 0 true, .call 0 0 true, .call 1 0 true, .call 0 0 true, .call 1 0 true]

/-- **The queue takes more than it has room for,** and every prompt in it is new. -/
theorem queue_overfull : ∃ w, (machine narrow).run World.init racingRun = some w ∧
    narrow.maxQueueDepth < ProcessingJobRepository.queuedDepth w.db := by
  obtain ⟨w, hw, -, ht⟩ := Machine.reachable_of_run (m := machine narrow) (E := racingRun)
    (p := fun w => decide (narrow.maxQueueDepth < ProcessingJobRepository.queuedDepth w.db))
    (by decide +kernel)
  exact ⟨w, hw, of_decide_eq_true ht⟩

end PromptQueue.Proof
