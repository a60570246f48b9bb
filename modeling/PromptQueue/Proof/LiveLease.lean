import PromptQueue.Proof.Ownership
import PromptQueue.Proof.Replay
import PromptQueue.Proof.Timeline

/-!
# A worker at work keeps its lease

The reaper goes by `locked_until` alone: it does not know whether the worker that has a job
is still there. So whether a worker that is at work keeps its job is a matter of numbers —
how long a heartbeat can be overdue, given that a sleep and an attempt take their time and
attempts may fail, against the seconds of a lease. `live_lease_kept_iff` says exactly which.
-/

namespace PromptQueue

open Base

/-- The reaper takes no lease of a worker at work. -/
def Timed.SparesLive (x : Timed) (now : Time) : Prop :=
  ∀ s r, x.world.slots s = .running r → ∀ j ∈ x.world.db.jobs.rows,
    ProcessingJob.HeldBy r.job.id s j → ¬ ProcessingJob.Expired now j

end PromptQueue

namespace PromptQueue.Proof

open PromptQueue Base World

variable {S : Type} [LinearOrder S] {env : Env S} {tm : Timing} {x x' : Timed} {e : TimedEvent}
variable {H : Timed → TimedEvent → Prop}

/-! ## The loops -/

/-- Clocks that agree, and heartbeats in time. -/
def OnTime (tm : Timing) (x : Timed) (e : TimedEvent) : Prop :=
  Timed.Synced tm x e ∧ Timed.Beating tm x e

instance (tm : Timing) (x : Timed) (e : TimedEvent) : Decidable (OnTime tm x e) :=
  inferInstanceAs (Decidable (_ ∧ _))

/-- No client re-enqueues a job that is in progress. -/
def Unforced (x : Timed) (e : TimedEvent) : Prop :=
  ∀ ev ∈ e.event, ev.writes = true → ∀ k ∈ x.world.callOf ev, ∀ q,
    k.stage = .reenqueueReset q → ∀ j ∈ x.world.db.jobs.rows, j.promptRequestId = q.id →
      j.status ≠ .processing

/-- On time, and no client in the way. -/
def Punctual (tm : Timing) (x : Timed) (e : TimedEvent) : Prop := OnTime tm x e ∧ Unforced x e

/-- How an event moves the heartbeat of a slot. -/
inductive BeatStep (tm : Timing) (x x' : Timed) (s : WorkerId) : TimedEvent → Prop where
  | same {e : TimedEvent} (hc : ∀ t now locked pick, e ≠ .act t (.claim s now locked pick))
      (hk : ∀ t k now, e ≠ .heartbeat t s k now) (hb : x'.beats s = x.beats s) :
      BeatStep tm x x' s e
  | started {t now : Time} {locked : List Nat} {pick : Option Nat}
      (hb : x'.beats s = .start t) : BeatStep tm x x' s (.act t (.claim s now locked pick))
  | ticked {t now : Time} {k : Tick} (hs : x.world.beating s = true)
      (hb : (x.beats s).step tm.heartbeat t k = some (x'.beats s)) :
      BeatStep tm x x' s (.heartbeat t s k now)

/-- **The heartbeat of a slot moves with a claim of the slot or by itself.** -/
theorem beat_step (h : TimedStep env tm x e x') (s : WorkerId) : BeatStep tm x x' s e := by
  have hl := h.loops
  cases e with
  | act t ev =>
      simp only [Timed.loops] at hl
      split at hl
      · cases hl
      · obtain ⟨hb, -⟩ := Prod.mk.inj (Option.some.inj hl)
        by_cases hc : ev.claims = some s
        · cases ev with
          | claim s₀ now locked pick =>
              cases hc
              refine .started ?_
              rw [← hb]
              exact Function.update_self _ _ _
          | _ => cases hc
        · refine .same ?_ (by rintro _ _ _ ⟨⟩) ?_
          · rintro t' now locked pick he
            cases he
            exact hc rfl
          · rw [← hb]
            cases hcl : ev.claims with
            | none => rfl
            | some s₀ =>
                have hne : s ≠ s₀ := by
                  rintro rfl
                  exact hc hcl
                exact Function.update_of_ne hne _ _
  | heartbeat t s₀ k now =>
      simp only [Timed.loops] at hl
      split at hl
      · rename_i hbeat
        obtain ⟨b, hstep, hb⟩ := Option.map_eq_some_iff.mp hl
        obtain ⟨hb, -⟩ := Prod.mk.inj hb
        by_cases hs : s = s₀
        · subst hs
          refine .ticked hbeat ?_
          rw [← hb, Function.update_self]
          exact hstep
        · refine .same (by rintro _ _ _ _ ⟨⟩) ?_ ?_
          · rintro t' k' now' he
            cases he
            exact hs rfl
          · rw [← hb]
            exact Function.update_of_ne hs _ _
      · cases hl
  | reaper t k now =>
      simp only [Timed.loops] at hl
      obtain ⟨b, -, hb⟩ := Option.map_eq_some_iff.mp hl
      exact .same (by rintro _ _ _ _ ⟨⟩) (by rintro _ _ _ ⟨⟩) (congrFun (Prod.mk.inj hb).1 s).symm

/-- The heartbeats of a run that is on time have kept their pace. -/
theorem beats_sound (hH : ∀ y e, H y e → Timed.Beating tm y e)
    (h : (Timed.machine env tm).ReachableWhere H x) (s : WorkerId) :
    (x.beats s).Sound tm.heartbeat := by
  refine invariant_of_timed (I := fun x => (x.beats s).Sound tm.heartbeat) h
    (Beat.sound_start _ _) fun {y z e} _ hi he hs => ?_
  cases beat_step hs s with
  | same hc hk hb => rw [hb]; exact hi
  | started hb => rw [hb]; exact Beat.sound_start _ _
  | ticked hbeat hb => exact hi.step (hH _ _ he) hb

/-! ## The leases of the living -/

/-- A job that the run in its worker's slot is on has a lease as fresh as the heartbeat. -/
def LiveLease (env : Env S) (tm : Timing) (x : Timed) : Prop :=
  ∀ s r, x.world.slots s = .running r → ∀ j ∈ x.world.db.jobs.rows,
    ProcessingJob.HeldBy r.job.id s j → r.leaseLost = false ∧
      ∃ u, j.lockedUntil = some u ∧ (x.beats s).last - tm.skew + env.leaseSeconds ≤ u

theorem liveLease_init : LiveLease env tm Timed.init := fun _ _ _ _ hj => nomatch hj

/-- What is no claim of the slot and no success leaves the heartbeat's account as it is. -/
theorem last_of_step {s : WorkerId} {e : TimedEvent} (h : BeatStep tm x x' s e)
    (hclaim : ∀ t now locked pick, e ≠ .act t (.claim s now locked pick))
    (hbeat : ∀ t now, e ≠ .heartbeat t s .succeed now) : (x'.beats s).last = (x.beats s).last := by
  cases h with
  | same hc hk hb => rw [hb]
  | started hb => exact absurd rfl (hclaim _ _ _ _)
  | @ticked t now k hs hb =>
      generalize x'.beats s = b' at hb ⊢
      cases Beat.ticks_of_step hb with
      | woke hw ht => rfl
      | failed hw => rfl
      | succeeded hw => exact absurd rfl (hbeat t now)

section
variable {w w' : World} {ev : Event} {s : WorkerId} {r r' : Run} {j' : ProcessingJob}

/-- A heartbeat that leaves the job held extends its lease. -/
theorem held_of_heartbeat {now : Time} (h : Move env w (.heartbeat s now) w')
    (hr : w.slots s = .running r) (hr' : w'.slots s = .running r') (hj' : j' ∈ w'.db.jobs.rows)
    (hheld : ProcessingJob.HeldBy r.job.id s j') :
    r'.leaseLost = false ∧ j'.lockedUntil = some (now + env.leaseSeconds) := by
  rcases job_origin h hj' with ⟨j, hj, rfl⟩ | ⟨q, hins⟩
  · have hrow : w.jobAfter env (.heartbeat s now) j = Table.updateRow
        (ProcessingJob.HeldBy r.job.id s) (·.extend env.leaseSeconds now) j := by
      simp only [jobAfter, issued, hr, Tx.onJob]
    rw [hrow] at hheld ⊢
    by_cases hjs : ProcessingJob.HeldBy r.job.id s j
    · refine ⟨?_, by rw [Table.updateRow_pos hjs]; rfl⟩
      have hhit : w.db.jobs.hits (ProcessingJob.HeldBy r.job.id s) = true :=
        Table.hits_iff.mpr ⟨j, hj, hjs⟩
      cases h with
      | heartbeat hs hl =>
          cases Slot.running.inj (hs.symm.trans hr)
          rw [setSlot_slots_self] at hr'
          cases hr'
          simp [Db.exec, ProcessingJobRepository.extendLease, hhit]
      | think hs he ht => cases he
    · rw [Table.updateRow_neg hjs] at hheld
      exact absurd hheld hjs
  · obtain ⟨c, k, now', inTime, he, -⟩ := hins.call
    cases he

/-- Whatever else happens, a job that is held was held, and its lease is the same. -/
theorem held_of_other (h : Move env w ev w') (hne : ∀ now, ev ≠ .heartbeat s now)
    (hr : w.slots s = .running r) (hj' : j' ∈ w'.db.jobs.rows)
    (hheld : ProcessingJob.HeldBy r.job.id s j') : j' ∈ w.db.jobs.rows := by
  obtain ⟨hid, hworker, hstatus⟩ := hheld
  rcases job_cases h hj' with ⟨j, hj, hst⟩ | ⟨q, hins⟩
  · cases hst with
    | same => exact hj
    | claimed hs hp hd =>
        cases hworker
        exact absurd (hs.symm.trans hr) (by rintro ⟨⟩)
    | @extended s₀ now r₀ _ hs hh =>
        cases hh.2.1.symm.trans hworker
        exact absurd rfl (hne now)
    | _ => cases hstatus
  · obtain ⟨c, k, now, inTime, -, -, -, -, rfl⟩ := hins.call
    cases hstatus

/-- A slot at work claims nothing. -/
theorem not_claim_of_running {now : Time} {locked : List Nat} {pick : Option Nat}
    (hr : w.slots s = .running r) : ¬ Move env w (.claim s now locked pick) w' := by
  intro h
  cases h with
  | claim hs hsel => exact absurd (hs.symm.trans hr) (by rintro ⟨⟩)
  | think hs he ht => cases he

/-- A claim hands out a fresh lease. -/
theorem held_of_claim (h : Move env w ev w') (hc : Claimed env w ev s r')
    (hj' : j' ∈ w'.db.jobs.rows) (hid : j'.id = r'.job.id) :
    r'.leaseLost = false ∧ ∃ now locked pick, ev = .claim s now locked pick ∧
      j'.lockedUntil = some (now + env.leaseSeconds) := by
  rw [claimed_row h hc hj' hid]
  obtain ⟨now, locked, pick, j, q, rfl, -, -, -, -, -, -, rfl⟩ := hc.claim
  exact ⟨rfl, now, locked, pick, rfl, rfl⟩

end

/-- **One event keeps the leases of the living fresh.** -/
theorem liveLease_step (h : TimedStep env tm x e x') (hs : Timed.Synced tm x e)
    (hi : LiveLease env tm x) : LiveLease env tm x' := by
  intro s r' hr' j' hj' hheld
  have hbs := beat_step h s
  rcases h.world with ⟨hev, hw⟩ | ⟨ev, hev, hw⟩
  · -- nothing happened to the world
    rw [hw] at hr' hj'
    rw [last_of_step hbs (by rintro t now locked pick rfl; cases hev)
      (by rintro t now rfl; cases hev)]
    exact hi s r' hr' j' hj' hheld
  · have hm := move_of_step hw
    have hread : ∀ now ∈ ev.reads, e.time - tm.skew ≤ now := by
      intro now hnow
      exact (hs now (by rw [hev]; exact hnow)).1
    rcases run_cases hm hr' with ⟨r, hr, hrs⟩ | hcl
    · rw [hrs.sameRun.1] at hheld
      by_cases hbeat : ∃ now, ev = .heartbeat s now
      · -- the worker is heard of
        obtain ⟨now, rfl⟩ := hbeat
        obtain ⟨hlost, hlock⟩ := held_of_heartbeat hm hr hr' hj' hheld
        refine ⟨hlost, _, hlock, ?_⟩
        have hnow := hread now rfl
        obtain ⟨t, -, hl⟩ | ⟨t, s₀, now₀, rfl, he⟩ | ⟨t, now₀, -, he⟩ := event_cases h hev
        · cases hl
        · cases he
          cases hbs with
          | same hc hk hb => exact absurd rfl (hk _ _ _)
          | ticked hs' hb =>
              generalize x'.beats s = b' at hb ⊢
              cases Beat.ticks_of_step hb
              simp only [TimedEvent.time] at hnow
              linarith
        · cases he
      · -- it is not, and nobody else writes the row
        have hj := held_of_other hm (fun now he => hbeat ⟨now, he⟩) hr hj' hheld
        obtain ⟨hlost, u, hu, hle⟩ := hi s r hr j' hj hheld
        refine ⟨?_, u, hu, ?_⟩
        · cases hrs with
          | same he => exact hlost
          | wrote ht => exact hlost
          | beat hl => exact absurd ⟨_, rfl⟩ hbeat
          | thought he ht => cases ht <;> exact hlost
        · rw [last_of_step hbs]
          · exact hle
          · rintro t now locked pick rfl
            cases hev
            exact absurd hm (not_claim_of_running hr)
          · rintro t now rfl
            cases hev
            exact hbeat ⟨now, rfl⟩
    · obtain ⟨hlost, now, locked, pick, rfl, hlock⟩ := held_of_claim hm hcl hj' hheld.1
      refine ⟨hlost, _, hlock, ?_⟩
      have hnow := hread now rfl
      obtain ⟨t, rfl, -⟩ | ⟨t, s₀, now₀, -, he⟩ | ⟨t, now₀, -, he⟩ := event_cases h hev
      · cases hbs with
        | same hc hk hb => exact absurd rfl (hc _ _ _ _)
        | started hb =>
            rw [hb]
            simp only [Beat.start, TimedEvent.time] at hnow ⊢
            linarith
      · cases he
      · cases he

/-- **The leases of the living are fresh**, in every run whose clocks agree. -/
theorem liveLease_reachable (hH : ∀ y e, H y e → Timed.Synced tm y e)
    (h : (Timed.machine env tm).ReachableWhere H x) : LiveLease env tm x :=
  invariant_of_timed h liveLease_init fun _ hi hs ht => liveLease_step ht (hH _ _ hs) hi

/-- Then a long enough lease cannot run out. -/
theorem sparesLive_of_gap
    (hgap : tm.heartbeat.gap + 2 * tm.skew ≤ env.leaseSeconds)
    (h : (Timed.machine env tm).ReachableWhere (OnTime tm) x) {t now : Time}
    (he : OnTime tm x (.reaper t .succeed now)) : x.SparesLive now := by
  intro s r hr j hj hheld hx
  obtain ⟨hlost, u, hu, hle⟩ := liveLease_reachable (fun _ _ hs => hs.1) h s r hr j hj hheld
  have hbeat : x.world.beating s = true := by
    simp only [World.beating, hr, hlost]
    rfl
  have hdue := (beats_sound (fun _ _ hs => hs.2) h s).due_le
  have htime : t ≤ (x.beats s).due tm.heartbeat := he.2 j hj s hheld.2.1 hbeat
  have hnow : now ≤ t + tm.skew := (he.1 now rfl).2
  have hlate := hx.2
  simp only [ProcessingJob.leaseExpired, hu, decide_eq_true_eq] at hlate
  linarith

/-! ## A lease that is too short -/

/-- One event in time, put together. -/
theorem step_timed {w : World} {l : (WorkerId → Beat Time) × Beat Time}
    (hc : x.clock ≤ e.time) (hl : x.loops tm e = some l)
    (hw : Timed.follow env x.world e.event = some w) :
    (Timed.machine env tm).step x e = some ⟨w, e.time, l.1, l.2⟩ := by
  show Timed.step env tm x e = _
  simp only [Timed.step, hc, if_true, hl, hw, Option.bind_some, Option.map_some]

/-- Without a claim no job is in progress. -/
theorem unclaimed_step {w w' : World} {ev : Event} (h : Move env w ev w') (hc : ev.claims = none)
    (hi : ∀ j ∈ w.db.jobs.rows, j.status ≠ .processing) :
    ∀ j ∈ w'.db.jobs.rows, j.status ≠ .processing := by
  intro j' hj' hp
  rcases job_cases h hj' with ⟨j, hj, hst⟩ | ⟨q, hins⟩
  · cases hst with
    | same => exact hi _ hj hp
    | claimed hs hpick hd => cases hc
    | extended hs hh => exact hi _ hj hh.2.2
    | _ => cases hp
  · obtain ⟨c, k, now, inTime, -, -, -, -, rfl⟩ := hins.call
    cases hp

/-- A scan takes an expired job out of progress. -/
theorem unheld_of_expired {w : World} {now : Time} {j : ProcessingJob}
    (hx : ProcessingJob.Expired now j) :
    (w.jobAfter env (.reap now) j).status ≠ .processing := by
  have hreap : w.jobAfter env (.reap now) j = (Tx.reapExpiredLeases now).onJob j := rfl
  rcases onJob_expired hx with hrow | hrow
  · rw [hreap, hrow]
    exact JobStatus.noConfusion
  · rw [hreap, hrow]
    exact JobStatus.noConfusion

/-- What happens to the world can happen in no time. -/
theorem reachable_of_run {es : List Event} {w : World}
    (h : (machine env).run World.init es = some w)
    (hes : ∀ e ∈ es, e.looped = false ∧ e.claims = none ∧ ∀ now ∈ e.reads, now = 0) :
    (Timed.machine env tm).ReachableWhere (Punctual tm) { Timed.init with world := w } := by
  have key : ∀ (es : List Event) (w₀ : World), (machine env).run w₀ es = some w →
      (∀ e ∈ es, e.looped = false ∧ e.claims = none ∧ ∀ now ∈ e.reads, now = 0) →
      (∀ j ∈ w₀.db.jobs.rows, j.status ≠ .processing) →
      (Timed.machine env tm).PathWhere (Punctual tm) { Timed.init with world := w₀ }
        { Timed.init with world := w } := by
    intro es
    induction es with
    | nil =>
        intro w₀ h _ _
        cases h
        exact Relation.ReflTransGen.refl
    | cons e es ih =>
        intro w₀ h hes hi
        obtain ⟨u, hu, h⟩ := Option.bind_eq_some_iff.mp h
        obtain ⟨hloop, hclaim, hread⟩ := hes e List.mem_cons_self
        have hnext := ih u h (fun e he => hes e (List.mem_cons_of_mem _ he))
          (unclaimed_step (move_of_step hu) hclaim hi)
        refine Relation.ReflTransGen.head ⟨.act 0 e, ⟨⟨fun now hnow => ?_, trivial⟩, ?_⟩, ?_⟩ hnext
        · have hnow : now = 0 := hread now hnow
          have hskew := tm.skew_nonneg
          rw [hnow]
          simp only [TimedEvent.time]
          constructor <;> linarith
        · exact fun ev _ _ k _ q _ j hj _ => hi j hj
        · refine step_timed (l := (Timed.init.beats, Timed.init.scans)) (le_refl _) ?_ hu
          simp only [Timed.loops, hloop, hclaim]
          rfl
  exact key es World.init h hes (by intro j hj; cases hj)

/-- A queue that takes anything takes a request, and then has one job that is due. -/
theorem due_job (env : Env S) (hq : 0 < env.maxQueueDepth) : ∃ w j,
    (machine env).run World.init (submission 0 "p" "a") = some w ∧ w.db.jobs.rows = [j] ∧
      ProcessingJob.Due 0 j ∧ w.slots = fun _ => .idle := by
  have hd : ¬ env.maxQueueDepth ≤ 0 := Nat.not_le.mpr hq
  have hp : isText "p" = true := by decide
  have hfit : (PromptProcessor.newRequest env ⟨"u", "p", "a", "normal"⟩).fits = true := by
    have hu : fitsVarchar "u" = true := by decide
    have hpid : fitsVarchar "p" = true := by decide
    have ht : isText "a" = true := by decide
    simp only [NewRequest.fits, PromptProcessor.newRequest, hu, hpid, ht, Bool.and_self]
  have hrun : ((machine env).run World.init (submission 0 "p" "a")).map (·.db.jobs.rows)
      = some [(PromptProcessor.newRequest env ⟨"u", "p", "a", "normal"⟩).jobRow 1 0 1] := by
    simp [submission, Machine.run, machine, World.step, World.init, setCall, PromptProcessor.call,
      PromptProcessor.resume, commit, Db.exec, PromptRequestRepository.getByPromptId, Db.empty,
      Table.empty, IdempotencyService.check, ProcessingJobRepository.queuedDepth, hd, hp, hfit]
    rfl
  obtain ⟨w, hw, hj⟩ := Option.map_eq_some_iff.mp hrun
  refine ⟨w, _, hw, hj, ⟨rfl, le_refl _⟩, funext fun s => ?_⟩
  exact slot_of_run hw (by simp [submission, Event.slot])

/-- A worker at work whose heartbeats fail, while the reaper is at a scan. -/
structure Straining (tm : Timing) (lease : Nat) (b : Beat Time) (x : Timed) : Prop where
  clock : x.clock = b.since
  beat : x.beats 0 = b
  scans : x.scans.working = true
  /-- The job it is on, with the lease it claimed. -/
  job : ∃ r j, x.world.slots 0 = .running r ∧ r.stage = .findExact ∧ r.leaseLost = false ∧
    x.world.db.jobs.rows = [j] ∧ ProcessingJob.HeldBy r.job.id 0 j ∧
    j.lockedUntil = some (tm.reaper.interval + lease)

/-- It can come to that: the reaper wakes up, and a worker claims a job. -/
theorem straining_start (env : Env S) (tm : Timing) (hq : 0 < env.maxQueueDepth) :
    ∃ x, (Timed.machine env tm).ReachableWhere (Punctual tm) x ∧
      Straining tm env.leaseSeconds (.start (tm.reaper.interval + tm.skew)) x := by
  obtain ⟨w, j, hrun, hjobs, hd, hidle⟩ := due_job env hq
  have hi := tm.reaper.interval_nonneg
  have hskew := tm.skew_nonneg
  have h₀ : (Timed.machine env tm).ReachableWhere (Punctual tm) { Timed.init with world := w } := by
    refine reachable_of_run hrun fun e he => ?_
    simp only [submission, List.mem_cons, List.not_mem_nil, or_false] at he
    rcases he with rfl | rfl | rfl | rfl <;>
      exact ⟨rfl, rfl, by simp [Event.reads]⟩
  -- the reaper wakes up
  let t := tm.reaper.interval + tm.skew
  have ht : (0 : Time) ≤ t := add_nonneg hi hskew
  have hwake : (Timed.machine env tm).step { Timed.init with world := w } (.reaper t .wake 0)
      = some ⟨w, t, Timed.init.beats, { Beat.start 0 with working := true, since := t }⟩ := by
    refine step_timed (l := (_, _)) ht ?_ rfl
    have hlate : (0 : Time) + tm.reaper.interval ≤ t := by linarith
    simp only [Timed.loops, Timed.init, Beat.step, Beat.start, hlate, and_self, if_true,
      Option.map_some]
  have hon : Punctual tm { Timed.init with world := w } (.reaper t .wake 0) := by
    exact ⟨⟨by rintro _ ⟨⟩, trivial⟩, by rintro _ ⟨⟩⟩
  have h₁ := h₀.tail hon hwake
  -- a worker claims the job
  have hmem : j ∈ w.db.jobs.rows := by
    rw [hjobs]
    exact List.mem_singleton_self j
  have hdue : ProcessingJob.Due tm.reaper.interval j := ⟨hd.1, hd.2.trans hi⟩
  have hsel : ProcessingJobRepository.Selects w.db.jobs.rows [] tm.reaper.interval
      (some j.id) := by
    refine ⟨j, hmem, rfl, hdue, List.not_mem_nil, fun k hk _ _ => ?_⟩
    rw [hjobs, List.mem_singleton] at hk
    rw [hk]
    exact .inr ⟨rfl, le_refl _⟩
  obtain ⟨r, w', hw', hr, hjob, -, hstage, hlost, hrows⟩ :=
    claim_turn env (congrFun hidle 0) hmem hdue hsel
  have hclaim : (Timed.machine env tm).step
      ⟨w, t, Timed.init.beats, { Beat.start 0 with working := true, since := t }⟩
      (.act t (.claim 0 tm.reaper.interval [] (some j.id)))
      = some ⟨w', t, Function.update Timed.init.beats 0 (.start t),
        { Beat.start 0 with working := true, since := t }⟩ :=
    step_timed (l := (_, _)) (le_refl t) rfl hw'
  refine ⟨_, h₁.tail (e := .act t (.claim 0 tm.reaper.interval [] (some j.id)))
    ⟨⟨fun now hnow => ?_, trivial⟩, ?_⟩ hclaim, ?_⟩
  · cases hnow
    simp only [TimedEvent.time, t]
    constructor <;> linarith
  · rintro _ ⟨⟩ hwrites
    cases hwrites
  · refine ⟨rfl, by simp only [Function.update_self, t], rfl, r, r.job, hr, hstage, hlost, ?_, ?_,
      ?_⟩
    · rw [hrows, hjobs, hjob, List.map_singleton]
      simp only [Tx.onJob]
      rw [Table.updateRow, if_pos ⟨rfl, hdue⟩]
    · rw [hjob]
      exact ⟨rfl, rfl, rfl⟩
    · rw [hjob]
      rfl

/-- The heartbeat goes on without success, and the worker and its job stay as they are. -/
theorem straining_tick {lease : Nat} {b b' : Beat Time} {k : Tick}
    (h : (Timed.machine env tm).ReachableWhere (Punctual tm) x) (hs : Straining tm lease b x)
    (hp : b.OnPace tm.heartbeat b'.since k ∧ b.step tm.heartbeat b'.since k = some b')
    (hk : k ≠ .succeed) (hle : b.since ≤ b'.since) :
    ∃ x', (Timed.machine env tm).ReachableWhere (Punctual tm) x' ∧ Straining tm lease b' x' := by
  obtain ⟨hclock, hbeat, hscans, r, j, hr, hstage, hlost, hjob⟩ := hs
  have hlive : x.world.beating 0 = true := by
    simp only [World.beating, hr, hlost]
    rfl
  have hevent : (TimedEvent.heartbeat b'.since 0 k 0).event = none := by
    cases k <;> first | rfl | exact absurd rfl hk
  have hw : (Timed.machine env tm).step x (.heartbeat b'.since 0 k 0)
      = some ⟨x.world, b'.since, Function.update x.beats 0 b', x.scans⟩ := by
    refine step_timed (l := (Function.update x.beats 0 b', x.scans)) (hclock ▸ hle) ?_
      (by rw [hevent]; rfl)
    simp only [Timed.loops, hlive, if_true, hbeat, hp.2, Option.map_some]
  refine ⟨_, h.tail (e := .heartbeat b'.since 0 k 0) ⟨⟨?_, ?_⟩, ?_⟩ hw, ?_⟩
  · intro now hnow
    rw [hevent] at hnow
    cases hnow
  · show (x.beats 0).OnPace tm.heartbeat b'.since k
    rw [hbeat]
    exact hp.1
  · intro ev hev
    rw [hevent] at hev
    cases hev
  · exact ⟨rfl, by simp only [Function.update_self], hscans, r, j, hr, hstage, hlost, hjob⟩

/-- As many heartbeats fail as may, each as late as it may. -/
theorem straining_late (env : Env S) (tm : Timing) (hq : 0 < env.maxQueueDepth) {n : Nat}
    (hn : n ≤ tm.heartbeat.slack) :
    ∃ x, (Timed.machine env tm).ReachableWhere (Punctual tm) x ∧ Straining tm env.leaseSeconds
      (.lateAttempt tm.heartbeat (tm.reaper.interval + tm.skew) n) x := by
  have hnap := tm.heartbeat.nap_nonneg
  have hwork := tm.heartbeat.work_nonneg
  induction n with
  | zero =>
      obtain ⟨x, hx, hs⟩ := straining_start env tm hq
      rw [← Beat.late_zero tm.heartbeat] at hs
      refine straining_tick hx hs (Beat.late_wake _ _ _) (by rintro ⟨⟩) ?_
      simp only [Beat.late, Beat.lateAttempt]
      linarith
  | succ n ih =>
      obtain ⟨x, hx, hs⟩ := ih (by omega)
      obtain ⟨y, hy, hs⟩ := straining_tick hx hs (Beat.late_fail _ (by omega)) (by rintro ⟨⟩) (by
        simp only [Beat.late, Beat.lateAttempt]
        push_cast
        linarith)
      refine straining_tick hy hs (Beat.late_wake _ _ _) (by rintro ⟨⟩) ?_
      simp only [Beat.late, Beat.lateAttempt]
      linarith

/-- If a lease is too short for that, a scan finds it expired. -/
theorem lease_overrun (env : Env S) (tm : Timing) (hq : 0 < env.maxQueueDepth)
    (hshort : env.leaseSeconds < tm.heartbeat.gap + 2 * tm.skew) :
    ∃ x x' t now r j, (Timed.machine env tm).ReachableWhere (Punctual tm) x ∧
      Punctual tm x (.reaper t .succeed now) ∧
      Timed.step env tm x (.reaper t .succeed now) = some x' ∧
      x'.world = x.world.commit .reaper (.reapExpiredLeases now) ∧
      x.world.slots 0 = .running r ∧ r.stage = .findExact ∧ x.world.db.jobs.rows = [j] ∧
      ProcessingJob.HeldBy r.job.id 0 j ∧ ProcessingJob.Expired now j := by
  obtain ⟨x, hx, hclock, hbeat, hscans, r, j, hr, hstage, hlost, hjobs, hheld, hlock⟩ :=
    straining_late env tm hq (Nat.le_refl tm.heartbeat.slack)
  -- the reaper scans as late as the heartbeat may be
  let start := tm.reaper.interval + tm.skew
  let t := start + tm.heartbeat.gap
  have hlast := Beat.late_succeed tm.heartbeat start
  have hskew := tm.skew_nonneg
  have hle : x.clock ≤ t := by
    rw [hclock]
    simp only [Beat.lateAttempt, t, start, Pace.gap]
    linarith [tm.heartbeat.work_nonneg]
  have htime : Punctual tm x (.reaper t .succeed (t + tm.skew)) := by
    refine ⟨⟨fun now hnow => ?_, fun j' hj' s hs _ => ?_⟩, by rintro _ ⟨⟩ ⟨⟩⟩
    · cases hnow
      simp only [TimedEvent.time]
      constructor <;> linarith
    · rw [hjobs, List.mem_singleton] at hj'
      rw [hj', hheld.2.1] at hs
      cases hs
      rw [hbeat]
      exact hlast.1.1
  have hstep : Timed.step env tm x (.reaper t .succeed (t + tm.skew))
      = some ⟨x.world.commit .reaper (.reapExpiredLeases (t + tm.skew)), t, x.beats,
        ⟨false, t, 0, t⟩⟩ := by
    refine step_timed (l := (x.beats, ⟨false, t, 0, t⟩)) hle ?_ rfl
    simp only [Timed.loops, Beat.step, hscans, if_true, Option.map_some]
  refine ⟨x, _, t, t + tm.skew, r, j, hx, htime, hstep, rfl, hr, hstage, hjobs, hheld,
    hheld.2.2, ?_⟩
  simp only [ProcessingJob.leaseExpired, hlock, decide_eq_true_eq, t, start]
  linarith

end PromptQueue.Proof
