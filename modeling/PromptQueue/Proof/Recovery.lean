import PromptQueue.Proof.LiveLease

/-!
# What a dead worker leaves behind

A worker that dies in the middle of a job leaves the job in progress under a lease nobody
extends. The lease runs out, and the first scan after that takes the job; how long it is
until then is the lease and one round of the reaper, with what its failures and the clocks
add.
-/

namespace PromptQueue.Proof

open PromptQueue Base World

variable {S : Type} [LinearOrder S] {env : Env S} {tm : Timing} {x x' y : Timed} {e : TimedEvent}
variable {H : Timed → TimedEvent → Prop}

/-- Clocks that agree, and scans in time. -/
def Patrolled (tm : Timing) (x : Timed) (e : TimedEvent) : Prop :=
  Timed.Synced tm x e ∧ Timed.Scanning tm x e

instance (tm : Timing) (x : Timed) (e : TimedEvent) : Decidable (Patrolled tm x e) :=
  inferInstanceAs (Decidable (_ ∧ _))

/-! ## The scans -/

/-- How an event moves the loop of the reaper. -/
inductive ScanStep (tm : Timing) (x x' : Timed) : TimedEvent → Prop where
  | same {e : TimedEvent} (hk : ∀ t k now, e ≠ .reaper t k now) (hb : x'.scans = x.scans) :
      ScanStep tm x x' e
  | ticked {t now : Time} {k : Tick} (hb : x.scans.step tm.reaper t k = some x'.scans) :
      ScanStep tm x x' (.reaper t k now)

theorem scan_step (h : TimedStep env tm x e x') : ScanStep tm x x' e := by
  have hl := h.loops
  cases e with
  | act t ev =>
      simp only [Timed.loops] at hl
      split at hl
      · cases hl
      · exact .same (by rintro _ _ _ ⟨⟩) (Prod.mk.inj (Option.some.inj hl)).2.symm
  | heartbeat t s k now =>
      simp only [Timed.loops] at hl
      split at hl
      · obtain ⟨b, -, hb⟩ := Option.map_eq_some_iff.mp hl
        exact .same (by rintro _ _ _ ⟨⟩) (Prod.mk.inj hb).2.symm
      · cases hl
  | reaper t k now =>
      simp only [Timed.loops] at hl
      obtain ⟨b, hstep, hb⟩ := Option.map_eq_some_iff.mp hl
      refine .ticked ?_
      rw [hstep, (Prod.mk.inj hb).2]

/-- Where the reaper stands in a run it patrols. -/
structure OnPatrol (tm : Timing) (x : Timed) : Prop where
  sound : x.scans.Sound tm.reaper
  /-- Its last scan is behind, and it is not overdue. -/
  last : x.scans.last ≤ x.clock
  due : x.clock ≤ x.scans.due tm.reaper

theorem onPatrol_init : OnPatrol tm Timed.init where
  sound := Beat.sound_start _ _
  last := le_refl _
  due := by
    have hnap := tm.reaper.nap_nonneg
    simp [Timed.init, Beat.due, Beat.start, hnap]

theorem onPatrol_step (h : TimedStep env tm x e x') (hs : Timed.Scanning tm x e)
    (hi : OnPatrol tm x) : OnPatrol tm x' := by
  have hnow := h.now
  have hclock := h.clock
  have hlast := hi.last
  cases scan_step h with
  | same hk hb =>
      refine ⟨by rw [hb]; exact hi.sound, by rw [hb]; linarith, ?_⟩
      rw [hb, hnow]
      exact hs.1
  | @ticked t now k hb =>
      have hsound := hi.sound.step hs.2 hb
      simp only [TimedEvent.time] at hnow hclock
      refine ⟨hsound, ?_, ?_⟩
      · generalize x'.scans = b' at hb
        cases Beat.ticks_of_step hb with
        | woke hw ht => show x.scans.last ≤ _; linarith
        | failed hw => show x.scans.last ≤ _; linarith
        | succeeded hw => show t ≤ _; linarith
      · have hnap := tm.reaper.nap_nonneg
        have hwork := tm.reaper.work_nonneg
        generalize x'.scans = b' at hb
        cases Beat.ticks_of_step hb with
        | woke hw ht => simp only [Beat.due, if_true]; linarith
        | failed hw => simp only [Beat.due, Bool.false_eq_true, if_false]; linarith
        | succeeded hw => simp only [Beat.due, Bool.false_eq_true, if_false]; linarith

theorem onPatrol_reachable (hH : ∀ y e, H y e → Timed.Scanning tm y e)
    (h : (Timed.machine env tm).ReachableWhere H x) : OnPatrol tm x :=
  invariant_of_timed h onPatrol_init fun _ hi hs ht => onPatrol_step ht (hH _ _ hs) hi

/-! ## The jobs of a dead worker -/

/--
A slot that is gone since `t₀`. A job still in progress under its name has a lease from
before, and the reaper has not scanned since that ran out.
-/
structure GoneSince (env : Env S) (tm : Timing) (s : WorkerId) (t₀ : Time) (x : Timed) :
    Prop where
  stopped : x.world.slots s = .stopped
  jobs : ∀ j ∈ x.world.db.jobs.rows, j.workerId = some s → j.status = .processing →
    (∃ u, j.lockedUntil = some u ∧ u ≤ t₀ + tm.skew + env.leaseSeconds) ∧
      x.scans.last ≤ t₀ + env.leaseSeconds + 2 * tm.skew

/-- A slot that is gone stays gone. -/
theorem stopped_step {w w' : World} {ev : Event} (h : Move env w ev w') {s : WorkerId}
    (hs : w.slots s = .stopped) : w'.slots s = .stopped := by
  by_cases he : ev.slot = some s
  · cases h with
    | submit hc => cases he
    | call hc ht => cases he
    | callCrash hc hn => cases he
    | reap => cases he
    | crash hn => cases he; exact absurd hs hn
    | claim hi hsel => cases he; exact absurd (hi.symm.trans hs) nofun
    | pipeline hr ht => cases he; exact absurd (hr.symm.trans hs) nofun
    | heartbeat hr hl => cases he; exact absurd (hr.symm.trans hs) nofun
    | next hr hd => cases he; exact absurd (hr.symm.trans hs) nofun
    | think hr hth ht =>
        cases Option.some.inj ((slot_of_thinker hth).symm.trans he)
        exact absurd (hr.symm.trans hs) nofun
  · rw [slot_frame h he]
    exact hs

/-- A job in progress under the name of a dead worker was so before, and nothing wrote it. -/
theorem orphan_back {w w' : World} {ev : Event} (h : Move env w ev w') {s : WorkerId}
    (hs : w.slots s = .stopped) {j' : ProcessingJob} (hj' : j' ∈ w'.db.jobs.rows)
    (hw : j'.workerId = some s) (hp : j'.status = .processing) : j' ∈ w.db.jobs.rows := by
  rcases job_cases h hj' with ⟨j, hj, hst⟩ | ⟨q, hins⟩
  · cases hst with
    | same => exact hj
    | claimed hi hpick hd =>
        cases hw
        exact absurd (hi.symm.trans hs) nofun
    | @extended s₀ now r _ hr hh =>
        cases hh.2.1.symm.trans hw
        exact absurd (hr.symm.trans hs) nofun
    | _ => cases hp
  · obtain ⟨c, k, now, inTime, -, -, -, -, rfl⟩ := hins.call
    cases hp

/-- A scan leaves no expired job in progress. -/
theorem not_expired_of_reap {w w' : World} {now : Time} (h : Move env w (.reap now) w')
    {j : ProcessingJob} (hj : j ∈ w.db.jobs.rows) (hj' : j ∈ w'.db.jobs.rows)
    (hp : j.status = .processing) : ¬ ProcessingJob.Expired now j := by
  intro hx
  have hrow := Db.job_eq_of_id hj' (job_goes_on h hj) (jobAfter_id j).symm
  rw [hrow] at hp
  exact unheld_of_expired hx hp

theorem goneSince_step (h : TimedStep env tm x e x') (hs : Timed.Synced tm x e) {s : WorkerId}
    {t₀ : Time} (hi : GoneSince env tm s t₀ x) : GoneSince env tm s t₀ x' := by
  rcases h.world with ⟨hev, hw⟩ | ⟨ev, hev, hw⟩
  · refine ⟨by rw [hw]; exact hi.stopped, fun j hj hworker hp => ?_⟩
    rw [hw] at hj
    obtain ⟨hlock, hlast⟩ := hi.jobs j hj hworker hp
    refine ⟨hlock, ?_⟩
    -- a tick of the reaper without a scan
    cases scan_step h with
    | same hk hb => rw [hb]; exact hlast
    | @ticked t now k hb =>
        generalize x'.scans = b' at hb ⊢
        cases Beat.ticks_of_step hb with
        | woke hw ht => exact hlast
        | failed hw => exact hlast
        | succeeded hw => cases hev
  · have hm := move_of_step hw
    refine ⟨stopped_step hm hi.stopped, fun j hj' hworker hp => ?_⟩
    have hj := orphan_back hm hi.stopped hj' hworker hp
    obtain ⟨⟨u, hu, hle⟩, hlast⟩ := hi.jobs j hj hworker hp
    refine ⟨⟨u, hu, hle⟩, ?_⟩
    cases scan_step h with
    | same hk hb => rw [hb]; exact hlast
    | @ticked t now k hb =>
        generalize x'.scans = b' at hb ⊢
        cases Beat.ticks_of_step hb with
        | woke hw ht => exact hlast
        | failed hw => exact hlast
        | succeeded hw =>
            -- the scan did not find it expired
            cases hev
            have hx := not_expired_of_reap hm hj hj' hp
            have hnow : now ≤ u := by
              by_contra hn
              refine hx ⟨hp, ?_⟩
              simp only [ProcessingJob.leaseExpired, hu, decide_eq_true_eq]
              exact not_le.mp hn
            have hread : t - tm.skew ≤ now := (hs now rfl).1
            show t ≤ _
            linarith

/-- One round of the reaper, as slow as may be. -/
def slowRound (t : Time) : List TimedEvent :=
  [.reaper (t + 51 / 10) .wake 0, .reaper (t + 52 / 10) .succeed (t + 52 / 10)]

/-- A worker that claims a job and dies, and the reaper's first rounds. -/
def orphanRun : List TimedEvent :=
  (submission 0 "p" "a").map (.act 0) ++
    [.act 1 (.claim 0 (11 / 10) [] (some 1)), .act 1 (.crash 0)]

/-- Three rounds later the lease has run out, and the next round is on its way. -/
def orphanRounds : List TimedEvent :=
  slowRound 0 ++ slowRound (52 / 10) ++ slowRound (104 / 10) ++ [.reaper (207 / 10) .wake 0]

end PromptQueue.Proof
