import PromptQueue.Api.Health
import PromptQueue.Proof.LiveLease

/-!
# What the health check can tell

`GET /health` looks for a job that was heard of in the last `threshold` seconds. A worker
at work is seen if its heartbeat is never overdue for longer than that, clocks included,
and only then. The other way round, once no worker was heard of for so long, the check says
`idle`, whatever is waiting in the queue; and `idle` is healthy.
-/

namespace PromptQueue

/-- A job is heard of: it is claimed, or its lease is extended. -/
def World.Heard (w : World) : Event → Prop
  | .claim _ _ _ pick => pick.isSome = true
  | .heartbeat s now => ∃ r ∈ w.runOf (.heartbeat s now), ∃ j ∈ w.db.jobs.rows,
      ProcessingJob.HeldBy r.job.id s j
  | _ => False

instance (w : World) : DecidablePred w.Heard := fun e =>
  match e with
  | .claim _ _ _ pick => inferInstanceAs (Decidable (pick.isSome = true))
  | .heartbeat s now => inferInstanceAs (Decidable (∃ r ∈ w.runOf (.heartbeat s now), _))
  | .submit _ _ | .call _ _ _ | .callCrash _ | .pipeline _ _ _ | .dbError _ _ | .limiter _ _
  | .llmLimited _ _ _ | .llmCall _ | .llmReturn _ _ | .llmRaise _ _ | .cancel _ | .abort _
  | .crash _ | .next _ | .reap _ => isFalse not_false

end PromptQueue

namespace PromptQueue.Proof

open PromptQueue Base World

variable {S : Type} [LinearOrder S] {env : Env S} {tm : Timing} {x x' y : Timed} {e : TimedEvent}

/-- An event in time by which no job is heard of. -/
def Unheard (tm : Timing) (x : Timed) (e : TimedEvent) : Prop :=
  Timed.Synced tm x e ∧ ∀ ev ∈ e.event, ¬ x.world.Heard ev

instance (tm : Timing) (x : Timed) (e : TimedEvent) : Decidable (Unheard tm x e) :=
  inferInstanceAs (Decidable (_ ∧ ∀ ev ∈ e.event, _))

/-- Workers at work are seen by a check whose clock is right, if their heartbeats are in time. -/
def SeesLive (tm : Timing) (threshold : Nat) (x : Timed) : Prop :=
  ∀ s r, x.world.slots s = .running r → ∀ j ∈ x.world.db.jobs.rows,
    ProcessingJob.HeldBy r.job.id s j → ∀ t now, x.clock ≤ t →
      t ≤ (x.beats s).due tm.heartbeat → t - tm.skew ≤ now → now ≤ t + tm.skew →
        HealthChecker.checkWorker x.world.db threshold now true = "running"

/-- A lease runs from the last that was heard of its worker. -/
theorem heard_of_leased (hH : ∀ y e, OnTime tm y e → Timed.Synced tm y e)
    (h : (Timed.machine env tm).ReachableWhere (OnTime tm) x) {j : ProcessingJob}
    (hj : j ∈ x.world.db.jobs.rows) {u : Time} (hu : j.lockedUntil = some u) :
    j.lastHeartbeatAt = some (u - env.leaseSeconds) := by
  obtain ⟨b, hb, rfl⟩ := ((timesInOrder_reachable hH h).jobs j hj).leased u hu
  rw [show j.lastHeartbeatAt = some b from hb, add_sub_cancel_right]

/-- Nothing else is a sign of life: a poll that finds no job is none. -/
theorem heard_before {w w' : World} {ev : Event} (h : Move env w ev w') (hev : ¬ w.Heard ev)
    {j' : ProcessingJob} (hj' : j' ∈ w'.db.jobs.rows) {b : Time}
    (hb : j'.lastHeartbeatAt = some b) : ∃ j ∈ w.db.jobs.rows, j.lastHeartbeatAt = some b := by
  rcases job_cases h hj' with ⟨j, hj, hst⟩ | ⟨q, hins⟩
  · cases hst with
    | claimed _ hp _ => exact absurd (by rw [← hp]; rfl) hev
    | extended hs hh => exact absurd ⟨_, runOf_eq rfl hs, j, hj, hh⟩ hev
    | reset _ _ _ => cases hb
    | _ => exact ⟨_, hj, hb⟩
  · obtain ⟨c, k, now, inTime, -, -, -, -, rfl⟩ := hins.call
    cases hb

/--
**A fleet that is gone is idle, and healthy.** Once no worker has claimed a job or extended
a lease for the threshold and twice the skew, the check answers `healthy`, with the worker
`idle`, as long as its statements go through; whatever is left in the queue.
-/
theorem silent_fleet_healthy (env : Env S) (tm : Timing) (threshold : Nat) (timestamp : String)
    (h : (Timed.machine env tm).ReachableWhere (Timed.Synced tm) x)
    (hp : (Timed.machine env tm).PathWhere (Unheard tm) x y) {t now : Time}
    (ht : x.clock + threshold + 2 * tm.skew ≤ t) (hnow : t - tm.skew ≤ now) :
    healthCheck (HealthChecker.check y.world.db threshold now ⟨true, true, true⟩) timestamp
      = ⟨"healthy", timestamp, ⟨"connected", "idle", "available"⟩⟩ := by
  have hstart : ∀ j ∈ x.world.db.jobs.rows, ∀ b ∈ j.lastHeartbeatAt, b ≤ x.clock + tm.skew :=
    fun j hj b hb => (((timesInOrder_reachable (fun _ _ hs => hs) h).jobs j hj).heard b hb).1
  have hend : ∀ j ∈ y.world.db.jobs.rows, ∀ b ∈ j.lastHeartbeatAt, b ≤ x.clock + tm.skew := by
    refine hp.invariant_within (I := fun z => ∀ j ∈ z.world.db.jobs.rows,
      ∀ b ∈ j.lastHeartbeatAt, b ≤ x.clock + tm.skew) hstart h (fun _ _ hu => hu.1) ?_
    intro u v e _ hi he hst j hj b hb
    rcases (timed_step hst).world with ⟨-, hw⟩ | ⟨ev, hev, hw⟩
    · rw [hw] at hj
      exact hi j hj b hb
    · obtain ⟨j₀, hj₀, hb₀⟩ := heard_before (move_of_step hw) (he.2 ev hev) hj hb
      exact hi j₀ hj₀ b hb₀
  have hidle : HealthChecker.checkWorker y.world.db threshold now true = "idle" := by
    refine HealthChecker.checkWorker_idle fun j hj b hb => ?_
    have hle := hend j hj b hb
    linarith
  simp [healthCheck, HealthChecker.check, hidle, HealthChecker.checkDb, HealthChecker.checkRedis]

/--
The worker that had the job dies. Another polls every ten seconds, and finds none it could
claim; a minute and a half later all is well.
-/
theorem silent_fleet_healthy_dead : ∃ x : Timed, x.world.slots 0 = .stopped ∧
    x.world.slots 1 = .idle ∧ (∃ j ∈ x.world.db.jobs.rows, j.status = .processing) ∧
    healthCheck (HealthChecker.check x.world.db 30 100 ⟨true, true, true⟩) "now"
      = ⟨"healthy", "now", ⟨"connected", "idle", "available"⟩⟩ := by
  obtain ⟨x, y, hx, hp, ht, ht'⟩ := Machine.legs_of_run
    (m := Timed.machine deployment (shipped 1)) (H := Timed.Synced (shipped 1))
    (K := Unheard (shipped 1)) (E := (submission 0 "p" "a").map (.act 0) ++
      [.act 1 (.claim 0 1 [] (some 1)), .act 2 (.crash 0)])
    (F := [.act 10 (.claim 1 10 [] none), .act 20 (.claim 1 20 [] none),
      .act 30 (.claim 1 30 [] none)])
    (p := fun x => decide (x.clock = 2))
    (q := fun y => decide (y.world.slots 0 = .stopped ∧ y.world.slots 1 = .idle ∧
      ∃ j ∈ y.world.db.jobs.rows, j.status = .processing)) (by decide +kernel)
  have hclock : x.clock = 2 := of_decide_eq_true ht
  obtain ⟨hstopped, hidle, hjob⟩ := of_decide_eq_true ht'
  refine ⟨y, hstopped, hidle, hjob, silent_fleet_healthy deployment (shipped 1) 30 "now" hx hp
    (t := 100) ?_ ?_⟩
  · rw [hclock]
    norm_num [shipped]
  · norm_num [shipped]

end PromptQueue.Proof
