import PromptQueue.Db.Schema
import Mathlib.Algebra.Order.Ring.Rat

/-!
# `GET /health`

`HealthChecker` of `src/api/health_checker.py` and the route of `src/api/routes/health.py`.
Each check is one statement sent to what it checks, and any exception is an answer too.
Whether a worker lives is read off the queue: from the last time a job was heard of.
-/

namespace PromptQueue

/-- Which of the statements of a check go through. -/
structure Probes where
  /-- `SELECT 1`. -/
  database : Bool
  /-- `PING`. -/
  redis : Bool
  /-- The two counts of `_check_worker`. -/
  jobs : Bool
  deriving DecidableEq, Repr

/-- What `check` returns. -/
structure HealthReport where
  allOk : Bool
  database : String
  worker : String
  cache : String
  deriving DecidableEq, Repr

namespace HealthChecker

/-- `_check_db`. -/
def checkDb (ok : Bool) : String := if ok then "connected" else "unavailable"

/-- `_check_redis`. -/
def checkRedis (ok : Bool) : String := if ok then "available" else "unavailable"

/--
`_check_worker`, at the time `now` of the API's clock. The first of its counts, of the jobs
in progress, is read and not used.
-/
def checkWorker (db : Db) (threshold : Nat) (now : Time) (ok : Bool) : String :=
  if ok then
    let cutoff := now - threshold
    let recent := db.jobs.rows.countP fun j => j.lastHeartbeatAt.any (cutoff < ·)
    if 0 < recent then "running" else "idle"
  else "unknown"

/-- `check`. -/
def check (db : Db) (threshold : Nat) (now : Time) (p : Probes) : HealthReport :=
  let dbStatus := checkDb p.database
  let redisStatus := checkRedis p.redis
  let workerStatus := checkWorker db threshold now p.jobs
  { allOk := [dbStatus, redisStatus, workerStatus].all
      (["connected", "running", "idle", "available"].contains ·)
    database := dbStatus
    worker := workerStatus
    cache := redisStatus }

end HealthChecker

/-- `HealthComponentStatus`. -/
structure HealthComponentStatus where
  database : String
  worker : String
  cache : String
  deriving DecidableEq, Repr

/-- `HealthResponse`. -/
structure HealthResponse where
  status : String
  timestamp : String
  components : HealthComponentStatus
  deriving DecidableEq, Repr

/-- `health_check`; `timestamp` is what the clock shows when the report is there. -/
def healthCheck (report : HealthReport) (timestamp : String) : HealthResponse where
  status := if report.allOk then "healthy" else "degraded"
  timestamp := timestamp
  components :=
    { database := report.database
      worker := report.worker
      cache := report.cache }

/-! ## What a worker is seen by -/

namespace HealthChecker

variable {db : Db} {threshold : Nat} {now : Time}

/-- A worker is seen by a job heard of after the cutoff. -/
theorem checkWorker_running_iff : checkWorker db threshold now true = "running" ↔
    ∃ j ∈ db.jobs.rows, ∃ t ∈ j.lastHeartbeatAt, now - threshold < t := by
  have hcount : 0 < db.jobs.rows.countP (fun j => j.lastHeartbeatAt.any (now - threshold < ·)) ↔
      ∃ j ∈ db.jobs.rows, ∃ t ∈ j.lastHeartbeatAt, now - threshold < t := by
    simp [List.countP_pos_iff, Option.any_eq_true]
  rw [← hcount]
  simp only [checkWorker, if_true]
  split
  · exact iff_of_true rfl ‹_›
  · exact iff_of_false (by decide) ‹_›

/-- Otherwise none is, which is no failure. -/
theorem checkWorker_idle (h : ∀ j ∈ db.jobs.rows, ∀ t ∈ j.lastHeartbeatAt, t ≤ now - threshold) :
    checkWorker db threshold now true = "idle" := by
  have hnot : ¬ checkWorker db threshold now true = "running" := by
    rw [checkWorker_running_iff]
    rintro ⟨j, hj, t, ht, hlt⟩
    exact absurd (h j hj t ht) (not_le.mpr hlt)
  simp only [checkWorker, if_true] at hnot ⊢
  split at hnot
  · exact absurd rfl hnot
  · rw [if_neg ‹_›]

end HealthChecker

end PromptQueue
