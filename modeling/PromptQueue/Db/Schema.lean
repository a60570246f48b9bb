import PromptQueue.Models

/-!
# The database

The three tables of `alembic/versions/001_initial_schema.py` with the one
constraint that ties them together: a job refers to an existing request. Like the
unique columns it is enforced by the engine, so it is a field.
-/

namespace PromptQueue

open Base

/-- The database. -/
structure Db where
  /-- `prompt_requests`. -/
  requests : Table PromptRequest
  /-- `processing_jobs`. -/
  jobs : Table ProcessingJob
  /-- `semantic_cache`. -/
  cache : Table SemanticCache
  /-- `ForeignKeyConstraint(["prompt_request_id"], ["prompt_requests.id"])`. -/
  fk : ∀ j ∈ jobs.rows, ∃ r ∈ requests.rows, r.id = j.promptRequestId

namespace Db

/-- The database right after the migrations ran. -/
def empty : Db where
  requests := Table.empty
  jobs := Table.empty
  cache := Table.empty
  fk := by intro j hj; cases hj

/-- `UPDATE processing_jobs`. -/
def updateJobs (db : Db) (p : ProcessingJob → Prop) [DecidablePred p]
    (f : ProcessingJob → ProcessingJob) (hf : KeepsKeys f) : Db :=
  { db with
    jobs := db.jobs.update p f hf
    fk := by
      intro j hj
      obtain ⟨j₀, h₀, rfl⟩ := List.mem_map.mp hj
      obtain ⟨r, hr, he⟩ := db.fk j₀ h₀
      exact ⟨r, hr, he.trans (Table.uk_updateRow hf j₀).symm⟩ }

/-- `UPDATE prompt_requests`. -/
def updateRequests (db : Db) (p : PromptRequest → Prop) [DecidablePred p]
    (f : PromptRequest → PromptRequest) (hf : KeepsKeys f) : Db :=
  { db with
    requests := db.requests.update p f hf
    fk := by
      intro j hj
      obtain ⟨r, hr, he⟩ := db.fk j hj
      exact ⟨_, List.mem_map_of_mem hr, (Table.pk_updateRow hf r).trans he⟩ }

/-- `UPDATE semantic_cache`. -/
def updateCache (db : Db) (p : SemanticCache → Prop) [DecidablePred p]
    (f : SemanticCache → SemanticCache) (hf : KeepsKeys f) : Db :=
  { db with cache := db.cache.update p f hf }

/-- An `UPDATE processing_jobs` that finds no row. -/
theorem updateJobs_of_none {db : Db} {p : ProcessingJob → Prop} [DecidablePred p]
    {f : ProcessingJob → ProcessingJob} {hf : KeepsKeys f} (h : ∀ j ∈ db.jobs.rows, ¬ p j) :
    db.updateJobs p f hf = db := by
  have hjobs : db.jobs.update p f hf = db.jobs := Table.update_of_none h
  obtain ⟨requests, jobs, cache, fk⟩ := db
  unfold updateJobs
  congr

/-- An `UPDATE prompt_requests` that finds no row. -/
theorem updateRequests_of_none {db : Db} {p : PromptRequest → Prop} [DecidablePred p]
    {f : PromptRequest → PromptRequest} {hf : KeepsKeys f} (h : ∀ r ∈ db.requests.rows, ¬ p r) :
    db.updateRequests p f hf = db := by
  have hrequests : db.requests.update p f hf = db.requests := Table.update_of_none h
  obtain ⟨requests, jobs, cache, fk⟩ := db
  unfold updateRequests
  congr

/-! ## Rows by their keys -/

/-- Two jobs of one request are the same job. -/
theorem job_unique {db : Db} {j j' : ProcessingJob} (hj : j ∈ db.jobs.rows)
    (hj' : j' ∈ db.jobs.rows) (h : j.promptRequestId = j'.promptRequestId) : j = j' :=
  Table.eq_of_uk hj hj' h

/-- Two jobs with one id are the same job. -/
theorem job_eq_of_id {db : Db} {j j' : ProcessingJob} (hj : j ∈ db.jobs.rows)
    (hj' : j' ∈ db.jobs.rows) (h : j.id = j'.id) : j = j' :=
  Table.eq_of_pk hj hj' h

/-- Two requests with one id are the same request. -/
theorem request_eq_of_id {db : Db} {r r' : PromptRequest} (hr : r ∈ db.requests.rows)
    (hr' : r' ∈ db.requests.rows) (h : r.id = r'.id) : r = r' :=
  Table.eq_of_pk hr hr' h

end Db

end PromptQueue
