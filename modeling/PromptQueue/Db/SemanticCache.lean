import PromptQueue.Db.ProcessingJob

/-!
# `SemanticCacheRepository`

`src/db/repositories/semantic_cache.py`. The cosine similarity of two vectors is
computed by the `pgvector` extension, so it is a parameter, and so is the row the
approximate index puts first; what the method does with that row is the
repository's own code and is here.
-/

namespace PromptQueue

open Base

/-- The columns `store` fills in. -/
structure NewEntry where
  promptText : String
  textHash : Digest
  embedding : Vector
  response : String
  sourcePromptId : String
  deriving DecidableEq, Repr

/-- The row `upsert` inserts when the hash is free. -/
def NewEntry.row (new : NewEntry) (now : Time) (id : Nat) : SemanticCache where
  id := id
  promptText := new.promptText
  textHash := new.textHash
  embedding := new.embedding
  response := new.response
  sourcePromptId := new.sourcePromptId
  hitCount := 0
  createdAt := now
  lastHitAt := none

theorem NewEntry.row_pk (new : NewEntry) (now : Time) (id : Nat) :
    Keyed.pk (new.row now id) = id := rfl

/-- `SET` of `increment_hit_count`. -/
def SemanticCache.hit (e : SemanticCache) (now : Time) : SemanticCache :=
  { e with hitCount := e.hitCount + 1, lastHitAt := some now }

namespace SemanticCacheRepository

/-- `find_exact`. -/
def findExact (db : Db) (textHash : Digest) : Option SemanticCache :=
  db.cache.rows.find? fun e => Keyed.uk e == textHash

/-- The query of `find_nearest`: the row that `ORDER BY … LIMIT 1` puts first, if any. -/
def selectNearest (db : Db) (top1 : Option Nat) : Option SemanticCache :=
  db.cache.rows.find? fun e => some e.id = top1

/-- What `find_nearest` does with that row: `None` unless it is above the threshold. -/
def aboveThreshold {S : Type} [LinearOrder S] (similarity : Vector → Vector → S) (threshold : S)
    (embedding : Vector) (row : SemanticCache) : Option (SemanticCache × S) :=
  if similarity row.embedding embedding ≤ threshold then none
  else some (row, similarity row.embedding embedding)

/-- `find_nearest`. -/
def findNearest {S : Type} [LinearOrder S] (similarity : Vector → Vector → S) (db : Db)
    (embedding : Vector) (threshold : S) (top1 : Option Nat) : Option (SemanticCache × S) :=
  (selectNearest db top1).bind (aboveThreshold similarity threshold embedding)

/-- `upsert`: `ON CONFLICT (text_hash) DO NOTHING`. -/
def upsert (db : Db) (new : NewEntry) (now : Time) : Db :=
  match db.cache.insert (new.row now) (new.row_pk now) with
  | none => db
  | some cache => { db with cache := cache }

/-- `increment_hit_count`. -/
def incrementHitCount (db : Db) (entryId : Nat) (now : Time) : Db :=
  db.updateCache (fun e => e.id = entryId) (·.hit now) (fun _ => ⟨rfl, rfl⟩)

end SemanticCacheRepository

/-- An exact hit is a row of the cache under that hash. -/
theorem findExact_some {db : Db} {textHash : Digest} {x : SemanticCache}
    (h : SemanticCacheRepository.findExact db textHash = some x) :
    x ∈ db.cache.rows ∧ x.textHash = textHash := by
  refine ⟨List.mem_of_find?_eq_some h, ?_⟩
  simpa [Keyed.uk] using List.find?_some h

/-- A semantic hit is a row of the cache above the threshold. -/
theorem findNearest_some {S : Type} [LinearOrder S] {similarity : Vector → Vector → S} {db : Db}
    {embedding : Vector} {threshold : S} {top1 : Option Nat} {x : SemanticCache} {sim : S}
    (h : SemanticCacheRepository.findNearest similarity db embedding threshold top1
      = some (x, sim)) : x ∈ db.cache.rows ∧ threshold < similarity x.embedding embedding := by
  obtain ⟨y, hy, ha⟩ := Option.bind_eq_some_iff.mp h
  unfold SemanticCacheRepository.aboveThreshold at ha
  split at ha
  · cases ha
  · rename_i hn
    cases ha
    exact ⟨List.mem_of_find?_eq_some hy, not_le.mp hn⟩

end PromptQueue
