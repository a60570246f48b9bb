import PromptQueue.Db.SemanticCache

/-!
# Settings, the text hash, and the cache lookup

`Env` gathers what a deployment fixes: the values of `src/config.py` the code
below reads, and the functions the code calls and does not define — SHA-256,
`str.lower`, the embedding provider and the cosine similarity of `pgvector`. The
similarity takes values in any linear order; nothing depends on more than `<`.

`hash_text` itself is the source's: lower-case, split on whitespace, join with
single blanks, hash. `lookup` is the whole method; a pipeline goes through it one
repository call at a time.
-/

namespace PromptQueue

/-- A deployment; `S` are its similarity scores. -/
structure Env (S : Type) [LinearOrder S] where
  /-- `lease_seconds`. -/
  leaseSeconds : Nat := 15
  /-- `max_job_attempts`. -/
  maxJobAttempts : Nat := 5
  /-- `max_queue_depth`. -/
  maxQueueDepth : Nat := 1000
  /-- `rate_limit_refill_per_sec`. -/
  refillPerSec : Rat := 5
  /-- `similarity_threshold`. -/
  threshold : S
  /-- `1 - (embedding <=> :emb)`. -/
  similarity : Vector → Vector → S
  /-- `IEmbeddingProvider.embed`. -/
  embed : String → Vector
  /-- `str.lower`, on code points. -/
  lower : List Char → List Char
  /-- `hashlib.sha256(s.encode()).digest()`. -/
  sha256 : List Char → Digest

/-- `str.isspace`, the code points `str.split()` splits on. -/
def isSpace (c : Char) : Bool :=
  c.toNat ∈ [9, 10, 11, 12, 13, 28, 29, 30, 31, 32, 133, 160, 5760, 8192, 8193, 8194, 8195, 8196,
    8197, 8198, 8199, 8200, 8201, 8202, 8232, 8233, 8239, 8287, 12288]

/-- `str.split()`: the maximal runs of other characters. -/
def splitWords (s : List Char) : List (List Char) :=
  (s.splitOnP isSpace).filter fun w => !w.isEmpty

namespace Env

variable {S : Type} [LinearOrder S] (env : Env S)

/-- `" ".join(text.lower().split())`. -/
def normalize (text : String) : List Char :=
  [' '].intercalate (splitWords (env.lower text.toList))

/-- `SemanticCacheService.hash_text`. -/
def hashText (text : String) : Digest := env.sha256 (env.normalize text)

/-- `wait_time_seconds` of the limiter. -/
def waitTimeSeconds : Rat := 1 / env.refillPerSec

/-- What `SemanticCacheService.store` hands to `upsert`. -/
def entryFor (promptId text : String) (embedding : Vector) (response : String) : NewEntry where
  promptText := text
  textHash := env.hashText text
  embedding := embedding
  response := response
  sourcePromptId := promptId

end Env

/-! ## `lookup` -/

/-- `CacheHit.match_type`. -/
inductive MatchType where
  | exact | semantic
  deriving DecidableEq, Repr

/-- `CacheHit`. -/
structure CacheHit (S : Type) where
  entry : SemanticCache
  similarity : S
  matchType : MatchType
  deriving DecidableEq, Repr

/--
`SemanticCacheService.lookup`: the hit, if there is one, and the embedding. `top1` is
the row the vector index puts first, `now` what `increment_hit_count` reads off its clock.
-/
def SemanticCacheService.lookup {S : Type} [LinearOrder S] [One S] (env : Env S) (db : Db)
    (text : String) (top1 : Option Nat) (now : Time) : Db × Option (CacheHit S) × Vector :=
  match SemanticCacheRepository.findExact db (env.hashText text) with
  | some exact => (SemanticCacheRepository.incrementHitCount db exact.id now,
      some ⟨exact, 1, .exact⟩, exact.embedding)
  | none =>
      let embedding := env.embed text
      match SemanticCacheRepository.findNearest env.similarity db embedding env.threshold top1 with
      | some (entry, similarity) => (SemanticCacheRepository.incrementHitCount db entry.id now,
          some ⟨entry, similarity, .semantic⟩, embedding)
      | none => (db, none, embedding)

end PromptQueue
