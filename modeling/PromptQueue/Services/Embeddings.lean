import PromptQueue.Services.Cache

/-!
# The mock embedder

`MockEmbeddingProvider` of `src/services/embeddings.py`: the digest of the normalised text
seeds a generator, and the vector it draws is scaled to a unit vector. The generator and
the scaling are NumPy's.
-/

namespace PromptQueue

/-- What the provider has of NumPy. -/
structure Numpy where
  /-- `default_rng(seed).standard_normal(dim)`. -/
  standardNormal : Nat → Nat → Vector
  /-- `v / np.linalg.norm(v)`. -/
  unit : Vector → Vector

namespace MockEmbeddingProvider

variable {S : Type} [LinearOrder S] (numpy : Numpy) (env : Env S)

/-- `_DIM`. -/
def dim : Nat := 384

/-- `int.from_bytes(digest[:8], "big")`. -/
def seed (digest : Digest) : Nat := (digest.extractLsb' 192 64).toNat

/-- `embed`. -/
def embed (text : String) : Vector :=
  numpy.unit (numpy.standardNormal (seed (env.sha256 (env.normalize text))) dim)

end MockEmbeddingProvider

end PromptQueue
