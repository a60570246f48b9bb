import PromptQueue.Base.Words
import PromptQueue.Proof.Lookup
import PromptQueue.Proof.PromptId
import PromptQueue.Proof.Provenance
import PromptQueue.Services.Embeddings
import Mathlib

/-!
# Which texts are the same text

The cache key, the seed of the mock embedding and the derived prompt id are made from the
text lower-cased, cut at whitespace and joined with single blanks. Joining loses nothing
but the whitespace, so two texts come out alike exactly when they have the same words in
lower case; the digest adds no confusion of its own as long as it does not collide on the
two texts at hand, and every consumer of the key tells them apart exactly where it does.

Of `str.lower` little is used: that it is idempotent and goes by the pieces between
whitespace. It may well look at more than one character of a piece, as it does at a
final sigma.
-/

namespace PromptQueue

open Base

/-- What is asked of `str.lower`: whitespace stays, none appears, and once is enough. -/
structure Lowers (lower : List Char → List Char) : Prop extends Piecewise isSpace lower where
  idem : ∀ s, lower (lower s) = lower s

variable {S : Type} [LinearOrder S] (env : Env S)

/-- The words of a text in lower case, `text.lower().split()`. -/
def Env.lowerWords (text : String) : List (List Char) := splitWords (env.lower text.toList)

/-- SHA-256 does not collide on the normalised forms of two texts. -/
def CollisionFree (t t' : String) : Prop :=
  env.sha256 (env.normalize t) = env.sha256 (env.normalize t') → env.normalize t = env.normalize t'

/-- What the hash of a text does not depend on. -/
structure HashFolds (t : String) : Prop where
  /-- The case of its letters. -/
  cases : ∀ t' : String, env.lower t.toList = env.lower t'.toList → env.hashText t = env.hashText t'
  lowered : env.hashText (String.ofList (env.lower t.toList)) = env.hashText t
  /-- Whitespace before and after it. -/
  padded : ∀ before after, Blank isSpace before → Blank isSpace after →
    env.hashText (String.ofList (before ++ (t.toList ++ after))) = env.hashText t
  /-- How much whitespace there is between its words, and which. -/
  spaced : ∀ left gap right, t.toList = left ++ (gap ++ right) → Blank isSpace gap → gap ≠ [] →
    env.hashText (String.ofList (left ++ ' ' :: right)) = env.hashText t
  /-- In short, anything but its words. -/
  words : ∀ t' : String, splitWords t.toList = splitWords t'.toList →
    env.hashText t = env.hashText t'
  /-- Normalising it. -/
  normalized : env.hashText (String.ofList (env.normalize t)) = env.hashText t

variable [One S]

/-- What becomes of two texts. -/
structure Identifies (t t' : String) : Prop where
  /-- They have one hash exactly when they have the same words. -/
  hash : env.hashText t = env.hashText t' ↔ env.lowerWords t = env.lowerWords t'
  /-- In a cache, an entry stored for the one is an exact hit for the other just then. -/
  exact : ∀ w, (World.machine env).Reachable w → ∀ x ∈ w.db.cache.rows, x.promptText = t' →
    ∀ top1 now, (SemanticCacheService.lookup env w.db t top1 now).2.1 = some ⟨x, 1, .exact⟩ ↔
      env.lowerWords t = env.lowerWords t'
  /-- A submission of the one is in conflict with a request for the other just otherwise. -/
  conflict : ∀ w, (World.machine env).Reachable w → ∀ q ∈ w.db.requests.rows, q.text = t' →
    (IdempotencyService.check q.promptId (env.hashText t) (some q)
        = .error (idempotencyConflictError q.promptId) ↔
      env.lowerWords t ≠ env.lowerWords t')
  /-- With one hash they have one embedding. -/
  embed : env.hashText t = env.hashText t' → ∀ numpy,
    MockEmbeddingProvider.embed numpy env t = MockEmbeddingProvider.embed numpy env t'
  /-- With one hash they have one derived prompt id, for one user. -/
  derived : env.hashText t = env.hashText t' → ∀ body body' : PromptSubmitRequest,
    body.text = t → body'.text = t' → body.userId = body'.userId →
    body.givesId = false → body'.givesId = false →
    body.resolvedPromptId env = body'.resolvedPromptId env

end PromptQueue

namespace PromptQueue.Proof

open PromptQueue Base World

variable {S : Type} [LinearOrder S] {env : Env S} {t t' : String}

/-! ## The normal form -/

theorem isSpace_blank : isSpace ' ' = true := by decide

/-- The source's `split()` gives the words between whitespace. -/
theorem splitWords_eq (s : List Char) : splitWords s = words isSpace s := rfl

/-- **Two texts have one normal form exactly when they have the same words.** -/
theorem normalize_eq_iff : env.normalize t = env.normalize t' ↔
    env.lowerWords t = env.lowerWords t' :=
  join_inj isSpace_blank (fun _ => isWord_of_mem) fun _ => isWord_of_mem

/-- So it is for the hash, up to a collision. -/
theorem hashText_eq_iff (hno : CollisionFree env t t') :
    env.hashText t = env.hashText t' ↔ env.lowerWords t = env.lowerWords t' := by
  rw [← normalize_eq_iff]
  exact ⟨hno, fun h => congrArg env.sha256 h⟩

/-- Texts with the same words have one hash. -/
theorem hashText_congr (h : env.lowerWords t = env.lowerWords t') :
    env.hashText t = env.hashText t' := congrArg env.sha256 (normalize_eq_iff.mpr h)

/-- **What does not change the words does not change the hash.** -/
theorem hash_folds (hl : Lowers env.lower) (t : String) : HashFolds env t := by
  have same : ∀ {s : List Char} {t' : String}, splitWords s = splitWords t'.toList →
      env.hashText (String.ofList s) = env.hashText t' := by
    intro s t' h
    refine hashText_congr ?_
    rw [Env.lowerWords, String.toList_ofList]
    exact hl.words_congr h
  refine ⟨fun t' h => ?_, ?_, fun before after hb ha => ?_, fun left gap right ht hg hne => ?_,
    fun t' h => ?_, ?_⟩
  · exact hashText_congr (congrArg splitWords h)
  · refine hashText_congr ?_
    rw [Env.lowerWords, String.toList_ofList, hl.idem]
    rfl
  · refine same ?_
    rw [splitWords_eq, words_blank_append hb, words_append_blank ha]
    rfl
  · refine same ?_
    rw [splitWords_eq, splitWords_eq, ht, words_cut isSpace_blank, words_gap hg hne]
  · refine hashText_congr ?_
    exact hl.words_congr h
  · refine hashText_congr ?_
    rw [Env.lowerWords, String.toList_ofList]
    exact hl.words_join_words hl.idem isSpace_blank t.toList

/-! ## Where the hash is used -/

section
variable [One S] {w : World} {H : World → Event → Prop}

/-- An exact hit is the entry with the hash of the text. -/
theorem lookup_exact_iff {db : Db} {x : SemanticCache} (hx : x ∈ db.cache.rows) (top1 : Option Nat)
    (now : Time) : (SemanticCacheService.lookup env db t top1 now).2.1 = some ⟨x, 1, .exact⟩ ↔
      env.hashText t = x.textHash := by
  unfold SemanticCacheService.lookup
  constructor
  · intro hhit
    split at hhit
    · rename_i y hf
      cases hhit
      exact (findExact_some hf).2.symm
    · dsimp only at hhit
      split at hhit <;> cases hhit
  · intro hh
    rw [hh, findExact_of_mem hx]

/-- **Every consumer of the hash tells two texts apart exactly when their words differ.** -/
theorem texts_identified (hno : CollisionFree env t t') : Identifies env t t' where
  hash := hashText_eq_iff hno
  exact := by
    intro w hw x hx ht top1 now
    rw [lookup_exact_iff hx, ((carried_reachable hw).cached x hx).hash, ht, hashText_eq_iff hno]
  conflict := by
    intro w hw q hq ht
    have hhash : q.textHash = env.hashText t' := by rw [(tied_reachable hw).hashed hq, ht]
    rw [check_error_iff, Ne, ← hashText_eq_iff hno]
    constructor
    · rintro ⟨-, row, hrow, hne⟩ heq
      cases hrow
      exact hne (hhash.trans heq.symm)
    · intro hne
      exact ⟨rfl, q, rfl, fun heq => hne (heq.symm.trans hhash)⟩
  embed := by
    intro h numpy
    have hdigest : env.sha256 (env.normalize t) = env.sha256 (env.normalize t') := h
    rw [MockEmbeddingProvider.embed, MockEmbeddingProvider.embed, hdigest]
  derived := by
    intro h body body' ht ht' hu hd hd'
    rw [resolvedPromptId_derived hd, resolvedPromptId_derived hd', PromptSubmitRequest.seed,
      PromptSubmitRequest.seed, ht, ht', hu, hno h]

/--
**Normalisation identifies exactly the right texts.** The hash of a text sees its words in
lower case and nothing else of it, and two texts on which SHA-256 does not collide are one
text, to the cache, to the idempotency check, to the mock embedder and to the derived
prompt ids, exactly when these words are the same.
-/
theorem normalization_identifies (env : Env S) (hl : Lowers env.lower) :
    (∀ t, HashFolds env t) ∧ ∀ t t', CollisionFree env t t' → Identifies env t t' :=
  ⟨hash_folds hl, fun _ _ hno => texts_identified hno⟩

end

/-! ## Lower-casing ASCII -/

/-- No letter is whitespace. -/
theorem not_isAlpha_of_isSpace {c : Char} (h : isSpace c = true) : c.isAlpha = false := by
  have hcode : c.toNat ≤ 32 ∨ 133 ≤ c.toNat := by
    have hmem := of_decide_eq_true h
    simp only [List.mem_cons, List.not_mem_nil, or_false] at hmem
    omega
  have hval : c.toNat = c.val.toNat := rfl
  rw [hval] at hcode
  simp [Char.isAlpha, Char.isUpper, Char.isLower, UInt32.le_iff_toNat_le]
  omega

/-- What is no letter has no other case. -/
theorem toLower_of_not_isAlpha {c : Char} (h : c.isAlpha = false) : c.toLower = c := by
  refine Char.toLower_eq_of_not_isUpper fun hu => ?_
  rw [Char.isAlpha, hu] at h
  cases h

/-- Lower-casing letter by letter, as far as the letters of ASCII go. -/
theorem lowers_ascii : Lowers (List.map Char.toLower) where
  toPiecewise := by
    refine Piecewise.map (fun c hc => toLower_of_not_isAlpha (not_isAlpha_of_isSpace hc))
      fun c hc => ?_
    cases hs : isSpace c.toLower with
    | false => rfl
    | true =>
        have hc' : c.isAlpha = false := by
          rw [← Char.isAlpha_toLower_eq_isAlpha, not_isAlpha_of_isSpace hs]
        rw [toLower_of_not_isAlpha hc', hc] at hs
        cases hs
  idem := by
    intro s
    rw [List.map_map]
    exact List.map_congr_left fun c _ => Char.toLower_toLower_eq_toLower c

/-- Two texts, each in two spellings, that stay apart. -/
theorem normalization_identifies_a_b : HashFolds deployment "a" ∧ HashFolds deployment "b" ∧
    Identifies deployment " A " "b" :=
  ⟨(normalization_identifies deployment lowers_ascii).1 "a",
    (normalization_identifies deployment lowers_ascii).1 "b",
    (normalization_identifies deployment lowers_ascii).2 " A " "b"
      fun h => absurd h (by decide +kernel)⟩

/-- The texts of `test_normalisation_insensitive_to_case_and_whitespace`. -/
example (numpy : Numpy) : MockEmbeddingProvider.embed numpy deployment "Hello   World"
    = MockEmbeddingProvider.embed numpy deployment "hello world" := by
  have hnorm : deployment.normalize "Hello   World" = deployment.normalize "hello world" := by
    decide +kernel
  rw [MockEmbeddingProvider.embed, MockEmbeddingProvider.embed, hnorm]

end PromptQueue.Proof
