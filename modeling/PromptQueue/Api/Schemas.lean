import PromptQueue.Base.Separator
import PromptQueue.Services.PromptProcessor

/-!
# The body of a submission

`PromptSubmitRequest` of `src/api/schemas.py`, with what its validators enforce as
fields, and the prompt id `process_prompt` submits it under. A client that sends no id
gets one that is derived from who asks and what is asked.
-/

namespace PromptQueue

open Base

/-- `hexdigest()`: the 64 digits of a digest, most significant first. -/
def hexdigest (digest : Digest) : List Char :=
  (List.range 64).map fun i => Nat.digitChar (digest.toNat / 16 ^ (63 - i) % 16)

theorem hexdigest_length (digest : Digest) : (hexdigest digest).length = 64 := by
  rw [hexdigest, List.length_map, List.length_range]

/-- `PromptSubmitRequest`. -/
structure PromptSubmitRequest where
  userId : String
  promptId : Option String := none
  text : String
  priority : String := "normal"
  /-- `min_length=1`. -/
  userId_ne : userId ≠ ""
  /-- `min_length=1`. -/
  text_ne : text ≠ ""
  /-- `validate_priority`. -/
  priority_known : priority = "high" ∨ priority = "normal" ∨ priority = "low"

namespace PromptSubmitRequest

variable {S : Type} [LinearOrder S] (env : Env S) (body : PromptSubmitRequest)

/-- `if self.prompt_id`: an empty string counts as none. -/
def givesId : Bool := body.promptId.any (· ≠ "")

/-- The seed of a derived id: `f"{self.user_id}:{normalized_text}"`. -/
def seed : List Char := body.userId.toList ++ ':' :: env.normalize body.text

/-- The digits of a digest formatted 8-4-4-4-12, prefixed with `auto-`. -/
def autoId (h : List Char) : List Char :=
  "auto-".toList ++ (slice h 0 8 ++ '-' :: (slice h 8 12 ++ '-' :: (slice h 12 16 ++
    '-' :: (slice h 16 20 ++ '-' :: slice h 20 32))))

/-- `resolved_prompt_id`. -/
def resolvedPromptId : String :=
  if body.givesId then body.promptId.getD ""
  else String.ofList (autoId (hexdigest (env.sha256 (body.seed env))))

/-- What `process_prompt` calls `submit_and_wait` with. -/
def submitArgs : SubmitArgs where
  userId := body.userId
  promptId := body.resolvedPromptId env
  text := body.text
  priority := body.priority

end PromptSubmitRequest

/-! ## The derived id -/

/-- **A derived id is as good as its 32 digits.** -/
theorem autoId_inj {h h' : List Char} (hl : 32 ≤ h.length) (hl' : 32 ≤ h'.length) :
    PromptSubmitRequest.autoId h = PromptSubmitRequest.autoId h' ↔ h.take 32 = h'.take 32 := by
  have len : ∀ {a b : Nat}, b ≤ 32 → (slice h a b).length = (slice h' a b).length := by
    intro a b hb
    rw [slice_length (hb.trans hl), slice_length (hb.trans hl')]
  -- the digits of a list, part by part
  have parts : ∀ l : List Char, slice l 0 8 ++ (slice l 8 12 ++ (slice l 12 16 ++
      (slice l 16 20 ++ slice l 20 32))) = l.take 32 := by
    intro l
    have h₁ : slice l 0 8 = l.take 8 := take_append_slice (l := l) (Nat.zero_le 8)
    rw [h₁, ← List.append_assoc, take_append_slice (by decide), ← List.append_assoc,
      take_append_slice (by decide), ← List.append_assoc, take_append_slice (by decide),
      take_append_slice (by decide)]
  constructor
  · intro heq
    unfold PromptSubmitRequest.autoId at heq
    obtain ⟨h₁, heq⟩ := List.append_inj (List.append_cancel_left heq) (len (by decide))
    obtain ⟨h₂, heq⟩ := List.append_inj (List.cons.inj heq).2 (len (by decide))
    obtain ⟨h₃, heq⟩ := List.append_inj (List.cons.inj heq).2 (len (by decide))
    obtain ⟨h₄, heq⟩ := List.append_inj (List.cons.inj heq).2 (len (by decide))
    rw [← parts h, ← parts h', h₁, h₂, h₃, h₄, (List.cons.inj heq).2]
  · intro heq
    have same : ∀ {a b : Nat}, b ≤ 32 → slice h a b = slice h' a b := by
      intro a b hb
      rw [← slice_take hb, heq, slice_take hb]
    unfold PromptSubmitRequest.autoId
    rw [same (a := 0) (b := 8) (by decide), same (a := 8) (b := 12) (by decide),
      same (a := 12) (b := 16) (by decide), same (a := 16) (b := 20) (by decide),
      same (a := 20) (b := 32) (by decide)]

end PromptQueue
