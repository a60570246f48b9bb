import PromptQueue.Api.Schemas
import PromptQueue.Proof.Replay

/-!
# Derived prompt ids

Two submissions without a prompt id share one when their seeds agree. A seed joins the
user id and the normalised text with a colon, and either may hold a colon of its own, so
the seeds of two users can be one string. `Confused` says when, and outside of it derived
ids do what they are for.
-/

namespace PromptQueue

open Base

variable {S : Type} [LinearOrder S] (env : Env S)

/-- The 32 digits a derived id shows do not collide on two seeds. -/
def NoCollision (s s' : List Char) : Prop :=
  (hexdigest (env.sha256 s)).take 32 = (hexdigest (env.sha256 s')).take 32 → s = s'

/-- The seeds of two submissions agree, cut at different colons. -/
def Confused (body body' : PromptSubmitRequest) : Prop :=
  Shifted ':' body.userId.toList (env.normalize body.text) body'.userId.toList
      (env.normalize body'.text) ∨
    Shifted ':' body'.userId.toList (env.normalize body'.text) body.userId.toList
      (env.normalize body.text)

/-- What derived ids are for, on two submissions. -/
structure Separates (body body' : PromptSubmitRequest) : Prop where
  /-- One id for one user and one text, up to case and blanks. -/
  ids : body.resolvedPromptId env = body'.resolvedPromptId env ↔
    body.userId = body'.userId ∧ env.normalize body.text = env.normalize body'.text
  /-- Two users never share one. -/
  users : body.userId ≠ body'.userId →
    body.resolvedPromptId env ≠ body'.resolvedPromptId env
  /-- The same id comes with the same hash. -/
  hashes : body.resolvedPromptId env = body'.resolvedPromptId env →
    env.hashText body.text = env.hashText body'.text
  /-- So the row of the one is no conflict to the other. -/
  agree : ∀ row : PromptRequest, row.promptId = body.resolvedPromptId env →
    row.textHash = env.hashText body.text → row.promptId = body'.resolvedPromptId env →
    ∀ exc, IdempotencyService.check (body'.submitArgs env).promptId
      (env.hashText (body'.submitArgs env).text) (some row) ≠ .error exc

end PromptQueue

namespace PromptQueue.Proof

open PromptQueue Base World

variable {S : Type} [LinearOrder S] {env : Env S} {body body' : PromptSubmitRequest}

/-- Without an id of the client's, the id is derived. -/
theorem resolvedPromptId_derived (hd : body.givesId = false) : body.resolvedPromptId env
    = String.ofList (PromptSubmitRequest.autoId (hexdigest (env.sha256 (body.seed env)))) := by
  rw [PromptSubmitRequest.resolvedPromptId, hd]
  exact if_neg Bool.false_ne_true

/-- **Two derived ids are one exactly when the seeds are.** -/
theorem derived_eq_iff (hd : body.givesId = false) (hd' : body'.givesId = false)
    (hno : NoCollision env (body.seed env) (body'.seed env)) :
    body.resolvedPromptId env = body'.resolvedPromptId env ↔ body.seed env = body'.seed env := by
  rw [resolvedPromptId_derived hd, resolvedPromptId_derived hd', String.ofList_inj,
    autoId_inj (by rw [hexdigest_length]; decide) (by rw [hexdigest_length]; decide)]
  exact ⟨hno, fun h => by rw [h]⟩

/-- Users without a colon in their id are never confused. -/
theorem not_confused_of_plain (h : ':' ∉ body.userId.toList) (h' : ':' ∉ body'.userId.toList) :
    ¬ Confused env body body' := by
  rintro (⟨between, hu, -⟩ | ⟨between, hu, -⟩)
  · exact h (hu ▸ List.mem_append_right _ List.mem_cons_self)
  · exact h' (hu ▸ List.mem_append_right _ List.mem_cons_self)

/--
**When derived ids separate requests.** As long as the digits shown do not collide, they
do so for every two submissions but those whose seeds can be cut at two colons.
-/
theorem derived_ids_separate_iff (hd : body.givesId = false) (hd' : body'.givesId = false)
    (hno : NoCollision env (body.seed env) (body'.seed env)) :
    Separates env body body' ↔ ¬ Confused env body body' := by
  have hids : body.resolvedPromptId env = body'.resolvedPromptId env ↔
      (body.userId.toList = body'.userId.toList ∧
        env.normalize body.text = env.normalize body'.text) ∨ Confused env body body' :=
    (derived_eq_iff hd hd' hno).trans join_eq_iff
  rw [String.toList_inj] at hids
  constructor
  · -- a confused pair has one id, and two users
    intro hsep hc
    have husers : body.userId ≠ body'.userId := by
      rcases hc with hs | hs
      · exact fun h => hs.ne (by rw [h])
      · exact fun h => hs.ne (by rw [h])
    exact husers (hsep.ids.mp (hids.mpr (.inr hc))).1
  · intro hc
    have hids : body.resolvedPromptId env = body'.resolvedPromptId env ↔
        body.userId = body'.userId ∧ env.normalize body.text = env.normalize body'.text :=
      hids.trans (or_iff_left hc)
    have hhash : body.resolvedPromptId env = body'.resolvedPromptId env →
        env.hashText body.text = env.hashText body'.text :=
      fun h => congrArg env.sha256 (hids.mp h).2
    refine ⟨hids, fun hne h => hne (hids.mp h).1, hhash, fun row hrow hhrow hrow' exc herr => ?_⟩
    obtain ⟨-, x, hx, hne⟩ := check_error_iff.mp herr
    cases hx
    exact hne (hhrow.trans (hhash (hrow.symm.trans hrow')))

/-! ## Two colons -/

/-- SHA-256 on the texts and the seeds of the submissions below. -/
def colonEnv : Env Rat := { deployment with
  sha256 := fun text =>
    if text = "b:c".toList then 0x333edf7c3ca371622cc3029bd182261a8aa727ffe3dca1adac71efc41bf1545e
    else if text = "c".toList then
      0x2e7d2c03a9507ae265ecf5b5356885a53393a2029d241394997265a1a25aefc6
    else if text = "a:b:c".toList then
      0xb0ee04f880c4ff4261479e2e7822b7410aee4c7159f4185ad5b0d88a312b495e
    else if text = "c:b".toList then
      0x92812720c8dc1bc64e82c3339d676f3161aefdd31c1413d16b242ad446c96784
    else 0 }

/-- A text with a colon in it. -/
def colonText : PromptSubmitRequest where
  userId := "a"
  text := "b:c"
  userId_ne := by decide
  text_ne := by decide
  priority_known := .inr (.inl rfl)

/-- A user with a colon in the name. -/
def colonUser : PromptSubmitRequest where
  userId := "a:b"
  text := "c"
  userId_ne := by decide
  text_ne := by decide
  priority_known := .inr (.inl rfl)

/-- A user without one. -/
def plainUser : PromptSubmitRequest where
  userId := "c"
  text := "b"
  userId_ne := by decide
  text_ne := by decide
  priority_known := .inr (.inl rfl)

/-- A text with a colon is kept apart from a user without one, and not from a user with one. -/
theorem derived_ids_separate_iff_plain :
    Separates colonEnv colonText plainUser ∧ ¬ Separates colonEnv colonText colonUser := by
  have hsame : colonText.seed colonEnv = colonUser.seed colonEnv := by decide +kernel
  have hconfused : Confused colonEnv colonText colonUser :=
    .inr ⟨['b'], by decide, by decide +kernel⟩
  refine ⟨(derived_ids_separate_iff rfl rfl ?_).mpr
    (not_confused_of_plain (by decide) (by decide)),
    (derived_ids_separate_iff rfl rfl fun _ => hsame).not.mpr (not_not.mpr hconfused)⟩
  exact fun h => absurd h (by decide +kernel)

/--
**Another user's request is in the way.** The user `a:b` asks for `c` and is told that
the id of the request, which nobody chose, already exists with a different text: the
user `a` has asked for `b:c`.
-/
theorem another_users_conflict : NoCollision colonEnv (colonText.seed colonEnv)
      (colonUser.seed colonEnv) ∧
    ¬ Separates colonEnv colonText colonUser ∧
    ∃ w k, (machine colonEnv).Reachable w ∧ w.calls 1 = some k ∧
      k.args = colonUser.submitArgs colonEnv ∧
      k.stage = .conflict (idempotencyConflictError (colonText.resolvedPromptId colonEnv)) := by
  have hsame : colonText.seed colonEnv = colonUser.seed colonEnv := by decide +kernel
  have hno : NoCollision colonEnv (colonText.seed colonEnv) (colonUser.seed colonEnv) :=
    fun _ => hsame
  refine ⟨hno, fun hsep => ?_, ?_⟩
  · exact absurd (hsep.ids.mp ((derived_eq_iff rfl rfl hno).mpr hsame)).1 (by decide)
  · obtain ⟨w, -, hreach, hw⟩ := Machine.reachable_of_run (m := machine colonEnv)
      (E := [.submit 0 (colonText.submitArgs colonEnv), .call 0 0 true, .call 0 0 true,
        .call 0 0 true, .submit 1 (colonUser.submitArgs colonEnv), .call 1 0 true])
      (p := fun w => decide (w.calls 1 = some ⟨colonUser.submitArgs colonEnv,
        .conflict (idempotencyConflictError (colonText.resolvedPromptId colonEnv))⟩))
      (by decide +kernel)
    exact ⟨w, _, hreach, of_decide_eq_true hw, rfl, rfl⟩

end PromptQueue.Proof
