import PromptQueue.Exceptions

/-!
# The idempotency decision

`src/services/idempotency.py`. The service does one read and decides from it; the
read is a transaction of its own, so the decision is a function of the row read.
-/

namespace PromptQueue

/-- `IdempotencyDecision`, one constructor for each action; every action but `INSERT_NEW` carries
the row it was taken from. -/
inductive IdempotencyDecision where
  | insertNew
  | returnExisting (existing : PromptRequest)
  | awaitExisting (existing : PromptRequest)
  | reenqueue (existing : PromptRequest)
  deriving DecidableEq, Repr

/-- The `existing` field. -/
def IdempotencyDecision.existing : IdempotencyDecision → Option PromptRequest
  | .insertNew => none
  | .returnExisting r | .awaitExisting r | .reenqueue r => some r

/-- `IdempotencyService.check`, given the row `get_by_prompt_id` returned. -/
def IdempotencyService.check (promptId : String) (textHash : Digest)
    (existing : Option PromptRequest) : Except Exc IdempotencyDecision :=
  match existing with
  | none => .ok .insertNew
  | some row =>
      if row.textHash ≠ textHash then .error (idempotencyConflictError promptId)
      else match row.status with
        | .completed => .ok (.returnExisting row)
        | .received | .queued | .processing => .ok (.awaitExisting row)
        | .failed => .ok (.reenqueue row)

/-- **A decision that names a row was taken on that row, and the hashes agreed.** -/
theorem check_existing {promptId : String} {textHash : Digest} {found : Option PromptRequest}
    {d : IdempotencyDecision} {row : PromptRequest}
    (h : IdempotencyService.check promptId textHash found = .ok d)
    (he : d.existing = some row) : found = some row ∧ row.textHash = textHash := by
  cases found with
  | none => cases h; cases he
  | some r =>
      unfold IdempotencyService.check at h
      dsimp only at h
      split at h
      · cases h
      · rename_i hh
        have hh : r.textHash = textHash := not_not.mp hh
        split at h <;> cases h <;> cases he <;> exact ⟨rfl, hh⟩

/-- Only the absence of a row leads to an insert. -/
theorem check_insertNew {promptId : String} {textHash : Digest} {found : Option PromptRequest}
    (h : IdempotencyService.check promptId textHash found = .ok .insertNew) : found = none := by
  cases found with
  | none => rfl
  | some r =>
      unfold IdempotencyService.check at h
      dsimp only at h
      split at h
      · cases h
      · split at h <;> cases h

/-- Only a failed row leads to a re-enqueue. -/
theorem check_reenqueue {promptId : String} {textHash : Digest} {found : Option PromptRequest}
    {row : PromptRequest}
    (h : IdempotencyService.check promptId textHash found = .ok (.reenqueue row)) :
    row.status = .failed := by
  cases found with
  | none => cases h
  | some r =>
      unfold IdempotencyService.check at h
      dsimp only at h
      split at h
      · cases h
      · split at h <;> cases h
        assumption

/-- **The conflict is raised exactly on a row with another hash.** -/
theorem check_error_iff {promptId : String} {textHash : Digest} {found : Option PromptRequest}
    {exc : Exc} : IdempotencyService.check promptId textHash found = .error exc ↔
      exc = idempotencyConflictError promptId ∧
        ∃ row, found = some row ∧ row.textHash ≠ textHash := by
  cases found with
  | none => simp [IdempotencyService.check]
  | some r =>
      by_cases hh : r.textHash = textHash
      · cases hs : r.status <;> simp [IdempotencyService.check, hh, hs]
      · simp [IdempotencyService.check, hh, eq_comm (a := exc)]

end PromptQueue
