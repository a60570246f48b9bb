import PromptQueue.Db.Transaction
import PromptQueue.Services.Cache
import PromptQueue.Services.Idempotency

/-!
# The API's side of a submission

`PromptProcessor.submit_and_wait` of `src/services/prompt_processor.py`, as a
machine whose states are its repository calls. Waiting for a notification only
decides when the next read happens and whether the deadline has passed by then,
so the polling loop is a read followed by a choice.
-/

namespace PromptQueue

/-- The arguments of `submit_and_wait`. -/
structure SubmitArgs where
  userId : String
  promptId : String
  text : String
  priority : String
  deriving DecidableEq, Repr

/-- Where a call stands. The last four are its ends. -/
inductive CallStage where
  /-- `IdempotencyService.check`. -/
  | check
  /-- `RETURN_EXISTING`: the re-read. -/
  | returnExisting (existing : PromptRequest)
  /-- `INSERT_NEW`: backpressure. -/
  | depth
  /-- `INSERT_NEW`: `insert_with_job`. -/
  | insert
  /-- `INSERT_NEW`, after an `IntegrityError`. -/
  | refetch
  /-- `REENQUEUE`, first write. -/
  | reenqueueStatus (existing : PromptRequest)
  /-- `REENQUEUE`, second write. -/
  | reenqueueReset (existing : PromptRequest)
  /-- The read before listening. -/
  | preCheck
  /-- The reads of the polling loop. -/
  | poll
  /-- The read after the deadline. -/
  | timeoutRead
  | returned (result : Option PromptRequest)
  | conflict (exc : Exc)
  | queueFull (exc : Exc)
  | integrityError
  deriving DecidableEq, Repr

/-- Whether the call is over. -/
def CallStage.ended : CallStage → Bool
  | .returned _ | .conflict _ | .queueFull _ | .integrityError => true
  | _ => false

/-- The stages that wait for a read of the call's prompt id. -/
def CallStage.reads : CallStage → Bool
  | .check | .returnExisting _ | .refetch | .preCheck | .poll | .timeoutRead => true
  | _ => false

/-- One call of `submit_and_wait`. -/
structure Call where
  args : SubmitArgs
  stage : CallStage
  deriving DecidableEq, Repr

namespace PromptProcessor

variable {S : Type} [LinearOrder S] (env : Env S)

/-- The columns of the row an `INSERT_NEW` writes. -/
def newRequest (args : SubmitArgs) : NewRequest where
  userId := args.userId
  promptId := args.promptId
  text := args.text
  textHash := env.hashText args.text
  priority := (Priority.fromStr args.priority).value
  maxAttempts := env.maxJobAttempts

/--
The repository call a submission waits for. Parameters that the driver or the columns do not
take have no transaction: the statement raises, and all that is left to the call is to end in
that error.
-/
def call (c : Call) (now : Time) : Option Tx :=
  match c.stage with
  | .check | .returnExisting _ | .refetch | .preCheck | .poll | .timeoutRead =>
      if isText c.args.promptId then some (.getByPromptId c.args.promptId) else none
  | .depth => some .queuedDepth
  | .insert =>
      if (newRequest env c.args).fits then some (.insertWithJob (newRequest env c.args) now)
      else none
  | .reenqueueStatus existing => some (.updateStatus existing.id .queued now)
  | .reenqueueReset existing => some (.resetJob existing.id now)
  | .returned _ | .conflict _ | .queueFull _ | .integrityError => none

/-- This call did not invoke the provider, so a completed row is reported as cached. -/
def reportCached (row : PromptRequest) : PromptRequest :=
  if row.status = .completed then { row with cached := some true } else row

/-- After a read: return a terminal row, else poll on or, past the deadline, read once more. -/
def afterRead (row : Option PromptRequest) (inTime : Bool) : CallStage :=
  match row with
  | some r => if r.status.isTerminal then .returned (some r)
      else if inTime then .poll else .timeoutRead
  | none => if inTime then .poll else .timeoutRead

/-- Where a submission goes with what the call returned. -/
def resume (c : Call) (inTime : Bool) (res : Res) : CallStage :=
  match c.stage with
  | .check =>
      match res with
      | .request found =>
          match IdempotencyService.check c.args.promptId (env.hashText c.args.text) found with
          | .error exc => .conflict exc
          | .ok .insertNew => .depth
          | .ok (.returnExisting row) => .returnExisting row
          | .ok (.awaitExisting _) => .preCheck
          | .ok (.reenqueue row) => .reenqueueStatus row
      | _ => c.stage
  | .returnExisting existing =>
      match res with
      | .request found => .returned (some (reportCached (found.getD existing)))
      | _ => c.stage
  | .depth =>
      match res with
      | .depth n =>
          if env.maxQueueDepth ≤ n then .queueFull (queueFullError n env.maxQueueDepth)
          else .insert
      | _ => c.stage
  | .insert =>
      match res with
      | .inserted _ _ => .preCheck
      | _ => .refetch
  | .refetch =>
      match res with
      | .request (some _) => .preCheck
      | _ => .integrityError
  | .reenqueueStatus existing => .reenqueueReset existing
  | .reenqueueReset _ => .preCheck
  | .preCheck | .poll =>
      match res with
      | .request found => afterRead found inTime
      | _ => c.stage
  | .timeoutRead =>
      match res with
      | .request found => .returned found
      | _ => c.stage
  | s => s

/-! ## One turn -/

/-- The repository call a submission makes at a stage. -/
inductive Turn (c : Call) (now : Time) : Tx → Prop where
  | read (hst : c.stage.reads = true) (hp : isText c.args.promptId = true) :
      Turn c now (.getByPromptId c.args.promptId)
  | depth (hst : c.stage = .depth) : Turn c now .queuedDepth
  | insert (hst : c.stage = .insert) (hfit : (newRequest env c.args).fits = true) :
      Turn c now (.insertWithJob (newRequest env c.args) now)
  | reenqueue {q : PromptRequest} (hst : c.stage = .reenqueueStatus q) :
      Turn c now (.updateStatus q.id .queued now)
  | reset {q : PromptRequest} (hst : c.stage = .reenqueueReset q) :
      Turn c now (.resetJob q.id now)

variable {env}

/-- **The calls of a submission are its turns.** -/
theorem turn_iff {c : Call} {now : Time} {t : Tx} : call env c now = some t ↔ Turn env c now t := by
  constructor
  · intro h
    unfold call at h
    cases hst : c.stage with
    | depth => rw [hst] at h; cases h; exact .depth hst
    | insert =>
        rw [hst] at h
        obtain ⟨hfit, ht⟩ := Option.ite_none_right_eq_some.mp h
        cases ht
        exact .insert hst hfit
    | reenqueueStatus q => rw [hst] at h; cases h; exact .reenqueue hst
    | reenqueueReset q => rw [hst] at h; cases h; exact .reset hst
    | returned | conflict | queueFull | integrityError => rw [hst] at h; cases h
    | _ =>
        rw [hst] at h
        obtain ⟨hp, ht⟩ := Option.ite_none_right_eq_some.mp h
        cases ht
        exact .read (by rw [hst]; rfl) hp
  · intro h
    unfold call
    cases h with
    | depth hst => rw [hst]
    | insert hst hfit => rw [hst]; exact if_pos hfit
    | reenqueue hst => rw [hst]
    | reset hst => rw [hst]
    | read hst hp =>
        cases hs : c.stage <;> rw [hs] at hst <;> first | exact if_pos hp | cases hst

/-- A stage that reads issues its read, or nothing. -/
theorem tx_of_reads {c : Call} {now : Time} {t : Tx} (hst : c.stage.reads = true)
    (h : call env c now = some t) : t = .getByPromptId c.args.promptId := by
  cases turn_iff.mp h with
  | read _ _ => rfl
  | depth hd => rw [hd] at hst; cases hst
  | insert hd _ => rw [hd] at hst; cases hst
  | reenqueue hd => rw [hd] at hst; cases hst
  | reset hd => rw [hd] at hst; cases hst

/-- The same of the stage that inserts. -/
theorem tx_of_insert {c : Call} {now : Time} {t : Tx} (hst : c.stage = .insert)
    (h : call env c now = some t) :
    t = .insertWithJob (newRequest env c.args) now ∧ (newRequest env c.args).fits = true := by
  unfold call at h
  rw [hst] at h
  obtain ⟨hfit, ht⟩ := Option.ite_none_right_eq_some.mp h
  exact ⟨(Option.some.inj ht).symm, hfit⟩

end PromptProcessor

end PromptQueue
