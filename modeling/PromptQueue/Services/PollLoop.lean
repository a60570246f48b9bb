import PromptQueue.Db.ListenNotify
import PromptQueue.Services.PromptProcessor

/-!
# The polling loop of `submit_and_wait`

The `while` of `src/services/prompt_processor.py` with the listener it waits on, one
event for each of its points. The times are what `time.monotonic()` said; the read
after the deadline is not part of the loop.
-/

namespace PromptQueue

open Base

/-- Where the loop stands. -/
inductive PollPoint where
  /-- Before the condition. -/
  | head
  /-- In `wait_notify`. -/
  | waiting
  /-- Before the read. -/
  | reading
  | returned (row : PromptRequest)
  | timedOut
  deriving DecidableEq, Repr

/-- The loop and its listener. -/
structure PollLoop where
  listener : PreparedListener
  point : PollPoint
  deriving DecidableEq, Repr

/-- What can happen to the loop. -/
inductive PollEvent where
  | notify (payload : String)
  /-- An iteration begins: the reading of the condition, and that of the next line. -/
  | begins (condition remaining : Time)
  | resume
  | timeout
  | cancel
  /-- `get_by_prompt_id`. -/
  | read (row : Option PromptRequest)
  deriving DecidableEq, Repr

namespace PollLoop

/-- Whether an iteration gets as far as its `wait`. -/
def Waits (deadline condition remaining : Time) : Prop :=
  condition < deadline ∧ 0 < min 1 (deadline - remaining)

instance (deadline condition remaining : Time) : Decidable (Waits deadline condition remaining) :=
  inferInstanceAs (Decidable (_ ∧ _))

/-- What the listener sees of an event. -/
def heard (deadline : Time) : PollEvent → Option WaitEvent
  | .notify payload => some (.notify payload)
  | .begins condition remaining => if Waits deadline condition remaining then some .wait else none
  | .resume => some .resume
  | .timeout => some .timeout
  | .cancel => some .cancel
  | .read _ => none

/-- One event. -/
def step (deadline : Time) (p : PollLoop) (e : PollEvent) : Option PollLoop :=
  match p.point, e with
  | .head, .begins condition remaining =>
      if Waits deadline condition remaining then
        (p.listener.step .wait).map fun l => ⟨l, if l.waiting then .waiting else .reading⟩
      else some { p with point := .timedOut }
  | .waiting, .resume => (p.listener.step .resume).map fun l => ⟨l, .reading⟩
  | .waiting, .timeout => (p.listener.step .timeout).map fun l => ⟨l, .reading⟩
  | .waiting, .cancel => (p.listener.step .cancel).map fun l => ⟨l, .reading⟩
  | .reading, .read row =>
      match PromptProcessor.afterRead row true with
      | .returned (some r) => some { p with point := .returned r }
      | _ => some { p with point := .head }
  -- outside of the context nobody listens
  | .returned _, _ | .timedOut, _ => none
  | _, .notify payload => (p.listener.step (.notify payload)).map fun l => { p with listener := l }
  | _, _ => none

/-- The loop as a machine. -/
def machine (deadline : Time) : Machine PollLoop PollEvent where
  init := ⟨PreparedListener.machine.init, .head⟩
  step := step deadline

end PollLoop

end PromptQueue
