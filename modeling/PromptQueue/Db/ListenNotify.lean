import PromptQueue.Base.Machine

/-!
# `prepared_listener`

The listener of `src/db/listen_notify.py`, from the moment `add_listener` has returned:
a future that the callback sets once, and the `wait` that its owner calls again and
again. A call of `wait` either returns at once or is suspended until the event loop
resumes it, its timeout fires or its task is cancelled; the shield keeps the future out
of both.
-/

namespace PromptQueue

open Base

/-- What can happen to a listener. -/
inductive WaitEvent where
  /-- `_handler` is called back. -/
  | notify (payload : String)
  /-- `wait(timeout)` is called. -/
  | wait
  /-- The suspended `wait` finds the future set. -/
  | resume
  /-- Its timeout fires. -/
  | timeout
  /-- It is cancelled. -/
  | cancel
  deriving DecidableEq, Repr

/-- A listener: the payload its future holds, and whether a `wait` is suspended on it. -/
structure PreparedListener where
  future : Option String
  waiting : Bool
  deriving DecidableEq, Repr

namespace PreparedListener

/-- One event. Its owner calls `wait` one call at a time. -/
def step (l : PreparedListener) : WaitEvent → Option PreparedListener
  | .notify payload =>
      -- `if not future.done()`
      some { l with future := l.future.or (some payload) }
  | .wait =>
      if l.waiting then none
      else if l.future.isSome then some l
      else some { l with waiting := true }
  | .resume => if l.waiting ∧ l.future.isSome then some { l with waiting := false } else none
  | .timeout | .cancel => if l.waiting then some { l with waiting := false } else none

/-- What `wait` returns at an event, if it returns. -/
def result (l : PreparedListener) : WaitEvent → Option (Option String)
  | .notify _ => none
  | .wait => if l.future.isSome then some l.future else none
  | .resume => some l.future
  | .timeout | .cancel => some none

/-- The listener as a machine. -/
def machine : Machine PreparedListener WaitEvent where
  init := ⟨none, false⟩
  step := step

end PreparedListener

end PromptQueue
