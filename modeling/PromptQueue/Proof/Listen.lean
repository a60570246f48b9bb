import PromptQueue.Services.PollLoop

/-!
# What a notification wakes

The future of a listener is set by the first notification and stays set. So nothing that
is notified is ever lost, and nothing that is waited for is ever waited for again: every
`wait` after the first notification returns at once, whether there was another one or
not. Below the waits that return a payload are counted, and the reads of the polling
loop with them.
-/

namespace PromptQueue

open Base

/-- A notification. -/
def WaitEvent.notifies : WaitEvent → Bool
  | .notify _ => true
  | _ => false

/-- The notifications delivered. -/
def delivered (es : List WaitEvent) : Nat := es.countP WaitEvent.notifies

/-- The calls of `wait` that come after a notification. -/
def lateWaits : List WaitEvent → Nat
  | [] => 0
  | e :: es => if e.notifies then es.count .wait else lateWaits es

/-- The waits a notification ends: those that come after one, and one it finds suspended. -/
def answered (es : List WaitEvent) : Nat := lateWaits es + es.count .resume

/-- The calls of `wait` that return a payload. -/
def payloads (es : List WaitEvent) : Nat :=
  PreparedListener.machine.tally (fun l e => if (l.result e).any Option.isSome then 1 else 0)
    PreparedListener.machine.init es

/-- A listener that was notified has the notification for whoever waits. -/
structure Kept (es : List WaitEvent) (l : PreparedListener) : Prop where
  /-- The next `wait` returns it at once. -/
  next : l.waiting = false →
    l.step .wait = some l ∧ ∃ payload, .notify payload ∈ es ∧ l.result .wait = some (some payload)
  /-- The suspended one is resumed with it. -/
  suspended : l.waiting = true → (l.step .resume).isSome = true ∧
    ∃ payload, .notify payload ∈ es ∧ l.result .resume = some (some payload)

/-- What the listener sees of a run of the loop. -/
def PollLoop.heardOf (deadline : Time) (es : List PollEvent) : List WaitEvent :=
  es.filterMap (PollLoop.heard deadline)

/-- A read. -/
def PollEvent.reads : PollEvent → Bool
  | .read _ => true
  | _ => false

/-- The loop is between a `wait` that has returned and the read that follows it. -/
def PollLoop.owes (p : PollLoop) : Nat := if p.point = .reading then 1 else 0

end PromptQueue

namespace PromptQueue.Proof

open PromptQueue Base

variable {es : List WaitEvent} {e : WaitEvent} {l l' : PreparedListener} {deadline : Time}

/-! ## The listener -/

theorem lateWaits_concat (es : List WaitEvent) (e : WaitEvent) : lateWaits (es ++ [e])
    = lateWaits es + if es.any WaitEvent.notifies = true ∧ e = .wait then 1 else 0 := by
  induction es with
  | nil => cases e <;> simp [lateWaits]
  | cons e' es ih =>
      rw [List.cons_append, lateWaits, lateWaits]
      by_cases hn : e'.notifies = true
      · rw [if_pos hn, if_pos hn, List.count_append]
        by_cases he : e = .wait
        · simp [he, hn]
        · simp [he]
      · rw [if_neg hn, if_neg hn, ih]
        simp [hn]

theorem answered_concat (es : List WaitEvent) (e : WaitEvent) : answered (es ++ [e])
    = answered es + ((if es.any WaitEvent.notifies = true ∧ e = .wait then 1 else 0)
      + if e = .resume then 1 else 0) := by
  unfold answered
  rw [lateWaits_concat, List.count_append, List.count_singleton]
  simp only [beq_iff_eq]
  omega

/-- What one more event adds to the waits that returned a payload. -/
theorem payloads_concat
    (hl : PreparedListener.machine.run PreparedListener.machine.init es = some l)
    (e : WaitEvent) : payloads (es ++ [e])
      = payloads es + if (l.result e).any Option.isSome then 1 else 0 :=
  Machine.tally_concat hl

/-- The ways a listener goes through an event. -/
inductive Listens (l : PreparedListener) : WaitEvent → PreparedListener → Prop where
  | notified {payload : String} :
      Listens l (.notify payload) { l with future := l.future.or (some payload) }
  | atOnce (hw : l.waiting = false) (hf : l.future.isSome = true) : Listens l .wait l
  | suspended (hw : l.waiting = false) (hf : l.future.isSome = false) :
      Listens l .wait { l with waiting := true }
  | resumed (hw : l.waiting = true) (hf : l.future.isSome = true) :
      Listens l .resume { l with waiting := false }
  | timedOut (hw : l.waiting = true) : Listens l .timeout { l with waiting := false }
  | cancelled (hw : l.waiting = true) : Listens l .cancel { l with waiting := false }

/-- **Every event is one of them.** -/
theorem listens_of_step (h : l.step e = some l') : Listens l e l' := by
  cases e with
  | notify payload => cases h; exact .notified
  | wait =>
      rw [PreparedListener.step] at h
      split at h
      · cases h
      · rename_i hw
        have hw : l.waiting = false := by simpa using hw
        split at h
        · rename_i hf; cases h; exact .atOnce hw hf
        · rename_i hf; cases h; exact .suspended hw (by simpa using hf)
  | resume =>
      rw [PreparedListener.step] at h
      split at h
      · rename_i hw; cases h; exact .resumed hw.1 hw.2
      · cases h
  | timeout =>
      rw [PreparedListener.step] at h
      split at h
      · rename_i hw; cases h; exact .timedOut hw
      · cases h
  | cancel =>
      rw [PreparedListener.step] at h
      split at h
      · rename_i hw; cases h; exact .cancelled hw
      · cases h

/-- What a listener knows of what happened to it. -/
structure Heard (es : List WaitEvent) (l : PreparedListener) : Prop where
  /-- The future is set once there was a notification. -/
  set : l.future.isSome = es.any WaitEvent.notifies
  /-- It is set to what one of them said. -/
  said : ∀ payload, l.future = some payload → .notify payload ∈ es
  /-- The waits that returned a payload. -/
  payloads : payloads es = answered es

theorem heard_init : Heard [] PreparedListener.machine.init := ⟨rfl, nofun, rfl⟩

/-- An event that leaves the future as it is. -/
theorem heard_same (hi : Heard es l) (hf : l'.future = l.future) (hn : e.notifies = false)
    (hc : PromptQueue.payloads (es ++ [e]) = answered (es ++ [e])) : Heard (es ++ [e]) l' where
  set := by
    rw [hf, hi.set, List.any_append]
    simp [hn]
  said := by
    intro payload hp
    exact List.mem_append_left _ (hi.said payload (hf.symm.trans hp))
  payloads := hc

/-- **One event.** -/
theorem heard_step (hl : PreparedListener.machine.run PreparedListener.machine.init es = some l)
    (hi : Heard es l) (h : l.step e = some l') : Heard (es ++ [e]) l' := by
  have hcount := payloads_concat hl e
  rw [hi.payloads] at hcount
  have hans := answered_concat es e
  rw [← hi.set] at hans
  cases listens_of_step h with
  | @notified payload =>
      refine ⟨by simp [WaitEvent.notifies], fun p hp => ?_, ?_⟩
      · cases hf : l.future with
        | none =>
            simp only [hf, Option.none_or] at hp
            cases hp
            exact List.mem_append_right _ (List.mem_singleton_self _)
        | some p' =>
            simp only [hf, Option.some_or] at hp
            cases hp
            exact List.mem_append_left _ (hi.said _ hf)
      · rw [hcount, hans]
        simp [PreparedListener.result]
  | atOnce hw hf =>
      refine heard_same hi rfl rfl ?_
      rw [hcount, hans]
      simp [PreparedListener.result, hf]
  | suspended hw hf =>
      refine heard_same hi rfl rfl ?_
      rw [hcount, hans]
      simp [PreparedListener.result, hf]
  | resumed hw hf =>
      refine heard_same hi rfl rfl ?_
      rw [hcount, hans]
      simp [PreparedListener.result, hf]
  | timedOut hw =>
      refine heard_same hi rfl rfl ?_
      rw [hcount, hans]
      simp [PreparedListener.result]
  | cancelled hw =>
      refine heard_same hi rfl rfl ?_
      rw [hcount, hans]
      simp [PreparedListener.result]

/-- **Whatever happens to a listener**, it knows what it heard. -/
theorem heard_run (h : PreparedListener.machine.run PreparedListener.machine.init es = some l) :
    Heard es l :=
  Machine.Meets.along (I := Heard) heard_init (Machine.meets_always _ es) h
    fun _ hl hi _ hstep => heard_step hl hi hstep

/-- **Nothing that was notified is lost.** -/
theorem kept_of_heard (hi : Heard es l) (hn : es.any WaitEvent.notifies = true) : Kept es l := by
  obtain ⟨payload, hp⟩ := Option.isSome_iff_exists.mp (hi.set.trans hn)
  have hmem := hi.said payload hp
  refine ⟨fun hw => ⟨?_, payload, hmem, ?_⟩, fun hw => ⟨?_, payload, hmem, ?_⟩⟩
  · simp [PreparedListener.step, hw, hp]
  · simp [PreparedListener.result, hp]
  · simp [PreparedListener.step, hw, hp]
  · simp [PreparedListener.result, hp]

/-! ## The loop -/

/-- The ways the loop goes through an event. -/
inductive Polls (deadline : Time) (p : PollLoop) : PollEvent → PollLoop → Prop where
  | notified {payload : String} {l : PreparedListener}
      (hl : p.listener.step (.notify payload) = some l) :
      Polls deadline p (.notify payload) { p with listener := l }
  | waits {condition remaining : Time} {l : PreparedListener} (hp : p.point = .head)
      (hw : PollLoop.Waits deadline condition remaining) (hl : p.listener.step .wait = some l) :
      Polls deadline p (.begins condition remaining)
        ⟨l, if l.waiting then .waiting else .reading⟩
  | ends {condition remaining : Time} (hp : p.point = .head)
      (hw : ¬ PollLoop.Waits deadline condition remaining) :
      Polls deadline p (.begins condition remaining) { p with point := .timedOut }
  | resumed {l : PreparedListener} (hp : p.point = .waiting)
      (hl : p.listener.step .resume = some l) : Polls deadline p .resume ⟨l, .reading⟩
  | timedOut {l : PreparedListener} (hp : p.point = .waiting)
      (hl : p.listener.step .timeout = some l) : Polls deadline p .timeout ⟨l, .reading⟩
  | cancelled {l : PreparedListener} (hp : p.point = .waiting)
      (hl : p.listener.step .cancel = some l) : Polls deadline p .cancel ⟨l, .reading⟩
  | read {row : Option PromptRequest} {x : PollPoint} (hp : p.point = .reading)
      (hx : x ≠ .reading) : Polls deadline p (.read row) { p with point := x }

/-- **Every event is one of them.** -/
theorem polls_of_step {p p' : PollLoop} {x : PollEvent} (h : PollLoop.step deadline p x = some p') :
    Polls deadline p x p' := by
  unfold PollLoop.step at h
  split at h
  · rename_i hp
    split at h
    · rename_i hw
      obtain ⟨l, hl, rfl⟩ := Option.map_eq_some_iff.mp h
      exact .waits hp hw hl
    · rename_i hw
      cases h
      exact .ends hp hw
  · rename_i hp
    obtain ⟨l, hl, rfl⟩ := Option.map_eq_some_iff.mp h
    exact .resumed hp hl
  · rename_i hp
    obtain ⟨l, hl, rfl⟩ := Option.map_eq_some_iff.mp h
    exact .timedOut hp hl
  · rename_i hp
    obtain ⟨l, hl, rfl⟩ := Option.map_eq_some_iff.mp h
    exact .cancelled hp hl
  · rename_i hp
    split at h <;> cases h <;> exact .read hp nofun
  · cases h
  · cases h
  · obtain ⟨l, hl, rfl⟩ := Option.map_eq_some_iff.mp h
    exact .notified hl
  · cases h

/-- The listener of the loop goes through what it hears. -/
theorem listener_step {p p' : PollLoop} {x : PollEvent}
    (h : PollLoop.step deadline p x = some p') :
    PreparedListener.machine.run p.listener (PollLoop.heard deadline x).toList
      = some p'.listener := by
  have one : ∀ {e : WaitEvent} {l : PreparedListener}, p.listener.step e = some l →
      PreparedListener.machine.run p.listener [e] = some l :=
    fun hl => Option.bind_eq_some_iff.mpr ⟨_, hl, rfl⟩
  cases polls_of_step h with
  | notified hl => exact one hl
  | waits hp hw hl =>
      rw [PollLoop.heard, if_pos hw]
      exact one hl
  | ends hp hw =>
      rw [PollLoop.heard, if_neg hw]
      rfl
  | resumed hp hl => exact one hl
  | timedOut hp hl => exact one hl
  | cancelled hp hl => exact one hl
  | read hp hx => rfl

theorem listener_run {es : List PollEvent} {p : PollLoop}
    (h : (PollLoop.machine deadline).run (PollLoop.machine deadline).init es = some p) :
    PreparedListener.machine.run PreparedListener.machine.init (PollLoop.heardOf deadline es)
      = some p.listener :=
  Machine.run_filterMap (f := PollLoop.listener) listener_step h

/-- **The reads of the loop** are the waits that returned, with a payload or at their timeout. -/
def ReadsCounted (deadline : Time) (es : List PollEvent) (p : PollLoop) : Prop :=
  es.countP PollEvent.reads + p.owes
    = payloads (PollLoop.heardOf deadline es) + es.count .timeout

theorem reads_step {es : List PollEvent} {p p' : PollLoop} {x : PollEvent}
    (hl : PreparedListener.machine.run PreparedListener.machine.init
      (PollLoop.heardOf deadline es) = some p.listener) (hi : ReadsCounted deadline es p)
    (hx : x ≠ .cancel) (h : PollLoop.step deadline p x = some p') :
    ReadsCounted deadline (es ++ [x]) p' := by
  unfold ReadsCounted at hi ⊢
  rw [PollLoop.heardOf, List.filterMap_append, List.countP_append, List.count_append]
  rw [PollLoop.heardOf] at hi hl
  generalize List.filterMap (PollLoop.heard deadline) es = hs at hi hl ⊢
  cases polls_of_step h with
  | @notified payload l hstep =>
      change _ + 0 + p.owes = payloads (hs ++ [.notify payload]) + (_ + 0)
      rw [payloads_concat hl]
      simp only [PreparedListener.result, Option.any_none, Bool.false_eq_true, if_false]
      omega
  | @waits condition remaining l hp hw hstep =>
      have howes : p.owes = 0 := by simp [PollLoop.owes, hp]
      have hheard : List.filterMap (PollLoop.heard deadline) [.begins condition remaining]
          = [.wait] := by simp [PollLoop.heard, hw]
      change _ + 0 + _ = payloads (hs ++ _) + (_ + 0)
      rw [hheard, payloads_concat hl]
      cases listens_of_step hstep with
      | atOnce hw hf =>
          simp only [PollLoop.owes, hw, PreparedListener.result, hf, if_true, Option.any_some]
          simp
          omega
      | suspended hw hf =>
          simp [PollLoop.owes, PreparedListener.result, hf]
          omega
  | @ends condition remaining hp hw =>
      have howes : p.owes = 0 := by simp [PollLoop.owes, hp]
      have hheard :
          List.filterMap (PollLoop.heard deadline) [.begins condition remaining] = [] := by
        simp [PollLoop.heard, hw]
      change _ + 0 + 0 = payloads (hs ++ _) + (_ + 0)
      rw [hheard, List.append_nil]
      omega
  | @resumed l hp hstep =>
      have howes : p.owes = 0 := by simp [PollLoop.owes, hp]
      change _ + 0 + 1 = payloads (hs ++ [.resume]) + (_ + 0)
      rw [payloads_concat hl]
      cases listens_of_step hstep with
      | resumed hw hf =>
          simp only [PreparedListener.result, Option.any_some, hf, if_true]
          omega
  | @timedOut l hp hstep =>
      have howes : p.owes = 0 := by simp [PollLoop.owes, hp]
      change _ + 0 + 1 = payloads (hs ++ [.timeout]) + (_ + 1)
      rw [payloads_concat hl]
      simp only [PreparedListener.result, Option.any_some, Option.isSome_none,
        Bool.false_eq_true, if_false]
      omega
  | cancelled hp hstep => exact absurd rfl hx
  | @read row x hp hne =>
      have howes : p.owes = 1 := by simp [PollLoop.owes, hp]
      have howes' : PollLoop.owes { p with point := x } = 0 := by simp [PollLoop.owes, hne]
      change _ + 1 + _ = payloads (hs ++ []) + (_ + 0)
      rw [howes', List.append_nil]
      omega

/-- **In every run of the loop that nobody cancels.** -/
theorem reads_run {es : List PollEvent} {p : PollLoop} (hno : .cancel ∉ es)
    (h : (PollLoop.machine deadline).run (PollLoop.machine deadline).init es = some p) :
    ReadsCounted deadline es p := by
  refine (Machine.Meets.along (H := fun _ x => x ≠ .cancel)
    (I := fun fs p => (PollLoop.machine deadline).run (PollLoop.machine deadline).init fs = some p ∧
      ReadsCounted deadline fs p) ⟨rfl, rfl⟩
    (Machine.meets_of_forall (fun x hx _ (he : x = PollEvent.cancel) => hno (he ▸ hx)) _) h
    fun _ _ hi hx hstep => ?_).2
  exact ⟨Machine.run_concat hi.1 hstep, reads_step (listener_run hi.1) hi.2 hx hstep⟩

/--
**How often a notification wakes.** Whatever happens to a listener, what was notified is
not lost; but it answers as many waits as come after it. The waits that return a payload
are no more than the notifications exactly where the waits begun after the first one,
and the one it found suspended, are no more than them; and the same decides whether each
read of the polling loop has a notification or a timeout of its own.
-/
theorem wakes_at_most_once_iff (deadline : Time) :
    (∀ es l, PreparedListener.machine.run PreparedListener.machine.init es = some l →
      (es.any WaitEvent.notifies = true → Kept es l) ∧
      (payloads es ≤ delivered es ↔ answered es ≤ delivered es)) ∧
    ∀ es p,
      (PollLoop.machine deadline).run (PollLoop.machine deadline).init es = some p →
      .cancel ∉ es → p.point ≠ .reading →
      (es.countP PollEvent.reads ≤ delivered (PollLoop.heardOf deadline es) + es.count .timeout ↔
        answered (PollLoop.heardOf deadline es) ≤ delivered (PollLoop.heardOf deadline es)) := by
  refine ⟨fun es l h => ?_, fun es p h hno hp => ?_⟩
  · have hi := heard_run h
    exact ⟨kept_of_heard hi, by rw [hi.payloads]⟩
  · have hreads := reads_run hno h
    have hpay := (heard_run (listener_run h)).payloads
    have howes : p.owes = 0 := if_neg hp
    unfold ReadsCounted at hreads
    omega

/-- A wait that times out, and one that is woken. -/
def wokenOnce : List PollEvent :=
  [.begins 0 0, .timeout, .read none, .begins 1 1, .notify "", .resume, .read none]

/-- A wait that is woken by a row still at work, and the next one. -/
def wokenTwice : List PollEvent :=
  [.begins 0 0, .notify "", .resume, .read none, .begins 0 0, .read none]

/-- One notification: the wait it finds has its payload, the loop that goes on reads too often. -/
theorem wakes_at_most_once_iff_woken_once :
    Kept [.wait, .notify "", .resume] ⟨some "", false⟩ ∧
    payloads [.wait, .notify "", .resume] ≤ delivered [.wait, .notify "", .resume] ∧
    wokenOnce.countP PollEvent.reads
      ≤ delivered (PollLoop.heardOf 10 wokenOnce) + wokenOnce.count .timeout ∧
    ¬ wokenTwice.countP PollEvent.reads
      ≤ delivered (PollLoop.heardOf 10 wokenTwice) + wokenTwice.count .timeout := by
  obtain ⟨hkept, hpay⟩ := (wakes_at_most_once_iff 10).1 [.wait, .notify "", .resume]
    ⟨some "", false⟩ (by decide)
  have honce := (wakes_at_most_once_iff 10).2 wokenOnce ⟨⟨some "", false⟩, .head⟩
    (by decide +kernel) (by decide) (by decide)
  have htwice := (wakes_at_most_once_iff 10).2 wokenTwice ⟨⟨some "", false⟩, .head⟩
    (by decide +kernel) (by decide) (by decide)
  exact ⟨hkept (by decide), hpay.mpr (by decide), honce.mpr (by decide +kernel),
    htwice.not.mpr (by decide +kernel)⟩

/--
**A notification that does not end the loop.** The row it was about is read and is not
terminal; from then on the loop waits no more, and reads as fast as the database answers.
-/
theorem read_again_at_once : ∃ es p,
    (PollLoop.machine 10).run (PollLoop.machine 10).init es = some p ∧ .cancel ∉ es ∧
      p.point = .head ∧ es.countP PollEvent.reads = 2 ∧ es.count .timeout = 0 ∧
      delivered (PollLoop.heardOf 10 es) = 1 ∧ payloads (PollLoop.heardOf 10 es) = 2 :=
  ⟨wokenTwice, ⟨⟨some "", false⟩, .head⟩, by decide +kernel, by decide, by decide, by decide,
    by decide, by decide +kernel, by decide +kernel⟩

end PromptQueue.Proof
