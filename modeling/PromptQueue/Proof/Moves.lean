import PromptQueue.World

/-!
# What one move can do

`World.step` is a function; the proofs argue about it by cases. `Move` lists the
cases once, guards included, and `move_of_step` is the only place where the
function is unfolded. The rest of the file is what rewriting needs to see through
the helpers a move is built from.
-/

namespace PromptQueue.Proof

open PromptQueue Base World

variable {S : Type} [LinearOrder S] {env : Env S}

/-- The moves, by the process that makes them. -/
inductive Move (env : Env S) (w : World) : Event → World → Prop where
  | submit {c : Nat} {args : SubmitArgs} (hc : w.calls c = none) :
      Move env w (.submit c args) (w.setCall c (some ⟨args, .check⟩))
  | call {c : Nat} {k : Call} {now : Time} {inTime : Bool} {t : Tx} (hc : w.calls c = some k)
      (ht : PromptProcessor.call env k now = some t) :
      Move env w (.call c now inTime) ((w.commit (.call c) t).setCall c
        (some { k with stage := PromptProcessor.resume env k inTime (w.db.exec t).2 }))
  | callCrash {c : Nat} {k : Call} (hc : w.calls c = some k) (he : k.stage.ended = false) :
      Move env w (.callCrash c) (w.setCall c none)
  | claim {s : WorkerId} {now : Time} {locked : List Nat} {pick : Option Nat}
      (hs : w.slots s = .idle)
      (hsel : ProcessingJobRepository.Selects w.db.jobs.rows locked now pick) :
      Move env w (.claim s now locked pick)
        ((w.commit (.slot s) (.claimNext s env.leaseSeconds now pick)).setSlot s
          (w.afterClaim (w.db.exec (.claimNext s env.leaseSeconds now pick)).2))
  | pipeline {s : WorkerId} {r : Run} {now : Time} {top1 : Option Nat} {t : Tx}
      (hs : w.slots s = .running r) (ht : PromptPipeline.call env r now top1 = some t) :
      Move env w (.pipeline s now top1) ((w.commit (.slot s) t).setSlot s
        (.running { r with stage := PromptPipeline.resume env r (w.db.exec t).2 }))
  | heartbeat {s : WorkerId} {r : Run} {now : Time} (hs : w.slots s = .running r)
      (hl : r.leaseLost = false) :
      Move env w (.heartbeat s now)
        ((w.commit (.heartbeat s) (.extendLease r.job.id s env.leaseSeconds now)).setSlot s
          (.running { r with
            leaseLost := decide ((w.db.exec (.extendLease r.job.id s env.leaseSeconds now)).2
              ≠ .updated true) }))
  | crash {s : WorkerId} (hs : w.slots s ≠ .stopped) :
      Move env w (.crash s) (w.setSlot s .stopped)
  | next {s : WorkerId} {r : Run} {how : Ending} (hs : w.slots s = .running r)
      (hd : r.stage = .done how) :
      Move env w (.next s) ((w.setSlot s (afterTask r how).1).note (afterTask r how).2)
  | reap {now : Time} : Move env w (.reap now) (w.commit .reaper (.reapExpiredLeases now))
  | think {s : WorkerId} {r : Run} {e : Event} {p : Run × List Entry}
      (hs : w.slots s = .running r) (he : thinker e = some s)
      (ht : World.think env r e = some p) :
      Move env w e ((w.setSlot s (.running p.1)).note p.2)

theorem withRun_some {w w' : World} {s : WorkerId} {f : Run → Option World}
    (h : w.withRun s f = some w') : ∃ r, w.slots s = .running r ∧ f r = some w' := by
  unfold withRun at h
  cases hs : w.slots s with
  | running r => rw [hs] at h; exact ⟨r, rfl, h⟩
  | idle => rw [hs] at h; cases h
  | stopped => rw [hs] at h; cases h

theorem think_of_step {w w' : World} {e : Event} {s : WorkerId} (he : thinker e = some s)
    (h : (match thinker e with
      | some s => w.withRun s fun r => (World.think env r e).map fun p =>
          (w.setSlot s (.running p.1)).note p.2
      | none => none) = some w') : Move env w e w' := by
  rw [he] at h
  obtain ⟨r, hr, h⟩ := withRun_some h
  obtain ⟨p, hp, rfl⟩ := Option.map_eq_some_iff.mp h
  exact .think hr he hp

/-- **Every step is one of the moves.** -/
theorem move_of_step {w w' : World} {e : Event} (h : World.step env w e = some w') :
    Move env w e w' := by
  cases e with
  | submit c args =>
      rw [World.step] at h
      cases hc : w.calls c with
      | none => rw [hc] at h; cases h; exact .submit hc
      | some k => rw [hc] at h; cases h
  | call c now inTime =>
      rw [World.step] at h
      cases hc : w.calls c with
      | none => rw [hc] at h; cases h
      | some k =>
          rw [hc] at h
          obtain ⟨t, ht, rfl⟩ := Option.map_eq_some_iff.mp h
          exact .call hc ht
  | callCrash c =>
      rw [World.step] at h
      cases hc : w.calls c with
      | none => rw [hc] at h; cases h
      | some k =>
          rw [hc] at h
          dsimp only at h
          split at h
          · cases h
          · rename_i he; cases h; exact .callCrash hc (by simpa using he)
  | claim s now locked pick =>
      rw [World.step] at h
      cases hs : w.slots s with
      | running r => rw [hs] at h; cases h
      | stopped => rw [hs] at h; cases h
      | idle =>
          rw [hs] at h
          dsimp only at h
          split at h
          · rename_i hsel; cases h; exact .claim hs hsel
          · cases h
  | pipeline s now top1 =>
      obtain ⟨r, hr, h⟩ := withRun_some h
      obtain ⟨t, ht, rfl⟩ := Option.map_eq_some_iff.mp h
      exact .pipeline hr ht
  | heartbeat s now =>
      obtain ⟨r, hr, h⟩ := withRun_some h
      dsimp only at h
      split at h
      · cases h
      · rename_i hl; cases h; exact .heartbeat hr (by simpa using hl)
  | crash s =>
      rw [World.step] at h
      cases hs : w.slots s with
      | stopped => rw [hs] at h; cases h
      | running r => rw [hs] at h; cases h; exact .crash (by simp [hs])
      | idle => rw [hs] at h; cases h; exact .crash (by simp [hs])
  | next s =>
      obtain ⟨r, hr, h⟩ := withRun_some h
      cases hd : r.stage with
      | done how => rw [hd] at h; cases h; exact .next hr hd
      | _ => rw [hd] at h; cases h
  | reap now => cases h; exact .reap
  | dbError s m => exact think_of_step rfl h
  | limiter s a => exact think_of_step rfl h
  | llmLimited s wait m => exact think_of_step rfl h
  | llmCall s => exact think_of_step rfl h
  | llmReturn s resp => exact think_of_step rfl h
  | llmRaise s exc => exact think_of_step rfl h
  | cancel s => exact think_of_step rfl h
  | abort s => exact think_of_step rfl h

/-! ## Rewriting lemmas -/

@[simp] theorem commit_db (w : World) (who : Proc) (t : Tx) :
    (w.commit who t).db = (w.db.exec t).1 := rfl

@[simp] theorem setSlot_db (w : World) (s : WorkerId) (x : Slot) : (w.setSlot s x).db = w.db := rfl

@[simp] theorem setSlot_slots_self (w : World) (s : WorkerId) (x : Slot) :
    (w.setSlot s x).slots s = x := by simp [setSlot]

@[simp] theorem setSlot_slots_ne (w : World) {s s' : WorkerId} (x : Slot) (h : s' ≠ s) :
    (w.setSlot s x).slots s' = w.slots s' := by simp [setSlot, h]

@[simp] theorem setCall_db (w : World) (c : Nat) (k : Option Call) :
    (w.setCall c k).db = w.db := rfl

@[simp] theorem setCall_calls_self (w : World) (c : Nat) (k : Option Call) :
    (w.setCall c k).calls c = k := by simp [setCall]

@[simp] theorem setCall_calls_ne (w : World) {c c' : Nat} (k : Option Call) (h : c' ≠ c) :
    (w.setCall c k).calls c' = w.calls c' := by simp [setCall, h]

@[simp] theorem note_slots (w : World) (es : List Entry) : (w.note es).slots = w.slots := rfl

/-! ## What a pipeline keeps while it thinks -/

/-- Two states of one run: the snapshot it was claimed with does not change. -/
def SameRun (r r' : Run) : Prop :=
  r'.job = r.job ∧ r'.req = r.req ∧ r'.ticket = r.ticket ∧ r'.epoch = r.epoch

theorem SameRun.refl (r : Run) : SameRun r r := ⟨rfl, rfl, rfl, rfl⟩

end PromptQueue.Proof
