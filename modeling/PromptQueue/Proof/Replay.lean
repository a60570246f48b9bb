import PromptQueue.Proof.Snapshot

/-!
# Replaying concrete runs

A counterexample or a witness is a list of events. Running it tells what becomes
of the processes it names; `slot_of_run` and `call_of_run` say that every other
process is where it was, which is what turns a finite check into a statement
about all of them.
-/

namespace PromptQueue.Proof

open PromptQueue Base World

variable {S : Type} [LinearOrder S] {env : Env S} {w w' : World}

/-- What is not this call's event leaves the call alone. -/
theorem call_frame {e : Event} (h : Move env w e w') {c : Nat} (he : e.caller ≠ some c) :
    w'.calls c = w.calls c := by
  have ne : ∀ {c₀ : Nat}, e.caller = some c₀ → c ≠ c₀ := by
    rintro c₀ hc rfl
    exact he hc
  cases h with
  | submit hc => exact setCall_calls_ne _ _ (ne rfl)
  | callCrash hc he => exact setCall_calls_ne _ _ (ne rfl)
  | call hc ht => exact setCall_calls_ne _ _ (ne rfl)
  | claim hs hsel => rfl
  | pipeline hs ht => rfl
  | heartbeat hs hl => rfl
  | crash hs => rfl
  | next hs hd => rfl
  | reap => rfl
  | think hs hth ht => rfl

/-- One transaction of a pipeline is one of its turns. -/
theorem pipeline_turn {s : WorkerId} {r : Run} {now : Time} {top1 : Option Nat} {t : Tx}
    (hs : w.slots s = .running r) (ht : PromptPipeline.call env r now top1 = some t) :
    ∃ x w', PromptPipeline.Turn env w.db r now top1 t x ∧
      PromptPipeline.resume env r (w.db.exec t).2 = x ∧
      World.step env w (.pipeline s now top1) = some w' ∧ w'.db = (w.db.exec t).1 ∧
      w'.slots s = .running { r with stage := x } := by
  obtain ⟨x, hx, hturn⟩ := PromptPipeline.turn_of_call w.db ht
  refine ⟨x, (w.commit (.slot s) t).setSlot s (.running { r with stage := x }), hturn, hx, ?_, rfl,
    setSlot_slots_self _ _ _⟩
  simp only [World.step, withRun, hs, ht, Option.map_some, hx]

/-- What the system makes of a claim. -/
theorem step_of_claim {s : WorkerId} {now : Time} {locked : List Nat} {pick : Option Nat}
    (hs : w.slots s = .idle)
    (hsel : ProcessingJobRepository.Selects w.db.jobs.rows locked now pick) :
    World.step env w (.claim s now locked pick)
      = some ((w.commit (.slot s) (.claimNext s env.leaseSeconds now pick)).setSlot s
        (w.afterClaim (w.db.exec (.claimNext s env.leaseSeconds now pick)).2)) := by
  simp only [World.step, hs, if_pos hsel]

/-- A claim the query allows hands out the row. -/
theorem claim_turn (env : Env S) {s : WorkerId} {now : Time} {locked : List Nat} {j : ProcessingJob}
    (hs : w.slots s = .idle) (hj : j ∈ w.db.jobs.rows) (hd : ProcessingJob.Due now j)
    (hsel : ProcessingJobRepository.Selects w.db.jobs.rows locked now (some j.id)) :
    ∃ r w', World.step env w (.claim s now locked (some j.id)) = some w' ∧
      w'.slots s = .running r ∧ r.job = j.claim s env.leaseSeconds now ∧
      r.req.id = j.promptRequestId ∧ r.stage = .findExact ∧ r.leaseLost = false ∧
      w'.db.jobs.rows
        = w.db.jobs.rows.map (Tx.claimNext s env.leaseSeconds now (some j.id)).onJob := by
  obtain ⟨q, hq⟩ := claimNext_due (w := s) (l := env.leaseSeconds) hj rfl hd
  obtain ⟨i, hi, hid, -, -, -, hqi⟩ := claimNext_some hq
  rw [Db.job_eq_of_id hi hj (Option.some.inj hid)] at hqi
  have hw : World.step env w (.claim s now locked (some j.id)) = some
      ((w.commit (.slot s) (.claimNext s env.leaseSeconds now (some j.id))).setSlot s
        (w.afterClaim (.claimed (some (j.claim s env.leaseSeconds now, q))))) := by
    simp only [World.step, hs, if_pos hsel, Db.exec, hq]
  exact ⟨_, _, hw, setSlot_slots_self _ _ _, rfl, hqi, rfl, rfl, claimNext_rows _ _ _ _ _⟩

/-- A slot no event names is as it was. -/
theorem slot_of_run {es : List Event} {s : WorkerId} (h : (machine env).run w es = some w')
    (hs : ∀ e ∈ es, e.slot ≠ some s) : w'.slots s = w.slots s := by
  induction es generalizing w with
  | nil => cases h; rfl
  | cons e es ih =>
      obtain ⟨u, hu, h⟩ := Option.bind_eq_some_iff.mp h
      rw [ih h fun e he => hs e (List.mem_cons_of_mem _ he)]
      exact slot_frame (move_of_step hu) (hs e List.mem_cons_self)

/-- A call no event names is as it was. -/
theorem call_of_run {es : List Event} {c : Nat} (h : (machine env).run w es = some w')
    (hc : ∀ e ∈ es, e.caller ≠ some c) : w'.calls c = w.calls c := by
  induction es generalizing w with
  | nil => cases h; rfl
  | cons e es ih =>
      obtain ⟨u, hu, h⟩ := Option.bind_eq_some_iff.mp h
      rw [ih h fun e he => hc e (List.mem_cons_of_mem _ he)]
      exact call_frame (move_of_step hu) (hc e List.mem_cons_self)

/--
A run of `es` from the start in which only the slots below `n` and the calls below
`m` moved: every other slot is idle and every other call was never made.
-/
theorem untouched_of_run {es : List Event} {n m : Nat}
    (h : (machine env).run World.init es = some w)
    (hn : es.all (fun e => e.slot.all (· < n) && e.caller.all (· < m)) = true) :
    (∀ s, n ≤ s → w.slots s = .idle) ∧ ∀ c, m ≤ c → w.calls c = none := by
  have hn := List.all_eq_true.mp hn
  refine ⟨fun s hs => slot_of_run h fun e he hse => ?_,
    fun c hc => call_of_run h fun e he hce => ?_⟩
  · have := hn e he
    simp [hse] at this
    omega
  · have := hn e he
    simp [hce] at this
    omega

/-- Where only the slots below `n` ever move, every other slot is idle. -/
theorem idle_above {H : World → Event → Prop} {n : Nat} (h : (machine env).ReachableWhere H w)
    (hn : ∀ w e, H w e → e.slot.all (· < n) = true) {s : WorkerId} (hs : n ≤ s) :
    w.slots s = .idle := by
  refine invariant_of_moves (I := fun w => w.slots s = .idle) h rfl fun {u v e} _ hi hH hm => ?_
  rw [slot_frame hm, hi]
  intro he
  have := hn u e hH
  simp [he] at this
  omega

/-! ## A deployment -/

/--
The deployment of the concrete runs: the defaults of `src/config.py`, an embedder
of two directions, and SHA-256 on the two texts the runs use.
-/
def deployment : Env Rat where
  threshold := 9 / 10
  similarity := fun u v => (List.zipWith (· * ·) u v).sum
  embed := fun text => if text = "a" then [1, 0] else [0, 1]
  lower := List.map Char.toLower
  sha256 := fun text =>
    if text = ['a'] then 0xca978112ca1bbdcafac231b39a23dc4da786eff8147c4e72b9807785afee48bb
    else if text = ['b'] then 0x3e23e8160039594a33894f6564e1b1348bbd7a0088d42c4acb73eeaed59c009d
    else 0

/-- The same with a queue that takes one job. -/
def narrow : Env Rat := { deployment with maxQueueDepth := 1 }

/-- `POST /process` of a text under a prompt id, and its insert. -/
def submission (c : Nat) (promptId text : String) : List Event :=
  [.submit c ⟨"u", promptId, text, "normal"⟩, .call c 0 true, .call c 0 true, .call c 0 true]

end PromptQueue.Proof
