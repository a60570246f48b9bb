import PromptQueue.Proof.Replay
import PromptQueue.Proof.TokenBucket
import PromptQueue.Worker.Fleet

/-!
# Calls per minute

The limiter lets through a full bucket and what was refilled since; over a minute that
is twice the capacity. The guard counts calls exactly, but only those of its own
process. So the bound over all processes is the guard's where there is one process,
and there is none where there are two: the first empties the bucket, and the second
calls with the first token that comes back.
-/

namespace PromptQueue.Proof

open PromptQueue Base

variable {P : Type} [DecidableEq P] {capacity : Nat} {proc : WorkerId → P} {f g : Fleet P}

/-! ## One guard -/

/-- The calls of one process, oldest first. -/
def callsOf (p : P) (issued : List (P × Time)) : List Time :=
  (issued.filter fun x => decide (x.1 = p)).map (·.2)

/-- The guard of every process keeps the books of its calls. -/
def Books (capacity : Nat) (f : Fleet P) : Prop :=
  ∀ p, (f.guards p).limit = capacity ∧ (f.guards p).window = MockLLMProvider.guardWindow ∧
    ∃ last ≤ f.clock, Window.Kept capacity MockLLMProvider.guardWindow (callsOf p f.issued)
      (f.guards p).calls last

theorem books_init : Books capacity (Fleet.init P capacity) :=
  fun _ => ⟨rfl, rfl, 0, le_refl 0, Window.kept_nil _ _ _⟩

theorem callsOf_append (p q : P) (now : Time) (issued : List (P × Time)) :
    callsOf p (issued ++ [(q, now)])
      = if q = p then callsOf p issued ++ [now] else callsOf p issued := by
  unfold callsOf
  rw [List.filter_append]
  by_cases h : q = p
  · simp [h]
  · simp [h]

theorem books_step {e : FleetEvent} (h : Books capacity f)
    (hs : Fleet.step capacity proc f e = some g) : Books capacity g := by
  cases e with
  | leave s => cases hs; exact h
  | acquire s now =>
      unfold Fleet.step at hs
      dsimp only at hs
      split at hs
      · rename_i hle
        cases hs
        intro p
        obtain ⟨hl, hw, last, hlast, hk⟩ := h p
        exact ⟨hl, hw, last, hlast.trans hle, hk⟩
      · cases hs
  | complete s now =>
      unfold Fleet.step at hs
      dsimp only at hs
      split at hs
      · rename_i hle
        cases hs
        intro p
        obtain ⟨hl, hw, last, hlast, hk⟩ := h p
        by_cases hp : proc s = p
        · subst hp
          obtain ⟨hcalls, hpassed⟩ := (f.guards (proc s)).tryAcquire_calls now
          obtain ⟨hl', hw'⟩ := (f.guards (proc s)).tryAcquire_settings now
          rw [hl, hw] at hcalls hpassed
          refine ⟨?_, ?_, now, le_refl now, ?_⟩
          · simp only [Function.update_self]; exact hl'.trans hl
          · simp only [Function.update_self]; exact hw'.trans hw
          · have hstep := hk.take (hlast.trans hle.1) (by decide +kernel)
            rw [← hcalls, ← hpassed] at hstep
            simp only [Function.update_self]
            split at hstep
            · rename_i hpass
              rw [if_pos hpass, callsOf_append, if_pos rfl]
              exact hstep
            · rename_i hpass
              rw [if_neg hpass]
              exact hstep
        · -- another process's guard has not been asked
          refine ⟨?_, ?_, last, hlast.trans hle.1, ?_⟩
          · simp only [Function.update_of_ne (Ne.symm hp)]; exact hl
          · simp only [Function.update_of_ne (Ne.symm hp)]; exact hw
          · simp only [Function.update_of_ne (Ne.symm hp)]
            split
            · rw [callsOf_append, if_neg hp]; exact hk
            · exact hk
      · cases hs

theorem books_reachable (h : (Fleet.machine capacity proc).Reachable f) : Books capacity f :=
  h.invariant books_init fun _ hi _ hs => books_step hi hs

/-- Each process keeps to the limit by itself. -/
theorem callsOf_le (h : Books capacity f) (p : P) (start : Time) :
    Window.inWindow MockLLMProvider.guardWindow (callsOf p f.issued) start ≤ capacity := by
  obtain ⟨-, -, last, -, hk⟩ := h p
  exact hk.bound start

/-- A single process makes all the calls. -/
theorem callsOf_subsingleton [Subsingleton P] (p : P) (issued : List (P × Time)) :
    callsOf p issued = issued.map (·.2) := by
  unfold callsOf
  rw [List.filter_eq_self.mpr fun x _ => decide_eq_true (Subsingleton.elim x.1 p)]

/-- So where there is one process the limit holds for all calls. -/
theorem single_le [Subsingleton P] (p : P) (h : Books capacity f) (start : Time) :
    f.callsInMinute start ≤ capacity := by
  have hle := callsOf_le h p start
  rw [callsOf_subsingleton] at hle
  exact hle

/-- A guard of nothing lets nothing through. -/
theorem issued_nil (h : Books 0 f) : f.issued = [] := by
  refine List.eq_nil_iff_forall_not_mem.mpr fun x hx => ?_
  have hle := callsOf_le h x.1 x.2
  have hmem : x.2 ∈ callsOf x.1 f.issued :=
    List.mem_map_of_mem (List.mem_filter.mpr ⟨hx, decide_eq_true rfl⟩)
  have hpos : 0 < Window.inWindow MockLLMProvider.guardWindow (callsOf x.1 f.issued) x.2 := by
    refine List.countP_pos_iff.mpr ⟨x.2, hmem, decide_eq_true ⟨le_refl _, ?_⟩⟩
    simp [MockLLMProvider.guardWindow]
  omega

/-! ## Two processes -/

/-- A pipeline that is granted by the limiter and let through by its guard. -/
theorem issue_reachable {s : WorkerId} {now : Time} {key : Option BucketKey}
    {guard : SlidingWindowGuard} (hf : (Fleet.machine capacity proc).Reachable f)
    (hle : f.clock ≤ now) (hkey : RedisTokenBucketLimiter.tryAcquire capacity
      (Fleet.refillPerSec capacity) now now f.redis = (key, true))
    (hg : (f.guards (proc s)).tryAcquire now = (guard, true)) :
    ∃ g, (Fleet.machine capacity proc).Reachable g ∧ g.clock = now ∧ g.redis = key ∧
      g.guards = Function.update f.guards (proc s) guard ∧
      g.issued = f.issued ++ [(proc s, now)] := by
  have hacq : (Fleet.machine capacity proc).step f (.acquire s now) = some { f with
      redis := key
      admitted := Function.update f.admitted s true
      clock := now } := by
    simp only [Fleet.machine, Fleet.step, if_pos hle, hkey]
  have hcomp : (Fleet.machine capacity proc).step { f with
      redis := key
      admitted := Function.update f.admitted s true
      clock := now } (.complete s now) = some { f with
      redis := key
      guards := Function.update f.guards (proc s) guard
      admitted := Function.update (Function.update f.admitted s true) s false
      clock := now
      issued := f.issued ++ [(proc s, now)] } := by
    simp only [Fleet.machine, Fleet.step, hg, if_true]
    exact if_pos ⟨le_refl now, Function.update_self _ _ _⟩
  exact ⟨_, (hf.tail trivial hacq).tail trivial hcomp, rfl, rfl, rfl, rfl⟩

/-- A guard that has room lets a call through. -/
theorem guard_passes {calls : List Time} {now : Time} (hroom : calls.length < capacity) :
    ∃ kept, (⟨capacity, MockLLMProvider.guardWindow, calls⟩ : SlidingWindowGuard).tryAcquire now
      = (⟨capacity, MockLLMProvider.guardWindow, kept ++ [now]⟩, true) ∧
      kept.length ≤ calls.length := by
  have hlen := (List.dropWhile_sublist
    (fun t => decide (t < now - MockLLMProvider.guardWindow)) (l := calls)).length_le
  refine ⟨_, ?_, hlen⟩
  unfold SlidingWindowGuard.tryAcquire
  dsimp only
  rw [if_neg (by omega)]

/-- What slot 0 has taken from the limiter by `k` calls, all at the start. -/
structure Drained (capacity : Nat) (proc : WorkerId → P) (k : ℕ) (f : Fleet P) : Prop where
  clock : f.clock = 0
  redis : k = 0 ∧ f.redis = none ∨
    f.redis = some ⟨⟨capacity - k, 0⟩, 0 + RedisTokenBucketLimiter.expireSeconds⟩
  guard : ∃ calls, f.guards (proc 0) = ⟨capacity, MockLLMProvider.guardWindow, calls⟩ ∧
    calls.length ≤ k
  /-- The other processes have not called yet. -/
  others : ∀ p, p ≠ proc 0 → f.guards p = .new capacity MockLLMProvider.guardWindow
  issued : f.issued.map (·.2) = List.replicate k 0

/-- One process can take all tokens at once. -/
theorem drained_reachable {k : ℕ} (hk : k ≤ capacity) :
    ∃ f, (Fleet.machine capacity proc).Reachable f ∧ Drained capacity proc k f := by
  induction k with
  | zero =>
      exact ⟨_, Machine.ReachableWhere.init, rfl, .inl ⟨rfl, rfl⟩, ⟨[], rfl, Nat.zero_le 0⟩,
        fun _ _ => rfl, rfl⟩
  | succ k ih =>
      obtain ⟨f, hf, hd⟩ := ih (by omega)
      obtain ⟨calls, hguard, hlen⟩ := hd.guard
      obtain ⟨kept, hpass, hkept⟩ := @guard_passes capacity calls 0 (by omega)
      have hopen : opened capacity (BucketKey.read f.redis 0) 0 = ⟨capacity - k, 0⟩ := by
        rcases hd.redis with ⟨rfl, hr⟩ | hr
        · rw [hr]; simp [opened, BucketKey.read]
        · rw [hr, BucketKey.read_live]
          · rfl
          · simp [RedisTokenBucketLimiter.expireSeconds]
      have hkey : RedisTokenBucketLimiter.tryAcquire capacity (Fleet.refillPerSec capacity) 0 0
          f.redis = (some ⟨⟨capacity - (k + 1 : ℕ), 0⟩,
            0 + RedisTokenBucketLimiter.expireSeconds⟩, true) := by
        unfold RedisTokenBucketLimiter.tryAcquire
        rw [luaTokenBucket_eq, hopen, take_burst hk]
      rw [← hguard] at hpass
      obtain ⟨g, hg, hclock, hredis, hguards, hissued⟩ := issue_reachable hf hd.clock.le hkey hpass
      refine ⟨g, hg, hclock, .inr hredis, ⟨kept ++ [0], ?_, ?_⟩, ?_, ?_⟩
      · rw [hguards]; exact Function.update_self _ _ _
      · rw [List.length_append, List.length_singleton]; omega
      · intro p hp
        rw [hguards]
        exact (Function.update_of_ne hp _ _).trans (hd.others p hp)
      · rw [hissued, List.map_append, hd.issued]
        exact List.replicate_succ'.symm

/-- **The first token that comes back is one call too many.** -/
theorem overrun (hcap : 1 ≤ capacity) (hproc : proc 1 ≠ proc 0) :
    ∃ f, (Fleet.machine capacity proc).Reachable f ∧ f.callsInMinute 0 = capacity + 1 := by
  obtain ⟨f, hf, hd⟩ : ∃ f, (Fleet.machine capacity proc).Reachable f ∧
      Drained capacity proc capacity f := drained_reachable (le_refl capacity)
  have hpos : (0 : Rat) < capacity := Nat.cast_pos.mpr hcap
  have hone : (1 : Rat) ≤ capacity := Nat.one_le_cast.mpr hcap
  -- the time it takes to refill one token
  obtain ⟨back, hb⟩ : ∃ t : Time, t = 60 / capacity := ⟨_, rfl⟩
  have hback : 0 ≤ back := by rw [hb]; exact div_nonneg (by decide +kernel) hpos.le
  have hmin : back ≤ 60 := by rw [hb]; exact div_le_self (by decide +kernel) hone
  have hredis : f.redis = some ⟨⟨0, 0⟩, 120⟩ := by
    rcases hd.redis with ⟨h0, -⟩ | hr
    · omega
    · rw [hr, sub_self, zero_add, RedisTokenBucketLimiter.expireSeconds]
  have hlevel : (⟨0, 0⟩ : Bucket Rat).level (capacity : Rat) (Fleet.refillPerSec capacity) back
      = 1 := by
    have hgain : back * (capacity / 60) = 1 := by
      rw [hb]; field_simp
    unfold Bucket.level Fleet.refillPerSec
    rw [sub_zero, zero_add, hgain]
    exact min_eq_right hone
  have hkey : RedisTokenBucketLimiter.tryAcquire capacity (Fleet.refillPerSec capacity) back back
      f.redis = (some ⟨⟨0, back⟩, back + RedisTokenBucketLimiter.expireSeconds⟩, true) := by
    unfold RedisTokenBucketLimiter.tryAcquire
    rw [hredis, BucketKey.read_live (by dsimp only; linarith), luaTokenBucket_some,
      Bucket.take_granted hlevel.ge, hlevel, sub_self]
  obtain ⟨kept, hpass, -⟩ := @guard_passes capacity [] back hcap
  have hother := hd.others _ hproc
  unfold SlidingWindowGuard.new at hother
  rw [← hother] at hpass
  obtain ⟨g, hg, -, -, -, hissued⟩ := issue_reachable hf (by rw [hd.clock]; exact hback) hkey hpass
  refine ⟨g, hg, ?_⟩
  unfold Fleet.callsInMinute Window.inWindow
  rw [hissued, List.map_append, hd.issued, List.countP_append, List.countP_replicate]
  simp [MockLLMProvider.guardWindow, hback, hmin]

/-! ## The whole system -/

section System

variable {S : Type} [LinearOrder S] {env : Env S} {w w' : World} {e : Event} {now : Time}

/-- A provider call in the history. -/
def isCall : Entry → Bool
  | .llmCalled _ => true
  | _ => false

/-- What a fleet has to do with a run of the system. -/
structure Paced (capacity : Nat) (proc : WorkerId → P) (w : World) (f : Fleet P) : Prop where
  reachable : (Fleet.machine capacity proc).Reachable f
  /-- The calls of the one are the calls of the other. -/
  calls : w.log.countP isCall = f.issued.length

/-- A move that is no provider call adds none to the history. -/
theorem calls_same (h : World.step env w e = some w') (he : ∀ s, e ≠ .llmCall s) :
    w'.log.countP isCall = w.log.countP isCall := by
  rcases call_recorded (move_of_step h) with ⟨es, hlog, hes⟩ | ⟨s, r, emb, rfl, -⟩
  · have hzero : es.countP isCall = 0 := by
      refine List.countP_eq_zero.mpr fun x hx hc => ?_
      cases x <;> first | exact hes _ hx | cases hc
    rw [hlog, List.countP_append, hzero, Nat.add_zero]
  · exact absurd rfl (he s)

/-- A provider call adds one. -/
theorem calls_called {s : WorkerId} (h : World.step env w (.llmCall s) = some w') :
    w'.log.countP isCall = w.log.countP isCall + 1 := by
  have hm := move_of_step h
  cases hm with
  | @think s₀ r _ p hs he ht =>
      obtain ⟨r', es⟩ := p
      cases thought_of_think ht with
      | called hst =>
          change (w.log ++ [Entry.llmCalled r]).countP isCall = _
          rw [List.countP_append]
          rfl

/-- Only a guard issues a call, and one at a time. -/
theorem issued_step {fe : FleetEvent} (hs : Fleet.step capacity proc f fe = some g) :
    g.issued = f.issued ∨
      (∃ s t, fe = .complete s t) ∧ g.issued.length = f.issued.length + 1 := by
  cases fe with
  | leave s => cases hs; exact .inl rfl
  | acquire s t =>
      unfold Fleet.step at hs
      dsimp only at hs
      split at hs <;> cases hs
      exact .inl rfl
  | complete s t =>
      unfold Fleet.step at hs
      dsimp only at hs
      split at hs <;> cases hs
      cases ((f.guards (proc s)).tryAcquire t).2 with
      | true => exact .inr ⟨⟨s, t, rfl⟩, by simp⟩
      | false => exact .inl rfl

/-- The fleet issues a call exactly where the system makes one. -/
theorem fleetSide_issued {fe : FleetEvent} {ok : Fleet P → Bool}
    (hside : World.fleetSide f e now = some (fe, ok))
    (hs : Fleet.step capacity proc f fe = some g) (hok : ok g = true) :
    (∃ s, e = .llmCall s) ∧ g.issued.length = f.issued.length + 1 ∨
      (∀ s, e ≠ .llmCall s) ∧ g.issued.length = f.issued.length := by
  have hst := issued_step hs
  cases e with
  | llmCall s =>
      cases hside
      have hlt : f.issued.length < g.issued.length := of_decide_eq_true hok
      refine .inl ⟨⟨s, rfl⟩, hst.elim (fun h => ?_) And.right⟩
      rw [h] at hlt
      exact absurd hlt (lt_irrefl _)
  | llmLimited s wait message =>
      cases hside
      exact .inr ⟨nofun, (of_decide_eq_true hok).1⟩
  | limiter s answer =>
      cases answer <;> cases hside <;>
        exact .inr ⟨nofun, hst.elim (congrArg _) fun h => by obtain ⟨⟨_, _, h⟩, -⟩ := h; cases h⟩
  | cancel s | abort s | crash s =>
      cases hside
      exact .inr ⟨nofun, hst.elim (congrArg _) fun h => by obtain ⟨⟨_, _, h⟩, -⟩ := h; cases h⟩
  | _ => cases hside

/-- **One throttled move is a move of the fleet, or none of its business.** -/
theorem paced_step {w₀ w₁ : World} (hi : Paced capacity proc w₀ f)
    (h : World.throttledStep env capacity proc (w₀, f) (e, now) = some (w₁, g)) :
    Paced capacity proc w₁ g := by
  obtain ⟨w, hw, h⟩ := Option.bind_eq_some_iff.mp h
  cases hside : World.fleetSide f e now with
  | none =>
      rw [hside] at h
      cases h
      have hne : ∀ s, e ≠ .llmCall s := by
        rintro s rfl
        cases hside
      exact ⟨hi.reachable, (calls_same hw hne).trans hi.calls⟩
  | some side =>
      obtain ⟨fe, ok⟩ := side
      rw [hside] at h
      obtain ⟨f', hf', heq⟩ := Option.map_eq_some_iff.mp h
      cases heq
      obtain ⟨hstep, hok⟩ := Option.filter_eq_some_iff.mp hf'
      refine ⟨hi.reachable.tail trivial hstep, ?_⟩
      rcases fleetSide_issued hside hstep hok with ⟨⟨s, rfl⟩, hlen⟩ | ⟨hne, hlen⟩
      · rw [calls_called hw, hi.calls, hlen]
      · rw [calls_same hw hne, hi.calls, hlen]

/-- **A throttled run is a run of the fleet.** -/
theorem paced_reachable {x : World × Fleet P}
    (h : (World.throttled env capacity proc).Reachable x) : Paced capacity proc x.1 x.2 :=
  h.invariant ⟨Machine.ReachableWhere.init, rfl⟩ fun _ hi _ hs => paced_step hi hs

/-- A single worker process keeps the whole system within its calls per minute. -/
theorem throttled_single [Subsingleton P] {x : World × Fleet P}
    (h : (World.throttled env capacity proc).Reachable x) (start : Time) :
    x.2.callsInMinute start ≤ capacity :=
  single_le (proc 0) (books_reachable (paced_reachable h).reachable) start

end System

/--
**The calls of a minute.** However the pipelines of all processes interleave, no minute
sees more than `capacity` provider calls, if and only if there are not two processes
(or there is nothing to call with).
-/
theorem rate_budget_iff (capacity processes : ℕ) :
    (∀ (proc : WorkerId → Fin processes) f, (Fleet.machine capacity proc).Reachable f →
      ∀ start, f.callsInMinute start ≤ capacity) ↔ processes ≤ 1 ∨ capacity = 0 := by
  constructor
  · intro h
    by_contra hn
    push Not at hn
    obtain ⟨hp, hc⟩ := hn
    let proc : WorkerId → Fin processes := fun s => if s = 0 then ⟨0, by omega⟩ else ⟨1, hp⟩
    have hne : proc 1 ≠ proc 0 := by simp [proc]
    obtain ⟨f, hf, hcount⟩ := overrun (Nat.one_le_iff_ne_zero.mpr hc) hne
    have hle := h proc f hf 0
    omega
  · rintro (hp | rfl) proc f hf start
    · have hsub : Subsingleton (Fin processes) := Fin.subsingleton_iff_le_one.mpr hp
      exact single_le (proc 0) (books_reachable hf) start
    · unfold Fleet.callsInMinute
      rw [issued_nil (books_reachable hf)]
      exact Nat.le_refl 0

/-- **The shipped limit, on two replicas:** a minute of 301 calls. -/
theorem rate_budget_overrun : ¬ ∀ (processes : ℕ) (proc : WorkerId → Fin processes) f,
    (Fleet.machine 300 proc).Reachable f → ∀ start, f.callsInMinute start ≤ 300 := by
  intro h
  let proc : WorkerId → Fin 2 := fun s => if s = 0 then 0 else 1
  obtain ⟨f, hf, hcount⟩ := @overrun _ _ 300 proc (by decide) (by simp [proc])
  have hle := h 2 proc f hf 0
  omega

end PromptQueue.Proof
