import PromptQueue.Proof.CacheAgree

/-!
# One provider call for each prompt

What keeps two prompts of one hash from both calling the provider is the cache, and
the cache knows of a call only when its answer has been stored. Between the two the
pipeline is on its own: another of the same hash misses as well.

`Alone` is a run in which that does not happen: whoever calls finds neither a row
nor a pipeline that is asking, and whoever asks gets to its store. There a hash that
was called is either being asked about by one pipeline or in the cache (`kept`), and
everything said to a requester of the hash is what the cache says.
-/

namespace PromptQueue

open Base

/-- The stages between a provider call and the store of its answer. -/
def Stage.asking : Stage → Bool
  | .llmWait _ | .store _ _ => true
  | _ => false

/-- The answer a stage is about to give. -/
def Stage.answer : Stage → Option String
  | .incrementHit x _ => some x.response
  | .finishRequest resp _ _ => some resp
  | _ => none

/-- The embedding a stage is about to look up. -/
def Stage.seeking : Stage → Option Vector
  | .findNearest emb => some emb
  | _ => none

/-- What the vector index puts first in a pipeline's next transaction. -/
def Event.nearest : Event → Option (Option Nat)
  | .pipeline _ _ top1 => some top1
  | _ => none

/-- The events that keep a pipeline from its next step. -/
def Event.interrupts : Event → Bool
  | .llmRaise _ _ => true
  | e => e.breaks

/-- A call of the provider. -/
def Event.asks : Event → Bool
  | .llmCall _ => true
  | _ => false

/-- The run in a slot. -/
def World.runIn (w : World) (s : WorkerId) : Option Run :=
  match w.slots s with
  | .running r => some r
  | _ => none

variable {S : Type} [LinearOrder S]

/-- The hash a run works for. -/
def Run.hash (env : Env S) (r : Run) : Digest := env.hashText r.req.text

/-- A provider call for a prompt of this hash. -/
def Entry.callsHash (env : Env S) (d : Digest) : Entry → Bool
  | .llmCalled r => r.hash env = d
  | _ => false

/-- How often the provider was called for the prompts of a hash. -/
def callsOf (env : Env S) (log : List Entry) (d : Digest) : Nat :=
  log.countP (Entry.callsHash env d)

/-- One call at most for each hash, and its answer for every request of the hash. -/
def SingleCall (env : Env S) (w : World) : Prop :=
  ∀ d, callsOf env w.log d ≤ 1 ∧ ∀ q ∈ w.db.requests.rows, q.status = .completed →
    q.textHash = d → ∀ r resp, Entry.llmReturned r resp ∈ w.log → r.hash env = d →
      q.response = some resp

variable (env : Env S)

/-- The row a tier-2 lookup is about to hit. -/
def World.nearHit (w : World) (e : Event) : Option SemanticCache :=
  (w.runOf e).bind fun r => r.stage.seeking.bind fun emb => e.nearest.bind fun top1 =>
    (SemanticCacheRepository.findNearest env.similarity w.db emb env.threshold top1).map (·.1)

/-- Nobody is kept from storing an answer that was asked for. -/
def Undisturbed (w : World) (e : Event) : Prop :=
  ∀ r ∈ w.runOf e, r.stage.asking = true → e.interrupts = false

/--
Whoever calls the provider for a hash finds nothing under it in the cache and no
request of it answered; whoever takes the answer to another text finds nothing in
the cache under its own hash.
-/
def Unserved (w : World) (e : Event) : Prop :=
  ∀ r ∈ w.runOf e,
    (e.asks = true → (∀ x ∈ w.db.cache.rows, x.textHash ≠ r.hash env) ∧
      ∀ q ∈ w.db.requests.rows, q.status = .completed → q.textHash ≠ r.hash env) ∧
    ∀ x ∈ w.nearHit env e, x.textHash ≠ r.hash env →
      ∀ y ∈ w.db.cache.rows, y.textHash ≠ r.hash env

/--
Whoever calls finds the run in this slot neither asking about its hash nor about to
answer it; whoever takes the answer to another text finds it not asking.
-/
def Uncontended (w : World) (e : Event) (s : WorkerId) : Prop :=
  ∀ r ∈ w.runOf e, ∀ r' ∈ w.runIn s, r'.hash env = r.hash env →
    (e.asks = true → r'.stage.asking = false ∧ r'.stage.answer = none) ∧
    ∀ x ∈ w.nearHit env e, x.textHash ≠ r.hash env → r'.stage.asking = false

/-- A step in which every hash has one pipeline at most that asks about it. -/
structure Alone (w : World) (e : Event) : Prop where
  undisturbed : Undisturbed w e
  unserved : Unserved env w e
  uncontended : ∀ s, Uncontended env w e s

instance (w : World) : DecidablePred (Undisturbed w) :=
  fun e => inferInstanceAs (Decidable (∀ r ∈ w.runOf e, _))

instance (w : World) : DecidablePred (Unserved env w) :=
  fun e => inferInstanceAs (Decidable (∀ r ∈ w.runOf e, _))

instance (w : World) (e : Event) : DecidablePred (Uncontended env w e) :=
  fun s => inferInstanceAs (Decidable (∀ r ∈ w.runOf e, ∀ r' ∈ w.runIn s, _))

end PromptQueue

namespace PromptQueue.Proof

open PromptQueue Base World

variable {S : Type} [LinearOrder S] {env : Env S} {w w' : World} {e : Event}

/-! ## Asking -/

theorem runIn_eq {s : WorkerId} {r : Run} (hr : w.slots s = .running r) : w.runIn s = some r := by
  simp [runIn, hr]

theorem hash_same {r r' : Run} (h : SameRun r r') : r'.hash env = r.hash env := by
  unfold Run.hash
  rw [h.2.1]

/-- Nobody asks or answers from within the failure handler. -/
theorem quiet_of_not_inRun {x : Stage} (h : PromptPipeline.inRun x = false) :
    x.asking = false ∧ x.answer = none := by
  cases x <;> first | exact ⟨rfl, rfl⟩ | cases h

theorem handleFailure_quiet (job : ProcessingJob) (exc : Exc) :
    (PromptPipeline.handleFailure job exc).asking = false ∧
      (PromptPipeline.handleFailure job exc).answer = none :=
  quiet_of_not_inRun (PromptPipeline.handleFailure_not_inRun job exc)

theorem fail_quiet (r : Run) (exc : Exc) :
    (PromptPipeline.fail r exc).asking = false ∧ (PromptPipeline.fail r exc).answer = none :=
  quiet_of_not_inRun (PromptPipeline.fail_not_inRun r exc)

/-- No repository call makes a pipeline ask. -/
theorem resume_not_asking {r : Run} {now : Time} {top1 : Option Nat} {t : Tx}
    (ht : PromptPipeline.call env r now top1 = some t) (db : Db) :
    (PromptPipeline.resume env r (db.exec t).2).asking = false := by
  obtain ⟨x, hx, hturn⟩ := PromptPipeline.turn_of_call db ht
  rw [hx]
  cases hturn <;> rfl

/-- A pipeline that is asking was asking before, or has just called. -/
theorem asking_back {s : WorkerId} {r r' : Run} (h : RunStep env w e s r r')
    (ha : r'.stage.asking = true) :
    r.stage.asking = true ∨ (e = .llmCall s ∧ ∃ emb, r.stage = .llm emb) := by
  cases h with
  | same he => exact .inl ha
  | beat hl => exact .inl ha
  | @wrote _ _ now top1 t ht =>
      have hn := resume_not_asking ht w.db
      exact absurd (hn.symm.trans ha) Bool.false_ne_true
  | thought he hth =>
      cases hth with
      | @called s₀ emb hst =>
          cases he
          exact .inr ⟨rfl, emb, hst⟩
      | answered hst => exact .inl (by rw [hst]; rfl)
      | dbError hc => simp [fail_quiet] at ha
      | unavailable hst => simp [handleFailure_quiet] at ha
      | failed hx hst => simp [handleFailure_quiet] at ha
      | _ => cases ha

/-- **Whoever is asking goes on asking until it stores.** -/
theorem asking_forward (h : Move env w e w') (hH : Alone env w e) {s : WorkerId} {r : Run}
    (hr : w.slots s = .running r) (ha : r.stage.asking = true) :
    (∃ r', w'.slots s = .running r' ∧ RunStep env w e s r r' ∧ r'.stage.asking = true ∧
      ∀ emb resp, r.stage = .store emb resp → r'.stage = .store emb resp) ∨
    ∃ now top1 emb resp, e = .pipeline s now top1 ∧ r.stage = .store emb resp := by
  have still : e.slot = some s → e.interrupts = true → False := by
    intro he hx
    have := hH.undisturbed r (runOf_eq he hr) ha
    rw [hx] at this
    cases this
  rcases run_forward h hr with ⟨r', hr', hst⟩ | rfl | ⟨-, how, hd⟩
  · cases hst with
    | same he => exact .inl ⟨r, hr', .same he, ha, fun _ _ hs => hs⟩
    | beat hl => exact .inl ⟨_, hr', .beat hl, ha, fun _ _ hs => hs⟩
    | @wrote _ _ now top1 t ht =>
        obtain ⟨x, -, hturn⟩ := PromptPipeline.turn_of_call w.db ht
        cases hturn with
        | stored hrs => exact .inr ⟨now, top1, _, _, rfl, hrs⟩
        | _ => simp_all [Stage.asking]
    | thought he hth =>
        cases hth with
        | answered hst =>
            refine .inl ⟨_, hr', .thought he (.answered hst), rfl, fun _ _ hs => ?_⟩
            rw [hst] at hs
            cases hs
        | dbError hc => exact (still he rfl).elim
        | failed hx hst => exact (still he rfl).elim
        | cancelled hst hl => exact (still he rfl).elim
        | aborted hst => exact (still he rfl).elim
        | granted hst => rw [hst] at ha; cases ha
        | denied hst => rw [hst] at ha; cases ha
        | unavailable hst => rw [hst] at ha; cases ha
        | guarded hst => rw [hst] at ha; cases ha
        | called hst => rw [hst] at ha; cases ha
  · exact (still rfl rfl).elim
  · rw [hd] at ha; cases ha

/-! ## Answering -/

/-- The ways a pipeline comes to have an answer. -/
inductive Answered (env : Env S) (w : World) : Event → WorkerId → Run → String → Prop where
  /-- It had it. -/
  | kept {e : Event} {s : WorkerId} {r : Run} {resp : String} (ha : r.stage.answer = some resp) :
      Answered env w e s r resp
  /-- Tier 1 found it. -/
  | exact {e : Event} {s : WorkerId} {r : Run} {resp : String}
      (hh : w.Holds (r.hash env) resp) : Answered env w e s r resp
  /-- Tier 2 found it. -/
  | near {e : Event} {s : WorkerId} {r : Run} {x : SemanticCache} (he : e.slot = some s)
      (hx : x ∈ w.db.cache.rows) (hn : w.nearHit env e = some x) : Answered env w e s r x.response
  /-- It stored it. -/
  | stored {s : WorkerId} {now : Time} {top1 : Option Nat} {r : Run} {emb : Vector}
      {resp : String} (hst : r.stage = .store emb resp) :
      Answered env w (.pipeline s now top1) s r resp

/-- **Where a pipeline's answer comes from.** -/
theorem answered_of_step {s : WorkerId} {r r' : Run} {resp : String}
    (hr : w.slots s = .running r) (h : RunStep env w e s r r')
    (ha : r'.stage.answer = some resp) : Answered env w e s r resp := by
  cases h with
  | same he => exact .kept ha
  | beat hl => exact .kept ha
  | thought he hth =>
      cases hth with
      | dbError hc => simp [fail_quiet] at ha
      | unavailable hst => simp [handleFailure_quiet] at ha
      | failed hx hst => simp [handleFailure_quiet] at ha
      | _ => cases ha
  | @wrote _ _ now top1 t ht =>
      obtain ⟨st, hst', hturn⟩ := PromptPipeline.turn_of_call w.db ht
      rw [hst'] at ha
      cases hturn with
      | @hitExact x hst hf =>
          obtain ⟨hx, hd⟩ := findExact_some hf
          exact .exact ⟨x, hx, hd, Option.some.inj ha⟩
      | @hitNearest emb x sim hst hf =>
          have hrun : w.runOf (.pipeline s now top1) = some r := runOf_eq rfl hr
          have hnear : w.nearHit env (.pipeline s now top1) = some x := by
            simp [nearHit, hrun, hst, Stage.seeking, Event.nearest, hf]
          cases Option.some.inj ha
          exact .near rfl (findNearest_some hf).1 hnear
      | counted hst => exact .kept (by rw [hst]; exact ha)
      | stored hst =>
          cases Option.some.inj ha
          exact .stored hst
      | _ => cases ha

/-! ## The invariant -/

/-- The provider was called for a prompt of this hash. -/
def Called (env : Env S) (log : List Entry) (d : Digest) : Prop :=
  ∃ r, Entry.llmCalled r ∈ log ∧ r.hash env = d

/-- What is known of a hash that was called. -/
structure Solo (env : Env S) (w : World) : Prop where
  /-- One pipeline at most is asking about a hash. -/
  single : ∀ {s s' r r'}, w.slots s = .running r → w.slots s' = .running r' →
    r.stage.asking = true → r'.stage.asking = true → r.hash env = r'.hash env → s = s'
  /-- While one is, there is no row for the hash. -/
  unstored : ∀ {s r x}, w.slots s = .running r → r.stage.asking = true →
    x ∈ w.db.cache.rows → x.textHash ≠ r.hash env
  /-- Whoever is asking called. -/
  asked : ∀ {s r}, w.slots s = .running r → r.stage.asking = true → Called env w.log (r.hash env)
  /-- What is in the cache was asked for. -/
  filed : ∀ {x}, x ∈ w.db.cache.rows → Called env w.log x.textHash
  /-- What was asked for is on its way or in the cache. -/
  kept : ∀ {d}, Called env w.log d →
    (∃ s r, w.slots s = .running r ∧ r.stage.asking = true ∧ r.hash env = d) ∨
      ∃ x ∈ w.db.cache.rows, x.textHash = d
  /-- So is what the provider said. -/
  returned : ∀ {r resp}, Entry.llmReturned r resp ∈ w.log →
    (∃ s r' emb, w.slots s = .running r' ∧ r'.stage = .store emb resp ∧
      r'.hash env = r.hash env) ∨ w.Holds (r.hash env) resp
  /-- Who is about to answer a hash that was called says what the cache says. -/
  serving : ∀ {s r resp}, w.slots s = .running r → r.stage.answer = some resp →
    Called env w.log (r.hash env) → w.Holds (r.hash env) resp
  /-- And so did who has answered it. -/
  completed : ∀ {q}, q ∈ w.db.requests.rows → q.status = .completed →
    Called env w.log q.textHash → ∃ resp, q.response = some resp ∧ w.Holds q.textHash resp
  /-- No hash was called twice. -/
  once : ∀ d, callsOf env w.log d ≤ 1

theorem solo_init : Solo env World.init where
  single := nofun
  unstored := nofun
  asked := nofun
  filed := nofun
  kept := by rintro d ⟨r, hr, -⟩; cases hr
  returned := nofun
  serving := nofun
  completed := nofun
  once := fun d => Nat.zero_le 1

theorem called_mono (h : Move env w e w') {d : Digest} (hc : Called env w.log d) :
    Called env w'.log d := by
  obtain ⟨r, hr, hd⟩ := hc
  exact ⟨r, (log_grows h).subset hr, hd⟩

/-- A hash that was called was called before, or by the run that calls now. -/
theorem called_back (h : Move env w e w') {d : Digest} (hc : Called env w'.log d) :
    Called env w.log d ∨ ∃ s r emb, e = .llmCall s ∧ w.slots s = .running r ∧
      r.stage = .llm emb ∧ r.hash env = d := by
  obtain ⟨r, hr, hd⟩ := hc
  rcases call_recorded h with ⟨es, hlog, hnone⟩ | ⟨s, r₀, emb, he, hs, hst, hlog⟩
  · rw [hlog] at hr
    rcases List.mem_append.mp hr with hr | hr
    · exact .inl ⟨r, hr, hd⟩
    · exact absurd hr (hnone r)
  · rw [hlog] at hr
    rcases List.mem_append.mp hr with hr | hr
    · exact .inl ⟨r, hr, hd⟩
    · cases List.mem_singleton.mp hr
      exact .inr ⟨s, r, emb, he, hs, hst, hd⟩

/-- A hash nobody is asking about, and that the cache does not have, was never called. -/
theorem not_called (hi : Solo env w) {d : Digest} (hx : ∀ x ∈ w.db.cache.rows, x.textHash ≠ d)
    (hs : ∀ s r, w.slots s = .running r → r.hash env = d → r.stage.asking = false) :
    ¬ Called env w.log d := by
  intro hc
  rcases hi.kept hc with ⟨s, r, hr, ha, hd⟩ | ⟨x, hxm, hd⟩
  · rw [hs s r hr hd] at ha
    cases ha
  · exact hx x hxm hd

/-- Whoever calls, calls first. -/
theorem first_call (hH : Alone env w e) (hi : Solo env w) {s : WorkerId} {r : Run}
    (he : e = .llmCall s) (hr : w.slots s = .running r) : ¬ Called env w.log (r.hash env) := by
  subst he
  have hrun : w.runOf (.llmCall s) = some r := runOf_eq rfl hr
  refine not_called hi ((hH.unserved r hrun).1 rfl).1 fun s' r' hr' hd => ?_
  exact ((hH.uncontended s' r hrun r' (runIn_eq hr') hd).1 rfl).1

/-- A run that is asking, seen from before the move. -/
theorem asker_back (h : Move env w e w') {s : WorkerId} {r' : Run}
    (hr' : w'.slots s = .running r') (ha : r'.stage.asking = true) :
    ∃ r, w.slots s = .running r ∧ RunStep env w e s r r' ∧ r'.hash env = r.hash env ∧
      (r.stage.asking = true ∨ e = .llmCall s) := by
  rcases run_cases h hr' with ⟨r, hr, hst⟩ | hc
  · refine ⟨r, hr, hst, hash_same hst.sameRun, ?_⟩
    exact (asking_back hst ha).imp_right (·.1)
  · rw [hc.start] at ha
    cases ha

theorem single_step (h : Move env w e w') (hH : Alone env w e) (hi : Solo env w)
    {s s' : WorkerId} {r r' : Run} (hr : w'.slots s = .running r) (hr' : w'.slots s' = .running r')
    (ha : r.stage.asking = true) (ha' : r'.stage.asking = true)
    (hd : r.hash env = r'.hash env) : s = s' := by
  obtain ⟨x, hx, -, hxd, hxa⟩ := asker_back h hr ha
  obtain ⟨x', hx', -, hxd', hxa'⟩ := asker_back h hr' ha'
  have hdd : x.hash env = x'.hash env := hxd.symm.trans (hd.trans hxd')
  -- whoever calls is the first to call, so the other was not asking before
  rcases hxa with hxa | he
  · rcases hxa' with hxa' | he'
    · exact hi.single hx hx' hxa hxa' hdd
    · exact absurd (hdd ▸ hi.asked hx hxa) (first_call hH hi he' hx')
  · rcases hxa' with hxa' | he'
    · exact absurd (hdd ▸ hi.asked hx' hxa') (first_call hH hi he hx)
    · cases he.symm.trans he'
      rfl

theorem unstored_step (h : Move env w e w') (hH : Alone env w e) (hi : Solo env w)
    {s : WorkerId} {r' : Run} {x' : SemanticCache} (hr' : w'.slots s = .running r')
    (ha : r'.stage.asking = true) (hx' : x' ∈ w'.db.cache.rows) :
    x'.textHash ≠ r'.hash env := by
  obtain ⟨r, hr, hst, hd, hra⟩ := asker_back h hr' ha
  intro heq
  rw [hd] at heq
  rcases entry_origin h hx' with ⟨x, hx, rfl⟩ | hnew
  · have hxd : x.textHash = r.hash env := (entryAfter_textHash x).symm.trans heq
    rcases hra with hra | he
    · exact hi.unstored hr hra hx hxd
    · exact first_call hH hi he hr (hxd ▸ hi.filed hx)
  · -- the row was stored by the one pipeline that asks about the hash, which asks no more
    obtain ⟨s₀, r₀, now, top1, emb, resp, rfl, hr₀, hst₀, rfl⟩ := hnew.run
    have hra : r.stage.asking = true := hra.resolve_right (by intro he; cases he)
    have hss : s₀ = s := hi.single hr₀ hr (by rw [hst₀]; rfl) hra heq
    subst hss
    cases Slot.running.inj (hr₀.symm.trans hr)
    cases hst with
    | same he => exact he rfl
    | thought he hth => cases he
    | wrote ht =>
        have hn := resume_not_asking ht w.db
        exact absurd (hn.symm.trans ha) Bool.false_ne_true

theorem asked_step (h : Move env w e w') (hi : Solo env w) {s : WorkerId} {r' : Run}
    (hr' : w'.slots s = .running r') (ha : r'.stage.asking = true) :
    Called env w'.log (r'.hash env) := by
  obtain ⟨r, hr, hst, hd, hra⟩ := asker_back h hr' ha
  rw [hd]
  rcases hra with hra | rfl
  · exact called_mono h (hi.asked hr hra)
  · cases hst with
    | same he => exact absurd rfl he
    | thought he hth =>
        have hlog := log_thought h hr he hth
        cases hth with
        | called hst => exact ⟨r, by rw [hlog]; simp, rfl⟩

theorem filed_step (h : Move env w e w') (hi : Solo env w) {x' : SemanticCache}
    (hx' : x' ∈ w'.db.cache.rows) : Called env w'.log x'.textHash := by
  rcases entry_origin h hx' with ⟨x, hx, rfl⟩ | hnew
  · rw [entryAfter_textHash]
    exact called_mono h (hi.filed hx)
  · obtain ⟨s, r, now, top1, emb, resp, -, hr, hst, rfl⟩ := hnew.run
    exact called_mono h (hi.asked hr (by rw [hst]; rfl))

theorem kept_step (h : Move env w e w') (hH : Alone env w e) (hi : Solo env w) {d : Digest}
    (hc : Called env w'.log d) :
    (∃ s r, w'.slots s = .running r ∧ r.stage.asking = true ∧ r.hash env = d) ∨
      ∃ x ∈ w'.db.cache.rows, x.textHash = d := by
  rcases called_back h hc with hc | ⟨s, r, emb, rfl, hr, hst, hd⟩
  · rcases hi.kept hc with ⟨s, r, hr, ha, hd⟩ | ⟨x, hx, hd⟩
    · rcases asking_forward h hH hr ha with
        ⟨r', hr', hrs, ha', -⟩ | ⟨now, top1, emb, resp, rfl, hst⟩
      · exact .inl ⟨s, r', hr', ha', (hash_same hrs.sameRun).trans hd⟩
      · -- the one pipeline that asks finds its hash free when it stores
        obtain ⟨x, hx, hxd, -⟩ := entry_stored h hr hst fun x hx => hi.unstored hr ha hx
        exact .inr ⟨x, hx, hxd.trans hd⟩
    · obtain ⟨x', hx', hd', -⟩ := entry_stays h hx
      exact .inr ⟨x', hx', hd'.trans hd⟩
  · rcases run_forward h hr with ⟨r', hr', hrs⟩ | he | ⟨he, -⟩
    · refine .inl ⟨s, r', hr', ?_, (hash_same hrs.sameRun).trans hd⟩
      cases hrs with
      | same he => exact absurd rfl he
      | thought he hth => cases hth with | called hst => rfl
    · cases he
    · cases he

theorem returned_step (h : Move env w e w') (hH : Alone env w e) (hi : Solo env w) {r : Run}
    {resp : String} (hx : Entry.llmReturned r resp ∈ w'.log) :
    (∃ s r' emb, w'.slots s = .running r' ∧ r'.stage = .store emb resp ∧
      r'.hash env = r.hash env) ∨ w'.Holds (r.hash env) resp := by
  rcases entry_cases h hx with hx | hf
  · rcases hi.returned hx with ⟨s, r', emb, hr', hst, hd⟩ | hh
    · have ha : r'.stage.asking = true := by rw [hst]; rfl
      rcases asking_forward h hH hr' ha with ⟨r₂, hr₂, hrs, -, hsame⟩ |
        ⟨now, top1, emb', resp', rfl, hst'⟩
      · exact .inl ⟨s, r₂, emb, hr₂, hsame emb resp hst, (hash_same hrs.sameRun).trans hd⟩
      · refine .inr ?_
        obtain ⟨x, hx, hxd, hxr⟩ := entry_stored h hr' hst fun x hx => hi.unstored hr' ha hx
        exact ⟨x, hx, hxd.trans hd, hxr⟩
    · exact .inr (holds_mono h hh)
  · cases hf with
    | @thought _ s r₀ r₁ es _ hs he hth hx =>
        cases hth with
        | @answered s₀ emb resp₀ hst =>
            cases List.mem_singleton.mp hx
            cases he
            rcases run_forward h hs with ⟨r', hr', hrs⟩ | he | ⟨he, -⟩
            · refine .inl ⟨s, r', emb, hr', ?_, hash_same hrs.sameRun⟩
              cases hrs with
              | same he => exact absurd rfl he
              | thought he hth =>
                  cases hth with
                  | answered hst' => cases hst.symm.trans hst'; rfl
            · cases he
            · cases he
        | _ => simp at hx

theorem serving_step (h : Move env w e w') (hH : Alone env w e) (hi : Solo env w)
    {s : WorkerId} {r' : Run} {resp : String} (hr' : w'.slots s = .running r')
    (ha : r'.stage.answer = some resp) (hc : Called env w'.log (r'.hash env)) :
    w'.Holds (r'.hash env) resp := by
  rcases run_cases h hr' with ⟨r, hr, hst⟩ | hcl
  · rw [hash_same hst.sameRun] at hc ⊢
    rcases called_back h hc with hc | ⟨s₀, r₀, emb, rfl, hr₀, -, hd⟩
    · cases answered_of_step hr hst ha with
      | kept ha => exact holds_mono h (hi.serving hr ha hc)
      | exact hh => exact holds_mono h hh
      | stored hrs =>
          have hra : r.stage.asking = true := by rw [hrs]; rfl
          exact entry_stored h hr hrs fun x hx => hi.unstored hr hra hx
      | @near _ _ _ x he hx hn =>
          by_cases hd : x.textHash = r.hash env
          · exact holds_mono h ⟨x, hx, hd, rfl⟩
          · -- another text's answer is taken only for a hash that was never called
            have hrun : w.runOf e = some r := runOf_eq he hr
            refine absurd hc (not_called hi ((hH.unserved r hrun).2 x hn hd) ?_)
            exact fun s' r' hr' hd' => (hH.uncontended s' r hrun r' (runIn_eq hr') hd').2 x hn hd
    · -- nobody is about to answer a hash that is called only now
      have hnone := ((hH.uncontended s r₀ (runOf_eq rfl hr₀) r (runIn_eq hr) hd.symm).1 rfl).2
      cases hst with
      | same he => rw [hnone] at ha; cases ha
      | thought he hth => cases hth with | called hst => cases ha
  · rw [hcl.start] at ha
    cases ha

theorem completed_step (h : Move env w e w') (ht : Tied env w) (hH : Alone env w e)
    (hi : Solo env w) {q : PromptRequest} (hq' : q ∈ w'.db.requests.rows)
    (hdone : q.status = .completed) (hc : Called env w'.log q.textHash) :
    ∃ resp, q.response = some resp ∧ w'.Holds q.textHash resp := by
  rcases completed_origin h ht hq' hdone with hq | hf
  · rcases called_back h hc with hc | ⟨s₀, r₀, emb, rfl, hr₀, -, hd⟩
    · obtain ⟨resp, hresp, hh⟩ := hi.completed hq hdone hc
      exact ⟨resp, hresp, holds_mono h hh⟩
    · -- nobody calls for a hash that has been answered
      have hno := ((hH.unserved r₀ (runOf_eq rfl hr₀)).1 rfl).2 q hq hdone
      exact absurd hd.symm hno
  · obtain ⟨s, now, top1, r, resp, cached, emb, rfl, hr, hst, -, hhash, hresp, -⟩ := hf.run
    have hhash : q.textHash = r.hash env := hhash
    rw [hhash] at hc ⊢
    refine ⟨resp, hresp, ?_⟩
    rcases called_back h hc with hc | ⟨s₀, r₀, emb, he, -⟩
    · exact holds_mono h (hi.serving hr (by rw [hst]; rfl) hc)
    · cases he

theorem once_step (h : Move env w e w') (hH : Alone env w e) (hi : Solo env w) (d : Digest) :
    callsOf env w'.log d ≤ 1 := by
  have hold := hi.once d
  unfold callsOf at hold ⊢
  rcases call_recorded h with ⟨es, hlog, hnone⟩ | ⟨s, r, emb, he, hr, -, hlog⟩
  · have hzero : es.countP (Entry.callsHash env d) = 0 := by
      refine List.countP_eq_zero.mpr fun x hx => ?_
      cases x with
      | llmCalled r => exact absurd hx (hnone r)
      | _ => exact Bool.false_ne_true
    rw [hlog, List.countP_append, hzero]
    exact hold
  · rw [hlog, List.countP_append, List.countP_singleton]
    split
    · rename_i hd
      have hd : r.hash env = d := of_decide_eq_true hd
      have hzero : w.log.countP (Entry.callsHash env d) = 0 := by
        refine List.countP_eq_zero.mpr fun x hx hxd => ?_
        unfold Entry.callsHash at hxd
        split at hxd
        · rename_i r₀
          exact first_call hH hi he hr ⟨r₀, hx, (of_decide_eq_true hxd).trans hd.symm⟩
        · cases hxd
      rw [hzero]
    · exact hold

theorem solo_step (h : Move env w e w') (ht : Tied env w) (hH : Alone env w e)
    (hi : Solo env w) : Solo env w' where
  single := single_step h hH hi
  unstored := unstored_step h hH hi
  asked := asked_step h hi
  filed := filed_step h hi
  kept := kept_step h hH hi
  returned := returned_step h hH hi
  serving := serving_step h hH hi
  completed := completed_step h ht hH hi
  once := once_step h hH hi

theorem solo_reachable (h : (machine env).ReachableWhere (Alone env) w) : Solo env w :=
  invariant_of_moves h solo_init fun hr hi hH hm => solo_step hm (tied_reachable hr) hH hi

/--
**One provider call for each prompt**, in every run in which nobody calls for a hash
that is being asked about: however many requests there are for a hash, the provider
is called once for all of them, and what it said is the response of each that is
completed.
-/
theorem single_call (h : (machine env).ReachableWhere (Alone env) w) : SingleCall env w := by
  have hi : Solo env w := solo_reachable h
  intro d
  refine ⟨hi.once d, fun q hq hdone hqd r resp hret hd => ?_⟩
  have hcalled : Called env w.log d := by
    rcases hi.returned hret with ⟨s, r', emb, hr', hst, hd'⟩ | ⟨x, hx, hxd, -⟩
    · rw [← hd, ← hd']
      exact hi.asked hr' (by rw [hst]; rfl)
    · rw [← hd, ← hxd]
      exact hi.filed hx
  -- the answer is still in a pipeline, or is the one row of the hash
  obtain ⟨resp', hresp, x, hx, hxd, hxr⟩ := hi.completed hq hdone (hqd ▸ hcalled)
  rcases hi.returned hret with ⟨s, r', emb, hr', hst, hd'⟩ | ⟨y, hy, hyd, hyr⟩
  · have hxh : x.textHash = r'.hash env := hxd.trans (hqd.trans (hd.symm.trans hd'.symm))
    exact absurd hxh (hi.unstored hr' (by rw [hst]; rfl) hx)
  · have hxy : x = y := Table.eq_of_uk hx hy (hxd.trans (hqd.trans (hd.symm.trans hyd.symm)))
    rw [hresp, ← hxr, hxy, hyr]

/-- Two requests for one text, the second claimed after the first is done. -/
def oneAfterTheOther : List Event :=
  submission 0 "p" "a" ++ submission 1 "q" "a" ++ [.claim 0 1 [] (some 1), .pipeline 0 1 none,
    .pipeline 0 1 none, .limiter 0 .granted, .llmCall 0, .llmReturn 0 "answer",
    .pipeline 0 2 none, .pipeline 0 2 none, .pipeline 0 2 none, .next 0,
    .claim 0 3 [] (some 2), .pipeline 0 3 none, .pipeline 0 3 none, .pipeline 0 3 none]

/-- The first is answered by the provider, the second by the cache. -/
theorem single_call_one_after_the_other : ∃ w, w.db.requests.rows.map (·.response)
      = [some "answer", some "answer"] ∧ SingleCall deployment w := by
  obtain ⟨w, hw, ht⟩ := Machine.reachableWhere_of_run (m := machine deployment)
    (H := fun w e => e.slot.all (· < 1) = true ∧ Undisturbed w e ∧ Unserved deployment w e ∧
      Uncontended deployment w e 0) (E := oneAfterTheOther)
    (p := fun w => decide (w.db.requests.rows.map (·.response)
      = [some "answer", some "answer"])) (by decide +kernel)
  refine ⟨w, of_decide_eq_true ht, single_call (hw.imp fun u e hu he => ⟨he.2.1, he.2.2.1, ?_⟩)⟩
  intro s
  rcases Nat.eq_zero_or_pos s with rfl | hpos
  · exact he.2.2.2
  · -- no other slot ever moves
    have hidle : u.slots s = .idle := idle_above hu (fun _ _ h => h.1) hpos
    intro r hr r' hr'
    simp [runIn, hidle] at hr'

/-- **Two requests for one text, claimed together:** both call the provider. -/
theorem called_twice : ∃ w, (machine deployment).Reachable w ∧ ¬ SingleCall deployment w := by
  obtain ⟨w, -, hw, ht⟩ := Machine.reachable_of_run (m := machine deployment)
    (E := twoMisses "a" "a")
    (p := fun w => decide (callsOf deployment w.log (deployment.hashText "a") = 2))
    (by decide +kernel)
  refine ⟨w, hw, fun hs => ?_⟩
  have htwo : callsOf deployment w.log (deployment.hashText "a") = 2 := of_decide_eq_true ht
  have hone := (hs (deployment.hashText "a")).1
  omega

end PromptQueue.Proof
