import PromptQueue.Proof.Provenance

/-!
# The cache and the answers given

A pipeline that called the provider stores the answer and then completes its
request with it, in two transactions and from its own variables. `upsert` keeps
the row that is there, and says nothing, so a pipeline that lost the race for its
hash gives an answer the cache does not have.

Where no `upsert` finds a different answer in its place, the answer and the row
agree from the moment of the store on.
-/

namespace PromptQueue

open Base

/-- The response a stage is about to store. -/
def Stage.storing : Stage → Option String
  | .store _ resp => some resp
  | _ => none

variable {S : Type} [LinearOrder S] (env : Env S)

/-- The cache has this response under this hash. -/
def World.Holds (w : World) (textHash : Digest) (response : String) : Prop :=
  ∃ x ∈ w.db.cache.rows, x.textHash = textHash ∧ x.response = response

/--
Every request the provider answered has its answer in the cache, where the exact
lookup of its text finds it.
-/
def CacheAgrees (w : World) : Prop :=
  ∀ q ∈ w.db.requests.rows, q.status = .completed → q.cached = some false →
    ∃ x ∈ w.db.cache.rows, x.textHash = q.textHash ∧ q.response = some x.response ∧
      SemanticCacheRepository.findExact w.db (env.hashText q.text) = some x

/-- An `upsert` finds its hash free, or the same response under it. -/
def FirstOrSame (w : World) (e : Event) : Prop :=
  ∀ r ∈ w.runOf e, e.writes = true → ∀ resp ∈ r.stage.storing, ∀ x ∈ w.db.cache.rows,
    x.textHash = env.hashText r.req.text → x.response = resp

instance (w : World) : DecidablePred (FirstOrSame env w) :=
  fun e => inferInstanceAs (Decidable (∀ r ∈ w.runOf e, _))

end PromptQueue

namespace PromptQueue.Proof

open PromptQueue Base World

variable {S : Type} [LinearOrder S] {env : Env S} {w w' : World} {e : Event}

theorem holds_mono (h : Move env w e w') {d : Digest} {resp : String} (hh : w.Holds d resp) :
    w'.Holds d resp := by
  obtain ⟨x, hx, hd, hresp⟩ := hh
  obtain ⟨x', hx', hd', hresp'⟩ := entry_stays h hx
  exact ⟨x', hx', hd'.trans hd, hresp'.trans hresp⟩

/-- After a store the cache has what was stored, if it did not have something else. -/
theorem holds_stored {s : WorkerId} {now : Time} {top1 : Option Nat}
    (h : Move env w (.pipeline s now top1) w') {r : Run} {emb : Vector} {resp : String}
    (hr : w.slots s = .running r) (hst : r.stage = .store emb resp)
    (hsame : ∀ x ∈ w.db.cache.rows, x.textHash = env.hashText r.req.text → x.response = resp) :
    w'.Holds (env.hashText r.req.text) resp := by
  -- a row that is there stays, and has the response already
  by_cases hx : ∃ x ∈ w.db.cache.rows, x.textHash = env.hashText r.req.text
  · obtain ⟨x, hx, hd⟩ := hx
    exact holds_mono h ⟨x, hx, hd, hsame x hx hd⟩
  · push Not at hx
    exact entry_stored h hr hst hx

/-- The answers of the provider that are in the cache. -/
structure Agreeing (env : Env S) (w : World) : Prop where
  /-- Those on their way to a request. -/
  finishing : ∀ {s r resp emb}, w.slots s = .running r → r.stage = .finishRequest resp false emb →
    w.Holds (env.hashText r.req.text) resp
  /-- Those that arrived. -/
  completed : ∀ {q}, q ∈ w.db.requests.rows → q.status = .completed → q.cached = some false →
    ∃ resp, q.response = some resp ∧ w.Holds q.textHash resp

theorem agreeing_init : Agreeing env World.init := ⟨nofun, nofun⟩

/-- A pipeline is about to finish with an answer of the provider only when it has stored it. -/
theorem finishing_back {s : WorkerId} {r r' : Run} {resp : String} {emb : Vector}
    (hst : RunStep env w e s r r') (hf : r'.stage = .finishRequest resp false emb) :
    r.stage = .finishRequest resp false emb ∨
      ∃ now top1, e = .pipeline s now top1 ∧ r.stage = .store emb resp := by
  cases hst with
  | same he => exact .inl hf
  | beat hl => exact .inl hf
  | @wrote _ _ now top1 t ht =>
      obtain ⟨x, hx, hturn⟩ := PromptPipeline.turn_of_call w.db ht
      rw [hx] at hf
      cases hturn with
      | stored hrs =>
          cases hf
          exact .inr ⟨now, top1, rfl, hrs⟩
      | _ => cases hf
  | thought he hth =>
      have handled : ∀ exc, PromptPipeline.handleFailure r.job exc
          ≠ .finishRequest resp false emb := by
        intro exc hx
        have hin := PromptPipeline.handleFailure_not_inRun r.job exc
        rw [hx] at hin
        cases hin
      cases hth with
      | unavailable hst => exact (handled (redisUnavailableError _) hf).elim
      | @failed _ _ exc hx hst => exact (handled exc hf).elim
      | dbError hc =>
          dsimp only [PromptPipeline.fail] at hf
          split at hf
          · exact (handled _ hf).elim
          · cases hf
      | _ => cases hf

/-- **One move keeps the answers in the cache.** -/
theorem agreeing_step (h : Move env w e w') (ht : Tied env w) (hH : FirstOrSame env w e)
    (hi : Agreeing env w) : Agreeing env w' where
  finishing := by
    intro s r' resp emb hr' hf
    rcases run_cases h hr' with ⟨r, hr, hst⟩ | hc
    · rw [hst.sameRun.2.1]
      rcases finishing_back hst hf with hf | ⟨now, top1, rfl, hrs⟩
      · exact holds_mono h (hi.finishing hr hf)
      · refine holds_stored h hr hrs fun x hx hd => ?_
        exact hH r (runOf_eq rfl hr) rfl resp (by rw [hrs]; rfl) x hx hd
    · rw [hc.start] at hf
      cases hf
  completed := by
    intro q hq' hc hcached
    rcases completed_origin h ht hq' hc with hq | hf
    · obtain ⟨resp, hresp, hh⟩ := hi.completed hq hc hcached
      exact ⟨resp, hresp, holds_mono h hh⟩
    · obtain ⟨s, now, top1, r, resp, cached, emb, -, hr, hst, -, hhash, hresp, hcach⟩ := hf.run
      cases Option.some.inj (hcach.symm.trans hcached)
      exact ⟨resp, hresp, hhash ▸ holds_mono h (hi.finishing hr hst)⟩

theorem agreeing_reachable (h : (machine env).ReachableWhere (FirstOrSame env) w) :
    Agreeing env w :=
  invariant_of_moves h agreeing_init fun hr hi hH hm => agreeing_step hm (tied_reachable hr) hH hi

/--
**The cache agrees with the answers given**, in every run in which no pipeline
stores an answer in the place of another: what a first requester was told is what
the exact lookup of the same text finds from then on.
-/
theorem cache_agrees (h : (machine env).ReachableWhere (FirstOrSame env) w) :
    CacheAgrees env w := by
  intro q hq hc hcached
  obtain ⟨resp, hresp, x, hx, hd, hxr⟩ := (agreeing_reachable h).completed hq hc hcached
  have hash : q.textHash = env.hashText q.text := (tied_reachable h).hashed hq
  refine ⟨x, hx, hd, by rw [hresp, hxr], ?_⟩
  exact Table.find?_uk hx (hd.trans hash)

/-! ## Two races -/

/-- Two prompts, each claimed by a worker of its own, and no cache row for either. -/
def twoMisses (first second : String) : List Event :=
  submission 0 "p" first ++ submission 1 "q" second ++ [.claim 0 1 [] (some 1),
    .claim 1 1 [] (some 2), .pipeline 0 1 none, .pipeline 1 1 none, .pipeline 0 1 none,
    .pipeline 1 1 none, .limiter 0 .granted, .limiter 1 .granted, .llmCall 0, .llmCall 1]

/-- Both are answered, stored and completed, one step each at a time. -/
def twoAnswers (first second : String) : List Event :=
  [.llmReturn 0 first, .llmReturn 1 second, .pipeline 0 2 none, .pipeline 1 2 none,
    .pipeline 0 3 none, .pipeline 1 3 none]

/-- The same text twice, and the provider says the same twice. -/
theorem cache_agrees_same_answer : ∃ w, w.db.requests.rows.map (·.cached)
      = [some false, some false] ∧ CacheAgrees deployment w := by
  obtain ⟨w, hw, ht⟩ := Machine.reachableWhere_of_run (m := machine deployment)
    (H := FirstOrSame deployment) (E := twoMisses "a" "a" ++ twoAnswers "x" "x")
    (p := fun w => decide (w.db.requests.rows.map (·.cached) = [some false, some false]))
    (by decide +kernel)
  exact ⟨w, of_decide_eq_true ht, cache_agrees hw⟩

/-- **The same text twice, and two answers:** the second requester's is not in the cache. -/
theorem cache_disagrees : ∃ w, (machine deployment).Reachable w ∧ ¬ CacheAgrees deployment w := by
  obtain ⟨w, -, hw, ht⟩ := Machine.reachable_of_run (m := machine deployment)
    (E := twoMisses "a" "a" ++ twoAnswers "x" "y")
    (p := fun w => decide (∃ q ∈ w.db.requests.rows, q.status = .completed ∧
      q.cached = some false ∧ ∀ x ∈ w.db.cache.rows, q.response ≠ some x.response))
    (by decide +kernel)
  obtain ⟨q, hq, hc, hcached, hn⟩ := of_decide_eq_true ht
  refine ⟨w, hw, fun ha => ?_⟩
  obtain ⟨x, hx, -, hresp, -⟩ := ha q hq hc hcached
  exact hn x hx hresp

end PromptQueue.Proof
