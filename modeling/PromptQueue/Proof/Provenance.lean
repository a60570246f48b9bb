import PromptQueue.Proof.Replay

/-!
# Where the answers come from

An answer starts its way in the provider, which is free to say anything. It is
carried in the local variables of a pipeline, is written to the cache and to a
request, and is read from the cache again by pipelines that were claimed much
later. `Sourced` follows it through the local variables, one stage at a time; the
rest of the invariant is about the two tables, and there the stages meet.

Nothing is asked of the runs: stale pipelines, retries, crashes and lost races all
carry answers that were given.
-/

namespace PromptQueue

open Base

/-- The provider returned this response for exactly this text. -/
def Asked (log : List Entry) (text response : String) : Prop :=
  ∃ r, Entry.llmReturned r response ∈ log ∧ r.req.text = text

variable {S : Type} [LinearOrder S] (env : Env S)

/-- The provider returned this response for a text the service takes to be the same. -/
def Answers (log : List Entry) (text response : String) : Prop :=
  ∃ t, Asked log t response ∧ (env.hashText t = env.hashText text ∨
    env.threshold < env.similarity (env.embed t) (env.embed text))

/-- What the local variables of a pipeline hold. -/
def Sourced (log : List Entry) (r : Run) : Prop :=
  match r.stage with
  | .findNearest emb | .tryAcquire emb | .llm emb | .llmWait emb => emb = env.embed r.req.text
  | .store emb resp => emb = env.embed r.req.text ∧ Asked log r.req.text resp
  | .incrementHit e _ => Answers env log r.req.text e.response
  | .finishRequest resp _ _ => Answers env log r.req.text resp
  | _ => True

/-- Where a cache row comes from. -/
structure CacheSourced (log : List Entry) (x : SemanticCache) : Prop where
  /-- It is filed under the hash of its text. -/
  hash : x.textHash = env.hashText x.promptText
  /-- It has the embedding of its text. -/
  embedding : x.embedding = env.embed x.promptText
  /-- The provider said so. -/
  asked : Asked log x.promptText x.response

/-- Where the rows of the two tables come from. -/
structure Provenance (w : World) : Prop where
  cached : ∀ {x}, x ∈ w.db.cache.rows → CacheSourced env w.log x
  /-- One row for each hash. -/
  single : ∀ {x y}, x ∈ w.db.cache.rows → y ∈ w.db.cache.rows → x.textHash = y.textHash → x = y
  completed : ∀ {q}, q ∈ w.db.requests.rows → q.status = .completed →
    ∃ resp, q.response = some resp ∧ Answers env w.log q.text resp

end PromptQueue

namespace PromptQueue.Proof

open PromptQueue Base World

variable {S : Type} [LinearOrder S] {env : Env S} {w w' : World} {e : Event}
variable {H : World → Event → Prop}

/-! ## The history only adds answers -/

theorem asked_mono (h : Move env w e w') {text resp : String} (ha : Asked w.log text resp) :
    Asked w'.log text resp := by
  obtain ⟨r, hr, ht⟩ := ha
  exact ⟨r, (log_grows h).subset hr, ht⟩

theorem answers_mono (h : Move env w e w') {text resp : String}
    (ha : Answers env w.log text resp) : Answers env w'.log text resp := by
  obtain ⟨t, ht, hs⟩ := ha
  exact ⟨t, asked_mono h ht, hs⟩

theorem cacheSourced_mono (h : Move env w e w') {x : SemanticCache}
    (hx : CacheSourced env w.log x) : CacheSourced env w'.log x :=
  ⟨hx.hash, hx.embedding, asked_mono h hx.asked⟩

theorem sourced_mono (h : Move env w e w') {r : Run} (hr : Sourced env w.log r) :
    Sourced env w'.log r := by
  unfold Sourced at hr ⊢
  split at hr
  all_goals first
    | exact hr
    | exact ⟨hr.1, asked_mono h hr.2⟩
    | exact answers_mono h hr

/-! ## The stages -/

/-- What was asked for a text answers it. -/
theorem answers_of_asked {log : List Entry} {text resp : String} (h : Asked log text resp) :
    Answers env log text resp := ⟨text, h, .inl rfl⟩

/-- An exact hit. -/
theorem answers_of_exact {log : List Entry} {x : SemanticCache} {text : String}
    (hx : CacheSourced env log x) (hh : x.textHash = env.hashText text) :
    Answers env log text x.response := ⟨x.promptText, hx.asked, .inl (hx.hash.symm.trans hh)⟩

/-- A semantic hit. -/
theorem answers_of_nearest {log : List Entry} {x : SemanticCache} {text : String}
    (hx : CacheSourced env log x)
    (hh : env.threshold < env.similarity x.embedding (env.embed text)) :
    Answers env log text x.response := by
  rw [hx.embedding] at hh
  exact ⟨x.promptText, hx.asked, .inr hh⟩

/-- The failure handler holds no answer. -/
theorem sourced_handleFailure (log : List Entry) (r : Run) (exc : Exc) :
    Sourced env log { r with stage := PromptPipeline.handleFailure r.job exc } := by
  unfold Sourced
  rcases PromptPipeline.handleFailure_cases r.job exc with ⟨wait, -, hs⟩ | ⟨-, -, hs⟩ |
    ⟨-, -, -, hs⟩ <;> (rw [hs]; trivial)

/-- What a pipeline holds after a repository call. -/
theorem sourced_wrote (hc : ∀ x ∈ w.db.cache.rows, CacheSourced env w.log x) {r : Run}
    {now : Time} {top1 : Option Nat} {t : Tx} (ht : PromptPipeline.call env r now top1 = some t)
    (hr : Sourced env w.log r) :
    Sourced env w.log { r with stage := PromptPipeline.resume env r (w.db.exec t).2 } := by
  obtain ⟨st, hst', hturn⟩ := PromptPipeline.turn_of_call w.db ht
  rw [hst']
  unfold Sourced at hr
  cases hturn with
  | missedExact hst hf => rfl
  | @hitExact x hst hf =>
      obtain ⟨hx, hd⟩ := findExact_some hf
      exact answers_of_exact (hc x hx) hd
  | missedNearest hst hf => rw [hst] at hr; exact hr
  | @hitNearest emb x sim hst hf =>
      rw [hst] at hr
      have hemb : emb = env.embed r.req.text := hr
      rw [hemb] at hf
      obtain ⟨hx, habove⟩ := findNearest_some hf
      exact answers_of_nearest (hc x hx) habove
  | counted hst => rw [hst] at hr; exact hr
  | stored hst => rw [hst] at hr; exact answers_of_asked hr.2
  | _ => trivial

/-- What a pipeline holds after it thought. -/
theorem sourced_thought (h : Move env w e w') {s : WorkerId} {r r' : Run} {es : List Entry}
    (hs : w.slots s = .running r) (he : thinker e = some s) (ht : Thought env r e r' es)
    (hr : Sourced env w.log r) : Sourced env w'.log r' := by
  have hlog := log_thought h hs he ht
  cases ht with
  | dbError hc =>
      unfold PromptPipeline.fail
      split
      · exact sourced_handleFailure _ r _
      · trivial
  | granted hst => unfold Sourced at hr ⊢; rw [hst] at hr; exact hr
  | called hst => unfold Sourced at hr ⊢; rw [hst] at hr; exact hr
  | unavailable hst => exact sourced_handleFailure _ r _
  | failed hx hst => exact sourced_handleFailure _ r _
  | answered hst =>
      unfold Sourced at hr ⊢
      rw [hst] at hr
      -- the answer enters here, and the history has it
      exact ⟨hr, r, by rw [hlog]; simp, rfl⟩
  | denied hst => trivial
  | guarded hst => trivial
  | cancelled hst hl => trivial
  | aborted hst => trivial

/-! ## The invariant -/

/-- Answers on their way and answers at rest. -/
structure Carried (env : Env S) (w : World) : Prop where
  /-- The local variables of every pipeline. -/
  runs : ∀ {s r}, w.slots s = .running r → Sourced env w.log r
  /-- The cache. -/
  cached : ∀ x ∈ w.db.cache.rows, CacheSourced env w.log x
  /-- The requests. -/
  completed : ∀ {q}, q ∈ w.db.requests.rows → q.status = .completed →
    ∃ resp, q.response = some resp ∧ Answers env w.log q.text resp

theorem carried_init : Carried env World.init where
  runs := nofun
  cached := by intro x hx; cases hx
  completed := nofun

/-- **One move keeps every answer's origin.** -/
theorem carried_step (h : Move env w e w') (ht : Tied env w) (hi : Carried env w) :
    Carried env w' where
  runs := by
    intro s r' hr'
    rcases run_cases h hr' with ⟨r, hr, hst⟩ | hc
    · have hold := hi.runs hr
      cases hst with
      | same he => exact sourced_mono h hold
      | beat hl => exact sourced_mono h hold
      | wrote htx => exact sourced_mono h (sourced_wrote hi.cached htx hold)
      | thought he hth => exact sourced_thought h hr he hth hold
    · obtain ⟨now, locked, pick, j, q, -, -, -, -, -, -, -, rfl⟩ := hc.claim
      trivial
  cached := by
    intro x' hx'
    rcases entry_origin h hx' with ⟨x, hx, rfl⟩ | hst
    · have hold := cacheSourced_mono h (hi.cached x hx)
      have hs : (w.entryAfter env e x).static = x.static := entryAfter_static x
      simp only [SemanticCache.static, Prod.mk.injEq] at hs
      obtain ⟨-, htext, hhash, hemb, hresp, -⟩ := hs
      exact ⟨by rw [hhash, htext]; exact hold.hash, by rw [hemb, htext]; exact hold.embedding,
        by rw [htext, hresp]; exact hold.asked⟩
    · obtain ⟨s, r, now, top1, emb, resp, -, hs, hrs, rfl⟩ := hst.run
      have hold := hi.runs hs
      unfold Sourced at hold
      rw [hrs] at hold
      exact ⟨rfl, hold.1, asked_mono h hold.2⟩
  completed := by
    intro q hq' hc
    rcases completed_origin h ht hq' hc with hq | hf
    · obtain ⟨resp, hresp, ha⟩ := hi.completed hq hc
      exact ⟨resp, hresp, answers_mono h ha⟩
    · obtain ⟨s, now, top1, r, resp, cached, emb, -, hr, hst, htext, -, hresp, -⟩ := hf.run
      have hold := hi.runs hr
      unfold Sourced at hold
      rw [hst] at hold
      exact ⟨resp, hresp, htext ▸ answers_mono h hold⟩

theorem carried_reachable (h : (machine env).ReachableWhere H w) : Carried env w :=
  invariant_of_moves h carried_init fun hr hi _ hm => carried_step hm (tied_reachable hr) hi

/-! ## Cache rows stay -/

/-- An answer stays in the cache. -/
theorem entry_stays (h : Move env w e w') {x : SemanticCache} (hx : x ∈ w.db.cache.rows) :
    ∃ x' ∈ w'.db.cache.rows, x'.textHash = x.textHash ∧ x'.response = x.response := by
  exact ⟨_, entry_goes_on h hx, entryAfter_textHash x, entryAfter_response x⟩

/-- A `store` whose hash is free puts its answer into the cache. -/
theorem entry_stored {s : WorkerId} {now : Time} {top1 : Option Nat}
    (h : Move env w (.pipeline s now top1) w') {r : Run} {emb : Vector} {resp : String}
    (hr : w.slots s = .running r) (hst : r.stage = .store emb resp)
    (hfree : ∀ x ∈ w.db.cache.rows, x.textHash ≠ env.hashText r.req.text) :
    ∃ x ∈ w'.db.cache.rows, x.textHash = env.hashText r.req.text ∧ x.response = resp := by
  have hcall : PromptPipeline.call env r now top1
      = some (.upsert (env.entryFor r.req.promptId r.req.text emb resp) now) := by
    unfold PromptPipeline.call; rw [hst]
  have hiss : w.issued env (.pipeline s now top1)
      = some (.slot s, .upsert (env.entryFor r.req.promptId r.req.text emb resp) now) :=
    issued_pipeline hr hcall
  have hins : (w.db.cache.insert ((env.entryFor r.req.promptId r.req.text emb resp).row now)
      (NewEntry.row_pk _ now)).isSome = true := by
    cases hi : w.db.cache.insert ((env.entryFor r.req.promptId r.req.text emb resp).row now)
        (NewEntry.row_pk _ now) with
    | some t => rfl
    | none =>
        obtain ⟨x, hx, he⟩ := Table.insert_none hi
        exact absurd he (hfree x hx)
  refine ⟨(env.entryFor r.req.promptId r.req.text emb resp).row now w.db.cache.seq, ?_, rfl, rfl⟩
  rw [move_issued h, hiss]
  dsimp only
  rw [Db.exec_cache]
  refine List.mem_append_right _ ?_
  simp [Tx.newEntries, hins]

/-- A cache row keeps everything but its hit counters. -/
theorem entry_kept (h : (machine env).ReachableWhere H w) (hp : (machine env).PathWhere H w w')
    {x : SemanticCache} (hx : x ∈ w.db.cache.rows) :
    ∃ x' ∈ w'.db.cache.rows, x'.static = x.static := by
  refine invariant_of_path (I := fun u => ∃ x' ∈ u.db.cache.rows, x'.static = x.static) hp
    ⟨x, hx, rfl⟩ h fun _ hu _ hm => ?_
  obtain ⟨y, hy, hs⟩ := hu
  exact ⟨_, entry_goes_on hm hy, (entryAfter_static y).trans hs⟩

/--
**Answer provenance.** In every reachable world every cache row is filed under the
hash of its text, with the embedding of its text and a response the provider gave for
it; no two rows share a hash, and no row's response ever changes; and every completed
request has a response the provider gave for its text, for a text with the same hash,
or for one above the threshold.
-/
theorem answer_provenance (h : (machine env).Reachable w) :
    Provenance env w ∧ ∀ w', (machine env).PathWhere Machine.Always w w' →
      ∀ x ∈ w.db.cache.rows, ∃ x' ∈ w'.db.cache.rows, x'.static = x.static := by
  have hi : Carried env w := carried_reachable h
  refine ⟨⟨fun hx => hi.cached _ hx, fun hx hy he => Table.eq_of_uk hx hy he, hi.completed⟩, ?_⟩
  exact fun w' hp x hx => entry_kept h hp hx

/-- One prompt answered by the provider, and one that is served from the cache. -/
theorem answer_provenance_of_hit : ∃ w, w.db.requests.rows.map (fun q => (q.status, q.cached))
      = [(.completed, some false), (.completed, some true)] ∧ Provenance deployment w := by
  obtain ⟨w, -, hw, ht⟩ := Machine.reachable_of_run (m := machine deployment)
    (E := submission 0 "p" "a" ++ submission 1 "q" "a" ++ [.claim 0 1 [] (some 1),
      .pipeline 0 1 none, .pipeline 0 1 none, .limiter 0 .granted, .llmCall 0,
      .llmReturn 0 "answer", .pipeline 0 2 none, .pipeline 0 2 none, .pipeline 0 2 none,
      .next 0, .claim 0 3 [] (some 2), .pipeline 0 3 none, .pipeline 0 3 none,
      .pipeline 0 3 none])
    (p := fun w => decide (w.db.requests.rows.map (fun q => (q.status, q.cached))
      = [(.completed, some false), (.completed, some true)])) (by decide +kernel)
  exact ⟨w, of_decide_eq_true ht, (answer_provenance hw).1⟩

end PromptQueue.Proof
