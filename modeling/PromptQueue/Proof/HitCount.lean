import PromptQueue.Proof.Workload

/-!
# What the hit counters count

After a hit of either tier the pipeline adds one to the row's `hit_count`, in a transaction
of its own, and writes the row's response to its request in the next. `Counted` ties the
counters to the history: a row's `hit_count` and `last_hit_at` are what its increments make
them, none is lost and none misses its row.

Whether a hit was an answer is another matter. A pipeline may end between the two
transactions, and one that was overtaken answers a request that has its answer already. These
are the hits too many, and there are no others: `hits_step` keeps the account.
-/

namespace PromptQueue

/-- When a hit of a cache row was counted. -/
def Entry.hitAt (id : Nat) : Entry → Option Time
  | .tx _ (.incrementHitCount i now) _ => if i = id then some now else none
  | _ => none

/-- The hits of a cache row, in the order they were counted in. -/
def hitTimes (log : List Entry) (id : Nat) : List Time := log.filterMap (Entry.hitAt id)

/-- About to answer from the cache, with the hit counted. -/
def Stage.servesHit : Stage → Bool
  | .finishRequest _ cached _ => cached
  | _ => false

/-- The same, of the pipeline in a slot. -/
def Slot.servesHit : Slot → Nat
  | .running r => r.stage.servesHit.toNat
  | _ => 0

/-- A request that has an answer from the cache. -/
def PromptRequest.fromCache (q : PromptRequest) : Bool := q.cached = some true

namespace World

/-- The hits the cache has counted. -/
def hits (w : World) : Nat := (w.db.cache.rows.map (·.hitCount)).sum

/-- The requests that have an answer from the cache. -/
def served (w : World) : Nat := w.db.requests.rows.countP PromptRequest.fromCache

/--
A hit that was counted ends here and serves no request more: the pipeline ends before it has
answered, or it, or one with an answer of the provider, answers a request that has been
answered from the cache.
-/
def wastes (w : World) (e : Event) : Bool :=
  (w.runOf e).any fun r => r.stage.servesHit && e.breaks ||
    r.stage.answers && e.writes && w.db.requests.rows.any fun q =>
      q.id = r.req.id && q.fromCache

end World

end PromptQueue

namespace PromptQueue.Proof

open PromptQueue Base World

variable {S : Type} [LinearOrder S] {env : Env S} {w w' : World} {e : Event}

/-! ## The increments -/

/-- Only a pipeline after a hit counts it. -/
theorem hit_issuer {who : Proc} {i : Nat} {now : Time}
    (h : w.issued env e = some (who, .incrementHitCount i now)) :
    ∃ s r top1 x emb, e = .pipeline s now top1 ∧ w.slots s = .running r ∧
      r.stage = .incrementHit x emb ∧ i = x.id := by
  cases issues_of_issued h with
  | call hc hk => cases PromptProcessor.turn_iff.mp hk
  | pipeline hs hr =>
      obtain ⟨x, -, hturn⟩ := PromptPipeline.turn_of_call w.db hr
      cases hturn with
      | counted hst => exact ⟨_, _, _, _, _, rfl, hs, hst, rfl⟩

/-- Nothing else in the history is a hit of a row. -/
theorem hitAt_fresh {i : Nat}
    (hn : ∀ who now, w.issued env e ≠ some (who, .incrementHitCount i now)) {x : Entry}
    (h : Fresh env w e x) : x.hitAt i = none := by
  cases h with
  | @tx _ who t ht =>
      cases t with
      | incrementHitCount i' now =>
          refine if_neg fun hii => hn who now ?_
          rw [ht, hii]
      | _ => rfl
  | lost hj hx => rfl
  | notified => rfl
  | thought hs he hth hx =>
      cases hth <;> simp at hx <;> (rw [hx]; rfl)

/-- The history of a row's hits goes on with an increment of that row. -/
theorem hitTimes_cases (h : Move env w e w') (i : Nat) :
    (hitTimes w'.log i = hitTimes w.log i ∧
      ∀ who now, w.issued env e ≠ some (who, .incrementHitCount i now)) ∨
    ∃ who now, w.issued env e = some (who, .incrementHitCount i now) ∧
      hitTimes w'.log i = hitTimes w.log i ++ [now] := by
  by_cases hi : ∃ who now, w.issued env e = some (who, .incrementHitCount i now)
  · obtain ⟨who, now, hi⟩ := hi
    refine .inr ⟨who, now, hi, ?_⟩
    unfold hitTimes
    rw [log_issued h hi, List.filterMap_append]
    simp [Entry.hitAt, takes]
  · push Not at hi
    refine .inl ⟨?_, hi⟩
    obtain ⟨es, hlog, hfresh⟩ := log_cases h
    unfold hitTimes
    have hnone : es.filterMap (Entry.hitAt i) = [] := by
      refine List.filterMap_eq_nil_iff.mpr fun x hx => ?_
      exact hitAt_fresh hi (hfresh x hx)
    rw [hlog, List.filterMap_append, hnone, List.append_nil]

/-- A cache row its increment is for. -/
theorem entryAfter_hit {who : Proc} {x : SemanticCache} {now : Time}
    (h : w.issued env e = some (who, .incrementHitCount x.id now)) :
    w.entryAfter env e x = x.hit now := by
  simp only [entryAfter, h, Tx.onEntry]
  exact Table.updateRow_pos rfl

/-- Any other row. -/
theorem entryAfter_same {x : SemanticCache}
    (h : ∀ who now, w.issued env e ≠ some (who, .incrementHitCount x.id now)) :
    w.entryAfter env e x = x := by
  unfold entryAfter
  split
  · rename_i y hi
    obtain ⟨who, t⟩ := y
    cases t with
    | incrementHitCount i now =>
        show Table.updateRow (fun y => y.id = i) (·.hit now) x = x
        refine Table.updateRow_neg fun hid => h who now ?_
        rw [hi, hid]
    | _ => rfl
  · rfl

theorem entryAfter_id (x : SemanticCache) : (w.entryAfter env e x).id = x.id :=
  congrArg (·.1) (entryAfter_static x)

/-! ## The counters and the history -/

/-- The counters are what the increments made them. -/
structure Counted (w : World) : Prop where
  row : ∀ {x}, x ∈ w.db.cache.rows → x.hitCount = (hitTimes w.log x.id).length ∧
    x.lastHitAt = (hitTimes w.log x.id).getLast?
  /-- No increment missed its row. -/
  known : ∀ {i}, hitTimes w.log i ≠ [] → ∃ x ∈ w.db.cache.rows, x.id = i
  /-- Nor will one. -/
  found : ∀ {s r x emb}, w.slots s = .running r → r.stage = .incrementHit x emb →
    ∃ y ∈ w.db.cache.rows, y.id = x.id

theorem counted_init : Counted World.init where
  row := by intro x hx; cases hx
  known := by intro i hi; exact absurd rfl hi
  found := by intro s r x emb hr; cases hr

/-- A row of the cache keeps its id. -/
theorem id_stays (h : Move env w e w') {i : Nat} (hi : ∃ x ∈ w.db.cache.rows, x.id = i) :
    ∃ x ∈ w'.db.cache.rows, x.id = i := by
  obtain ⟨x, hx, hid⟩ := hi
  exact ⟨_, entry_goes_on h hx, (entryAfter_id x).trans hid⟩

/-- A pipeline comes to count a hit with a row it was just given. -/
theorem found_back {s : WorkerId} {r r' : Run} {x : SemanticCache} {emb : Vector}
    (hst : RunStep env w e s r r') (hx : r'.stage = .incrementHit x emb) :
    r.stage = .incrementHit x emb ∨ x ∈ w.db.cache.rows := by
  cases hst with
  | same he => exact .inl hx
  | beat hl => exact .inl hx
  | @wrote _ _ now top1 t ht =>
      obtain ⟨st, hs, hturn⟩ := PromptPipeline.turn_of_call w.db ht
      rw [hs] at hx
      cases hturn with
      | hitExact hrs hf =>
          cases hx
          exact .inr (findExact_some hf).1
      | hitNearest hrs hf =>
          cases hx
          exact .inr (findNearest_some hf).1
      | _ => cases hx
  | thought he hth =>
      have handled : ∀ exc, PromptPipeline.handleFailure r.job exc ≠ .incrementHit x emb := by
        intro exc heq
        have hin := PromptPipeline.handleFailure_not_inRun r.job exc
        rw [heq] at hin
        cases hin
      have failed : ∀ exc, PromptPipeline.fail r exc ≠ .incrementHit x emb := by
        intro exc heq
        have hin := PromptPipeline.fail_not_inRun r exc
        rw [heq] at hin
        cases hin
      cases hth with
      | dbError hc => exact (failed _ hx).elim
      | unavailable hst => exact (handled (redisUnavailableError _) hx).elim
      | @failed _ _ exc hexc hst => exact (handled exc hx).elim
      | _ => cases hx

/-- **One move keeps the counters.** -/
theorem counted_step (h : Move env w e w') (hi : Counted w) : Counted w' where
  row := by
    intro x' hx'
    rcases entry_origin h hx' with ⟨x, hx, rfl⟩ | hstored
    · rw [entryAfter_id]
      obtain ⟨hcount, hlast⟩ := hi.row hx
      rcases hitTimes_cases h x.id with ⟨hlog, hno⟩ | ⟨who, now, hiss, hlog⟩
      · rw [hlog, entryAfter_same hno]
        exact ⟨hcount, hlast⟩
      · rw [hlog, entryAfter_hit hiss, List.length_append, List.getLast?_concat, ← hcount]
        exact ⟨rfl, rfl⟩
    · -- a new row has an id no increment has seen
      obtain ⟨s, r, now, top1, emb, resp, rfl, hr, hst, rfl⟩ := hstored.run
      have hnone : hitTimes w.log w.db.cache.seq = [] := by
        by_contra hne
        obtain ⟨y, hy, hid⟩ := hi.known hne
        exact absurd (w.db.cache.pk_lt y hy) (by rw [← hid]; exact Nat.lt_irrefl _)
      have hlog : hitTimes w'.log w.db.cache.seq = [] := by
        rcases hitTimes_cases h w.db.cache.seq with ⟨hlog, -⟩ | ⟨who, t, hiss, -⟩
        · rw [hlog, hnone]
        · obtain ⟨s', r', top1', x, emb', he, hr', hst', -⟩ := hit_issuer hiss
          cases he
          cases Slot.running.inj (hr.symm.trans hr')
          rw [hst] at hst'
          cases hst'
      show 0 = (hitTimes w'.log w.db.cache.seq).length ∧
        none = (hitTimes w'.log w.db.cache.seq).getLast?
      rw [hlog]
      exact ⟨rfl, rfl⟩
  known := by
    intro i hne
    rcases hitTimes_cases h i with ⟨hlog, -⟩ | ⟨who, now, hiss, -⟩
    · rw [hlog] at hne
      exact id_stays h (hi.known hne)
    · obtain ⟨s, r, top1, x, emb, -, hr, hst, rfl⟩ := hit_issuer hiss
      exact id_stays h (hi.found hr hst)
  found := by
    intro s r' x emb hr' hx
    rcases run_cases h hr' with ⟨r, hr, hst⟩ | hc
    · rcases found_back hst hx with hold | hmem
      · exact id_stays h (hi.found hr hold)
      · exact id_stays h ⟨x, hmem, rfl⟩
    · rw [hc.start] at hx
      cases hx

theorem counted_reachable {H : World → Event → Prop} (h : (machine env).ReachableWhere H w) :
    Counted w :=
  invariant_of_moves h counted_init fun _ hi _ hm => counted_step hm hi

/-! ## The sums over the tables -/

/-- The hits after a move, row by row. -/
theorem hits_after (h : Move env w e w') :
    w'.hits = (w.db.cache.rows.map fun x => (w.entryAfter env e x).hitCount).sum := by
  unfold World.hits entryAfter
  rw [move_issued h]
  cases hi : w.issued env e with
  | none => rfl
  | some y =>
      obtain ⟨who, t⟩ := y
      -- a row that is added has no hits
      have hnew : ((t.newEntries w.db).map (·.hitCount)).sum = 0 := by
        cases t with
        | upsert new now =>
            unfold Tx.newEntries
            dsimp only
            split <;> rfl
        | _ => rfl
      rw [Db.exec_cache, List.map_append, List.sum_append, hnew, Nat.add_zero, List.map_map]
      rfl

/-- Nothing is counted but by an increment. -/
theorem hits_same (h : Move env w e w')
    (hn : ∀ who i now, w.issued env e ≠ some (who, .incrementHitCount i now)) :
    w'.hits = w.hits := by
  rw [hits_after h]
  unfold World.hits
  refine congrArg List.sum (List.map_congr_left fun x _ => ?_)
  rw [entryAfter_same fun who now => hn who x.id now]

/-- An increment counts one. -/
theorem hits_counted (h : Move env w e w') {who : Proc} {now : Time} {x : SemanticCache}
    (hx : x ∈ w.db.cache.rows)
    (hi : w.issued env e = some (who, .incrementHitCount x.id now)) :
    w'.hits = w.hits + 1 := by
  rw [hits_after h]
  have hsum := sum_map_of_others (f := fun y => (w.entryAfter env e y).hitCount)
    (g := (·.hitCount)) (List.Nodup.of_map _ w.db.cache.pk_nodup) hx
    fun y hy hne => by
      rw [entryAfter_same]
      intro who' now' hi'
      have heq := (Prod.mk.inj (Option.some.inj (hi.symm.trans hi'))).2
      have hid : x.id = y.id := (Tx.incrementHitCount.inj heq).1
      exact hne (Table.eq_of_pk hy hx hid.symm)
  have hrow : (w.entryAfter env e x).hitCount = x.hitCount + 1 := by
    rw [entryAfter_hit hi]
    rfl
  rw [hrow] at hsum
  unfold World.hits
  omega

/-- The served requests after a move, row by row. -/
theorem served_after (h : Move env w e w') :
    w'.served = w.db.requests.rows.countP fun q => (w.requestAfter env e q).fromCache := by
  unfold World.served requestAfter
  rw [move_issued h]
  cases hi : w.issued env e with
  | none => rfl
  | some y =>
      obtain ⟨who, t⟩ := y
      have hnew : (t.newRequests w.db).countP PromptRequest.fromCache = 0 := by
        cases t with
        | insertWithJob new now =>
            unfold Tx.newRequests
            dsimp only
            split
            · rename_i hins
              rw [(insertWithJob_some hins).2.2.2.1]
              rfl
            · rfl
        | _ => rfl
      rw [Db.exec_requests, List.countP_append, hnew, Nat.add_zero, List.countP_map]
      rfl

/-- Only a pipeline that finishes writes to `cached`. -/
theorem fromCache_back {q q' : PromptRequest} (h : RequestStep w e q q') :
    q'.fromCache = q.fromCache ∨ ∃ s now top1 r resp cached emb, e = .pipeline s now top1 ∧
      w.slots s = .running r ∧ r.stage = .finishRequest resp cached emb ∧ q.id = r.req.id ∧
      q'.fromCache = cached := by
  cases h with
  | completed hs hst hid =>
      refine .inr ⟨_, _, _, _, _, _, _, rfl, hs, hst, hid, ?_⟩
      simp [PromptRequest.fromCache, PromptRequest.complete]
  | _ => exact .inl rfl

/-- No request is served but by a pipeline that finishes. -/
theorem served_same (h : Move env w e w')
    (hn : ∀ r ∈ w.runOf e, e.writes = true → r.stage.answers = false) :
    w'.served = w.served := by
  rw [served_after h]
  refine List.countP_congr fun q _ => ?_
  rcases fromCache_back (request_step h q) with heq |
    ⟨s, now, top1, r, resp, cached, emb, rfl, hr, hst, -, -⟩
  · rw [heq]
  · have hno := hn r (runOf_eq rfl hr) rfl
    rw [hst] at hno
    cases hno

/-! ## The account of the hits -/

/-- Only a pipeline's transaction counts a hit or serves a request. -/
theorem tables_same (h : Move env w e w') (hne : ∀ s now top1, e ≠ .pipeline s now top1) :
    w'.hits = w.hits ∧ w'.served = w.served := by
  refine ⟨hits_same h fun who i now hi => ?_, served_same h fun r hr hw => ?_⟩
  · obtain ⟨s, r, top1, x, emb, he, -⟩ := hit_issuer hi
    exact hne s now top1 he
  · cases e with
    | pipeline s now top1 => exact absurd rfl (hne s now top1)
    | call c now inTime => cases hr
    | _ => cases hw

/-- One that serves a hit is about to answer. -/
theorem servesHit_of_not_answers {x : Stage} (h : x.answers = false) : x.servesHit = false := by
  cases x with
  | finishRequest resp cached emb => cases h
  | _ => rfl

/-- The answer of a pipeline is one more that is served from the cache, or one less, or neither. -/
theorem served_finished {s : WorkerId} {now : Time} {top1 : Option Nat} {r : Run} {resp : String}
    {cached : Bool} {emb : Vector} (h : Move env w (.pipeline s now top1) w') (ht : Tied env w)
    (hr : w.slots s = .running r) (hst : r.stage = .finishRequest resp cached emb) :
    w'.served + (w.wastes (.pipeline s now top1)).toNat = w.served + cached.toNat := by
  obtain ⟨q, hq, hqs⟩ := ht.request hr
  have hid : q.id = r.req.id := congrArg (·.1) hqs
  have hcall : PromptPipeline.call env r now top1
      = some (.requestMarkCompleted r.req.id resp cached (some emb) now) := by
    unfold PromptPipeline.call
    rw [hst]
  have hafter : ∀ q, w.requestAfter env (.pipeline s now top1) q
      = Table.updateRow (fun q => q.id = r.req.id) (·.complete resp cached (some emb) now) q :=
    fun q => requestAfter_pipeline hr hcall q
  have hsum := countP_of_others
    (p := fun q => (w.requestAfter env (.pipeline s now top1) q).fromCache)
    (q := PromptRequest.fromCache) (List.Nodup.of_map _ w.db.requests.pk_nodup) hq
    fun b hb hne => by
      rw [hafter, Table.updateRow_neg]
      exact fun hbid => hne (Db.request_eq_of_id hb hq (hbid.trans hid.symm))
  have hrow : (w.requestAfter env (.pipeline s now top1) q).fromCache = cached := by
    rw [hafter, Table.updateRow, if_pos hid]
    simp [PromptRequest.fromCache, PromptRequest.complete]
  -- the request is in the table once
  have hany : (w.db.requests.rows.any fun b => b.id = r.req.id && b.fromCache) = q.fromCache := by
    cases hc : q.fromCache with
    | true => exact List.any_eq_true.mpr ⟨q, hq, by simp [hid, hc]⟩
    | false =>
        refine List.any_eq_false.mpr fun b hb hbc => ?_
        obtain ⟨hbid, hbc⟩ := Bool.and_eq_true_iff.mp hbc
        rw [Db.request_eq_of_id hb hq ((of_decide_eq_true hbid).trans hid.symm), hc] at hbc
        cases hbc
  have hwaste : w.wastes (.pipeline s now top1) = q.fromCache := by
    unfold World.wastes
    rw [runOf_eq rfl hr, Option.any_some, hany, hst]
    cases cached <;> rfl
  rw [served_after h, hwaste]
  rw [hrow] at hsum
  exact hsum

/-- A pipeline that found no hit counts none. -/
theorem hits_of_no_hit {s : WorkerId} {now : Time} {top1 : Option Nat} {r : Run}
    (h : Move env w (.pipeline s now top1) w') (hr : w.slots s = .running r)
    (hno : ¬ ∃ x emb, r.stage = .incrementHit x emb) : w'.hits = w.hits := by
  refine hits_same h fun who i t hi => ?_
  obtain ⟨s', r', top1', x, emb, he, hr', hst, -⟩ := hit_issuer hi
  cases he
  cases Slot.running.inj (hr.symm.trans hr')
  exact hno ⟨x, emb, hst⟩

/-- A pipeline that is not about to answer serves nothing, and wastes nothing. -/
theorem served_of_not_answers {s : WorkerId} {now : Time} {top1 : Option Nat} {r : Run}
    (h : Move env w (.pipeline s now top1) w') (hr : w.slots s = .running r)
    (hno : r.stage.answers = false) :
    w'.served = w.served ∧ w.wastes (.pipeline s now top1) = false := by
  refine ⟨served_same h fun r' hr' _ => ?_, ?_⟩
  · cases Option.some.inj ((runOf_eq rfl hr).symm.trans hr')
    exact hno
  · unfold World.wastes
    rw [runOf_eq rfl hr, Option.any_some, hno, servesHit_of_not_answers hno]
    rfl

/-- A pipeline's transaction. -/
theorem hits_pipeline {s : WorkerId} {now : Time} {top1 : Option Nat}
    (h : Move env w (.pipeline s now top1) w') (ht : Tied env w) (hc : Counted w) :
    ∃ x, w'.slots = Function.update w.slots s x ∧
      w'.hits + w.served + (w.slots s).servesHit
        = w.hits + w'.served + x.servesHit + (w.wastes (.pipeline s now top1)).toNat := by
  obtain ⟨r, t, st, hr, hcall, hturn, hslots⟩ := pipeline_slots h
  refine ⟨_, hslots, ?_⟩
  have hiss := issued_pipeline hr hcall
  have hold : (w.slots s).servesHit = r.stage.servesHit.toNat := by rw [hr]; rfl
  have hnew : (Slot.running { r with stage := st }).servesHit = st.servesHit.toNat := rfl
  by_cases hhit : ∃ x emb, r.stage = .incrementHit x emb
  · obtain ⟨x, emb, hst⟩ := hhit
    obtain ⟨y, hy, hid⟩ := hc.found hr hst
    have hans : r.stage.answers = false := by rw [hst]; rfl
    obtain ⟨hserved, hwaste⟩ := served_of_not_answers h hr hans
    have htx : t = .incrementHitCount x.id now := by
      unfold PromptPipeline.call at hcall
      rw [hst] at hcall
      exact (Option.some.inj hcall).symm
    subst htx
    have hgoes : st = .finishRequest x.response true emb := by
      generalize x.id = i at hturn
      cases hturn with
      | counted hst' =>
          cases hst.symm.trans hst'
          rfl
    have hhits := hits_counted h hy (by rw [hid]; exact hiss)
    have hone : (Stage.finishRequest x.response true emb).servesHit.toNat = 1 := rfl
    rw [hold, hnew, servesHit_of_not_answers hans, hserved, hwaste, hhits, hgoes, hone]
    simp only [Bool.toNat_false]
    omega
  · have hhits := hits_of_no_hit h hr hhit
    have hst' : st.servesHit = false := by
      cases hturn with
      | counted hst => exact absurd ⟨_, _, hst⟩ hhit
      | _ => rfl
    cases hans : r.stage.answers with
    | false =>
        obtain ⟨hserved, hwaste⟩ := served_of_not_answers h hr hans
        rw [hold, hnew, servesHit_of_not_answers hans, hserved, hwaste, hhits, hst']
        rfl
    | true =>
        obtain ⟨resp, cached, emb, hst⟩ : ∃ resp cached emb,
            r.stage = .finishRequest resp cached emb := by
          cases hrs : r.stage with
          | finishRequest resp cached emb => exact ⟨resp, cached, emb, rfl⟩
          | _ => rw [hrs] at hans; cases hans
        have hserved := served_finished h ht hr hst
        have hwas : r.stage.servesHit.toNat = cached.toNat := by rw [hst]; rfl
        rw [hold, hnew, hst', hwas, hhits]
        simp only [Bool.toNat_false]
        omega

/-- What is wasted without a transaction: the answer of a pipeline that breaks off. -/
theorem wastes_of_not_writes {s : WorkerId} (hs : e.slot = some s) (hw : e.writes = false) :
    (w.wastes e).toNat = if e.breaks then (w.slots s).servesHit else 0 := by
  unfold World.wastes runOf
  rw [hs, Option.bind_some, hw]
  cases hsl : w.slots s with
  | running r =>
      simp only [Option.any_some, Bool.and_false, Bool.false_and, Bool.or_false, Slot.servesHit]
      cases e.breaks <;> cases r.stage.servesHit <;> rfl
  | idle => cases e.breaks <;> rfl
  | stopped => cases e.breaks <;> rfl

/-- No thought leads to an answer, and only one that breaks off leads away from one. -/
theorem thought_servesHit {r r' : Run} {es : List Entry} (h : Thought env r e r' es) :
    r'.stage.servesHit = false ∧ (e.breaks = false → r.stage.servesHit = false) := by
  have outside : ∀ x, PromptPipeline.inRun x = false → x.servesHit = false := by
    intro x hx
    cases x with
    | finishRequest resp cached emb => cases hx
    | _ => rfl
  cases h with
  | dbError hc => exact ⟨outside _ (PromptPipeline.fail_not_inRun r _), fun hb => by cases hb⟩
  | @unavailable _ _ message hst =>
      have hin := PromptPipeline.handleFailure_not_inRun r.job (redisUnavailableError message)
      exact ⟨outside _ hin, fun _ => by rw [hst]; rfl⟩
  | @failed _ _ exc hx hst =>
      have hin := PromptPipeline.handleFailure_not_inRun r.job exc
      exact ⟨outside _ hin, fun _ => by rw [hst]; rfl⟩
  | cancelled hst hl => exact ⟨rfl, fun hb => by cases hb⟩
  | aborted hst => exact ⟨rfl, fun hb => by cases hb⟩
  | granted hst => exact ⟨rfl, fun _ => by rw [hst]; rfl⟩
  | denied hst => exact ⟨rfl, fun _ => by rw [hst]; rfl⟩
  | guarded hst => exact ⟨rfl, fun _ => by rw [hst]; rfl⟩
  | called hst => exact ⟨rfl, fun _ => by rw [hst]; rfl⟩
  | answered hst => exact ⟨rfl, fun _ => by rw [hst]; rfl⟩

variable {F : Finset WorkerId}

/-- A slot that goes on without a transaction of its pipeline. -/
theorem hits_slot {s : WorkerId} {x : Slot} (h : Move env w e w') (hF : s ∈ F)
    (hs : e.slot = some s) (hne : ∀ s now top1, e ≠ .pipeline s now top1)
    (hslots : w'.slots = Function.update w.slots s x)
    (hx : (w.slots s).servesHit
      = x.servesHit + if e.breaks then (w.slots s).servesHit else 0) :
    w'.hits + w.served + ∑ s ∈ F, (w.slots s).servesHit
      = w.hits + w'.served + ∑ s ∈ F, (w'.slots s).servesHit + (w.wastes e).toNat := by
  obtain ⟨hhits, hserved⟩ := tables_same h hne
  have hw : e.writes = false := by
    cases e with
    | pipeline s now top1 => exact absurd rfl (hne s now top1)
    | call c now inTime => cases hs
    | _ => rfl
  have hup := sum_update hF w.slots x Slot.servesHit
  rw [hhits, hserved, hslots, wastes_of_not_writes hs hw]
  omega

/-- **One step keeps the account of the hits.** -/
theorem hits_step (h : Move env w e w') (ht : Tied env w) (hc : Counted w)
    (hF : ∀ s, e.slot = some s → s ∈ F) :
    w'.hits + w.served + ∑ s ∈ F, (w.slots s).servesHit
      = w.hits + w'.served + ∑ s ∈ F, (w'.slots s).servesHit + (w.wastes e).toNat := by
  have stay : e.slot = none → w'.slots = w.slots → (∀ s now top1, e ≠ .pipeline s now top1) →
      w'.hits + w.served + ∑ s ∈ F, (w.slots s).servesHit
        = w.hits + w'.served + ∑ s ∈ F, (w'.slots s).servesHit + (w.wastes e).toNat := by
    intro hs hslots hne
    obtain ⟨hhits, hserved⟩ := tables_same h hne
    have hwaste : w.wastes e = false := by
      unfold World.wastes runOf
      rw [hs]
      rfl
    rw [hhits, hserved, hslots, hwaste]
    rfl
  have hmove := h
  cases h with
  | submit hn => exact stay rfl rfl nofun
  | callCrash hk he => exact stay rfl rfl nofun
  | call hk htx => exact stay rfl rfl nofun
  | reap => exact stay rfl rfl nofun
  | @pipeline s r now top1 t hs htx =>
      obtain ⟨x, hslots, hacc⟩ := hits_pipeline hmove ht hc
      have hup := sum_update (hF s rfl) w.slots x Slot.servesHit
      rw [← hslots] at hup
      omega
  | @claim s now locked pick hs hsel =>
      refine hits_slot hmove (hF _ rfl) rfl nofun rfl ?_
      rw [hs]
      unfold World.afterClaim
      split <;> rfl
  | @heartbeat s r now hs hl =>
      refine hits_slot hmove (hF _ rfl) rfl nofun rfl ?_
      rw [hs]
      rfl
  | @crash s hs =>
      refine hits_slot hmove (hF _ rfl) rfl nofun rfl ?_
      exact (Nat.zero_add _).symm
  | @next s r how hs hd =>
      refine hits_slot hmove (hF _ rfl) rfl nofun rfl ?_
      rw [hs, Slot.servesHit, hd]
      cases how <;> rfl
  | @think s r e y hs he hth =>
      obtain ⟨hnew, hold⟩ := thought_servesHit (thought_of_think hth)
      refine hits_slot hmove (hF _ (slot_of_thinker he)) (slot_of_thinker he) ?_ rfl ?_
      · rintro s' now top1 rfl
        cases he
      · rw [hs]
        show r.stage.servesHit.toNat = y.1.stage.servesHit.toNat + _
        rw [hnew]
        cases hb : e.breaks with
        | true => exact (Nat.zero_add _).symm
        | false =>
            rw [hold hb]
            rfl

/--
**What the hit counters count.** In every run each row's `hit_count` is the number of its
increments in the history, and its `last_hit_at` the time of the last. Together the counters
come to the requests that have an answer from the cache, the pipelines that are about to write
one, and the hits that were wasted.
-/
theorem hits_accounted {es : List Event} (h : (machine env).run World.init es = some w) :
    (∀ x ∈ w.db.cache.rows, x.hitCount = (hitTimes w.log x.id).length ∧
      x.lastHitAt = (hitTimes w.log x.id).getLast?) ∧
    w.hits = w.served + ∑ s ∈ (es.filterMap Event.slot).toFinset, (w.slots s).servesHit +
      (machine env).tally (fun u e => (u.wastes e).toNat) World.init es := by
  have hreach : (machine env).Reachable w := Machine.path_of_run h
  refine ⟨fun x hx => (counted_reachable hreach).row hx, ?_⟩
  -- the account of the steps so far
  refine Machine.Meets.along (m := machine env) (H := Machine.Always)
    (I := fun fs u => u.hits = u.served +
      ∑ s ∈ (es.filterMap Event.slot).toFinset, (u.slots s).servesHit +
      (machine env).tally (fun u e => (u.wastes e).toNat) World.init fs)
    ?_ (Machine.meets_always World.init es) h ?_
  · have hzero : ∑ s ∈ (es.filterMap Event.slot).toFinset, (World.init.slots s).servesHit = 0 :=
      Finset.sum_const_zero
    rw [hzero]
    rfl
  · intro fs gs u v e hes hfs hi _ hs
    have hu : (machine env).Reachable u := Machine.path_of_run hfs
    have hmem : e ∈ es := by
      rw [hes]
      simp
    have hstep := hits_step (move_of_step hs) (tied_reachable hu) (counted_reachable hu)
      (mem_slots hmem)
    rw [Machine.tally_concat hfs]
    omega

/-- The same text three times: the provider answers the first, the cache the second, and the
worker dies between the hit of the third and its answer. -/
def thriceRun : List Event :=
  answeredRun ++ [.pipeline 0 2 none, .next 0] ++ submission 1 "q" "a" ++
    [.claim 0 3 [] (some 2), .pipeline 0 3 none, .pipeline 0 4 none, .pipeline 0 5 none,
      .pipeline 0 5 none, .next 0] ++ submission 2 "r" "a" ++
    [.claim 0 6 [] (some 3), .pipeline 0 6 none, .pipeline 0 7 none, .crash 0]

/-- Two hits, one answer. -/
theorem hits_accounted_wasted : ∃ w, (machine deployment).run World.init thriceRun = some w ∧
    w.db.cache.rows.map (fun x => (x.hitCount, x.lastHitAt)) = [(2, some 7)] ∧
    w.served = 1 ∧ (machine deployment).tally (fun u e => (u.wastes e).toNat) World.init thriceRun
      = 1 := by
  obtain ⟨w, hw, -, ht⟩ := Machine.reachable_of_run (m := machine deployment) (E := thriceRun)
    (p := fun w => decide (w.db.cache.rows.map (fun x => (x.hitCount, x.lastHitAt))
      = [(2, some 7)] ∧ w.hits = 2 ∧ w.served = 1 ∧
      ∑ s ∈ (thriceRun.filterMap Event.slot).toFinset, (w.slots s).servesHit = 0))
    (by decide +kernel)
  obtain ⟨hrows, hhits, hserved, hslots⟩ := of_decide_eq_true ht
  have hacc := (hits_accounted hw).2
  exact ⟨w, hw, hrows, hserved, by omega⟩

end PromptQueue.Proof
