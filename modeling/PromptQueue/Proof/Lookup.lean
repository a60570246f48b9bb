import PromptQueue.Base.Selection
import PromptQueue.Proof.Replay

/-!
# What a cache lookup finds

`lookup` looks at two rows: the one with the hash of the text, and the one the index
puts first. What it says of the whole cache rests on the second being a nearest row,
which is the index's business and a hypothesis here; then a first row that is not
close enough speaks for all of them.
-/

namespace PromptQueue

open Base World

variable {S : Type} [LinearOrder S] [One S] (env : Env S)

/-- The row the index puts first is a nearest row. -/
def IndexExact (db : Db) (embedding : Vector) (top1 : Option Nat) : Prop :=
  IsTop (fun x => env.similarity x.embedding embedding) db.cache.rows
    (SemanticCacheRepository.selectNearest db top1)

/-- What `lookup` makes of a text in a database, `out`. -/
structure LookedUp (db : Db) (text : String) (now : Time)
    (out : Db × Option (CacheHit S) × Vector) : Prop where
  /-- A row with the hash of the text is an exact hit. -/
  exact : ∀ x ∈ db.cache.rows, x.textHash = env.hashText text → out.2.1 = some ⟨x, 1, .exact⟩
  /-- Else, where a row is similar enough, a row of maximal similarity is a semantic hit. -/
  semantic : (∀ x ∈ db.cache.rows, x.textHash ≠ env.hashText text) →
    (∃ x ∈ db.cache.rows, env.threshold < env.similarity x.embedding (env.embed text)) →
    ∃ x ∈ db.cache.rows, (∀ y ∈ db.cache.rows,
        env.similarity y.embedding (env.embed text) ≤ env.similarity x.embedding (env.embed text)) ∧
      out.2.1 = some ⟨x, env.similarity x.embedding (env.embed text), .semantic⟩
  /-- Else it is a miss. -/
  miss : (∀ x ∈ db.cache.rows, x.textHash ≠ env.hashText text ∧
    env.similarity x.embedding (env.embed text) ≤ env.threshold) → out.2.1 = none
  /-- A hit is counted once, on its row, and nothing else is written. -/
  counted : ∀ hit ∈ out.2.1, hit.entry ∈ db.cache.rows ∧
    out.1.cache.rows = db.cache.rows.map (fun x => if x = hit.entry then x.hit now else x) ∧
    out.1.jobs = db.jobs ∧ out.1.requests = db.requests
  /-- A miss writes nothing. -/
  uncounted : out.2.1 = none → out.1 = db
  /-- Without an exact hit the embedding is that of the text. -/
  embedding : (∀ hit ∈ out.2.1, hit.matchType = .semantic) → out.2.2 = env.embed text

/-- Where a pipeline goes on with what `lookup` returned. -/
def afterLookup (hit : Option (CacheHit S)) (embedding : Vector) : Stage :=
  match hit with
  | some hit => .finishRequest hit.entry.response true embedding
  | none => .tryAcquire embedding

end PromptQueue

namespace PromptQueue.Proof

open PromptQueue Base World

variable {S : Type} [LinearOrder S] {env : Env S} {w : World} {db : Db} {text : String}
variable {top1 : Option Nat} {now : Time}

/-! ## The rows -/

/-- Every row has a hash of its own. -/
theorem findExact_of_mem {x : SemanticCache} (hx : x ∈ db.cache.rows) :
    SemanticCacheRepository.findExact db x.textHash = some x :=
  Table.find?_uk hx rfl

/-- `increment_hit_count` of a row that is there. -/
theorem counted_of_mem {x : SemanticCache} (hx : x ∈ db.cache.rows) (now : Time) :
    (SemanticCacheRepository.incrementHitCount db x.id now).cache.rows
      = db.cache.rows.map fun y => if y = x then y.hit now else y := by
  refine List.map_congr_left fun y hy => ?_
  by_cases hyx : y = x
  · subst hyx
    rw [if_pos rfl]
    exact Table.updateRow_pos rfl
  · rw [if_neg hyx]
    exact Table.updateRow_neg fun hid => hyx (Table.eq_of_pk hy hx hid)

/-- The first row is a hit when it is above the threshold. -/
theorem findNearest_eq (emb : Vector) : SemanticCacheRepository.findNearest env.similarity db emb
      env.threshold top1
    = ((SemanticCacheRepository.selectNearest db top1).filter fun x =>
        env.threshold < env.similarity x.embedding emb).map fun x =>
          (x, env.similarity x.embedding emb) := by
  unfold SemanticCacheRepository.findNearest
  cases SemanticCacheRepository.selectNearest db top1 with
  | none => rfl
  | some x =>
      rw [Option.bind_some, SemanticCacheRepository.aboveThreshold]
      by_cases hle : env.similarity x.embedding emb ≤ env.threshold
      · rw [if_pos hle, Option.filter_some_neg (by simpa using hle)]
        rfl
      · rw [if_neg hle, Option.filter_some_pos (by simpa using hle)]
        rfl

/-! ## The transactions -/

/-- The end of a hit: the row is counted, and the pipeline finishes with its response. -/
theorem counts_hit (env : Env S) {s : WorkerId} {r : Run} {x : SemanticCache} {emb : Vector}
    (hs : w.slots s = .running r) (hst : r.stage = .incrementHit x emb) (top1 : Option Nat)
    (now : Time) : ∃ w', (machine env).run w [.pipeline s now top1] = some w' ∧
      w'.db = SemanticCacheRepository.incrementHitCount w.db x.id now ∧
      w'.slots s = .running { r with stage := .finishRequest x.response true emb } := by
  have hcall : PromptPipeline.call env r now top1 = some (.incrementHitCount x.id now) := by
    simp only [PromptPipeline.call, hst]
  obtain ⟨st, w', hturn, -, hw', hdb, hslot⟩ := pipeline_turn hs hcall
  change w'.db = SemanticCacheRepository.incrementHitCount w.db x.id now at hdb
  generalize hid : x.id = i at hturn hdb ⊢
  cases hturn with
  | counted hst' =>
      cases hst.symm.trans hst'
      exact ⟨w', Option.bind_eq_some_iff.mpr ⟨w', hw', rfl⟩, hdb, hslot⟩

/-! ## The method -/

variable [One S]

/-- **What `lookup` finds, and what it writes.** -/
theorem lookup_spec (htop : IndexExact env db (env.embed text) top1) (now : Time) :
    LookedUp env db text now (SemanticCacheService.lookup env db text top1 now) := by
  unfold SemanticCacheService.lookup
  cases hf : SemanticCacheRepository.findExact db (env.hashText text) with
  | some x =>
      obtain ⟨hx, hhash⟩ := findExact_some hf
      refine ⟨fun y hy hy' => ?_, fun hno _ => absurd hhash (hno x hx), fun hno => ?_, ?_, nofun,
        fun hsem => ?_⟩
      · rw [← hy', findExact_of_mem hy] at hf
        rw [Option.some.inj hf]
      · exact absurd hhash (hno x hx).1
      · intro hit hhit
        cases hhit
        exact ⟨hx, counted_of_mem hx now, rfl, rfl⟩
      · cases hsem _ rfl
  | none =>
      have hno : ∀ x ∈ db.cache.rows, x.textHash ≠ env.hashText text := by
        intro x hx hhash
        rw [← hhash, findExact_of_mem hx] at hf
        cases hf
      have hrejects := IsTop.rejects (t := env.threshold) htop
      dsimp only
      rw [findNearest_eq]
      cases hn : (SemanticCacheRepository.selectNearest db top1).filter fun x =>
          env.threshold < env.similarity x.embedding (env.embed text) with
      | some x =>
          obtain ⟨hsel, hlt⟩ := Option.filter_eq_some_iff.mp hn
          have hlt := of_decide_eq_true hlt
          unfold IndexExact at htop
          rw [hsel] at htop
          obtain ⟨hx, hmax⟩ := htop
          refine ⟨fun y hy hy' => absurd hy' (hno y hy), fun _ _ => ⟨x, hx, hmax, rfl⟩,
            fun hfar => absurd hlt (not_lt.mpr (hfar x hx).2), ?_, nofun, fun _ => rfl⟩
          intro hit hhit
          cases hhit
          exact ⟨hx, counted_of_mem hx now, rfl, rfl⟩
      | none =>
          have hfar : ∀ y ∈ db.cache.rows,
              env.similarity y.embedding (env.embed text) ≤ env.threshold := by
            refine hrejects fun x hx => not_lt.mp fun hlt => ?_
            exact absurd hn (Option.ne_none_iff_exists'.mpr
              ⟨x, Option.filter_eq_some_iff.mpr ⟨hx, decide_eq_true hlt⟩⟩)
          refine ⟨fun y hy hy' => absurd hy' (hno y hy), ?_, fun _ => rfl, nofun, fun _ => rfl,
            fun _ => rfl⟩
          rintro - ⟨x, hx, hlt⟩
          exact absurd hlt (not_lt.mpr (hfar x hx))

/-! ## At the threshold -/

/-- An embedder that knows one direction. -/
def oneDirection : Env Rat := { deployment with embed := fun _ => [1, 0, 0, 0] }

/-- The same, and half the threshold will do. -/
def lenient : Env Rat := { oneDirection with threshold := 9 / 20 }

/-- A row whose similarity to that direction is the threshold. -/
def edgeRow : SemanticCache :=
  ⟨1, "a", deployment.hashText "a", [9 / 10, 3 / 10, 3 / 10, 1 / 10], "answer", "p", 0, 0, none⟩

/-- A row that is further away. -/
def farRow : SemanticCache := ⟨2, "c", 2, [3 / 5, 4 / 5, 0, 0], "other", "q", 0, 0, none⟩

/-- A row across. -/
def acrossRow : SemanticCache := ⟨4, "d", 4, [0, 0, 1, 0], "another", "r", 0, 0, none⟩

/-- A cache of three rows. -/
def edgeCache : Db where
  requests := Table.empty
  jobs := Table.empty
  cache := ⟨[edgeRow, farRow, acrossRow], 5, by decide +kernel, by decide +kernel,
    by decide +kernel⟩
  fk := Db.empty.fk

/-- The row at the threshold is the nearest there is. -/
theorem edgeCache_top : IndexExact oneDirection edgeCache [1, 0, 0, 0] (some 1) := by
  have hfirst : SemanticCacheRepository.selectNearest edgeCache (some 1) = some edgeRow := by
    decide +kernel
  rw [IndexExact, hfirst]
  exact ⟨List.mem_cons_self, by decide +kernel⟩

/-- The row at the threshold is an exact hit for its own text, a miss for another, and a semantic
hit under a lower threshold. -/
theorem lookup_spec_edge :
    (SemanticCacheService.lookup oneDirection edgeCache "a" (some 1) 1).2.1
      = some ⟨edgeRow, 1, .exact⟩ ∧
    (SemanticCacheService.lookup oneDirection edgeCache "b" (some 1) 1).2.1 = none ∧
    ∃ x ∈ edgeCache.cache.rows, (∀ y ∈ edgeCache.cache.rows,
        lenient.similarity y.embedding [1, 0, 0, 0]
          ≤ lenient.similarity x.embedding [1, 0, 0, 0]) ∧
      (SemanticCacheService.lookup lenient edgeCache "b" (some 1) 1).2.1
        = some ⟨x, lenient.similarity x.embedding [1, 0, 0, 0], .semantic⟩ := by
  have hown : LookedUp oneDirection edgeCache "a" 1
      (SemanticCacheService.lookup oneDirection edgeCache "a" (some 1) 1) :=
    lookup_spec edgeCache_top 1
  have hother : LookedUp oneDirection edgeCache "b" 1
      (SemanticCacheService.lookup oneDirection edgeCache "b" (some 1) 1) :=
    lookup_spec edgeCache_top 1
  have hlenient : LookedUp lenient edgeCache "b" 1
      (SemanticCacheService.lookup lenient edgeCache "b" (some 1) 1) :=
    lookup_spec (show IndexExact lenient edgeCache [1, 0, 0, 0] (some 1) from edgeCache_top) 1
  exact ⟨hown.exact edgeRow List.mem_cons_self rfl, hother.miss (by decide +kernel),
    hlenient.semantic (by decide +kernel) (by decide +kernel)⟩

/-- At the threshold the nearest row is turned down. -/
theorem edge_missed : ¬ ∀ (env : Env Rat) (db : Db) (text : String) (top1 : Option Nat)
    (now : Time),
    IndexExact env db (env.embed text) top1 →
    (∀ x ∈ db.cache.rows, x.textHash ≠ env.hashText text) →
    (∃ x ∈ db.cache.rows, env.threshold ≤ env.similarity x.embedding (env.embed text)) →
    ∃ x ∈ db.cache.rows, (SemanticCacheService.lookup env db text top1 now).2.1
      = some ⟨x, env.similarity x.embedding (env.embed text), .semantic⟩ := by
  intro h
  obtain ⟨x, -, hx⟩ := h oneDirection edgeCache "b" (some 1) 1 edgeCache_top (by decide +kernel)
    (by decide +kernel)
  have hmiss : (SemanticCacheService.lookup oneDirection edgeCache "b" (some 1) 1).2.1 = none := by
    decide +kernel
  rw [hmiss] at hx
  cases hx

/-! ## The pipeline's way through it -/

/-- **A pipeline left alone goes through `lookup`**, in two or three transactions. -/
theorem pipeline_looks_up {s : WorkerId} {r : Run} {db' : Db} {hit : Option (CacheHit S)}
    {emb : Vector} (hs : w.slots s = .running r) (hst : r.stage = .findExact)
    (hl : SemanticCacheService.lookup env w.db r.req.text top1 now = (db', hit, emb)) :
    ∃ n w', n ≤ 3 ∧ (machine env).run w (List.replicate n (.pipeline s now top1)) = some w' ∧
      w'.db = db' ∧ w'.slots s = .running { r with stage := afterLookup hit emb } := by
  have hcall : PromptPipeline.call env r now top1
      = some (.findExact (env.hashText r.req.text)) := by
    simp only [PromptPipeline.call, hst]
  obtain ⟨st, u, hturn, -, hu, hdb, hslot⟩ := pipeline_turn hs hcall
  unfold SemanticCacheService.lookup at hl
  cases hturn with
  | hitExact _ hf =>
      rw [hf] at hl
      cases hl
      obtain ⟨v, hv, hdb', hslot'⟩ := counts_hit env hslot rfl top1 now
      refine ⟨2, v, by decide, Option.bind_eq_some_iff.mpr ⟨u, hu, hv⟩, ?_, hslot'⟩
      rw [hdb', hdb]
      rfl
  | missedExact _ hf =>
      rw [hf] at hl
      dsimp only at hl
      have hdb : u.db = w.db := hdb
      have hcall' : PromptPipeline.call env { r with stage := .findNearest (env.embed r.req.text) }
          now top1 = some (.selectNearest top1) := rfl
      obtain ⟨st, v, hturn, -, hv, hdb', hslot'⟩ := pipeline_turn hslot hcall'
      have hdb' : v.db = w.db := hdb'.trans hdb
      have hpath : (machine env).run w [.pipeline s now top1, .pipeline s now top1] = some v :=
        Option.bind_eq_some_iff.mpr ⟨u, hu, Option.bind_eq_some_iff.mpr ⟨v, hv, rfl⟩⟩
      cases hturn with
      | missedNearest hst' hn =>
          cases hst'
          rw [hdb] at hn
          rw [hn] at hl
          cases hl
          exact ⟨2, v, by decide, hpath, hdb', hslot'⟩
      | hitNearest hst' hn =>
          cases hst'
          rw [hdb] at hn
          rw [hn] at hl
          cases hl
          obtain ⟨v', hv', hdb'', hslot''⟩ := counts_hit env hslot' rfl top1 now
          refine ⟨3, v', by decide, ?_, by rw [hdb'', hdb'], hslot''⟩
          refine (Machine.run_append w [_, _] [_]).trans ?_
          exact Option.bind_eq_some_iff.mpr ⟨v, hpath, hv'⟩

end PromptQueue.Proof
