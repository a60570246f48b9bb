import PromptQueue.Proof.Replay

/-!
# Idempotent submission

`submit_and_wait` compares hashes once, on the row its first read finds. From then
on it goes by the prompt id alone. Where that read found the row, the row's hash
never changes and nothing can go wrong; where it found none, another call may
insert a row before this one does, and the recovery from the `IntegrityError`
re-reads that row without comparing again.

`Agreed` asks of the calls on that path what the recovery forgets to: that a row
with their prompt id, if there is one by now, carries the hash of their text.
-/

namespace PromptQueue

/-- The stages between an idempotency read that found nothing and the insert. -/
def CallStage.inserting : CallStage → Bool
  | .depth | .insert => true
  | _ => false

/-- The row a call returned. -/
def CallStage.result : CallStage → Option PromptRequest
  | .returned row => row
  | _ => none

theorem CallStage.result_eq {st : CallStage} {row : PromptRequest} (h : st.result = some row) :
    st = .returned (some row) := by
  cases st <;> cases h
  rfl

end PromptQueue

namespace PromptQueue.Proof

open PromptQueue Base World

variable {S : Type} [LinearOrder S] {env : Env S} {w w' : World} {e : Event}

/-- A row is the one a call asked for. -/
def Matches (env : Env S) (args : SubmitArgs) (q : PromptRequest) : Prop :=
  q.promptId = args.promptId ∧ q.textHash = env.hashText args.text

/-- The table holds the row a call asked for. -/
def Found (env : Env S) (w : World) (args : SubmitArgs) : Prop :=
  ∃ q ∈ w.db.requests.rows, Matches env args q

/-- What the move to `w'` may show of the calls. -/
structure Agreement (env : Env S) (w w' : World) : Prop where
  /-- One request row for each prompt id. -/
  unique : ∀ q ∈ w'.db.requests.rows, ∀ q' ∈ w'.db.requests.rows,
    q.promptId = q'.promptId → q = q'
  /-- One job row for each request row. -/
  paired : ∀ q ∈ w'.db.requests.rows, ∃! j, j ∈ w'.db.jobs.rows ∧ j.promptRequestId = q.id
  /-- A call that returned a row returned the one it asked for. -/
  returned : ∀ c k row, w'.calls c = some k → k.stage = .returned (some row) →
    Matches env k.args row
  /-- A call that ends while its prompt id has another text ends in the conflict. -/
  conflict : ∀ c k k', w.calls c = some k → k.stage.ended = false → w'.calls c = some k' →
    k'.stage.ended = true → ∀ q ∈ w'.db.requests.rows, q.promptId = k'.args.promptId →
    q.textHash ≠ env.hashText k'.args.text →
    k'.stage = .conflict (idempotencyConflictError k'.args.promptId)

/--
A step no call goes astray by: a call about to insert, or to be turned away for the
queue's depth, finds under its prompt id no row with another hash.
-/
def Agreed (env : Env S) (w : World) (e : Event) : Prop :=
  ∀ k ∈ w.callOf e, e.writes = true → k.stage.inserting = true →
    ∀ q ∈ w.db.requests.rows, q.promptId = k.args.promptId →
      q.textHash = env.hashText k.args.text

instance (w : World) : DecidablePred (Agreed env w) :=
  fun e => inferInstanceAs (Decidable (∀ k ∈ w.callOf e, _))

/-! ## The invariant -/

/-- What a call knows at each of its stages. -/
def Knows (env : Env S) (w : World) (k : Call) : Prop :=
  match k.stage with
  | .check | .depth | .insert | .conflict _ | .queueFull _ | .integrityError => True
  | .refetch | .reenqueueStatus _ | .reenqueueReset _ | .preCheck | .poll | .timeoutRead =>
      Found env w k.args
  | .returnExisting x => Found env w k.args ∧ Matches env k.args x
  | .returned none => False
  | .returned (some row) => Matches env k.args row

/-- Every call knows what its stage says. -/
def Informed (env : Env S) (w : World) : Prop := ∀ c k, w.calls c = some k → Knows env w k

theorem informed_init : Informed env World.init := by
  intro c k hk; cases hk

theorem found_move (h : Move env w e w') {args : SubmitArgs} (hf : Found env w args) :
    Found env w' args := by
  obtain ⟨q, hq, hp, hh⟩ := hf
  exact ⟨_, request_goes_on h hq, (requestAfter_promptId q).trans hp,
    (requestAfter_textHash q).trans hh⟩

theorem knows_move (h : Move env w e w') {k : Call} (hk : Knows env w k) : Knows env w' k := by
  unfold Knows at hk ⊢
  split at hk
  all_goals first
    | trivial
    | exact found_move h hk
    | exact ⟨found_move h hk.1, hk.2⟩

/-- The read of a call that knows its row is there finds it. -/
theorem read_of_found {k : Call} (hf : Found env w k.args) :
    ∃ q, Matches env k.args q ∧
      (w.db.exec (.getByPromptId k.args.promptId)).2 = .request (some q) := by
  obtain ⟨q, hq, hp, hh⟩ := hf
  refine ⟨q, ⟨hp, hh⟩, ?_⟩
  exact congrArg Res.request (Table.find?_uk hq hp)

/-- A row read by a prompt id carries it. -/
theorem mem_of_read {db : Db} {p : String} {q : PromptRequest}
    (h : PromptRequestRepository.getByPromptId db p = some q) :
    q ∈ db.requests.rows ∧ q.promptId = p := by
  refine ⟨List.mem_of_find?_eq_some h, ?_⟩
  simpa [Keyed.uk] using List.find?_some h

/-- What a call knows after its next transaction. -/
theorem knows_step (h : Move env w e w') (hH : Agreed env w e) {c : Nat} {k : Call}
    (hk : w.calls c = some k) (hi : Knows env w k) {now : Time} {inTime : Bool} {t : Tx}
    (he : e = .call c now inTime) (ht : PromptProcessor.call env k now = some t) :
    Knows env w' { k with stage := PromptProcessor.resume env k inTime (w.db.exec t).2 } := by
  subst he
  have after : ∀ {q}, Matches env k.args q → Found env w k.args →
      Knows env w' { k with stage := PromptProcessor.afterRead (some q) inTime } := by
    intro q hm hf
    unfold PromptProcessor.afterRead
    dsimp only
    split
    · exact hm
    · split <;> exact found_move h hf
  cases hst : k.stage with
  | check =>
      cases PromptProcessor.tx_of_reads (by rw [hst]; rfl) ht
      simp only [PromptProcessor.resume, hst, Db.exec]
      cases hd : IdempotencyService.check k.args.promptId (env.hashText k.args.text)
          (PromptRequestRepository.getByPromptId w.db k.args.promptId) with
      | error exc => trivial
      | ok d =>
          have found : ∀ {row}, d.existing = some row →
              Found env w k.args ∧ Matches env k.args row := by
            intro row hrow
            obtain ⟨hfind, hhash⟩ := check_existing hd hrow
            obtain ⟨hmem, hp⟩ := mem_of_read hfind
            exact ⟨⟨row, hmem, hp, hhash⟩, hp, hhash⟩
          cases d with
          | insertNew => trivial
          | returnExisting row => exact ⟨found_move h (found rfl).1, (found rfl).2⟩
          | awaitExisting row => exact found_move h (found rfl).1
          | reenqueue row => exact found_move h (found rfl).1
  | returnExisting x =>
      cases PromptProcessor.tx_of_reads (by rw [hst]; rfl) ht
      simp only [Knows, hst] at hi
      obtain ⟨q, hm, hread⟩ := read_of_found hi.1
      simp only [PromptProcessor.resume, hst, hread, Knows, Option.getD_some]
      unfold PromptProcessor.reportCached
      split <;> exact hm
  | depth =>
      have hcall : PromptProcessor.call env k now = some .queuedDepth :=
        PromptProcessor.turn_iff.mpr (.depth hst)
      cases hcall.symm.trans ht
      simp only [PromptProcessor.resume, hst, Db.exec]
      split <;> trivial
  | insert =>
      obtain ⟨rfl, -⟩ := PromptProcessor.tx_of_insert hst ht
      have hiss : w.issued env (.call c now inTime) = some (.call c,
          .insertWithJob (PromptProcessor.newRequest env k.args) now) :=
        issued_call hk ht
      have hdb := move_issued h
      rw [hiss] at hdb
      simp only [PromptProcessor.resume, hst, Db.exec]
      cases hins : PromptRequestRepository.insertWithJob w.db
          (PromptProcessor.newRequest env k.args) now with
      | some p =>
          obtain ⟨db', r, j⟩ := p
          obtain ⟨hreq, -, -, hr, -⟩ := insertWithJob_some hins
          simp only [Db.exec, hins] at hdb
          refine ⟨r, ?_, ?_⟩
          · rw [hdb, hreq]; exact List.mem_append_right _ (List.mem_singleton_self r)
          · rw [hr]; exact ⟨rfl, rfl⟩
      | none =>
          -- the race is lost: the row that won is the one the step was asked about
          obtain ⟨q, hq, hp⟩ := insertWithJob_none hins
          have hhash := hH k (callOf_eq rfl hk) rfl (by rw [hst]; rfl) q hq hp
          exact found_move h ⟨q, hq, hp, hhash⟩
  | refetch =>
      cases PromptProcessor.tx_of_reads (by rw [hst]; rfl) ht
      simp only [Knows, hst] at hi
      obtain ⟨q, hm, hread⟩ := read_of_found hi
      simp only [PromptProcessor.resume, hst, hread]
      exact found_move h hi
  | reenqueueStatus x =>
      simp only [Knows, hst] at hi
      simp only [PromptProcessor.resume, hst]
      exact found_move h hi
  | reenqueueReset x =>
      simp only [Knows, hst] at hi
      simp only [PromptProcessor.resume, hst]
      exact found_move h hi
  | preCheck =>
      cases PromptProcessor.tx_of_reads (by rw [hst]; rfl) ht
      simp only [Knows, hst] at hi
      obtain ⟨q, hm, hread⟩ := read_of_found hi
      simp only [PromptProcessor.resume, hst, hread]
      exact after hm hi
  | poll =>
      cases PromptProcessor.tx_of_reads (by rw [hst]; rfl) ht
      simp only [Knows, hst] at hi
      obtain ⟨q, hm, hread⟩ := read_of_found hi
      simp only [PromptProcessor.resume, hst, hread]
      exact after hm hi
  | timeoutRead =>
      cases PromptProcessor.tx_of_reads (by rw [hst]; rfl) ht
      simp only [Knows, hst] at hi
      obtain ⟨q, hm, hread⟩ := read_of_found hi
      simp only [PromptProcessor.resume, hst, hread]
      exact hm
  | returned x => rw [PromptProcessor.call, hst] at ht; cases ht
  | conflict x => rw [PromptProcessor.call, hst] at ht; cases ht
  | queueFull x => rw [PromptProcessor.call, hst] at ht; cases ht
  | integrityError => rw [PromptProcessor.call, hst] at ht; cases ht

/-- **One agreed step leaves every call informed.** -/
theorem informed_step (h : Move env w e w') (hi : Informed env w) (hH : Agreed env w e) :
    Informed env w' := by
  intro c k' hk'
  rcases call_cases h hk' with ⟨k, hk, hks⟩ | ⟨args, -, rfl⟩
  · cases hks with
    | same he => exact knows_move h (hi c _ hk)
    | wrote ht => exact knows_step h hH hk (hi c _ hk) rfl ht
  · trivial

theorem informed_reachable (h : (machine env).ReachableWhere (Agreed env) w) :
    Informed env w :=
  invariant_of_moves h informed_init fun _ hi hH hm => informed_step hm hi hH

/-! ## The law -/

/-- A row that another text is stored under is not the one a call asked for. -/
theorem not_found {args : SubmitArgs} {q : PromptRequest} (hq : q ∈ w.db.requests.rows)
    (hp : q.promptId = args.promptId) (hh : q.textHash ≠ env.hashText args.text) :
    ¬ Found env w args := by
  rintro ⟨x, hx, hxp, hxh⟩
  rw [Table.eq_of_uk hq hx (hp.trans hxp.symm)] at hh
  exact hh hxh

/-- How a call ends while its prompt id has another text. -/
theorem ends_in_conflict (h : Move env w e w') (hi : Informed env w) (hH : Agreed env w e)
    {c : Nat} {k k' : Call} (hk : w.calls c = some k) (hk' : w'.calls c = some k')
    (hne : k.stage.ended = false) (hend : k'.stage.ended = true) {q : PromptRequest}
    (hq : q ∈ w'.db.requests.rows) (hp : q.promptId = k'.args.promptId)
    (hh : q.textHash ≠ env.hashText k'.args.text) :
    k'.stage = .conflict (idempotencyConflictError k'.args.promptId) := by
  rcases call_cases h hk' with ⟨k₀, hk₀, hks⟩ | ⟨args, -, rfl⟩
  · cases Option.some.inj (hk₀.symm.trans hk)
    cases hks with
    | same he => rw [hne] at hend; cases hend
    | @wrote _ _ now inTime t ht =>
        have hno : ¬ Found env w k.args := fun hf => not_found hq hp hh (found_move h hf)
        have hknow := hi c k hk
        unfold Knows at hknow
        cases hst : k.stage with
        | check =>
            cases PromptProcessor.tx_of_reads (by rw [hst]; rfl) ht
            simp only [PromptProcessor.resume, hst, Db.exec] at hend ⊢
            cases hd : IdempotencyService.check k.args.promptId (env.hashText k.args.text)
                (PromptRequestRepository.getByPromptId w.db k.args.promptId) with
            | error exc => rw [(check_error_iff.mp hd).1]
            | ok d => rw [hd] at hend; cases d <;> cases hend
        | depth =>
            -- the depth read changes nothing, so the row was there to be agreed with
            obtain ⟨x, hx, rfl⟩ | ⟨j, hins, -⟩ := request_origin h hq
            · have hagree := hH k (callOf_eq rfl hk) rfl (by rw [hst]; rfl) x hx
                ((requestAfter_promptId x).symm.trans hp)
              exact absurd ((requestAfter_textHash x).trans hagree) hh
            · obtain ⟨c₁, k₁, now₁, inTime₁, he, hk₁, hst₁, -⟩ := hins.call
              cases he
              cases hk.symm.trans hk₁
              rw [hst] at hst₁; cases hst₁
        | insert =>
            simp only [PromptProcessor.resume, hst] at hend
            split at hend <;> cases hend
        | refetch => rw [hst] at hknow; exact absurd hknow hno
        | reenqueueStatus x => rw [hst] at hknow; exact absurd hknow hno
        | reenqueueReset x => rw [hst] at hknow; exact absurd hknow hno
        | preCheck => rw [hst] at hknow; exact absurd hknow hno
        | poll => rw [hst] at hknow; exact absurd hknow hno
        | timeoutRead => rw [hst] at hknow; exact absurd hknow hno
        | returnExisting x => rw [hst] at hknow; exact absurd hknow.1 hno
        | returned x => rw [hst] at hne; cases hne
        | conflict x => rw [hst] at hne; cases hne
        | queueFull x => rw [hst] at hne; cases hne
        | integrityError => rw [hst] at hne; cases hne
  · cases hend

/--
**In an agreed run submission is idempotent.** Whatever calls interleave, each
prompt id has one request with one job, a call is only ever handed the row of its
own prompt id and text, and a call whose prompt id has another text ends in the
conflict.
-/
theorem idempotency_agreement (h : (machine env).ReachableWhere (Agreed env) w)
    (hH : Agreed env w e) (hstep : World.step env w e = some w') : Agreement env w w' := by
  have hm := move_of_step hstep
  have ht : Tied env w' := tied_step hm (tied_reachable h)
  have hi := informed_reachable h
  have hi' := informed_step hm hi hH
  refine ⟨fun q hq q' hq' hp => Table.eq_of_uk hq hq' hp, fun q hq => ?_, ?_, ?_⟩
  · obtain ⟨j, hj, hjq⟩ := ht.paired hq
    exact ⟨j, ⟨hj, hjq⟩, fun i hi => Db.job_unique hi.1 hj (hi.2.trans hjq.symm)⟩
  · intro c k row hk hst
    have hknow := hi' c k hk
    simpa only [Knows, hst] using hknow
  · intro c k k' hk hne hk' hend q hq hp hh
    exact ends_in_conflict hm hi hH hk hk' hne hend hq hp hh

/-! ## Two texts under one prompt id -/

/-- Two calls of one prompt id that both read before either inserts. -/
def racingCalls (text₀ text₁ : String) : List Event :=
  [.submit 0 ⟨"u", "p", text₀, "normal"⟩, .submit 1 ⟨"u", "p", text₁, "normal"⟩,
    .call 0 0 true, .call 1 0 true, .call 0 0 true, .call 1 0 true, .call 0 0 true]

/-- With one text the loser of the race joins the winner's row. -/
theorem idempotency_agreement_same_text : ∃ w w',
    (w'.calls 1).map (·.stage) = some .refetch ∧ Agreement deployment w w' := by
  obtain ⟨w, hw, ht⟩ := Machine.reachableWhere_of_run (m := machine deployment)
    (H := Agreed deployment) (E := racingCalls "a" " A ") (p := fun w => decide
      (Agreed deployment w (.call 1 0 true) ∧ (World.step deployment w (.call 1 0 true)).any
        (fun w' => (w'.calls 1).map (·.stage) = some .refetch) = true)) (by decide +kernel)
  obtain ⟨hH, hstep⟩ := of_decide_eq_true ht
  cases hw' : World.step deployment w (.call 1 0 true) with
  | none => rw [hw'] at hstep; cases hstep
  | some w' =>
      rw [hw'] at hstep
      exact ⟨w, w', of_decide_eq_true hstep, idempotency_agreement hw hH hw'⟩

/-- The rest of the run: the winner's request is answered, and the loser reads the answer. -/
def racingAnswer : List Event :=
  [.call 1 0 true, .call 1 0 true, .claim 0 1 [] (some 1), .pipeline 0 1 none,
    .pipeline 0 1 none, .limiter 0 .granted, .llmCall 0, .llmReturn 0 "answer to a",
    .pipeline 0 2 none, .pipeline 0 2 none]

/--
**The loser is handed the answer to the winner's text.** Its insert fails, it
re-reads the row without comparing hashes, and waits for it.
-/
theorem idempotency_disagreement : ∃ w w' e, (machine deployment).Reachable w ∧
    World.step deployment w e = some w' ∧ ¬ Agreement deployment w w' := by
  obtain ⟨w, -, hw, ht⟩ := Machine.reachable_of_run (m := machine deployment)
    (E := racingCalls "a" "b" ++ racingAnswer) (p := fun w => decide
      ((World.step deployment w (.call 1 3 true)).any (fun w' =>
        (w'.calls 1).map (·.args.text) = some "b" ∧
          ((w'.calls 1).bind (·.stage.result)).map (fun row => (row.response, row.textHash))
            = some (some "answer to a", deployment.hashText "a")) = true)) (by decide +kernel)
  have ht := of_decide_eq_true ht
  cases hw' : World.step deployment w (.call 1 3 true) with
  | none => rw [hw'] at ht; cases ht
  | some w' =>
      rw [hw'] at ht
      obtain ⟨htext, hres⟩ := of_decide_eq_true ht
      obtain ⟨k, hk, htext⟩ := Option.map_eq_some_iff.mp htext
      rw [hk] at hres
      obtain ⟨row, hrow, hans⟩ := Option.map_eq_some_iff.mp hres
      refine ⟨w, w', _, hw, hw', fun ha => ?_⟩
      have hm := (ha.returned 1 k row hk (CallStage.result_eq hrow)).2
      rw [(Prod.mk.inj hans).2, htext] at hm
      exact absurd hm (by decide +kernel)

end PromptQueue.Proof
