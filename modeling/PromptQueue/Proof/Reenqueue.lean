import PromptQueue.Proof.Final
import PromptQueue.Proof.Stranded

/-!
# A failed prompt, submitted again

The decision to re-enqueue is taken from one read, and carried out by two updates
that look at nothing. So it takes effect once, and on an idle job, as long as nobody
comes in between: no second caller that reads the same failure, no worker that claims
the job, no pipeline that fails the request again.
-/

namespace PromptQueue

/-- Whether a call is carrying out the re-enqueue of a request. -/
def CallStage.reenqueuesOf (requestId : Nat) (st : CallStage) : Bool :=
  st.reenqueues.any fun x => x.id = requestId

/-- Whether it has the second update to make. -/
def CallStage.resetsOf (requestId : Nat) (st : CallStage) : Bool :=
  st.halfReenqueued.any fun x => x.id = requestId

/-- The job a claim picks. -/
def Event.picks : Event → Option Nat
  | .claim _ _ _ pick => pick
  | _ => none

namespace World

/-- The calls that are re-enqueuing a request. -/
def reenqueuing (w : World) (requestId : Nat) : Finset Nat :=
  w.callsAt (CallStage.reenqueuesOf requestId)

variable {S : Type} [LinearOrder S] (env : Env S)

/-- The row a call's first read decides to re-enqueue. -/
def decides (w : World) (k : Call) : Option PromptRequest :=
  match k.stage, IdempotencyService.check k.args.promptId (env.hashText k.args.text)
      (PromptRequestRepository.getByPromptId w.db k.args.promptId) with
  | .check, .ok (.reenqueue row) => some row
  | _, _ => none

end World

end PromptQueue

namespace PromptQueue.Proof

open PromptQueue Base World

variable {S : Type} [LinearOrder S] {env : Env S} {w w' : World} {e : Event}

/-- The request has failed. -/
def FailedNow (w : World) (q : Nat) : Prop :=
  ∃ r ∈ w.db.requests.rows, r.id = q ∧ r.status = .failed

instance (w : World) (q : Nat) : Decidable (FailedNow w q) :=
  inferInstanceAs (Decidable (∃ r ∈ w.db.requests.rows, _))

/-- A step that does not take the request into `failed`. -/
def NotFailing (env : Env S) (q : Nat) (w : World) (e : Event) : Prop :=
  ∀ w' ∈ World.step env w e, FailedNow w' q → FailedNow w q

instance (env : Env S) (q : Nat) (w : World) : DecidablePred (NotFailing env q w) :=
  fun e => inferInstanceAs (Decidable (∀ w' ∈ World.step env w e, _))

/-- The job of a request is in progress. -/
def InProgress (w : World) (q : Nat) : Prop :=
  ∃ j ∈ w.db.jobs.rows, j.promptRequestId = q ∧ j.status = .processing

instance (w : World) (q : Nat) : Decidable (InProgress w q) :=
  inferInstanceAs (Decidable (∃ j ∈ w.db.jobs.rows, _))

/--
Along steps that meet `H`, from `w` on: between two failures of a request its job is
reset once at most. And no call is about to reset a job in progress.
-/
structure ReenqueuesOnce (env : Env S) (H : World → Event → Prop) (w : World) : Prop where
  once : ∀ q w', (machine env).PathWhere (fun u e => H u e ∧ NotFailing env q u e) w w' →
    resets w'.log q ≤ resets w.log q + 1
  idle : ∀ c k x now inTime, w.calls c = some k → k.stage = .reenqueueReset x →
    (World.step env w (.call c now inTime)).isSome = true → ¬ InProgress w x.id

/--
A step that comes between no decision and its updates: a call decides to re-enqueue a
request only while no other is at it and the job is not in progress; no worker claims
the job of a request that is being re-enqueued; no pipeline fails the request before
the second update.
-/
def Solitary (env : Env S) (w : World) (e : Event) : Prop :=
  (∀ k ∈ w.callOf e, e.writes = true → ∀ x ∈ w.decides env k,
    w.reenqueuing x.id = ∅ ∧ ¬ InProgress w x.id) ∧
  (∀ i ∈ e.picks, ∀ j ∈ w.db.jobs.rows, j.id = i → w.reenqueuing j.promptRequestId = ∅) ∧
  ∀ r ∈ w.runOf e, e.writes = true → r.stage.halfDead = true →
    w.callsAt (CallStage.resetsOf r.req.id) = ∅

instance (env : Env S) (w : World) : DecidablePred (Solitary env w) :=
  fun _ => inferInstanceAs (Decidable (_ ∧ _ ∧ _))

/-! ## How a call gets there -/

/-- Of the reads only the first leads to a re-enqueue, and then it decides so. -/
theorem decided_of_read {k : Call} {inTime : Bool} {x : PromptRequest} (h : k.stage.reads = true)
    (hx : x ∈ (PromptProcessor.resume env k inTime
      (w.db.exec (.getByPromptId k.args.promptId)).2).reenqueues) :
    x ∈ w.decides env k ∧ PromptProcessor.resume env k inTime
      (w.db.exec (.getByPromptId k.args.promptId)).2 = .reenqueueStatus x := by
  have hafter : ∀ row, (PromptProcessor.afterRead row inTime).reenqueues = none := by
    intro row
    unfold PromptProcessor.afterRead
    repeat' split
    all_goals rfl
  unfold decides
  cases hst : k.stage with
  | check =>
      simp only [PromptProcessor.resume, hst, Db.exec] at hx ⊢
      cases hd : IdempotencyService.check k.args.promptId (env.hashText k.args.text)
          (PromptRequestRepository.getByPromptId w.db k.args.promptId) with
      | error exc => rw [hd] at hx; cases hx
      | ok d =>
          rw [hd] at hx
          cases d with
          | reenqueue row => cases hx; exact ⟨rfl, rfl⟩
          | _ => cases hx
  | returnExisting y => simp [PromptProcessor.resume, hst, Db.exec, CallStage.reenqueues] at hx
  | refetch =>
      simp only [PromptProcessor.resume, hst, Db.exec] at hx
      split at hx <;> cases hx
  | preCheck =>
      simp only [PromptProcessor.resume, hst, Db.exec] at hx
      rw [hafter] at hx; cases hx
  | poll =>
      simp only [PromptProcessor.resume, hst, Db.exec] at hx
      rw [hafter] at hx; cases hx
  | timeoutRead => simp [PromptProcessor.resume, hst, Db.exec, CallStage.reenqueues] at hx
  | _ => rw [hst] at h; cases h

/-- **How a call comes to be re-enqueuing a request:** it was already, or it just decided to. -/
theorem reenqueue_from {c : Nat} {k k' : Call} {x : PromptRequest}
    (h : CallStep env w e c k k') (hx : x ∈ k'.stage.reenqueues) :
    (k' = k ∧ e.caller ≠ some c) ∨
      (∃ now inTime, e = .call c now inTime ∧ k.stage = .reenqueueStatus x ∧
        k'.stage = .reenqueueReset x) ∨
      ∃ now inTime, e = .call c now inTime ∧ x ∈ w.decides env k ∧
        k'.stage = .reenqueueStatus x := by
  cases h with
  | same he => exact .inl ⟨rfl, he⟩
  | @wrote c k now inTime t ht =>
      right
      dsimp only at hx ⊢
      cases PromptProcessor.turn_iff.mp ht with
      | read hst =>
          obtain ⟨hd, hres⟩ := decided_of_read hst hx
          exact .inr ⟨now, inTime, rfl, hd, hres⟩
      | depth hst =>
          simp only [PromptProcessor.resume, hst, Db.exec] at hx
          split at hx <;> cases hx
      | insert hst =>
          simp only [PromptProcessor.resume, hst] at hx
          split at hx <;> cases hx
      | reenqueue hst =>
          simp only [PromptProcessor.resume, hst] at hx ⊢
          cases hx
          exact .inl ⟨now, inTime, rfl, rfl, rfl⟩
      | reset hst =>
          simp only [PromptProcessor.resume, hst] at hx
          cases hx

/-- What it is to decide to re-enqueue. -/
theorem decides_iff {k : Call} {x : PromptRequest} : x ∈ w.decides env k ↔ k.stage = .check ∧
    IdempotencyService.check k.args.promptId (env.hashText k.args.text)
      (PromptRequestRepository.getByPromptId w.db k.args.promptId) = .ok (.reenqueue x) := by
  unfold decides
  constructor
  · intro h
    split at h
    · rename_i row hst hcheck
      cases h
      exact ⟨hst, hcheck⟩
    · cases h
  · rintro ⟨hst, hcheck⟩
    rw [hst, hcheck]
    rfl

/-- A decision to re-enqueue is taken on a failed row. -/
theorem failed_of_decides {k : Call} {x : PromptRequest} (h : x ∈ w.decides env k) :
    FailedNow w x.id := by
  obtain ⟨-, hcheck⟩ := decides_iff.mp h
  obtain ⟨hfound, -⟩ := check_existing hcheck rfl
  exact ⟨_, List.mem_of_find?_eq_some hfound, rfl, check_reenqueue hcheck⟩

/-- Who is re-enqueuing a request, without a look at the history. -/
theorem mem_reenqueuing (hi : OnRecord w) {c q : Nat} :
    c ∈ w.reenqueuing q ↔ ∃ k, w.calls c = some k ∧ ∃ x ∈ k.stage.reenqueues, x.id = q := by
  have hat : ∀ st : CallStage, st.reenqueuesOf q = true ↔ ∃ x ∈ st.reenqueues, x.id = q := by
    intro st
    unfold CallStage.reenqueuesOf
    cases st.reenqueues <;> simp
  unfold reenqueuing
  rw [mem_callsAt hi rfl]
  simp only [hat]

/-- Nobody who is re-enqueuing a request is caught by a step that asks for nobody. -/
theorem nobody {q : Nat} (hi : OnRecord w) (h : w.reenqueuing q = ∅) {c : Nat} {k : Call}
    {x : PromptRequest} (hk : w.calls c = some k) (hx : x ∈ k.stage.reenqueues)
    (hid : x.id = q) : False := by
  have hc := (mem_reenqueuing hi).mpr ⟨k, hk, x, hx, hid⟩
  rw [h] at hc
  exact absurd hc (Finset.notMem_empty c)

/-! ## The invariant -/

/-- What holds around a re-enqueue. -/
structure Sole (w : World) : Prop where
  /-- A request is re-enqueued by one call at a time. -/
  one : ∀ {c c' k k' x x'}, w.calls c = some k → w.calls c' = some k' →
    x ∈ k.stage.reenqueues → x' ∈ k'.stage.reenqueues → x.id = x'.id → c = c'
  /-- Its job is not in progress. -/
  idle : ∀ {c k x}, w.calls c = some k → x ∈ k.stage.reenqueues → ¬ InProgress w x.id
  /-- Between the two updates the request is not failed. -/
  lifted : ∀ {c k x}, w.calls c = some k → k.stage = .reenqueueReset x → ¬ FailedNow w x.id

theorem sole_init : Sole World.init := ⟨nofun, nofun, nofun⟩

/-- A call that re-enqueues was at it before, or has decided to just now. -/
theorem reenqueue_back (h : Move env w e w') {c : Nat} {k' : Call} {x : PromptRequest}
    (hk' : w'.calls c = some k') (hx : x ∈ k'.stage.reenqueues) :
    (∃ k, w.calls c = some k ∧ x ∈ k.stage.reenqueues) ∨
      ∃ k now inTime, e = .call c now inTime ∧ w.calls c = some k ∧ x ∈ w.decides env k := by
  rcases call_cases h hk' with ⟨k, hk, hks⟩ | ⟨args, -, rfl⟩
  · rcases reenqueue_from hks hx with ⟨rfl, -⟩ | ⟨now, inTime, -, hst, -⟩ |
      ⟨now, inTime, he, hd, -⟩
    · exact .inl ⟨k', hk, hx⟩
    · exact .inl ⟨k, hk, by rw [hst]; rfl⟩
    · exact .inr ⟨k, now, inTime, he, hk, hd⟩
  · cases hx

/-- The job of a request that is being re-enqueued is claimed by nobody. -/
theorem idle_step (h : Move env w e w') (hH : Solitary env w e) {q : Nat}
    (hn : ¬ InProgress w q) (hc : w.reenqueuing q ≠ ∅ ∨ e.picks = none) : ¬ InProgress w' q := by
  rintro ⟨j', hj', hq, hp⟩
  rcases job_cases h hj' with ⟨j, hj, hst⟩ | ⟨r, hins⟩
  · cases hst with
    | same => exact hn ⟨_, hj, hq, hp⟩
    | extended hs hh => exact hn ⟨_, hj, hq, hh.2.2⟩
    | @claimed s now locked pick _ hs hpick hd =>
        have hempty : w.reenqueuing j.promptRequestId = ∅ := hH.2.1 j.id hpick.symm j hj rfl
        have hq : j.promptRequestId = q := hq
        rw [hq] at hempty
        rcases hc with hc | hc
        · exact hc hempty
        · rw [Event.picks, ← hpick] at hc; cases hc
    | released hs hst ho => cases hp
    | completed hs hst hid => cases hp
    | buried hs hst hid => cases hp
    | reset hc hst hid => cases hp
    | requeued hr => cases hp
    | expired hx => cases hp
  · obtain ⟨c, k, now, inTime, -, -, -, -, rfl⟩ := hins.call
    cases hp

/-- A request between the two updates is failed by nobody. -/
theorem lifted_step (h : Move env w e w') (hrec : OnRecord w) (hi : Sole w)
    (hH : Solitary env w e) {c : Nat} {k : Call} {x : PromptRequest} (hk : w.calls c = some k)
    (hst : k.stage = .reenqueueReset x) : ¬ FailedNow w' x.id := by
  have hx : x ∈ k.stage.reenqueues := by rw [hst]; rfl
  rintro ⟨q', hq', hid, hf⟩
  rcases request_origin h hq' with ⟨q, hq, rfl⟩ | ⟨j, hins, -⟩
  · rw [requestAfter_id] at hid
    have hstep := request_step h q
    generalize w.requestAfter env e q = q' at hstep hf
    cases hstep with
    | same => exact hi.lifted hk hst ⟨q, hq, hid, hf⟩
    | reenqueued hc hs hr => cases hf
    | retried hs hs' hr => cases hf
    | completed hs hs' hr => cases hf
    | requeued hj hr hq => cases hf
    | @failed s now top1 r _ exc hs hs' hr =>
        have hempty := hH.2.2 r (runOf_eq rfl hs) rfl (by rw [hs']; rfl)
        have hmem : c ∈ w.callsAt (CallStage.resetsOf r.req.id) := by
          refine (mem_callsAt hrec rfl).mpr ⟨k, hk, ?_⟩
          rw [hst]
          exact decide_eq_true (hid.symm.trans hr)
        rw [hempty] at hmem
        exact absurd hmem (Finset.notMem_empty c)
    | expired hj hxp hq =>
        exact hi.idle hk hx ⟨_, hj, hq.symm.trans hid, hxp.1.1⟩
  · obtain ⟨c, k, now, inTime, -, -, -, rfl, -⟩ := hins.call
    cases hf

/-- **One solitary step keeps the re-enqueues apart.** -/
theorem sole_step (h : Move env w e w') (hrec : OnRecord w) (hi : Sole w)
    (hH : Solitary env w e) : Sole w' where
  one := by
    intro c c' k k' x x' hk hk' hx hx' hid
    rcases reenqueue_back h hk hx with ⟨i, hi', hxi⟩ | ⟨i, now, inTime, rfl, hi', hd⟩
    · rcases reenqueue_back h hk' hx' with ⟨i', hi₂, hxi'⟩ | ⟨i', now, inTime, rfl, hi₂, hd⟩
      · exact hi.one hi' hi₂ hxi hxi' hid
      · exact (nobody hrec (hH.1 i' (callOf_eq rfl hi₂) rfl x' hd).1 hi' hxi hid).elim
    · rcases reenqueue_back h hk' hx' with ⟨i', hi₂, hxi'⟩ | ⟨i', now', inTime', he, -, -⟩
      · exact (nobody hrec (hH.1 i (callOf_eq rfl hi') rfl x hd).1 hi₂ hxi' hid.symm).elim
      · cases he
        rfl
  idle := by
    intro c k' x hk' hx
    rcases reenqueue_back h hk' hx with ⟨k, hk, hxk⟩ | ⟨k, now, inTime, rfl, hk, hd⟩
    · refine idle_step h hH (hi.idle hk hxk) (.inl fun hempty => ?_)
      exact nobody hrec hempty hk hxk rfl
    · exact idle_step h hH (hH.1 k (callOf_eq rfl hk) rfl x hd).2 (.inr rfl)
  lifted := by
    intro c k' x hk' hst
    rcases call_cases h hk' with ⟨k, hk, hks⟩ | ⟨args, -, rfl⟩
    · rcases reenqueue_from hks (by rw [hst]; rfl) with ⟨rfl, -⟩ | ⟨now, inTime, rfl, hs, -⟩ |
        ⟨now, inTime, rfl, -, hs⟩
      · exact lifted_step h hrec hi hH hk hst
      · -- the first update: the row is queued now
        rintro ⟨q', hq', hid, hf⟩
        rcases request_origin h hq' with ⟨q, hq, rfl⟩ | ⟨j, hins, -⟩
        · have hcall : PromptProcessor.call env k now = some (.updateStatus x.id .queued now) :=
            PromptProcessor.turn_iff.mpr (.reenqueue hs)
          rw [requestAfter_id] at hid
          rw [requestAfter_call hk hcall, Tx.onRequest, Table.updateRow, if_pos hid] at hf
          cases hf
        · obtain ⟨c, k, now, inTime, -, -, -, rfl, -⟩ := hins.call
          cases hf
      · rw [hs] at hst; cases hst
    · cases hst

theorem sole_reachable (h : (machine env).ReachableWhere (Solitary env) w) : Sole w :=
  invariant_of_moves h sole_init fun hr hi hH hm =>
    sole_step hm (onRecord_reachable hr) hi hH

/-! ## Once -/

/-- The request has failed, or a call is on the way to reset its job. -/
def ResetAhead (w : World) (q : Nat) : Prop :=
  FailedNow w q ∨ ∃ c k x, w.calls c = some k ∧ x ∈ k.stage.reenqueues ∧ x.id = q

/-- A reset uses up what was ahead. -/
theorem nothing_ahead_of_reset (h : Move env w e w') (hi : Sole w) {who : Proc} {q : Nat}
    {now : Time} (hiss : w.issued env e = some (who, .resetJob q now))
    (hq : FailedNow w' q → FailedNow w q) : ¬ ResetAhead w' q := by
  obtain ⟨c, k, inTime, x, rfl, -, hk, hst, rfl⟩ := reset_issuer hiss
  have hx : x ∈ k.stage.reenqueues := by rw [hst]; rfl
  rintro (hf | ⟨c', k', x', hk', hx', hid⟩)
  · exact hi.lifted hk hst (hq hf)
  · rcases call_cases h hk' with ⟨i, hi', his⟩ | ⟨args, he, -⟩
    · rcases reenqueue_from his hx' with ⟨rfl, he⟩ | ⟨now', inTime', he, hs, -⟩ |
        ⟨now', inTime', he, hd, -⟩
      · exact he (congrArg some (hi.one hk hi' hx hx' hid.symm))
      · cases he
        cases Option.some.inj (hk.symm.trans hi')
        rw [hst] at hs; cases hs
      · cases he
        cases Option.some.inj (hk.symm.trans hi')
        unfold decides at hd
        rw [hst] at hd
        cases hd
    · cases he

/-- Nothing else puts a reset ahead but a failure. -/
theorem ahead_back (h : Move env w e w') {q : Nat} (hq : FailedNow w' q → FailedNow w q)
    (ha : ResetAhead w' q) : ResetAhead w q := by
  rcases ha with hf | ⟨c, k', x, hk', hx, rfl⟩
  · exact .inl (hq hf)
  · rcases reenqueue_back h hk' hx with ⟨k, hk, hxk⟩ | ⟨k, now, inTime, -, -, hd⟩
    · exact .inr ⟨c, k, x, hk, hxk, rfl⟩
    · exact .inl (failed_of_decides hd)

/-- **Between two failures one reset:** what was counted, and whether another is ahead. -/
theorem oneReset_step (h : Move env w e w') (hi : Sole w) {q n : Nat}
    (hq : FailedNow w' q → FailedNow w q)
    (hn : resets w.log q ≤ n ∨ (resets w.log q = n + 1 ∧ ¬ ResetAhead w q)) :
    resets w'.log q ≤ n ∨ (resets w'.log q = n + 1 ∧ ¬ ResetAhead w' q) := by
  rcases resets_cases h q with heq | ⟨who, now, hiss⟩
  · rw [heq]
    exact hn.imp_right fun ⟨hr, ha⟩ => ⟨hr, fun ha' => ha (ahead_back h hq ha')⟩
  · have hnone := nothing_ahead_of_reset h hi hiss hq
    have hone := resets_of_reset h hiss
    rcases hn with hle | ⟨-, ha⟩
    · rcases Nat.lt_or_eq_of_le hle with hlt | heq
      · left; omega
      · right; exact ⟨by omega, hnone⟩
    · -- the call that resets was on its way already
      obtain ⟨c, k, inTime, x, -, -, hk, hst, hid⟩ := reset_issuer hiss
      exact absurd (.inr ⟨c, k, x, hk, by rw [hst]; rfl, hid⟩) ha

/--
**In a solitary run a failed prompt is re-enqueued once**, whatever calls are made for
it: between two failures of the request its job is reset once at most, and never while
a worker has it.
-/
theorem reenqueued_once (h : (machine env).ReachableWhere (Solitary env) w) :
    ReenqueuesOnce env (Solitary env) w where
  once := by
    intro q w' hp
    have hcount : resets w'.log q ≤ resets w.log q ∨
        (resets w'.log q = resets w.log q + 1 ∧ ¬ ResetAhead w' q) := by
      refine Machine.PathWhere.invariant_within (H := Solitary env)
        (I := fun u => resets u.log q ≤ resets w.log q ∨
          (resets u.log q = resets w.log q + 1 ∧ ¬ ResetAhead u q))
        hp (.inl (Nat.le_refl _)) h (fun _ _ hK => hK.1) ?_
      intro u v e hu hn hK hs
      exact oneReset_step (move_of_step hs) (sole_reachable hu) (hK.2 v hs) hn
    rcases hcount with hle | ⟨heq, -⟩
    · exact Nat.le_succ_of_le hle
    · exact Nat.le_of_eq heq
  idle := by
    intro c k x now inTime hk hst _
    exact (sole_reachable h).idle hk (by rw [hst]; rfl)

/-! ## A step that comes between -/

/-- The rows the calls are re-enqueuing are rows of their prompts. -/
def Aimed (env : Env S) (w : World) : Prop :=
  ∀ c k x, w.calls c = some k → x ∈ k.stage.reenqueues →
    x.promptId = k.args.promptId ∧ x.textHash = env.hashText k.args.text ∧
      ∃ q ∈ w.db.requests.rows, q.static = x.static

theorem aimed_step (h : Move env w e w') (hi : Aimed env w) : Aimed env w' := by
  intro c k' x hk' hx
  have row : ∀ {q : PromptRequest}, q ∈ w.db.requests.rows → q.static = x.static →
      ∃ q' ∈ w'.db.requests.rows, q'.static = x.static :=
    fun hq hst => ⟨_, request_goes_on h hq, (requestAfter_static _).trans hst⟩
  rcases call_cases h hk' with ⟨k, hk, hks⟩ | ⟨args, -, rfl⟩
  · have hargs : k'.args = k.args := by
      cases hks <;> rfl
    rw [hargs]
    rcases reenqueue_back h hk' hx with ⟨i, hi', hxi⟩ | ⟨i, now, inTime, -, hi', hd⟩
    · cases Option.some.inj (hk.symm.trans hi')
      obtain ⟨hp, hh, q, hq, hst⟩ := hi c k x hk hxi
      exact ⟨hp, hh, row hq hst⟩
    · cases Option.some.inj (hk.symm.trans hi')
      obtain ⟨-, hcheck⟩ := decides_iff.mp hd
      obtain ⟨hfound, hh⟩ := check_existing hcheck rfl
      have hp : x.promptId = k.args.promptId := by
        simpa [Keyed.uk] using List.find?_some hfound
      exact ⟨hp, hh, row (List.mem_of_find?_eq_some hfound) rfl⟩
  · cases hx

theorem aimed_reachable {H : World → Event → Prop} (h : (machine env).ReachableWhere H w) :
    Aimed env w :=
  invariant_of_moves h (by intro c k x hk; cases hk) fun _ hi _ hm => aimed_step hm hi

/-- There is always a call that was not made yet. -/
theorem calls_bounded {H : World → Event → Prop} (h : (machine env).ReachableWhere H w) :
    ∃ n, ∀ c, n ≤ c → w.calls c = none := by
  refine invariant_of_moves (I := fun w => ∃ n, ∀ c, n ≤ c → w.calls c = none) h
    ⟨0, fun _ _ => rfl⟩ ?_
  rintro u v e - ⟨n, hn⟩ - hm
  cases hc : e.caller with
  | none =>
      refine ⟨n, fun c hle => ?_⟩
      rw [call_frame hm (by simp [hc])]
      exact hn c hle
  | some c₀ =>
      refine ⟨max n (c₀ + 1), fun c hle => ?_⟩
      have hne : e.caller ≠ some c := by
        rw [hc]
        intro heq
        cases heq
        omega
      rw [call_frame hm hne]
      exact hn c (by omega)

/-- No transaction of a call fails a request. -/
theorem notFailing_call (q c : Nat) (now : Time) (inTime : Bool) :
    NotFailing env q w (.call c now inTime) := by
  rintro w' hw' ⟨q', hq', hid, hf⟩
  have hm := move_of_step hw'
  rcases request_origin hm hq' with ⟨p, hp, rfl⟩ | ⟨j, hins, -⟩
  · rw [requestAfter_id] at hid
    have hstep := request_step hm p
    generalize w.requestAfter env (.call c now inTime) p = p' at hstep hf
    cases hstep with
    | same => exact ⟨p, hp, hid, hf⟩
    | reenqueued hc hs hr => cases hf
  · obtain ⟨c', k, now', inTime', -, -, -, rfl, -⟩ := hins.call
    cases hf

/-- Steps that do not take a request into `failed`. -/
def Quiet (env : Env S) (q : Nat) (w : World) (e : Event) : Prop :=
  Machine.Always w e ∧ NotFailing env q w e

/-- A call that is re-enqueuing gets to its second update, and nothing else moves. -/
theorem to_reset (env : Env S) (q : Nat) {c : Nat} {k : Call} {x : PromptRequest}
    (hk : w.calls c = some k) (hx : x ∈ k.stage.reenqueues) :
    ∃ u i, (machine env).PathWhere (Quiet env q) w u ∧ u.calls c = some i ∧
      i.stage = .reenqueueReset x ∧ (∀ c', c' ≠ c → u.calls c' = w.calls c') ∧
      u.db.jobs = w.db.jobs ∧ resets w.log q ≤ resets u.log q := by
  cases hst : k.stage with
  | reenqueueStatus y =>
      rw [hst] at hx
      cases hx
      have hs : World.step env w (.call c 0 true)
          = some ((w.commit (.call c) (.updateStatus x.id .queued 0)).setCall c
            (some { k with stage := .reenqueueReset x })) := by
        simp only [World.step, hk, PromptProcessor.call, PromptProcessor.resume, hst,
          Option.map_some]
      have hm := move_of_step hs
      refine ⟨_, { k with stage := .reenqueueReset x },
        Relation.ReflTransGen.single ⟨_, ⟨trivial, notFailing_call q c 0 true⟩, hs⟩,
        setCall_calls_self _ _ _, rfl, fun c' hne => setCall_calls_ne _ _ hne, rfl,
        resets_mono hm q⟩
  | reenqueueReset y =>
      rw [hst] at hx
      cases hx
      exact ⟨w, k, Relation.ReflTransGen.refl, hk, hst, fun _ _ => rfl, rfl, Nat.le_refl _⟩
  | _ => rw [hst] at hx; cases hx

/-- A call that is re-enqueuing can carry it out. -/
theorem carries_out (env : Env S) {q c : Nat} {k : Call} {x : PromptRequest}
    (hk : w.calls c = some k) (hx : x ∈ k.stage.reenqueues) (hid : x.id = q) :
    ∃ u, (machine env).PathWhere (Quiet env q) w u ∧
      (∀ c', c' ≠ c → u.calls c' = w.calls c') ∧ resets w.log q + 1 ≤ resets u.log q := by
  subst hid
  obtain ⟨u, i, hp, hi, hst, hcalls, -, hle⟩ := to_reset env x.id hk hx
  have hcall : PromptProcessor.call env i 0 = some (.resetJob x.id 0) :=
    PromptProcessor.turn_iff.mpr (.reset hst)
  have hs : World.step env u (.call c 0 true)
      = some ((u.commit (.call c) (.resetJob x.id 0)).setCall c
        (some { i with stage := .preCheck })) := by
    simp only [World.step, hi, hcall, PromptProcessor.resume, hst, Option.map_some]
  have hm := move_of_step hs
  have hone := resets_of_reset hm (reset_issued hi hst)
  refine ⟨_, hp.tail ⟨_, ⟨trivial, notFailing_call x.id c 0 true⟩, hs⟩, fun c' hne => ?_, ?_⟩
  · exact (setCall_calls_ne _ _ hne).trans (hcalls c' hne)
  · rw [hone]
    omega

/-- **Two calls at it reset twice.** -/
theorem twice_of_two (env : Env S) {c c' : Nat} {k k' : Call} {x x' : PromptRequest}
    (hne : c' ≠ c) (hk : w.calls c = some k) (hk' : w.calls c' = some k')
    (hx : x ∈ k.stage.reenqueues) (hx' : x' ∈ k'.stage.reenqueues) (hid : x.id = x'.id) :
    ¬ ReenqueuesOnce env Machine.Always w := by
  intro honce
  obtain ⟨u, hp, hcalls, hle⟩ := carries_out env hk hx hid
  obtain ⟨v, hp', -, hle'⟩ := carries_out env ((hcalls c' hne).trans hk') hx' rfl
  have hall := honce.once x'.id v (hp.trans hp')
  omega

/-- **A call at it resets a job in progress**, if there is one to reset. -/
theorem reset_in_progress (env : Env S) {c : Nat} {k : Call} {x : PromptRequest}
    (hk : w.calls c = some k) (hx : x ∈ k.stage.reenqueues) (hin : InProgress w x.id) :
    ∃ u, (machine env).PathWhere Machine.Always w u ∧ ¬ ReenqueuesOnce env Machine.Always u := by
  obtain ⟨u, i, hp, hi, hst, -, hjobs, -⟩ := to_reset env x.id hk hx
  refine ⟨u, hp.mono fun _ _ hq => hq.1, fun honce => ?_⟩
  refine honce.idle c i x 0 true hi hst ?_ ?_
  · have hcall : PromptProcessor.call env i 0 = some (.resetJob x.id 0) :=
      PromptProcessor.turn_iff.mpr (.reset hst)
    simp only [World.step, hi, hcall, Option.map_some, Option.isSome_some]
  · unfold InProgress
    rw [hjobs]
    exact hin

/-- A decision is taken from a read. -/
theorem step_of_decides {c : Nat} {k : Call} {x : PromptRequest} {now : Time} {inTime : Bool}
    (hk : w.calls c = some k) (hd : x ∈ w.decides env k)
    (hs : World.step env w (.call c now inTime) = some w') :
    w'.calls c = some { k with stage := .reenqueueStatus x } ∧
      (∀ c', c' ≠ c → w'.calls c' = w.calls c') ∧ w'.db = w.db := by
  obtain ⟨hst, hcheck⟩ := decides_iff.mp hd
  simp only [World.step, hk] at hs
  obtain ⟨t, ht, rfl⟩ := Option.map_eq_some_iff.mp hs
  cases PromptProcessor.tx_of_reads (by rw [hst]; rfl) ht
  refine ⟨?_, fun c' hne => setCall_calls_ne _ _ hne, rfl⟩
  rw [setCall_calls_self]
  simp only [PromptProcessor.resume, hst, Db.exec, hcheck]

/-- A request that is failed before its job is reset is re-enqueued once more by a new call. -/
theorem twice_of_failed (hreach : (machine env).Reachable w) {c : Nat} {k : Call}
    {x : PromptRequest} (hk : w.calls c = some k) (hx : x ∈ k.stage.reenqueues)
    (hf : FailedNow w x.id) :
    ∃ u, (machine env).PathWhere Machine.Always w u ∧ ¬ ReenqueuesOnce env Machine.Always u := by
  obtain ⟨hp, hh, q, hq, hqx⟩ := aimed_reachable hreach c k x hk hx
  obtain ⟨q₀, hq₀, hid₀, hfail⟩ := hf
  have hqid : q.id = x.id := congrArg (·.1) hqx
  have heq : q₀ = q := Db.request_eq_of_id hq₀ hq (hid₀.trans hqid.symm)
  rw [heq] at hfail
  have hqp : q.promptId = k.args.promptId := (congrArg (·.2.1) hqx).trans hp
  have hqh : q.textHash = env.hashText k.args.text := (congrArg (·.2.2.2.1) hqx).trans hh
  -- the same arguments, under a number that is free
  obtain ⟨n, hn⟩ := calls_bounded hreach
  have hfree := hn n (Nat.le_refl n)
  have hne : c ≠ n := by
    rintro rfl
    rw [hk] at hfree
    cases hfree
  have hs : World.step env w (.submit n k.args)
      = some (w.setCall n (some ⟨k.args, .check⟩)) := by
    simp only [World.step, hfree]
  have hd : q ∈ (w.setCall n (some ⟨k.args, .check⟩)).decides env ⟨k.args, .check⟩ := by
    have hfound : PromptRequestRepository.getByPromptId w.db k.args.promptId = some q :=
      Table.find?_uk hq hqp
    refine decides_iff.mpr ⟨rfl, ?_⟩
    rw [setCall_db, hfound]
    simp [IdempotencyService.check, hqh, hfail]
  have htext : isText k.args.promptId = true := by
    rw [← hqp]
    exact isText_of_fits (rows_fit hreach q hq)
  have hcall : (World.step env (w.setCall n (some ⟨k.args, .check⟩)) (.call n 0 true)).isSome
      = true := by
    simp [World.step, PromptProcessor.call, htext]
  obtain ⟨u, hu⟩ := Option.isSome_iff_exists.mp hcall
  obtain ⟨hnew, hold, -⟩ := step_of_decides (setCall_calls_self _ _ _) hd hu
  have hpath : (machine env).PathWhere Machine.Always w u :=
    (Relation.ReflTransGen.single ⟨.submit n k.args, trivial, hs⟩).tail
      ⟨.call n 0 true, trivial, hu⟩
  refine ⟨u, hpath, ?_⟩
  refine twice_of_two env hne hnew ((hold c hne).trans ((setCall_calls_ne _ _ hne).trans hk)) rfl
    hx hqid

/-- Who is at it, when there is somebody. -/
theorem somebody {q : Nat} (hi : OnRecord w) (hne : w.reenqueuing q ≠ ∅) :
    ∃ c k x, w.calls c = some k ∧ x ∈ k.stage.reenqueues ∧ x.id = q := by
  obtain ⟨c, hc⟩ := Finset.nonempty_iff_ne_empty.mpr hne
  obtain ⟨k, hk, x, hx, hid⟩ := (mem_reenqueuing hi).mp hc
  exact ⟨c, k, x, hk, hx, hid⟩

/-- A claim of a job whose request is being re-enqueued. -/
theorem doubled_of_claim {s : WorkerId} {now : Time} {locked : List Nat} {i : Nat}
    (hreach : (machine env).Reachable w)
    (hs : World.step env w (.claim s now locked (some i)) = some w') {j : ProcessingJob}
    (hj : j ∈ w.db.jobs.rows) (hid : j.id = i) (hne : w.reenqueuing j.promptRequestId ≠ ∅) :
    ∃ u, (machine env).PathWhere Machine.Always w' u ∧
      ¬ ReenqueuesOnce env Machine.Always u := by
  have h := move_of_step hs
  obtain ⟨c, k, x, hk, hx, hid'⟩ := somebody (onRecord_reachable hreach) hne
  have hk' : w'.calls c = some k := by
    refine (call_frame h ?_).trans hk
    intro hc
    cases hc
  have hrow := job_goes_on h hj
  cases h with
  | claim hsl hsel =>
      obtain ⟨j₀, hj₀, hid₀, hdue, -⟩ := hsel
      have heq : j₀ = j := Db.job_eq_of_id hj₀ hj (hid₀.trans hid.symm)
      rw [heq] at hdue
      rw [jobAfter_claim (congrArg some hid) hdue] at hrow
      exact reset_in_progress env hk' hx ⟨_, hrow, hid'.symm, rfl⟩
  | think hs he ht => cases he

/-- A failure of a request between the two updates of its re-enqueue. -/
theorem doubled_of_failure (hreach : (machine env).Reachable w)
    (hs : World.step env w e = some w') {r : Run} (hr : w.runOf e = some r)
    (hw : e.writes = true) (hst : r.stage.halfDead = true) {c : Nat} {k : Call}
    {x : PromptRequest} (hk : w.calls c = some k) (hx : x ∈ k.stage.reenqueues)
    (hid : x.id = r.req.id) :
    ∃ u, (machine env).PathWhere Machine.Always w' u ∧
      ¬ ReenqueuesOnce env Machine.Always u := by
  have h := move_of_step hs
  have hreach' : (machine env).Reachable w' := Machine.ReachableWhere.tail hreach trivial hs
  obtain ⟨s, now, top1, t, y, rfl, hrun, htx, hturn, -⟩ := turn_of_writes h hr hw
  have hk' : w'.calls c = some k := by
    refine (call_frame h ?_).trans hk
    intro hc
    cases hc
  refine twice_of_failed hreach' hk' hx ?_
  obtain ⟨q, hq, hqr⟩ := (tied_reachable hreach).request hrun
  have hqid : q.id = r.req.id := congrArg (·.1) hqr
  have hrow := request_goes_on h hq
  rw [requestAfter_pipeline hrun htx] at hrow
  cases hturn with
  | failed hsf =>
      rw [Tx.onRequest, Table.updateRow, if_pos hqid] at hrow
      exact ⟨_, hrow, hqid.trans hid.symm, rfl⟩
  | _ => simp_all [Stage.halfDead]

/-- **From a step that comes between, a run can go on to reset twice, or a job in progress.** -/
theorem doubled_of_unsolitary (hreach : (machine env).Reachable w)
    (hs : World.step env w e = some w') (hn : ¬ Solitary env w e) :
    ∃ u, (machine env).PathWhere Machine.Always w' u ∧
      ¬ ReenqueuesOnce env Machine.Always u := by
  have hrec := onRecord_reachable hreach
  by_contra hnone
  refine hn ⟨fun k hk hw x hd => ?_, fun i hp j hj hid => ?_, fun r hr hw hst => ?_⟩
  · obtain ⟨c, hc, hk⟩ := Option.bind_eq_some_iff.mp hk
    cases e with
    | call c₀ now inTime =>
        cases hc
        obtain ⟨hnew, hold, hdb⟩ := step_of_decides hk hd hs
        constructor
        · by_contra hne
          obtain ⟨c', k', x', hk', hx', hid⟩ := somebody hrec hne
          -- the call that decides is not at it yet
          have hcc : c' ≠ c := by
            rintro rfl
            cases Option.some.inj (hk.symm.trans hk')
            rw [(decides_iff.mp hd).1] at hx'
            cases hx'
          exact hnone ⟨w', Relation.ReflTransGen.refl,
            twice_of_two env hcc hnew ((hold c' hcc).trans hk') rfl hx' hid.symm⟩
        · intro hin
          refine hnone (reset_in_progress env hnew rfl ?_)
          unfold InProgress
          rw [hdb]
          exact hin
    | pipeline s now top1 => cases hc
    | _ => cases hw
  · by_contra hne
    cases e with
    | claim s now locked pick =>
        have hp : pick = some i := hp
        subst hp
        exact hnone (doubled_of_claim hreach hs hj hid hne)
    | _ => cases hp
  · by_contra hne
    obtain ⟨c, hc⟩ := Finset.nonempty_iff_ne_empty.mpr hne
    obtain ⟨k, hk, hat⟩ := (mem_callsAt hrec rfl).mp hc
    cases hks : k.stage with
    | reenqueueReset x =>
        rw [hks] at hat
        exact hnone (doubled_of_failure hreach hs hr hw hst hk (by rw [hks]; rfl)
          (of_decide_eq_true hat))
    | _ => rw [hks] at hat; cases hat

/-! ## One call, and two -/

/-- A prompt whose first lookup fails: its job is dead, its request failed. -/
def failedOnce : List Event :=
  submission 0 "p" "a" ++ [.claim 0 1 [] (some 1), .dbError 0 "down", .pipeline 0 2 none,
    .pipeline 0 3 none, .next 0]

/-- It is submitted again by one call. -/
theorem reenqueued_once_after_failure : ∃ w,
    resets w.log 1 = 1 ∧ ReenqueuesOnce deployment (Solitary deployment) w := by
  obtain ⟨w, hw, ht⟩ := Machine.reachableWhere_of_run (m := machine deployment)
    (H := Solitary deployment)
    (E := failedOnce ++ [.submit 1 ⟨"u", "p", "a", "normal"⟩, .call 1 4 true, .call 1 5 true,
      .call 1 6 true])
    (p := fun w => decide (resets w.log 1 = 1)) (by decide +kernel)
  exact ⟨w, of_decide_eq_true ht, reenqueued_once hw⟩

/-- Two calls read the failure; the first re-enqueues, and a worker claims the job. -/
def bothDecide : List Event :=
  [.submit 1 ⟨"u", "p", "a", "normal"⟩, .submit 2 ⟨"u", "p", "a", "normal"⟩, .call 1 4 true,
    .call 2 4 true, .call 1 5 true, .call 1 5 true, .claim 0 6 [] (some 1), .call 2 7 true]

/--
**A failed prompt is re-enqueued twice:** the second call resets the job under the
worker that has claimed it.
-/
theorem reenqueued_twice : ∃ w, (machine deployment).Reachable w ∧
    ¬ ReenqueuesOnce deployment Machine.Always w := by
  obtain ⟨w, w', hw, hp, hnone, htwo⟩ := Machine.legs_of_run (m := machine deployment)
    (H := Machine.Always) (K := fun u e => Machine.Always u e ∧ NotFailing deployment 1 u e)
    (E := failedOnce) (F := bothDecide ++ [.call 2 8 true])
    (p := fun w => decide (resets w.log 1 = 0))
    (q := fun w => decide (resets w.log 1 = 2)) (by decide +kernel)
  have hnone := of_decide_eq_true hnone
  have htwo := of_decide_eq_true htwo
  refine ⟨w, hw, fun honce => ?_⟩
  have hle := honce.once 1 w' hp
  omega

end PromptQueue.Proof
