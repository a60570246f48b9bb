import PromptQueue.Api.Routes
import PromptQueue.Proof.Final

/-!
# A result comes with its columns

A request is completed by one statement and failed by two, and each of them sets every
column a reader needs to make sense of the status; the statements that put it back in the
queue may leave old values behind, since a queued request promises nothing. So no
interleaving of the writers can part a status from its columns, whoever they are and
however late they come, and what a client is shown is a row that was once in the table.
-/

namespace PromptQueue

open Base

/-- What the result columns of a request say, given its status. -/
structure ResultFields (q : PromptRequest) : Prop where
  /-- A completed request has its answer and no error. -/
  completed : q.status = .completed → q.response.isSome = true ∧ q.error = none ∧
    q.completedAt.isSome = true ∧ q.cached.isSome = true
  /-- A failed one has its reason. -/
  failed : q.status = .failed → q.error.isSome = true

/-- An `update_status` re-queues, as it does in both places it is called from. -/
def RepositoryCall.Requeues : RepositoryCall → Prop
  | .tx (.updateStatus _ status _) => status = .queued
  | .tx (.updateRetry _ status _ _ _) => status = .queued
  | _ => True

/-- What a client can make of a response. -/
structure Conclusive (body : PromptResponse) : Prop where
  /-- A completed result has an answer, and no error beside it. -/
  completed : body.status = .completed → body.response.isSome = true ∧ body.error = none ∧
    body.cached.isSome = true ∧ body.processingTimeMs.isSome = true
  /-- A failure has a reason. -/
  failed : body.status = .failed → body.error.isSome = true

/-- The results of a world agree with their columns, in the table and wherever they are read. -/
structure ResultsAgree (w : World) : Prop where
  /-- In the table. -/
  rows : ∀ q ∈ w.db.requests.rows, ResultFields q
  /-- In the answer of `GET /result`. -/
  polled : ∀ promptId body, getResult w.db promptId = .ok body → Conclusive body
  /-- In the answer of `POST /process`, when it was read and ever after. -/
  returned : ∀ c k body, w.calls c = some k → processPrompt k = some (.ok body) →
    Conclusive body

/-- The row a call goes on with. -/
def CallStage.row : CallStage → Option PromptRequest
  | .returnExisting existing => some existing
  | .returned result => result
  | _ => none

end PromptQueue

namespace PromptQueue.Proof

open PromptQueue Base World

/-! ## The writers -/

section
variable {db : Db} {c : RepositoryCall} {q : PromptRequest} {now : Time}

theorem resultFields_queued (hs : q.status = .queued) : ResultFields q where
  completed := by rw [hs]; nofun
  failed := by rw [hs]; nofun

theorem resultFields_complete {response : String} {cached : Bool} {embedding : Option Vector} :
    ResultFields (q.complete response cached embedding now) where
  completed _ := ⟨rfl, rfl, rfl, rfl⟩
  failed := nofun

theorem resultFields_failed (hs : q.status = .failed) (he : q.error.isSome = true) :
    ResultFields q where
  completed := by rw [hs]; nofun
  failed _ := he

/-- The reason the reaper gives: the job's own, if it has one. -/
theorem resultFields_syncFailed {dead : List ProcessingJob} :
    ResultFields (ProcessingJobRepository.syncFailed dead now q) := by
  refine resultFields_failed rfl ?_
  simp only [ProcessingJobRepository.syncFailed, Option.isSome_or, Option.isSome_some,
    Bool.or_true]

/-- **Every writer of a request leaves its columns in order**, whatever it finds. -/
theorem resultFields_onRequest (h : ResultFields q) (hc : c.Requeues) :
    ResultFields (c.onRequest db q) := by
  cases c with
  | jobMarkFailed i error now => exact h
  | tx t =>
      simp only [RepositoryCall.onRequest]
      cases t with
      | updateStatus i status now =>
          simp only [Tx.onRequest]
          exact Table.updateRow_ind h fun _ => resultFields_queued hc
      | updateRetry i status n error now =>
          simp only [Tx.onRequest]
          exact Table.updateRow_ind h fun _ => resultFields_queued hc
      | requestMarkCompleted i response cached embedding now =>
          simp only [Tx.onRequest]
          exact Table.updateRow_ind h fun _ => resultFields_complete
      | requestMarkFailed i error n now =>
          simp only [Tx.onRequest]
          exact Table.updateRow_ind h fun _ => resultFields_failed rfl rfl
      | reapExpiredLeases now =>
          simp only [Tx.onRequest, reapRequest]
          refine Table.updateRow_ind ?_ fun _ => resultFields_syncFailed
          exact Table.updateRow_ind h fun _ => resultFields_queued rfl
      | _ => exact h

/-- **After any history of calls** the columns of every request are in order. -/
theorem resultFields_reachable
    (h : Db.machine.ReachableWhere (fun _ c => c.Requeues) db) :
    ∀ q ∈ db.requests.rows, ResultFields q := by
  refine Db.requests_invariant h (fun new now id => ?_) fun hc hq => ?_
  · exact resultFields_queued rfl
  · exact resultFields_onRequest hq hc

/-- A row that is read is in the table. -/
theorem mem_of_res {t : Tx} (h : (db.exec t).2 = .request (some q)) : q ∈ db.requests.rows := by
  cases t with
  | getByPromptId promptId => exact List.mem_of_find?_eq_some (Res.request.inj h)
  | insertWithJob new now =>
      simp only [Db.exec] at h
      split at h <;> cases h
  | _ => cases h

/-- What is shown of a row in order is conclusive. -/
theorem conclusive_toResponse (h : ResultFields q) (userId : String) :
    Conclusive (toResponse q userId) where
  completed := by
    intro hs
    obtain ⟨hr, he, hat, hc⟩ := h.completed hs
    refine ⟨hr, he, hc, ?_⟩
    simp only [toResponse, PromptRequest.processingTimeMs, Option.isSome_map]
    exact hat
  failed := h.failed

/-- The flag of a completed row is set, and is set once more. -/
theorem resultFields_reportCached (h : ResultFields q) :
    ResultFields (PromptProcessor.reportCached q) := by
  unfold PromptProcessor.reportCached
  split
  · refine ⟨fun hs => ?_, h.failed⟩
    obtain ⟨hr, he, hat, -⟩ := h.completed hs
    exact ⟨hr, he, hat, rfl⟩
  · exact h

end

/-! ## The runs of the system -/

section
variable {S : Type} [LinearOrder S] {env : Env S} {w w' : World} {e : Event}
variable {H : World → Event → Prop}

/-- No process sets another status than `queued` by `update_status`. -/
theorem requeues_issued {who : Proc} {t : Tx} (h : w.issued env e = some (who, t)) :
    RepositoryCall.Requeues (.tx t) := by
  cases issues_of_issued h with
  | claim | heartbeat hs | reap => trivial
  | call hc ht =>
      cases PromptProcessor.turn_iff.mp ht with
      | reenqueue hst => rfl
      | _ => trivial
  | pipeline hs ht =>
      obtain ⟨x, -, hturn⟩ := PromptPipeline.turn_of_call w.db ht
      cases hturn with
      | retried hst => rfl
      | _ => trivial

/-- In every reachable world the columns of every request are in order. -/
theorem world_resultFields (h : (machine env).ReachableWhere H w) :
    ∀ q ∈ w.db.requests.rows, ResultFields q :=
  resultFields_reachable (db_reachable h requeues_issued)

/-- What a call reads while it waits, it returns or drops. -/
theorem row_of_afterRead {found : Option PromptRequest} {inTime : Bool} {row : PromptRequest}
    (h : (PromptProcessor.afterRead found inTime).row = some row) : found = some row := by
  unfold PromptProcessor.afterRead at h
  cases found with
  | none => dsimp only at h; split at h <;> cases h
  | some x =>
      dsimp only at h
      split at h
      · cases h
        rfl
      · split at h <;> cases h

/-- A call goes on with the row it just read, or with the one it had. -/
theorem row_of_resume {k : Call} {inTime : Bool} {res : Res} {row : PromptRequest}
    (hk : ∀ x, k.stage.row = some x → ResultFields x)
    (hres : ∀ x, res = .request (some x) → ResultFields x)
    (h : (PromptProcessor.resume env k inTime res).row = some row) : ResultFields row := by
  unfold PromptProcessor.resume at h
  cases hst : k.stage with
  | check =>
      simp only [hst] at h
      split at h
      · rename_i found
        cases hd : IdempotencyService.check k.args.promptId (env.hashText k.args.text) found with
        | error exc => rw [hd] at h; cases h
        | ok d =>
            rw [hd] at h
            cases d <;> cases h
            exact hres row (by rw [(check_existing hd rfl).1])
      · cases h
  | returnExisting existing =>
      simp only [hst] at h
      split at h
      · rename_i found
        cases h
        refine resultFields_reportCached ?_
        cases found with
        | none => exact hk existing (by rw [hst]; rfl)
        | some x => exact hres x rfl
      · exact hk row (by rw [hst]; exact h)
  | depth =>
      simp only [hst] at h
      split at h
      · split at h <;> cases h
      · cases h
  | preCheck | poll =>
      simp only [hst] at h
      split at h
      · exact hres row (congrArg Res.request (row_of_afterRead h))
      · cases h
  | timeoutRead =>
      simp only [hst] at h
      split at h
      · exact hres row (congrArg Res.request h)
      · cases h
  | returned result => exact hk row (by rw [hst] at h ⊢; exact h)
  | insert | refetch => simp only [hst] at h; split at h <;> cases h
  | reenqueueStatus x | reenqueueReset x => rw [hst] at h; cases h
  | conflict exc | queueFull exc => rw [hst] at h; cases h
  | integrityError => rw [hst] at h; cases h

/-- **The row a call goes on with is in order, however old it is.** -/
theorem row_reachable (h : (machine env).ReachableWhere H w) {c : Nat} {k : Call}
    (hk : w.calls c = some k) {row : PromptRequest} (hrow : k.stage.row = some row) :
    ResultFields row := by
  refine invariant_of_moves (I := fun w => ∀ c k, w.calls c = some k →
    ∀ row, k.stage.row = some row → ResultFields row) h (fun _ _ hk => nomatch hk)
    (fun {u v e} hr hi _ hm c k' hk' row' hrow' => ?_) c k hk row hrow
  rcases call_cases hm hk' with ⟨k₀, hk₀, hks⟩ | ⟨args, -, rfl⟩
  · cases hks with
    | same he => exact hi c _ hk₀ row' hrow'
    | wrote ht =>
        refine row_of_resume (hi c _ hk₀) (fun x hx => ?_) hrow'
        exact world_resultFields hr x (mem_of_res hx)
  · cases hrow'

/--
**Results agree with their columns.** After any calls of the repositories, and in every
reachable world: what the table says, and what the clients are shown of it.
-/
theorem results_agree (env : Env S) :
    (∀ db, Db.machine.ReachableWhere (fun _ c => c.Requeues) db →
      ∀ q ∈ db.requests.rows, ResultFields q) ∧
    ∀ w, (machine env).Reachable w → ResultsAgree w := by
  refine ⟨fun db h => resultFields_reachable h, fun w h => ⟨world_resultFields h, ?_, ?_⟩⟩
  · intro promptId body hget
    unfold getResult at hget
    split at hget <;> cases hget
    rename_i row hrow
    exact conclusive_toResponse
      (world_resultFields h row (List.mem_of_find?_eq_some hrow)) row.userId
  · intro c k body hk hp
    unfold processPrompt at hp
    split at hp <;> cases hp
    rename_i row hst
    exact conclusive_toResponse (row_reachable h hk (by rw [hst]; rfl)) k.args.userId

end

/-- A call that waited for its answer is shown it, and how long it took. -/
theorem results_agree_answered : ∃ w, (w.calls 0).bind processPrompt = some (.ok
      { userId := "u", promptId := "p", status := .completed, cached := some false
        response := some "answer", retryCount := some 0, processingTimeMs := some 2000 }) ∧
    ResultsAgree w := by
  obtain ⟨w, -, hreach, hw⟩ := Machine.reachable_of_run (m := machine deployment)
    (E := answeredRun ++ [.call 0 3 true]) (p := fun w => decide ((w.calls 0).bind processPrompt
      = some (.ok { userId := "u", promptId := "p", status := .completed, cached := some false
                    response := some "answer", retryCount := some 0
                    processingTimeMs := some 2000 }))) (by decide +kernel)
  exact ⟨w, of_decide_eq_true hw, (results_agree deployment).2 w hreach⟩

end PromptQueue.Proof
