import PromptQueue.Api.Routes
import PromptQueue.Proof.Agreement

/-!
# What the routes answer

Request rows are only ever added, so a prompt id that was found once is found again. Both
branches of `submit_and_wait` that would have no row to return are dead, and a prompt id that
was answered once is known to `GET /result` from then on. What is left of errors 500 are the
calls a statement or the infrastructure breaks off, and a prompt id its column does not take
gets no further than that, or to a full queue. A call that is turned away has not written
anything: all it did was to ask, once or twice.
-/

namespace PromptQueue

/-- The transactions of one call. -/
def Entry.ofCall (c : Nat) : Entry → Bool
  | .tx (.call c') _ _ => c' = c
  | _ => false

/-- What call `c` did since the history was `n` long. -/
def World.callLog (w : World) (c n : Nat) : List Entry := (w.log.drop n).filter (Entry.ofCall c)

end PromptQueue

namespace PromptQueue.Proof

open PromptQueue Base World

variable {S : Type} [LinearOrder S] {env : Env S} {w w' : World} {e : Event} {c n : Nat}
  {args : SubmitArgs} {k : Call}

/-! ## Rows stay -/

/-- There is a request with this prompt id. -/
def Known (w : World) (promptId : String) : Prop :=
  ∃ q ∈ w.db.requests.rows, q.promptId = promptId

/-- There is a request with this prompt id, for another text. -/
def Occupied (env : Env S) (w : World) (args : SubmitArgs) : Prop :=
  ∃ q ∈ w.db.requests.rows, q.promptId = args.promptId ∧ q.textHash ≠ env.hashText args.text

theorem known_move {p : String} (h : Move env w e w') (hk : Known w p) : Known w' p := by
  obtain ⟨q, hq, hp⟩ := hk
  exact ⟨_, request_goes_on h hq, (requestAfter_promptId q).trans hp⟩

theorem occupied_move (h : Move env w e w') (hk : Occupied env w args) :
    Occupied env w' args := by
  obtain ⟨q, hq, hp, hh⟩ := hk
  refine ⟨_, request_goes_on h hq, (requestAfter_promptId q).trans hp, ?_⟩
  rwa [requestAfter_textHash q]

/-- A prompt id that is known is found. -/
theorem read_of_known {p : String} (hk : Known w p) :
    ∃ q ∈ w.db.requests.rows, q.promptId = p ∧
      (w.db.exec (.getByPromptId p)).2 = .request (some q) := by
  obtain ⟨q, hq, hp⟩ := hk
  exact ⟨q, hq, hp, congrArg Res.request (Table.find?_uk hq hp)⟩

/-! ## What a call has to go by -/

/-- What holds of a call at each of its stages. -/
def Grounded (env : Env S) (w : World) (k : Call) : Prop :=
  match k.stage with
  | .check | .depth | .insert => True
  | .queueFull exc => ∃ n, env.maxQueueDepth ≤ n ∧ exc = queueFullError n env.maxQueueDepth
  | .conflict exc => Occupied env w k.args ∧ exc = idempotencyConflictError k.args.promptId
  | .integrityError | .returned none => False
  | .returned (some row) | .returnExisting row =>
      Known w k.args.promptId ∧ row.promptId = k.args.promptId
  | .refetch | .reenqueueStatus _ | .reenqueueReset _ | .preCheck | .poll | .timeoutRead =>
      Known w k.args.promptId

theorem grounded_move (h : Move env w e w') (hk : Grounded env w k) : Grounded env w' k := by
  unfold Grounded at hk ⊢
  split at hk
  · trivial
  · trivial
  · trivial
  · exact hk
  · exact ⟨occupied_move h hk.1, hk.2⟩
  · exact hk
  · exact hk
  · exact ⟨known_move h hk.1, hk.2⟩
  · exact ⟨known_move h hk.1, hk.2⟩
  all_goals exact known_move h hk

/-- A read after which the call polls on or returns. -/
theorem grounded_afterRead {q : PromptRequest} {inTime : Bool} (hk : Known w k.args.promptId)
    (hp : q.promptId = k.args.promptId) :
    Grounded env w { k with stage := PromptProcessor.afterRead (some q) inTime } := by
  unfold PromptProcessor.afterRead
  dsimp only
  split
  · exact ⟨hk, hp⟩
  · split <;> exact hk

/-- **A call's next transaction leaves it something to go by.** -/
theorem grounded_step (h : Move env w e w') (hk : w.calls c = some k) (hi : Grounded env w k)
    {now : Time} {inTime : Bool} {t : Tx} (he : e = .call c now inTime)
    (ht : PromptProcessor.call env k now = some t) :
    Grounded env w' { k with stage := PromptProcessor.resume env k inTime (w.db.exec t).2 } := by
  subst he
  unfold Grounded at hi
  have hturn := PromptProcessor.turn_iff.mp ht
  obtain ⟨st, hst⟩ : ∃ st, k.stage = st := ⟨_, rfl⟩
  rw [hst] at hi
  cases hturn with
  | depth hd =>
      simp only [PromptProcessor.resume, hd, Db.exec]
      split
      · exact ⟨_, ‹_›, rfl⟩
      · trivial
  | insert hs =>
      simp only [PromptProcessor.resume, hs, Db.exec]
      have hdb := move_issued h
      rw [issued_call hk ht] at hdb
      cases hins : PromptRequestRepository.insertWithJob w.db
          (PromptProcessor.newRequest env k.args) now with
      | some p =>
          obtain ⟨db', r, j⟩ := p
          obtain ⟨hreq, -, -, hr, -⟩ := insertWithJob_some hins
          simp only [Db.exec, hins] at hdb
          refine ⟨r, ?_, by rw [hr]; rfl⟩
          rw [hdb, hreq]
          exact List.mem_append_right _ (List.mem_singleton_self r)
      | none => exact known_move h (insertWithJob_none hins)
  | reenqueue hs =>
      rw [← hst, hs] at hi
      simp only [PromptProcessor.resume, hs]
      exact known_move h hi
  | reset hs =>
      rw [← hst, hs] at hi
      simp only [PromptProcessor.resume, hs]
      exact known_move h hi
  | read hs =>
      rw [hst] at hs
      cases st with
      | check =>
          simp only [PromptProcessor.resume, hst, Db.exec]
          cases hd : IdempotencyService.check k.args.promptId (env.hashText k.args.text)
              (PromptRequestRepository.getByPromptId w.db k.args.promptId) with
          | error exc =>
              obtain ⟨hexc, q, hq, hh⟩ := check_error_iff.mp hd
              obtain ⟨hmem, hp⟩ := mem_of_read hq
              exact ⟨occupied_move h ⟨q, hmem, hp, hh⟩, hexc⟩
          | ok d =>
              have found : ∀ {row}, d.existing = some row →
                  Known w' k.args.promptId ∧ row.promptId = k.args.promptId := by
                intro row hrow
                obtain ⟨hmem, hp⟩ := mem_of_read (check_existing hd hrow).1
                exact ⟨known_move h ⟨row, hmem, hp⟩, hp⟩
              cases d with
              | insertNew => trivial
              | returnExisting row => exact found rfl
              | awaitExisting row => exact (found rfl).1
              | reenqueue row => exact (found rfl).1
      | returnExisting x =>
          obtain ⟨q, -, hp, hread⟩ := read_of_known hi.1
          simp only [PromptProcessor.resume, hst, hread, Option.getD_some]
          refine ⟨known_move h hi.1, ?_⟩
          unfold PromptProcessor.reportCached
          split <;> exact hp
      | refetch =>
          obtain ⟨q, -, hp, hread⟩ := read_of_known hi
          simp only [PromptProcessor.resume, hst, hread]
          exact known_move h hi
      | preCheck =>
          obtain ⟨q, -, hp, hread⟩ := read_of_known hi
          simp only [PromptProcessor.resume, hst, hread]
          exact grounded_afterRead (known_move h hi) hp
      | poll =>
          obtain ⟨q, -, hp, hread⟩ := read_of_known hi
          simp only [PromptProcessor.resume, hst, hread]
          exact grounded_afterRead (known_move h hi) hp
      | timeoutRead =>
          obtain ⟨q, -, hp, hread⟩ := read_of_known hi
          simp only [PromptProcessor.resume, hst, hread]
          exact ⟨known_move h hi, hp⟩
      | _ => cases hs

theorem grounded_reachable (h : (machine env).Reachable w) :
    ∀ c k, w.calls c = some k → Grounded env w k := by
  refine invariant_of_moves (I := fun w => ∀ c k, w.calls c = some k → Grounded env w k) h
    (fun c k hk => by cases hk) fun _ hi _ hm c k' hk' => ?_
  rcases call_cases hm hk' with ⟨k, hk, hks⟩ | ⟨args, -, rfl⟩
  · cases hks with
    | same _ => exact grounded_move hm (hi c _ hk)
    | wrote ht => exact grounded_step hm hk (hi c _ hk) rfl ht
  · trivial

/-! ## The contract of `POST /process` -/

/-- What an answer to a submission promises of the system, and of `GET /result`. -/
def Honours (env : Env S) (w : World) (args : SubmitArgs) : Answer → Prop
  | .ok body => body.userId = args.userId ∧ body.promptId = args.promptId ∧
      ∃ shown, getResult w.db args.promptId = .ok shown ∧ shown.promptId = args.promptId
  | .conflict detail => Occupied env w args ∧
      detail = (idempotencyConflictError args.promptId).message
  | .tooManyRequests detail retryAfter => retryAfter = 5 ∧
      ∃ n, env.maxQueueDepth ≤ n ∧ detail = (queueFullError n env.maxQueueDepth).message
  | .notFound _ | .internalServerError => False

/-- What is known is shown. -/
theorem getResult_of_known {p : String} (hk : Known w p) :
    ∃ shown, getResult w.db p = .ok shown ∧ shown.promptId = p := by
  obtain ⟨q, hq, hp⟩ := hk
  have hfind : PromptRequestRepository.getByPromptId w.db p = some q := Table.find?_uk hq hp
  exact ⟨toResponse q q.userId, by rw [getResult, hfind], hp⟩

theorem known_of_getResult {p : String} {shown : PromptResponse}
    (h : getResult w.db p = .ok shown) : Known w p := by
  unfold getResult at h
  split at h
  · cases h
  · rename_i q hq
    exact ⟨q, mem_of_read hq⟩

theorem honours_move (h : Move env w e w') {a : Answer} (ha : Honours env w args a) :
    Honours env w' args a := by
  cases a with
  | ok body =>
      obtain ⟨hu, hp, shown, hget, -⟩ := ha
      exact ⟨hu, hp, getResult_of_known (known_move h (known_of_getResult hget))⟩
  | conflict detail => exact ⟨occupied_move h ha.1, ha.2⟩
  | tooManyRequests detail retryAfter => exact ha
  | notFound detail => exact ha
  | internalServerError => exact ha

/-- A promise is about a prompt id that is stored, or that was turned away. -/
theorem fits_of_honours (h : (machine env).Reachable w) {a : Answer} (ha : Honours env w args a) :
    fitsVarchar args.promptId = true ∨ ∃ detail seconds, a = .tooManyRequests detail seconds := by
  have stored : ∀ q ∈ w.db.requests.rows, q.promptId = args.promptId →
      fitsVarchar args.promptId = true := by
    intro q hq hp
    rw [← hp]
    exact fitsVarchar_of_fits (rows_fit h q hq)
  cases a with
  | ok body =>
      obtain ⟨-, -, shown, hget, -⟩ := ha
      obtain ⟨q, hq, hp⟩ := known_of_getResult hget
      exact .inl (stored q hq hp)
  | conflict detail =>
      obtain ⟨⟨q, hq, hp, -⟩, -⟩ := ha
      exact .inl (stored q hq hp)
  | tooManyRequests detail seconds => exact .inr ⟨detail, seconds, rfl⟩
  | notFound detail => exact absurd ha not_false
  | internalServerError => exact absurd ha not_false

/-- The transactions of a call so far, while it asks and once it was turned away. -/
def OnlyAsked (env : Env S) (c : Nat) (args : SubmitArgs) (es : List Entry) : CallStage → Prop
  | .check => es = []
  | .depth => es = [.tx (.call c) (.getByPromptId args.promptId) (.request none)]
  | .conflict _ => ∃ q, q.textHash ≠ env.hashText args.text ∧
      es = [.tx (.call c) (.getByPromptId args.promptId) (.request (some q))]
  | .queueFull exc => ∃ n, env.maxQueueDepth ≤ n ∧ exc = queueFullError n env.maxQueueDepth ∧
      es = [.tx (.call c) (.getByPromptId args.promptId) (.request none),
        .tx (.call c) .queuedDepth (.depth n)]
  | _ => True

/-- Another's move is not in a call's history. -/
theorem callLog_same (h : Move env w e w') (he : e.caller ≠ some c) (hn : n ≤ w.log.length) :
    w'.callLog c n = w.callLog c n := by
  obtain ⟨es, hlog, hfresh⟩ := log_cases h
  have hnil : es.filter (Entry.ofCall c) = [] := by
    rw [List.filter_eq_nil_iff]
    intro x hx
    cases hfresh x hx with
    | @tx _ who t ht =>
        cases issues_of_issued ht with
        | @call c' _ _ _ _ hc ht' =>
            simp only [Entry.ofCall, decide_eq_true_eq]
            rintro rfl
            exact he rfl
        | _ => exact Bool.noConfusion
    | thought hs hth ht hx =>
        cases ht <;> simp only [List.mem_cons, List.not_mem_nil, or_false] at hx <;>
          (cases hx; exact Bool.noConfusion)
    | _ => exact Bool.noConfusion
  rw [World.callLog, World.callLog, hlog, List.drop_append_of_le_length hn, List.filter_append,
    hnil, List.append_nil]

/-- A call's own transaction is. -/
theorem callLog_wrote (h : Move env w e w') {t : Tx} (hi : w.issued env e = some (.call c, t))
    (hn : n ≤ w.log.length) :
    w'.callLog c n = w.callLog c n ++ [.tx (.call c) t (w.db.exec t).2] := by
  have htakes : (w.takes t).filter (Entry.ofCall c) = [] := by
    rw [List.filter_eq_nil_iff]
    intro x hx
    unfold takes at hx
    split at hx
    · obtain ⟨j, -, rfl⟩ := List.mem_map.mp hx
      exact Bool.noConfusion
    · cases hx
  have hown : Entry.ofCall c (.tx (.call c) t (w.db.exec t).2) = true := decide_eq_true rfl
  rw [World.callLog, World.callLog, log_issued h hi, List.drop_append_of_le_length hn,
    List.filter_append, List.filter_cons_of_pos hown, htakes]

/-- **A call that has only asked so far** asks once more, or is turned away, or goes on. -/
theorem onlyAsked_wrote {es : List Entry} {now : Time} {inTime : Bool} {t : Tx}
    (hi : OnlyAsked env c k.args es k.stage) (ht : PromptProcessor.call env k now = some t) :
    OnlyAsked env c k.args (es ++ [.tx (.call c) t (w.db.exec t).2])
      (PromptProcessor.resume env k inTime (w.db.exec t).2) := by
  have hread : ∀ (row : Option PromptRequest) es,
      OnlyAsked env c k.args es (PromptProcessor.afterRead row inTime) := by
    intro row es
    unfold PromptProcessor.afterRead
    split
    · split
      · trivial
      · split <;> trivial
    · split <;> trivial
  obtain ⟨st, hst⟩ : ∃ st, k.stage = st := ⟨_, rfl⟩
  rw [hst] at hi
  cases PromptProcessor.turn_iff.mp ht with
  | depth hd =>
      cases hst.symm.trans hd
      simp only [PromptProcessor.resume, hd, Db.exec]
      split
      · exact ⟨_, ‹_›, rfl, by rw [show es = _ from hi]; rfl⟩
      · trivial
  | insert hs =>
      simp only [PromptProcessor.resume, hs]
      split <;> trivial
  | reenqueue hs => simp only [PromptProcessor.resume, hs]; trivial
  | reset hs => simp only [PromptProcessor.resume, hs]; trivial
  | read hs =>
      rw [hst] at hs
      cases st with
      | check =>
          rw [show es = _ from hi]
          simp only [PromptProcessor.resume, hst, Db.exec, List.nil_append]
          cases hd : IdempotencyService.check k.args.promptId (env.hashText k.args.text)
              (PromptRequestRepository.getByPromptId w.db k.args.promptId) with
          | error exc =>
              obtain ⟨-, q, hq, hh⟩ := check_error_iff.mp hd
              exact ⟨q, hh, by rw [hq]⟩
          | ok d =>
              cases d with
              | insertNew =>
                  rw [check_insertNew hd]
                  rfl
              | _ => trivial
      | returnExisting x => simp only [PromptProcessor.resume, hst, Db.exec]; trivial
      | refetch => simp only [PromptProcessor.resume, hst]; split <;> trivial
      | preCheck => simp only [PromptProcessor.resume, hst, Db.exec]; exact hread _ _
      | poll => simp only [PromptProcessor.resume, hst, Db.exec]; exact hread _ _
      | timeoutRead => simp only [PromptProcessor.resume, hst, Db.exec]; trivial
      | _ => cases hs

/--
**A submission that is turned away only asked.** From its first transaction to its answer,
a call that ends in a 409 has read the row of its prompt id and found another text's hash; one
that ends in a 429 has found no row, and then counted the queue, once. It wrote nothing.
-/
theorem rejected_only_asked (h : (machine env).Reachable w) {v : World}
    (hs : World.step env w (.submit c args) = some v)
    (hp : (machine env).PathWhere (fun _ e => e ≠ .callCrash c) v w')
    (hk : w'.calls c = some k) :
    k.args = args ∧
    (∀ detail, processPrompt k = some (.conflict detail) →
      ∃ q, q.textHash ≠ env.hashText args.text ∧ w'.callLog c v.log.length
        = [.tx (.call c) (.getByPromptId args.promptId) (.request (some q))]) ∧
    ∀ detail seconds, processPrompt k = some (.tooManyRequests detail seconds) →
      ∃ n, env.maxQueueDepth ≤ n ∧ detail = (queueFullError n env.maxQueueDepth).message ∧
        w'.callLog c v.log.length
          = [.tx (.call c) (.getByPromptId args.promptId) (.request none),
            .tx (.call c) .queuedDepth (.depth n)] := by
  have hv : v.calls c = some ⟨args, .check⟩ := by
    cases move_of_step hs with
    | submit _ => exact setCall_calls_self ..
    | think _ he _ => cases he
  have hstart : v.callLog c v.log.length = [] := by rw [World.callLog, List.drop_length]; rfl
  have hrv : (machine env).Reachable v := h.tail (e := .submit c args) trivial hs
  have key : v.log.length ≤ w'.log.length ∧ ∃ k, w'.calls c = some k ∧ k.args = args ∧
      OnlyAsked env c args (w'.callLog c v.log.length) k.stage := by
    refine hp.invariant_within (I := fun u => v.log.length ≤ u.log.length ∧
      ∃ k, u.calls c = some k ∧ k.args = args ∧
        OnlyAsked env c args (u.callLog c v.log.length) k.stage)
      ⟨le_refl _, _, hv, rfl, by rw [hstart]; rfl⟩ hrv (fun _ _ _ => trivial) ?_
    rintro u u' e - ⟨hle, k, hk, rfl, hasked⟩ hne hu
    have hm := move_of_step hu
    refine ⟨hle.trans (log_grows hm).length_le, ?_⟩
    rcases call_forward hm hk with ⟨k', hk', hks⟩ | rfl
    · cases hks with
      | same he => exact ⟨k, hk', rfl, by rw [callLog_same hm he hle]; exact hasked⟩
      | wrote ht =>
          refine ⟨_, hk', rfl, ?_⟩
          rw [callLog_wrote hm (issued_call hk ht) hle]
          exact onlyAsked_wrote hasked ht
    · exact absurd rfl hne
  obtain ⟨-, k', hk', hargs, hasked⟩ := key
  cases hk.symm.trans hk'
  refine ⟨hargs, fun detail ha => ?_, fun detail seconds ha => ?_⟩
  · unfold processPrompt at ha
    split at ha <;> cases ha
    rename_i exc hst
    rw [hst] at hasked
    exact hasked
  · unfold processPrompt at ha
    split at ha <;> cases ha
    rename_i exc hst
    rw [hst] at hasked
    obtain ⟨n, hle, rfl, hes⟩ := hasked
    exact ⟨n, hle, rfl, hes⟩

/-- A queue of one that has its one job, and what the next submission did there. -/
theorem rejected_only_asked_full : ∃ (w w' : World) (k : Call), (machine narrow).Reachable w ∧
    ProcessingJobRepository.queuedDepth w.db = 1 ∧ w'.calls 1 = some k ∧
    processPrompt k = some (.tooManyRequests (queueFullError 1 1).message 5) ∧
    ∃ n, 1 ≤ n ∧ w'.callLog 1 w.log.length
      = [.tx (.call 1) (.getByPromptId "q") (.request none),
        .tx (.call 1) .queuedDepth (.depth n)] := by
  obtain ⟨w, -, hreach, ht⟩ := Machine.reachable_of_run (m := machine narrow)
    (E := submission 0 "p" "a") (p := fun w =>
      decide (ProcessingJobRepository.queuedDepth w.db = 1 ∧ w.calls 1 = none) &&
      ((machine narrow).runWhere (fun _ e => e ≠ .callCrash 1)
        (w.setCall 1 (some ⟨⟨"u", "q", "b", "normal"⟩, .check⟩))
        [.call 1 0 true, .call 1 0 true]).any fun w' : World => decide (∃ k ∈ w'.calls 1,
          processPrompt k = some (.tooManyRequests (queueFullError 1 1).message 5)))
    (by decide +kernel)
  obtain ⟨hfull, hrun⟩ := Bool.and_eq_true_iff.mp ht
  obtain ⟨hd, hnone⟩ := of_decide_eq_true hfull
  obtain ⟨w', hw', hk⟩ := Machine.exists_of_runWhere hrun
  obtain ⟨k, hk, ha⟩ := of_decide_eq_true hk
  have hs : World.step narrow w (.submit 1 ⟨"u", "q", "b", "normal"⟩)
      = some (w.setCall 1 (some ⟨⟨"u", "q", "b", "normal"⟩, .check⟩)) := by
    simp only [World.step, hnone]
  obtain ⟨-, -, hasked⟩ := rejected_only_asked hreach hs (Machine.path_of_runWhere hw') hk
  obtain ⟨n, hn, -, hlog⟩ := hasked _ _ ha
  exact ⟨w, w', k, hreach, hd, hk, ha, n, hn, hlog⟩

end PromptQueue.Proof
