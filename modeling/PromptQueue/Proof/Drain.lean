import PromptQueue.Base.Trace
import PromptQueue.Proof.Backpressure
import PromptQueue.Proof.Recovery
import PromptQueue.Proof.Workload

/-!
# The queue drains

The safety results say what never happens; this is what must. In an infinite run in which no
pipeline and no call is kept waiting for ever, some worker keeps asking for jobs and the reaper
keeps scanning, the queue is empty in the end, once clients stop ordering and the limiter stops
denying: there are only so many turns to take, so from some point on nobody takes one.
Then no pipeline is at work, a queued job would be claimed, and a job in progress would be taken by
the reaper and be queued again, or be dead.

Jobs end whatever fails. Requests end with them where no step of the run strands one, which is the
condition of the first safety result.
-/

namespace PromptQueue

open Base Filter

variable {S : Type} [LinearOrder S] {env : Env S}

/-- A run in which everybody's turn comes. -/
structure Fair (τ : Trace (World.machine env)) : Prop where
  /-- The database, the limiter and the provider answer in the end. -/
  served : ∀ s, τ.WeaklyFair (fun w => ∃ r, w.slots s = .running r)
    (fun e => e.slot = some s ∧ e.works = true)
  /-- The API's calls go on, or die. -/
  answered : ∀ c, τ.WeaklyFair (fun w => ∃ k, w.calls c = some k ∧ k.stage.ended = false)
    (fun e => e.caller = some c)
  /-- Some worker asks for a job, later and later, while nobody holds a row. -/
  polled : ∀ t : Time, ∃ᶠ n in atTop, ∃ s now pick, τ.label n = .claim s now [] pick ∧ t ≤ now
  /-- The reaper scans, later and later. -/
  scanned : ∀ t : Time, ∃ᶠ n in atTop, ∃ now, τ.label n = .reap now ∧ t < now

end PromptQueue

namespace PromptQueue.Proof

open PromptQueue Base World Filter

variable {S : Type} [LinearOrder S] {env : Env S} {w w' : World} {e : Event}
variable {τ : Trace (machine env)} {N n : Nat}

/-- A step of a run is a move. -/
theorem move_at (τ : Trace (machine env)) (n : Nat) :
    Move env (τ.state n) (τ.label n) (τ.state (n + 1)) := move_of_step (τ.next n)

/-! ## Rest -/

/-- From here on nobody works, and nothing is ordered. -/
structure Rests (τ : Trace (machine env)) (N : Nat) : Prop where
  works : ∀ n, N ≤ n → (τ.label n).works = false
  slots : ∀ n, N ≤ n → ∀ s r, (τ.state n).slots s ≠ .running r
  orders : ∀ n, N ≤ n → (τ.state (n + 1)).log.countP (Entry.orders everyRequest)
    = (τ.state n).log.countP (Entry.orders everyRequest)

/-- A slot begins to run with a claim of a job only. -/
theorem unrun_step (h : Move env w e w') (hw : e.works = false) {s : WorkerId}
    (hs : ∀ r, w.slots s ≠ .running r) : ∀ r, w'.slots s ≠ .running r := by
  intro r' hr'
  rcases run_cases h hr' with ⟨r, hr, -⟩ | hcl
  · exact hs r hr
  · obtain ⟨now, locked, pick, j, q, rfl, -, -, rfl, -⟩ := hcl.claim
    cases hw

/-- Nobody works for ever. -/
theorem works_stop {B : Nat} (hB : ∀ n, (τ.state n).paid env everyRequest ≤ B) :
    ∀ᶠ n in atTop, (τ.label n).works = false := by
  refine τ.stops (p := Event.works) (B := 13 * B) fun n => ?_
  have hpaid := claimed_le_paid (τ.run_labels n) everyRequest
  have hw := works_le_claimed (τ.run_labels n)
  have hn := hB n
  omega

/-- The slots come to rest. -/
theorem slots_stop (hf : Fair τ) (hw : ∀ᶠ n in atTop, (τ.label n).works = false) :
    ∀ᶠ n in atTop, ∀ s r, (τ.state n).slots s ≠ .running r := by
  obtain ⟨N, hN⟩ := eventually_atTop.mp hw
  have hrest : ∀ s, ∀ᶠ n in atTop, ∀ r, (τ.state n).slots s ≠ .running r := by
    intro s
    obtain ⟨n, hn, hfair⟩ := frequently_atTop.mp (hf.served s) N
    have hidle : ∀ r, (τ.state n).slots s ≠ .running r := by
      intro r hr
      have hwork := (hfair ⟨r, hr⟩).2
      rw [hN n hn] at hwork
      cases hwork
    refine eventually_atTop.mpr ⟨n, τ.stays (P := fun u => ∀ r, u.slots s ≠ .running r) hidle ?_⟩
    exact fun m hm hs => unrun_step (move_at τ m) (hN m (hn.trans hm)) hs
  -- the slots that have moved by now are finitely many
  have hmoved := (eventually_all_finset ((τ.labels N).filterMap Event.slot).toFinset).mpr
    fun s _ => hrest s
  filter_upwards [hmoved, eventually_ge_atTop N] with n hn hNn s
  by_cases hs : s ∈ ((τ.labels N).filterMap Event.slot).toFinset
  · exact hn s hs
  · have hidle : (τ.state N).slots s = .idle := slot_of_run (τ.run_labels N) fun e he hes =>
      hs (List.mem_toFinset.mpr (List.mem_filterMap.mpr ⟨e, he, hes⟩))
    refine τ.stays (P := fun u => ∀ r, u.slots s ≠ .running r) (N := N) ?_ ?_ n hNn
    · intro r hr
      rw [hidle] at hr
      cases hr
    · exact fun m hm hs => unrun_step (move_at τ m) (hN m hm) hs

theorem orders_mono (h : Move env w e w') (p : Nat → Bool) :
    w.log.countP (Entry.orders p) ≤ w'.log.countP (Entry.orders p) :=
  (log_grows h).sublist.countP_le

theorem paid_mono (h : Move env w e w') (p : Nat → Bool) : w.paid env p ≤ w'.paid env p :=
  Nat.add_le_add (Nat.mul_le_mul_left _ (orders_mono h p)) (log_grows h).sublist.countP_le

/-- **The run comes to rest.** -/
theorem rests_of_fair (hf : Fair τ) {B : Nat} (hB : ∀ n, (τ.state n).paid env everyRequest ≤ B) :
    ∃ N, Rests τ N := by
  have hw := works_stop hB
  obtain ⟨N, hN⟩ := eventually_atTop.mp (hw.and (slots_stop hf hw))
  obtain ⟨M, hM⟩ := settles (B := B)
    (g := fun n => (τ.state n).log.countP (Entry.orders everyRequest))
    (fun n => orders_mono (move_at τ n) everyRequest) fun n => by
      have hn := hB n
      have hone : 1 * (τ.state n).log.countP (Entry.orders everyRequest)
          ≤ max 1 env.maxJobAttempts * (τ.state n).log.countP (Entry.orders everyRequest) :=
        Nat.mul_le_mul_right _ (Nat.le_max_left 1 _)
      unfold World.paid at hn
      omega
  refine ⟨max N M, fun n hn => (hN n (le_of_max_le_left hn)).1,
    fun n hn => (hN n (le_of_max_le_left hn)).2, fun n hn => ?_⟩
  have hn := le_of_max_le_right hn
  exact (hM (n + 1) (Nat.le_succ_of_le hn)).trans (hM n hn).symm

/-! ## The jobs of a run at rest -/

/-- A row was there before, or a call just inserted it, and that is an order. -/
theorem rows_or_order (h : Move env w e w') :
    (∀ j' ∈ w'.db.jobs.rows, ∃ j ∈ w.db.jobs.rows, j' = w.jobAfter env e j) ∨
      w.log.countP (Entry.orders everyRequest) < w'.log.countP (Entry.orders everyRequest) := by
  rcases jobs_after h with hrows | ⟨q, j, hins, hrows⟩
  · left
    intro j' hj'
    rw [hrows] at hj'
    obtain ⟨j, hj, rfl⟩ := List.mem_map.mp hj'
    exact ⟨j, hj, rfl⟩
  · right
    obtain ⟨c, k, now, inTime, rfl, hk, hst, -, -⟩ := hins.call
    obtain ⟨k', t, hk', ht, hdb, -⟩ := call_slots h
    cases Option.some.inj (hk.symm.trans hk')
    obtain ⟨rfl, -⟩ := PromptProcessor.tx_of_insert hst ht
    have hlog := log_issued h (issued_call hk ht)
    cases hnew : PromptRequestRepository.insertWithJob w.db
        (PromptProcessor.newRequest env k.args) now with
    | none =>
        -- a row was added
        have hlen := congrArg List.length hrows
        rw [hdb, List.length_append, List.length_map] at hlen
        simp only [Db.exec, hnew, List.length_singleton] at hlen
        omega
    | some y =>
        obtain ⟨db', r, j'⟩ := y
        have hres : (w.db.exec (.insertWithJob (PromptProcessor.newRequest env k.args) now)).2
            = .inserted r j' := by
          simp only [Db.exec, hnew]
        rw [hlog, List.countP_append, hres]
        exact Nat.lt_add_of_pos_right Nat.one_pos

/-- A reset is an order. -/
theorem order_of_reset {c : Nat} {now : Time} {inTime : Bool} {k : Call} {q : PromptRequest}
    (h : Move env w (.call c now inTime) w') (hk : w.calls c = some k)
    (hst : k.stage = .reenqueueReset q) :
    w.log.countP (Entry.orders everyRequest) < w'.log.countP (Entry.orders everyRequest) := by
  rw [log_issued h (reset_issued hk hst), List.countP_append]
  exact Nat.lt_add_of_pos_right Nat.one_pos

namespace Rests

/-- Only the reaper still writes to a job, and only to one in progress. -/
theorem job (h : Rests τ N) (hn : N ≤ n) (j : ProcessingJob) :
    (τ.state n).jobAfter env (τ.label n) j = j ∨
      (j.status = .processing ∧
        ((τ.state n).jobAfter env (τ.label n) j).status ∈ [.queued, .dead]) := by
  have hm := move_at τ n
  have hst := job_step hm j
  have hw := h.works n hn
  have horders := h.orders n hn
  generalize (τ.state n).jobAfter env (τ.label n) j = j' at hst
  generalize τ.label n = e at hst hw hm
  cases hst with
  | same => exact .inl rfl
  | claimed hs hp hd =>
      rw [← hp] at hw
      cases hw
  | extended hs hh => exact absurd hs (h.slots n hn _ _)
  | released hs hst ho => exact absurd hs (h.slots n hn _ _)
  | completed hs hst hid => exact absurd hs (h.slots n hn _ _)
  | buried hs hst hid => exact absurd hs (h.slots n hn _ _)
  | reset hk hst hid =>
      have hlt := order_of_reset hm hk hst
      omega
  | requeued hr => exact .inr ⟨hr.1.1, by simp [ProcessingJob.requeue]⟩
  | expired hx => exact .inr ⟨hx.1.1, by simp [ProcessingJob.expire]⟩

/-- No row is added. -/
theorem rows (h : Rests τ N) (hn : N ≤ n) : ∀ j' ∈ (τ.state (n + 1)).db.jobs.rows,
    ∃ j ∈ (τ.state n).db.jobs.rows, j' = (τ.state n).jobAfter env (τ.label n) j := by
  rcases rows_or_order (move_at τ n) with hrows | hlt
  · exact hrows
  · have horders := h.orders n hn
    omega

/-- A job that is not in progress stays as it is. -/
theorem job_stays (h : Rests τ N) (hn : N ≤ n) {j : ProcessingJob}
    (hj : j ∈ (τ.state n).db.jobs.rows) (hp : j.status ≠ .processing) :
    j ∈ (τ.state (n + 1)).db.jobs.rows := by
  have hgoes := job_goes_on (move_at τ n) hj
  rcases h.job hn j with hsame | ⟨hproc, -⟩
  · rwa [hsame] at hgoes
  · exact absurd hproc hp

/-- **No job is queued:** it would be claimed. -/
theorem not_queued (h : Rests τ N) (hf : Fair τ) (hn : N ≤ n) {j : ProcessingJob}
    (hj : j ∈ (τ.state n).db.jobs.rows) : j.status ≠ .queued := by
  intro hq
  have hall := τ.stays (P := fun u => j ∈ u.db.jobs.rows) hj fun m hm hj =>
    h.job_stays (hn.trans hm) hj (by rw [hq]; simp)
  obtain ⟨m, hm, s, now, pick, he, hdue⟩ := frequently_atTop.mp (hf.polled j.scheduledAt) n
  have hmove := move_at τ m
  have hw := h.works m (hn.trans hm)
  rw [he] at hmove hw
  generalize τ.state (m + 1) = u at hmove
  cases hmove with
  | think hs he' ht => cases he'
  | claim hs hsel =>
      cases pick with
      | some i => cases hw
      | none => exact absurd (hsel j (hall m hm) ⟨hq, hdue⟩) (by simp)

/-- **A job in progress ends:** the reaper would take it. -/
theorem job_ends (h : Rests τ N) (hf : Fair τ) (hn : N ≤ n) {j : ProcessingJob}
    (hj : j ∈ (τ.state n).db.jobs.rows) (hp : j.status = .processing) :
    ∃ m, n ≤ m ∧ ∀ i ∈ (τ.state m).db.jobs.rows, i.id = j.id → ¬ i.InFlight := by
  by_contra hno
  -- as long as it does not end it stays as it is, with its lease
  have hall := τ.stays (P := fun u => j ∈ u.db.jobs.rows) hj fun m hm hj => by
    have hgoes := job_goes_on (move_at τ m) hj
    rcases h.job (hn.trans hm) j with hsame | ⟨-, hst⟩
    · rwa [hsame] at hgoes
    · have hq := h.not_queued hf (hn.trans (Nat.le_succ_of_le hm)) hgoes
      have hdead : ((τ.state m).jobAfter env (τ.label m) j).status = .dead := by
        simpa [hq] using hst
      refine absurd ⟨m + 1, Nat.le_succ_of_le hm, fun i hi hid => ?_⟩ hno
      rw [Db.job_eq_of_id hi hgoes (hid.trans (jobAfter_id j).symm)]
      intro hfl
      rcases hfl with hfl | hfl <;> (rw [hdead] at hfl; cases hfl)
  have hlease := (shaped_reachable (τ.reachable n)).leased hj hp
  obtain ⟨t, ht⟩ := Option.isSome_iff_exists.mp hlease
  obtain ⟨m, hm, now, he, hlt⟩ := frequently_atTop.mp (hf.scanned t) n
  have hmove := move_at τ m
  rw [he] at hmove
  refine not_expired_of_reap hmove (hall m hm) (hall (m + 1) (Nat.le_succ_of_le hm)) hp ⟨hp, ?_⟩
  rw [ProcessingJob.leaseExpired, ht]
  exact decide_eq_true hlt

/-- What is not in flight stays out. -/
theorem ended_stays (h : Rests τ N) (hn : N ≤ n) {x : Nat}
    (hx : ∀ i ∈ (τ.state n).db.jobs.rows, i.id = x → ¬ i.InFlight) :
    ∀ i ∈ (τ.state (n + 1)).db.jobs.rows, i.id = x → ¬ i.InFlight := by
  intro i' hi' hid
  obtain ⟨i, hi, rfl⟩ := h.rows hn i' hi'
  rw [jobAfter_id] at hid
  rcases h.job hn i with hsame | ⟨hproc, -⟩
  · rw [hsame]
    exact hx i hi hid
  · exact absurd (.inr hproc) (hx i hi hid)

/-- **In the end no job is in flight.** -/
theorem drained (h : Rests τ N) (hf : Fair τ) :
    ∀ᶠ n in atTop, ∀ j ∈ (τ.state n).db.jobs.rows, ¬ j.InFlight := by
  have hjob : ∀ j ∈ (τ.state N).db.jobs.rows, ∀ᶠ n in atTop,
      ∀ i ∈ (τ.state n).db.jobs.rows, i.id = j.id → ¬ i.InFlight := by
    intro j hj
    have hend : ∃ m, N ≤ m ∧ ∀ i ∈ (τ.state m).db.jobs.rows, i.id = j.id → ¬ i.InFlight := by
      by_cases hp : j.status = .processing
      · exact h.job_ends hf le_rfl hj hp
      · refine ⟨N, le_rfl, fun i hi hid hfl => ?_⟩
        rw [Db.job_eq_of_id hi hj hid] at hfl
        exact hfl.elim (h.not_queued hf le_rfl hj) hp
    obtain ⟨m, hm, hend⟩ := hend
    exact eventually_atTop.mpr ⟨m, τ.stays (P := fun u => ∀ i ∈ u.db.jobs.rows,
      i.id = j.id → ¬ i.InFlight) hend fun n hn hx => h.ended_stays (hm.trans hn) hx⟩
  have hids := τ.stays (P := fun u => ∀ i ∈ u.db.jobs.rows,
    ∃ j ∈ (τ.state N).db.jobs.rows, i.id = j.id) (N := N) (fun i hi => ⟨i, hi, rfl⟩)
    fun n hn hi i' hi' => by
      obtain ⟨i, hmem, rfl⟩ := h.rows hn i' hi'
      rw [jobAfter_id]
      exact hi i hmem
  have hall := (eventually_all_finset (τ.state N).db.jobs.rows.toFinset).mpr fun j hj =>
    hjob j (List.mem_toFinset.mp hj)
  filter_upwards [hall, eventually_ge_atTop N] with n hn hNn i hi
  obtain ⟨j, hj, hid⟩ := hids n hNn i hi
  exact hn j (List.mem_toFinset.mpr hj) i hi hid

/-! ## The requests of a drained run -/

/-- Nobody ends a request any more. -/
theorem request_stays (h : Rests τ N) (hn : N ≤ n)
    (hd : ∀ j ∈ (τ.state n).db.jobs.rows, ¬ j.InFlight) {x : Nat}
    (hx : ∃ q ∈ (τ.state n).db.requests.rows, q.id = x ∧ q.status.isTerminal = false) :
    ∃ q ∈ (τ.state (n + 1)).db.requests.rows, q.id = x ∧ q.status.isTerminal = false := by
  obtain ⟨q, hq, hid, hopen⟩ := hx
  have hm := move_at τ n
  refine ⟨_, request_goes_on hm hq, (requestAfter_id q).trans hid, ?_⟩
  have hst := request_step hm q
  generalize (τ.state n).requestAfter env (τ.label n) q = q' at hst
  generalize τ.label n = e at hst
  cases hst with
  | same => exact hopen
  | reenqueued hk hst hr => rfl
  | retried hs hst hr => exact absurd hs (h.slots n hn _ _)
  | completed hs hst hr => exact absurd hs (h.slots n hn _ _)
  | failed hs hst hr => exact absurd hs (h.slots n hn _ _)
  | requeued hj hr ht => exact absurd (.inr hr.1.1) (hd _ hj)
  | expired hj hx ht => exact absurd (.inr hx.1.1) (hd _ hj)

/-- **In the end no request is open,** in a run that strands none. -/
theorem request_ends (h : Rests τ N) (hf : Fair τ)
    (hd : ∀ n, N ≤ n → ∀ j ∈ (τ.state n).db.jobs.rows, ¬ j.InFlight)
    (hc : ∀ n, Careful (τ.state n) (τ.label n)) (hn : N ≤ n) :
    ∀ q ∈ (τ.state n).db.requests.rows, q.status.isTerminal = true := by
  intro q hq
  by_contra hopen
  have hopen := eq_false_of_ne_true hopen
  have hlost : ∀ m, N ≤ m → ∀ j ∈ (τ.state m).db.jobs.rows, ¬ Recoverable j := by
    intro m hm j hj hr
    exact hd m hm j hj (hr.imp id And.left)
  obtain ⟨j, hj, hjq⟩ := (tied_reachable (τ.reachable n)).paired hq
  rcases guarded_reachable (τ.reachableWhere hc n) q hq j hj hjq hopen with hr |
    ⟨s, r, hr, -⟩ | ⟨c, k, x, hk, hst, hx⟩
  · exact hlost n hn j hj hr
  · exact h.slots n hn s r hr
  · -- a call owes the job its reset; it goes on, and resets it, or dies although it must not
    have hend : k.stage.ended = false := by rw [hst]; rfl
    have hfair := (hf.answered c).imp (Q := fun u => u.calls c = some k ∧
      ∃ q ∈ u.db.requests.rows, q.id = x.id ∧ q.status.isTerminal = false)
      fun u hu => ⟨k, hu.1, hend⟩
    obtain ⟨m, hm, ⟨hkm, q', hq', hid, hopen'⟩, hcaller⟩ := hfair.happens
      (N := n) ⟨hk, q, hq, hx.symm, hopen⟩ fun m hm hu hne =>
        ⟨(call_frame (move_at τ m) hne).trans hu.1,
          h.request_stays (hn.trans hm) (hd m (hn.trans hm)) hu.2⟩
    have hNm := hn.trans hm
    have hmove := move_at τ m
    have horders := h.orders m hNm
    have hcareful := (hc m).2 k (callOf_eq hcaller hkm)
    generalize τ.state (m + 1) = u at hmove horders
    generalize τ.label m = e at hmove hcaller hcareful
    cases e with
    | call c' now inTime =>
        cases hcaller
        have hlt := order_of_reset hmove hkm hst
        omega
    | submit c' args =>
        cases hcaller
        cases hmove with
        | submit hnone =>
            rw [hkm] at hnone
            cases hnone
        | think hs he ht => cases he
    | callCrash c' =>
        rcases hcareful rfl x (by rw [hst]; rfl) with hs | hk'
        · rw [hs q' hq' hid] at hopen'
          cases hopen'
        · obtain ⟨j', hj', hjq'⟩ := (tied_reachable (τ.reachable m)).paired hq'
          exact hlost m hNm j' hj' (hk' j' hj' (hjq'.trans hid))
    | _ => cases hcaller

end Rests

/-! ## The queue drains -/

/--
**Every fair run drains the queue.** If only finitely many jobs are ordered and finitely many
calls denied, then from some point on no pipeline is at work and no job is queued or in progress;
and if no step of the run strands a request, every request has been completed or failed by then.
-/
theorem queue_drains (hf : Fair τ) (hB : ∃ B, ∀ n, (τ.state n).paid env everyRequest ≤ B) :
    ∀ᶠ n in atTop, (∀ s r, (τ.state n).slots s ≠ .running r) ∧
      ProcessingJobRepository.queuedDepth (τ.state n).db = 0 ∧
      ((∀ m, Careful (τ.state m) (τ.label m)) →
        ∀ q ∈ (τ.state n).db.requests.rows, q.status.isTerminal = true) := by
  obtain ⟨B, hB⟩ := hB
  obtain ⟨N, hrest⟩ := rests_of_fair hf hB
  obtain ⟨M, hM⟩ := eventually_atTop.mp (hrest.drained hf)
  have hlater : Rests τ (max N M) := {
    works := fun n hn => hrest.works n (le_of_max_le_left hn)
    slots := fun n hn => hrest.slots n (le_of_max_le_left hn)
    orders := fun n hn => hrest.orders n (le_of_max_le_left hn) }
  refine eventually_atTop.mpr ⟨max N M, fun n hn => ⟨hlater.slots n hn, ?_, fun hc => ?_⟩⟩
  · refine List.countP_eq_zero.mpr fun j hj hfl => ?_
    exact hM n (le_of_max_le_right hn) j hj (of_decide_eq_true hfl)
  · exact hlater.request_ends hf (fun m hm => hM m (le_of_max_le_right hm)) hc hn

/-- An empty poll and a scan, again and again. -/
def idling (n : Nat) : Event := if n % 2 = 0 then .claim 0 n [] none else .reap n

/-- Nobody has anything to do. -/
structure Idle (w : World) : Prop where
  slots : ∀ s, w.slots s = .idle
  calls : ∀ c k, w.calls c = some k → k.stage.ended = true
  jobs : ∀ j ∈ w.db.jobs.rows, ¬ j.InFlight
  requests : w.db.requests.rows ≠ []
  paid : w.paid deployment everyRequest ≤ 5

/-- A move that changes no row and issues no order leaves everybody idle. -/
theorem idle_move (h : Idle w) (hm : Move deployment w e w') (hslots : w'.slots = w.slots)
    (hcalls : w'.calls = w.calls) {es : List Entry} (hlog : w'.log = w.log ++ es)
    (hes : ∀ x ∈ es, x.handsOut everyRequest = false ∧ x.orders everyRequest = false ∧
      x.turnsAway everyRequest = false)
    (hjobs : ∀ j ∈ w.db.jobs.rows, w.jobAfter deployment e j = j) (hc : e.caller = none) :
    Idle w' where
  slots := by rw [hslots]; exact h.slots
  calls := by rw [hcalls]; exact h.calls
  jobs := by
    intro j' hj'
    rcases job_origin hm hj' with ⟨j, hj, rfl⟩ | ⟨q, hins⟩
    · rw [hjobs j hj]
      exact h.jobs j hj
    · exact absurd hins (not_inserted hc q j')
  requests := by
    obtain ⟨q, hq⟩ := List.exists_mem_of_ne_nil _ h.requests
    exact List.ne_nil_of_mem (request_goes_on hm hq)
  paid := by
    rw [(unpaid deployment everyRequest hlog hes).2]
    exact h.paid

/-- An empty poll, or a scan that finds nothing. -/
theorem idling_step (h : Idle w) (n : Nat) : Careful w (idling n) ∧
    ∃ u, World.step deployment w (idling n) = some u ∧ Idle u := by
  have hcareful : ∀ e : Event, w.runOf e = none → e.caller = none → Careful w e := by
    intro e hr hc
    refine ⟨fun r hr' => ?_, fun k hk => ?_⟩
    · rw [hr] at hr'
      cases hr'
    · rw [callOf, hc] at hk
      cases hk
  unfold idling
  split
  · have hsel : ProcessingJobRepository.Selects w.db.jobs.rows [] n none :=
      fun j hj hd => absurd (.inl hd.1) (h.jobs j hj)
    have hnone : (ProcessingJobRepository.claimNext w.db 0 deployment.leaseSeconds n none).2
        = none := by
      cases hc : (ProcessingJobRepository.claimNext w.db 0 deployment.leaseSeconds n none).2 with
      | none => rfl
      | some y =>
          obtain ⟨j, -, hp, -⟩ := claimNext_some hc
          cases hp
    have hres : (w.db.exec (.claimNext 0 deployment.leaseSeconds n none)).2 = .claimed none := by
      simp only [Db.exec, hnone]
    refine ⟨hcareful _ (by simp [runOf, Event.slot, h.slots]) rfl, _,
      step_of_claim (h.slots 0) hsel, idle_move h (.claim (h.slots 0) hsel) ?_ rfl rfl ?_ ?_ rfl⟩
    · rw [hres]
      exact Function.update_eq_self_iff.mpr (h.slots 0).symm
    · intro x hx
      rw [hres] at hx
      cases List.mem_singleton.mp hx
      exact ⟨rfl, rfl, rfl⟩
    · intro j hj
      simp only [jobAfter, issued, Tx.onJob]
      exact Table.updateRow_neg fun hp => by cases hp.1
  · refine ⟨hcareful _ rfl rfl, _, rfl, idle_move h .reap rfl rfl rfl ?_ ?_ rfl⟩
    · intro x hx
      rcases List.mem_cons.mp hx with rfl | hx
      · exact ⟨rfl, rfl, rfl⟩
      · obtain ⟨j, -, rfl⟩ := List.mem_map.mp hx
        exact ⟨rfl, rfl, rfl⟩
    · intro j hj
      have hst := job_step (.reap : Move deployment w (.reap n) _) j
      generalize w.jobAfter deployment (.reap n) j = j' at hst
      cases hst with
      | same => rfl
      | requeued hr => exact absurd (.inr hr.1.1) (h.jobs j hj)
      | expired hx => exact absurd (.inr hx.1.1) (h.jobs j hj)

/-- A prompt is answered, and its caller told. -/
def toldRun : List Event := answeredRun ++ [.pipeline 0 2 none, .call 0 3 true, .next 0]

/-- A fair run of one prompt drains: in the end the prompt is answered. -/
theorem queue_drains_told : ∃ τ : Trace (machine deployment), Fair τ ∧ ∀ᶠ n in atTop,
    (τ.state n).db.requests.rows ≠ [] ∧
      ∀ q ∈ (τ.state n).db.requests.rows, q.status.isTerminal = true := by
  obtain ⟨w, hw, ht⟩ : ∃ w, (machine deployment).runWhere Careful World.init toldRun = some w ∧
      (w.slots 0 = .idle ∧ (w.calls 0).all (·.stage.ended) = true ∧
        (∀ j ∈ w.db.jobs.rows, ¬ j.InFlight) ∧ w.db.requests.rows ≠ [] ∧
        w.paid deployment everyRequest ≤ 5) := by
    have hany : ((machine deployment).runWhere Careful World.init toldRun).any (fun w => decide
        (w.slots 0 = .idle ∧ (w.calls 0).all (·.stage.ended) = true ∧
        (∀ j ∈ w.db.jobs.rows, ¬ j.InFlight) ∧ w.db.requests.rows ≠ [] ∧
        w.paid deployment everyRequest ≤ 5)) = true := by decide +kernel
    obtain ⟨w, hw, ht⟩ := (Option.any_eq_true _ _).mp hany
    exact ⟨w, hw, of_decide_eq_true ht⟩
  obtain ⟨hslot, hcall, hjobs, hreq, hpaid⟩ := ht
  obtain ⟨hslots, hcalls⟩ := untouched_of_run (n := 1) (m := 1) (Machine.run_of_runWhere hw)
    (by decide)
  have hidle : Idle w := by
    refine ⟨fun s => ?_, fun c k hk => ?_, hjobs, hreq, hpaid⟩
    · rcases Nat.eq_zero_or_pos s with rfl | hpos
      · exact hslot
      · exact hslots s hpos
    · rcases Nat.eq_zero_or_pos c with rfl | hpos
      · rw [hk] at hcall
        exact hcall
      · rw [hcalls c hpos] at hk
        cases hk
  obtain ⟨τ, hcareful, hτ⟩ := Trace.exists_of_run hw hidle idling fun n t ht => idling_step ht n
  have hlate : ∀ᶠ n in atTop, τ.label n = idling n ∧ Idle (τ.state n) :=
    eventually_atTop.mpr ⟨_, hτ⟩
  -- any late time of either parity will do
  have hoften : ∀ (t : Time) (b : Nat), b < 2 → ∃ᶠ n in atTop, n % 2 = b ∧ t < n ∧
      τ.label n = idling n := by
    intro t b hb
    refine frequently_atTop.mpr fun N => ?_
    obtain ⟨k, hk⟩ := exists_nat_gt t
    obtain ⟨M, hM⟩ := eventually_atTop.mp hlate
    refine ⟨2 * (N + k + M) + b, by omega, by omega, ?_, (hM _ (by omega)).1⟩
    have hle : (k : Rat) ≤ ((2 * (N + k + M) + b : Nat) : Rat) := Nat.cast_le.mpr (by omega)
    exact lt_of_lt_of_le hk hle
  have hfair : Fair τ := by
    refine ⟨fun s => ?_, fun c => ?_, fun t => ?_, fun t => ?_⟩
    · refine (hlate.mono fun n hn hrun => ?_).frequently
      obtain ⟨r, hr⟩ := hrun
      cases (hn.2.slots s).symm.trans hr
    · refine (hlate.mono fun n hn hrun => ?_).frequently
      obtain ⟨k, hk, hend⟩ := hrun
      cases (hn.2.calls c k hk).symm.trans hend
    · refine (hoften t 0 (by omega)).mono fun n hn => ⟨0, n, none, ?_, hn.2.1.le⟩
      rw [hn.2.2, idling, if_pos hn.1]
    · refine (hoften t 1 (by omega)).mono fun n hn => ⟨n, ?_, hn.2.1⟩
      rw [hn.2.2, idling, if_neg (by omega)]
  have hbound : ∃ B, ∀ n, (τ.state n).paid deployment everyRequest ≤ B := by
    refine ⟨5, fun n => ?_⟩
    have hmono : Monotone fun n => (τ.state n).paid deployment everyRequest :=
      monotone_nat_of_le_succ fun n => paid_mono (move_at τ n) everyRequest
    exact (hmono (le_max_left n toldRun.length)).trans
      (hτ _ (le_max_right n toldRun.length)).2.paid
  refine ⟨τ, hfair, ?_⟩
  filter_upwards [queue_drains hfair hbound, hlate] with n hn hidle
  exact ⟨hidle.2.requests, hn.2.2 hcareful⟩

end PromptQueue.Proof
