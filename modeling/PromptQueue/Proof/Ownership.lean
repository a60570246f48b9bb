import PromptQueue.Proof.Snapshot

/-!
# Claims and how they end

A claim ends in one of three ways: its own pipeline releases it, the reaper finds
its lease expired, or a client resets the job. Each leaves an entry in the
history, so the end of a claim is the first such entry after it, and a claim is
*taken* when that entry is not its own release.

What the code can see of this is the job's `worker_id`. `Ownership` says how far
that goes: as long as a claim has not ended the column names its slot, and while
the column names a slot, the run in that slot is the latest claim.
-/

namespace PromptQueue

/-- Whether an entry ends the claim of a run, if it comes after the claim. -/
def Entry.ends (r : Run) : Entry → Bool
  | .lost j _ => j.id = r.job.id
  | .tx _ (.resetJob q _) _ => q = r.job.promptRequestId
  | .tx _ (.releaseLease j s _ _) (.updated true) =>
      j = r.job.id ∧ s = PromptPipeline.workerId r
  | _ => false

theorem Entry.ends_release {r : Run} {who : Proc} {j : Nat} {s : WorkerId} {wait : Rat}
    {now : Time} {res : Res} : Entry.ends r (.tx who (.releaseLease j s wait now) res) = true ↔
      res = .updated true ∧ j = r.job.id ∧ s = PromptPipeline.workerId r := by
  cases res with
  | updated b => cases b <;> simp [Entry.ends]
  | _ => simp [Entry.ends]

/-- Whether an entry is a `release_lease`. -/
def Entry.isRelease : Entry → Bool
  | .tx _ (.releaseLease _ _ _ _) _ => true
  | _ => false

/-- How the claim of a run ended, if it did. -/
def claimEnd (log : List Entry) (r : Run) : Option Entry :=
  (log.drop r.ticket).find? (Entry.ends r)

/-- The job was taken from the claim: re-queued or buried by the reaper, or reset by a client. -/
def Taken (log : List Entry) (r : Run) : Prop :=
  (claimEnd log r).any (fun x => !x.isRelease) = true

instance (log : List Entry) (r : Run) : Decidable (Taken log r) :=
  inferInstanceAs (Decidable (_ = true))

/-- Between the `release_lease` of a retry and its write to the request. -/
def Stage.halfRetried : Stage → Bool
  | .retryStatus _ => true
  | _ => false

/-- The stages a pipeline is in after its `release_lease` went through. -/
def Stage.afterRelease : Stage → Bool
  | .retryStatus _ | .done _ => true
  | _ => false

end PromptQueue

namespace PromptQueue.Proof

open PromptQueue Base World

variable {S : Type} [LinearOrder S] {env : Env S} {w w' : World} {e : Event}
variable {H : World → Event → Prop}

/-! ## The end of a claim -/

theorem claimEnd_append {log es : List Entry} {r : Run} (h : r.ticket ≤ log.length) :
    claimEnd (log ++ es) r = (claimEnd log r).or (es.find? (Entry.ends r)) := by
  unfold claimEnd
  rw [List.drop_append_of_le_length h, List.find?_append]

theorem claimEnd_same {log : List Entry} {r r' : Run} (h : SameRun r r') :
    claimEnd log r' = claimEnd log r := by
  have hends : Entry.ends r' = Entry.ends r := by
    funext x
    unfold Entry.ends PromptPipeline.workerId
    rw [h.1]
  unfold claimEnd
  rw [h.2.2.1, hends]

/-- A claim that has ended has ended for good. -/
theorem claimEnd_mono (h : Move env w e w') {r : Run} (ht : r.ticket ≤ w.log.length) {x : Entry}
    (hx : claimEnd w.log r = some x) : claimEnd w'.log r = some x := by
  obtain ⟨es, hlog⟩ := log_grows h
  rw [← hlog, claimEnd_append ht, hx]
  rfl

/-- A claim ends by an entry the move puts into the history. -/
theorem claimEnd_cases (h : Move env w e w') {r : Run} (ht : r.ticket ≤ w.log.length) {x : Entry}
    (hx : claimEnd w'.log r = some x) :
    claimEnd w.log r = some x ∨
      (claimEnd w.log r = none ∧ Fresh env w e x ∧ x.ends r = true) := by
  obtain ⟨es, hlog, hfresh⟩ := log_cases h
  rw [hlog, claimEnd_append ht] at hx
  cases hold : claimEnd w.log r with
  | some y => rw [hold] at hx; exact .inl hx
  | none =>
      rw [hold, Option.none_or] at hx
      exact .inr ⟨rfl, hfresh x (List.mem_of_find?_eq_some hx), List.find?_some hx⟩

/-- A transaction that ends the claim is in the new history. -/
theorem claimEnd_of_issued (h : Move env w e w') {r : Run} (ht : r.ticket ≤ w.log.length)
    {who : Proc} {t : Tx} (hi : w.issued env e = some (who, t)) {x : Entry}
    (hx : x ∈ Entry.tx who t (w.db.exec t).2 :: w.takes t) (he : x.ends r = true) :
    claimEnd w'.log r ≠ none := by
  rw [log_issued h hi, claimEnd_append ht]
  intro hn
  rw [Option.or_eq_none_iff, List.find?_eq_none] at hn
  exact hn.2 x hx he

/-- The reaper leaves a record of every lease it takes. -/
theorem claimEnd_of_reaped {now : Time} (h : Move env w (.reap now) w') {r : Run}
    (ht : r.ticket ≤ w.log.length) {j : ProcessingJob} (hj : j ∈ w.db.jobs.rows)
    (hx : ProcessingJob.Expired now j) (hid : j.id = r.job.id) : claimEnd w'.log r ≠ none := by
  have hi : w.issued env (.reap now) = some (.reaper, .reapExpiredLeases now) := rfl
  refine claimEnd_of_issued h ht hi (List.mem_cons_of_mem _
    (List.mem_map_of_mem (List.mem_filter.mpr ⟨hj, decide_eq_true hx⟩))) ?_
  exact decide_eq_true hid

/-- A run that was just claimed has not lost its claim. -/
theorem claimEnd_claimed (h : Move env w e w') {s : WorkerId} {r : Run}
    (hc : Claimed env w e s r) : claimEnd w'.log r = none := by
  obtain ⟨now, locked, pick, j, q, rfl, -, -, -, -, -, -, rfl⟩ := hc.claim
  have hlog := log_issued h rfl
  unfold claimEnd
  rw [hlog, List.drop_eq_nil_of_le (by simp [takes])]
  rfl

/-! ## Resets -/

/-- The count of resets moves only with a `reset_job` of that very request. -/
theorem resets_cases (h : Move env w e w') (q : Nat) : resets w'.log q = resets w.log q ∨
    ∃ who now, w.issued env e = some (who, .resetJob q now) := by
  obtain ⟨es, hlog, hfresh⟩ := log_cases h
  by_cases hn : ∀ x ∈ es, ¬ Entry.isReset q x = true
  · left
    unfold resets
    rw [hlog, List.countP_append, List.countP_eq_zero.mpr hn, Nat.add_zero]
  · right
    push Not at hn
    obtain ⟨x, hx, hr⟩ := hn
    cases hfresh x hx with
    | @tx _ who t hi =>
        cases t with
        | resetJob q' now =>
            have : q' = q := of_decide_eq_true hr
            exact ⟨who, now, this ▸ hi⟩
        | _ => cases hr
    | lost hj hx => cases hr
    | notified => cases hr
    | thought hs he ht hx => cases ht <;> simp at hx <;> (rw [hx] at hr; cases hr)

/-- A reset counts once. -/
theorem resets_of_reset (h : Move env w e w') {who : Proc} {q : Nat} {now : Time}
    (hi : w.issued env e = some (who, .resetJob q now)) :
    resets w'.log q = resets w.log q + 1 := by
  unfold resets
  rw [log_issued h hi, List.countP_append]
  simp [Entry.isReset, takes]

/-- After a reset the job row belongs to nobody. -/
theorem jobAfter_reset {who : Proc} {now : Time} {j : ProcessingJob}
    (hi : w.issued env e = some (who, .resetJob j.promptRequestId now)) :
    w.jobAfter env e j = j.reset now := by
  simp only [jobAfter, hi, Tx.onJob]
  rw [Table.updateRow, if_pos rfl]

/-! ## `worker_id` -/

/-- A move makes a slot the owner of a job only by a claim, and then the slot was idle. -/
theorem owner_back {j j' : ProcessingJob} {s : WorkerId} (h : JobStep env w e j j')
    (ho : j'.workerId = some s) : j.workerId = some s ∨ w.slots s = .idle := by
  cases h with
  | same => exact .inl ho
  | claimed hs hp hd => cases ho; exact .inr hs
  | extended hs hh => exact .inl ho
  | completed hs hst hid => exact .inl ho
  | buried hs hst hid => exact .inl ho
  | expired hx => exact .inl ho
  | released hs hst hoo => cases ho
  | reset hc hst hid => cases ho
  | requeued hr => cases ho

/-- Only a claim and a reset move `attempt_count`, and both change the owner. -/
theorem attempts_back {j j' : ProcessingJob} {s : WorkerId} (h : JobStep env w e j j')
    (ho : j'.workerId = some s) : j'.attemptCount = j.attemptCount ∨ w.slots s = .idle := by
  cases h with
  | claimed hs hp hd => cases ho; exact .inr hs
  | reset hc hst hid => cases ho
  | _ => exact .inl rfl

/-- What a claim makes of the row it locks. -/
theorem jobAfter_claim {s : WorkerId} {now : Time} {locked : List Nat} {pick : Option Nat}
    {j : ProcessingJob} (hp : some j.id = pick) (hd : ProcessingJob.Due now j) :
    w.jobAfter env (.claim s now locked pick) j = j.claim s env.leaseSeconds now := by
  simp only [jobAfter, issued, Tx.onJob]
  rw [Table.updateRow, if_pos ⟨hp, hd⟩]

/-- The row of a run's job was there before the move. -/
theorem Tied.job_back (ht : Tied env w) (h : Move env w e w') {s : WorkerId} {r : Run}
    (hr : w.slots s = .running r) {j' : ProcessingJob} (hj' : j' ∈ w'.db.jobs.rows)
    (hid : j'.id = r.job.id) :
    ∃ j ∈ w.db.jobs.rows, j.id = r.job.id ∧ j' = w.jobAfter env e j := by
  rcases job_origin h hj' with ⟨j, hj, rfl⟩ | ⟨q, hins⟩
  · exact ⟨j, hj, by simpa using hid, rfl⟩
  · obtain ⟨j, hj, hst⟩ := ht.job hr
    have : j.id = r.job.id := congrArg (·.1) hst
    exact absurd (this.trans hid.symm) (hins.job_fresh hj)

/-- The row a slot has just claimed. -/
theorem claimed_row (h : Move env w e w') {s : WorkerId} {r : Run} (hc : Claimed env w e s r)
    {j' : ProcessingJob} (hj' : j' ∈ w'.db.jobs.rows) (hid : j'.id = r.job.id) : j' = r.job := by
  obtain ⟨now, locked, pick, j, q, rfl, -, hj, hp, hd, -, -, rfl⟩ := hc.claim
  have hrow := job_goes_on h hj
  rw [jobAfter_claim hp hd] at hrow
  exact Db.job_eq_of_id hj' hrow hid

/-- A pipeline that has released its lease does not come back. -/
theorem afterRelease_step {s : WorkerId} {r r' : Run} (h : RunStep env w e s r r')
    (hst : r.stage.afterRelease = true) : r'.stage.afterRelease = true := by
  cases h with
  | same he => exact hst
  | beat hl => exact hst
  | wrote ht =>
      obtain ⟨x, hx, hturn⟩ := PromptPipeline.turn_of_call w.db ht
      rw [hx]
      cases hturn with
      | retried h => rfl
      | _ => simp_all [Stage.afterRelease]
  | thought he ht =>
      have hdeaf : r.stage.hears = false := by
        cases hrs : r.stage <;> rw [hrs] at hst <;> first | rfl | cases hst
      have hout : PromptPipeline.inRun r.stage = false := by
        cases hrs : r.stage <;> rw [hrs] at hst <;> first | rfl | cases hst
      rcases (thought_deaf ht hdeaf).2 with hx | ⟨message, hx⟩
      · rw [hx]
        rfl
      · -- the failure handler is left by an exception
        rw [hx, PromptPipeline.fail, hout]
        rfl

/-- A release leaves the pipeline at most one write. -/
theorem afterRelease_of_releases {s : WorkerId} {r r' : Run} {now : Time} {top1 : Option Nat}
    (h : RunStep env w (.pipeline s now top1) s r r') (hst : r.stage.releases = true) :
    r'.stage.afterRelease = true := by
  cases h with
  | same he => exact absurd rfl he
  | thought he ht => cases he
  | wrote ht =>
      obtain ⟨x, hx, hturn⟩ := PromptPipeline.turn_of_call w.db ht
      rw [hx]
      cases hturn with
      | deferred _ | limited _ | released _ _ | disowned _ _ => rfl
      | _ => simp_all [Stage.releases]

/-- What the column `worker_id` tells about the claims. -/
structure Ownership (w : World) : Prop where
  /-- A claim that has not ended has its slot in the row. -/
  held : ∀ {s r j}, w.slots s = .running r → claimEnd w.log r = none → j ∈ w.db.jobs.rows →
    j.id = r.job.id → j.workerId = some s
  /-- The slot in the row is running the job's latest claim, if it is running the job at all. -/
  latest : ∀ {s r j}, w.slots s = .running r → j ∈ w.db.jobs.rows → j.id = r.job.id →
    j.workerId = some s → r.epoch = resets w.log j.promptRequestId ∧
      r.job.attemptCount = j.attemptCount
  /-- A pipeline that released its claim has one write left at most. -/
  released : ∀ {s r x}, w.slots s = .running r → claimEnd w.log r = some x →
    x.isRelease = true → r.stage.afterRelease = true

theorem ownership_init : Ownership World.init := ⟨nofun, nofun, nofun⟩

/-- Losing the row ends the claim. -/
theorem ends_of_disowned (h : Move env w e w') (ht : Tied env w) {s : WorkerId} {r : Run}
    {j : ProcessingJob} (hr : w.slots s = .running r) (hs : Shaped w) (hj : j ∈ w.db.jobs.rows)
    (hid : j.id = r.job.id) (ho : j.workerId = some s) :
    (w.jobAfter env e j).workerId = some s ∨ claimEnd w'.log r ≠ none := by
  generalize hj' : w.jobAfter env e j = j'
  have hst := job_step h j
  rw [hj'] at hst
  cases hst with
  | same => exact .inl ho
  | claimed hs' hp hd => rw [hs.queued hj hd.1] at ho; cases ho
  | extended hs hh => exact .inl ho
  | completed hs hst hid => exact .inl ho
  | buried hs hst hid => exact .inl ho
  | expired hx => exact .inl ho
  | @reset c k now inTime q _ hc hst hq =>
      refine .inr (claimEnd_of_issued h (ht.ticket hr) (reset_issued hc hst)
        List.mem_cons_self ?_)
      have hstatic : j.promptRequestId = r.job.promptRequestId :=
        congrArg (·.2.1) (ht.static_of_id hr hj hid)
      exact decide_eq_true (hq.symm.trans hstatic)
  | @requeued now _ hrec =>
      exact .inr (claimEnd_of_reaped h (ht.ticket hr) hj hrec.1 hid)
  | @released s₀ now top1 r₀ _ due hs₀ hst hown =>
      -- a release that matches the row comes from the slot in the row, which is the run's
      rw [ProcessingJob.OwnedBy, ht.workerId hs₀] at hown
      cases Option.some.inj (ho.symm.trans hown.2)
      cases Slot.running.inj (hs₀.symm.trans hr)
      obtain ⟨wait, hcall⟩ := call_of_releases env hst now top1
      have hhit : (w.db.exec (.releaseLease r.job.id (PromptPipeline.workerId r) wait now)).2
          = .updated true := by
        refine congrArg Res.updated (Table.hits_iff.mpr ⟨j, hj, hid, ?_⟩)
        rw [ht.workerId hr]; exact ho
      have hi : w.issued env (.pipeline s now top1) = some (.slot s,
          .releaseLease r.job.id (PromptPipeline.workerId r) wait now) :=
        issued_pipeline hr hcall
      refine .inr (claimEnd_of_issued h (ht.ticket hr) hi List.mem_cons_self ?_)
      rw [hhit]
      simp [Entry.ends]

/-- The only release that ends a run's claim is the run's own. -/
theorem releaser_of_fresh (ht : Tied env w) {s : WorkerId} {r : Run} {x : Entry}
    (hr : w.slots s = .running r) (hf : Fresh env w e x) (he : x.ends r = true)
    (hx : x.isRelease = true) : ∃ now top1, e = .pipeline s now top1 ∧
      r.stage.releases = true := by
  cases hf with
  | lost hj hx' => cases hx
  | notified => cases hx
  | thought hs he' ht hx' => cases ht <;> simp at hx' <;> (rw [hx'] at hx; cases hx)
  | @tx _ who t hi =>
      cases t with
      | releaseLease j s' wait now =>
          obtain ⟨s₀, r₀, top1, rfl, -, hs₀, hst, -, rfl⟩ := release_issuer hi
          have hss : s₀ = s := by
            rw [← ht.workerId hs₀, ← ht.workerId hr]
            exact (Entry.ends_release.mp he).2.2
          subst hss
          cases Slot.running.inj (hs₀.symm.trans hr)
          exact ⟨now, top1, rfl, hst⟩
      | _ => cases hx

/-- **Every move keeps what `worker_id` tells.** -/
theorem ownership_step (h : Move env w e w') (ht : Tied env w) (hs : Shaped w)
    (hi : Ownership w) : Ownership w' where
  held := by
    intro s r' j' hr' hn hj' hid
    rcases run_cases h hr' with ⟨r, hr, hrs⟩ | hcl
    · rw [claimEnd_same hrs.sameRun] at hn
      rw [hrs.sameRun.1] at hid
      have hn₀ : claimEnd w.log r = none := by
        cases hx : claimEnd w.log r with
        | none => rfl
        | some x => rw [claimEnd_mono h (ht.ticket hr) hx] at hn; cases hn
      obtain ⟨j, hj, hid₀, rfl⟩ := ht.job_back h hr hj' hid
      rcases ends_of_disowned h ht hr hs hj hid₀ (hi.held hr hn₀ hj hid₀) with ho | he
      · exact ho
      · exact absurd hn he
    · rw [claimed_row h hcl hj' hid]
      obtain ⟨now, locked, pick, j, q, -, -, -, -, -, -, -, rfl⟩ := hcl.claim
      rfl
  latest := by
    intro s r' j' hr' hj' hid ho
    rcases run_cases h hr' with ⟨r, hr, hrs⟩ | hcl
    · rw [hrs.sameRun.1] at hid ⊢
      rw [hrs.sameRun.2.2.2]
      obtain ⟨j, hj, hid₀, rfl⟩ := ht.job_back h hr hj' hid
      have hst := job_step h j
      -- a busy slot claims nothing, so the owner is the owner of before
      have busy : w.slots s ≠ .idle := by rw [hr]; nofun
      have ho₀ := (owner_back hst ho).resolve_right busy
      obtain ⟨hep, hat⟩ := hi.latest hr hj hid₀ ho₀
      rw [jobAfter_promptRequestId, (attempts_back hst ho).resolve_right busy]
      refine ⟨?_, hat⟩
      rcases resets_cases h j.promptRequestId with heq | ⟨who, now, hiss⟩
      · rw [heq]; exact hep
      · rw [jobAfter_reset hiss] at ho; cases ho
    · have hrow := claimed_row h hcl hj' hid
      obtain ⟨now, locked, pick, j, q, rfl, -, -, -, -, -, -, rfl⟩ := hcl.claim
      subst hrow
      refine ⟨?_, rfl⟩
      rcases resets_cases h j.promptRequestId with heq | ⟨who, now', hiss⟩
      · exact heq.symm
      · cases hiss
  released := by
    intro s r' x hr' hx hrel
    rcases run_cases h hr' with ⟨r, hr, hrs⟩ | hcl
    · rw [claimEnd_same hrs.sameRun] at hx
      rcases claimEnd_cases h (ht.ticket hr) hx with hx | ⟨-, hf, he⟩
      · exact afterRelease_step hrs (hi.released hr hx hrel)
      · obtain ⟨now, top1, rfl, hst⟩ := releaser_of_fresh ht hr hf he hrel
        exact afterRelease_of_releases hrs hst
    · rw [claimEnd_claimed h hcl] at hx; cases hx

/-- **In every reachable world `worker_id` is what `Ownership` says.** -/
theorem ownership_reachable (h : (machine env).ReachableWhere H w) : Ownership w :=
  invariant_of_moves h ownership_init fun hr hi _ hm =>
    ownership_step hm (tied_reachable hr) (shaped_reachable hr) hi

end PromptQueue.Proof
