import PromptQueue.Api.Routes
import PromptQueue.Proof.Replay
import PromptQueue.Worker.Clock

/-!
# Times that make sense

Every timestamp of a row is what some process read off its clock when it committed the
write. If the clocks agree with the time up to a skew, the timestamps of a row are in the
order of the writes up to twice the skew, whichever processes made them: a job is not
started before it was created, its lease runs from the last that was heard of its worker,
nothing is heard of the worker once the job is over, and no result took less than no time.
-/

namespace PromptQueue.Proof

open PromptQueue Base World

variable {S : Type} [LinearOrder S] {env : Env S} {tm : Timing} {x x' : Timed} {e : TimedEvent}
variable {H : Timed → TimedEvent → Prop}

/-- The timestamps of a job, at the time `c`. -/
structure JobTimes (skew c : Time) (leaseSeconds : Nat) (j : ProcessingJob) : Prop where
  created : j.createdAt ≤ c + skew
  /-- It is started after it was created. -/
  started : ∀ t ∈ j.startedAt, t ≤ c + skew ∧ j.createdAt ≤ t + 2 * skew
  /-- A worker is heard of from the start on. -/
  heard : ∀ t ∈ j.lastHeartbeatAt, t ≤ c + skew ∧ ∃ b ∈ j.startedAt, b ≤ t + 2 * skew
  /-- A lease runs from there. -/
  leased : ∀ u ∈ j.lockedUntil, ∃ t ∈ j.lastHeartbeatAt, u = t + leaseSeconds
  /-- What is over has been started before. -/
  finished : ∀ f ∈ j.finishedAt, f ≤ c + skew ∧ ∀ b ∈ j.startedAt, b ≤ f + 2 * skew
  /-- Of a job that is over the worker was heard before. -/
  silent : j.status = .completed ∨ j.status = .dead →
    ∃ f ∈ j.finishedAt, ∀ t ∈ j.lastHeartbeatAt, t ≤ f + 2 * skew
  /-- A job that was not started since it was last queued by a client. -/
  unstarted : j.startedAt = none → j.workerId = none ∧ j.status ≠ .processing ∧
    (j.status = .queued → j.finishedAt = none)

/-- The timestamps of a request, at the time `c`. -/
structure RequestTimes (skew c : Time) (q : PromptRequest) : Prop where
  created : q.createdAt ≤ c + skew
  updated : q.updatedAt ≤ c + skew ∧ q.createdAt ≤ q.updatedAt + 2 * skew
  /-- It is completed after it was created, and not touched before that. -/
  completed : ∀ t ∈ q.completedAt, t ≤ c + skew ∧ q.createdAt ≤ t + 2 * skew ∧
    t ≤ q.updatedAt + 2 * skew

/-- The rows of the world have sensible timestamps. -/
structure TimesInOrder (env : Env S) (skew : Time) (x : Timed) : Prop where
  jobs : ∀ j ∈ x.world.db.jobs.rows, JobTimes skew x.clock env.leaseSeconds j
  requests : ∀ q ∈ x.world.db.requests.rows, RequestTimes skew x.clock q

/-! ## One event -/

/-- One event in time, taken apart. -/
structure TimedStep (env : Env S) (tm : Timing) (x : Timed) (e : TimedEvent) (x' : Timed) :
    Prop where
  clock : x.clock ≤ e.time
  now : x'.clock = e.time
  loops : x.loops tm e = some (x'.beats, x'.scans)
  /-- Nothing happened to the world, or one of its events did. -/
  world : (e.event = none ∧ x'.world = x.world) ∨
    ∃ ev, e.event = some ev ∧ World.step env x.world ev = some x'.world

theorem timed_step (h : Timed.step env tm x e = some x') : TimedStep env tm x e x' := by
  unfold Timed.step at h
  split at h
  · rename_i hc
    obtain ⟨l, hl, h⟩ := Option.bind_eq_some_iff.mp h
    obtain ⟨w, hw, rfl⟩ := Option.map_eq_some_iff.mp h
    refine ⟨hc, rfl, hl, ?_⟩
    unfold Timed.follow at hw
    split at hw
    · rename_i he
      cases hw
      exact .inl ⟨he, rfl⟩
    · rename_i ev he
      exact .inr ⟨ev, he, hw⟩
  · cases h

/-- **Which event of the world it is.** -/
theorem event_cases (h : TimedStep env tm x e x') {ev : Event} (hev : e.event = some ev) :
    (∃ t, e = .act t ev ∧ ev.looped = false) ∨
      (∃ t s now, e = .heartbeat t s .succeed now ∧ ev = .heartbeat s now) ∨
      ∃ t now, e = .reaper t .succeed now ∧ ev = .reap now := by
  cases e with
  | act t ev₀ =>
      cases hev
      have hl := h.loops
      simp only [Timed.loops] at hl
      split at hl
      · cases hl
      · rename_i hn
        exact .inl ⟨t, rfl, Bool.eq_false_iff.mpr hn⟩
  | heartbeat t s k now =>
      cases k <;> cases hev
      exact .inr (.inl ⟨t, s, now, rfl, rfl⟩)
  | reaper t k now =>
      cases k <;> cases hev
      exact .inr (.inr ⟨t, now, rfl, rfl⟩)

/-- The invariance rule, on events taken apart. -/
theorem invariant_of_timed {I : Timed → Prop} (h : (Timed.machine env tm).ReachableWhere H x)
    (hinit : I Timed.init)
    (hstep : ∀ {y z : Timed} {e : TimedEvent}, (Timed.machine env tm).ReachableWhere H y → I y →
      H y e → TimedStep env tm y e z → I z) : I x :=
  h.invariant hinit fun hr hi he hs => hstep hr hi he (timed_step hs)

/-- **In time the world does what it does.** -/
theorem world_reachable (h : (Timed.machine env tm).ReachableWhere H x) :
    (machine env).Reachable x.world := by
  refine invariant_of_timed (I := fun x => (machine env).Reachable x.world) h
    Machine.ReachableWhere.init fun {y z e} _ hi _ hs => ?_
  rcases hs.world with ⟨-, hw⟩ | ⟨ev, -, hw⟩
  · rw [hw]
    exact hi
  · exact hi.tail (e := ev) trivial hw

/-! ## Jobs -/

section
variable {w : World} {ev : Event} {skew c c' now : Time} {lease : Nat} {j j' : ProcessingJob}

/-- Time goes on, the row stays. -/
theorem JobTimes.later (h : JobTimes skew c lease j) (hc : c ≤ c') : JobTimes skew c' lease j where
  created := by linarith [h.created]
  started t ht := ⟨by linarith [(h.started t ht).1], (h.started t ht).2⟩
  heard t ht := ⟨by linarith [(h.heard t ht).1], (h.heard t ht).2⟩
  leased := h.leased
  finished f hf := ⟨by linarith [(h.finished f hf).1], (h.finished f hf).2⟩
  silent := h.silent
  unstarted := h.unstarted

/-- A claim starts a job that was not, and is heard of. -/
theorem JobTimes.claim (h : JobTimes skew c lease j) (hc : c ≤ c') (hlo : c' - skew ≤ now)
    (hhi : now ≤ c' + skew) (hd : ProcessingJob.Due now j) (s : WorkerId) :
    JobTimes skew c' lease (j.claim s lease now) := by
  have hcreated := h.created
  cases hb : j.startedAt with
  | none =>
      have hf := (h.unstarted hb).2.2 hd.1
      have hstart : (j.claim s lease now).startedAt = some now := by
        simp [ProcessingJob.claim, hb]
      refine ⟨by simp only [ProcessingJob.claim]; linarith, ?_, ?_, ?_, ?_, ?_, ?_⟩
      · intro t ht
        rw [hstart] at ht
        cases ht
        exact ⟨hhi, by simp only [ProcessingJob.claim]; linarith⟩
      · intro t ht
        cases ht
        exact ⟨hhi, now, hstart, by linarith⟩
      · intro u hu
        cases hu
        exact ⟨now, rfl, rfl⟩
      · intro f hf'
        simp only [ProcessingJob.claim, hf] at hf'
        cases hf'
      · intro hs
        rcases hs with hs | hs <;> cases hs
      · rw [hstart]
        nofun
  | some b =>
      obtain ⟨hbc, hcb⟩ := h.started b hb
      have hstart : (j.claim s lease now).startedAt = some b := by
        simp [ProcessingJob.claim, hb]
      refine ⟨by simp only [ProcessingJob.claim]; linarith, ?_, ?_, ?_, ?_, ?_, ?_⟩
      · intro t ht
        rw [hstart] at ht
        cases ht
        exact ⟨by linarith, hcb⟩
      · intro t ht
        cases ht
        exact ⟨hhi, b, hstart, by linarith⟩
      · intro u hu
        cases hu
        exact ⟨now, rfl, rfl⟩
      · intro f hf'
        obtain ⟨hfc, hfb⟩ := h.finished f hf'
        refine ⟨by linarith, fun b' hb' => ?_⟩
        rw [hstart] at hb'
        cases hb'
        exact hfb b hb
      · intro hs
        rcases hs with hs | hs <;> cases hs
      · rw [hstart]
        nofun

/-- A job in progress has been started. -/
theorem JobTimes.started_of_processing (h : JobTimes skew c lease j) (hs : j.status = .processing) :
    ∃ b, j.startedAt = some b := by
  cases hb : j.startedAt with
  | none => exact absurd hs (h.unstarted hb).2.1
  | some b => exact ⟨b, rfl⟩

/-- The columns after a job is over. -/
theorem JobTimes.finish (h : JobTimes skew c lease j) (hc : c ≤ c') (hlo : c' - skew ≤ now)
    (hhi : now ≤ c' + skew) (hcreated : j'.createdAt = j.createdAt)
    (hstarted : j'.startedAt = j.startedAt) (hheard : j'.lastHeartbeatAt = j.lastHeartbeatAt)
    (hleased : j'.lockedUntil = j.lockedUntil ∨ j'.lockedUntil = none)
    (hfinished : j'.finishedAt = some now) (hworker : j'.workerId = j.workerId)
    (hstatus : j'.status = .completed ∨ j'.status = .dead) : JobTimes skew c' lease j' := by
  have h' := h.later hc
  refine ⟨by rw [hcreated]; exact h'.created, ?_, ?_, ?_, ?_, ?_, ?_⟩
  · rw [hstarted, hcreated]
    exact h'.started
  · rw [hheard, hstarted]
    exact h'.heard
  · rcases hleased with hl | hl
    · rw [hl, hheard]
      exact h'.leased
    · rw [hl]
      nofun
  · intro f hf
    rw [hfinished] at hf
    cases hf
    rw [hstarted]
    exact ⟨hhi, fun b hb => by linarith [(h.started b hb).1]⟩
  · rw [hheard]
    exact fun _ => ⟨now, hfinished, fun t ht => by linarith [(h.heard t ht).1]⟩
  · rw [hstarted, hworker]
    intro hb
    refine ⟨(h.unstarted hb).1, ?_, ?_⟩
    · rcases hstatus with hs | hs <;> (rw [hs]; decide)
    · rcases hstatus with hs | hs <;> (rw [hs]; nofun)

/-- The columns after a job that was started is put back. -/
theorem JobTimes.putBack (h : JobTimes skew c lease j) (hc : c ≤ c')
    (hb : j.startedAt ≠ none) (hcreated : j'.createdAt = j.createdAt)
    (hstarted : j'.startedAt = j.startedAt) (hheard : j'.lastHeartbeatAt = j.lastHeartbeatAt)
    (hleased : j'.lockedUntil = none) (hfinished : j'.finishedAt = j.finishedAt)
    (hstatus : j'.status = .queued) : JobTimes skew c' lease j' := by
  have h' := h.later hc
  refine ⟨by rw [hcreated]; exact h'.created, ?_, ?_, ?_, ?_, ?_, ?_⟩
  · rw [hstarted, hcreated]
    exact h'.started
  · rw [hheard, hstarted]
    exact h'.heard
  · rw [hleased]
    nofun
  · rw [hfinished, hstarted]
    exact h'.finished
  · rw [hstatus]
    intro hs
    rcases hs with hs | hs <;> cases hs
  · rw [hstarted]
    exact fun hn => absurd hn hb

/-- **A move whose clock is right keeps the timestamps of a job in order.** -/
theorem JobTimes.step (h : JobTimes skew c env.leaseSeconds j) (hc : c ≤ c')
    (hr : ∀ now ∈ ev.reads, c' - skew ≤ now ∧ now ≤ c' + skew) (hst : JobStep env w ev j j') :
    JobTimes skew c' env.leaseSeconds j' := by
  cases hst with
  | same => exact h.later hc
  | claimed hs hp hd =>
      obtain ⟨hlo, hhi⟩ := hr _ rfl
      exact h.claim hc hlo hhi hd _
  | @extended s now r _ hs hh =>
      obtain ⟨hlo, hhi⟩ := hr _ rfl
      obtain ⟨b, hb⟩ := h.started_of_processing hh.2.2
      have h' := h.later hc
      refine ⟨h'.created, h'.started, ?_, ?_, h'.finished, ?_, ?_⟩
      · intro t ht
        cases ht
        exact ⟨hhi, b, hb, by linarith [(h.started b hb).1]⟩
      · intro u hu
        cases hu
        exact ⟨now, rfl, rfl⟩
      · show j.status = .completed ∨ j.status = .dead → _
        rw [hh.2.2]
        intro hs
        rcases hs with hs | hs <;> cases hs
      · exact fun hn => absurd (hb.symm.trans hn) nofun
  | released hs hst ho =>
      -- a job that somebody owns has been started
      have hb : j.startedAt ≠ none := by
        intro hn
        exact absurd ((h.unstarted hn).1.symm.trans ho.2) nofun
      exact h.putBack hc hb rfl rfl rfl rfl rfl rfl
  | completed hs hst hid =>
      obtain ⟨hlo, hhi⟩ := hr _ rfl
      exact h.finish hc hlo hhi rfl rfl rfl (.inr rfl) rfl rfl (.inl rfl)
  | buried hs hst hid =>
      obtain ⟨hlo, hhi⟩ := hr _ rfl
      exact h.finish hc hlo hhi rfl rfl rfl (.inr rfl) rfl rfl (.inr rfl)
  | reset hk hst hid =>
      refine ⟨(h.later hc).created, nofun, nofun, nofun, nofun, fun hs => ?_,
        fun _ => ⟨rfl, nofun, fun _ => rfl⟩⟩
      rcases hs with hs | hs <;> cases hs
  | requeued hq =>
      obtain ⟨b, hb⟩ := h.started_of_processing hq.1.1
      exact h.putBack hc (by rw [hb]; nofun) rfl rfl rfl rfl rfl rfl
  | expired hx =>
      obtain ⟨hlo, hhi⟩ := hr _ rfl
      exact h.finish hc hlo hhi rfl rfl rfl (.inl rfl) rfl rfl (.inr rfl)

end

/-! ## Requests -/

section
variable {w : World} {ev : Event} {skew c c' now : Time} {q q' : PromptRequest}

/-- Time goes on, the row stays. -/
theorem RequestTimes.later (h : RequestTimes skew c q) (hc : c ≤ c') : RequestTimes skew c' q where
  created := by linarith [h.created]
  updated := ⟨by linarith [h.updated.1], h.updated.2⟩
  completed t ht := ⟨by linarith [(h.completed t ht).1], (h.completed t ht).2⟩

/-- The columns after a write. -/
theorem RequestTimes.write (h : RequestTimes skew c q) (hc : c ≤ c') (hlo : c' - skew ≤ now)
    (hhi : now ≤ c' + skew) (hcreated : q'.createdAt = q.createdAt) (hupdated : q'.updatedAt = now)
    (hcompleted : q'.completedAt = q.completedAt ∨ q'.completedAt = some now) :
    RequestTimes skew c' q' := by
  obtain ⟨hcc, -, hdone⟩ := h
  rw [← hupdated] at hlo hhi
  refine ⟨by rw [hcreated]; linarith, ⟨hhi, by rw [hcreated]; linarith⟩, fun t ht => ?_⟩
  rw [hcreated]
  rcases hcompleted with hcomp | hcomp
  · rw [hcomp] at ht
    obtain ⟨htc, hct, -⟩ := hdone t ht
    exact ⟨by linarith, hct, by linarith⟩
  · rw [hcomp, ← hupdated] at ht
    cases ht
    exact ⟨hhi, by linarith, by linarith⟩

/-- **A move whose clock is right keeps the timestamps of a request in order.** -/
theorem RequestTimes.step (h : RequestTimes skew c q) (hc : c ≤ c')
    (hr : ∀ now ∈ ev.reads, c' - skew ≤ now ∧ now ≤ c' + skew) (hst : RequestStep w ev q q') :
    RequestTimes skew c' q' := by
  cases hst with
  | same => exact h.later hc
  | completed hs hst hid =>
      obtain ⟨hlo, hhi⟩ := hr _ rfl
      exact h.write hc hlo hhi rfl rfl (.inr rfl)
  | _ =>
      obtain ⟨hlo, hhi⟩ := hr _ rfl
      exact h.write hc hlo hhi rfl rfl (.inl rfl)

end

/-! ## Runs -/

/-- A row just inserted. -/
theorem times_of_inserted {w : World} {ev : Event} {skew c : Time} {q : PromptRequest}
    {j : ProcessingJob} (h : Inserted env w ev q j)
    (hr : ∀ now ∈ ev.reads, c - skew ≤ now ∧ now ≤ c + skew) :
    JobTimes skew c env.leaseSeconds j ∧ RequestTimes skew c q := by
  obtain ⟨c₀, k, now, inTime, rfl, -, -, rfl, rfl⟩ := h.call
  obtain ⟨hlo, hhi⟩ := hr _ rfl
  constructor
  · refine ⟨hhi, nofun, nofun, nofun, nofun, fun hs => ?_, fun _ => ⟨rfl, nofun, fun _ => rfl⟩⟩
    rcases hs with hs | hs <;> cases hs
  · refine ⟨hhi, ⟨hhi, ?_⟩, nofun⟩
    simp only [NewRequest.requestRow]
    linarith

/-- **One event keeps the timestamps sensible.** -/
theorem timesInOrder_step (h : TimedStep env tm x e x') (hs : Timed.Synced tm x e)
    (hi : TimesInOrder env tm.skew x) : TimesInOrder env tm.skew x' := by
  have hc : x.clock ≤ x'.clock := by
    rw [h.now]
    exact h.clock
  rcases h.world with ⟨-, hw⟩ | ⟨ev, hev, hw⟩
  · constructor
    · rw [hw]
      exact fun j hj => (hi.jobs j hj).later hc
    · rw [hw]
      exact fun q hq => (hi.requests q hq).later hc
  · have hm := move_of_step hw
    have hr : ∀ now ∈ ev.reads, x'.clock - tm.skew ≤ now ∧ now ≤ x'.clock + tm.skew := by
      intro now hnow
      rw [h.now]
      exact hs now (by rw [hev]; exact hnow)
    constructor
    · intro j' hj'
      rcases job_cases hm hj' with ⟨j, hj, hst⟩ | ⟨q, hins⟩
      · exact (hi.jobs j hj).step hc hr hst
      · exact (times_of_inserted hins hr).1
    · intro q' hq'
      rcases request_origin hm hq' with ⟨q, hq, rfl⟩ | ⟨j, hins, -⟩
      · exact (hi.requests q hq).step hc hr (request_step hm q)
      · exact (times_of_inserted hins hr).2

/-- **In every run whose clocks agree the timestamps make sense.** -/
theorem timesInOrder_reachable (hH : ∀ y e, H y e → Timed.Synced tm y e)
    (h : (Timed.machine env tm).ReachableWhere H x) : TimesInOrder env tm.skew x :=
  invariant_of_timed h ⟨fun _ hj => absurd hj List.not_mem_nil, fun _ hq => absurd hq
    List.not_mem_nil⟩ fun _ hi hs ht => timesInOrder_step ht (hH _ _ hs) hi

/-! ## What clients see of it -/

/-- Rounding towards zero makes nothing more negative. -/
theorem le_tdiv_of_le {r b : Rat} (hb : 0 ≤ b) (h : -b ≤ r) :
    -b ≤ ((r.num.tdiv r.den : Int) : Rat) := by
  have hden : (0 : Rat) < r.den := by exact_mod_cast r.den_pos
  rcases le_total 0 r with hr | hr
  · have htd : 0 ≤ r.num.tdiv r.den :=
      Int.tdiv_nonneg (Rat.num_nonneg.mpr hr) (Int.natCast_nonneg _)
    have hcast : (0 : Rat) ≤ ((r.num.tdiv r.den : Int) : Rat) := by exact_mod_cast htd
    linarith
  · have hnum : r.num ≤ 0 := Rat.num_nonpos.mpr hr
    -- what is cut off is negative too
    have hmod : r.num.tmod r.den ≤ 0 := by
      have hneg := Int.tmod_nonneg (a := -r.num) r.den (by omega)
      rw [Int.neg_tmod] at hneg
      omega
    have hsum := Int.mul_tdiv_add_tmod r.num r.den
    have hle : r.num ≤ r.den * r.num.tdiv r.den := by omega
    have hcast : (r.num : Rat) ≤ r.den * ((r.num.tdiv r.den : Int) : Rat) := by exact_mod_cast hle
    have hdiv : (r.num : Rat) / r.den ≤ ((r.num.tdiv r.den : Int) : Rat) := by
      rw [div_le_iff₀ hden]
      linarith
    rw [Rat.num_div_den] at hdiv
    linarith

/-- No result took less than no time, up to the skew. -/
theorem le_processingTimeMs {skew c : Time} {q : PromptRequest} (h : RequestTimes skew c q)
    (hskew : 0 ≤ skew) {ms : Int} (hms : ms ∈ q.processingTimeMs) :
    -(2000 * skew) ≤ (ms : Rat) := by
  unfold PromptRequest.processingTimeMs at hms
  obtain ⟨t, ht, rfl⟩ := Option.map_eq_some_iff.mp hms
  refine le_tdiv_of_le (by linarith) ?_
  linarith [(h.completed t ht).2.1]

/--
The intervals of `src/config.py`, rounds that take two tenths of a second more, and clocks
a tenth of a second off; heartbeats fail `slack` times in a row at most.
-/
def shipped (slack : Nat) : Timing where
  skew := 1 / 10
  skew_nonneg := by norm_num
  heartbeat :=
    { interval := 5, nap := 51 / 10, work := 1 / 10, slack := slack
      interval_nonneg := by norm_num
      interval_le_nap := by norm_num
      work_nonneg := by norm_num }
  reaper :=
    { interval := 5, nap := 51 / 10, work := 1 / 10, slack := 0
      interval_nonneg := by norm_num
      interval_le_nap := by norm_num
      work_nonneg := by norm_num }

/-- One request in time, its worker's clock slow: submitted, claimed, found in no cache. -/
def timedRun : List TimedEvent :=
  (submission 0 "p" "a").map (.act 0) ++
    [.act 1 (.claim 0 (9 / 10) [] (some 1)), .act 2 (.pipeline 0 2 none),
      .act 2 (.pipeline 0 2 none), .act 2 (.limiter 0 .granted), .act 2 (.llmCall 0),
      .act 3 (.llmReturn 0 "answer"), .act 3 (.pipeline 0 3 none), .act 3 (.pipeline 0 3 none)]

end PromptQueue.Proof
