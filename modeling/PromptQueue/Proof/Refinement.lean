import PromptQueue.Base.Simulation
import PromptQueue.Proof.Replay
import PromptQueue.Proof.Shutdown
import PromptQueue.Proof.TaskGroup
import PromptQueue.Worker.Cluster

/-!
# The processes do what the system does

`World` takes the slots of the workers for three states and the end of a pipeline for one
step. A slot of `Cluster` goes through a dozen awaits, and can be cancelled at each of them.
`SlotMatches` says which slot of `World` stands for a slot at which await, and
`cluster_refines` that the two never come apart: whatever the processes of a deployment do, in
whatever order, is a run of the system.

One slot of `World` may be late. A pipeline task whose failure handler raised is over, but a
cancellation can still reach its slot first, and then the loop goes on as if nothing had been
raised. So the error is only matched when the slot hears of it.
-/

namespace PromptQueue

open Base

/-- The awaits of a slot that has no job. -/
def SlotPoint.waits : SlotPoint → Bool
  | .claimNext | .connect | .listen | .unlisten => true
  | _ => false

/-- The run of `World` is the task, but for the ghosts. -/
def PipelineTask.Is (t : PipelineTask) (r : Run) : Prop :=
  ∃ ticket epoch, r = { t.run with ticket := ticket, epoch := epoch }

variable {S : Type} [LinearOrder S]

/-- The task's failure handler has raised, and the run is still about to. -/
structure PipelineTask.Raising (env : Env S) (t : PipelineTask) (r : Run) : Prop where
  raised : t.stage = .done .raised
  same : ({ t with stage := r.stage } : PipelineTask).Is r
  outside : PromptPipeline.inRun r.stage = false
  calls : (PromptPipeline.call env r 0 none).isSome = true

/-- The slot of `World` that stands for a slot at an await, with its task. -/
inductive SlotMatches (env : Env S) : SlotPoint → Option PipelineTask → Slot → Prop where
  | waiting {p : SlotPoint} (hp : p.waits = true) : SlotMatches env p none .idle
  | working {t : PipelineTask} {r : Run} (hd : t.stage ≠ .done .raised) (h : t.Is r) :
      SlotMatches env .pipeline (some t) (.running r)
  | raising {t : PipelineTask} {r : Run} (h : t.Raising env r) :
      SlotMatches env .pipeline (some t) (.running r)
  | stopping {t : PipelineTask} {r : Run} {how : Ending} (h : t.Is r) (hd : t.stage = .done how)
      (hne : how ≠ .cancelled) : SlotMatches env (.heartbeatStop how) (some t) (.running r)
  /-- The slot was cancelled, or its task was: there is nothing to announce. -/
  | dropped {t : PipelineTask} {r : Run} {how how' : Ending} (hj : r.job = t.job)
      (hl : r.leaseLost = t.leaseLost) (hd : t.stage = .done how) (hr : r.stage = .done how')
      (hne : how' ≠ .raised) : SlotMatches env (.heartbeatStop .cancelled) (some t) (.running r)
  | announcing {t : PipelineTask} {r : Run} {how : Ending} (h : t.Is r) (hd : t.stage = .done how)
      (hne : how ≠ .cancelled) : SlotMatches env (.notify how) (some t) (.running r)
  | gone : SlotMatches env .ended none .stopped

/-- The world a deployment is in. -/
structure Cluster.Refines (env : Env S) (n : Nat) (c : Cluster) (w : World) : Prop where
  db : w.db = c.db
  calls : w.calls = c.calls
  /-- Slot by slot, in every pool. -/
  slots : ∀ s : WorkerId, s.unpair.2 < n → SlotMatches env (c.point s) (c.tasks s) (w.slots s)
  /-- There are no others. -/
  others : ∀ s : WorkerId, n ≤ s.unpair.2 → c.tasks s = none ∧ w.slots s = .idle

/-! ## Breaking off -/

/-- A pipeline is broken off, or its failure handler is. -/
def World.Harms (w : World) : Event → Prop
  | .crash s => ∃ r, w.slots s = .running r
  | .abort _ => True
  | .dbError s _ => ∃ r, w.slots s = .running r ∧ PromptPipeline.inRun r.stage = false
  | _ => False

/-- A process is killed, a slot cancelled, or a failure handler broken off. -/
def Cluster.Harms (c : Cluster) : ClusterEvent → Prop
  | .kill _ | .orphan _ _ _ _ _ => True
  | .process _ (.cancelled _) => True
  | .process _ (.slot _ (.pipelineEnded .raised)) => True
  | .think (.dbError s _) => ∃ t ∈ c.tasks s, PromptPipeline.inRun t.stage = false
  | _ => False

instance (c : Cluster) (e : ClusterEvent) : Decidable (c.Harms e) := by
  unfold Cluster.Harms
  split <;> infer_instance

/-- A step of the system that does no harm, unless there is leave to. -/
def Within (leave : Prop) (w : World) (e : Event) : Prop := w.Harms e → leave

end PromptQueue

namespace PromptQueue.Proof

open PromptQueue Base World

variable {S : Type} [LinearOrder S] {env : Env S} {n : Nat} {c c' : Cluster} {w w' : World}
variable {leave : Prop} {s : WorkerId} {r : Run} {t : PipelineTask} {x y : Slot}

/-! ## Ghosts -/

theorem call_of_is (h : t.Is r) (now : Time) (top1 : Option Nat) :
    PromptPipeline.call env r now top1 = PromptPipeline.call env t.run now top1 := by
  obtain ⟨ticket, epoch, rfl⟩ := h
  rfl

theorem resume_of_is (h : t.Is r) (res : Res) :
    PromptPipeline.resume env r res = PromptPipeline.resume env t.run res := by
  obtain ⟨ticket, epoch, rfl⟩ := h
  rfl

theorem job_of_is (h : t.Is r) : r.job = t.job := by
  obtain ⟨ticket, epoch, rfl⟩ := h
  rfl

theorem stage_of_is (h : t.Is r) : r.stage = t.stage := by
  obtain ⟨ticket, epoch, rfl⟩ := h
  rfl

theorem lost_of_is (h : t.Is r) : r.leaseLost = t.leaseLost := by
  obtain ⟨ticket, epoch, rfl⟩ := h
  rfl

theorem is_stage (h : t.Is r) (st : Stage) :
    ({ t with stage := st } : PipelineTask).Is { r with stage := st } := by
  obtain ⟨ticket, epoch, rfl⟩ := h
  exact ⟨ticket, epoch, rfl⟩

theorem is_lost (h : t.Is r) (b : Bool) :
    ({ t with leaseLost := b } : PipelineTask).Is { r with leaseLost := b } := by
  obtain ⟨ticket, epoch, rfl⟩ := h
  exact ⟨ticket, epoch, rfl⟩

/-- No thought depends on a ghost. -/
theorem thought_of_is {e : Event} {r' : Run} {es : List Entry} (h : t.Is r)
    (ht : Thought env t.run e r' es) :
    ∃ es', Thought env r e { r with stage := r'.stage } es' := by
  obtain ⟨ticket, epoch, rfl⟩ := h
  cases ht with
  | dbError hc => exact ⟨_, .dbError hc⟩
  | granted hst => exact ⟨_, .granted hst⟩
  | denied hst => exact ⟨_, .denied hst⟩
  | unavailable hst => exact ⟨_, .unavailable hst⟩
  | guarded hst => exact ⟨_, .guarded hst⟩
  | called hst => exact ⟨_, .called hst⟩
  | answered hst => exact ⟨_, .answered hst⟩
  | failed hx hst => exact ⟨_, .failed hx hst⟩
  | cancelled hst hl => exact ⟨_, .cancelled hst hl⟩
  | aborted hst => exact ⟨_, .aborted hst⟩

/-! ## What one slot of the system can do by itself -/

/-- The slot can come to `x` while everything else stays as it is. -/
def Turns (env : Env S) (leave : Prop) (w : World) (s : WorkerId) (x : Slot) : Prop :=
  ∃ w', (machine env).PathWhere (Within leave) w w' ∧ w'.db = w.db ∧ w'.calls = w.calls ∧
    w'.slots = Function.update w.slots s x

theorem turns_stay (h : w.slots s = x) : Turns env leave w s x := by
  refine ⟨w, Relation.ReflTransGen.refl, rfl, rfl, ?_⟩
  rw [← h, Function.update_eq_self]

theorem turns_trans (h : Turns env leave w s x)
    (hnext : ∀ u : World, u.slots s = x → Turns env leave u s y) : Turns env leave w s y := by
  obtain ⟨u, hu, hdb, hcalls, hslots⟩ := h
  obtain ⟨v, hv, hdb', hcalls', hslots'⟩ := hnext u (by rw [hslots, Function.update_self])
  refine ⟨v, Relation.ReflTransGen.trans hu hv, hdb'.trans hdb, hcalls'.trans hcalls, ?_⟩
  rw [hslots', hslots, Function.update_idem]

/-- A slot that is not gone can go. -/
theorem turns_crash (hs : w.slots s ≠ .stopped) (hl : (∃ r, w.slots s = .running r) → leave) :
    Turns env leave w s .stopped := by
  refine ⟨w.setSlot s .stopped, Relation.ReflTransGen.single ⟨.crash s, hl, ?_⟩, rfl, rfl, rfl⟩
  show World.step env w (.crash s) = _
  cases hx : w.slots s with
  | stopped => exact absurd hx hs
  | idle => simp only [World.step, hx]
  | running r => simp only [World.step, hx]

/-- A pipeline that is over leaves its slot. -/
theorem turns_next {how : Ending} (hs : w.slots s = .running r) (hd : r.stage = .done how) :
    Turns env leave w s (afterTask r how).1 := by
  refine ⟨(w.setSlot s (afterTask r how).1).note (afterTask r how).2,
    Relation.ReflTransGen.single ⟨.next s, False.elim, ?_⟩, rfl, rfl, rfl⟩
  show World.step env w (.next s) = _
  simp only [World.step, withRun, hs, hd]

/-- A pipeline goes on without a transaction. -/
theorem turns_thought {e : Event} {r' : Run} {es : List Entry} (hs : w.slots s = .running r)
    (he : thinker e = some s) (ht : Thought env r e r' es) (hl : Within leave w e) :
    Turns env leave w s (.running r') := by
  refine ⟨(w.setSlot s (.running r')).note es, Relation.ReflTransGen.single ⟨e, hl, ?_⟩,
    rfl, rfl, rfl⟩
  have hth := think_of_thought ht
  show World.step env w e = _
  cases ht <;> (cases he; simp only [World.step, thinker, withRun, hs, hth, Option.map_some])

/-! ## One slot -/

/-- The slot of the system can come to stand for the await. -/
def Follows (env : Env S) (leave : Prop) (w : World) (s : WorkerId) (p : SlotPoint)
    (task : Option PipelineTask) : Prop :=
  ∃ x, Turns env leave w s x ∧ SlotMatches env p task x

theorem follows_stay {p : SlotPoint} {task : Option PipelineTask}
    (h : SlotMatches env p task (w.slots s)) : Follows env leave w s p task :=
  ⟨_, turns_stay rfl, h⟩

/-- No await at the head of the loop has a task. -/
theorem hasTask_loopHead (v : SlotTask) : v.loopHead.point.hasTask = false := by
  unfold SlotTask.loopHead
  split <;> rfl

/-- A slot that is done with its job is at the head of its loop. -/
theorem follows_loopHead (v : SlotTask) (h : Turns env leave w s .idle) :
    Follows env leave w s v.loopHead.point none := by
  by_cases hsh : v.shutdown = true
  · rw [loopHead_of_shutdown hsh]
    refine ⟨.stopped, turns_trans h fun u hu => turns_crash (by rw [hu]; simp) ?_, .gone⟩
    rintro ⟨r, hr⟩
    cases hu.symm.trans hr
  · rw [loopHead_of_running (by simpa using hsh)]
    exact ⟨.idle, h, .waiting rfl⟩

/-- The heartbeat is stopped, and the job announced or not. -/
theorem follows_afterStop (v : SlotTask) {how : Ending}
    (h : SlotMatches env (.heartbeatStop how) (some t) (w.slots s)) :
    Follows env leave w s (v.afterStop how).point
      (if (v.afterStop how).point.hasTask then some t else none) := by
  generalize hx : w.slots s = x at h
  cases h with
  | @stopping _ r _ h hd hne =>
      cases how with
      | cancelled => exact absurd rfl hne
      | returned => exact follows_stay (by rw [hx]; exact .announcing h hd hne)
      | raised => exact follows_stay (by rw [hx]; exact .announcing h hd hne)
  | @dropped _ r how how' hj hl hd hr hne =>
      have hidle : (afterTask r how').1 = .idle := by
        cases how' <;> first | rfl | exact absurd rfl hne
      have hturn : Turns env leave w s .idle := hidle ▸ turns_next hx hr
      show Follows env leave w s v.loopHead.point
        (if v.loopHead.point.hasTask then some t else none)
      rw [hasTask_loopHead]
      exact follows_loopHead v hturn

/-- The job is announced. -/
theorem follows_afterNotify (v : SlotTask) {how : Ending}
    (h : SlotMatches env (.notify how) (some t) (w.slots s)) :
    Follows env leave w s (v.afterNotify how).point none := by
  generalize hx : w.slots s = x at h
  cases h with
  | @announcing _ r _ h hd hne =>
      have hr : r.stage = .done how := (stage_of_is h).trans hd
      cases how with
      | cancelled => exact absurd rfl hne
      | returned => exact follows_loopHead v (turns_next hx hr)
      | raised => exact ⟨.stopped, turns_next hx hr, .gone⟩

/-- No await after an announcement has a task. -/
theorem hasTask_afterNotify (v : SlotTask) (how : Ending) :
    (v.afterNotify how).point.hasTask = false := by
  cases how with
  | raised => rfl
  | _ => exact hasTask_loopHead v

/-- The pipeline task comes back. -/
theorem follows_ended {how : Ending} (h : SlotMatches env .pipeline (some t) (w.slots s))
    (hd : t.stage = .done how) (hl : how = .raised → leave) :
    Follows env leave w s (.heartbeatStop how) (some t) := by
  generalize hx : w.slots s = x at h
  cases h with
  | @working _ r hne h =>
      have hr : r.stage = .done how := (stage_of_is h).trans hd
      cases how with
      | raised => exact absurd hd hne
      | returned => exact follows_stay (by rw [hx]; exact .stopping h hd (by simp))
      | cancelled =>
          refine follows_stay ?_
          rw [hx]
          exact .dropped (job_of_is h) (lost_of_is h) hd hr (by simp)
  | @raising _ r h =>
      -- now the system hears of it
      cases h.raised.symm.trans hd
      have hfail : PromptPipeline.fail r ⟨.databaseDriverError, ""⟩ = .done .raised := by
        rw [PromptPipeline.fail, h.outside]
        rfl
      have hth : Thought env r (.dbError s "") _ _ := .dbError h.calls
      rw [hfail] at hth
      have his : t.Is { r with stage := .done .raised } := by
        obtain ⟨ticket, epoch, hr⟩ := h.same
        refine ⟨ticket, epoch, ?_⟩
        rw [hr]
        simp only [PipelineTask.run, h.raised]
      exact ⟨_, turns_thought hx rfl hth fun _ => hl rfl, .stopping his hd (by simp)⟩

/-- A slot at its pipeline task is cancelled, and so is the task. -/
theorem follows_cancelled (h : SlotMatches env .pipeline (some t) (w.slots s)) (hl : leave) :
    Follows env leave w s (.heartbeatStop .cancelled) (some t.cancel) := by
  have hdone : ∃ how, t.cancel.stage = .done how := by
    unfold PipelineTask.cancel
    split
    · exact ⟨_, ‹_›⟩
    · exact ⟨_, rfl⟩
  obtain ⟨how, hdone⟩ := hdone
  have hjob : t.cancel.job = t.job := by
    unfold PipelineTask.cancel
    split <;> rfl
  have hlost : t.cancel.leaseLost = t.leaseLost := by
    unfold PipelineTask.cancel
    split <;> rfl
  generalize hx : w.slots s = x at h
  cases h with
  | @working _ r hne h =>
      by_cases hd : ∃ how, r.stage = .done how
      · -- the task was over, but nobody will know how
        obtain ⟨how', hd⟩ := hd
        refine follows_stay ?_
        rw [hx]
        refine .dropped ((job_of_is h).trans hjob.symm) ((lost_of_is h).trans hlost.symm) hdone hd
          ?_
        rintro rfl
        exact hne ((stage_of_is h).symm.trans hd)
      · exact ⟨_, turns_thought (e := .abort s) hx rfl (.aborted (not_exists.mp hd))
          fun _ => hl, .dropped ((job_of_is h).trans hjob.symm) ((lost_of_is h).trans hlost.symm)
          hdone rfl (by simp)⟩
  | @raising _ r h =>
      have hd : ∀ how, r.stage ≠ .done how := by
        intro how hd
        have hcall := h.calls
        simp [PromptPipeline.call, hd] at hcall
      exact ⟨_, turns_thought (e := .abort s) hx rfl (.aborted hd) fun _ => hl,
        .dropped ((job_of_is h.same).trans hjob.symm) ((lost_of_is h.same).trans hlost.symm)
          hdone rfl (by simp)⟩

/-- A task that is over stays as it is. -/
theorem cancel_of_done {how : Ending} (h : t.stage = .done how) : t.cancel = t := by
  unfold PipelineTask.cancel
  rw [h]

/-- A slot that has a task to stop or to announce has one that is over. -/
theorem done_of_matches {p : SlotPoint} (h : SlotMatches env p (some t) x)
    (hp : p ≠ .pipeline) : ∃ how, t.stage = .done how := by
  cases h with
  | working hd h => exact absurd rfl hp
  | raising h => exact absurd rfl hp
  | stopping h hd hne => exact ⟨_, hd⟩
  | dropped hj hl hd hr hne => exact ⟨_, hd⟩
  | announcing h hd hne => exact ⟨_, hd⟩

/-- A slot has a task where an await needs one. -/
theorem task_of_matches {p : SlotPoint} {task : Option PipelineTask}
    (h : SlotMatches env p task x) (hp : p.hasTask = true) : ∃ t, task = some t := by
  cases h with
  | waiting hw => cases p <;> simp_all [SlotPoint.waits, SlotPoint.hasTask]
  | gone => cases hp
  | working hd h => exact ⟨_, rfl⟩
  | raising h => exact ⟨_, rfl⟩
  | stopping h hd hne => exact ⟨_, rfl⟩
  | dropped hj hl hd hr hne => exact ⟨_, rfl⟩
  | announcing h hd hne => exact ⟨_, rfl⟩

/-- A slot without one is idle. -/
theorem idle_of_matches {p : SlotPoint} {task : Option PipelineTask}
    (h : SlotMatches env p task x) (hp : p.waits = true) : task = none ∧ x = .idle := by
  cases h with
  | waiting hw => exact ⟨rfl, rfl⟩
  | _ => cases hp

/-- **A slot is resumed, and the system follows.** -/
theorem slot_follows {v u : SlotTask} {e : SlotEvent} {task : Option PipelineTask}
    (hst : v.step e = some u) (he : e.resumes = true) (hc : ∀ found, e ≠ .claimed found)
    (hans : ∀ how, e = .pipelineEnded how → ∃ t, task = some t ∧ t.stage = .done how)
    (hl : e = .pipelineEnded .raised → leave) (h : SlotMatches env v.point task (w.slots s)) :
    Follows env leave w s u.point (if u.point.hasTask then task else none) := by
  have hidle : v.point.waits = true → task = none ∧ Turns env leave w s .idle := fun hp =>
    ⟨(idle_of_matches h hp).1, turns_stay (idle_of_matches h hp).2⟩
  have hhead : v.point.waits = true →
      Follows env leave w s v.loopHead.point (if v.loopHead.point.hasTask then task else none) := by
    intro hp
    rw [hasTask_loopHead]
    exact follows_loopHead v (hidle hp).2
  cases SlotTask.step_iff.mp hst with
  | told hs => cases he
  | cancelled hp => cases he
  | took hp => exact absurd rfl (hc _)
  | foundNone hp => exact absurd rfl (hc _)
  | broke hp =>
      obtain ⟨-, hturn⟩ := hidle (by rw [hp]; rfl)
      refine ⟨.stopped, turns_trans hturn fun u hu => turns_crash (by rw [hu]; simp) ?_, .gone⟩
      rintro ⟨r, hr⟩
      cases hu.symm.trans hr
  | opened hp => exact ⟨.idle, (hidle (by rw [hp]; rfl)).2, .waiting rfl⟩
  | woken hp => exact ⟨.idle, (hidle (by rw [hp]; rfl)).2, .waiting rfl⟩
  | refused hp => exact hhead (by rw [hp]; rfl)
  | closed hp => exact hhead (by rw [hp]; rfl)
  | @finished how hp =>
      obtain ⟨t, rfl, hd⟩ := hans how rfl
      rw [hp] at h
      exact follows_ended h hd (by rintro rfl; exact hl rfl)
  | stopped hp =>
      rw [hp] at h
      obtain ⟨t, rfl⟩ := task_of_matches h rfl
      exact follows_afterStop v h
  | announced hp =>
      rw [hp] at h
      obtain ⟨t, rfl⟩ := task_of_matches h rfl
      rw [hasTask_afterNotify]
      exact follows_afterNotify v h

/-- **A slot is cancelled, and the system follows.** -/
theorem cancel_follows {v u : SlotTask} {task : Option PipelineTask}
    (hst : v.step .cancel = some u) (hl : leave) (h : SlotMatches env v.point task (w.slots s)) :
    Follows env leave w s u.point
      (if u.point.hasTask then task.map PipelineTask.cancel else none) := by
  cases SlotTask.step_iff.mp hst with
  | cancelled hp =>
      have hcrash : Follows env leave w s .ended none := by
        refine ⟨.stopped, turns_crash ?_ fun _ => hl, .gone⟩
        intro hs
        rw [hs] at h
        generalize hv : v.point = p at h hp
        cases h with
        | gone => exact hp rfl
      cases hv : v.point with
      | claimNext => simp only [SlotTask.cancelAt, hv]; exact hcrash
      | connect => simp only [SlotTask.cancelAt, hv]; exact hcrash
      | unlisten => simp only [SlotTask.cancelAt, hv]; exact hcrash
      | notify how => simp only [SlotTask.cancelAt, hv]; exact hcrash
      | ended => exact absurd hv hp
      | listen =>
          simp only [SlotTask.cancelAt, hv]
          exact ⟨.idle, turns_stay (idle_of_matches h (by rw [hv]; rfl)).2, .waiting rfl⟩
      | pipeline =>
          simp only [SlotTask.cancelAt, hv]
          rw [hv] at h
          obtain ⟨t, rfl⟩ := task_of_matches h rfl
          exact follows_cancelled h hl
      | heartbeatStop how =>
          simp only [SlotTask.cancelAt, hv]
          rw [hv] at h
          obtain ⟨t, rfl⟩ := task_of_matches h rfl
          obtain ⟨how', hd⟩ := done_of_matches h (by simp)
          rw [Option.map_some, cancel_of_done hd]
          exact follows_afterStop v h

/-! ## The slots of a deployment -/

@[simp] theorem slotId_unpair (p i : Nat) : (slotId p i).unpair = (p, i) := Nat.unpair_pair p i

theorem slotId_of_unpair (s : WorkerId) : slotId s.unpair.1 s.unpair.2 = s := Nat.pair_unpair s

/-- The await of a slot, when its process has come to `q`. -/
theorem point_setProc (c : Cluster) (p : Nat) (q : WorkerProcess) (s : WorkerId) :
    (c.setProc p q).point s = if s.unpair.1 = p then (q.slots s.unpair.2).point else c.point s := by
  show ((Function.update c.procs p q s.unpair.1).slots s.unpair.2).point = _
  by_cases hp : s.unpair.1 = p
  · rw [if_pos hp, hp, Function.update_self]
  · rw [if_neg hp, Function.update_of_ne hp]
    rfl

/-- What concerns no slot concerns no slot. -/
theorem refines_same (h : c.Refines env n w) (hdb : w'.db = c'.db) (hcalls : w'.calls = c'.calls)
    (hs : w'.slots = w.slots) (hp : ∀ s, c'.point s = c.point s) (ht : c'.tasks = c.tasks) :
    c'.Refines env n w' where
  db := hdb
  calls := hcalls
  slots s hn := by
    rw [hp, ht, hs]
    exact h.slots s hn
  others s hn := by
    rw [ht, hs]
    exact h.others s hn

/-- What concerns one slot only. -/
theorem refines_put (h : c.Refines env n w) {s : WorkerId} (hn : s.unpair.2 < n)
    (hdb : w'.db = c'.db) (hcalls : w'.calls = c'.calls)
    (hs : w'.slots = Function.update w.slots s x)
    (hp : ∀ s' ≠ s, c'.point s' = c.point s' ∧ c'.tasks s' = c.tasks s')
    (hm : SlotMatches env (c'.point s) (c'.tasks s) x) : c'.Refines env n w' where
  db := hdb
  calls := hcalls
  slots s' hs' := by
    by_cases heq : s' = s
    · rw [heq, hs, Function.update_self]
      exact hm
    · rw [hs, Function.update_of_ne heq, (hp s' heq).1, (hp s' heq).2]
      exact h.slots s' hs'
  others s' hs' := by
    have heq : s' ≠ s := by
      rintro rfl
      omega
    rw [(hp s' heq).2, hs, Function.update_of_ne heq]
    exact h.others s' hs'

/-! ## The steps of a deployment -/

variable {p : Nat} {q : WorkerProcess} {e : ProcessEvent}

/-- The other slots, when one has turned. -/
theorem others_of_setProc (c : Cluster) {p i : Nat} {q : WorkerProcess} {u : SlotTask}
    (hslots : q.slots = Function.update (c.procs p).slots i u) (task : Option PipelineTask) :
    ∀ s' ≠ slotId p i, ((c.setTask (slotId p i) task).setProc p q).point s' = c.point s' ∧
      ((c.setTask (slotId p i) task).setProc p q).tasks s' = c.tasks s' := by
  intro s' hs'
  refine ⟨?_, Function.update_of_ne hs' ..⟩
  rw [point_setProc]
  by_cases hp : s'.unpair.1 = p
  · have hne : s'.unpair.2 ≠ i := by
      rintro rfl
      rw [← hp, slotId_of_unpair] at hs'
      exact hs' rfl
    rw [if_pos hp, hslots, Function.update_of_ne hne, ← hp]
    rfl
  · rw [if_neg hp]
    rfl

/-- The slot that turns, in a process that has come to `q`. -/
theorem process_slot (h : c.Refines env n w) {i : Nat} {u : SlotTask} {task : Option PipelineTask}
    (hslots : q.slots = Function.update (c.procs p).slots i u)
    (htask : c.tasks (slotId p i) = none → task = none)
    (hs : i < n → Follows env leave w (slotId p i) u.point task) :
    ∃ w', (machine env).PathWhere (Within leave) w w' ∧
      ((c.setTask (slotId p i) task).setProc p q).Refines env n w' := by
  have hself : ((c.setTask (slotId p i) task).setProc p q).point (slotId p i) = u.point := by
    rw [point_setProc, slotId_unpair, if_pos rfl, hslots, Function.update_self]
  have htasks : ((c.setTask (slotId p i) task).setProc p q).tasks (slotId p i) = task :=
    Function.update_self ..
  have hrest := others_of_setProc c hslots task
  by_cases hi : i < n
  · obtain ⟨x, ⟨w', hw, hwdb, hwcalls, hwslots⟩, hm⟩ := hs hi
    refine ⟨w', hw, refines_put h (s := slotId p i) (by rw [slotId_unpair]; exact hi)
      (hwdb.trans h.db) (hwcalls.trans h.calls) hwslots hrest ?_⟩
    rw [hself, htasks]
    exact hm
  · -- there is no such slot
    obtain ⟨hnone, hidle⟩ := h.others (slotId p i) (by rw [slotId_unpair]; exact Nat.not_lt.mp hi)
    refine ⟨w, Relation.ReflTransGen.refl, h.db, h.calls, fun s' hs' => ?_, fun s' hs' => ?_⟩
    · have heq : s' ≠ slotId p i := by
        rintro rfl
        rw [slotId_unpair] at hs'
        exact hi hs'
      rw [(hrest s' heq).1, (hrest s' heq).2]
      exact h.slots s' hs'
    · by_cases heq : s' = slotId p i
      · rw [heq, htasks]
        exact ⟨htask hnone, hidle⟩
      · rw [(hrest s' heq).2]
        exact h.others s' hs'

/-- **A step of a worker process is followed.** -/
theorem process_follows (h : c.Refines env n w) (hans : c.answers p e = true)
    (hst : WorkerProcess.step n (c.procs p) e = some q) (hl : c.Harms (.process p e) → leave) :
    ∃ w', (machine env).PathWhere (Within leave) w w' ∧
      ((c.settle p q e).setProc p q).Refines env n w' := by
  have stay : q.slots = (c.procs p).slots ∨ q = (c.procs p).setEvent →
      (c.setProc p q).Refines env n w := by
    intro hq
    refine refines_same h h.db h.calls rfl (fun s => ?_) rfl
    rw [point_setProc]
    split
    · rename_i hp
      rcases hq with hq | hq
      · rw [hq, ← hp]
        rfl
      · rw [hq, ← hp]
        rfl
    · rfl
  have turn : ∀ i ev u, e = .slot i ev → ev.resumes = true →
      ((c.procs p).slots i).step ev = some u →
      q.slots = Function.update (c.procs p).slots i u →
      ∃ w', (machine env).PathWhere (Within leave) w w' ∧
        ((c.settle p q e).setProc p q).Refines env n w' := by
    rintro i ev u rfl hres hu hslots
    have hself : (q.slots i).point = u.point := by rw [hslots, Function.update_self]
    refine process_slot h hslots (fun hn => by rw [hn]; split <;> rfl) fun hi => ?_
    rw [hself]
    have hm := h.slots (slotId p i) (by rw [slotId_unpair]; exact hi)
    have hpoint : c.point (slotId p i) = ((c.procs p).slots i).point := by
      rw [Cluster.point, slotId_unpair]
    rw [hpoint] at hm
    refine slot_follows hu hres ?_ ?_ ?_ hm
    · rintro found rfl
      cases hans
    · rintro how rfl
      simpa [Cluster.answers, Option.any_eq_true] using hans
    · rintro rfl
      exact hl trivial
  cases process_step hst with
  | signal hm => exact ⟨w, Relation.ReflTransGen.refl, stay (.inr rfl)⟩
  | reaper hst => exact ⟨w, Relation.ReflTransGen.refl, stay (.inl rfl)⟩
  | gathered hm hover hf => exact ⟨w, Relation.ReflTransGen.refl, stay (.inl rfl)⟩
  | closed hst => exact ⟨w, Relation.ReflTransGen.refl, stay (.inl rfl)⟩
  | teardown hm => exact ⟨w, Relation.ReflTransGen.refl, stay (.inl rfl)⟩
  | resumed hi hc he hu hr => exact turn _ _ _ rfl he hu rfl
  | raised hi hc he hu hr => exact turn _ _ _ rfl he hu (by rw [abort_slots]; rfl)
  | @cancelled i u hc hu =>
      have hself : (((c.procs p).setSlot i u).slots i).point = u.point := by rw [setSlot_self]
      refine process_slot h (i := i) (u := u) rfl
        (fun hn => by rw [hn]; split <;> rfl) fun hi => ?_
      rw [hself]
      have hm := h.slots (slotId p i) (by rw [slotId_unpair]; exact hi)
      have hpoint : c.point (slotId p i) = ((c.procs p).slots i).point := by
        rw [Cluster.point, slotId_unpair]
      rw [hpoint] at hm
      exact cancel_follows hu (hl trivial) hm

/-- A task that is not over is at work, and so is its slot of the system. -/
theorem working_of_matches {p : SlotPoint} (h : SlotMatches env p (some t) x)
    (hd : ∀ how, t.stage ≠ .done how) : p = .pipeline ∧ ∃ r, x = .running r ∧ t.Is r := by
  cases h with
  | working hne h => exact ⟨rfl, _, rfl, h⟩
  | raising h => exact absurd h.raised (hd _)
  | stopping h hdone hne => exact absurd hdone (hd _)
  | dropped hj hl hdone hr hne => exact absurd hdone (hd _)
  | announcing h hdone hne => exact absurd hdone (hd _)

/-- Only a slot of a pool has a task. -/
theorem slot_of_task (h : c.Refines env n w) (ht : c.tasks s = some t) : s.unpair.2 < n := by
  by_contra hn
  rw [(h.others s (Nat.not_lt.mp hn)).1] at ht
  cases ht

/-- No repository call makes a task raise. -/
theorem resume_ne_raised {now : Time} {top1 : Option Nat} {tx : Tx} (db : Db)
    (h : PromptPipeline.call env r now top1 = some tx) :
    PromptPipeline.resume env r (db.exec tx).2 ≠ .done .raised := by
  obtain ⟨y, hy, hturn⟩ := PromptPipeline.turn_of_call db h
  rw [hy]
  cases hturn <;> simp

/-- Only an exception out of the failure handler does. -/
theorem thought_raises {e : Event} {r' : Run} {es : List Entry} (h : Thought env r e r' es)
    (hr : r'.stage = .done .raised) : (∃ s message, e = .dbError s message) ∧
      PromptPipeline.inRun r.stage = false ∧
      (PromptPipeline.call env r 0 none).isSome = true := by
  have handled : ∀ (job : ProcessingJob) (exc : Exc),
      PromptPipeline.handleFailure job exc ≠ .done .raised := by
    intro job exc
    rcases PromptPipeline.handleFailure_cases job exc with ⟨_, _, h⟩ | ⟨_, _, h⟩ | ⟨_, _, _, h⟩ <;>
      rw [h] <;> simp
  cases h with
  | @dbError s message hcall =>
      refine ⟨⟨s, message, rfl⟩, ?_, hcall⟩
      by_contra hin
      have hfail : PromptPipeline.fail r ⟨.databaseDriverError, message⟩
          = PromptPipeline.handleFailure r.job ⟨.databaseDriverError, message⟩ :=
        if_pos (by simpa using hin)
      exact handled _ _ (hfail.symm.trans hr)
  | unavailable hst => exact (handled r.job (redisUnavailableError _) hr).elim
  | failed hx hst => exact (handled _ _ hr).elim
  | granted hst => cases hr
  | denied hst => cases hr
  | guarded hst => cases hr
  | called hst => cases hr
  | answered hst => cases hr
  | cancelled hst hl => cases hr
  | aborted hst => cases hr

/-- A task that is over thinks no more. -/
theorem not_done_of_thought {e : Event} {r' : Run} {es : List Entry} (h : Thought env r e r' es)
    (how : Ending) : r.stage ≠ .done how := by
  intro hd
  cases h with
  | dbError hc => simp [PromptPipeline.call, hd] at hc
  | cancelled hst hl => exact hst how hd
  | aborted hst => exact hst how hd
  | granted hst => cases hd.symm.trans hst
  | denied hst => cases hd.symm.trans hst
  | unavailable hst => cases hd.symm.trans hst
  | guarded hst => cases hd.symm.trans hst
  | called hst => cases hd.symm.trans hst
  | answered hst => cases hd.symm.trans hst
  | failed hx hst => cases hd.symm.trans hst

/-- A thought a task has by itself does no harm, as long as nothing is raised. -/
theorem harmless_thought {e : Event} {r' : Run} {es : List Entry} (hs : w.slots s = .running r)
    (he : thinker e = some s) (h : Thought env r e r' es) (ha : ∀ s, e ≠ .abort s)
    (hr : r'.stage ≠ .done .raised) : ¬ w.Harms e := by
  intro hharm
  cases h with
  | @dbError s₀ message hc =>
      cases he
      obtain ⟨r₀, hr₀, hin⟩ := hharm
      cases Slot.running.inj (hr₀.symm.trans hs)
      exact hr (by simp only [PromptPipeline.fail, hin]; rfl)
  | aborted hst => exact ha _ rfl
  | _ => exact hharm

/-- The tasks of other slots, and their awaits, when one is put in place. -/
theorem others_of_setTask (c : Cluster) (s : WorkerId) (task : Option PipelineTask) :
    ∀ s' ≠ s, (c.setTask s task).point s' = c.point s' ∧
      (c.setTask s task).tasks s' = c.tasks s' :=
  fun _ hs' => ⟨rfl, Function.update_of_ne hs' ..⟩

theorem setTask_self (c : Cluster) (s : WorkerId) (task : Option PipelineTask) :
    (c.setTask s task).tasks s = task :=
  Function.update_self ..

/-- **A pipeline task goes on, and the system follows.** -/
theorem think_follows {e : Event} (h : c.Refines env n w)
    (hst : Cluster.step env n c (.think e) = some c') :
    ∃ w', (machine env).PathWhere (Within leave) w w' ∧ c'.Refines env n w' := by
  simp only [Cluster.step] at hst
  split at hst
  · cases hst
  · rename_i s ha he
    obtain ⟨t, ht, hst⟩ := Option.bind_eq_some_iff.mp hst
    obtain ⟨y, hy, rfl⟩ := Option.map_eq_some_iff.mp hst
    have hth := thought_of_think hy
    have hn := slot_of_task h ht
    have hm := h.slots s hn
    rw [ht] at hm
    obtain ⟨hp, r, hr, his⟩ := working_of_matches hm (not_done_of_thought hth)
    by_cases hraise : y.1.stage = .done .raised
    · -- the system waits until the slot hears of it
      obtain ⟨-, hout, hcall⟩ := thought_raises hth hraise
      have hstage := stage_of_is his
      refine ⟨w, Relation.ReflTransGen.refl, refines_put h hn h.db h.calls
        (Function.update_eq_self_iff.mpr rfl).symm (others_of_setTask c s _) ?_⟩
      rw [setTask_self, show (c.setTask s _).point s = c.point s from rfl, hp, hr]
      refine .raising ⟨hraise, ?_, by rw [hstage]; exact hout, by rw [call_of_is his]; exact hcall⟩
      rw [hstage]
      exact his
    · obtain ⟨es', hth'⟩ := thought_of_is his hth
      have hturn : Turns env leave w s (.running { r with stage := y.1.stage }) :=
        turns_thought hr he hth' fun hharm => absurd hharm
          (harmless_thought hr he hth' (fun s' heq => ha s' heq) hraise)
      obtain ⟨w', hw, hdb, hcalls, hslots⟩ := hturn
      refine ⟨w', hw, refines_put h hn (hdb.trans h.db) (hcalls.trans h.calls) hslots
        (others_of_setTask c s _) ?_⟩
      rw [setTask_self, show (c.setTask s _).point s = c.point s from rfl, hp]
      exact .working hraise (is_stage his _)
  · cases hst

/-- One step of the system that breaks nothing off. -/
theorem path_of_step {ev : Event} (hs : World.step env w ev = some w') (hno : ¬ w.Harms ev) :
    (machine env).PathWhere (Within leave) w w' :=
  Relation.ReflTransGen.single ⟨ev, fun hharm => absurd hharm hno, hs⟩

/-- **A pipeline's transaction is followed.** -/
theorem pipeline_follows {now : Time} {top1 : Option Nat} (h : c.Refines env n w)
    (hst : Cluster.step env n c (.pipeline s now top1) = some c') :
    ∃ w', (machine env).PathWhere (Within leave) w w' ∧ c'.Refines env n w' := by
  obtain ⟨t, ht, hst⟩ := Option.bind_eq_some_iff.mp hst
  obtain ⟨tx, htx, rfl⟩ := Option.map_eq_some_iff.mp hst
  have hn := slot_of_task h ht
  have hm := h.slots s hn
  rw [ht] at hm
  have hd : ∀ how, t.stage ≠ .done how := by
    intro how hd
    simp [PromptPipeline.call, PipelineTask.run, hd] at htx
  obtain ⟨hp, r, hr, his⟩ := working_of_matches hm hd
  have hstep : World.step env w (.pipeline s now top1) = some ((w.commit (.slot s) tx).setSlot s
      (.running { r with stage := PromptPipeline.resume env r (w.db.exec tx).2 })) := by
    simp only [World.step, withRun, hr, call_of_is his, htx, Option.map_some]
  refine ⟨_, path_of_step hstep id, refines_put h hn ?_ h.calls rfl
    (others_of_setTask _ s _) ?_⟩
  · show (w.db.exec tx).1 = (c.db.exec tx).1
    rw [h.db]
  · rw [setTask_self, h.db, resume_of_is his]
    show SlotMatches env (c.point s) _ _
    rw [hp]
    exact .working (resume_ne_raised c.db htx) (is_stage his _)

/-- **A heartbeat is followed.** -/
theorem heartbeat_follows {now : Time} (h : c.Refines env n w)
    (hst : Cluster.step env n c (.heartbeat s now) = some c') :
    ∃ w', (machine env).PathWhere (Within leave) w w' ∧ c'.Refines env n w' := by
  obtain ⟨t, ht, hst⟩ := Option.bind_eq_some_iff.mp hst
  split at hst
  · rename_i hbeat
    cases hst
    have hn := slot_of_task h ht
    have hm := h.slots s hn
    rw [ht] at hm
    -- whatever the slot of the system is at, it has the job
    have key : ∀ r : Run, w.slots s = .running r → r.job = t.job → r.leaseLost = t.leaseLost →
        (∀ b, SlotMatches env (c.point s) (some { t with leaseLost := b })
          (.running { r with leaseLost := b })) →
        ∃ w', (machine env).PathWhere (Within leave) w w' ∧
          ({ c with db := (ProcessingJobRepository.extendLease c.db t.job.id s env.leaseSeconds
              now).1 }.setTask s (some { t with leaseLost :=
              !(ProcessingJobRepository.extendLease c.db t.job.id s env.leaseSeconds now).2 }
            )).Refines env n w' := by
      intro r hr hj hl hm
      have hlost : r.leaseLost = false := hl.trans hbeat.1
      have hstep : World.step env w (.heartbeat s now) = some
          ((w.commit (.heartbeat s) (.extendLease r.job.id s env.leaseSeconds now)).setSlot s
            (.running { r with leaseLost := decide ((w.db.exec
              (.extendLease r.job.id s env.leaseSeconds now)).2 ≠ .updated true) })) := by
        simp [World.step, withRun, hr, hlost]
      refine ⟨_, path_of_step hstep id, refines_put h hn ?_ h.calls rfl
        (others_of_setTask _ s _) ?_⟩
      · show (w.db.exec (.extendLease r.job.id s env.leaseSeconds now)).1 = _
        rw [h.db, hj]
        rfl
      · have hres : decide ((w.db.exec (.extendLease r.job.id s env.leaseSeconds now)).2
            ≠ .updated true) = !(ProcessingJobRepository.extendLease c.db t.job.id s
              env.leaseSeconds now).2 := by
          rw [h.db, hj]
          simp [Db.exec]
        rw [setTask_self, hres]
        exact hm _
    generalize hx : w.slots s = x at hm
    generalize hp : c.point s = p at hm hbeat key
    cases hm with
    | @working _ r hd his =>
        exact key r hx (job_of_is his) (lost_of_is his) fun b => .working hd (is_lost his b)
    | @raising _ r his =>
        exact key r hx ((job_of_is his.same).trans rfl) ((lost_of_is his.same).trans rfl) fun b =>
          .raising ⟨his.raised, is_lost his.same b, his.outside, his.calls⟩
    | @stopping _ r how his hd hne =>
        exact key r hx (job_of_is his) (lost_of_is his) fun b => .stopping (is_lost his b) hd hne
    | @dropped _ r how how' hj hl hd hr hne =>
        exact key r hx hj hl fun b => .dropped hj rfl hd hr hne
    | announcing his hd hne => cases hbeat.2
  · cases hst

/-- A slot that is about to claim is idle. -/
theorem idle_of_claiming (h : c.Refines env n w) {p i : Nat} (hi : i < n)
    (hp : ((c.procs p).slots i).point.waits = true) :
    c.tasks (slotId p i) = none ∧ w.slots (slotId p i) = .idle := by
  have hm := h.slots (slotId p i) (by rw [slotId_unpair]; exact hi)
  rw [Cluster.point, slotId_unpair] at hm
  exact idle_of_matches hm hp

/-- A slot that was claiming has been handed what `claim_next` found. -/
theorem slots_of_claimed {p i : Nat} {found : Bool}
    (h : WorkerProcess.step n (c.procs p) (.slot i (.claimed found)) = some q) :
    i < n ∧ ((c.procs p).slots i).point = .claimNext ∧
      q.slots = Function.update (c.procs p).slots i
        { (c.procs p).slots i with point := if found then .pipeline else .connect } := by
  cases process_step h with
  | resumed hi hc he hu hr =>
      cases SlotTask.step_iff.mp hu with
      | took hp => exact ⟨hi, hp, rfl⟩
      | foundNone hp => exact ⟨hi, hp, rfl⟩
  | raised hi hc he hu hr => cases hr

/-- **A claim is followed.** -/
theorem claim_follows {p i : Nat} {now : Time} {locked : List Nat} {pick : Option Nat}
    (h : c.Refines env n w) (hst : Cluster.step env n c (.claim p i now locked pick) = some c') :
    ∃ w', (machine env).PathWhere (Within leave) w w' ∧ c'.Refines env n w' := by
  simp only [Cluster.step] at hst
  split at hst
  · rename_i hsel
    obtain ⟨q, hq, rfl⟩ := Option.map_eq_some_iff.mp hst
    obtain ⟨hi, hp, hslots⟩ := slots_of_claimed hq
    obtain ⟨-, hidle⟩ := idle_of_claiming h hi (by rw [hp]; rfl)
    rw [← h.db] at hsel
    generalize hout : ProcessingJobRepository.claimNext c.db (slotId p i) env.leaseSeconds now pick
      = out at hslots ⊢
    have hexec : w.db.exec (.claimNext (slotId p i) env.leaseSeconds now pick)
        = (out.1, .claimed out.2) := by
      rw [h.db, ← hout]
      rfl
    refine ⟨_, path_of_step (step_of_claim hidle hsel) id, refines_put h (s := slotId p i)
      (by rw [slotId_unpair]; exact hi) ?_ h.calls rfl (others_of_setProc c hslots _) ?_⟩
    · show (w.db.exec _).1 = out.1
      rw [hexec]
    · rw [setTask_self, hexec]
      show SlotMatches env ((c.setProc p q).point (slotId p i)) _ _
      rw [point_setProc, slotId_unpair, if_pos rfl, hslots, Function.update_self]
      obtain ⟨db', found⟩ := out
      cases found with
      | none => exact .waiting rfl
      | some x => exact .working (by simp) ⟨_, _, rfl⟩
  · cases hst

/-- **A claim nobody hears of is followed.** -/
theorem orphan_follows {p i : Nat} {now : Time} {locked : List Nat} {pick : Option Nat}
    (h : c.Refines env n w) (hst : Cluster.step env n c (.orphan p i now locked pick) = some c')
    (hl : leave) :
    ∃ w', (machine env).PathWhere (Within leave) w w' ∧ c'.Refines env n w' := by
  simp only [Cluster.step] at hst
  split at hst
  · rename_i hg
    obtain ⟨hi, hp, hsel⟩ := hg
    obtain ⟨q, hq, rfl⟩ := Option.map_eq_some_iff.mp hst
    obtain ⟨hnone, hidle⟩ := idle_of_claiming h hi (by rw [hp]; rfl)
    rw [← h.db] at hsel
    have hslots : q.slots = Function.update (c.procs p).slots i
        { (c.procs p).slots i with point := .ended } := by
      cases process_step hq with
      | cancelled hc hu =>
          cases SlotTask.step_iff.mp hu with
          | cancelled hne =>
              show Function.update (c.procs p).slots i _ = _
              simp only [SlotTask.cancelAt, hp]
    -- the system claims the job, and then loses the slot
    have hclaim : (machine env).PathWhere (Within leave) w _ :=
      path_of_step (step_of_claim hidle hsel) id
    generalize hu : (w.commit (.slot (slotId p i)) (.claimNext (slotId p i) env.leaseSeconds now
      pick)).setSlot (slotId p i) (w.afterClaim (w.db.exec (.claimNext (slotId p i)
        env.leaseSeconds now pick)).2) = u at hclaim
    have hustop : u.slots (slotId p i) ≠ .stopped := by
      rw [← hu, setSlot_slots_self]
      unfold World.afterClaim
      split <;> simp
    have hturn : Turns env leave u (slotId p i) .stopped := turns_crash hustop fun _ => hl
    obtain ⟨w', hw, hdb, hcalls, hws⟩ := hturn
    have hudb : u.db = (w.db.exec (.claimNext (slotId p i) env.leaseSeconds now pick)).1 := by
      rw [← hu]
      rfl
    have hucalls : u.calls = w.calls := by
      rw [← hu]
      rfl
    have huslots : Function.update u.slots (slotId p i) .stopped
        = Function.update w.slots (slotId p i) .stopped := by
      rw [← hu]
      exact Function.update_idem ..
    refine ⟨w', Relation.ReflTransGen.trans hclaim hw, refines_put h (s := slotId p i)
      (by rw [slotId_unpair]; exact hi) ?_ ?_ (hws.trans huslots) ?_ ?_⟩
    · rw [hdb, hudb, h.db]
      rfl
    · rw [hcalls, hucalls, h.calls]
      rfl
    · intro s' hs'
      have hrest := others_of_setProc c hslots none s' hs'
      exact ⟨hrest.1, rfl⟩
    · have hpoint : (c.setProc p q).point (slotId p i) = .ended := by
        rw [point_setProc, slotId_unpair, if_pos rfl, hslots, Function.update_self]
      show SlotMatches env ((c.setProc p q).point (slotId p i)) (c.tasks (slotId p i)) _
      rw [hpoint, hnone]
      exact .gone
  · cases hst

/-- **A scan is followed.** -/
theorem reap_follows {p : Nat} {now : Time} (h : c.Refines env n w)
    (hst : Cluster.step env n c (.reap p now) = some c') :
    ∃ w', (machine env).PathWhere (Within leave) w w' ∧ c'.Refines env n w' := by
  obtain ⟨q, hq, rfl⟩ := Option.map_eq_some_iff.mp hst
  have hstep : World.step env w (.reap now)
      = some (w.commit .reaper (.reapExpiredLeases now)) := rfl
  refine ⟨_, path_of_step hstep id, refines_same h ?_ h.calls rfl (fun s => ?_) rfl⟩
  · show (w.db.exec (.reapExpiredLeases now)).1 = _
    rw [h.db]
    rfl
  · rw [point_setProc]
    split
    · rename_i hp
      cases process_step hq with
      | reaper hx =>
          rw [← hp]
          rfl
    · rfl

/-- **The calls of the API are followed.** -/
theorem call_follows {i : Nat} {now : Time} {inTime : Bool} (h : c.Refines env n w)
    (hst : Cluster.step env n c (.call i now inTime) = some c') :
    ∃ w', (machine env).PathWhere (Within leave) w w' ∧ c'.Refines env n w' := by
  simp only [Cluster.step] at hst
  split at hst
  · rename_i k hk
    obtain ⟨t, ht, rfl⟩ := Option.map_eq_some_iff.mp hst
    rw [← h.calls] at hk
    have hstep : World.step env w (.call i now inTime) = some ((w.commit (.call i) t).setCall i
        (some { k with stage := PromptProcessor.resume env k inTime (w.db.exec t).2 })) := by
      simp only [World.step, hk, ht, Option.map_some]
    refine ⟨_, path_of_step hstep id, refines_same h ?_ ?_ rfl (fun _ => rfl) rfl⟩
    · show (w.db.exec t).1 = (c.db.exec t).1
      rw [h.db]
    · show Function.update w.calls i _ = Function.update c.calls i _
      rw [h.calls, h.db]
  · cases hst

theorem submit_follows {i : Nat} {args : SubmitArgs} (h : c.Refines env n w)
    (hst : Cluster.step env n c (.submit i args) = some c') :
    ∃ w', (machine env).PathWhere (Within leave) w w' ∧ c'.Refines env n w' := by
  simp only [Cluster.step] at hst
  split at hst
  · rename_i hk
    cases hst
    rw [← h.calls] at hk
    have hstep : World.step env w (.submit i args)
        = some (w.setCall i (some ⟨args, .check⟩)) := by
      simp only [World.step, hk]
    refine ⟨_, path_of_step hstep id, refines_same h h.db ?_ rfl (fun _ => rfl) rfl⟩
    show Function.update w.calls i _ = Function.update c.calls i _
    rw [h.calls]
  · cases hst

theorem callCrash_follows {i : Nat} (h : c.Refines env n w)
    (hst : Cluster.step env n c (.callCrash i) = some c') :
    ∃ w', (machine env).PathWhere (Within leave) w w' ∧ c'.Refines env n w' := by
  simp only [Cluster.step] at hst
  split at hst
  · rename_i k hk
    split at hst
    · cases hst
    · rename_i hend
      cases hst
      rw [← h.calls] at hk
      have hstep : World.step env w (.callCrash i) = some (w.setCall i none) := by
        simp only [World.step, hk, if_neg hend]
      refine ⟨_, path_of_step hstep id, refines_same h h.db ?_ rfl (fun _ => rfl) rfl⟩
      show Function.update w.calls i _ = Function.update c.calls i _
      rw [h.calls]
  · cases hst

/-- The first slots of a process are gone. -/
theorem crash_slots (hl : leave) (w : World) (p k : Nat) :
    ∃ w', (machine env).PathWhere (Within leave) w w' ∧ w'.db = w.db ∧ w'.calls = w.calls ∧
      ∀ s : WorkerId, w'.slots s
        = if s.unpair.1 = p ∧ s.unpair.2 < k then .stopped else w.slots s := by
  induction k with
  | zero => exact ⟨w, Relation.ReflTransGen.refl, rfl, rfl, fun s => by simp⟩
  | succ k ih =>
      obtain ⟨u, hu, hdb, hcalls, hslots⟩ := ih
      have hturn : Turns env leave u (slotId p k) .stopped := by
        by_cases hs : u.slots (slotId p k) = .stopped
        · exact turns_stay hs
        · exact turns_crash hs fun _ => hl
      obtain ⟨v, hv, hvdb, hvcalls, hvslots⟩ := hturn
      refine ⟨v, Relation.ReflTransGen.trans hu hv, hvdb.trans hdb, hvcalls.trans hcalls,
        fun s => ?_⟩
      rw [hvslots]
      by_cases hs : s = slotId p k
      · rw [hs, Function.update_self, slotId_unpair, if_pos ⟨rfl, Nat.lt_succ_self k⟩]
      · rw [Function.update_of_ne hs, hslots]
        have hne : ¬ (s.unpair.1 = p ∧ s.unpair.2 = k) := by
          rintro ⟨rfl, rfl⟩
          exact hs (slotId_of_unpair s).symm
        by_cases hp : s.unpair.1 = p
        · have hk : s.unpair.2 ≠ k := fun hk => hne ⟨hp, hk⟩
          have hiff : s.unpair.2 < k ↔ s.unpair.2 < k + 1 := by omega
          simp only [hp, true_and, hiff]
        · simp only [hp, false_and]

/-- **The death of a process is followed**, slot by slot. -/
theorem kill_follows {p : Nat} (h : c.Refines env n w)
    (hst : Cluster.step env n c (.kill p) = some c') (hl : leave) :
    ∃ w', (machine env).PathWhere (Within leave) w w' ∧ c'.Refines env n w' := by
  cases hst
  obtain ⟨w', hw, hdb, hcalls, hslots⟩ := @crash_slots S _ env leave hl w p n
  refine ⟨w', hw, hdb.trans h.db, hcalls.trans h.calls, fun s hs => ?_, fun s hs => ?_⟩
  · rw [point_setProc, hslots]
    show SlotMatches env _ (if s.unpair.1 = p then none else c.tasks s) _
    by_cases hp : s.unpair.1 = p
    · rw [if_pos hp, if_pos hp, if_pos ⟨hp, hs⟩]
      exact .gone
    · rw [if_neg hp, if_neg hp, if_neg (fun hboth => hp hboth.1)]
      exact h.slots s hs
  · have hidle : w'.slots s = .idle := by
      rw [hslots, if_neg (fun hboth => Nat.not_lt.mpr hs hboth.2)]
      exact (h.others s hs).2
    refine ⟨?_, hidle⟩
    show (if s.unpair.1 = p then none else c.tasks s) = none
    by_cases hp : s.unpair.1 = p
    · rw [if_pos hp]
    · rw [if_neg hp]
      exact (h.others s hs).1

/-- **Every step of a deployment is followed.** -/
theorem step_follows {e : ClusterEvent} (h : c.Refines env n w)
    (hst : Cluster.step env n c e = some c') (hl : c.Harms e → leave) :
    ∃ w', (machine env).PathWhere (Within leave) w w' ∧ c'.Refines env n w' := by
  cases e with
  | submit i args => exact submit_follows h hst
  | call i now inTime => exact call_follows h hst
  | callCrash i => exact callCrash_follows h hst
  | claim p i now locked pick => exact claim_follows h hst
  | orphan p i now locked pick => exact orphan_follows h hst (hl trivial)
  | pipeline s now top1 => exact pipeline_follows h hst
  | think e => exact think_follows h hst
  | heartbeat s now => exact heartbeat_follows h hst
  | reap p now => exact reap_follows h hst
  | kill p => exact kill_follows h hst (hl trivial)
  | process p e =>
      simp only [Cluster.step] at hst
      split at hst
      · rename_i hans
        obtain ⟨q, hq, rfl⟩ := Option.map_eq_some_iff.mp hst
        exact process_follows h hans hq hl
      · cases hst

theorem refines_init : Cluster.init.Refines env n World.init where
  db := rfl
  calls := rfl
  slots _ _ := .waiting rfl
  others _ _ := ⟨rfl, rfl⟩

/-- **A deployment is simulated by the system**, and what breaks nothing off by what breaks
nothing off. -/
theorem cluster_simulation (env : Env S) (n : Nat) (leave : Prop) :
    Simulation (Cluster.machine env n) (fun c e => c.Harms e → leave) (machine env)
      (Within leave) (Cluster.Refines env n) where
  init := refines_init
  step _ _ h hl hst := step_follows h hst hl

/--
**What the processes do, the system does.** Every state a deployment can come to is one the
system can come to: the same tables, the same calls, and slot by slot what its awaits stand
for. And however the deployment goes on from there, the system can go on alike.
-/
theorem cluster_refines (hc : (Cluster.machine env n).Reachable c)
    (hp : (Cluster.machine env n).PathWhere Machine.Always c c') :
    (∃ w, (machine env).Reachable w ∧ c.Refines env n w) ∧
    ∀ w, (machine env).Reachable w → c.Refines env n w →
      ∃ w', (machine env).PathWhere Machine.Always w w' ∧ c'.Refines env n w' := by
  have hsim := cluster_simulation env n True
  have hc' := hc.mono (H := fun c e => c.Harms e → True) fun _ _ _ _ => trivial
  have hp' := hp.mono (H := fun c e => c.Harms e → True) fun _ _ _ _ => trivial
  constructor
  · obtain ⟨w, hw, href⟩ := hsim.reachable hc'
    exact ⟨w, hw.mono fun _ _ _ => trivial, href⟩
  · intro w hw href
    obtain ⟨w', hw', href'⟩ := hsim.path hc' (hw.mono fun _ _ _ _ => trivial) href hp'
    exact ⟨w', hw'.mono fun _ _ _ => trivial, href'⟩

/-- A slot cancelled in the middle of its job goes on to the next, with the job in progress. -/
theorem cluster_refines_cancelled : ∃ (c : Cluster) (w : World),
    c.point (slotId 0 1) = .claimNext ∧ c.db.jobs.rows.map (·.status) = [.processing] ∧
    (machine deployment).Reachable w ∧ w.slots (slotId 0 1) = .idle ∧
    w.db.jobs.rows.map (·.status) = [.processing] := by
  obtain ⟨c, -, hc, ht⟩ := Machine.reachable_of_run (m := Cluster.machine deployment 2)
    (E := [.submit 0 ⟨"u", "p", "a", "normal"⟩, .call 0 0 true, .call 0 0 true, .call 0 0 true,
      .claim 0 1 1 [] (some 1), .process 0 (.slot 0 .claimRaised), .process 0 (.cancelled 1),
      .process 0 (.slot 1 .heartbeatStopped)])
    (p := fun c => decide (c.point (slotId 0 1) = .claimNext ∧
      c.db.jobs.rows.map (·.status) = [.processing])) (by decide +kernel)
  obtain ⟨hpoint, hjobs⟩ := of_decide_eq_true ht
  obtain ⟨w, hw, href⟩ := (cluster_refines hc Relation.ReflTransGen.refl).1
  have hslot := href.slots (slotId 0 1) (by rw [slotId_unpair]; omega)
  rw [hpoint] at hslot
  exact ⟨c, w, hpoint, hjobs, hw, (idle_of_matches hslot rfl).2, by rw [href.db]; exact hjobs⟩

end PromptQueue.Proof
