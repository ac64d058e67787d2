/-
`relocate`: a task's files move to another directory while the queue goes on.

The entry in `moving` says what becomes of the task: whether its files are
moving yet and whether it resumes afterwards.  A relocation waits for the stop
of a running task, then for the disk job, and is over once `done` has run.
Everything else the engine does meanwhile is about other tasks, or only
changes what becomes of this one.
-/
import Aria2Next.EngineReach

namespace Aria2Next.Engine

open Runs Queue OrdMap Function

variable (engine : Engine)

def stopsOf (gid : Gid) : List (TaskRef × TaskState) :=
  engine.stops.filter (·.1.gid = gid)

def jobsOf (gid : Gid) : List TaskRef := engine.moveJobs.filter (·.gid = gid)

/-- How often a `done` callback of the task has run. -/
def answered (task : TaskRef) : Nat := engine.moved.countP (·.1 = task)

/-- Nothing that matters to the relocation of a task has changed. -/
structure Same (task : TaskRef) (engine next : Engine) : Prop where
  moving : next.moving.find? task.gid = engine.moving.find? task.gid
  state : next.state task = engine.state task
  stopping : next.stopping task = engine.stopping task
  stops : next.stopsOf task.gid = engine.stopsOf task.gid
  jobs : next.jobsOf task.gid = engine.jobsOf task.gid
  waiting : task ∈ engine.waiting → task ∈ next.waiting
  answered : next.answered task = engine.answered task
  down : next.shuttingDown = engine.shuttingDown

section Other

variable {t o : TaskRef} {e next n : Engine} {wide : Prop}

theorem Same.refl (e : Engine) : Same t e e := ⟨rfl, rfl, rfl, rfl, rfl, id, rfl, rfl⟩

theorem Same.trans {e n l : Engine} (hf : Same t e n) (hl : Same t n l) : Same t e l where
  moving := hl.moving.trans hf.moving
  state := hl.state.trans hf.state
  stopping := hl.stopping.trans hf.stopping
  stops := hl.stops.trans hf.stops
  jobs := hl.jobs.trans hf.jobs
  waiting := fun hm => hl.waiting (hf.waiting hm)
  answered := hl.answered.trans hf.answered
  down := hl.down.trans hf.down

theorem same_of_frame (hf : n.frame = e.frame) : Same t e n := by
  simp only [frame, queue, Prod.mk.injEq, Queue.mk.injEq] at hf
  constructor <;> simp [stopsOf, jobsOf, Engine.answered, hf]

theorem filter_erase {α : Type*} [BEq α] [LawfulBEq α] {k : α → Bool} {g : α} (hg : k g = false)
    (i : List α) : (i.erase g).filter k = i.filter k := by
  rw [← List.erase_filter]
  simp [hg]

/-- An edit about tasks of other GIDs. -/
theorem Edit.same (he : Edit { touches := (·.gid ≠ t.gid), wide := False } e next) : Same t e next := by
  have hn {o : TaskRef} (hg : o.gid ≠ t.gid) : t ≠ o ∧ o ≠ t := by
    constructor <;> rintro rfl <;> exact hg rfl
  cases he with
  | quiet hf => exact same_of_frame hf
  | start hw | reorder hw | requeue hw | relocate hw | resumeAll hw | down hw =>
    exact hw.elim
  | tell | forget => constructor <;> simp [emit, stopsOf, jobsOf, answered]
  | @answer o hg stops hs =>
    change o.gid ≠ t.gid at hg
    constructor
    case stops =>
      rcases hs with rfl | ⟨next, rfl⟩
      · rfl
      · exact filter_erase (by simp [hg]) e.stops
    all_goals simp [jobsOf, answered, setStopping, hn hg]
  | @retire o hg _ _ waiting hwa =>
    constructor
    case waiting => grind
    all_goals simp [stopsOf, jobsOf, answered, setState, emit, hn hg]
  | @land o hg | @drop o hg =>
    change o.gid ≠ t.gid at hg
    constructor
    case jobs => exact filter_erase (by simp [hg]) e.moveJobs
    all_goals simp [stopsOf, answered, hg.symm, hn hg, find?_erase]
  | @retag o hg | @back o hg | @ask o hg | @resume o hg
  | @carry o hg | @giveUp o hg =>
    change o.gid ≠ t.gid at hg
    constructor <;> simp +contextual [stopsOf, jobsOf, answered, setState, setStopping, hg,
      hg.symm, hn hg, find?_insert, find?_erase]

theorem Edits.same (he : Edits { touches := (·.gid ≠ t.gid), wide := False } e n) : Same t e n :=
  he.keeps (motive := Same t e) (fun _ _ hed hs => hs.trans hed.same) (.refl e)

theorem same_setState (e : Engine) (s : TaskState) (hn : t ≠ o) : Same t e (e.setState o s) where
  moving := rfl
  state := update_of_ne hn _ _
  stopping := rfl
  stops := rfl
  jobs := rfl
  waiting := id
  answered := rfl
  down := rfl

/-- The loop of `fill` does not touch a task that does not wait. -/
theorem same_startWaiting (a : Answers) (r : List TaskRef) :
    ∀ (e : Engine) (k : List TaskRef), e.state t ≠ .waiting →
      Same t { e with waiting := k ++ r } (e.startWaiting a k r) := by
  induction r with
  | nil =>
    intro e k _
    rw [List.append_nil]
    exact .refl _
  | cons first r ih =>
    intro e k hst
    rw [startWaiting]
    split_ifs with hr hw
    · have hne : t ≠ first := by
        rintro rfl
        exact hst hw
      have hs : Same t { e with waiting := k ++ first :: r }
          { e.startTask first (a.throws first) with waiting := k ++ r } := by
        have hm : t ∈ k ++ first :: r → t ∈ k ++ r := by
          simp [hne]
        rw [startTask]
        split_ifs <;> exact { same_setState e .active hne with waiting := hm }
      apply hs.trans (ih _ k _)
      have hsa := hs.state
      exact hsa.symm ▸ hst
    · have hn := ih e (k ++ [first]) hst
      rw [List.append_assoc] at hn
      exact hn
    · exact .refl _

theorem startWaiting_moves (a : Answers) (r : List TaskRef) :
    ∀ (e : Engine) (k : List TaskRef), (e.startWaiting a k r).moving = e.moving ∧
      (e.startWaiting a k r).moved = e.moved ∧
      (e.startWaiting a k r).shuttingDown = e.shuttingDown := by
  induction r with
  | nil => intro e k; exact ⟨rfl, rfl, rfl⟩
  | cons first r ih =>
    intro e k
    rw [startWaiting]
    split_ifs
    · rw [(ih _ k).1, (ih _ k).2.1, (ih _ k).2.2, startTask]
      split_ifs <;> exact ⟨rfl, rfl, rfl⟩
    · exact ih e _
    · exact ⟨rfl, rfl, rfl⟩

/-- A `fill` that does not shut the engine down is the loop, or nothing. -/
theorem fill_of_up {a : Answers} (hdo : (e.fill a).shuttingDown = false) :
    e.fill a = e ∨ e.fill a = e.startWaiting a [] e.waiting := by
  have hm := startWaiting_moves a e.waiting e []
  rw [fill] at hdo ⊢
  split_ifs at hdo ⊢ with hs
  · exact .inl rfl
  dsimp only at hdo ⊢
  split_ifs at hdo ⊢ with he
  · rw [shutdown, hm.2.2] at hdo
    simp [hs, he.1, post] at hdo
  · exact .inr rfl

theorem same_fill (e : Engine) (a : Answers) (hs : e.state t ≠ .waiting)
    (hdo : (e.fill a).shuttingDown = false) : Same t e (e.fill a) := by
  rcases fill_of_up hdo with hf | hf <;> rw [hf]
  · exact .refl e
  · exact same_startWaiting a e.waiting e [] hs

end Other

/-- The task is the only one of its GID in the queue. -/
def Alone (task : TaskRef) : Prop :=
  ∀ other, other ∈ engine.active ∨ other ∈ engine.waiting → other.gid = task.gid → other = task

section Alone

variable {t other o : TaskRef} {engine e next n : Engine} {wide : Prop}

/-- The queue holds nothing new but perhaps one task. -/
def Within (other : TaskRef) (engine next : Engine) : Prop :=
  ∀ listed, listed ∈ next.active ∨ listed ∈ next.waiting →
    (listed ∈ engine.active ∨ listed ∈ engine.waiting) ∨ listed = other

theorem Alone.within {e n : Engine} (ha : e.Alone t) (hw : Within o e n)
    (ho : o.gid = t.gid → o = t) : n.Alone t := by
  intro l hl hg
  rcases hw l hl with hb | rfl
  · exact ha l hb hg
  · exact ho hg

theorem Edit.within (he : Edit { touches := Eq o, wide } e n) : Within o e n := by
  cases he with
  | quiet hf =>
    simp only [frame, queue, Prod.mk.injEq, Queue.mk.injEq] at hf
    simp +contextual [Within, hf]
  | _ =>
    simp only [Within, setState, setStopping, setAllResume, emit]
    grind

theorem Edits.within (he : Edits { touches := Eq o, wide } e n) : Within o e n :=
  he.keeps (motive := Within o e)
    (fun _ _ hed hb l hl => (hed.within l hl).elim (hb l) .inr) fun _ => .inl

/-- Edits about the task itself. -/
theorem Alone.edits (ha : e.Alone t) (he : Edits { touches := Eq t, wide } e n) : n.Alone t :=
  ha.within he.within fun _ => rfl

theorem foldl_alone (f : Engine → TaskRef → Engine)
    (hf : ∀ (e : Engine) (o : TaskRef), Within o e (f e o)) (ta : List TaskRef)
    (ht : ∀ o ∈ ta, o.gid = t.gid → o = t) : ∀ e : Engine, e.Alone t → (ta.foldl f e).Alone t := by
  induction ta with
  | nil => intro e ha; exact ha
  | cons first r ih =>
    intro e ha
    rw [List.forall_mem_cons] at ht
    exact ih ht.2 _ (ha.within (hf e first) ht.1)

end Alone

/-- The relocation waits for the task to stop. -/
structure Halting (engine : Engine) (task : TaskRef) (resume : Bool)
    (done : Nat) : Prop where
  moving : engine.moving.find? task.gid = some { resume, started := false }
  state : engine.state task = .active
  stopping : engine.stopping task = true
  stops : engine.stopsOf task.gid = [(task, .paused)] ∨ engine.stopsOf task.gid ≠ [] ∧
      ∀ stop ∈ engine.stopsOf task.gid, stop = (task, .removed)
  jobs : engine.jobsOf task.gid = []
  answered : engine.answered task = done
  down : engine.shuttingDown = false

/-- The files of the task are moving. -/
structure Carrying (engine : Engine) (task : TaskRef) (resume : Bool)
    (done : Nat) : Prop where
  moving : engine.moving.find? task.gid = some { resume, started := true }
  state : engine.state task = .paused
  waiting : task ∈ engine.waiting
  stops : engine.stopsOf task.gid = []
  jobs : engine.jobsOf task.gid = [task]
  answered : engine.answered task = done
  down : engine.shuttingDown = false

/-- The task is not being moved. -/
structure Idle (engine : Engine) (task : TaskRef) (done : Nat) : Prop where
  moving : engine.moving.find? task.gid = none
  answered : engine.answered task = done

section Phases

variable {task t o : TaskRef} {resume r : Bool} {done d : Nat} {engine e next n : Engine}

theorem Halting.same (hh : e.Halting t r d) (hs : Same t e n) : n.Halting t r d where
  moving := hs.moving.trans hh.moving
  state := hs.state.trans hh.state
  stopping := hs.stopping.trans hh.stopping
  stops := by
    rw [hs.stops]
    exact hh.stops
  jobs := hs.jobs.trans hh.jobs
  answered := hs.answered.trans hh.answered
  down := hs.down.trans hh.down

theorem Carrying.same (hc : e.Carrying t r d) (hs : Same t e n) : n.Carrying t r d where
  moving := hs.moving.trans hc.moving
  state := hs.state.trans hc.state
  waiting := hs.waiting hc.waiting
  stops := hs.stops.trans hc.stops
  jobs := hs.jobs.trans hc.jobs
  answered := hs.answered.trans hc.answered
  down := hs.down.trans hc.down

theorem Idle.same (hi : e.Idle t d) (hs : Same t e n) : n.Idle t d :=
  ⟨hs.moving.trans hi.moving, hs.answered.trans hi.answered⟩

variable {move : Move} {s : TaskState}

theorem find?_setResume (hm : e.moving.find? t.gid = some move) (resume : Bool) :
    (e.setResume t resume).moving.find? t.gid = some { move with resume } := by
  rw [setResume, hm]
  exact find?_insert_self _ _ _

/-- Apart from the entry of the task nothing changes. -/
theorem setResume_eq (hm : e.moving.find? t.gid = some move) (resume : Bool) :
    e.setResume t resume = { e with moving := e.moving.insert t.gid { move with resume } } := by
  rw [setResume, hm]

theorem Halting.setResume (hh : e.Halting t r d) (a : Bool) : (e.setResume t a).Halting t a d := by
  have he := find?_setResume hh.moving a
  rw [setResume_eq hh.moving] at he ⊢
  exact { hh with moving := he }

theorem Carrying.setResume (hc : e.Carrying t r d) (a : Bool) :
    (e.setResume t a).Carrying t a d := by
  have he := find?_setResume hc.moving a
  rw [setResume_eq hc.moving] at he ⊢
  exact { hc with moving := he }

theorem Halting.pause (hh : e.Halting t r d) (b : Bool) : (e.pause t b).Halting t false d := by
  have hr := hh.setResume false
  rw [Engine.pause]
  generalize e.setResume t false = paused at hr ⊢
  simp only [hr.state, hr.stopping, if_true]
  exact hr

theorem Carrying.pause (hc : e.Carrying t r d) (b : Bool) : (e.pause t b).Carrying t false d := by
  have hr := hc.setResume false
  rw [Engine.pause]
  generalize e.setResume t false = paused at hr ⊢
  simp only [hr.state]
  exact hr

theorem Halting.contains (hh : e.Halting t r d) : e.moving.contains t.gid = true := by
  rw [OrdMap.contains, hh.moving]
  rfl

theorem Carrying.contains (hc : e.Carrying t r d) : e.moving.contains t.gid = true := by
  rw [OrdMap.contains, hc.moving]
  rfl

theorem Halting.unpause (hh : e.Halting t r d) : (e.unpause t).Halting t true d := by
  rw [Engine.unpause, if_pos hh.contains]
  exact hh.setResume true

theorem Carrying.unpause (hc : e.Carrying t r d) : (e.unpause t).Carrying t true d := by
  rw [Engine.unpause, if_pos hc.contains]
  exact hc.setResume true

/-- A task that is being moved cannot be removed. -/
theorem remove_moving (hm : e.moving.contains t.gid = true) (f b : Bool) :
    e.orKeep (e.remove t f b) = e := by
  rw [remove, if_pos hm]
  rfl

theorem Halting.setAllResume (hh : e.Halting t resume d) (a : Bool) :
    (e.setAllResume a).Halting t a d := by
  have he : (e.setAllResume a).moving.find? t.gid = some { resume := a, started := false } := by
    change (e.moving.mapValues _).find? t.gid = _
    rw [find?_mapValues, hh.moving]
    rfl
  exact { hh with moving := he }

theorem Carrying.setAllResume (hc : e.Carrying t resume d) (a : Bool) :
    (e.setAllResume a).Carrying t a d := by
  have he : (e.setAllResume a).moving.find? t.gid = some { resume := a, started := true } := by
    change (e.moving.mapValues _).find? t.gid = _
    rw [find?_mapValues, hc.moving]
    rfl
  exact { hc with moving := he }

theorem Carrying.job (hc : e.Carrying t r d) : t ∈ e.moveJobs := by
  have hm : t ∈ e.jobsOf t.gid := by
    rw [hc.jobs]
    exact List.mem_singleton_self _
  exact (List.mem_filter.mp hm).1

/-- `moveFilesOf` starts the disk job. -/
theorem carrying_moveFilesOf (hm : e.moving.find? t.gid = some { resume, started := false })
    (hs : e.state t = .paused) (hw : t ∈ e.waiting) (hst : e.stopsOf t.gid = [])
    (hj : e.jobsOf t.gid = []) (ha : e.answered t = d) (hdo : e.shuttingDown = false) :
    (e.moveFilesOf t).Carrying t resume d := by
  rw [moveFilesOf, hm]
  refine ⟨find?_insert_self _ _ _, hs, hw, hst, ?_, ha, hdo⟩
  change (e.moveJobs ++ [t]).filter _ = [t]
  rw [List.filter_append]
  change e.jobsOf t.gid ++ _ = [t]
  rw [hj]
  simp

theorem schedule_eq (e : Engine) :
    ∃ scheduled posted, e.schedule = { e with scheduled, posted } := by
  rw [schedule]
  split_ifs
  · exact ⟨e.scheduled, e.posted, rfl⟩
  · exact ⟨_, _, rfl⟩

theorem trimResults_eq (r : List TaskRef) : ∀ (e : Engine) (k : List TaskRef),
    ∃ tasks stopped, e.trimResults k r = { e with tasks, stopped } := by
  induction r with
  | nil => intro e k; exact ⟨_, _, rfl⟩
  | cons first r ih =>
    intro e k
    rw [trimResults]
    split_ifs
    · exact ih e _
    · exact ih { e with tasks := e.tasks.erase first.gid } k
    · exact ⟨_, _, rfl⟩

/-- Retiring a task says nothing about relocations. -/
theorem retire_keeps (e : Engine) (t : TaskRef) (s : TaskState) :
    (e.retire t s).state = update e.state t s ∧ (e.retire t s).moving = e.moving ∧
    (e.retire t s).moved = e.moved := by
  rw [retire]
  obtain ⟨_, _, hs⟩ := schedule_eq _
  obtain ⟨_, _, ht⟩ := trimResults_eq _ _ []
  rw [hs, ht]
  exact ⟨rfl, rfl, rfl⟩

/-- A paused task's files move as soon as its stop has called back. -/
theorem carrying_stopDone (hmo : e.moving.find? t.gid = some { resume, started := false })
    (hst : e.stopsOf t.gid = []) (hj : e.jobsOf t.gid = []) (ha : e.answered t = d)
    (hdo : e.shuttingDown = false) : (e.stopDone t .paused).Carrying t resume d := by
  have hl : (e.leaveActive t .paused).moving.find? t.gid = some { resume, started := false } := hmo
  have hs : (e.leaveActive t .paused).state t = .paused := update_self _ _ _
  have hm : ((e.leaveActive t .paused).moveFilesOf t).Carrying t resume d := by
    apply carrying_moveFilesOf hl hs
    · exact List.mem_cons_self
    · exact hst
    · exact hj
    · exact ha
    · exact hdo
  have hc : (e.leaveActive t .paused).continueMove t = (e.leaveActive t .paused).moveFilesOf t := by
    rw [continueMove, hl]
    simp only [Bool.false_eq_true, if_false]
    exact if_pos ⟨hs, hdo⟩
  rw [stopDone, hc]
  simp only [hm.down, Bool.false_eq_true, false_and, if_false]
  exact hm.same (same_of_frame (frame_schedule _))

/-- A task that was removed instead is not moved. -/
theorem idle_stopDone (hm : e.moving.find? t.gid = some move) (hs : move.started = false)
    (ha : e.answered t = d) : (e.stopDone t .removed).Idle t (d + 1) := by
  obtain ⟨hst, hmov, hmo⟩ := retire_keeps { e.setStopping t false with
    active := e.active.filter (· ≠ t) } t .removed
  have hi : ((e.leaveActive t .removed).continueMove t).Idle t (d + 1) := by
    change ((retire _ t .removed).continueMove t).Idle t (d + 1)
    rw [continueMove, hmov, hst, hmo]
    simp only [setStopping, hm, hs, update_self, Bool.false_eq_true, if_false,
      reduceCtorEq, false_and]
    constructor
    · exact find?_erase_self _ _
    · simpa [answered] using ha
  apply Idle.same _ (same_of_frame (frame_schedule _))
  split_ifs
  · exact ⟨hi.moving, hi.answered⟩
  · exact hi

/-- The disk job has ended. -/
theorem Carrying.moveDone (hc : e.Carrying t r d) (er : String) :
    ({ e with moveJobs := e.moveJobs.erase t }.moveDone t er).Idle t (d + 1) ∧
      (({ e with moveJobs := e.moveJobs.erase t }.moveDone t
        er).state t = .waiting ↔ r = true) := by
  have he := hc.moving
  have hg : (e.moving.erase t.gid).contains t.gid = false := by
    rw [OrdMap.contains, OrdMap.find?_erase_self]
    rfl
  have hco : ∀ l : Engine, l.moved = e.moved → (l.moved ++ [(t, er)]).countP (·.1 = t) = d + 1 := by
    intro l hl
    rw [hl, List.countP_append]
    change e.answered t + _ = _
    rw [hc.answered]
    simp
  rw [Engine.moveDone]
  simp only [he]
  cases r with
  | true =>
    simp only [if_true, Engine.unpause, hg, Bool.false_eq_true, if_false, hc.state]
    have hsa : Same t
        (setState { e with
          moveJobs := e.moveJobs.erase t
          moving := e.moving.erase t.gid } t .waiting) _ := same_of_frame (frame_schedule _)
    constructor
    · constructor
      · exact hsa.moving.trans (find?_erase_self _ _)
      · obtain ⟨_, _, hs⟩ := schedule_eq _
        rw [hs]
        exact hco _ rfl
    · apply iff_of_true _ trivial
      exact hsa.state.trans (update_self _ _ _)
  | false =>
    simp only [Bool.false_eq_true, if_false, iff_false]
    constructor
    · exact ⟨find?_erase_self _ _, hco e rfl⟩
    · change e.state t ≠ .waiting
      rw [hc.state]
      decide

/-- What a task that is not being moved does starts no move and ends none. -/
def Quiet (task : TaskRef) (engine next : Engine) : Prop := engine.moving.find? task.gid = none →
    next.moving.find? task.gid = none ∧
      next.answered task = engine.answered task

theorem Idle.quiet (hi : e.Idle t d) (hq : Quiet t e n) : n.Idle t d := by
  obtain ⟨hm, ha⟩ := hq hi.moving
  exact ⟨hm, ha.trans hi.answered⟩

theorem Edit.still (he : Edit { wide := False } e n) : Quiet t e n := by
  intro hn
  cases he with
  | quiet hf =>
    have hs : Same t e n := same_of_frame hf
    exact ⟨hs.moving.trans hn, hs.answered⟩
  | _ =>
    simp only [setState, setStopping, emit, answered]
    grind [find?_insert, find?_erase]

theorem Edits.still (he : Edits { wide := False } e n) : Quiet t e n := by
  intro hn
  refine he.keeps (motive := fun n => n.moving.find? t.gid = none ∧
    n.answered t = e.answered t) ?_ ⟨hn, rfl⟩
  intro m l hed hb
  have hq := hed.still hb.1
  exact ⟨hq.1, hq.2.trans hb.2⟩

theorem quiet_setAllResume (e : Engine) (r : Bool) : Quiet t e (e.setAllResume r) := by
  intro hn
  refine ⟨?_, rfl⟩
  change (e.moving.mapValues _).find? t.gid = none
  rw [find?_mapValues, hn]
  rfl

theorem quiet_fill (a : Answers) (hdo : (e.fill a).shuttingDown = false) :
    Quiet t e (e.fill a) := by
  intro hn
  rcases fill_of_up hdo with hf | hf <;> rw [hf]
  · exact ⟨hn, rfl⟩
  · rw [answered, (startWaiting_moves _ _ _ _).1, (startWaiting_moves _ _ _ _).2.1]
    exact ⟨hn, rfl⟩

/-- How far the relocation of a task has got. -/
def Phase (engine : Engine) (task : TaskRef) (resume : Bool) (done : Nat) : Prop :=
  engine.Halting task resume done ∨ engine.Carrying task resume done ∨ engine.Idle task (done + 1)

theorem Phase.same (hp : e.Phase t r d) (hs : Same t e n) : n.Phase t r d := by
  rcases hp with hh | hc | hi
  · exact .inl (hh.same hs)
  · exact .inr (.inl (hc.same hs))
  · exact .inr (.inr (hi.same hs))

theorem Phase.pause (hp : e.Phase t r d) (b : Bool) : (e.pause t b).Phase t false d := by
  rcases hp with hh | hc | hi
  · exact .inl (hh.pause b)
  · exact .inr (.inl (hc.pause b))
  · exact .inr (.inr (hi.quiet (pause_edits trivial b).still))

theorem Phase.unpause (hp : e.Phase t r d) : (e.unpause t).Phase t true d := by
  rcases hp with hh | hc | hi
  · exact .inl hh.unpause
  · exact .inr (.inl hc.unpause)
  · exact .inr (.inr (hi.quiet (unpause_edits trivial).still))

theorem Phase.remove (hp : e.Phase t r d) (f b : Bool) :
    (e.orKeep (e.remove t f b)).Phase t r d := by
  rcases hp with hh | hc | hi
  · rw [remove_moving hh.contains]
    exact .inl hh
  · rw [remove_moving hc.contains]
    exact .inr (.inl hc)
  · exact .inr (.inr (hi.quiet (remove_edits trivial f b).still))

theorem Phase.setAllResume (hp : e.Phase t r d) (a : Bool) : (e.setAllResume a).Phase t a d := by
  rcases hp with hh | hc | hi
  · exact .inl (hh.setAllResume a)
  · exact .inr (.inl (hc.setAllResume a))
  · exact .inr (.inr (hi.quiet (quiet_setAllResume e a)))

theorem foldl_phase (f : Engine → TaskRef → Engine) (ta : List TaskRef)
    (hf : ∀ o ∈ ta, ∀ e : Engine, e.Phase t r d → (f e o).Phase t r d) :
    ∀ e : Engine, e.Phase t r d → (ta.foldl f e).Phase t r d := by
  induction ta with
  | nil => intro e hp; exact hp
  | cons first re ih =>
    intro e hp
    rw [List.forall_mem_cons] at hf
    exact ih hf.2 _ (hf.1 e hp)

theorem Phase.pauseWaiting (hp : e.Phase t r d) : (e.pauseWaiting o).Phase t r d := by
  rw [Engine.pauseWaiting]
  split_ifs with hs
  · by_cases ho : t = o
    · rw [← ho] at hs ⊢
      rcases hp with hh | hc | hi
      · rw [hh.state] at hs
        cases hs
      · rw [hc.state] at hs
        cases hs
      · exact .inr (.inr ⟨hi.moving, hi.answered⟩)
    · have hsa := same_setState e .paused ho
      exact hp.same { hsa with }
  · exact hp

theorem Phase.unpauseWaiting (hp : e.Phase t r d) : (e.unpauseWaiting o).Phase t r d := by
  rw [Engine.unpauseWaiting]
  split_ifs with hs
  · by_cases ho : t = o
    · rw [← ho] at hs ⊢
      rcases hp with hh | hc | hi
      · rw [hh.contains] at hs
        cases hs.2
      · rw [hc.contains] at hs
        cases hs.2
      · exact .inr (.inr ⟨hi.moving, hi.answered⟩)
    · exact hp.same (same_setState e .waiting ho)
  · exact hp

theorem Phase.pauseAll (hph : e.Phase t r d) (ha : e.Alone t) (a : Answers) :
    (e.pauseAll a).Phase t false d := by
  apply foldl_phase
  · intro o _ p hp
    exact hp.pauseWaiting
  apply foldl_phase _ _ _ _ (hph.setAllResume false)
  intro o ho p hp
  by_cases hg : o.gid = t.gid
  · rw [ha o (.inl ho) hg]
    exact hp.pause _
  · exact hp.same ((pause_edits hg _).same)

theorem Idle.pauseAll (hi : e.Idle t d) (a : Answers) : (e.pauseAll a).Idle t d :=
  (hi.quiet (quiet_setAllResume e false)).quiet
    (pauseAll_edits Scope.loops_free (fun _ => trivial) trivial a).still

theorem Idle.unpauseAll (hi : e.Idle t d) : e.unpauseAll.Idle t d :=
  (hi.quiet (quiet_setAllResume e true)).quiet (unpauseAll_edits fun _ => trivial).still

theorem Phase.unpauseAll (hp : e.Phase t resume d) : e.unpauseAll.Phase t true d := by
  apply Phase.same _ (same_of_frame (frame_schedule _))
  apply foldl_phase _ _ _ _ (hp.setAllResume true)
  intro o _ r hr
  exact hr.unpauseWaiting

theorem Phase.fill (hp : e.Phase t r d) (a : Answers) (hdo : (e.fill a).shuttingDown = false) :
    (e.fill a).Phase t r d := by
  rcases hp with hh | hc | hi
  · left
    apply hh.same (same_fill e a _ hdo)
    rw [hh.state]
    decide
  · right; left
    apply hc.same (same_fill e a _ hdo)
    rw [hc.state]
    decide
  · exact .inr (.inr (hi.quiet (quiet_fill a hdo)))

theorem stopsOf_erase (s : TaskRef × TaskState) (gid : Gid) :
    ({ e with stops := e.stops.erase s } : Engine).stopsOf gid = (e.stopsOf gid).erase s :=
  List.erase_filter.symm

/-- The stop calls back: the files move now, or the task was removed. -/
theorem Halting.stopDone (hh : e.Halting t r d) (hg : o.gid = t.gid) (hs : (o, s) ∈ e.stops) :
    ({ e with stops := e.stops.erase (o, s) }.stopDone o s).Carrying t r d ∨
      ({ e with stops := e.stops.erase (o, s) }.stopDone o s).Idle t (d + 1) := by
  have hm : (o, s) ∈ e.stopsOf t.gid := List.mem_filter.mpr ⟨hs, decide_eq_true hg⟩
  rcases hh.stops with hp | ⟨_, hr⟩
  · rw [hp] at hm
    cases List.mem_singleton.mp hm
    left
    apply carrying_stopDone
    · exact hh.moving
    · rw [stopsOf_erase, hp]
      simp
    · exact hh.jobs
    · exact hh.answered
    · exact hh.down
  · cases hr _ hm
    right
    apply idle_stopDone
    · exact hh.moving
    · rfl
    · exact hh.answered

theorem Phase.stopDone (hp : e.Phase t r d) (hs : (o, s) ∈ e.stops) :
    ({ e with stops := e.stops.erase (o, s) }.stopDone o s).Phase t r d := by
  by_cases hg : o.gid = t.gid
  · rcases hp with hh | hc | hi
    · exact .inr (hh.stopDone hg hs)
    · have hm : (o, s) ∈ e.stopsOf t.gid := List.mem_filter.mpr ⟨hs, decide_eq_true hg⟩
      rw [hc.stops] at hm
      cases hm
    · exact .inr (.inr (hi.quiet (erase_stopDone_edits trivial s).still))
  · exact hp.same (erase_stopDone_edits hg s).same

theorem Phase.moveDone (hp : e.Phase t r d) (hj : o ∈ e.moveJobs) (er : String) :
    ({ e with moveJobs := e.moveJobs.erase o }.moveDone o er).Phase t r d := by
  by_cases hg : o.gid = t.gid
  · have hm : o ∈ e.jobsOf t.gid := List.mem_filter.mpr ⟨hj, decide_eq_true hg⟩
    rcases hp with hh | hc | hi
    · rw [hh.jobs] at hm
      cases hm
    · rw [hc.jobs] at hm
      rw [List.mem_singleton.mp hm]
      exact .inr (.inr (hc.moveDone er).1)
    · exact .inr (.inr (hi.quiet (moveDone_edits trivial hj er).still))
  · exact hp.same (moveDone_edits hg hj er).same

end Phases

/-- Whether an input asks for the task to be paused or resumed. -/
def request (task : TaskRef) : Input → Option Bool
  | .pause gid _ => if engine.find gid = some task then some false else none
  | .unpause gid => if engine.find gid = some task then some true else none
  | .pauseAll _ => some false
  | .unpauseAll => some true
  | _ => none

/-- What the last request about the task asked for; `resume` if there was
none. -/
def wanted (task : TaskRef) : Engine → Bool → List Input → Bool
  | _, resume, [] => resume
  | engine, resume, input :: rest =>
    wanted task (engine.step input) ((engine.request task input).getD resume) rest

/-- What goes on during a relocation: commands about the queue, callbacks and
`fill`, and no shutdown. -/
def Meanwhile (input : Input) : Prop :=
  (match input with
    | .pause .. | .unpause .. | .remove .. | .pauseAll .. | .unpauseAll
    | .handle .fill _ | .stopDone .. | .moveDone .. => True
    | _ => False) ∧
  (engine.step input).shuttingDown = false

instance : ∀ engine : Engine, DecidablePred engine.Meanwhile := by
  intro engine input
  unfold Meanwhile
  induction input using Input.casesOn with
  | handle handler answers =>
    induction handler using Posted.casesOn <;> exact instDecidableAnd
  | _ => exact instDecidableAnd

/-- A relocation that goes on: its GID names no other task until it is over. -/
structure Relocating (engine : Engine) (task : TaskRef) (resume : Bool)
    (done : Nat) : Prop where
  keyed : ∀ gid other, engine.find gid = some other → other.gid = gid
  known : ∀ other, engine.find task.gid = some other → other = task
  phase : engine.Alone task ∧ engine.Phase task resume done ∨ engine.Idle task (done + 1)

section Relocating

variable {task t : TaskRef} {r : Bool} {d : Nat} {engine e n : Engine}

variable {a m : Bool} {gid : Gid} {o : TaskRef} {s : TaskState}

theorem Relocating.follows (hm : e.Relocating t r d) (hf : e.queue.Follows n.queue)
    (hp : n.Alone t ∧ n.Phase t a d ∨ n.Idle t (d + 1)) : n.Relocating t a d where
  keyed := fun gid o hfi =>
    hm.keyed gid o (hf.tasks gid o hfi)
  known := fun o hfi =>
    hm.known o (hf.tasks t.gid o hfi)
  phase := hp

/-- A task found under the GID of the relocated task is that task. -/
theorem Relocating.found (hm : e.Relocating t r d) (hf : e.find gid = some o) (hg : o.gid = t.gid) :
    o = t := by
  apply hm.known
  rw [← hg, hm.keyed gid o hf]
  exact hf

/-- A call about some task either is about the relocated one or leaves its
relocation alone. -/
theorem Relocating.call (hm : e.Relocating t r d) (hs : o.gid = t.gid → o = t)
    (he : ∀ touches : TaskRef → Prop, touches o → Edits { touches, wide := False } e n)
    (hown : o = t → e.Phase t r d → n.Phase t a d) (ho : o.gid ≠ t.gid → a = r) :
    n.Relocating t a d := by
  apply hm.follows (he _ rfl).follows
  rcases hm.phase with ⟨ha, hp⟩ | hi
  · left
    refine ⟨ha.within (he _ rfl).within hs, ?_⟩
    by_cases hg : o.gid = t.gid
    · exact hown (hs hg) hp
    · rw [ho hg]
      exact hp.same (he _ hg).same
  · exact .inr (hi.quiet (he _ trivial).still)

theorem Relocating.pause (hm : e.Relocating t r d) (gid : Gid) (a : Answers) :
    (e.step (.pause gid a)).Relocating t ((e.request t (.pause gid a)).getD r) d := by
  rw [step, withTask, request]
  cases hf : e.find gid with
  | none => simpa using hm
  | some o =>
    apply hm.call (hm.found hf) fun _ ho => pause_edits ho _
    · intro ho hp
      rw [if_pos (congrArg some ho), ho]
      exact hp.pause _
    · intro hg
      have hn : some o ≠ some t := by
        intro he
        exact hg (congrArg TaskRef.gid (Option.some.inj he))
      rw [if_neg hn]
      rfl

theorem Relocating.unpause (hm : e.Relocating t r d) (gid : Gid) :
    (e.step (.unpause gid)).Relocating t ((e.request t (.unpause gid)).getD r) d := by
  rw [step, withTask, request]
  cases hf : e.find gid with
  | none => simpa using hm
  | some o =>
    apply hm.call (hm.found hf) fun _ ho => unpause_edits ho
    · intro ho hp
      rw [if_pos (congrArg some ho), ho]
      exact hp.unpause
    · intro hg
      have hn : some o ≠ some t := by
        intro he
        exact hg (congrArg TaskRef.gid (Option.some.inj he))
      rw [if_neg hn]
      rfl

theorem Relocating.remove (hm : e.Relocating t r d) (gid : Gid) (f : Bool) (a : Answers) :
    (e.step (.remove gid f a)).Relocating t r d := by
  rw [step, withTask]
  cases hf : e.find gid with
  | none => exact hm
  | some o =>
    apply hm.call (hm.found hf) fun _ ho => remove_edits ho f _
    · intro ho hp
      rw [ho]
      exact hp.remove f _
    · exact fun _ => rfl

theorem Alone.pauseAll (hal : e.Alone t) (a : Answers) : (e.pauseAll a).Alone t := by
  have ha : (e.active.foldl (fun (e : Engine) o =>
      e.pause o (a.atOnce o))
      (e.setAllResume false)).Alone t := by
    apply foldl_alone
    · intro p o
      have he : Edits { touches := Eq o, wide := False } p _ := pause_edits rfl (a.atOnce o)
      exact he.within
    · intro o ho
      exact hal o (.inl ho)
    · exact hal
  apply foldl_alone
  · intro p o
    rw [pauseWaiting]
    split_ifs <;> exact fun l hl => .inl hl
  · intro o ho
    exact ha o (.inr ho)
  · exact ha

theorem Alone.schedule (ha : e.Alone t) : e.schedule.Alone t :=
  ha.edits (.single (.quiet (frame_schedule e)) : Edits { touches := Eq t } _ _)

theorem Alone.unpauseAll (ha : e.Alone t) : e.unpauseAll.Alone t := by
  apply Alone.schedule
  apply foldl_alone
  · intro p o
    rw [unpauseWaiting]
    split_ifs <;> exact fun l hl => .inl hl
  · intro o ho
    exact ha o (.inr ho)
  · exact ha

theorem Alone.fill (ha : e.Alone t) (a : Answers) (hdo : (e.fill a).shuttingDown = false) :
    (e.fill a).Alone t := by
  rcases fill_of_up hdo with hf | hf <;> rw [hf]
  · exact ha
  · exact ha.edits (startWaiting_edits trivial a [] e.waiting e)

theorem Relocating.pauseAll (hm : e.Relocating t r d) (a : Answers) :
    (e.pauseAll a).Relocating t false d := by
  apply hm.follows (step_edits (Scope.covers_free (.pauseAll a)) (by simp) (by simp)).follows
  rcases hm.phase with ⟨ha, hp⟩ | hi
  · exact .inl ⟨ha.pauseAll a, hp.pauseAll ha a⟩
  · exact .inr (hi.pauseAll a)

theorem Relocating.unpauseAll (hm : e.Relocating t r d) : e.unpauseAll.Relocating t true d := by
  apply hm.follows (step_edits (Scope.covers_free .unpauseAll) (by simp) (by simp)).follows
  rcases hm.phase with ⟨ha, hp⟩ | hi
  · exact .inl ⟨ha.unpauseAll, hp.unpauseAll⟩
  · exact .inr hi.unpauseAll

theorem Relocating.fill (hm : e.Relocating t r d) (a : Answers)
    (hdo : (e.fill a).shuttingDown = false) : (e.fill a).Relocating t r d := by
  apply hm.follows (fill_edits (Scope.covers_free .unpauseAll) a).follows
  rcases hm.phase with ⟨ha, hp⟩ | hi
  · exact .inl ⟨ha.fill a hdo, hp.fill a hdo⟩
  · exact .inr (hi.quiet (quiet_fill a hdo))

/-- While the task is being moved only its own callbacks are outstanding under
its GID. -/
theorem Phase.stop_own (hph : e.Phase t r d) {s : TaskRef × TaskState} (hs : s ∈ e.stops)
    (hg : s.1.gid = t.gid) : s.1 = t ∨ e.Idle t (d + 1) := by
  have hm : s ∈ e.stopsOf t.gid := List.mem_filter.mpr ⟨hs, decide_eq_true hg⟩
  rcases hph with hh | hc | hi
  · left
    rcases hh.stops with hp | ⟨_, hr⟩
    · rw [hp] at hm
      rw [List.mem_singleton.mp hm]
    · rw [hr s hm]
  · rw [hc.stops] at hm
    cases hm
  · exact .inr hi

theorem Phase.job_own (hp : e.Phase t r d) {job : TaskRef} (hj : job ∈ e.moveJobs)
    (hg : job.gid = t.gid) : job = t ∨ e.Idle t (d + 1) := by
  have hm : job ∈ e.jobsOf t.gid := List.mem_filter.mpr ⟨hj, decide_eq_true hg⟩
  rcases hp with hh | hc | hi
  · rw [hh.jobs] at hm
    cases hm
  · rw [hc.jobs] at hm
    exact .inl (List.mem_singleton.mp hm)
  · exact .inr hi

theorem Relocating.stopDone (hm : e.Relocating t r d) (hs : (o, s) ∈ e.stops) :
    ({ e with stops := e.stops.erase (o, s) }.stopDone o s).Relocating t r d := by
  have he : Edits { touches := Eq o, wide := False } e _ := erase_stopDone_edits rfl s
  have hq : Quiet t e ({ e with stops := e.stops.erase (o, s) }.stopDone o s) :=
    (erase_stopDone_edits trivial s).still
  apply hm.follows he.follows
  rcases hm.phase with ⟨ha, hp⟩ | hi
  · by_cases hg : o.gid = t.gid
    · rcases hp.stop_own hs hg with ho | hi
      · exact .inl ⟨ha.within he.within fun _ => ho, hp.stopDone hs⟩
      · exact .inr (hi.quiet hq)
    · exact .inl ⟨ha.within he.within fun ho => absurd ho hg, hp.stopDone hs⟩
  · exact .inr (hi.quiet hq)

theorem Relocating.moveDone (hm : e.Relocating t r d) (hj : o ∈ e.moveJobs) (er : String) :
    ({ e with moveJobs := e.moveJobs.erase o }.moveDone o er).Relocating t r d := by
  have he : Edits { touches := Eq o, wide := False } e _ := moveDone_edits rfl hj er
  have hq : Quiet t e _ := (moveDone_edits trivial hj er).still
  apply hm.follows he.follows
  rcases hm.phase with ⟨ha, hp⟩ | hi
  · by_cases hg : o.gid = t.gid
    · rcases hp.job_own hj hg with ho | hi
      · exact .inl ⟨ha.within he.within fun _ => ho, hp.moveDone hj er⟩
      · exact .inr (hi.quiet hq)
    · exact .inl ⟨ha.within he.within fun ho => absurd ho hg, hp.moveDone hj er⟩
  · exact .inr (hi.quiet hq)

theorem step_relocating (i : Input) (hm : e.Relocating t r d) (hme : e.Meanwhile i) :
    (e.step i).Relocating t ((e.request t i).getD r) d := by
  obtain ⟨hk, hdo⟩ := hme
  cases i with
  | pause gid a => exact hm.pause gid a
  | unpause gid => exact hm.unpause gid
  | remove gid f a => exact hm.remove gid f a
  | pauseAll a => exact hm.pauseAll a
  | unpauseAll => exact hm.unpauseAll
  | handle handler a =>
    cases handler with
    | fill =>
      rw [step] at hdo ⊢
      split_ifs at hdo ⊢ with hpo
      · have hs : Same t e { e with posted := e.posted.erase .fill, scheduled := false } :=
          ⟨rfl, rfl, rfl, rfl, rfl, id, rfl, rfl⟩
        have ht : Relocating { e with posted := e.posted.erase .fill, scheduled := false } t
            r d := by
          refine ⟨hm.keyed, hm.known, ?_⟩
          rcases hm.phase with ⟨ha, hp⟩ | hi
          · exact .inl ⟨ha, hp.same hs⟩
          · exact .inr (hi.same hs)
        exact ht.fill a hdo
      · exact hm
    | _ => cases hk
  | stopDone o s =>
    rw [step]
    split_ifs with hst
    · exact hm.stopDone hst
    · exact hm
  | moveDone o er =>
    rw [step]
    split_ifs with hj
    · exact hm.moveDone hj er
    · exact hm
  | _ => cases hk

theorem run_relocating (i : List Input) : ∀ (e : Engine) (r : Bool),
      e.Relocating t r d → Meets step Meanwhile e i →
      (run step e i).Relocating t (wanted t e r i) d := by
  induction i with
  | nil => intro e r hm _; exact hm
  | cons input re ih =>
    intro e r hm hme
    exact ih _ _ (step_relocating input hm hme.1) hme.2

/-- No pause of the task is in progress, and no stop of it is left over: a
callback that has not run is that of a removal, while the task still runs. -/
structure Free (engine : Engine) (task : TaskRef) : Prop where
  stops : ∀ stop ∈ engine.stops, stop.1.gid = task.gid →
    stop = (task, .removed) ∧ engine.state task = .active ∧ engine.stopping task = true
  alone : engine.Alone task

/-- Whether the task runs or waits, and no pause of it is in progress. -/
def running (engine : Engine) (task : TaskRef) : Bool :=
  (engine.state task = .active ∨ engine.state task = .waiting) ∧ (task, .paused) ∉ engine.stops

theorem Free.stopsOf (hf : e.Free t) (hs : e.state t ≠ .active ∨ e.stopping t = false) :
    e.stopsOf t.gid = [] := by
  apply List.filter_eq_nil_iff.mpr
  intro s hsto hg
  obtain ⟨_, ha, hst⟩ := hf.stops s hsto (of_decide_eq_true hg)
  rcases hs with hs | hs
  · exact hs ha
  · rw [hst] at hs
    cases hs

theorem Free.removing (hf : e.Free t) (hs : ∃ s, (t, s) ∈ e.stops) :
    e.stopsOf t.gid ≠ [] ∧ ∀ st ∈ e.stopsOf t.gid, st = (t, .removed) := by
  constructor
  · obtain ⟨s, hs⟩ := hs
    exact List.ne_nil_of_mem (List.mem_filter.mpr ⟨hs, decide_eq_true rfl⟩)
  · intro st hs
    obtain ⟨hm, hg⟩ := List.mem_filter.mp hs
    exact (hf.stops st hm (of_decide_eq_true hg)).1

theorem Free.running_of (hf : e.Free t) (hs : e.state t = .active ∨ e.state t = .waiting) :
    e.running t = true := by
  apply decide_eq_true
  refine ⟨hs, fun hst => ?_⟩
  cases (hf.stops _ hst rfl).1

theorem jobsOf_of_not_moving (ho : e.Outstanding) (hmo : ¬ e.moving.contains t.gid = true) :
    e.jobsOf t.gid = [] := by
  apply List.filter_eq_nil_iff.mpr
  intro job hj hg
  obtain ⟨m, hm, _⟩ := ho.started job hj
  rw [of_decide_eq_true hg] at hm
  apply hmo
  rw [contains, hm]
  rfl

theorem relocate_phase {atOnce : Bool} (hf : e.Free t) (hl : (e.state t).IsQueued → t ∈ e.waiting)
    (hou : e.Outstanding) (hdo : e.shuttingDown = false) (ho : e.relocate t m atOnce = .ok n) :
    n.Alone t ∧ n.Phase t (e.running t) (e.answered t) := by
  have hmov : ∀ paused : Engine, paused.Alone t → (paused.moveFilesOf t).Alone t := by
    intro paused ha
    rw [moveFilesOf]
    split <;> exact ha
  rw [relocate] at ho
  by_cases hm : e.moving.contains t.gid = true
  · rw [if_pos hm] at ho
    cases ho
  have hj := jobsOf_of_not_moving hou hm
  rw [if_neg hm] at ho
  by_cases hmo : m = false
  · rw [if_pos hmo] at ho
    cases ho
  rw [if_neg hmo] at ho
  cases hs : e.state t with
  | waiting =>
    simp only [hs] at ho
    cases ho
    rw [hf.running_of (.inr hs)]
    refine ⟨hmov _ hf.alone, .inr (.inl ?_)⟩
    apply carrying_moveFilesOf
    · exact find?_insert_self _ _ _
    · exact update_self _ _ _
    · exact hl (.inl hs)
    · exact hf.stopsOf (.inl (by simp [hs]))
    · exact hj
    · rfl
    · exact hdo
  | paused =>
    have hr : e.running t = false := by
      simp [running, hs]
    simp only [hs] at ho
    cases ho
    rw [hr]
    refine ⟨hmov _ hf.alone, .inr (.inl ?_)⟩
    apply carrying_moveFilesOf
    · exact find?_insert_self _ _ _
    · exact hs
    · exact hl (.inr hs)
    · exact hf.stopsOf (.inl (by simp [hs]))
    · exact hj
    · rfl
    · exact hdo
  | active =>
    simp only [hs] at ho
    rw [hf.running_of (.inl hs)]
    by_cases hst : e.stopping t = true
    · rw [if_pos hst] at ho
      cases ho
      refine ⟨hf.alone, .inl ?_⟩
      constructor
      · exact find?_insert_self _ _ _
      · exact hs
      · exact hst
      · right
        exact hf.removing (hou.stops t hst)
      · exact hj
      · rfl
      · exact hdo
    rw [if_neg hst] at ho
    cases ho
    have hsto := hf.stopsOf (.inr (by simpa using hst))
    refine ⟨?_, ?_⟩
    · have ha : Alone { e with moving := e.moving.insert t.gid ⟨true, false⟩ } t := hf.alone
      exact ha.edits (stopTask_edits rfl .paused atOnce : Edits { touches := Eq t, wide := False } _ _)
    cases atOnce with
    | true =>
      right; left
      apply carrying_stopDone
      · exact find?_insert_self _ _ _
      · exact hsto
      · exact hj
      · rfl
      · exact hdo
    | false =>
      left
      constructor
      · exact find?_insert_self _ _ _
      · exact hs
      · exact update_self _ _ _
      · left
        change (e.stops ++ [(t, TaskState.paused)]).filter _ = _
        rw [List.filter_append]
        change e.stopsOf t.gid ++ _ = _
        rw [hsto]
        simp
      · exact hj
      · rfl
      · exact hdo
  | complete | error | removed =>
    simp only [hs] at ho
    cases ho

theorem step_relocate_relocating {a : Answers} (hl : e.queue.Listed) (hou : e.Outstanding)
    (hfi : e.find gid = some t) (hfr : e.Free t) (hdo : e.shuttingDown = false)
    (hok : e.relocate t m (a.atOnce t) = .ok n) :
    (e.step (.relocate gid m a)).Relocating t (e.running t) (e.answered t) := by
  have he : Edits {} e (e.orKeep (e.relocate t m _)) :=
    relocate_edits trivial trivial m (a.atOnce t)
  have hf := he.follows
  have hg : t.gid = gid := hl.keyed gid t hfi
  have hp := relocate_phase hfr (hl.queued gid t hfi) hou hdo hok
  rw [step, withTask, hfi]
  dsimp only
  rw [hok] at hf ⊢
  constructor
  · intro o g ho
    exact hl.keyed o g (hf.tasks o g ho)
  · intro o ho
    have hb : e.find t.gid = some o := hf.tasks t.gid o ho
    rw [hg, hfi] at hb
    exact (Option.some.inj hb).symm
  · exact .inl hp

/-- Something of the task is outstanding. -/
def Pending (engine : Engine) (task : TaskRef) : Prop :=
  (∃ state, (task, state) ∈ engine.stops) ∨ task ∈ engine.moveJobs

theorem Phase.answered_or_pending (hph : e.Phase t r d) :
    e.answered t = d + 1 ∨ e.answered t = d ∧ e.Pending t := by
  rcases hph with hh | hc | hi
  · right
    refine ⟨hh.answered, .inl ?_⟩
    have hm : ∃ s, (t, s) ∈ e.stopsOf t.gid := by
      rcases hh.stops with hp | ⟨hso, hr⟩
      · exact ⟨.paused, by rw [hp]; exact List.mem_singleton_self _⟩
      · obtain ⟨st, hs⟩ := List.exists_mem_of_ne_nil _ hso
        rw [hr st hs] at hs
        exact ⟨.removed, hs⟩
    obtain ⟨s, hst⟩ := hm
    exact ⟨s, (List.mem_filter.mp hst).1⟩
  · exact .inr ⟨hc.answered, .inr hc.job⟩
  · exact .inl hi.answered

theorem Relocating.phase_or_idle (hm : e.Relocating t r d) : e.Phase t r d := by
  rcases hm.phase with ⟨_, hp⟩ | hi
  · exact hp
  · exact .inr (.inr hi)

theorem Phase.carrying_of_started (hp : e.Phase t r d) {m : Move}
    (hm : e.moving.find? t.gid = some m) (hs : m.started = true) : e.Carrying t r d := by
  rcases hp with hh | hc | hi
  · rw [hh.moving] at hm
    cases hm
    cases hs
  · exact hc
  · rw [hi.moving] at hm
    cases hm

/-- A stop that calls back ends the relocation or starts the disk job. -/
theorem Phase.stopDone_next (hp : e.Phase t r d) (hs : (t, s) ∈ e.stops) (hw : e.answered t = d) :
    (e.step (.stopDone t s)).answered t = d + 1 ∨ t ∈ (e.step (.stopDone t s)).moveJobs := by
  rw [step, if_pos hs]
  rcases hp with hh | hc | hi
  · rcases hh.stopDone rfl hs with hc | hi
    · exact .inr hc.job
    · exact .inl hi.answered
  · have hm : (t, s) ∈ e.stopsOf t.gid := List.mem_filter.mpr ⟨hs, decide_eq_true rfl⟩
    rw [hc.stops] at hm
    cases hm
  · have hdo := hi.answered
    omega

/-- The disk job that ends also ends the relocation. -/
theorem Phase.moveDone_next (hp : e.Phase t r d) (ho : e.Outstanding)
    (hj : t ∈ e.moveJobs) (er : String) : (e.step (.moveDone t er)).answered t = d + 1 ∧
      ((e.step (.moveDone t er)).state t = .waiting ↔ r = true) := by
  obtain ⟨m, hm, hs⟩ := ho.started t hj
  have hc := hp.carrying_of_started hm hs
  rw [step, if_pos hj]
  exact ⟨(hc.moveDone er).1.answered, (hc.moveDone er).2⟩

end Relocating

section Main

variable {settings : Settings} {before after : List Input} {gid : Gid}
  {movable : Bool} {answers : Answers} {task : TaskRef} {next : Engine}

/-- A relocation that starts while no pause of the task is in progress answers
once: until then a stop of the task or its disk job is outstanding, and each
that calls back brings it on.  While the files move the task stays paused in
the queue; afterwards it waits to be resumed exactly if the last request about
it was an `unpause`, or without one if it ran or waited before. -/
theorem relocate_answers_once (hfind : (run step { settings } before).find gid = some task)
    (hfree : (run step { settings } before).Free task)
    (hdown : (run step { settings } before).shuttingDown = false)
    (hok : (run step { settings } before).relocate task movable (answers.atOnce task) = .ok next)
    (hmeets : Meets step Meanwhile
      ((run step { settings } before).step (.relocate gid movable answers))
      after) :
    let engine := run step { settings } before
    let start := engine.step (.relocate gid movable answers)
    let last := run step start after
    (last.answered task = engine.answered task + 1 ∨
      last.answered task = engine.answered task ∧ last.Pending task) ∧
    (∀ state, last.answered task = engine.answered task → (task, state) ∈ last.stops →
      (last.step (.stopDone task state)).answered task = engine.answered task + 1 ∨
        task ∈ (last.step (.stopDone task state)).moveJobs) ∧
    (∀ move, last.moving.find? task.gid = some move → move.started = true →
      last.state task = .paused ∧ task ∈ last.waiting) ∧
    ∀ error, task ∈ last.moveJobs → (last.step (.moveDone task error)).answered task =
          engine.answered task + 1 ∧ ((last.step (.moveDone task error)).state task = .waiting ↔
          wanted task start (engine.running task) after = true) := by
  have hout := run_outstanding settings (before ++ .relocate gid movable answers :: after)
  rw [run_append] at hout
  have hstart := step_relocate_relocating (run_listed settings before)
    (run_outstanding settings before) hfind hfree hdown hok
  have hphase := (run_relocating after _ _ hstart hmeets).phase_or_idle
  refine ⟨hphase.answered_or_pending, ?_, ?_, ?_⟩
  · intro state hwaits hstop
    exact hphase.stopDone_next hstop hwaits
  · intro move hmoving hstarted
    have hcarrying := hphase.carrying_of_started hmoving hstarted
    exact ⟨hcarrying.state, hcarrying.waiting⟩
  · intro error hjob
    exact hphase.moveDone_next hout hjob error

/-- A running download is relocated; a pause and an `unpause` come while it
stops. -/
theorem relocate_answers_once_running :
    let task : TaskRef := ⟨1, 0⟩
    let settings : Settings := ⟨5, 1000, false, true⟩
    let before : List Input := [.add task false none, .handle .fill {}]
    let after : List Input := [.pause 1 {}, .unpause 1, .stopDone task .paused]
    let start := (run step { settings } before).step (.relocate 1 true {})
    let last := run step start after
    task ∈ last.moveJobs ∧ (last.step (.moveDone task "")).answered task = 1 ∧
      ((last.step (.moveDone task "")).state task = .waiting ↔
        wanted task start true after = true) := by
  intro task settings before after start last
  have hactive : (run step { settings } before).active = [task] := by decide
  have hwaiting : (run step { settings } before).waiting = [] := by decide
  have hfree : (run step { settings } before).Free task := by
    constructor
    · decide
    · intro other hother _
      rw [hactive, hwaiting] at hother
      simpa using hother
  have hjob : task ∈ last.moveJobs := by decide
  have hrunning : (run step { settings } before).running task = true := by
    decide
  have hanswered : (run step { settings } before).answered task = 0 := by
    decide
  have hmain := (@relocate_answers_once settings before after 1 true {} task
    start (by decide) hfree (by decide) rfl (by decide)).2.2.2 "" hjob
  have hlast : last = run step start after := rfl
  have hstart : start = (run step { settings } before).step (.relocate 1 true {}) := rfl
  rw [← hstart, ← hlast] at hmain
  exact ⟨hjob, hmain⟩

/-- Relocating a task whose pause is in progress: without any request since,
the task is resumed after the move.  A removal that follows the pause by force
has its own callback, and removes the task while its files move. -/
theorem relocate_forgets_stops :
    let task : TaskRef := ⟨1, 0⟩
    let settings : Settings := ⟨5, 1000, false, true⟩
    let before : List Input := [.add task false none, .handle .fill {}, .pause 1 {}]
    let engine := run step { settings } before
    let start := engine.step (.relocate 1 true {})
    let paused := run step start [.stopDone task .paused]
    let removing := run step { settings } (before ++ [.remove 1 true {}])
    let moving := run step removing [.relocate 1 true {}, .stopDone task .paused]
    let removed := moving.step (.stopDone task .removed)
    engine.running task = false ∧ wanted task start (engine.running task) [.stopDone task .paused] =
        false ∧ task ∈ paused.moveJobs ∧ (paused.step (.moveDone task "")).state task = .waiting ∧
      task ∈ moving.moveJobs ∧ removed.answered task = 0 ∧ removed.state task = .removed := by
  decide

end Main

end Aria2Next.Engine
