/-
What the functions of the engine do to it, one elementary change after
another.  Apart from a new task and a hand-over every step is a sequence of
such edits, so what each edit keeps holds after the whole step.
-/
import Aria2Next.EngineQueue

namespace Aria2Next.Engine

open Queue

/-- The engine without its pending messages, its settings and its counters. -/
def frame (engine : Engine) : Queue × (TaskRef → Bool) × OrdMap Gid Move ×
    List (TaskRef × TaskState) × List TaskRef × List (TaskRef × String) × Bool ×
    List (TaskEvent × TaskRef) :=
  (engine.queue, engine.stopping, engine.moving, engine.stops, engine.moveJobs, engine.moved,
    engine.shuttingDown, engine.emitted)

/-- What is known of some edits: the tasks they may be about, whether those
that are about the engine as a whole occur, and what holds of a task that goes
back to wait, is retired or is removed while it waits.  `loop` is kept while a
list of active tasks is gone through. -/
structure Scope where
  touches : TaskRef → Prop := fun _ => True
  wide : Prop := True
  retries : Prop := True
  leaves : Queue → TaskRef → Prop := fun _ _ => True
  retires : Queue → TaskRef → Prop := fun _ _ => True
  removes : Queue → TaskRef → Prop := fun _ _ => True
  loop : Queue → List TaskRef → Prop := fun _ _ => True

/-- The task may be stopped. -/
def Scope.Stops (scope : Scope) (queue : Queue) (task : TaskRef) : Prop :=
  scope.leaves queue task ∧ scope.retires queue task

/-- The task may be stopped if it is running. -/
def Scope.Fits (scope : Scope) (queue : Queue) (task : TaskRef) : Prop :=
  queue.state task = .active → scope.Stops queue task

/-- An elementary change. -/
inductive Edit (scope : Scope) (engine : Engine) : Engine → Prop
  | quiet {next : Engine} (hframe : next.frame = engine.frame) : Edit scope engine next
  | tell (task : TaskRef) {event : TaskEvent} (hevent : event ≠ .stop) :
      Edit scope engine (engine.emit event task)
  | retag {task : TaskRef} (htask : scope.touches task) (hfrom : (engine.state task).IsQueued)
      {state : TaskState} (hto : state.IsQueued) :
      Edit scope engine (engine.setState task state)
  | back {task : TaskRef} (htask : scope.touches task) (hleaves : scope.leaves engine.queue task)
      {state : TaskState} (hto : state.IsQueued) : Edit scope engine { engine.setState task state with
        active := engine.active.filter (· ≠ task), waiting := task :: engine.waiting }
  | retire {task : TaskRef} (htask : scope.touches task) {state : TaskState}
      (hstate : state.IsFinal) {waiting : List TaskRef}
      (hwaiting : waiting = engine.waiting ∧ scope.retires engine.queue task ∨
        waiting = engine.waiting.filter (· ≠ task) ∧ scope.removes engine.queue task) :
      Edit scope engine { (engine.setState task state).emit (retireEvent state) task with
        active := engine.active.filter (· ≠ task), waiting, stopped := engine.stopped ++ [task] }
  | forget {task : TaskRef} {stopped : List TaskRef} (hperm : engine.stopped.Perm (task :: stopped)) :
      Edit scope engine { engine with tasks := engine.tasks.erase task.gid, stopped }
  | ask {task : TaskRef} (htask : scope.touches task) (next : TaskState) :
      Edit scope engine { engine.setStopping task true with
        stops := engine.stops ++ [(task, next)] }
  | answer {task : TaskRef} (htask : scope.touches task) {stops : List (TaskRef × TaskState)}
      (hstops : stops = engine.stops ∨ ∃ next, stops = engine.stops.erase (task, next)) :
      Edit scope engine { engine.setStopping task false with stops }
  | resume {task : TaskRef} (htask : scope.touches task) {move : Move}
      (hfind : engine.moving.find? task.gid = some move) (resume : Bool) :
      Edit scope engine { engine with
        moving := engine.moving.insert task.gid { move with resume } }
  | carry {task : TaskRef} (htask : scope.touches task) {move : Move}
      (hfind : engine.moving.find? task.gid = some move) (hstarted : move.started = false) :
      Edit scope engine { engine with
        moving := engine.moving.insert task.gid { move with started := true }
        moveJobs := engine.moveJobs ++ [task] }
  | giveUp {task : TaskRef} (htask : scope.touches task) {move : Move}
      (hfind : engine.moving.find? task.gid = some move) (hstarted : move.started = false)
      (text : String) : Edit scope engine { engine with
        moving := engine.moving.erase task.gid, moved := engine.moved ++ [(task, text)] }
  | land {task : TaskRef} (htask : scope.touches task) {move : Move}
      (hjob : task ∈ engine.moveJobs) (hfind : engine.moving.find? task.gid = some move)
      (error : String) : Edit scope engine { engine with
        moveJobs := engine.moveJobs.erase task
        moving := engine.moving.erase task.gid, moved := engine.moved ++ [(task, error)] }
  | drop {task : TaskRef} (htask : scope.touches task)
      (hfind : engine.moving.find? task.gid = none) :
      Edit scope engine { engine with moveJobs := engine.moveJobs.erase task }
  | start (hwide : scope.wide) {task : TaskRef} (hstate : engine.state task = .waiting)
      {waiting : List TaskRef} (hperm : engine.waiting.Perm (task :: waiting)) :
      Edit scope engine { engine.setState task .active with
        active := engine.active ++ [task], waiting }
  | reorder (hwide : scope.wide) {waiting : List TaskRef} (hperm : waiting.Perm engine.waiting) :
      Edit scope engine { engine with waiting }
  | requeue (hwide : scope.wide) (hretries : scope.retries) {task : TaskRef}
      (htask : scope.touches task) (hmem : task ∈ engine.stopped) :
      Edit scope engine { engine.setState task .waiting with
        stopped := engine.stopped.erase task, waiting := engine.waiting ++ [task] }
  | relocate (hwide : scope.wide) {task : TaskRef}
      (hfresh : engine.moving.contains task.gid = false) (resume : Bool) :
      Edit scope engine { engine with
        moving := engine.moving.insert task.gid { resume, started := false } }
  | resumeAll (hwide : scope.wide) (resume : Bool) :
      Edit scope engine (engine.setAllResume resume)
  | down (hwide : scope.wide) (force : Bool) : Edit scope engine { engine with
      shuttingDown := true, forceShutdown := engine.forceShutdown || force }

/-- One edit after another. -/
abbrev Edits (scope : Scope) : Engine → Engine → Prop := Relation.ReflTransGen (Edit scope)

section

variable {s : Scope} {e n last : Engine} {t : TaskRef}

theorem Edit.edits (he : Edit s e n) : Edits s e n := .single he

theorem Edits.keeps (he : Edits s e n) {motive : Engine → Prop}
    (hs : ∀ e n, Edit s e n → motive e → motive n) (hf : motive e) : motive n := by
  induction he with
  | refl => exact hf
  | tail _ hed ih => exact hs _ _ hed ih

/-- Edits that stop and go on with messages in between. -/
theorem Edits.framed (he : Edits s e n) (hf : last.frame = n.frame) : Edits s e last :=
  he.tail (.quiet hf)

theorem frame_schedule (e : Engine) : e.schedule.frame = e.frame := by
  rw [schedule]
  split_ifs <;> rfl

/-- A loop over tasks; `inv` tells what is left of them. -/
theorem foldl_edits {f : Engine → TaskRef → Engine} {motive : Engine → List TaskRef → Prop}
    (hf : ∀ e t r, motive e (t :: r) → Edits s e (f e t) ∧ motive (f e t) r) (ta : List TaskRef)
    (e : Engine) (hi : motive e ta) : Edits s e (ta.foldl f e) := by
  induction ta generalizing e with
  | nil => exact .refl
  | cons t r ih =>
    obtain ⟨he, hr⟩ := hf e t r hi
    exact he.trans (ih _ hr)

theorem find?_erase_some {ta : OrdMap Gid TaskRef} {g gid : Gid}
    (hf : (ta.erase g).find? gid = some t) : ta.find? gid = some t := by
  rw [OrdMap.find?_erase] at hf
  split at hf
  · cases hf
  · exact hf

/-- The results that are kept are `kept ++ rest`. -/
theorem trimResults_edits (k r : List TaskRef) (e : Engine) :
    Edits s { e with stopped := k ++ r } (e.trimResults k r) := by
  induction r generalizing e k with
  | nil =>
    rw [List.append_nil]
    exact .refl
  | cons first r ih =>
    rw [trimResults]
    split_ifs
    · have hn := ih (k ++ [first]) e
      rwa [List.append_assoc, List.singleton_append] at hn
    · exact .head (.forget List.perm_middle) (ih k { e with tasks := e.tasks.erase first.gid })
    · exact .refl

theorem purge_edits (stopped : List TaskRef) (e : Engine) : Edits s { e with stopped } { e with
      tasks := stopped.foldl (fun tasks t => tasks.erase t.gid) e.tasks
      stopped := [] } := by
  induction stopped generalizing e with
  | nil => exact .refl
  | cons first r ih =>
    exact .head (.forget (.refl _)) (ih { e with tasks := e.tasks.erase first.gid })

theorem retire_edits (ht : s.touches t) {st : TaskState} (hs : st.IsFinal)
    {waiting : List TaskRef} (hw : waiting = e.waiting ∧ s.retires e.queue t ∨
      waiting = e.waiting.filter (· ≠ t) ∧ s.removes e.queue t) :
    Edits s e ({ e with waiting }.retire t st) := by
  refine .framed ?_ (frame_schedule _)
  refine .trans ?_ (trimResults_edits [] _ _)
  exact (Edit.retire ht hs hw).edits.framed rfl

theorem retire_filter (e : Engine) (t : TaskRef) (s : TaskState) :
    { e with active := e.active.filter (· ≠ t) }.retire t s = e.retire t s := by
  simp only [retire, setState, emit, List.filter_filter, Bool.and_self]

section

variable (ht : s.touches t)

include ht

theorem leaveActive_edits (st : TaskState) (hs : s.Stops e.queue t) :
    Edits s (e.setStopping t false) (e.leaveActive t st) := by
  have hb : ∀ st : TaskState, st.IsQueued → Edits s (e.setStopping t false)
      { (e.setStopping t false).setState t st with
        active := e.active.filter (· ≠ t), waiting := t :: e.waiting } :=
    fun st hto => (Edit.back ht (by exact hs.1) hto).edits
  have hr : Edits s (e.setStopping t false) ((e.setStopping t false).retire t .removed) :=
    retire_edits ht (.inr (.inr rfl)) (.inl ⟨rfl, hs.2⟩)
  rw [← retire_filter] at hr
  cases st with
  | paused => exact (hb .paused (.inr rfl)).tail (.tell t (by decide))
  | waiting => exact hb .waiting (.inl rfl)
  | _ => exact hr

theorem moveFilesOf_edits (hfr : ∀ m ∈ e.moving.find? t.gid, m.started = false) :
    Edits s e (e.moveFilesOf t) := by
  rw [moveFilesOf]
  cases hf : e.moving.find? t.gid with
  | none => exact .refl
  | some m => exact .single (.carry ht hf (hfr m hf))

theorem continueMove_edits : Edits s e (e.continueMove t) := by
  rw [continueMove]
  cases hf : e.moving.find? t.gid with
  | none => exact .refl
  | some m =>
    dsimp only
    split_ifs with hs
    · exact .refl
    · apply moveFilesOf_edits ht
      simp [hf, hs]
    · exact .single (.giveUp ht hf (by simpa using hs) _)

theorem stopDone_edits (st : TaskState) (hs : s.Stops e.queue t) :
    Edits s (e.setStopping t false) (e.stopDone t st) := by
  have hm : Edits s (e.setStopping t false) ((e.leaveActive t st).continueMove t) :=
    (leaveActive_edits ht st hs).trans (continueMove_edits ht)
  refine .framed ?_ (frame_schedule _)
  split_ifs
  · exact .framed hm rfl
  · exact hm

theorem erase_stopDone_edits (st : TaskState)
    (hs : s.Stops e.queue t := by exact ⟨trivial, trivial⟩) :
    Edits s e ({ e with stops := e.stops.erase (t, st) }.stopDone t st) := by
  refine .head ?_ (stopDone_edits ht st hs)
  exact .answer ht (.inr ⟨st, rfl⟩)

theorem stopTask_edits (st : TaskState) (b : Bool)
    (hs : s.Stops e.queue t := by exact ⟨trivial, trivial⟩) : Edits s e (e.stopTask t st b) := by
  cases b with
  | true =>
    have hdo : Edits s ((e.setStopping t true).setStopping t false)
      ((e.setStopping t true).stopDone t st) := stopDone_edits ht st hs
    simp only [setStopping, Function.update_idem] at hdo
    exact .head (.answer ht (.inl rfl)) hdo
  | false => exact .single (.ask ht st)

theorem setResume_edits (r : Bool) : Edits s e (e.setResume t r) := by
  rw [setResume]
  cases hf : e.moving.find? t.gid with
  | none => exact .refl
  | some m => exact .single (.resume ht hf r)

theorem pause_edits (b : Bool)
    (hf : s.Fits e.queue t := by exact fun _ => ⟨trivial, trivial⟩) : Edits s e (e.pause t b) := by
  refine (setResume_edits ht false).trans ?_
  rw [← queue_setResume e t false] at hf
  rw [pause]
  generalize e.setResume t false = paused at hf ⊢
  cases hs : paused.state t with
  | waiting =>
    exact (Edit.retag ht (.inl hs) (.inr rfl)).edits.tail (.tell t (by decide))
  | active =>
    split_ifs
    · exact .refl
    · exact stopTask_edits ht .paused b (hf hs)
  | _ => exact .refl

theorem unpause_edits : Edits s e (e.unpause t) := by
  rw [unpause]
  split_ifs with hm hp
  · exact setResume_edits ht true
  · exact (Edit.retag ht (.inr hp) (.inl rfl)).edits.framed (frame_schedule _)
  · exact .refl

theorem remove_edits (f b : Bool)
    (hf : s.Fits e.queue t := by exact fun _ => ⟨trivial, trivial⟩)
    (hre : (e.state t).IsQueued → s.removes e.queue t := by
      exact fun _ => trivial) :
    Edits s e (e.orKeep (e.remove t f b)) := by
  have hr : (e.state t).IsQueued → Edits s e
      ({ e with waiting := e.waiting.filter (· ≠ t) }.retire t .removed) :=
    fun hq => retire_edits ht (.inr (.inr rfl)) (.inr ⟨rfl, hre hq⟩)
  rw [remove]
  split
  · exact .refl
  cases hs : e.state t with
  | waiting => exact hr (.inl hs)
  | paused => exact hr (.inr hs)
  | active =>
    split_ifs
    · exact stopTask_edits ht .removed b (hf hs)
    · exact .refl
  | _ => exact .refl

end

/-- What `moveDone` reports is not read by `unpause`. -/
theorem frame_unpause_moved (e : Engine) (new : List (TaskRef × String)) :
    ({ e.unpause t with moved := (e.unpause t).moved ++ new } : Engine).frame =
      ({ e with moved := e.moved ++ new }.unpause t).frame := by
  unfold unpause
  split_ifs
  · unfold setResume
    dsimp only
    split <;> rfl
  · cases hs : e.scheduled <;> simp [schedule, setState, hs, frame, queue, post]
  · rfl

theorem moveDone_edits (ht : s.touches t) (hj : t ∈ e.moveJobs) (er : String) :
    Edits s e ({ e with moveJobs := e.moveJobs.erase t }.moveDone t er) := by
  rw [moveDone]
  cases hf : e.moving.find? t.gid with
  | none => exact .single (.drop ht hf)
  | some m =>
    dsimp only
    split_ifs
    · exact .framed (.head (.land ht hj hf er) (unpause_edits ht)) (frame_unpause_moved _ _)
    · exact .single (.land ht hj hf er)

/-- The loop of `fill`; `kept ++ rest` is what waits. -/
theorem startWaiting_edits (hwi : s.wide) (a : Answers) (k rest : List TaskRef) (e : Engine) :
    Edits s { e with waiting := k ++ rest } (e.startWaiting a k rest) := by
  induction rest generalizing e k with
  | nil =>
    rw [List.append_nil]
    exact .refl
  | cons first rest ih =>
    rw [startWaiting]
    split_ifs with hr hw
    · refine .trans ?_ (ih k (e.startTask first (a.throws first)))
      have hs : Edit s { e with waiting := k ++ first :: rest } _ :=
        .start hwi (by exact hw) List.perm_middle
      have ht := hs.edits.tail (.tell first (by decide : TaskEvent.start ≠ .stop))
      rw [startTask]
      split_ifs
      · exact Edits.framed ht rfl
      · exact Edits.framed ht rfl
    · have hn := ih (k ++ [first]) e
      rwa [List.append_assoc, List.singleton_append] at hn
    · exact .refl

end

section

variable {scope s : Scope} {engine e : Engine} {task t : TaskRef}

/-- What lets a list of active tasks be gone through. -/
structure Scope.Loops (scope : Scope) : Prop where
  pause : ∀ (engine : Engine) task rest atOnce, scope.loop engine.queue (task :: rest) →
    scope.Fits engine.queue task ∧ scope.loop (engine.pause task atOnce).queue rest
  stop : ∀ (engine : Engine) task rest atOnce, scope.loop engine.queue (task :: rest) →
    scope.Stops engine.queue task ∧ scope.loop (engine.stopTask task .waiting atOnce).queue rest
  skip : ∀ queue task rest, scope.loop queue (task :: rest) → scope.loop queue rest

/-- What the scope has to allow for a step to be made of its edits. -/
structure Scope.Covers (scope : Scope) (engine : Engine) (input : Input) : Prop where
  loops : scope.Loops
  touches : ∀ task, scope.touches task
  wide : scope.wide
  active : ∀ next, Edits scope engine next → scope.loop next.queue next.active
  found : ∀ gid task, engine.find gid = some task → scope.Fits engine.queue task ∧
    ((engine.state task).IsQueued → scope.removes engine.queue task)
  retries : ∀ gid, input = .requeue gid → scope.retries
  retired : ∀ task failed answers, input = .handle (.retire task failed) answers →
    .retire task failed ∈ engine.posted → scope.retires engine.queue task
  stopped : ∀ task next, input = .stopDone task next → (task, next) ∈ engine.stops →
    scope.Stops engine.queue task

theorem shutdown_edits (hl : s.Loops) (ht : ∀ t, s.touches t) (hw : s.wide)
    (ha : s.loop e.queue e.active) (f : Bool) (a : Answers) : Edits s e (e.shutdown f a) := by
  have hdo : Edits s e _ := .single (.down hw f)
  rw [shutdown]
  split
  · exact .refl
  dsimp only
  split_ifs
  · exact .framed hdo rfl
  refine hdo.trans (foldl_edits (motive := fun e => s.loop e.queue) ?_ _ _ ha)
  intro e t r hlo
  rw [stopForShutdown]
  split_ifs
  · obtain ⟨hs, hr⟩ := hl.stop e t r (a.atOnce t) hlo
    exact ⟨stopTask_edits (ht t) _ _ hs, hr⟩
  · exact ⟨.refl, hl.skip _ _ _ hlo⟩

theorem relocate_edits (ht : s.touches t) (hw : s.wide) (m b : Bool)
    (hfit : s.Fits e.queue t := by exact fun _ => ⟨trivial, trivial⟩) :
    Edits s e (e.orKeep (e.relocate t m b)) := by
  rw [relocate]
  split
  · exact .refl
  next hm =>
  split
  · exact .refl
  have he (resume : Bool) : Edit s e { e with
      moving := e.moving.insert t.gid { resume, started := false } } :=
    .relocate hw (by simpa using hm) resume
  have hf : ∀ (e : Engine) resume, e.moving.find? t.gid =
      some { resume, started := false } → Edits s e (e.moveFilesOf t) :=
    fun e resume hfi => moveFilesOf_edits ht (by simp [hfi])
  cases hs : e.state t with
  | waiting =>
    refine .head (he true) (.head (.retag ht (by exact .inl hs) (.inr rfl)) ?_)
    exact hf _ true (OrdMap.find?_insert_self _ _ _)
  | paused =>
    exact .head (he false) (hf _ false (OrdMap.find?_insert_self _ _ _))
  | active =>
    split_ifs
    · exact .single (he true)
    · exact .head (he true) (stopTask_edits ht .paused b (hfit hs))
  | _ => exact .refl

theorem pauseAll_edits (hl : s.Loops) (ht : ∀ t, s.touches t) (ha : s.loop e.queue e.active)
    (a : Answers) : Edits s (e.setAllResume false) (e.pauseAll a) := by
  refine .trans (foldl_edits (motive := fun e => s.loop e.queue) ?_ _ _ ha)
    (foldl_edits (motive := fun _ _ => True) (fun e t r _ => ⟨?_, trivial⟩) _ _ trivial)
  · intro e t r hlo
    obtain ⟨hf, hr⟩ := hl.pause e t r (a.atOnce t) hlo
    exact ⟨pause_edits (ht t) _ hf, hr⟩
  · rw [pauseWaiting]
    split_ifs with hs
    · exact .tail (.single (.retag (ht t) (.inl hs) (.inr rfl))) (.tell t (by decide))
    · exact .refl

theorem unpauseAll_edits (ht : ∀ t, s.touches t) : Edits s (e.setAllResume true) e.unpauseAll := by
  refine .framed (foldl_edits (motive := fun _ _ => True)
    (fun e t r _ => ⟨?_, trivial⟩) _ _ trivial) (frame_schedule _)
  rw [unpauseWaiting]
  split_ifs with hs
  · exact .single (.retag (ht t) (.inr hs.1) (.inl rfl))
  · exact .refl

theorem fill_edits {i : Input} (hc : s.Covers e i) (a : Answers) : Edits s e (e.fill a) := by
  have hs : Edits s e _ := startWaiting_edits hc.wide a [] e.waiting e
  rw [fill]
  split
  · exact .refl
  dsimp only
  split_ifs
  · exact hs.trans (shutdown_edits hc.loops hc.touches hc.wide (hc.active _ hs) false a)
  · exact hs

/-- A new task and a hand-over apart, a step is a sequence of edits. -/
theorem step_edits {i : Input} (hc : s.Covers e i) (had : ∀ t pa p, i ≠ .add t pa p)
    (ho : ∀ c n a, i ≠ .handle (.handOver c n) a) : Edits s e (e.step i) := by
  have ha := hc.active e .refl
  have hg (gid : Gid) {f : TaskRef → Engine} (hf : ∀ t, s.Fits e.queue t →
      ((e.state t).IsQueued → s.removes e.queue t) →
        Edits s e (f t)) : Edits s e (e.withTask gid f) := by
    rw [withTask]
    split
    · exact .refl
    · next t hfi => exact hf t (hc.found gid t hfi).1 (hc.found gid t hfi).2
  obtain ⟨hl, ht, hw, -, -, hret, hre, hs⟩ := id hc
  cases i with
  | add t pa p => exact absurd rfl (had t pa p)
  | pause gid a => exact hg gid fun t hfit _ => pause_edits (ht t) _ hfit
  | unpause gid => exact hg gid fun t _ _ => unpause_edits (ht t)
  | remove gid fo a =>
    exact hg gid fun t hfit hr =>
      remove_edits (ht t) fo _ hfit hr
  | pauseAll a =>
    exact .head (.resumeAll hw false) (pauseAll_edits hl ht ha a)
  | unpauseAll => exact .head (.resumeAll hw true) (unpauseAll_edits ht)
  | relocate gid m a =>
    exact hg gid fun t hfit _ => relocate_edits (ht t) hw m _ hfit
  | move gid x how =>
    refine hg gid fun t _ _ => ?_
    rw [move]
    split_ifs with hm
    · refine .single (.reorder hw ?_)
      refine (List.perm_insertIdx _ _ ?_).trans (List.perm_cons_erase hm).symm
      rw [Int.toNat_le]
      exact max_le (Int.natCast_nonneg _) (min_le_right _ _)
    · exact .refl
  | removeResult gid =>
    rw [step, removeResult]
    cases hfi : e.stopped.find? (fun t => t.gid = gid) with
    | none => exact .refl
    | some t =>
      obtain rfl : t.gid = gid := by simpa using List.find?_some hfi
      exact .single (.forget (List.perm_cons_erase (List.mem_of_find?_eq_some hfi)))
  | requeue gid =>
    refine hg gid fun t _ _ => ?_
    rw [requeue]
    split_ifs with hm
    · exact .framed (.single (.requeue hw (hret gid rfl) (ht t) hm)) (frame_schedule _)
    · exact .refl
  | purgeResults => exact purge_edits e.stopped e
  | configure settings => exact .single (.quiet (frame_schedule { e with settings }))
  | shutdown fo a => exact shutdown_edits hl ht hw ha fo a
  | report | offer =>
    rw [step]
    split_ifs
    · exact .single (.quiet rfl)
    · exact .refl
  | handle handler a =>
    rw [step]
    split_ifs with hp
    · have hq : ∀ posted scheduled, Edit s e { e with posted, scheduled } := fun _ _ => .quiet rfl
      cases handler with
      | fill =>
        refine .head (hq _ false) (@fill_edits _ _ (.handle .fill a) { hc with
            active := fun n he => hc.active n (.head (hq _ false) he)
            retired := fun _ _ _ h => by cases h
            stopped := fun _ _ h => by cases h } a)
      | retire t fa =>
        refine .head (hq (e.posted.erase (.retire t fa)) e.scheduled) ?_
        refine retire_edits (ht t) ?_ (.inl ⟨rfl, by exact hre t fa a rfl hp⟩)
        split_ifs
        · exact .inr (.inl rfl)
        · exact .inl rfl
      | handOver c n => exact absurd rfl (ho c n a)
      | finishShutdown => exact .single (.quiet rfl)
    · exact .refl
  | stopDone t n =>
    rw [step]
    split_ifs with hst
    · exact erase_stopDone_edits (ht t) n (hs t n rfl hst)
    · exact .refl
  | moveDone t er =>
    rw [step]
    split_ifs with hj
    · exact moveDone_edits (ht t) hj er
    · exact .refl

theorem Scope.loops_free {wide : Prop} : Scope.Loops { wide } where
  pause := fun _ _ _ _ _ => ⟨fun _ => ⟨trivial, trivial⟩, trivial⟩
  stop := fun _ _ _ _ _ => ⟨⟨trivial, trivial⟩, trivial⟩
  skip := fun _ _ _ _ => trivial

/-- Nothing is demanded. -/
theorem Scope.covers_free (i : Input) : Scope.Covers {} e i where
  loops := loops_free
  touches := fun _ => trivial
  wide := trivial
  active := fun _ _ => trivial
  found := fun _ _ _ => ⟨fun _ => ⟨trivial, trivial⟩, fun _ => trivial⟩
  retries := fun _ _ => trivial
  retired := fun _ _ _ _ _ => trivial
  stopped := fun _ _ _ _ => ⟨trivial, trivial⟩

/-- What new tasks, hand-overs and edits keep, a step keeps. -/
theorem step_keeps {motive : Engine → Prop} (i : Input)
    (ha : ∀ e t pa p, motive e → motive (e.add t pa p))
    (ho : ∀ e c n th, motive e → motive (e.handOver c n th))
    (hed : ∀ e n, Edit {} e n → motive e → motive n) (he : motive e) : motive (e.step i) := by
  by_cases hi : (∀ t pa p, i ≠ .add t pa p) ∧
      ∀ c n a, i ≠ .handle (.handOver c n) a
  · exact (step_edits (Scope.covers_free i) hi.1 hi.2).keeps hed he
  cases i with
  | add => exact ha e _ _ _ he
  | handle handler a =>
    cases handler with
    | handOver c n =>
      rw [step]
      split_ifs
      · exact ho _ c n _ (hed _ _ (.quiet (by rfl)) he)
      · exact he
    | _ => simp at hi
  | _ => simp at hi

end

end Aria2Next.Engine
