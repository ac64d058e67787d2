/-
What holds of the queue in every reachable state, timely or not: a known task
that waits is in the waiting queue, a disk job that moves files has its entry
in `moving`, and a task that is being stopped has a callback outstanding.
-/
import Aria2Next.EngineEdits

namespace Aria2Next

open OrdMap Function

namespace Queue

/-- A step that makes no task known, and puts every task it lets wait into
the waiting queue unless it waited before. -/
structure Follows (queue next : Queue) : Prop where
  tasks : ∀ gid task, next.tasks.find? gid = some task → queue.tasks.find? gid = some task
  waiting : ∀ task, (next.state task).IsQueued → task ∈ next.waiting ∨ (queue.state task).IsQueued ∧
      (task ∈ queue.waiting → task ∈ next.waiting)

theorem Follows.refl (q : Queue) : q.Follows q := by
  constructor
  · intro gid t hf
    exact hf
  · intro t hq
    exact .inr ⟨hq, id⟩

theorem Follows.trans {q n l : Queue} (hf : q.Follows n) (hl : n.Follows l) : q.Follows l := by
  constructor
  · intro gid t hfi
    exact hf.tasks gid t (hl.tasks gid t hfi)
  · intro t hq
    rcases hl.waiting t hq with hm | ⟨hb, hk⟩
    · exact .inl hm
    · rcases hf.waiting t hb with hm | ⟨hbe, hbeg⟩
      · exact .inl (hk hm)
      · exact .inr ⟨hbe, fun hm => hk (hbeg hm)⟩

/-- The states alone change, and only a waiting task may go on waiting. -/
theorem Follows.states (q : Queue) {state : TaskRef → TaskState}
    (hs : ∀ t, (state t).IsQueued → (q.state t).IsQueued) : q.Follows { q with state } := by
  constructor
  · intro gid t hf
    exact hf
  · intro t hq
    exact .inr ⟨hs t hq, id⟩

theorem isQueued_update {s : TaskRef → TaskState} {t o : TaskRef} {n : TaskState}
    (hn : n.IsQueued → (s t).IsQueued) (hq : (update s t n o).IsQueued) : (s o).IsQueued := by
  by_cases hs : o = t
  · rw [hs, update_self] at hq
    rw [hs]
    exact hn hq
  · rwa [update_of_ne hs] at hq

/-- Known tasks have their GID, and wait in the waiting queue. -/
structure Listed (queue : Queue) : Prop where
  keyed : ∀ gid task, queue.tasks.find? gid = some task → task.gid = gid
  queued : ∀ gid task, queue.tasks.find? gid = some task →
    (queue.state task).IsQueued → task ∈ queue.waiting

theorem Listed.follows {q n : Queue} (hl : q.Listed) (hf : q.Follows n) : n.Listed := by
  constructor
  · intro gid t hfi
    exact hl.keyed gid t (hf.tasks gid t hfi)
  · intro gid t hfi hq
    rcases hf.waiting t hq with hm | ⟨hb, hk⟩
    · exact hm
    · exact hk (hl.queued gid t (hf.tasks gid t hfi) hb)

end Queue

namespace Engine

open Runs Queue

section

variable {scope : Scope} {engine e next n : Engine}

/-- No edit makes a task known, and none lets a task wait outside the queue. -/
theorem Edit.follows (he : Edit scope e n) : e.queue.Follows n.queue := by
  cases he with
  | quiet hf =>
    have hqu : n.queue = e.queue := congrArg Prod.fst hf
    rw [hqu]
    exact Follows.refl e.queue
  | forget =>
    exact ⟨fun _ _ hfi => find?_erase_some hfi, fun _ hq => .inr ⟨hq, id⟩⟩
  | retag _ hfr => exact .states e.queue fun _ => isQueued_update fun _ => hfr
  | _ =>
    constructor
    · grind [queue, setState, setStopping, setAllResume, emit]
    · simp only [queue, setState, setStopping, setAllResume, emit, update_apply]
      grind [TaskState.IsQueued, TaskState.IsFinal]

theorem Edits.follows (he : Edits scope e n) : e.queue.Follows n.queue :=
  he.keeps (motive := (e.queue.Follows ·.queue))
    (fun _ _ hed hb => hb.trans hed.follows) (.refl e.queue)

theorem add_listed (e : Engine) (t : TaskRef) (pa : Bool) (p : Option Nat) (hl : e.queue.Listed) :
    (e.add t pa p).queue.Listed := by
  obtain ⟨hk, hq⟩ := hl
  have hp := List.perm_insertIdx t e.waiting (Nat.min_le_right (p.getD e.waiting.length) _)
  rw [add, queue_schedule]
  simp only [queue, setState] at *
  constructor
  · grind [find?_insert]
  · intro gid o hf ho
    apply hp.symm.subset
    grind [find?_insert]

theorem handOver_listed (e : Engine) (c n : TaskRef) (t : Bool) (hl : e.queue.Listed) :
    (e.handOver c n t).queue.Listed := by
  obtain ⟨hk, hq⟩ := hl
  rw [handOver]
  split_ifs <;> simp only [queue, setState, report, post] at *
  · constructor
    · grind [find?_insert]
    · grind [find?_insert, TaskState.IsQueued]
  · constructor
    · grind [find?_insert]
    · grind [find?_insert, TaskState.IsQueued]
  · exact ⟨hk, hq⟩

/-- What the engine has asked for and waits for: files being moved and tasks
being stopped. -/
structure Outstanding (engine : Engine) : Prop where
  started : ∀ task ∈ engine.moveJobs, ∃ move,
    engine.moving.find? task.gid = some move ∧ move.started = true
  distinct : (engine.moveJobs.map TaskRef.gid).Nodup
  stops : ∀ task, engine.stopping task = true → ∃ next, (task, next) ∈ engine.stops

/-- The parts of the engine `Outstanding` is about are the same. -/
def SameWork (engine next : Engine) : Prop :=
  next.moving = engine.moving ∧ next.moveJobs = engine.moveJobs ∧
    next.stopping = engine.stopping ∧ next.stops = engine.stops

theorem Outstanding.same {e n : Engine} (ho : e.Outstanding) (hsa : SameWork e n) :
    n.Outstanding := by
  obtain ⟨hm, hj, hs, hst⟩ := hsa
  constructor
  · rw [hj, hm]
    exact ho.started
  · rw [hj]
    exact ho.distinct
  · rw [hs, hst]
    exact ho.stops

theorem sameWork_schedule (e : Engine) : SameWork e e.schedule := by
  rw [schedule]
  split_ifs
  · exact ⟨rfl, rfl, rfl, rfl⟩
  · exact ⟨rfl, rfl, rfl, rfl⟩

/-- No job moves the files of a task whose move has not started. -/
theorem Outstanding.notMem {e : Engine} (ho : e.Outstanding) {gid : Gid}
    (hg : ∀ m, e.moving.find? gid = some m → m.started = false) :
    ∀ t ∈ e.moveJobs, t.gid ≠ gid := by
  rintro t ht rfl
  obtain ⟨m, hm, hs⟩ := ho.started t ht
  rw [hg m hm] at hs
  cases hs

theorem Edit.outstanding (he : Edit scope e n) (ho : e.Outstanding) : n.Outstanding := by
  have ⟨hst, hdi, hs⟩ := ho
  cases he with
  | quiet hf =>
    simp only [frame, Prod.mk.injEq] at hf
    exact ho.same ⟨hf.2.2.1, hf.2.2.2.2.1, hf.2.1, hf.2.2.2.1⟩
  | @carry t m _ hfi hfr =>
    have hot : ∀ job ∈ e.moveJobs, job.gid ≠ t.gid := ho.notMem (by simp [hfi, hfr])
    constructor
    · grind [find?_insert]
    · simpa [List.nodup_append, hdi] using hot
    · exact hs
  | land =>
    constructor
    · grind [find?_erase, List.perm_cons_erase]
    · exact hdi.sublist (List.erase_sublist.map TaskRef.gid)
    · exact hs
  | drop =>
    constructor
    · grind
    · exact hdi.sublist (List.erase_sublist.map TaskRef.gid)
    · exact hs
  | _ =>
    constructor
    · grind [setState, setStopping, setAllResume, emit, find?_insert, find?_erase,
        find?_mapValues, contains]
    · exact hdi
    · simp only [setState, setStopping, setAllResume, emit, update_apply]
      grind

end

theorem run_outstanding (settings : Settings) (inputs : List Input) :
    (run step { settings } inputs).Outstanding := by
  have hst : ∀ (e : Engine) (i : Input), e.Outstanding → (e.step i).Outstanding :=
    fun _ i => step_keeps i (fun _ _ _ _ ho => ho.same (sameWork_schedule _)) (fun _ _ _ _ ho => by
        rw [handOver]
        split_ifs <;> exact ho.same ⟨rfl, rfl, rfl, rfl⟩)
      fun _ _ => Edit.outstanding
  have he : ({ settings } : Engine).Outstanding := by
    refine ⟨?_, List.nodup_nil, ?_⟩
    · intro t ht
      cases ht
    · intro t hs
      cases hs
  exact run_preserves hst inputs he

/-- In every reachable state a known task that waits is in the queue. -/
theorem run_listed (settings : Settings) (inputs : List Input) :
    (run step { settings } inputs).queue.Listed := by
  have hs : ∀ (e : Engine) (i : Input), e.queue.Listed → (e.step i).queue.Listed :=
    fun _ i => step_keeps i add_listed handOver_listed fun _ _ hed hl => hl.follows hed.follows
  have he : ({ settings } : Engine).queue.Listed := by
    constructor
    · intro gid t hf
      simp [queue] at hf
    · intro gid t hf
      simp [queue] at hf
  exact run_preserves hs inputs he

end Engine

end Aria2Next
