/-
The three queues of the engine partition its tasks, and the state of a task
says which queue it is in.  That holds in every run in which retirements and
stop callbacks run while their task is still active; a retirement that comes
after a pause puts the task into two queues.
-/
import Aria2Next.EngineEdits

namespace Aria2Next.Engine

open Runs

section

variable (engine e : Engine)

theorem queue_stopDone (t : TaskRef) (n : TaskState) :
    (e.stopDone t n).queue = (e.leaveActive t n).queue := by
  rw [stopDone]
  split_ifs <;> simp

variable {t o : TaskRef}

/-- Stopping a task to queue it again leaves the other active ones. -/
theorem active_stopTask {n : TaskState} (b : Bool) (hq : n.IsQueued) (ho : o ∈ e.queue.active)
    (hn : o ≠ t) : o ∈ (e.stopTask t n b).queue.active := by
  cases b with
  | false => exact ho
  | true =>
    change o ∈ (stopDone _ t n).queue.active
    rw [queue_stopDone]
    rcases hq with rfl | rfl
    · exact List.mem_filter.mpr ⟨ho, decide_eq_true hn⟩
    · exact List.mem_filter.mpr ⟨ho, decide_eq_true hn⟩

theorem active_pause (b : Bool) (ho : o ∈ e.queue.active) (hn : o ≠ t) :
    o ∈ (e.pause t b).queue.active := by
  rw [← queue_setResume e t false] at ho
  rw [pause]
  generalize e.setResume t false = paused at ho ⊢
  cases paused.state t with
  | active =>
    split_ifs
    · exact ho
    · exact active_stopTask paused b (.inr rfl) ho hn
  | _ => exact ho

theorem add_partition (p : Bool) (po : Option Nat) (hp : e.queue.Partition)
    (hf : e.tasks.find? t.gid = none) : (e.add t p po).queue.Partition := by
  rw [add, queue_schedule]
  refine hp.added hf (List.perm_insertIdx _ _ (min_le_right _ _)) ?_
  cases p with
  | true => exact .inr rfl
  | false => exact .inl rfl

theorem handOver_partition {c n : TaskRef} (t : Bool) (hp : e.queue.Partition) (hn : n ≠ c) :
    (e.handOver c n t).queue.Partition := by
  rw [handOver]
  split_ifs with hm
  · exact hp.replaced hm.1 hm.2 hn
  · exact hp.replaced hm.1 hm.2 hn
  · exact hp

/-- The environment of a run: a new task has a new GID, a task that reports
is running, and a task that takes over is a new object. -/
def Admissible (engine : Engine) : Input → Prop
  | .add task _ _ => engine.tasks.find? task.gid = none
  | .report task _ => task ∈ engine.active
  | .handle (.handOver current next) _ => next ≠ current
  | _ => True

/-- A posted retirement and the callback of a stop run while their task is
still active. -/
def Timely (engine : Engine) : Input → Prop
  | .handle (.retire task failed) _ =>
    .retire task failed ∈ engine.posted → task ∈ engine.active
  | .stopDone task next => (task, next) ∈ engine.stops → task ∈ engine.active
  | _ => True

instance (engine : Engine) : DecidablePred engine.Admissible := fun input => by
  unfold Admissible
  split <;> infer_instance

instance (engine : Engine) : DecidablePred engine.Timely := fun input => by
  unfold Timely
  split <;> infer_instance

end

/-- Tasks leave the active queue for another one, or the waiting queue. -/
def ordered : Scope where
  leaves := fun queue task => task ∈ queue.active
  retires := fun queue task => task ∈ queue.active
  removes := fun queue task => task ∈ queue.waiting
  loop := fun queue list => queue.Partition ∧ list.Nodup ∧ ∀ task ∈ list, task ∈ queue.active

variable {e n : Engine}

theorem edit_partition (he : Edit ordered e n) (hp : e.queue.Partition) : n.queue.Partition := by
  cases he with
  | quiet hf =>
    have hq : n.queue = e.queue := congrArg Prod.fst hf
    exact hq ▸ hp
  | retag _ hfr ht => exact hp.retagged hfr ht
  | back _ hl ht => exact hp.activeToWaiting hl ht
  | retire _ hs hw =>
    rcases hw with ⟨rfl, ha⟩ | ⟨rfl, hw⟩
    · exact hp.activeToStopped ha hs
    · exact hp.waitingToStopped hw hs
  | forget hpe => exact hp.dropStopped hpe
  | start _ _ hpe => exact hp.waitingToActive hpe
  | reorder _ hpe => exact hp.reordered hpe
  | requeue _ _ _ hm => exact hp.stoppedToWaiting hm
  | _ => exact hp

theorem edits_partition (he : Edits ordered e n) (hp : e.queue.Partition) : n.queue.Partition :=
  he.keeps (motive := (·.queue.Partition)) (fun _ _ hed => edit_partition hed) hp

/-- Stopping one of the active tasks leaves the others active. -/
theorem ordered_loops : ordered.Loops where
  pause := by
    intro e t r b ⟨hp, hn, hl⟩
    obtain ⟨hno, hn⟩ := List.nodup_cons.mp hn
    obtain ⟨hm, hr⟩ := List.forall_mem_cons.mp hl
    have hf : ordered.Fits e.queue t := fun _ => ⟨hm, hm⟩
    refine ⟨hf, edits_partition (pause_edits trivial b hf) hp, hn, ?_⟩
    intro o ho
    exact active_pause e b (hr o ho) fun he => hno (he ▸ ho)
  stop := by
    intro e t r b ⟨hp, hn, hl⟩
    obtain ⟨hno, hn⟩ := List.nodup_cons.mp hn
    obtain ⟨hm, hr⟩ := List.forall_mem_cons.mp hl
    have hs : ordered.Stops e.queue t := ⟨hm, hm⟩
    refine ⟨hs, edits_partition (stopTask_edits trivial _ b hs) hp, hn, ?_⟩
    intro o ho
    exact active_stopTask e b (.inl rfl) (hr o ho) fun he => hno (he ▸ ho)
  skip := fun _ _ _ ⟨hp, hn, hl⟩ =>
    ⟨hp, (List.nodup_cons.mp hn).2, (List.forall_mem_cons.mp hl).2⟩

theorem ordered_covers {i : Input} (hp : e.queue.Partition) (ht : e.Timely i) :
    ordered.Covers e i where
  loops := ordered_loops
  touches := fun _ => trivial
  wide := trivial
  active := by
    intro n he
    have hn := edits_partition he hp
    refine ⟨hn, ?_, fun _ hm => hm⟩
    rw [List.nodup_iff_count_le_one]
    intro t
    exact (Nat.le_add_right _ _).trans ((Nat.le_add_right _ _).trans (hn.count_le_one t))
  found := by
    intro gid t hf
    have hm := hp.mem_of_find? hf
    refine ⟨fun hst => ?_, (hp.mem_waiting_iff hm).mpr⟩
    have ha := (hp.mem_active_iff hm).mpr hst
    exact ⟨ha, ha⟩
  retries := fun _ _ => trivial
  retired := by
    rintro t f a rfl hpo
    exact ht hpo
  stopped := by
    rintro t n rfl hs
    exact ⟨ht hs, ht hs⟩

theorem step_partition (e : Engine) (i : Input) (hp : e.queue.Partition)
    (hm : e.Admissible i ∧ e.Timely i) : (e.step i).queue.Partition := by
  obtain ⟨ha, ht⟩ := hm
  by_cases hi : (∀ t pa p, i ≠ .add t pa p) ∧
      ∀ c n a, i ≠ .handle (.handOver c n) a
  · exact edits_partition (step_edits (ordered_covers hp ht) hi.1 hi.2) hp
  cases i with
  | add t pa p => exact add_partition e pa p hp ha
  | handle handler a =>
    cases handler with
    | handOver c n =>
      rw [step]
      split_ifs
      · exact handOver_partition { e with posted := _ } _ hp ha
      · exact hp
    | _ => simp at hi
  | _ => simp at hi

theorem empty_partition (settings : Settings) : ({ settings } : Engine).queue.Partition := by
  refine ⟨fun t => ?_, fun gid t hf => ?_, ?_, ?_, ?_⟩
  · simp [queue]
  · simp [queue] at hf
  · simp [queue]
  · simp [queue]
  · simp [queue]

/-- In every run whose retirements and stop callbacks are timely, each task
of `tasks` is in exactly one of the three queues, no queue holds a task
twice, and the states fit the queues.  Every state such a run passes through
is the end of a shorter one. -/
theorem run_timely_queues_partition (settings : Settings) (inputs : List Input)
    (hmeets : Meets step (fun engine input =>
      engine.Admissible input ∧ engine.Timely input) { settings } inputs) :
    let engine := run step { settings } inputs
    let listed := engine.active ++ engine.waiting ++ engine.stopped
    (∀ gid task, engine.tasks.find? gid = some task → listed.count task = 1) ∧ listed.Nodup ∧
      (∀ task ∈ engine.active, engine.state task = .active) ∧
      (∀ task ∈ engine.waiting, engine.state task = .waiting ∨ engine.state task = .paused) ∧
      ∀ task ∈ engine.stopped, engine.state task = .complete ∨
        engine.state task = .error ∨ engine.state task = .removed := by
  intro engine listed
  have hpart : engine.queue.Partition :=
    run_invariant step_partition (empty_partition settings) hmeets
  have hcount : ∀ task, listed.count task = _ := fun task =>
    List.count_append.trans (congrArg (· + _) List.count_append)
  refine ⟨fun gid task hfind => ?_, ?_, hpart.active, hpart.waiting, hpart.stopped⟩
  · have hgid := hpart.keyed gid task hfind
    rw [hcount task]
    refine (hpart.placed task).trans (if_pos ?_)
    rw [hgid]
    exact hfind
  · rw [List.nodup_iff_count_le_one]
    intro task
    rw [hcount task]
    exact hpart.count_le_one task

/-- A download that completes and is retired at once. -/
theorem run_timely_queues_partition_one :
    let task : TaskRef := ⟨1, 0⟩
    let settings : Settings := ⟨5, 1000, false, true⟩
    let inputs : List Input := [.add task false none, .handle .fill {},
      .report task false, .handle (.retire task false) {}]
    (run step { settings } inputs).stopped = [task] ∧
      (run step { settings } inputs).state task = .complete ∧
      ∀ other ∈ (run step { settings } inputs).stopped,
        (run step { settings } inputs).state other = .complete ∨
        (run step { settings } inputs).state other = .error ∨
        (run step { settings } inputs).state other = .removed :=
  ⟨by decide, by decide, (run_timely_queues_partition _ _ (by decide)).2.2.2.2⟩

/-- A pause between the report of a download and its retirement: the
retirement puts a task that is already waiting among the results as well. -/
theorem retire_after_pause_lists_twice :
    let task : TaskRef := ⟨1, 0⟩
    let settings : Settings := ⟨5, 1000, false, true⟩
    let inputs : List Input := [.add task false none, .handle .fill {},
      .report task false, .pause 1 { atOnce := fun _ => true },
      .handle (.retire task false) {}]
    let engine := run step { settings } inputs
    Meets step Admissible { settings } inputs ∧ engine.tasks.find? 1 = some task ∧
      (engine.active ++ engine.waiting ++ engine.stopped).count task = 2 ∧
      task ∈ engine.waiting ∧ engine.state task = .complete := by
  decide

end Aria2Next.Engine
