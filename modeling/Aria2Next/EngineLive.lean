/-
The tasks that are neither finished nor forgotten.  Apart from a new task, a
retry and a hand-over, no step of the engine makes a task live, and a task that
is removed is not live afterwards.
-/
import Aria2Next.EnginePartition

namespace Aria2Next

instance (state : TaskState) : Decidable state.IsFinal := inferInstanceAs (Decidable (_ ∨ _ ∨ _))

namespace Engine

open Runs Function

/-- Active, waiting or paused, by its queue and by its state. -/
def Live (engine : Engine) (task : TaskRef) : Prop :=
  (task ∈ engine.active ∨ task ∈ engine.waiting) ∧ ¬ (engine.state task).IsFinal

/-- In one of the three queues. -/
def Lists (engine : Engine) (task : TaskRef) : Prop :=
  task ∈ engine.active ∨ task ∈ engine.waiting ∨ task ∈ engine.stopped

instance (engine : Engine) (task : TaskRef) : Decidable (engine.Lists task) :=
  inferInstanceAs (Decidable (_ ∨ _ ∨ _))

/-- What holds of the queues even when a retirement comes late. -/
structure Tidy (engine : Engine) : Prop where
  active : ∀ task ∈ engine.active, engine.state task = .active
  stopped : ∀ task ∈ engine.stopped, (engine.state task).IsFinal
  known : ∀ gid task, engine.tasks.find? gid = some task →
    ¬ (engine.state task).IsFinal → engine.Live task

/-- The engine goes on with no task made live; those it emits `Stop` for are
not live any more. -/
structure Descends (engine next : Engine) : Prop where
  tidy : next.Tidy
  live : ∀ task, next.Live task → engine.Live task
  lists : ∀ task, next.Lists task → engine.Lists task
  emitted : ∃ new, next.emitted = engine.emitted ++ new ∧ ∀ task, (TaskEvent.stop, task) ∈ new →
      engine.Lists task ∧ ¬ next.Live task

variable {e next n : Engine} {input : Input}

theorem Descends.trans {l : Engine} (hf : e.Descends n) (hla : n.Descends l) : e.Descends l where
  tidy := hla.tidy
  live := fun t hli => hf.live t (hla.live t hli)
  lists := fun t hl => hf.lists t (hla.lists t hl)
  emitted := by
    obtain ⟨ea, he, hs⟩ := hf.emitted
    obtain ⟨la, hlat, hs'⟩ := hla.emitted
    refine ⟨ea ++ la, by rw [hlat, he, List.append_assoc], ?_⟩
    intro t hm
    rcases List.mem_append.mp hm with hm | hm
    · obtain ⟨hl, hde⟩ := hs t hm
      exact ⟨hl, fun hli => hde (hla.live t hli)⟩
    · obtain ⟨hl, hde⟩ := hs' t hm
      exact ⟨hf.lists t hl, hde⟩

/-- The queues and what has been emitted are the same. -/
def SameQueues (engine next : Engine) : Prop :=
  next.queue = engine.queue ∧ next.emitted = engine.emitted

theorem SameQueues.descends (hs : e.SameQueues n) (ht : e.Tidy) : e.Descends n := by
  obtain ⟨hq, he⟩ := hs
  simp only [queue, Queue.mk.injEq] at hq
  obtain ⟨hta, ha, hw, hst, hsta⟩ := hq
  obtain ⟨ha', hs', hk⟩ := ht
  refine ⟨⟨?_, ?_, ?_⟩, ?_, ?_, [], by simp [he]⟩ <;> grind [Live, Lists]

section Steps

variable {engine e : Engine} {task t : TaskRef}

theorem emit_descends (ht : e.Tidy) {ev : TaskEvent} (he : ev ≠ .stop) :
    e.Descends (e.emit ev t) := by
  refine ⟨⟨ht.active, ht.stopped, ht.known⟩, fun _ => id, fun _ => id, [(ev, t)], rfl, ?_⟩
  intro o hm
  rw [List.mem_singleton, Prod.mk.injEq] at hm
  exact absurd hm.1.symm he

theorem Live.lists (hl : e.Live t) : e.Lists t := by
  rcases hl.1 with hm | hm
  · exact .inl hm
  · exact .inr (.inl hm)

theorem not_final_of_queued {s : TaskState} (hq : s.IsQueued) : ¬ s.IsFinal := by
  rcases hq with rfl | rfl <;> decide

/-- A task that goes back to wait is live, and one that is retired is in a
queue. -/
def living : Scope where
  retries := False
  leaves := fun queue task => ∀ engine : Engine, engine.queue = queue → engine.Live task
  retires := fun queue task => ∀ engine : Engine, engine.queue = queue → engine.Lists task
  removes := fun queue task => ∀ engine : Engine, engine.queue = queue → engine.Lists task
  loop := fun queue list => ∀ engine : Engine, engine.queue = queue →
    engine.Tidy ∧ ∀ task ∈ list, engine.Live task

variable {next n : Engine} {o : TaskRef}

theorem edit_descends (hed : Edit living e n) (ht : e.Tidy) : e.Descends n := by
  have ⟨ha, hs, hk⟩ := ht
  cases hed with
  | quiet hf =>
    simp only [frame, Prod.mk.injEq] at hf
    exact SameQueues.descends ⟨hf.1, hf.2.2.2.2.2.2.2⟩ ht
  | tell t he => exact emit_descends ht he
  | @retag t _ hfr s hto =>
    have ho := not_final_of_queued hto
    have hb := not_final_of_queued hfr
    refine ⟨⟨?_, ?_, ?_⟩, ?_, fun _ => id, [], (List.append_nil _).symm, by simp⟩ <;>
      simp only [Live, setState, update_apply] at * <;> grind [TaskState.IsQueued]
  | @back t _ hl s hto =>
    have hliv := hl e rfl
    have ho := not_final_of_queued hto
    refine ⟨⟨?_, ?_, ?_⟩, ?_, ?_, [], (List.append_nil _).symm, by simp⟩ <;>
      simp only [Live, Lists, setState, update_apply] at * <;> grind
  | @retire t _ s hst w hw =>
    have hli : e.Lists t := by
      rcases hw with ⟨-, h⟩ | ⟨-, h⟩ <;> exact h e rfl
    have hsu : ∀ o ∈ w, o ∈ e.waiting := by grind
    have hke : ∀ o ∈ e.waiting, o ≠ t → o ∈ w := by grind
    clear hw
    refine ⟨⟨?_, ?_, ?_⟩, ?_, ?_, _, rfl, ?_⟩ <;>
      simp only [Live, Lists, setState, emit, update_apply] at * <;> grind
  | @forget t st hp =>
    have hsu : ∀ o ∈ st, o ∈ e.stopped := fun o hm => hp.symm.subset (List.mem_cons_of_mem t hm)
    refine ⟨⟨ha, fun o hm => hs o (hsu o hm), ?_⟩, fun _ => id, ?_, [],
      (List.append_nil _).symm, by simp⟩
    · exact fun gid o hfi => hk gid o (find?_erase_some hfi)
    · exact fun o => .imp_right (.imp_right (hsu o))
  | @start _ t hst w hp =>
    have hm := fun o => hp.mem_iff (a := o)
    refine ⟨⟨?_, ?_, ?_⟩, ?_, ?_, [], (List.append_nil _).symm, by simp⟩ <;>
      simp only [Live, Lists, setState, update_apply] at * <;> grind [TaskState.IsFinal]
  | reorder _ hp =>
    have hm := fun o => hp.mem_iff (a := o)
    refine ⟨⟨ha, hs, ?_⟩, ?_, ?_, [], (List.append_nil _).symm, by simp⟩ <;>
      grind [Live, Lists]
  | requeue _ hr => exact hr.elim
  | _ => exact SameQueues.descends ⟨rfl, rfl⟩ ht

theorem edits_descends (he : Edits living e n) (ht : e.Tidy) : e.Descends n :=
  he.keeps (motive := e.Descends) (fun _ _ hed hb => hb.trans (edit_descends hed hb.tidy))
    (SameQueues.descends ⟨rfl, rfl⟩ ht)

theorem live_of_queue (hq : n.queue = e.queue) : n.Live t ↔ e.Live t := by
  simp only [queue, Queue.mk.injEq] at hq
  rw [Live, Live, hq.2.1, hq.2.2.1, hq.2.2.2.2]

/-- A stop that lets its task wait again leaves every live task live. -/
theorem stopTask_keeps_live {n : TaskState} (hn : n.IsQueued) (b : Bool) (ho : e.Live o) :
    (e.stopTask t n b).Live o := by
  have hb : ∀ s : TaskState, s.IsQueued → Live { (e.setStopping t true).setState t s with
        active := e.active.filter (· ≠ t)
        waiting := t :: e.waiting } o := by
    intro s hq
    have hop := not_final_of_queued hq
    simp only [Live, setState, setStopping, update_apply] at *
    grind
  rw [stopTask]
  split_ifs
  · rw [live_of_queue (queue_stopDone _ t n)]
    rcases hn with rfl | rfl
    · exact hb .waiting (.inl rfl)
    · exact hb .paused (.inr rfl)
  · exact ho

theorem pause_keeps_live (b : Bool) (ho : e.Live o) : (e.pause t b).Live o := by
  have hk := (live_of_queue (queue_setResume e t false)).mpr ho
  rw [pause]
  split
  · next hw =>
    simp only [Live, setState, emit, update_apply] at *
    grind [TaskState.IsFinal]
  · split_ifs
    · exact hk
    · exact stopTask_keeps_live (.inr rfl) b hk
  · exact hk

theorem Tidy.live_of_active (ht : e.Tidy) (hm : t ∈ e.active) : e.Live t := by
  refine ⟨.inl hm, ?_⟩
  rw [ht.active t hm]
  decide

theorem Tidy.of_queue (ht : e.Tidy) (hq : n.queue = e.queue) : n.Tidy := by
  have hk := ht.known
  simp only [← live_of_queue hq] at hk
  simp only [queue, Queue.mk.injEq] at hq
  obtain ⟨hta, ha, hw, hst, hs⟩ := hq
  constructor
  · rw [ha, hs]
    exact ht.active
  · rw [hst, hs]
    exact ht.stopped
  · rw [hta, hs]
    exact hk

theorem Live.stops (hl : e.Live t) : living.Stops e.queue t :=
  ⟨fun _ hq => (live_of_queue hq).mpr hl, fun _ hq => ((live_of_queue hq).mpr hl).lists⟩

/-- A task that is paused or stopped to wait again stays live. -/
theorem living_loops : living.Loops where
  pause := by
    intro e t r b hl
    obtain ⟨ht, hlis⟩ := hl e rfl
    obtain ⟨hli, hr⟩ := List.forall_mem_cons.mp hlis
    have hp := edits_descends (pause_edits trivial b fun _ => hli.stops) ht
    refine ⟨fun _ => hli.stops, fun n hq => ⟨hp.tidy.of_queue hq, ?_⟩⟩
    exact fun o ho => (live_of_queue hq).mpr (pause_keeps_live _ (hr o ho))
  stop := by
    intro e t r b hl
    obtain ⟨ht, hlis⟩ := hl e rfl
    obtain ⟨hli, hr⟩ := List.forall_mem_cons.mp hlis
    have hs := edits_descends (stopTask_edits trivial .waiting b hli.stops) ht
    refine ⟨hli.stops, fun n hq => ⟨hs.tidy.of_queue hq, ?_⟩⟩
    exact fun o ho => (live_of_queue hq).mpr (stopTask_keeps_live (.inl rfl) _ (hr o ho))
  skip := fun _ _ _ hl n hq =>
    ⟨(hl n hq).1, (List.forall_mem_cons.mp (hl n hq).2).2⟩

end Steps

/-- The inputs that make no task live: a posted retirement finds its task in
one of the queues, and a stop is answered while its task is active. -/
def Plain (engine : Engine) : Input → Prop
  | .add _ _ _ | .requeue _ | .offer _ _ | .handle (.handOver _ _) _ => False
  | .handle (.retire task failed) _ =>
    .retire task failed ∈ engine.posted → engine.Lists task
  | .stopDone task next => (task, next) ∈ engine.stops → task ∈ engine.active
  | _ => True

instance (engine : Engine) : DecidablePred engine.Plain := fun input => by
  unfold Plain
  induction input using Input.casesOn with
  | handle handler => induction handler using Posted.casesOn <;> infer_instance
  | _ => infer_instance

theorem living_covers (ht : e.Tidy) (hp : e.Plain input) : living.Covers e input where
  loops := living_loops
  touches := fun _ => trivial
  wide := trivial
  active := by
    intro n he o hq
    have ho := (edits_descends he ht).tidy.of_queue hq
    have ha : o.active = n.active := congrArg Queue.active hq
    exact ⟨ho, fun t hm => ho.live_of_active (ha ▸ hm)⟩
  found := by
    intro gid t hfi
    refine ⟨fun hs => (ht.known gid t hfi ?_).stops, fun hqu => ?_⟩
    · intro hf
      rw [show e.state t = .active from hs] at hf
      exact absurd hf (by decide)
    · exact (ht.known gid t hfi (not_final_of_queued hqu)).stops.2
  retries := by
    rintro gid rfl
    exact hp
  retired := by
    rintro t f a rfl hpo n hq
    have hl : e.Lists t := hp hpo
    simp only [queue, Queue.mk.injEq] at hq
    rwa [Lists, hq.2.1, hq.2.2.1, hq.2.2.2.1]
  stopped := by
    rintro t n rfl hst
    exact (ht.live_of_active (hp hst)).stops

theorem step_descends (ht : e.Tidy) (hp : e.Plain input) : e.Descends (e.step input) := by
  apply edits_descends (step_edits (living_covers ht hp) ?_ ?_) ht
  · rintro t pa p rfl
    exact hp
  · rintro c n a rfl
    exact hp

/-- A new task is added: it alone becomes live. -/
structure Grows (task : TaskRef) (engine next : Engine) : Prop where
  tidy : next.Tidy
  live : ∀ other, next.Live other → other = task ∨ engine.Live other
  lists : ∀ other, next.Lists other → other = task ∨ engine.Lists other

theorem add_grows (ht : e.Tidy) {t : TaskRef} (hn : ¬ e.Lists t) (pa : Bool) (p : Option Nat) :
    Grows t e (e.add t pa p) := by
  rw [add]
  have hq : (if pa then TaskState.paused else .waiting).IsQueued := by
    cases pa
    · exact .inl rfl
    · exact .inr rfl
  generalize (if pa then TaskState.paused else .waiting) = state at hq
  have hp : min (p.getD e.waiting.length)
      e.waiting.length ≤ e.waiting.length := Nat.min_le_right _ _
  generalize min (p.getD e.waiting.length) e.waiting.length = place at hp
  have hm : ∀ o, o ∈ e.waiting.insertIdx place t ↔ o = t ∨ o ∈ e.waiting :=
    fun o => List.mem_insertIdx hp
  obtain ⟨hac, hst, hk⟩ := ht
  have ho := not_final_of_queued hq
  have ha : Grows t e
      { e.setState t state with
        tasks := e.tasks.insert t.gid t
        waiting := e.waiting.insertIdx place t } := by
    refine ⟨⟨?_, ?_, ?_⟩, ?_, ?_⟩ <;>
      simp only [Live, Lists, setState, update_apply] at * <;> grind [OrdMap.find?_insert]
  have hs := edits_descends (.single (.quiet (frame_schedule { e.setState t state with
      tasks := e.tasks.insert t.gid t
      waiting := e.waiting.insertIdx place t }))) ha.tidy
  exact ⟨hs.tidy, fun o hli => ha.live o (hs.live o hli), fun o hl => ha.lists o (hs.lists o hl)⟩

theorem empty_tidy (settings : Settings) : ({ settings } : Engine).Tidy where
  active := fun _ hm => absurd hm List.not_mem_nil
  stopped := fun _ hm => absurd hm List.not_mem_nil
  known := by
    intro gid t hf
    cases hf

end Engine

end Aria2Next
