/-
The three queues of the engine, and what it means that they partition its
tasks; each way a task changes its queue keeps the partition.
-/
import Aria2Next.Engine

namespace Aria2Next

open Function List

/-- The part of the engine the queues consist of. -/
structure Queue where
  tasks : OrdMap Gid TaskRef
  active : List TaskRef
  waiting : List TaskRef
  stopped : List TaskRef
  state : TaskRef → TaskState

def TaskState.IsQueued (state : TaskState) : Prop := state = .waiting ∨ state = .paused

def TaskState.IsFinal (state : TaskState) : Prop :=
  state = .complete ∨ state = .error ∨ state = .removed

namespace Queue

def listed (queue : Queue) : List TaskRef := queue.active ++ queue.waiting ++ queue.stopped

/-- Every known task is in exactly one queue, and no other task is in any;
the state of a task fits its queue. -/
structure Partition (queue : Queue) : Prop where
  placed : ∀ task, queue.active.count task + queue.waiting.count task + queue.stopped.count task =
      if queue.tasks.find? task.gid = some task then 1 else 0
  keyed : ∀ gid task, queue.tasks.find? gid = some task → task.gid = gid
  active : ∀ task ∈ queue.active, queue.state task = .active
  waiting : ∀ task ∈ queue.waiting, (queue.state task).IsQueued
  stopped : ∀ task ∈ queue.stopped, (queue.state task).IsFinal

theorem count_filter_ne_self (l : List TaskRef) (t : TaskRef) : (l.filter (· ≠ t)).count t = 0 := by
  rw [count_eq_zero]
  simp

namespace Partition

variable {q : Queue}

theorem count_le_one (hp : q.Partition) (t : TaskRef) :
    q.active.count t + q.waiting.count t + q.stopped.count t ≤ 1 := by
  rw [hp.placed]
  split_ifs
  · exact le_rfl
  · exact Nat.zero_le 1

variable {t : TaskRef} {s : TaskState} {waiting stopped : List TaskRef}

section

variable (hp : q.Partition)

include hp

theorem find?_of_mem (hm : t ∈ q.listed) : q.tasks.find? t.gid = some t := by
  have hc := hp.placed t
  have hpo : 0 < q.listed.count t := count_pos_iff.mpr hm
  simp only [listed, count_append] at hpo
  by_contra hf
  rw [if_neg hf] at hc
  omega

theorem mem_of_find? {gid : Gid} (hf : q.tasks.find? gid = some t) :
    t ∈ q.listed := by
  have hg := hp.keyed gid t hf
  have hc := hp.placed t
  rw [hg, if_pos hf] at hc
  apply count_pos_iff.mp
  simp only [listed, count_append]
  omega

/-- The queue of a listed task is the one its state names. -/
theorem mem_active_iff (hm : t ∈ q.listed) :
    t ∈ q.active ↔ q.state t = .active := by
  refine ⟨hp.active t, fun hs => ?_⟩
  simp only [listed, mem_append] at hm
  rcases hm with (ha | hw) | hst
  · exact ha
  · have := hp.waiting t hw
    simp [TaskState.IsQueued, hs] at this
  · have := hp.stopped t hst
    simp [TaskState.IsFinal, hs] at this

theorem mem_waiting_iff (hm : t ∈ q.listed) :
    t ∈ q.waiting ↔ (q.state t).IsQueued := by
  refine ⟨hp.waiting t, fun hs => ?_⟩
  simp only [listed, mem_append] at hm
  rcases hm with (ha | hw) | hst
  · have := hp.active t ha
    simp [TaskState.IsQueued, this] at hs
  · exact hw
  · have := hp.stopped t hst
    rcases hs with hs | hs <;> simp [TaskState.IsFinal, hs] at this

/-- An active task is in no other queue. -/
theorem of_active (hm : t ∈ q.active) :
    q.active.count t = 1 ∧ t ∉ q.waiting ∧ t ∉ q.stopped := by
  have ho := hp.count_le_one t
  have hi := count_pos_iff.mpr hm
  rw [← count_eq_zero, ← count_eq_zero]
  omega

theorem of_waiting (hm : t ∈ q.waiting) :
    q.waiting.count t = 1 ∧ t ∉ q.active ∧ t ∉ q.stopped := by
  have ho := hp.count_le_one t
  have hi := count_pos_iff.mpr hm
  rw [← count_eq_zero, ← count_eq_zero]
  omega

theorem of_stopped (hm : t ∈ q.stopped) :
    q.stopped.count t = 1 ∧ t ∉ q.active ∧ t ∉ q.waiting := by
  have ho := hp.count_le_one t
  have hi := count_pos_iff.mpr hm
  rw [← count_eq_zero, ← count_eq_zero]
  omega

end

/-- A task changes its state and possibly its queue: the other tasks keep
their places, and it keeps exactly one, which fits the new state. -/
theorem moved (hp : q.Partition) {active : List TaskRef} (hm : t ∈ q.listed)
    (hot : ∀ o, o ≠ t → active.count o = q.active.count o ∧
      waiting.count o = q.waiting.count o ∧ stopped.count o = q.stopped.count o)
    (hse : active.count t + waiting.count t + stopped.count t = 1) (hac : t ∈ active → s = .active)
    (hwa : t ∈ waiting → s.IsQueued) (hst : t ∈ stopped → s.IsFinal) : Partition
      { tasks := q.tasks, active, waiting, stopped, state := update q.state t s } := by
  refine ⟨fun o => ?_, hp.keyed, fun o ho => ?_, fun o ho => ?_, fun o ho => ?_⟩
  · by_cases he : o = t
    · rw [he, if_pos (hp.find?_of_mem hm)]
      exact hse
    · obtain ⟨ha, hw, hs⟩ := hot o he
      rw [← hp.placed, ha, hw, hs]
  · by_cases he : o = t
    · simpa [he] using hac (he ▸ ho)
    · have hc := count_pos_iff.mpr ho
      rw [(hot o he).1] at hc
      simpa [he] using hp.active o (count_pos_iff.mp hc)
  · by_cases he : o = t
    · simpa [he] using hwa (he ▸ ho)
    · have hc := count_pos_iff.mpr ho
      rw [(hot o he).2.1] at hc
      simpa [he] using hp.waiting o (count_pos_iff.mp hc)
  · by_cases he : o = t
    · simpa [he] using hst (he ▸ ho)
    · have hc := count_pos_iff.mpr ho
      rw [(hot o he).2.2] at hc
      simpa [he] using hp.stopped o (count_pos_iff.mp hc)

/-- A result is forgotten. -/
theorem dropStopped (hpa : q.Partition) (hpe : q.stopped.Perm (t :: stopped)) :
    Partition { q with tasks := q.tasks.erase t.gid, stopped } := by
  have hm : t ∈ q.stopped := hpe.symm.subset mem_cons_self
  have hf : q.tasks.find? t.gid = some t := hpa.find?_of_mem (mem_append_right _ hm)
  refine ⟨fun o => ?_, fun gid o ho => ?_, hpa.active,
    hpa.waiting, fun o ho => hpa.stopped o (hpe.symm.subset (mem_cons_of_mem t ho))⟩
  · have hp := hpa.placed o
    rw [hpe.count_eq, count_cons] at hp
    rw [OrdMap.find?_erase]
    by_cases he : o = t
    · subst he
      simp only [hf, BEq.rfl, ↓reduceIte] at hp
      simp only [↓reduceIte, reduceCtorEq]
      omega
    · have hb : (t == o) = false := by
        simpa using Ne.symm he
      by_cases hg : o.gid = t.gid
      · simp only [hg, hf, hb, Option.some.injEq, Ne.symm he,
          ↓reduceIte, Bool.false_eq_true, add_zero] at hp
        simpa [hg] using hp
      · simpa [hg, hb] using hp
  · rw [OrdMap.find?_erase] at ho
    split_ifs at ho
    exact hpa.keyed gid o ho

section

variable (hp : q.Partition)

include hp

/-- A task with a new GID joins the waiting queue. -/
theorem added (hf : q.tasks.find? t.gid = none)
    (hpe : waiting.Perm (t :: q.waiting)) (hs : s.IsQueued) : Partition { q with
        tasks := q.tasks.insert t.gid t
        waiting
        state := update q.state t s } := by
  have hnew : t ∉ q.listed := by
    intro hm
    have := hp.find?_of_mem hm
    rw [hf] at this
    contradiction
  have hn : ∀ o ∈ q.listed, o ≠ t := by
    intro o ho he
    exact hnew (he ▸ ho)
  refine ⟨fun o => ?_, fun gid o ho => ?_, fun o ho => ?_, fun o ho => ?_, fun o ho => ?_⟩
  · have hpl := hp.placed o
    simp only [hpe.count_eq, count_cons, OrdMap.find?_insert]
    by_cases he : o = t
    · subst he
      simp only [hf, reduceCtorEq, ↓reduceIte] at hpl
      simp only [BEq.rfl, ↓reduceIte]
      omega
    · have hb : (t == o) = false := by
        simpa using Ne.symm he
      by_cases hg : o.gid = t.gid
      · simp only [hg, hf, reduceCtorEq, ↓reduceIte] at hpl
        simp only [hg, hb, ↓reduceIte, Option.some.injEq, Ne.symm he, Bool.false_eq_true, add_zero]
        exact hpl
      · simp only [hg, hb, ↓reduceIte, Bool.false_eq_true, add_zero]
        exact hpl
  · rw [OrdMap.find?_insert] at ho
    split_ifs at ho with hg
    · cases ho
      exact hg.symm
    · exact hp.keyed gid o ho
  · have hm : o ∈ q.listed := by simp [listed, ho]
    simpa [update_of_ne (hn o hm)] using hp.active o ho
  · rcases mem_cons.mp (hpe.subset ho) with rfl | hold
    · simpa using hs
    · have hm : o ∈ q.listed := by simp [listed, hold]
      simpa [update_of_ne (hn o hm)] using hp.waiting o hold
  · have hm : o ∈ q.listed := by simp [listed, ho]
    simpa [update_of_ne (hn o hm)] using hp.stopped o ho

/-- A queued task changes between waiting and paused. -/
theorem retagged (hold : (q.state t).IsQueued) (hst : s.IsQueued) :
    Partition { q with state := update q.state t s } := by
  have ha : t ∉ q.active := by
    intro hm
    simp [TaskState.IsQueued, hp.active t hm] at hold
  have hs : t ∉ q.stopped := by
    intro hm
    have hf := hp.stopped t hm
    rcases hold with hold | hold <;> simp [TaskState.IsFinal, hold] at hf
  refine ⟨hp.placed, hp.keyed, fun o ho => ?_, fun o ho => ?_, fun o ho => ?_⟩
  · have hn : o ≠ t := fun he => ha (he ▸ ho)
    simpa [hn] using hp.active o ho
  · by_cases he : o = t
    · simpa [he] using hst
    · simpa [he] using hp.waiting o ho
  · have hn : o ≠ t := fun he => hs (he ▸ ho)
    simpa [hn] using hp.stopped o ho

/-- An active task leaves its queue for the end of the results. -/
theorem activeToStopped (hm : t ∈ q.active) (hf : s.IsFinal) : Partition { q with
        active := q.active.filter (· ≠ t)
        stopped := q.stopped ++ [t]
        state := update q.state t s } := by
  obtain ⟨_, hw, hs⟩ := hp.of_active hm
  refine hp.moved (by simp [listed, hm]) (fun o hn => ?_) ?_
    (by simp) (fun h => absurd h hw) fun _ => hf
  · simp [hn, Ne.symm hn]
  · rw [count_filter_ne_self, count_eq_zero.mpr hw, count_append, count_eq_zero.mpr hs,
      count_singleton_self]

/-- A queued task leaves its queue for the end of the results. -/
theorem waitingToStopped (hm : t ∈ q.waiting) (hf : s.IsFinal) : Partition
      { q with
        active := q.active.filter (· ≠ t)
        waiting := q.waiting.filter (· ≠ t)
        stopped := q.stopped ++ [t]
        state := update q.state t s } := by
  obtain ⟨_, _, hs⟩ := hp.of_waiting hm
  refine hp.moved (by simp [listed, hm]) (fun o hn => ?_) ?_ (by simp) (by simp) fun _ => hf
  · simp [hn, Ne.symm hn]
  · rw [count_filter_ne_self, count_filter_ne_self, count_append, count_eq_zero.mpr hs,
      count_singleton_self]

/-- An active task goes back to the front of the waiting queue. -/
theorem activeToWaiting (hm : t ∈ q.active) (hq : s.IsQueued) : Partition
      { q with
        active := q.active.filter (· ≠ t)
        waiting := t :: q.waiting
        state := update q.state t s } := by
  obtain ⟨_, hw, hs⟩ := hp.of_active hm
  refine hp.moved (by simp [listed, hm]) (fun o hn => ?_) ?_
    (by simp) (fun _ => hq) fun h => absurd h hs
  · simp [hn, Ne.symm hn]
  · rw [count_filter_ne_self, count_cons_self, count_eq_zero.mpr hw, count_eq_zero.mpr hs]

end

/-- A waiting task starts. -/
theorem waitingToActive (hpa : q.Partition) (hp : q.waiting.Perm (t :: waiting)) : Partition
      { q with
        active := q.active ++ [t]
        waiting
        state := update q.state t .active } := by
  have hm : t ∈ q.waiting := hp.symm.subset mem_cons_self
  obtain ⟨ho, ha, hs⟩ := hpa.of_waiting hm
  rw [hp.count_eq, count_cons_self, Nat.add_eq_right, count_eq_zero] at ho
  refine hpa.moved (by simp [listed, hm]) (fun o hn => ?_) ?_
    (fun _ => rfl) (fun h => absurd h ho) fun h => absurd h hs
  · simp [hp.count_eq, Ne.symm hn]
  · rw [count_append, count_eq_zero.mpr ha, count_singleton_self, count_eq_zero.mpr ho,
      count_eq_zero.mpr hs]

/-- A result goes back to the end of the waiting queue. -/
theorem stoppedToWaiting (hp : q.Partition) (hm : t ∈ q.stopped) : Partition { q with
        waiting := q.waiting ++ [t]
        stopped := q.stopped.erase t
        state := update q.state t .waiting } := by
  obtain ⟨ho, ha, hw⟩ := hp.of_stopped hm
  have hg : (q.stopped.erase t).count t = 0 := by
    rw [count_erase_self, ho]
  refine hp.moved (by simp [listed, hm]) (fun o hn => ?_) ?_
    (fun h => absurd h ha) (fun _ => .inl rfl) (fun h => absurd h (count_eq_zero.mp hg))
  · simp [hn, Ne.symm hn]
  · rw [count_append, count_eq_zero.mpr ha, count_singleton_self, count_eq_zero.mpr hw, hg]

/-- The order of the waiting queue changes. -/
theorem reordered (hp : q.Partition) (hpe : waiting.Perm q.waiting) :
    Partition { q with waiting } := by
  refine ⟨fun t => ?_, hp.keyed, hp.active, fun t ht => ?_, hp.stopped⟩
  · rw [← hp.placed, hpe.count_eq]
  · exact hp.waiting t (hpe.subset ht)

/-- An active task is replaced by a new one with its GID. -/
theorem replaced (hp : q.Partition) {c next : TaskRef} (hm : c ∈ q.active)
    (hg : next.gid = c.gid) (hne : next ≠ c) : Partition { q with
        tasks := q.tasks.insert next.gid next
        active := q.active.replace c next
        state := update (update q.state next .active) c .removed } := by
  have hl : ∀ t ∈ q.active, t ∈ q.listed := by
    intro t ht
    simp [listed, ht]
  have hf := hp.find?_of_mem (hl c hm)
  have hnew : q.active.count next + q.waiting.count next + q.stopped.count next = 0 := by
    rw [hp.placed, hg, hf]
    simpa using Ne.symm hne
  obtain ⟨before, after, hs, hno⟩ := eq_append_cons_of_mem hm
  have hr : q.active.replace c next = before ++ next :: after := by
    rw [hs, replace_append_right hno, replace_cons_self]
  have hon := hp.count_le_one c
  rw [hs, count_append, count_cons_self] at hon
  have hk : ∀ o ∈ q.listed, o ≠ c → update (update q.state next .active) c
        .removed o = q.state o := by
    intro o ho hc
    have hn : o ≠ next := by
      intro he
      have := count_pos_iff.mpr (he ▸ ho)
      simp only [listed, count_append] at this
      omega
    rw [update_of_ne hc, update_of_ne hn]
  refine ⟨fun o => ?_, fun gid o ho => ?_, fun o ho => ?_, fun o ho => ?_, fun o ho => ?_⟩
  · have hpl := hp.placed o
    simp only [hr, OrdMap.find?_insert, hg]
    simp only [hs, count_append, count_cons] at hpl hnew ⊢
    by_cases hc : o = c
    · subst hc
      have hb : (next == o) = false := by simpa using hne
      simp only [hb, Bool.false_eq_true, ↓reduceIte, Option.some.injEq, hne]
      omega
    · have hb : (c == o) = false := by
        simpa using Ne.symm hc
      by_cases hn : o = next
      · subst hn
        simp only [hg, BEq.rfl, ↓reduceIte]
        omega
      · have hb' : (next == o) = false := by
          simpa using Ne.symm hn
        by_cases hsa : o.gid = c.gid
        · simp only [hsa, hf, hb, Option.some.injEq,
            Ne.symm hc, Bool.false_eq_true, ↓reduceIte] at hpl
          simp only [hsa, hb', Option.some.injEq, Ne.symm hn, Bool.false_eq_true, ↓reduceIte]
          exact hpl
        · simp only [hb, Bool.false_eq_true, ↓reduceIte] at hpl
          simp only [hsa, hb', Bool.false_eq_true, ↓reduceIte]
          exact hpl
  · rw [OrdMap.find?_insert] at ho
    split_ifs at ho with hke
    · cases ho
      exact hke.symm
    · exact hp.keyed gid o ho
  · dsimp only at ho ⊢
    simp only [hr, mem_append, mem_cons] at ho
    by_cases hn : o = next
    · rw [hn, update_of_ne hne, update_self]
    · have hold : o ∈ before ∨ o ∈ after := by tauto
      have ha : o ∈ q.active := by
        simp only [hs, mem_append, mem_cons]
        tauto
      have hc : o ≠ c := by
        rintro rfl
        rcases hold with hi | hi
        · exact hno hi
        · have := count_pos_iff.mpr hi
          omega
      rw [hk o (hl o ha) hc]
      exact hp.active o ha
  · dsimp only at ho ⊢
    have hc : o ≠ c := by
      rintro rfl
      have := count_pos_iff.mpr ho
      omega
    rw [hk o (by simp [listed, ho]) hc]
    exact hp.waiting o ho
  · dsimp only at ho ⊢
    have hc : o ≠ c := by
      rintro rfl
      have := count_pos_iff.mpr ho
      omega
    rw [hk o (by simp [listed, ho]) hc]
    exact hp.stopped o ho

end Partition

end Queue

namespace Engine

open Runs

def queue (engine : Engine) : Queue :=
  ⟨engine.tasks, engine.active, engine.waiting, engine.stopped, engine.state⟩

section Queue

variable (e : Engine) (t : TaskRef)

@[simp] theorem queue_finishShutdown : e.finishShutdown.queue = e.queue := rfl

@[simp] theorem queue_schedule : e.schedule.queue = e.queue := by
  rw [schedule]
  split_ifs <;> rfl

@[simp] theorem queue_setResume (r : Bool) : (e.setResume t r).queue = e.queue := by
  rw [setResume]
  cases e.moving.find? t.gid with
  | _ => rfl

@[simp] theorem queue_moveFilesOf : (e.moveFilesOf t).queue = e.queue := by
  rw [moveFilesOf]
  cases e.moving.find? t.gid with
  | _ => rfl

@[simp] theorem queue_continueMove : (e.continueMove t).queue = e.queue := by
  rw [continueMove]
  cases e.moving.find? t.gid with
  | none => rfl
  | some m =>
    dsimp only
    split_ifs
    · rfl
    · exact queue_moveFilesOf e t
    · rfl

end Queue

end Engine

end Aria2Next
