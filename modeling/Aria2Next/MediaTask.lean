/-
`media/MediaTask` between its worker thread and the engine: the worker decides
that a download is complete, the control thread sees it at the next poll.

The model follows one task, with what `core/Engine` keeps of it: its state,
whether it is in `active_`, the retirements posted for it and the session file.
The other tasks decide only when the queue has room and when a shutdown can
end.  Every input is one turn of the control thread or one step of the worker,
so that any interleaving is a list of inputs.
-/
import Aria2Next.Engine

namespace Aria2Next

/-- `Snapshot::state` -/
inductive MediaState where
  | waiting | probing | awaitingSelection | downloading | finalizing | paused
  | complete | error
deriving DecidableEq, Repr

/-- `Control`: what the worker and the control thread share. -/
structure MediaControl where
  cancel : Bool := false
  done : Bool := false
  state : MediaState := .probing
deriving DecidableEq, Repr

structure MediaTask where
  state : TaskState := .waiting
  /-- The task is in `active_`. -/
  active : Bool := false
  stopping : Bool := false
  /-- The retirements posted to the event loop, `true` for a failure. -/
  retiring : List Bool := []
  shuttingDown : Bool := false
  forceShutdown : Bool := false
  /-- The engine has shut down. -/
  finished : Bool := false
  /-- The option `force-save`. -/
  forceSave : Bool := false
  /-- The session file names the task, and whether as paused. -/
  session : Option Bool := none
  /-- The engine has the task. -/
  known : Bool := true
  /-- `control_`, while a worker runs. -/
  control : Option MediaControl := none
  /-- `snapshot_.state` -/
  snapshot : MediaState := .waiting
  /-- `stopped_`: the state that the callback of the stop sets. -/
  stopped : Option TaskState := none
  /-- Ghost data: the output is published and recorded as complete; -/
  published : Bool := false
  /-- how often the task was started since; -/
  restarts : Nat := 0
  /-- the user has removed it. -/
  dismissed : Bool := false
deriving DecidableEq, Repr

namespace MediaTask

section Control

variable (task : MediaTask)

/-- `Task::complete` and `Task::failed` -/
def report (failed : Bool) : MediaTask := { task with retiring := task.retiring ++ [failed] }

/-- The callback that `Engine::stopTask` gives to `stop`. -/
def stopDone (next : TaskState) : MediaTask :=
  { task with
    stopping := false
    active := false
    state := match next with
      | .paused => .paused
      | .waiting => .waiting
      | _ => .removed }

/-- `stop`: without a worker it is answered at once. -/
def stop (next : TaskState) : MediaTask :=
  match task.control with
  | none => task.stopDone next
  | some control =>
    { task with
      stopped := some next
      control := some { control with cancel := true } }

def stopTask (next : TaskState) : MediaTask := { task with stopping := true }.stop next

def pause : MediaTask :=
  match task.state with
  | .waiting => { task with state := .paused }
  | .active => if task.stopping then task else task.stopTask .paused
  | _ => task

def unpause : MediaTask :=
  if task.state = .paused then { task with state := .waiting } else task

def remove (force : Bool) : MediaTask :=
  match task.state with
  | .waiting | .paused => { task with state := .removed, dismissed := true }
  | .active =>
    if task.stopping = false ∨ force then
      { task with dismissed := true }.stopTask .removed
    else task
  | _ => task

/-- `start`; `throws` if the path is taken or an option is bad. -/
def start (throws : Bool) : MediaTask :=
  if throws then { task with snapshot := .error }.report true
  else { task with control := some {}, snapshot := .probing }

/-- `Engine::fill` comes to the task while there is room. -/
def fill (throws : Bool) : MediaTask :=
  if task.shuttingDown ∨ task.state ≠ .waiting then task
  else
    { task with
      state := .active
      active := true
      restarts := task.restarts + if task.published then 1 else 0 }.start throws

def workerDone : MediaTask :=
  let task := { task with control := none }
  match task.stopped with
  | some next => { task with stopped := none }.stopDone next
  | none =>
    match task.snapshot with
    | .complete => task.report false
    | .awaitingSelection => task.pause
    | _ => task.report true

def poll : MediaTask :=
  match task.control with
  | none => task
  | some control =>
    let task := { task with snapshot := control.state }
    if control.done then task.workerDone else task

/-- A posted retirement runs. -/
def retire (failed : Bool) : MediaTask :=
  if failed ∈ task.retiring then
    { task with
      retiring := task.retiring.erase failed
      active := false
      state := if failed then .error else .complete }
  else task

/-- `aria2.retryMedia` -/
def retry : MediaTask :=
  if task.state = .error then { task with state := .waiting } else task

def shutdown (force : Bool) : MediaTask :=
  if task.shuttingDown ∧ ¬ (force ∧ task.forceShutdown = false) then task
  else
    let task := { task with
      shuttingDown := true
      forceShutdown := task.forceShutdown || force }
    if task.active ∧ (task.stopping = false ∨ force) then
      task.stopTask .waiting
    else task

/-- Whether the session has the task, from `saved` in `state/Session`. -/
def saved : Option Bool :=
  match task.state with
  | .complete => if task.forceSave then some false else none
  | .removed => none
  | .paused => some true
  | _ => some false

/-- The session is written once no task is active. -/
def finishShutdown : MediaTask :=
  if task.shuttingDown ∧ task.active = false ∧ task.finished = false then
    { task with finished := true, session := task.saved }
  else task

/-- A new process adds what the session names. -/
def restart : MediaTask :=
  if task.finished then
    match task.session with
    | none => { task with known := false }
    | some paused =>
      { state := if paused then .paused else .waiting
        forceSave := task.forceSave
        session := task.session
        published := task.published
        restarts := task.restarts
        dismissed := task.dismissed }
  else task

end Control

section Worker

/-- The worker goes on, while it runs and has not published. -/
def work (task : MediaTask) (f : MediaControl → MediaControl) : MediaTask :=
  match task.control with
  | none => task
  | some control =>
    if control.done ∨ control.state = .complete then task
    else { task with control := some (f control) }

/-- `MediaJob::complete`: the output is there and the state is complete. -/
def publish (task : MediaTask) : MediaTask :=
  match task.control with
  | none => task
  | some control =>
    if control.done ∨ control.state = .complete then task
    else
      { task with
        control := some { control with state := .complete }
        published := true }

/-- The state that the worker leaves, from the end of `Session`'s thread. -/
def lastState (control : MediaControl) : MediaState :=
  if control.state = .complete ∨ control.state = .awaitingSelection then
    control.state
  else if control.cancel then .paused
  else .error

def ends (task : MediaTask) : MediaTask :=
  match task.control with
  | none => task
  | some control =>
    if control.done then task
    else
      { task with
        control := some { control with
          state := lastState control
          done := true } }

end Worker

inductive Input where
  | fill (throws : Bool)
  | poll
  | pause
  | unpause
  | remove (force : Bool)
  | retire (failed : Bool)
  | retry
  | shutdown (force : Bool)
  | finishShutdown
  | restart
  /-- The worker shows another state. -/
  | advance (state : MediaState)
  | publish
  /-- The worker thread ends. -/
  | ends
deriving DecidableEq, Repr

def act (task : MediaTask) : Input → MediaTask
  | .fill throws => task.fill throws
  | .poll => task.poll
  | .pause => task.pause
  | .unpause => task.unpause
  | .remove force => task.remove force
  | .retire failed => task.retire failed
  | .retry => task.retry
  | .shutdown force => task.shutdown force
  | .finishShutdown => task.finishShutdown
  | .restart => task.restart
  | .advance state =>
    if state = .complete then task
    else task.work fun control => { control with state }
  | .publish => task.publish
  | .ends => task.ends

/-- Nothing happens to a task that is gone, and nothing but a restart once the
event loop has stopped. -/
def step (task : MediaTask) (input : Input) : MediaTask :=
  if task.known = false ∨ (task.finished ∧ input ≠ .restart) then task
  else task.act input

/-- A worker runs and has not published. -/
def Busy (task : MediaTask) : Prop :=
  ∃ control, task.control = some control ∧ control.state ≠ .complete

instance (task : MediaTask) : Decidable task.Busy :=
  match hc : task.control with
  | none => isFalse (by simp [Busy, hc])
  | some control =>
    decidable_of_iff (control.state ≠ .complete) (by simp [Busy, hc])

/-- No stop comes between the publication and the retirement, no publication
while a stop is outstanding, and complete tasks are not kept in the session. -/
def Timely (task : MediaTask) : Input → Prop
  | .pause => task.state = .active → task.stopping = false → task.Busy
  | .shutdown _ => task.active = true → task.Busy
  | .publish => task.stopped = none
  | .finishShutdown => task.state = .complete → task.forceSave = false
  | _ => True

instance (task : MediaTask) : DecidablePred task.Timely := fun input => by
  unfold Timely
  split <;> infer_instance

/-- How far a published task has come: the worker shows it, it is reported,
or it is over. -/
inductive Way : Option MediaControl → Option TaskState → TaskState →
    List Bool → Prop
  | shown {control : MediaControl} {retiring : List Bool} (hstate : control.state = .complete) :
      Way (some control) none .active retiring
  | reported : Way none none .active [false]
  | settled : Way none none .complete []

variable {state : TaskState} {control : MediaControl} {input i : Input}

theorem Way.state_eq {c : Option MediaControl} {s : Option TaskState} {r : List Bool}
    (hw : Way c s state r) : state = .active ∨ state = .complete := by
  cases hw with
  | shown | reported => exact .inl rfl
  | settled => exact .inr rfl

structure Sound (task : MediaTask) : Prop where
  active : task.active = true ↔ task.state = .active
  running : task.control ≠ none → task.state = .active ∧ task.retiring = [] ∧
    task.stopping = task.stopped.isSome
  idle : task.control = none → task.stopped = none ∧ task.stopping = false
  retiring : task.retiring = [] ∨ task.state = .active ∧ ∃ failed, task.retiring = [failed]
  working : ∀ control, task.control = some control →
    control.state = .complete → task.published = true
  published : task.published = true → Way task.control task.stopped task.state task.retiring ∧
      (task.finished = true → task.session = none)
  restarts : task.restarts = 0

variable {task t : MediaTask}

theorem Sound.unpublished (hso : Sound t) (ha : t.state ≠ .active) (hc : t.state ≠ .complete) :
    t.published = false := by
  rw [← Bool.not_eq_true]
  intro hp
  rcases (hso.published hp).1.state_eq with hs | hs
  · exact ha hs
  · exact hc hs

section

variable (hs : Sound t)

include hs

/-- A published task with a worker is not being stopped. -/
theorem Sound.shown (hc : t.control = some control) (hp : t.published = true) :
    control.state = .complete ∧ t.stopped = none := by
  have hw := (hs.published hp).1
  rw [hc] at hw
  generalize t.stopped = stopped at hw
  generalize t.state = state at hw
  cases hw with
  | shown hst => exact ⟨hst, rfl⟩

/-- A task that waits goes on waiting, paused or not. -/
theorem Sound.waits (hf : t.state = .waiting ∨ t.state = .paused ∨ t.state = .error)
    (ht : state = .waiting ∨ state = .paused) : Sound { t with state } := by
  have ha : t.state ≠ .active := by
    rcases hf with hf | hf | hf <;> rw [hf] <;> decide
  have hc : t.state ≠ .complete := by
    rcases hf with hf | hf | hf <;> rw [hf] <;> decide
  have hu := hs.unpublished ha hc
  have hn : state ≠ .active := by
    rcases ht with rfl | rfl <;> decide
  have hq : t.retiring = [] := by
    rcases hs.retiring with hni | ⟨hst, -⟩
    · exact hni
    · exact absurd hst ha
  refine ⟨?_, ?_, hs.idle, .inl hq, hs.working, ?_, hs.restarts⟩
  · exact iff_of_false (fun h => ha (hs.active.mp h)) hn
  · intro hco
    exact absurd (hs.running hco).1 ha
  · intro hp
    rw [hu] at hp
    cases hp

/-- A stop is asked of a worker that has not published. -/
theorem Sound.stopping (hc : t.control = some control)
    (hst : control.state ≠ .complete) (next : TaskState) : Sound (t.stopTask next) := by
  have hu : t.published = false := by
    rw [← Bool.not_eq_true]
    intro hp
    exact hst (hs.shown hc hp).1
  obtain ⟨ha, hq, -⟩ := hs.running (by rw [hc]; simp)
  simp only [stopTask, stop, hc]
  refine ⟨hs.active, fun _ => ⟨ha, hq, rfl⟩, ?_, .inl hq, ?_, ?_, hs.restarts⟩
  · intro hn
    cases hn
  · intro o ho hco
    cases ho
    exact absurd hco hst
  · intro hp
    change t.published = true at hp
    rw [hu] at hp
    cases hp

theorem pause_sound (ht : t.state = .active → t.stopping = false → t.Busy) :
    Sound t.pause := by
  unfold pause
  split
  · next hw => exact hs.waits (.inl hw) (.inr rfl)
  · next ha =>
    split
    · exact hs
    · next hst =>
      rw [Bool.not_eq_true] at hst
      obtain ⟨c, hc, hsta⟩ := ht ha hst
      exact hs.stopping hc hsta .paused
  · exact hs

theorem unpause_sound : Sound t.unpause := by
  unfold unpause
  split
  · next hp => exact hs.waits (.inr (.inl hp)) (.inl rfl)
  · exact hs

theorem retry_sound : Sound t.retry := by
  unfold retry
  split
  · next he => exact hs.waits (.inr (.inr he)) (.inl rfl)
  · exact hs

theorem fill_sound (th : Bool) : Sound (t.fill th) := by
  unfold fill
  split
  · exact hs
  · next hre =>
    push Not at hre
    have hw := hre.2
    have ha : t.state ≠ .active := by rw [hw]; decide
    have hu := hs.unpublished ha (by rw [hw]; decide)
    have hc : t.control = none := by
      by_contra hc
      exact ha (hs.running hc).1
    have hq : t.retiring = [] := by
      rcases hs.retiring with hni | ⟨hsta, -⟩
      · exact hni
      · exact absurd hsta ha
    obtain ⟨hsto, hst⟩ := hs.idle hc
    have hr : t.restarts + (if t.published then 1 else 0) = 0 := by
      rw [hu, hs.restarts]
      rfl
    have hn : ∀ {p : Prop}, t.published = true → p := by
      intro p hp
      rw [hu] at hp
      cases hp
    unfold start
    split
    · refine ⟨iff_of_true rfl rfl, ?_, hs.idle, ?_, hs.working, hn, hr⟩
      · intro hso
        exact absurd hc hso
      · right
        refine ⟨rfl, true, ?_⟩
        simp only [report, hq, List.nil_append]
    · refine ⟨iff_of_true rfl rfl, ?_, ?_, .inl hq, ?_, hn, hr⟩
      · intro _
        refine ⟨rfl, hq, ?_⟩
        change t.stopping = t.stopped.isSome
        rw [hst, hsto]
        rfl
      · intro hno
        cases hno
      · intro c hso hco
        cases hso
        cases hco

end

theorem workerDone_sound (hso : Sound t) (hco : t.control = some control)
    (hsn : t.snapshot = control.state) : Sound t.workerDone := by
  obtain ⟨ha, hq, hst⟩ := hso.running (by rw [hco]; simp)
  have hp : t.published = true → control.state = .complete ∧ t.stopped = none := hso.shown hco
  unfold workerDone
  dsimp only
  split
  · next next hs =>
    -- a stop is outstanding, so the task has not published
    have hsta : (match next with
        | .paused => TaskState.paused
        | .waiting => .waiting
        | _ => .removed) ≠ .active := by
      split <;> decide
    refine ⟨?_, ?_, fun _ => ⟨rfl, rfl⟩, .inl hq, ?_, ?_, hso.restarts⟩
    · exact iff_of_false (by simp [stopDone]) hsta
    · intro hsom
      exact absurd rfl hsom
    · intro o ho
      cases ho
    · intro hdo
      rw [(hp hdo).2] at hs
      cases hs
  · next hs =>
    have hi : t.stopping = false := by
      rw [hst, hs]
      rfl
    split
    · refine ⟨hso.active, ?_, fun _ => ⟨hs, hi⟩, ?_, ?_, ?_, hso.restarts⟩
      · intro hsom
        exact absurd rfl hsom
      · right
        exact ⟨ha, false, by simp only [report, hq, List.nil_append]⟩
      · intro o ho
        cases ho
      · intro hdo
        refine ⟨?_, (hso.published hdo).2⟩
        simp only [report, hq, List.nil_append, hs, ha]
        exact .reported
    · next haw =>
      have hpa : pause { t with control := none } =
          { t with
            control := none
            stopping := false
            active := false
            state := .paused } := by
        simp only [pause, ha, hi, stopTask, stop, stopDone, Bool.false_eq_true, if_false]
      rw [hpa]
      refine ⟨iff_of_false (by simp) (by simp), ?_, fun _ => ⟨hs, rfl⟩,
        .inl hq, ?_, ?_, hso.restarts⟩
      · intro hsom
        exact absurd rfl hsom
      · intro o ho
        cases ho
      · intro hdo
        have hc := hsn.trans (hp hdo).1
        rw [show t.snapshot = _ from haw] at hc
        cases hc
    · next hc _ =>
      refine ⟨hso.active, ?_, fun _ => ⟨hs, hi⟩, ?_, ?_, ?_, hso.restarts⟩
      · intro hsom
        exact absurd rfl hsom
      · right
        exact ⟨ha, true, by simp only [report, hq, List.nil_append]⟩
      · intro o ho
        cases ho
      · intro hdo
        exact absurd (hsn.trans (hp hdo).1) hc

theorem poll_sound (hso : Sound t) : Sound t.poll := by
  unfold poll
  split
  · exact hso
  · next c hc =>
    have hs : Sound { t with snapshot := c.state } := { hso with }
    split
    · exact workerDone_sound hs hc rfl
    · exact hs

section

variable (hs : Sound t)

include hs

theorem retire_sound (f : Bool) : Sound (t.retire f) := by
  unfold retire
  split
  · next hm =>
    obtain ⟨ha, hr⟩ : t.state = .active ∧ t.retiring = [f] := by
      rcases hs.retiring with hn | ⟨ha, other, ho⟩
      · rw [hn] at hm
        cases hm
      · rw [ho, List.mem_singleton] at hm
        rw [hm]
        exact ⟨ha, ho⟩
    have hc : t.control = none := by
      by_contra hc
      rw [(hs.running hc).2.1] at hr
      cases hr
    have he : t.retiring.erase f = [] := by
      rw [hr, List.erase_cons_head]
    refine ⟨?_, ?_, hs.idle, .inl he, hs.working, ?_, hs.restarts⟩
    · refine iff_of_false (by simp) ?_
      change (if f then TaskState.error else .complete) ≠ .active
      split <;> decide
    · intro hso
      exact absurd hc hso
    · intro hp
      obtain ⟨hw, hse⟩ := hs.published hp
      refine ⟨?_, hse⟩
      rw [hc, ha, hr] at hw
      generalize hst : t.stopped = stopped at hw
      cases hw with
      | reported =>
        rw [hc, he]
        exact .settled
  · exact hs

theorem shutdown_sound (f : Bool) (ht : t.active = true → t.Busy) :
    Sound (t.shutdown f) := by
  unfold shutdown
  split
  · exact hs
  · have hn : Sound { t with
        shuttingDown := true
        forceShutdown := t.forceShutdown || f } := { hs with }
    dsimp only
    split
    · next hsto =>
      obtain ⟨c, hc, hst⟩ := ht hsto.1
      exact hn.stopping hc hst .waiting
    · exact hn

theorem finishShutdown_sound (ht : t.state = .complete → t.forceSave = false) :
    Sound t.finishShutdown := by
  unfold finishShutdown
  split
  · next hi =>
    refine { hs with published := ?_ }
    intro hp
    obtain ⟨hw, -⟩ := hs.published hp
    refine ⟨hw, fun _ => ?_⟩
    have hst : t.state = .complete := by
      have ha : t.state ≠ .active := by
        intro ha
        rw [hs.active.mpr ha] at hi
        exact absurd hi.2.1 (by decide)
      by_contra hc
      rw [hs.unpublished ha hc] at hp
      cases hp
    simp only [saved, hst, ht hst, Bool.false_eq_true, if_false]
  · exact hs

theorem restart_sound : Sound t.restart := by
  unfold restart
  split
  · next hf =>
    split
    · exact { hs with }
    · next p hse =>
      have hu : t.published = false := by
        rw [← Bool.not_eq_true]
        intro hp
        rw [(hs.published hp).2 hf] at hse
        cases hse
      refine ⟨?_, ?_, fun _ => ⟨rfl, rfl⟩, .inl rfl, ?_, ?_, hs.restarts⟩
      · refine iff_of_false (by simp) ?_
        change (if p then TaskState.paused else .waiting) ≠ .active
        split <;> decide
      · intro hso
        exact absurd rfl hso
      · intro c hc
        cases hc
      · intro hp
        change t.published = true at hp
        rw [hu] at hp
        cases hp
  · exact hs

/-- The worker shows a state other than complete, and has not published. -/
theorem Sound.advanced {next : MediaControl} (hc : t.control = some control)
    (hst : control.state ≠ .complete) (hn : next.state ≠ .complete) :
    Sound { t with control := some next } := by
  have hr := hs.running (by rw [hc]; simp)
  refine ⟨hs.active, fun _ => hr, ?_, hs.retiring, ?_, ?_, hs.restarts⟩
  · intro hno
    cases hno
  · intro o ho hco
    cases ho
    exact absurd hco hn
  · intro hp
    exact absurd (hs.shown hc hp).1 hst

theorem advance_sound {state : MediaState} (hst : state ≠ .complete) :
    Sound (t.work fun c => { c with state }) := by
  unfold work
  split
  · exact hs
  · next c hc =>
    split
    · exact hs
    · next ho =>
      exact hs.advanced hc (fun h => ho (.inr h)) hst

theorem publish_sound (ho : t.finished = false) (ht : t.stopped = none) :
    Sound t.publish := by
  unfold publish
  split
  · exact hs
  · next c hc =>
    split
    · exact hs
    · have hr := hs.running (by rw [hc]; simp)
      refine ⟨hs.active, fun _ => hr, ?_, hs.retiring, fun _ _ _ => rfl, ?_, hs.restarts⟩
      · intro hn
        cases hn
      · intro _
        refine ⟨?_, ?_⟩
        · rw [ht, hr.1]
          exact .shown rfl
        · intro hf
          change t.finished = true at hf
          rw [ho] at hf
          cases hf

theorem ends_sound : Sound t.ends := by
  unfold ends
  split
  · exact hs
  · next c hco =>
    split
    · exact hs
    · by_cases hc : c.state = .complete
      · have hp := hs.working c hco hc
        have hst := (hs.shown hco hp).2
        have hr := hs.running (by rw [hco]; simp)
        have hl : lastState c = .complete := by
          rw [lastState, if_pos (.inl hc), hc]
        refine ⟨hs.active, fun _ => hr, ?_, hs.retiring, fun _ _ _ => hp, ?_, hs.restarts⟩
        · intro hn
          cases hn
        · intro _
          refine ⟨?_, (hs.published hp).2⟩
          rw [hst, hr.1]
          exact .shown hl
      · apply hs.advanced hco hc
        simp only [lastState]
        split
        · exact hc
        · split <;> decide

end

theorem stopTask_dismissed (t : MediaTask) (next : TaskState) :
    (t.stopTask next).dismissed = t.dismissed := by
  unfold stopTask stop
  split <;> rfl

theorem remove_dismissed (t : MediaTask) (f : Bool) :
    t.remove f = t ∨ (t.remove f).dismissed = true := by
  unfold remove
  split
  · exact .inr rfl
  · exact .inr rfl
  · split
    · exact .inr (stopTask_dismissed _ _)
    · exact .inl rfl
  · exact .inl rfl

theorem pause_dismissed (t : MediaTask) : t.pause.dismissed = t.dismissed := by
  unfold pause
  split
  · rfl
  · split
    · rfl
    · exact stopTask_dismissed t _
  · rfl

theorem workerDone_dismissed (t : MediaTask) : t.workerDone.dismissed = t.dismissed := by
  unfold workerDone
  dsimp only
  split
  · rfl
  · split
    · rfl
    · exact pause_dismissed _
    · rfl

/-- A task that the user has removed stays so. -/
theorem act_dismissed (hdi : t.dismissed = true) (i : Input) : (t.act i).dismissed = true := by
  rw [← hdi]
  cases i with
  | remove f =>
    rcases remove_dismissed t f with hs | hr
    · rw [act, hs]
    · rw [act, hr, hdi]
  | fill th =>
    simp only [act, fill, start, report]
    split
    · rfl
    · split <;> rfl
  | poll =>
    simp only [act, poll]
    split
    · rfl
    · split
      · exact workerDone_dismissed _
      · rfl
  | pause => exact pause_dismissed t
  | unpause =>
    simp only [act, unpause]
    split <;> rfl
  | retire failed =>
    simp only [act, retire]
    split <;> rfl
  | retry =>
    simp only [act, retry]
    split <;> rfl
  | shutdown f =>
    simp only [act, shutdown]
    split
    · rfl
    · split
      · exact stopTask_dismissed _ _
      · rfl
  | finishShutdown =>
    simp only [act, finishShutdown]
    split <;> rfl
  | restart =>
    simp only [act, restart]
    split
    · split <;> rfl
    · rfl
  | advance state =>
    simp only [act, work]
    split
    · rfl
    · split
      · rfl
      · split <;> rfl
  | publish =>
    simp only [act, publish]
    split
    · rfl
    · split <;> rfl
  | ends =>
    simp only [act, ends]
    split
    · rfl
    · split <;> rfl

theorem act_sound (hs : Sound t) (ho : t.finished = true → i = .restart) (ht : Timely t i) :
    (t.act i).dismissed = true ∨ Sound (t.act i) := by
  cases i with
  | remove force =>
    rcases remove_dismissed t force with hsa | hdi
    · right
      rw [act, hsa]
      exact hs
    · exact .inl hdi
  | fill throws => exact .inr (fill_sound hs throws)
  | poll => exact .inr (poll_sound hs)
  | pause => exact .inr (pause_sound hs ht)
  | unpause => exact .inr (unpause_sound hs)
  | retire failed => exact .inr (retire_sound hs failed)
  | retry => exact .inr (retry_sound hs)
  | shutdown force => exact .inr (shutdown_sound hs force ht)
  | finishShutdown => exact .inr (finishShutdown_sound hs ht)
  | restart => exact .inr (restart_sound hs)
  | advance state =>
    rw [act]
    split
    · exact .inr hs
    · next hst => exact .inr (advance_sound hs hst)
  | publish =>
    refine .inr (publish_sound hs ?_ ht)
    rw [← Bool.not_eq_true]
    intro hf
    cases ho hf
  | ends => exact .inr (ends_sound hs)

theorem step_sound (hi : t.dismissed = true ∨ Sound t) (ht : Timely t i) :
    (t.step i).dismissed = true ∨ Sound (t.step i) := by
  unfold step
  split
  · exact hi
  · next hg =>
    push Not at hg
    rcases hi with hdi | hs
    · exact .inl (act_dismissed hdi i)
    · exact act_sound hs hg.2 ht

theorem initial_sound (forceSave : Bool) : Sound ({ forceSave } : MediaTask) where
  active := iff_of_false (by simp) (by simp)
  running := fun hs => absurd rfl hs
  idle := fun _ => ⟨rfl, rfl⟩
  retiring := .inl rfl
  working := by simp
  published := by simp
  restarts := rfl

/-- The retirement of a published task is all that is missing. -/
theorem Sound.ends_complete (hso : Sound t) (hk : t.known = true) (ho : t.finished = false)
    (hp : t.published = true) :
    (Runs.run step t [.ends, .poll, .retire false]).state = .complete := by
  have hw := (hso.published hp).1
  have hq := hso.running
  generalize hc : t.control = c at hw hq
  generalize hs : t.stopped = stopped at hw hq
  generalize hst : t.state = state at hw hq
  generalize hr : t.retiring = retiring at hw hq
  cases hw with
  | @shown c _ hco =>
    obtain ⟨-, rfl, -⟩ := hq (Option.some_ne_none c)
    by_cases hdo : c.done = true
    · simp [Runs.run, step, act, ends, poll, workerDone, report, retire,
        hk, ho, hc, hs, hr, hdo, hco]
    · simp [Runs.run, step, act, ends, lastState, poll, workerDone, report,
        retire, hk, ho, hc, hs, hr, hdo, hco]
  | reported =>
    simp [Runs.run, step, act, ends, poll, retire, hk, ho, hc, hr]
  | settled =>
    simp [Runs.run, step, act, ends, poll, retire, hk, ho, hc, hr, hst]

/-- While no stop comes between the publication and the retirement, none is
outstanding at the publication and complete tasks are not kept in the session:
a published task that the user has not removed is never started again, is not
in the session of a shutdown, and is complete once its worker has ended, a poll
has seen it and the retirement has run. -/
theorem run_published_is_final (forceSave : Bool) (inputs : List Input)
    (hmeets : Runs.Meets step Timely ({ forceSave } : MediaTask) inputs) :
    let task := Runs.run step ({ forceSave } : MediaTask) inputs
    task.published = true → task.dismissed = false →
      task.restarts = 0 ∧ (task.finished = true → task.session = none) ∧
      (task.known = true → task.finished = false →
        (Runs.run step task [.ends, .poll, .retire false]).state = .complete) := by
  intro task hpublished hdismissed
  have hstep : ∀ (before : MediaTask) (input : Input),
      before.dismissed = true ∨ Sound before → Timely before input →
      (before.step input).dismissed = true ∨ Sound (before.step input) :=
    fun _ _ hinv htimely => step_sound hinv htimely
  have hinv : task.dismissed = true ∨ Sound task :=
    Runs.run_invariant hstep (.inr (initial_sound forceSave)) hmeets
  rcases hinv with hremoved | hsound
  · rw [hdismissed] at hremoved
    cases hremoved
  · exact ⟨hsound.restarts, (hsound.published hpublished).2,
      fun hknown hopen => hsound.ends_complete hknown hopen hpublished⟩

/-- A download that is published, polled and retired, and a shutdown. -/
theorem run_published_is_final_shutdown : (Runs.run step ({ forceSave := false } : MediaTask)
      [.fill false, .advance .finalizing, .publish, .ends, .poll,
        .retire false, .shutdown false, .finishShutdown]).session = none :=
  ((run_published_is_final false [.fill false, .advance .finalizing, .publish, .ends, .poll,
      .retire false, .shutdown false, .finishShutdown]
    (by decide) (by decide) (by decide)).2.1 (by decide))

/-- The user pauses between the publication and the poll that would have seen
it: the poll answers the pause, and the task starts again later.  A shutdown in
that moment puts the task into the session. -/
theorem stop_hides_publication : (Runs.run step ({} : MediaTask)
      [.fill false, .publish, .pause, .ends, .poll, .unpause, .fill false]).restarts = 1 ∧
    (Runs.run step ({} : MediaTask) [.fill false, .publish, .shutdown false, .ends, .poll,
        .finishShutdown]).session = some false := by
  decide

end MediaTask

end Aria2Next
