/-
`bt/BtTask`: the life cycle of a torrent, from the add to libtorrent through
the last saves of its resume data to its removal.

libtorrent is the environment: it answers an add, answers the save requests,
delivers any other alert while the torrent is attached, and detaches a removed
torrent once.  An input that it cannot make in a state leaves the state as it
is.  What the options and the metadata decide comes with the input.

The fields from `issued` on are ghost data that the code does not have.
-/
import Aria2Next.Runs

namespace Aria2Next

universe u

namespace BtTask

inductive Phase where
  | idle | adding | running | saving | removing
deriving DecidableEq, Repr

inductive Outcome where
  | stop | complete | fail
deriving DecidableEq, Repr

/-- `ErrorCode`, as far as the task reports it. -/
inductive ErrorCode where
  | finished | unknown | notEnoughDiskSpace | duplicateInfoHash | fileOpen
  | fileIo | option
deriving DecidableEq, Repr

/-- `failure_` and `failureMessage_` -/
structure Failure where
  code : ErrorCode := .finished
  message : String := ""
deriving DecidableEq, Repr

/-- What the task tells the engine at the end of a run. -/
inductive Report (K : Type u) where
  /-- The callback of a stop. -/
  | stopped (done : K)
  | complete
  | failed (failure : Failure)
deriving DecidableEq

/-- The errors of the storage that have codes of their own. -/
inductive StorageFault where
  | noSpaceOnDevice | permissionDenied | other
deriving DecidableEq, Repr

def storageError : StorageFault → ErrorCode
  | .noSpaceOnDevice => .notEnoughDiskSpace
  | .permissionDenied => .fileOpen
  | .other => .fileIo

/-- `lt::torrent_status`, with what the options make of it. -/
structure Status where
  /-- Files or resume data are being checked. -/
  checking : Bool := false
  hasMetadata : Bool := true
  totalWanted : Int := 0
  isFinished : Bool := false
  isSeeding : Bool := false
  awaitingSelection : Bool := false
  /-- `seed-time` or `seed-ratio` is reached. -/
  enough : Bool := false
deriving DecidableEq, Repr

/-- What comes of `metadata_received_alert`. -/
inductive Metadata (K : Type u) where
  /-- libtorrent has no torrent file. -/
  | missing
  /-- The task waits for a selection: the engine pauses it, unless it is
  stopping it already. -/
  | awaiting (done : Option K)
  | applied
  /-- A bad option. -/
  | rejected (message : String)
deriving DecidableEq

end BtTask

open BtTask

structure BtTask (K : Type u) where
  phase : Phase := .idle
  outcome : Outcome := .stop
  failure : Failure := {}
  /-- `stopped_` -/
  stopped : Option K := none
  pendingSaves : Int := 0
  pendingWrites : Int := 0
  /-- All wanted data was downloaded once. -/
  finished : Bool := false
  hashCheckOnly : Bool := false
  /-- The phases in which the save requests were made. -/
  issued : List Phase := []
  /-- How many of them are answered. -/
  answered : Nat := 0
  /-- How many runs have started. -/
  started : Nat := 0
  /-- The last stop of this run. -/
  lastStop : Option K := none
  /-- The reports since the last start. -/
  reports : List (Report K) := []
  /-- The runs that have ended, with their last stop and their reports. -/
  ended : List (Option K × List (Report K)) := []

namespace BtTask

variable {K : Type u}

def report (task : BtTask K) (report : Report K) : BtTask K :=
  { task with reports := task.reports ++ [report] }

/-- The run is over: what it reported goes into the history. -/
def endRun (task : BtTask K) : BtTask K :=
  { task with ended := task.ended ++ [(task.lastStop, task.reports)] }

/-- `start`; options that cannot be applied make it throw, and the engine
reports the failure. -/
def start (task : BtTask K) (hashCheckOnly : Bool) (throws : Option String) : BtTask K :=
  if task.phase ≠ .idle then task
  else
    let task :=
      { task with
        finished := false
        outcome := .stop
        hashCheckOnly
        started := task.started + 1
        lastStop := none
        reports := [] }
    match throws with
    | some message => (task.report (.failed ⟨.option, message⟩)).endRun
    | none => { task with phase := .adding }

def saveResume (task : BtTask K) : BtTask K :=
  { task with
    pendingSaves := task.pendingSaves + 1
    issued := task.issued ++ [task.phase] }

def finish (task : BtTask K) (outcome : Outcome) (failure : Failure := {}) :
    BtTask K :=
  if task.phase ≠ .running then task
  else { task with outcome, failure, phase := .saving }.saveResume

def attached (task : BtTask K) : BtTask K :=
  let task := { task with phase := .running }
  if task.stopped.isSome then task.finish .stop else task

def addFailed (task : BtTask K) (duplicate : Bool) (message : String) : BtTask K :=
  let task := { task with phase := .idle }
  match task.stopped with
  | some done => ({ task with stopped := none }.report (.stopped done)).endRun
  | none =>
    (task.report (.failed ⟨if duplicate then .duplicateInfoHash else .unknown,
        "Cannot add the torrent: " ++ message⟩)).endRun

/-- A stop of an idle task is answered at once. -/
def stop (task : BtTask K) (done : K) : BtTask K :=
  match task.phase with
  | .idle => task.report (.stopped done)
  | .running =>
    { task with stopped := some done, lastStop := some done }.finish .stop
  | _ => { task with stopped := some done, lastStop := some done }

def maybeRemove (task : BtTask K) : BtTask K :=
  if task.phase = .saving ∧ task.pendingSaves = 0 ∧ task.pendingWrites = 0 then
    { task with phase := .removing }
  else task

/-- `save_resume_data_alert`: the data goes to the disk. -/
def saved (task : BtTask K) : BtTask K :=
  { task with
    pendingSaves := task.pendingSaves - 1
    answered := task.answered + 1
    pendingWrites := task.pendingWrites + 1 }

/-- `save_resume_data_failed_alert` -/
def unsaved (task : BtTask K) : BtTask K :=
  { task with
    pendingSaves := task.pendingSaves - 1
    answered := task.answered + 1 }.maybeRemove

/-- A write of resume data has ended, well or not. -/
def written (task : BtTask K) : BtTask K :=
  { task with pendingWrites := task.pendingWrites - 1 }.maybeRemove

def detached (task : BtTask K) : BtTask K :=
  let task := { task with phase := .idle }
  match task.stopped with
  | some done => ({ task with stopped := none }.report (.stopped done)).endRun
  | none =>
    match task.outcome with
    | .complete => (task.report .complete).endRun
    | .fail => (task.report (.failed task.failure)).endRun
    | .stop => task.endRun

def metadataReceived (task : BtTask K) : Metadata K → BtTask K
  | .missing => task
  | .awaiting none => task
  | .awaiting (some done) => task.stop done
  | .applied => task.saveResume
  | .rejected message => task.finish .fail ⟨.option, message⟩

def evaluateSeeding (task : BtTask K) (enough : Bool) : BtTask K :=
  if task.phase ≠ .running ∨ task.finished = false ∨ task.hashCheckOnly then
    task
  else if enough then task.finish .complete
  else task

def updated (task : BtTask K) (status : Status) : BtTask K :=
  if task.phase ≠ .running ∨ status.checking then task
  else
    let done := status.hasMetadata && decide (status.totalWanted > 0) &&
      (status.isFinished || status.isSeeding) && !status.awaitingSelection
    let task :=
      if done && !task.finished then
        { task with finished := true }.saveResume
      else if done then task
      else { task with finished := false }
    task.evaluateSeeding status.enough

def checkpoint (task : BtTask K) : BtTask K :=
  if task.phase = .running then task.saveResume else task

inductive Input (K : Type u) where
  | start (hashCheckOnly : Bool) (throws : Option String)
  | attached
  | addFailed (duplicate : Bool) (message : String)
  | stop (done : K)
  | saved
  | unsaved
  | written
  | metadataReceived (metadata : Metadata K)
  | torrentChecked
  | fileError (fault : StorageFault) (message : String)
  | updated (status : Status)
  /-- `seed-time` or `seed-ratio` changed. -/
  | seedingChanged (enough : Bool)
  | checkpoint
  | detached
deriving DecidableEq

/-- The session knows the task by its torrent. -/
def isAttached (task : BtTask K) : Bool :=
  task.phase = .running || task.phase = .saving || task.phase = .removing

/-- Whether the environment can make an input. -/
def possible (task : BtTask K) : Input K → Bool
  | .attached | .addFailed _ _ => task.phase = .adding
  | .saved | .unsaved =>
    task.isAttached && decide (task.answered < task.issued.length)
  | .written => 0 < task.pendingWrites
  | .metadataReceived _ | .torrentChecked | .fileError _ _ | .updated _ =>
    task.isAttached
  | .detached => task.phase = .removing
  | .start _ _ | .stop _ | .seedingChanged _ | .checkpoint => true

def act (task : BtTask K) : Input K → BtTask K
  | .start hashCheckOnly throws => task.start hashCheckOnly throws
  | .attached => task.attached
  | .addFailed duplicate message => task.addFailed duplicate message
  | .stop done => task.stop done
  | .saved => task.saved
  | .unsaved => task.unsaved
  | .written => task.written
  | .metadataReceived metadata => task.metadataReceived metadata
  | .torrentChecked =>
    if task.hashCheckOnly then task.finish .complete else task
  | .fileError fault message => task.finish .fail ⟨storageError fault, message⟩
  | .updated status => task.updated status
  | .seedingChanged enough => task.evaluateSeeding enough
  | .checkpoint => task.checkpoint
  | .detached => task.detached

def step (task : BtTask K) (input : Input K) : BtTask K :=
  if task.possible input then task.act input else task

/-- What a run that has ended reported: its last stop, or else how it
ended, once. -/
def Told : Option K × List (Report K) → Prop
  | (some done, reports) => reports = [.stopped done]
  | (none, reports) =>
    reports = [.complete] ∨ ∃ failure, reports = [.failed failure]

/-- The requests, the stops and the reports are counted right. -/
structure Booked (task : BtTask K) : Prop where
  counted : task.pendingSaves + task.answered = task.issued.length
  answered : task.answered ≤ task.issued.length
  writes : 0 ≤ task.pendingWrites
  issued : ∀ phase ∈ task.issued, phase ≠ .removing ∧ phase ≠ .idle
  quiet : task.phase ≠ .idle → task.reports = []
  stopped : task.stopped = if task.phase = .idle then none else task.lastStop
  outcome : task.phase = .saving ∨ task.phase = .removing →
    task.lastStop = none → task.outcome ≠ .stop
  ended : ∀ run ∈ task.ended, Told run
  runs : task.started = task.ended.length + if task.phase = .idle then 0 else 1

/-- In `Saving` something is outstanding. -/
structure Lawful (task : BtTask K) : Prop extends Booked task where
  saving : task.phase = .saving → 0 < task.pendingSaves ∨ 0 < task.pendingWrites

variable {task t : BtTask K}

theorem saveResume_lawful (hb : Booked t) (hp : t.phase ≠ .removing) (hi : t.phase ≠ .idle) :
    Lawful t.saveResume := by
  have hc := hb.counted
  have ha := hb.answered
  refine { hb with counted := ?_, answered := ?_, issued := ?_, saving := ?_ }
  · simp only [saveResume, List.length_append, List.length_singleton]
    omega
  · simp only [saveResume, List.length_append, List.length_singleton]
    omega
  · intro p hm
    rcases List.mem_append.mp hm with hm | hm
    · exact hb.issued p hm
    · rw [List.mem_singleton.mp hm]
      exact ⟨hp, hi⟩
  · intro _
    left
    simp only [saveResume]
    omega

theorem finish_lawful (hl : Lawful t) {outcome : Outcome}
    (ho : outcome = .stop → t.lastStop ≠ none) (f : Failure) : Lawful (t.finish outcome f) := by
  unfold finish
  split
  · exact hl
  · next hr =>
    rw [not_not] at hr
    have hs := hl.stopped
    have hru := hl.runs
    have hq := hl.quiet
    simp only [hr, reduceCtorEq, if_false] at hs hru
    apply saveResume_lawful
    · refine { hl.toBooked with quiet := ?_, stopped := ?_, outcome := ?_, runs := ?_ }
      · intro _
        exact hq (by rw [hr]; decide)
      · exact hs
      · intro _ hn hst
        exact ho hst hn
      · exact hru
    · intro hp
      cases hp
    · intro hp
      cases hp

theorem maybeRemove_lawful (hb : Booked t) : Lawful t.maybeRemove := by
  have hc := hb.counted
  have ha := hb.answered
  have hw := hb.writes
  unfold maybeRemove
  split
  · next hdo =>
    have hst := hb.stopped
    have hr := hb.runs
    simp only [hdo.1, reduceCtorEq, if_false] at hst hr
    refine { hb with quiet := ?_, stopped := ?_, outcome := ?_, runs := ?_, saving := ?_ }
    · intro _
      exact hb.quiet (by rw [hdo.1]; decide)
    · exact hst
    · intro _
      exact hb.outcome (.inl hdo.1)
    · exact hr
    · intro hs
      cases hs
  · next hbu =>
    refine { hb with saving := ?_ }
    intro hs
    by_contra hn
    exact hbu ⟨hs, by omega, by omega⟩

/-- A report ends the run. -/
theorem endRun_lawful (hb : Booked t) (hp : t.phase ≠ .idle) {stopped : Option K}
    (hs : stopped = none) {tl : Report K} (ht : Told (t.lastStop, [tl])) :
    Lawful ({ t with phase := .idle, stopped }.report tl).endRun := by
  have hr := hb.runs
  rw [if_neg hp] at hr
  refine { hb with quiet := ?_, stopped := ?_, outcome := ?_, ended := ?_,
                        runs := ?_, saving := ?_ }
  · intro hi
    exact absurd rfl hi
  · exact hs
  · intro hp
    rcases hp with hp | hp <;> cases hp
  · intro run hm
    simp only [endRun, report, hb.quiet hp, List.nil_append] at hm
    rcases List.mem_append.mp hm with hm | hm
    · exact hb.ended run hm
    · rw [List.mem_singleton.mp hm]
      exact ht
  · simp only [endRun, report, List.length_append, List.length_singleton, if_true]
    omega
  · intro hp
    cases hp

section

variable (hl : Lawful t)

include hl

theorem stopNoted_lawful (hp : t.phase ≠ .idle) (d : K) :
    Lawful { t with stopped := some d, lastStop := some d } := by
  refine { hl with stopped := ?_, outcome := ?_ }
  · exact (if_neg hp).symm
  · intro _ hn
    cases hn

theorem stop_lawful (done : K) : Lawful (t.stop done) := by
  unfold stop
  split
  · next hi =>
    refine { hl with quiet := ?_ }
    intro hp
    exact absurd hi hp
  · next hr =>
    have hp : t.phase ≠ .idle := by
      rw [hr]
      decide
    apply finish_lawful (stopNoted_lawful hl hp done)
    intro _ hn
    cases hn
  · next hi _ => exact stopNoted_lawful hl hi done

theorem start_lawful (hashCheckOnly : Bool) (th : Option String) :
    Lawful (t.start hashCheckOnly th) := by
  unfold start
  split
  · exact hl
  · next hi =>
    rw [not_not] at hi
    have hr := hl.runs
    have hs := hl.stopped
    simp only [hi, if_true] at hr hs
    have ha : Lawful { t with
        phase := .adding
        finished := false
        outcome := .stop
        hashCheckOnly
        started := t.started + 1
        lastStop := none
        reports := [] } := by
      refine { hl with quiet := ?_, stopped := ?_, outcome := ?_, runs := ?_, saving := ?_ }
      · intro _
        rfl
      · exact hs
      · intro hp
        rcases hp with hp | hp <;> cases hp
      · simp only [reduceCtorEq, if_false]
        omega
      · intro hp
        cases hp
    cases th with
    | none => exact ha
    | some m =>
      have hsa : t = { t with phase := .idle } := by
        cases t
        cases hi
        rfl
      rw [hsa]
      apply endRun_lawful ha.toBooked
      · intro hp
        cases hp
      · exact hs
      · exact .inr ⟨_, rfl⟩

theorem attached_lawful (ha : t.phase = .adding) : Lawful t.attached := by
  have hru := hl.runs
  have hs := hl.stopped
  simp only [ha, reduceCtorEq, if_false] at hru hs
  have hr : Lawful { t with phase := .running } := by
    refine { hl with quiet := ?_, stopped := ?_, outcome := ?_, runs := ?_, saving := ?_ }
    · intro _
      exact hl.quiet (by rw [ha]; decide)
    · exact hs
    · intro hp
      rcases hp with hp | hp <;> cases hp
    · exact hru
    · intro hp
      cases hp
  unfold attached
  dsimp only
  split
  · next hso =>
    apply finish_lawful hr
    intro _ hn
    change t.lastStop = none at hn
    rw [hs, hn] at hso
    cases hso
  · exact hr

theorem addFailed_lawful (ha : t.phase = .adding) (d : Bool) (m : String) :
    Lawful (t.addFailed d m) := by
  have hp : t.phase ≠ .idle := by
    rw [ha]
    decide
  have hs := hl.stopped
  rw [if_neg hp] at hs
  unfold addFailed
  dsimp only
  split
  · next dn hdo =>
    apply endRun_lawful hl.toBooked hp rfl
    rw [← hs, hdo]
    rfl
  · next hn =>
    apply endRun_lawful hl.toBooked hp hn
    rw [← hs, hn]
    exact .inr ⟨_, rfl⟩

theorem detached_lawful (hr : t.phase = .removing) : Lawful t.detached := by
  have hp : t.phase ≠ .idle := by
    rw [hr]
    decide
  have hs := hl.stopped
  rw [if_neg hp] at hs
  unfold detached
  dsimp only
  split
  · next d hdo =>
    apply endRun_lawful hl.toBooked hp rfl
    rw [← hs, hdo]
    rfl
  · next hn =>
    have hla : t.lastStop = none := hs.symm.trans hn
    split
    · apply endRun_lawful hl.toBooked hp hn
      rw [hla]
      exact .inl rfl
    · apply endRun_lawful hl.toBooked hp hn
      rw [hla]
      exact .inr ⟨_, rfl⟩
    · next ho =>
      exact absurd ho (hl.outcome (.inr hr) hla)

theorem saved_lawful (ho : t.answered < t.issued.length) : Lawful t.saved := by
  have hc := hl.counted
  have hw := hl.writes
  refine { hl with counted := ?_, answered := ho, writes := ?_, saving := ?_ }
  · simp only [saved]
    omega
  · simp only [saved]
    omega
  · intro _
    right
    simp only [saved]
    omega

theorem unsaved_lawful (ho : t.answered < t.issued.length) : Lawful t.unsaved := by
  have hc := hl.counted
  apply maybeRemove_lawful
  refine { hl.toBooked with counted := ?_, answered := ho }
  dsimp only
  omega

theorem written_lawful (ho : 0 < t.pendingWrites) : Lawful t.written := by
  apply maybeRemove_lawful
  refine { hl.toBooked with writes := ?_ }
  dsimp only
  omega

theorem evaluateSeeding_lawful (b : Bool) : Lawful (t.evaluateSeeding b) := by
  unfold evaluateSeeding
  split
  · exact hl
  split
  · apply finish_lawful hl
    intro hs
    cases hs
  · exact hl

theorem updated_lawful (s : Status) : Lawful (t.updated s) := by
  unfold updated
  split
  · exact hl
  · next hr =>
    apply evaluateSeeding_lawful
    split
    · apply saveResume_lawful
      · exact { hl.toBooked with }
      · intro hp
        exact hr (.inl (by rw [hp]; decide))
      · intro hp
        exact hr (.inl (by rw [hp]; decide))
    split
    · exact hl
    · exact { hl with }

end

/-- No metadata is applied to a torrent that is being removed. -/
def Timely (task : BtTask K) : Input K → Prop
  | .metadataReceived .applied => task.phase ≠ .removing
  | _ => True

instance : DecidablePred task.Timely := fun input => by
  unfold Timely
  split <;> infer_instance

theorem metadataReceived_lawful (hl : Lawful t) (ha : t.phase ≠ .idle) {m : Metadata K}
    (ht : Timely t (.metadataReceived m)) : Lawful (t.metadataReceived m) := by
  cases m with
  | missing => exact hl
  | awaiting d =>
    cases d with
    | none => exact hl
    | some d => exact stop_lawful hl d
  | applied => exact saveResume_lawful hl.toBooked ht ha
  | rejected me =>
    apply finish_lawful hl
    intro hs
    cases hs

theorem isAttached_ne_idle (ha : t.isAttached = true) : t.phase ≠ .idle := by
  intro hi
  simp [isAttached, hi] at ha

theorem step_lawful (hl : Lawful t) {i : Input K} (ht : Timely t i) : Lawful (t.step i) := by
  unfold step
  split
  case isFalse => exact hl
  case isTrue hp =>
    cases i with
    | start hashCheckOnly th => exact start_lawful hl hashCheckOnly th
    | attached => exact attached_lawful hl (of_decide_eq_true hp)
    | addFailed d m =>
      exact addFailed_lawful hl (of_decide_eq_true hp) d m
    | stop dn => exact stop_lawful hl dn
    | saved =>
      simp only [possible, Bool.and_eq_true, decide_eq_true_eq] at hp
      exact saved_lawful hl hp.2
    | unsaved =>
      simp only [possible, Bool.and_eq_true, decide_eq_true_eq] at hp
      exact unsaved_lawful hl hp.2
    | written => exact written_lawful hl (of_decide_eq_true hp)
    | metadataReceived me =>
      exact metadataReceived_lawful hl (isAttached_ne_idle hp) ht
    | torrentChecked =>
      rw [act]
      split
      · exact finish_lawful hl (fun hs => by cases hs) _
      · exact hl
    | fileError f m =>
      exact finish_lawful hl (fun hs => by cases hs) _
    | updated s => exact updated_lawful hl s
    | seedingChanged b => exact evaluateSeeding_lawful hl b
    | checkpoint =>
      rw [act, checkpoint]
      split
      · next hr =>
        apply saveResume_lawful hl.toBooked <;> rw [hr] <;> decide
      · exact hl
    | detached => exact detached_lawful hl (of_decide_eq_true hp)

theorem initial_lawful : Lawful ({} : BtTask K) where
  counted := rfl
  answered := Nat.le_refl 0
  writes := Int.le_refl 0
  issued := by simp
  quiet := by simp
  stopped := rfl
  outcome := by simp
  ended := by simp
  runs := rfl
  saving := by simp

/-- While no metadata is applied to a torrent that is being removed: the
pending saves are the unanswered requests, no request is made in `Removing` or
`Idle`, something is outstanding in `Saving`, every run that has ended made one
report, the callback of its last stop if it had one, and no other run but the
present one is without a report. -/
theorem run_saves_and_reports (inputs : List (Input K))
    (hmeets : Runs.Meets step Timely ({} : BtTask K) inputs) :
    let task := Runs.run step ({} : BtTask K) inputs
    task.pendingSaves = task.issued.length - task.answered ∧
    (∀ phase ∈ task.issued, phase ≠ .removing ∧ phase ≠ .idle) ∧
    (task.phase = .saving → task.answered < task.issued.length ∨ 0 < task.pendingWrites) ∧
    (∀ run ∈ task.ended, ∃ report, run.2 = [report] ∧ match run.1 with
      | some done => report = .stopped done
      | none => report = .complete ∨ ∃ failure, report = .failed failure) ∧
    (task.phase ≠ .idle → task.reports = []) ∧
    task.started = task.ended.length + if task.phase = .idle then 0 else 1 := by
  intro task
  have hstep : ∀ (before : BtTask K) (input : Input K), Lawful before →
      Timely before input → Lawful (before.step input) :=
    fun _ _ hlaw htimely => step_lawful hlaw htimely
  have hlaw : Lawful task := Runs.run_invariant hstep initial_lawful hmeets
  have hcounted := hlaw.counted
  refine ⟨by omega, hlaw.issued, ?_, ?_, hlaw.quiet, hlaw.runs⟩
  · intro hsaving
    rcases hlaw.saving hsaving with hsaves | hwrites
    · exact .inl (by omega)
    · exact .inr hwrites
  · rintro ⟨last, reports⟩ hmem
    have htold := hlaw.ended _ hmem
    cases last with
    | some done => exact ⟨_, htold, rfl⟩
    | none =>
      rcases htold with hcomplete | ⟨failure, hfailed⟩
      · exact ⟨_, hcomplete, .inl rfl⟩
      · exact ⟨_, hfailed, .inr ⟨failure, rfl⟩⟩

/-- A magnet link gets its metadata, seeds enough and is complete. -/
theorem run_saves_and_reports_complete : (Runs.run step ({} : BtTask Nat)
      [.start false none, .attached, .metadataReceived .applied, .saved,
        .written, .updated ⟨false, true, 10, true, false, false, true⟩, .saved,
        .unsaved, .written, .detached]).ended.length = 1 :=
  have hmeets : Runs.Meets step Timely ({} : BtTask Nat)
      [.start false none, .attached, .metadataReceived .applied, .saved,
        .written, .updated ⟨false, true, 10, true, false, false, true⟩, .saved,
        .unsaved, .written, .detached] := by decide
  (run_saves_and_reports _ hmeets).2.2.2.2.2.symm.trans (by decide)

/-- The metadata of a magnet link arrives while its torrent is being removed:
a save is requested in `Removing`, which libtorrent need not answer, and the
next run waits in `Saving` although its own save is answered and written. -/
theorem metadata_while_removing_saves : (Runs.run step ({} : BtTask Nat)
      [.start false none, .attached, .stop 1, .unsaved,
        .metadataReceived .applied]).issued = [.saving, .removing] ∧
    let task := Runs.run step ({} : BtTask Nat) [.start false none, .attached, .stop 1, .unsaved,
        .metadataReceived .applied, .detached, .start false none, .attached,
        .stop 2, .saved, .written]
    task.issued = [.saving, .removing, .saving] ∧ task.phase = .saving ∧
      task.pendingSaves = 1 ∧ task.pendingWrites = 0 := by
  decide

end BtTask

end Aria2Next
