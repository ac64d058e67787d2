/-
`core/Engine`: the task queue.  A task is known by its pointer, which never
changes its GID; the fields of `Task` the engine writes are kept per pointer.

What a task answers is an input: whether `stop` calls back before it returns,
whether `start` throws, whether it counts toward the concurrency limit.
Handlers posted to the event loop, the callbacks of `stop` and the disk jobs
that move files stay outstanding until an input runs them, so any order of
them is a list of inputs.
-/
import Aria2Next.OrdMap
import Aria2Next.Runs

namespace Aria2Next

abbrev Gid := Nat

/-- A GID as 16 hexadecimal digits. -/
def gidText (gid : Gid) : String :=
  let digits := Nat.toDigits 16 gid
  String.ofList (List.replicate (16 - digits.length) '0' ++ digits)

inductive TaskState where
  | waiting | active | paused | complete | error | removed
deriving DecidableEq, Repr

/-- `Event`, as far as the queue emits it. -/
inductive TaskEvent where
  | start | pause | stop | complete | error
deriving DecidableEq, Repr

/-- `Position` of `aria2.changePosition`. -/
inductive Position where
  | set | current | last
deriving DecidableEq, Repr

/-- A pointer to a task. -/
structure TaskRef where
  gid : Gid
  serial : Nat
deriving DecidableEq, Repr

/-- The global options the queue reads. -/
structure Settings where
  maxConcurrentDownloads : Nat
  maxDownloadResult : Nat
  keepUnfinishedDownloadResult : Bool
  enableRpc : Bool
deriving DecidableEq, Repr

/-- A task being moved to another directory. -/
structure Move where
  resume : Bool
  started : Bool
deriving DecidableEq, Repr

/-- A handler posted to the event loop. -/
inductive Posted where
  | fill
  /-- The retirement of a task that reported, `failed` or complete. -/
  | retire (task : TaskRef) (failed : Bool)
  | handOver (current next : TaskRef)
  | finishShutdown
deriving DecidableEq, Repr

instance lawfulBEqStop : LawfulBEq (TaskRef × TaskState) := inferInstance

structure Engine where
  settings : Settings
  tasks : OrdMap Gid TaskRef := ∅
  active : List TaskRef := []
  waiting : List TaskRef := []
  stopped : List TaskRef := []
  state : TaskRef → TaskState := fun _ => .waiting
  stopping : TaskRef → Bool := fun _ => false
  moving : OrdMap Gid Move := ∅
  scheduled : Bool := false
  shuttingDown : Bool := false
  forceShutdown : Bool := false
  finished : Bool := false
  stoppedTotal : Nat := 0
  posted : List Posted := []
  /-- Callbacks of `Task::stop` that have not run, with the state they set. -/
  stops : List (TaskRef × TaskState) := []
  /-- Disk jobs that move the files of a task. -/
  moveJobs : List TaskRef := []
  emitted : List (TaskEvent × TaskRef) := []
  /-- The `done` calls of `relocate`, with their error messages. -/
  moved : List (TaskRef × String) := []

namespace Engine

/-- What the tasks answer while a handler runs. -/
structure Answers where
  /-- `stop` calls back before it returns. -/
  atOnce : TaskRef → Bool := fun _ => false
  /-- `start` throws. -/
  throws : TaskRef → Bool := fun _ => false
  countsTowardConcurrency : TaskRef → Bool := fun _ => true

variable (engine : Engine) (task : TaskRef) (answers : Answers)

def setState (state : TaskState) : Engine :=
  { engine with state := Function.update engine.state task state }

def setStopping (stopping : Bool) : Engine :=
  { engine with stopping := Function.update engine.stopping task stopping }

def emit (event : TaskEvent) (task : TaskRef) : Engine :=
  { engine with emitted := engine.emitted ++ [(event, task)] }

def post (handler : Posted) : Engine :=
  { engine with posted := engine.posted ++ [handler] }

def schedule : Engine :=
  if engine.scheduled then engine
  else { engine.post .fill with scheduled := true }

def find (engine : Engine) (gid : Gid) : Option TaskRef := engine.tasks.find? gid

def add (paused : Bool) (position : Option Nat) : Engine :=
  let at_ := min (position.getD engine.waiting.length) engine.waiting.length
  schedule
    { engine.setState task (if paused then .paused else .waiting) with
      tasks := engine.tasks.insert task.gid task
      waiting := engine.waiting.insertIdx at_ task }

/-- The loop of `retire` that keeps at most `max-download-result` results;
`kept` are those it has stepped over. -/
def trimResults (engine : Engine) (kept : List TaskRef) : List TaskRef → Engine
  | [] => { engine with stopped := kept }
  | task :: rest =>
    if kept.length + (rest.length + 1) > engine.settings.maxDownloadResult
    then
      if engine.settings.keepUnfinishedDownloadResult ∧
          engine.state task ≠ .complete then
        trimResults engine (kept ++ [task]) rest
      else
        trimResults { engine with tasks := engine.tasks.erase task.gid } kept rest
    else { engine with stopped := kept ++ task :: rest }

/-- The event a retired task emits. -/
def retireEvent : TaskState → TaskEvent
  | .complete => .complete
  | .error => .error
  | _ => .stop

def retire (state : TaskState) : Engine :=
  let engine :=
    { (engine.setState task state).emit (retireEvent state) task with
      active := engine.active.filter (· ≠ task)
      stopped := engine.stopped ++ [task]
      stoppedTotal := engine.stoppedTotal + 1 }
  (engine.trimResults [] engine.stopped).schedule

/-- Starts the disk job that moves the files of a task. -/
def moveFilesOf : Engine :=
  match engine.moving.find? task.gid with
  | none => engine
  | some move =>
    { engine with
      moving := engine.moving.insert task.gid { move with started := true }
      moveJobs := engine.moveJobs ++ [task] }

def finishShutdown : Engine := { engine with finished := true }

/-- A task waiting to be moved has stopped: its files move now, unless it is
not paused. -/
def continueMove : Engine :=
  match engine.moving.find? task.gid with
  | none => engine
  | some move =>
    if move.started then engine
    else if engine.state task = .paused ∧ engine.shuttingDown = false then
      engine.moveFilesOf task
    else
      { engine with
        moving := engine.moving.erase task.gid
        moved := engine.moved ++ [(task, "The download stopped before it could be moved")] }

/-- The queue part of the callback `stopTask` gives to `Task::stop`. -/
def leaveActive (next : TaskState) : Engine :=
  let engine :=
    { engine.setStopping task false with
      active := engine.active.filter (· ≠ task) }
  match next with
  | .paused =>
    { (engine.setState task .paused).emit .pause task with
      waiting := task :: engine.waiting }
  | .waiting =>
    { engine.setState task .waiting with
      waiting := task :: engine.waiting }
  | _ => engine.retire task .removed

/-- The callback `stopTask` gives to `Task::stop`. -/
def stopDone (next : TaskState) : Engine :=
  let engine := (engine.leaveActive task next).continueMove task
  (if engine.shuttingDown ∧ engine.active = [] then engine.finishShutdown
    else engine).schedule

def stopTask (next : TaskState) (atOnce : Bool) : Engine :=
  let engine := engine.setStopping task true
  if atOnce then engine.stopDone task next
  else { engine with stops := engine.stops ++ [(task, next)] }

/-- Remembers whether a task that is being moved resumes afterwards. -/
def setResume (resume : Bool) : Engine :=
  match engine.moving.find? task.gid with
  | none => engine
  | some move =>
    { engine with
      moving := engine.moving.insert task.gid { move with resume } }

def pause (engine : Engine) (task : TaskRef) (atOnce : Bool) : Engine :=
  let engine := engine.setResume task false
  match engine.state task with
  | .waiting => (engine.setState task .paused).emit .pause task
  | .active =>
    if engine.stopping task then engine
    else engine.stopTask task .paused atOnce
  | _ => engine

def unpause : Engine :=
  if engine.moving.contains task.gid then engine.setResume task true
  else if engine.state task = .paused then
    (engine.setState task .waiting).schedule
  else engine

def remove (force atOnce : Bool) : Except String Engine :=
  if engine.moving.contains task.gid then
    .error "Wait until the download has been moved"
  else
    match engine.state task with
    | .waiting | .paused =>
      .ok ({ engine with
        waiting := engine.waiting.filter (· ≠ task) }.retire task .removed)
    | .active =>
      if engine.stopping task = false ∨ force then
        .ok (engine.stopTask task .removed atOnce)
      else .ok engine
    | _ => .ok engine

def setAllResume (resume : Bool) : Engine :=
  { engine with
    moving := engine.moving.mapValues fun _ move => { move with resume } }

/-- The second loop of `pauseAll`. -/
def pauseWaiting : Engine :=
  if engine.state task = .waiting then
    (engine.setState task .paused).emit .pause task
  else engine

def pauseAll : Engine :=
  let engine := engine.setAllResume false
  let engine := engine.active.foldl (fun engine task =>
    engine.pause task (answers.atOnce task)) engine
  engine.waiting.foldl pauseWaiting engine

/-- The loop of `unpauseAll`. -/
def unpauseWaiting : Engine :=
  if engine.state task = .paused ∧ engine.moving.contains task.gid = false then
    engine.setState task .waiting
  else engine

def unpauseAll : Engine :=
  let engine := engine.setAllResume true
  (engine.waiting.foldl unpauseWaiting engine).schedule

/-- Moves an unfinished task's files to another directory; `movable` tells
whether this kind of download can move. -/
def relocate (movable atOnce : Bool) : Except String Engine :=
  if engine.moving.contains task.gid then
    .error "This download is already being moved"
  else if movable = false then .error "This download cannot be moved"
  else
    let moving (resume : Bool) : Engine :=
      { engine with
        moving := engine.moving.insert task.gid { resume, started := false } }
    match engine.state task with
    | .waiting =>
      .ok (((moving true).setState task .paused).moveFilesOf task)
    | .paused => .ok ((moving false).moveFilesOf task)
    | .active =>
      if engine.stopping task then .ok (moving true)
      else .ok ((moving true).stopTask task .paused atOnce)
    | _ => .error "Only unfinished downloads can be moved"

/-- The disk job of `moveFilesOf` has ended. -/
def moveDone (error : String) : Engine :=
  match engine.moving.find? task.gid with
  | none => engine
  | some move =>
    let engine := { engine with moving := engine.moving.erase task.gid }
    let engine := if move.resume then engine.unpause task else engine
    { engine with moved := engine.moved ++ [(task, error)] }

/-- Changes the place of a task in the waiting queue. -/
def move (offset : Int) (how : Position) : Except String (Nat × Engine) :=
  if task ∈ engine.waiting then
    let current := engine.waiting.idxOf task
    let rest := engine.waiting.erase task
    let target : Int := match how with
      | .set => offset
      | .current => current + offset
      | .last => rest.length + offset
    let place := (max 0 (min target rest.length)).toNat
    .ok (place, { engine with waiting := rest.insertIdx place task })
  else .error ("GID " ++ gidText task.gid ++ " is not in the waiting queue")

def removeResult (gid : Gid) : Bool × Engine :=
  match engine.stopped.find? (fun task => task.gid = gid) with
  | none => (false, engine)
  | some task =>
    (true,
      { engine with
        tasks := engine.tasks.erase gid
        stopped := engine.stopped.erase task })

def requeue : Except String Engine :=
  if task ∈ engine.stopped then
    .ok (schedule
      { engine.setState task .waiting with
        stopped := engine.stopped.erase task
        waiting := engine.waiting ++ [task] })
  else .error ("GID " ++ gidText task.gid ++ " is not a stopped task")

/-- `Task::complete` and `Task::failed` only post the retirement. -/
def report (failed : Bool) : Engine :=
  engine.post (.retire task failed)

/-- An active task gives its slot to a task of another kind with the same
GID. -/
def handOver (current next : TaskRef) (throws : Bool) : Engine :=
  if current ∈ engine.active ∧ next.gid = current.gid then
    let engine :=
      { (engine.setState next .active).setState current .removed with
        active := engine.active.replace current next
        tasks := engine.tasks.insert next.gid next }
    if throws then engine.report next true else engine
  else engine

def purgeResults : Engine :=
  { engine with
    tasks := engine.stopped.foldl (fun tasks task => tasks.erase task.gid)
      engine.tasks
    stopped := [] }

def startTask (throws : Bool) : Engine :=
  let engine :=
    { (engine.setState task .active).emit .start task with
      active := engine.active ++ [task] }
  if throws then engine.report task true else engine

def activeCount : Nat :=
  engine.active.countP answers.countsTowardConcurrency

/-- The loop of `fill`; `kept` are the tasks it has stepped over. -/
def startWaiting (engine : Engine) (answers : Answers) (kept : List TaskRef) : List TaskRef → Engine
  | [] => { engine with waiting := kept }
  | task :: rest =>
    if engine.activeCount answers < engine.settings.maxConcurrentDownloads
    then
      if engine.state task = .waiting then
        startWaiting (engine.startTask task (answers.throws task)) answers kept rest
      else startWaiting engine answers (kept ++ [task]) rest
    else { engine with waiting := kept ++ task :: rest }

/-- The loop of `shutdown`. -/
def stopForShutdown (force : Bool) (answers : Answers) (engine : Engine)
    (task : TaskRef) : Engine :=
  if engine.stopping task = false ∨ force then
    engine.stopTask task .waiting (answers.atOnce task)
  else engine

def shutdown (force : Bool) (answers : Answers) : Engine :=
  if engine.shuttingDown ∧ ¬ (force ∧ engine.forceShutdown = false) then engine
  else
    let engine :=
      { engine with
        shuttingDown := true
        forceShutdown := engine.forceShutdown || force }
    if engine.active = [] then engine.post .finishShutdown
    else engine.active.foldl (stopForShutdown force answers) engine

def fill : Engine :=
  if engine.shuttingDown then engine
  else
    let engine := engine.startWaiting answers [] engine.waiting
    let queued := engine.waiting.any fun task => engine.state task = .waiting
    if engine.active = [] ∧ queued = false ∧
        engine.settings.enableRpc = false then
      engine.shutdown false answers
    else engine

/-- Runs a handler the event loop has taken from its queue. -/
def handle : Posted → Engine
  | .fill => { engine with scheduled := false }.fill answers
  | .retire task failed =>
    engine.retire task (if failed then .error else .complete)
  | .handOver current next =>
    engine.handOver current next (answers.throws next)
  | .finishShutdown => engine.finishShutdown

/-- A call of the engine, or something outstanding that runs. -/
inductive Input where
  | add (task : TaskRef) (paused : Bool) (position : Option Nat)
  | pause (gid : Gid) (answers : Answers)
  | unpause (gid : Gid)
  | remove (gid : Gid) (force : Bool) (answers : Answers)
  | pauseAll (answers : Answers)
  | unpauseAll
  | relocate (gid : Gid) (movable : Bool) (answers : Answers)
  | move (gid : Gid) (offset : Int) (how : Position)
  | removeResult (gid : Gid)
  | requeue (gid : Gid)
  | purgeResults
  | configure (settings : Settings)
  | shutdown (force : Bool) (answers : Answers)
  /-- A running task reports `complete()` or `failed()`. -/
  | report (task : TaskRef) (failed : Bool)
  /-- A running task found a manifest and posts `handOver`. -/
  | offer (current next : TaskRef)
  /-- The event loop runs a posted handler. -/
  | handle (handler : Posted) (answers : Answers)
  /-- The callback of an earlier `stop` runs. -/
  | stopDone (task : TaskRef) (next : TaskState)
  /-- A disk job that moved files calls back. -/
  | moveDone (task : TaskRef) (error : String)

/-- A call that fails leaves the engine as it is. -/
def orKeep : Except String Engine → Engine
  | .ok next => next
  | .error _ => engine

/-- RPC calls look their task up; an unknown GID changes nothing. -/
def withTask (gid : Gid) (f : TaskRef → Engine) : Engine :=
  match engine.find gid with
  | none => engine
  | some task => f task

def step : Input → Engine
  | .add task paused position => engine.add task paused position
  | .pause gid answers => engine.withTask gid fun task =>
    engine.pause task (answers.atOnce task)
  | .unpause gid => engine.withTask gid engine.unpause
  | .remove gid force answers => engine.withTask gid fun task =>
    engine.orKeep (engine.remove task force (answers.atOnce task))
  | .pauseAll answers => engine.pauseAll answers
  | .unpauseAll => engine.unpauseAll
  | .relocate gid movable answers => engine.withTask gid fun task =>
    engine.orKeep (engine.relocate task movable (answers.atOnce task))
  | .move gid offset how => engine.withTask gid fun task =>
    engine.orKeep ((engine.move task offset how).map Prod.snd)
  | .removeResult gid => (engine.removeResult gid).2
  | .requeue gid => engine.withTask gid fun task =>
    engine.orKeep (engine.requeue task)
  | .purgeResults => engine.purgeResults
  | .configure settings => { engine with settings }.schedule
  | .shutdown force answers => engine.shutdown force answers
  | .report task failed =>
    if task ∈ engine.active then engine.report task failed else engine
  | .offer current next =>
    if current ∈ engine.active then engine.post (.handOver current next)
    else engine
  | .handle handler answers =>
    if handler ∈ engine.posted then
      { engine with posted := engine.posted.erase handler }.handle answers handler
    else engine
  | .stopDone task next =>
    if (task, next) ∈ engine.stops then
      { engine with stops := engine.stops.erase (task, next) }.stopDone task
        next
    else engine
  | .moveDone task error =>
    if task ∈ engine.moveJobs then
      { engine with moveJobs := engine.moveJobs.erase task }.moveDone task error
    else engine

end Engine

end Aria2Next
