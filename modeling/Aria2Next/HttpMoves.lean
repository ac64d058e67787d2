/-
What the callbacks of an HTTP task can do, said once.  A `Move` is a change
that happens as a whole, with the guards the code puts before it; every
callback is a sequence of moves, so a property that each move preserves is an
invariant of the task.

A `Rule` is what a run is known to keep to, and some moves carry a guard that
need only hold under it; with a rule that demands nothing the moves are all
that the code can do.
-/
import Aria2Next.HttpTransfer

namespace Aria2Next

universe u

variable {F : Type u} [Double F]

/-- The assignment of a worker: position, end and requested end. -/
def SegmentPlanner.spans (planner : SegmentPlanner F) (id : Int) : Option (Int × Int × Int) :=
  (planner.workers.find? id).map fun worker =>
    (worker.position, worker.stop, worker.requestEnd)

namespace HttpTask

/-- The fields of the task that the invariants are about. -/
structure Frame where
  options : Options
  sources : List Source
  nextSource : Nat
  workers : OrdMap Int Worker
  nextWorkerId : Int
  spans : Int → Option (Int × Int × Int)
  length : Int
  minSplit : Int
  output : Bool
  held : List Piece
  phase : Phase
  /-- A stop is about to be answered. -/
  closing : Bool
  path : String
  suffix : String
  owned : Bool
  stored : Option TransferRecord
  writes : List Write
  opens : List Open
  adopted : List String
  reports : List Report

def frame (task : HttpTask F) : Frame :=
  { options := task.options, sources := task.sources,
    nextSource := task.nextSource, workers := task.workers,
    nextWorkerId := task.nextWorkerId, spans := task.planner.spans,
    length := task.planner.length, minSplit := task.planner.minSplit,
    output := task.output, held := task.held, phase := task.phase,
    closing := task.jobs.contains .stopClosed, path := task.path,
    suffix := task.suffix, owned := task.owned, stored := task.stored,
    writes := task.writes, opens := task.opens,
    adopted := task.adopted, reports := task.reports }

/-- The fields of a worker that only particular moves change. -/
def Worker.key (worker : Worker) :=
  (worker.source, worker.begin, worker.requestEnd, worker.accepted,
    worker.buffer, worker.bufferOffset, worker.body, worker.origin)

/-- The ways the planner learns of a new worker, with the range it
requests. -/
inductive Planned (planner : SegmentPlanner F) (id : Int) :
    SegmentPlanner F → Int → Int → Prop
  | place (requestEnd : Int) (hrequest : requestEnd = unbounded ∨
      0 ≤ planner.length ∧ requestEnd = planner.length) :
      Planned planner id (planner.place id 0 requestEnd) 0 unbounded
  | assign {range : Range} {next : SegmentPlanner F}
      (hassign : planner.assign id = (some range, next)) :
      Planned planner id next range.1 range.2

/-- A worker that has just been started. -/
structure Worker.Fresh (worker : Worker) : Prop where
  accepted : worker.accepted = false
  done : worker.done = false
  buffer : worker.buffer = []
  body : worker.body = []

/-- The phases in which connections exist. -/
def Live (task : HttpTask F) : Prop :=
  task.phase = .probing ∨ task.phase = .opening ∨ task.phase = .running

/-- The fields that decide which file is opened and how. -/
structure Title where
  options : Options
  phase : Phase
  path : String
  suffix : String
  owned : Bool
  stored : Option TransferRecord
  opens : List Open
  adopted : List String
  reports : List Report

def title (task : HttpTask F) : Title :=
  { options := task.options, phase := task.phase, path := task.path,
    suffix := task.suffix, owned := task.owned, stored := task.stored,
    opens := task.opens, adopted := task.adopted, reports := task.reports }

/-- The file on disk is not an adopted one. -/
def Title.Clear (title : Title) : Prop := ∀ path ∈ title.adopted, title.path ++ title.suffix ≠ path

/-- The file on disk is an adopted one that the task takes for its own. -/
def Title.Exposed (title : Title) : Prop := title.owned = true ∧ ¬ title.Clear

/-- The length is set for a task without connections, or where a stream of
unknown length ends. -/
inductive Measured (task : HttpTask F) : Int → Prop
  | quiet {length : Int} (hnonneg : 0 ≤ length) (hworkers : task.workers = ∅)
      (hheld : task.held = [] ∨ task.phase = .idle) : Measured task length
  | stream {length id stop requestEnd : Int} (hlength : task.planner.length < 0) (hlive : task.Live)
      (hspan : task.planner.spans id = some (length, stop, requestEnd)) :
      Measured task length

/-- A change of a mirror that leaves it in use, or another one. -/
def Spared (task : HttpTask F) (index : Nat) (f : Source → Source) : Prop :=
  (∀ source, (f source).dead = source.dead) ∨ task.otherAlive index = true ∨
    (task.sources.filter fun source => !source.dead).length > 1

/-- The proposition that a rule is read as stands for the assumptions under
which an adopted file is safe; `spares` forbids to give up the last mirror. -/
structure Rule where
  safe : Prop := False
  spares : Prop := False

instance : CoeSort Rule Prop := ⟨Rule.safe⟩

inductive Move (strict : Rule) : HttpTask F → HttpTask F → Prop
  | frame {task next : HttpTask F} (hframe : next.frame = task.frame) : Move strict task next
  | touch {task : HttpTask F} {id : Int} {worker next : Worker}
      (hfind : task.workers.find? id = some worker)
      (hkey : next.key = worker.key)
      (hdone : worker.done = true → next.done = true) :
      Move strict task { task with workers := task.workers.insert id next }
  | accept {task : HttpTask F} {id : Int} {worker : Worker}
      (hfind : task.workers.find? id = some worker)
      (hphase : task.phase = .opening ∨ task.phase = .running) :
      Move strict task { task with
        workers := task.workers.insert id { worker with accepted := true } }
  | flush (task : HttpTask F) (id : Int) : Move strict task (task.flush id)
  | retire (task : HttpTask F) (now id : Int) : Move strict task (task.retireWorker now id)
  | release {task : HttpTask F} {id : Int} (hnone : task.workers.find? id = none) :
      Move strict task { task with planner := task.planner.release id }
  | launch {task : HttpTask F} {planner : SegmentPlanner F} {worker : Worker} {mirror : Source}
      (hplan : Planned task.planner task.nextWorkerId planner worker.begin worker.requestEnd)
      (hfresh : worker.Fresh)
      (hmirror : task.sources[worker.source]? = some mirror)
      (horigin : worker.origin = (mirror.uid, mirror.uri))
      (hphase : task.phase = .probing ∧ worker.begin = 0 ∨ task.phase = .running ∧
          (task.planner.length < 0 → task.workers = ∅)) :
      Move strict task { task with
        nextWorkerId := task.nextWorkerId + 1
        planner
        sources := task.sources.modify worker.source fun mirror =>
          { mirror with active := mirror.active + 1, used := true }
        workers := task.workers.insert task.nextWorkerId worker }
  | decline {task : HttpTask F} {planner : SegmentPlanner F} {begin requestEnd : Int}
      (hplan : Planned task.planner task.nextWorkerId planner begin requestEnd) :
      Move strict task { task with
        nextWorkerId := task.nextWorkerId + 1
        planner := planner.release task.nextWorkerId }
  | setLength {task : HttpTask F} {length : Int} (hmeasured : task.Measured length) :
      Move strict task { task with planner := task.planner.setLength length }
  | consume {task next : HttpTask F} {facts : Facts F} {id : Int}
      {worker : Worker} {rounds : Nat} {chunk rest : List UInt8}
      {how : ChunkEnd} (hfind : task.workers.find? id = some worker)
      (hdone : worker.done = false)
      (hphase : task.phase = .opening ∨ task.phase = .running)
      (hconsume : consume facts id rounds { task with
        workers := task.workers.insert id
          { worker with body := worker.body ++ chunk } } chunk = some (next, rest, how)) :
      Move strict task next
  | define {task : HttpTask F} (now : Int) {id : Int} {worker : Worker}
      (total : Int) (hphase : task.phase = .probing)
      (hfind : task.workers.find? id = some worker) :
      Move strict task { { task with
        workers := task.workers.insert id { worker with accepted := true }
        }.settle now id total with phase := .opening }
  | opened {task : HttpTask F} (hphase : task.phase = .opening) :
      Move strict task (task.held.foldl write { task with phase := .running, held := [] })
  | reset {task : HttpTask F} {phase : Phase} (hphase : phase = .probing ∨ phase = .opening)
      (hrest : task.phase = .restarting ∨ .stopClosed ∉ task.jobs)
      (hstrict : strict → phase = .probing → ¬ task.title.Exposed) :
      Move strict task { task.reset with phase }
  | leave (task : HttpTask F) (now : Int) {phase : Phase}
      (hphase : phase = .done ∨ phase = .stopping) :
      Move strict task ({ task with phase }.cancelAll now)
  | restart {task : HttpTask F} {now : Int} (hlive : task.Live)
      (hstrict : strict → ¬ task.title.Exposed) :
      Move strict task { { task with phase := .restarting }.retireAll now with
        stored := none }
  | closing {task : HttpTask F} (hphase : task.phase = .stopping) :
      Move strict task (task.queue .stopClosed)
  | callback (task : HttpTask F) (job : Job) :
      Move strict task { task with jobs := task.jobs.erase job }
  | idle {task : HttpTask F} (hphase : task.phase = .stopping ∨
        task.phase = .idle ∨ task.phase = .done) :
      Move strict task { task with output := false, phase := .idle }
  | finishing {task : HttpTask F} (hworkers : task.workers = ∅)
      (hphase : task.phase = .running) (houtput : task.output = true) :
      Move strict task { task with phase := .finishing }
  | leaveFinishing {task : HttpTask F} {phase : Phase} (hphase : task.phase = .finishing)
      (hnext : phase = .running ∨ phase = .opening) :
      Move strict task { task with phase }
  | closeOutput (task : HttpTask F) : Move strict task { task with output := false }
  | source {task : HttpTask F} (index : Nat) {f : Source → Source}
      (hkeep : ∀ source, (f source).uid = source.uid ∧
        (f source).uri = source.uri ∧ (f source).active = source.active)
      (hspared : strict.spares → task.Spared index f) :
      Move strict task { task with sources := task.sources.modify index f }
  | openOutput {task : HttpTask F} {truncate : Bool} (hphase : task.phase = .opening)
      (hstrict : strict → truncate = true → task.title.Clear) :
      Move strict task (task.openOutput truncate)
  | checkpoint (task : HttpTask F) (complete : Bool) : Move strict task (task.checkpoint complete)
  | forgetRecord {task : HttpTask F} (hstrict : strict → task.adopted = []) :
      Move strict task { task with stored := none }
  | claim {task : HttpTask F} (record : TransferRecord) (hstrict : strict → task.adopted = []) :
      Move strict task { task with stored := some record }
  | resume {task : HttpTask F} {record : TransferRecord} (suffix : String)
      (hstored : task.stored = some record) (hpositive : 0 < record.totalLength)
      (hcontrol : task.options.removeControlFile = false)
      (hdry : task.options.dryRun = false)
      (hsuffix : suffix = "" ∨ suffix = task.options.incompleteSuffix)
      (hphase : task.phase = .opening ∨ task.phase = .idle)
      (hworkers : task.workers = ∅) :
      Move strict task { task with
        path := record.path, suffix, owned := true }
  | adopt {task : HttpTask F} (path : String) (hpath : task.path = "")
      (hcontinue : task.options.continue_ = true)
      (hphase : task.phase = .opening) :
      Move strict task { task with
        path
        suffix := ""
        owned := false
        adopted := path :: task.adopted }
  | own {task : HttpTask F} {path suffix : String} (hphase : task.phase = .opening)
      (hsuffix : suffix = "" ∨ suffix = task.options.incompleteSuffix)
      (hstrict : strict → ∀ adopted ∈ task.adopted, path ++ suffix ≠ adopted) :
      Move strict task { task with path, suffix, owned := true }
  | rename {task : HttpTask F} {path : String} (hphase : task.phase = .finishing)
      (hstrict : strict → path ≠ task.path → ∀ adopted ∈ task.adopted,
          path ++ task.suffix ≠ adopted) :
      Move strict task { task with path }
  | succeed {task : HttpTask F} (hphase : task.phase = .finishing) :
      Move strict task { task with
        suffix := ""
        phase := .done
        stored := none
        reports := task.reports ++ [.complete] }
  | report (task : HttpTask F) (report : Report) : Move strict task (task.report report)

/-- A sequence of moves. -/
def Moves (strict : Rule) : HttpTask F → HttpTask F → Prop := Relation.ReflTransGen (Move strict)

namespace Moves

variable {s : Rule} {t n last : HttpTask F}

theorem refl (t : HttpTask F) : Moves s t t := Relation.ReflTransGen.refl

theorem one (hm : Move s t n) : Moves s t n := .single hm

theorem trans (hf : Moves s t n) (hl : Moves s n last) : Moves s t last :=
  Relation.ReflTransGen.trans hf hl

theorem frame (hf : n.frame = t.frame) : Moves s t n := one (.frame hf)

/-- Other fields may change before a sequence of moves. -/
theorem after (hl : Moves s n last) (hf : n.frame = t.frame) : Moves s t last :=
  (frame hf).trans hl

/-- What each move preserves, every sequence of moves preserves. -/
theorem preserve {motive : HttpTask F → Prop} (hmo : ∀ {t n}, Move s t n → motive t → motive n)
    (hm : Moves s t n) (ht : motive t) : motive n := by
  induction hm with
  | refl => exact ht
  | tail _ hl ih => exact hmo hl ih

theorem foldl {A : Type*} {f : HttpTask F → A → HttpTask F} (hs : ∀ t i, Moves s t (f t i))
    (l : List A) (t : HttpTask F) : Moves s t (l.foldl f t) := by
  induction l generalizing t with
  | nil => exact refl t
  | cons i r ih => exact (hs t i).trans (ih (f t i))

end Moves

end HttpTask

end Aria2Next
