/-
`http/SegmentPlanner`: which byte range each connection downloads.  The task
reports bytes and outcomes; the planner answers with assignments, extensions
and cancellations.

Offsets are integers and the `end` of a range is called `stop`.  Speeds and
times are any `Double`.  A lookup with `at` that would throw is `none`.
-/
import Aria2Next.Double
import Aria2Next.OrdMap
import Aria2Next.Ranges

namespace Aria2Next

universe u

/-- The end of a range whose length is not known. -/
def unbounded : Int := 2 ^ 63 - 1

/-- `std::clamp` on integers. -/
def clampInt (value low high : Int) : Int :=
  if value < low then low else if high < value then high else value

/-- The planner's view of a connection. -/
structure SegmentPlanner.Worker (F : Type u) where
  /-- Next byte this worker will receive. -/
  position : Int
  /-- Assigned end, exclusive; may shrink. -/
  stop : Int
  /-- End the request asked for, exclusive. -/
  requestEnd : Int
  /-- Has received payload bytes. -/
  receiving : Bool
  speed : F
  /-- Seconds of speed samples since assignment. -/
  age : F
deriving DecidableEq, Repr

structure SegmentPlanner (F : Type u) [Double F] where
  minSplit : Int
  length : Int := -1
  received : RangeSet := ∅
  workers : OrdMap Int (SegmentPlanner.Worker F) := ∅
  /-- Fastest smoothed connection speed seen. -/
  peakSpeed : F := Double.ofInt 0
  /-- Smoothed request-to-first-byte seconds. -/
  startup : F := Double.ofInt 0

namespace SegmentPlanner

variable {F : Type u} [Double F]

/-- Splits land on page boundaries so writes stay aligned. -/
def alignment : Int := 4096

/-- A new connection gets this long to show its speed before it is raced. -/
def raceSeconds : F := Double.ofInt 2

/-- Speed samples younger than this still show TCP slow start. -/
def measureSeconds : F := Double.ofInt 1

/-- A copy is started only for a range that needs at least this long. -/
def minRaceSeconds : F := Double.ofRat (1 / 2)

/-- Ranges are never split below this, however slow the connection. -/
def minSplitFloor : Int := 65536

/-- Copies of one range that are delivering or still starting. -/
def maxCopies : Nat := 3

def positive (value : F) : Bool := Double.lt (Double.ofInt 0) value

/-- The speed a connection is expected to keep: its own once measured, the
typical one before that. -/
def expectedSpeed (worker : Worker F) (typical : F) : F :=
  if worker.receiving && Double.le measureSeconds worker.age &&
      positive worker.speed then worker.speed
  else typical

/-- A worker that has just been given a range to request. -/
def freshWorker (range : Range) : Worker F :=
  { position := range.1, stop := range.2, requestEnd := range.2,
    receiving := false, speed := Double.ofInt 0, age := Double.ofInt 0 }

variable (planner : SegmentPlanner F) (id : Int)

def setLength (length : Int) : SegmentPlanner F :=
  { planner with
    length
    workers := planner.workers.mapValues fun _ worker =>
      { worker with
        stop := min worker.stop length
        requestEnd := min worker.requestEnd length } }

def restore (ranges : List Range) : SegmentPlanner F :=
  { planner with
    received := ranges.foldl (fun set range => set.add range.1 range.2)
      planner.received }

def reset : SegmentPlanner F :=
  { planner with
    received := ∅
    workers := ∅
    length := -1
    peakSpeed := Double.ofInt 0 }

/-- Registers a worker for an explicit request. -/
def place (begin requestEnd : Int) : SegmentPlanner F :=
  let stop := if planner.length ≥ 0 then min requestEnd planner.length
    else requestEnd
  { planner with
    workers := planner.workers.insert id
      { freshWorker (begin, stop) with requestEnd } }

def complete : Bool :=
  planner.length ≥ 0 && planner.received.contains 0 planner.length

def typicalSpeed (except : Int) : F :=
  let total := planner.workers.entries.foldl (fun (sum, count) entry =>
    if entry.1 ≠ except ∧ entry.2.receiving ∧ positive entry.2.speed then
      (sum + entry.2.speed, count + 1)
    else (sum, count)) ((Double.ofInt 0 : F), (0 : Int))
  if total.2 ≠ 0 then total.1 / Double.ofInt total.2 else Double.ofInt 0

/-- What a range must leave on both sides of a split at this speed. -/
def minSplitFor (speed : F) : Int :=
  if Double.le speed (Double.ofInt 0) ||
      Double.le planner.startup (Double.ofInt 0) then planner.minSplit
  else
    let worth := Double.toInt (Double.ofInt 2 * speed * planner.startup)
    clampInt worth (min minSplitFloor planner.minSplit) planner.minSplit

/-- Everything received or still assigned inside the length. -/
def owned : RangeSet := planner.workers.entries.foldl (fun set entry =>
    set.add entry.2.position (min entry.2.stop planner.length))
    planner.received

/-- The loop of `largestGap`; every gap ends later than it started, so the
distance to the limit bounds the rounds. -/
def widestGap (owned : RangeSet) (limit : Int) : Nat → Int → Option Range → Option Range
  | 0, _, best => best
  | rounds + 1, start, best =>
    match owned.firstGap start limit with
    | none => best
    | some gap =>
      let wider := match best with
        | none => true
        | some old => gap.2 - gap.1 > old.2 - old.1
      widestGap owned limit rounds gap.2 (if wider then some gap else best)

def largestGap : Option Range :=
  if planner.length < 0 then none
  else widestGap planner.owned planner.length planner.length.toNat 0 none

/-- The expected time a range still needs; unknown speeds compare by
size. -/
def splitTime (typical : F) (worker : Worker F) : F :=
  let remaining : F := Double.ofInt (worker.stop - worker.position)
  let speed := expectedSpeed worker typical
  if positive speed then remaining / speed
  else remaining * Double.ofRat (1 / 1000)

/-- Whether a range is long enough to be split. -/
def splittable (typical : F) (worker : Worker F) : Bool :=
  worker.stop ≠ unbounded && worker.stop - worker.position ≥
      2 * planner.minSplitFor (expectedSpeed worker typical)

/-- The victim so far after looking at one more worker. -/
def laterVictim (typical : F) (victim : Option (Int × Worker F)) (entry : Int × Worker F) : Option
    (Int × Worker F) :=
  if planner.splittable typical entry.2 then
    match victim with
    | none => some entry
    | some old =>
      if Double.lt (splitTime typical old.2) (splitTime typical entry.2)
      then some entry else victim
  else victim

/-- Where the victim's range is cut so that both connections are expected to
finish together. -/
def splitCut (typical : F) (target : Worker F) : Int :=
  let remaining := target.stop - target.position
  let own := expectedSpeed target typical
  let fresh := if positive typical then typical else own
  let share : F := if positive own && positive fresh then own / (own + fresh)
    else Double.ofRat (1 / 2)
  let least := planner.minSplitFor own
  let cut := clampInt
    (target.position + Double.toInt (Double.ofInt remaining * share))
    (target.position + least) (target.stop - least)
  if cut - cut.tmod alignment > target.position + least then
    cut - cut.tmod alignment
  else cut

def split : Option (Range × SegmentPlanner F) :=
  let typical := planner.typicalSpeed (-1)
  match planner.workers.entries.foldl (planner.laterVictim typical) none with
  | none => none
  | some (victim, target) =>
    let cut := planner.splitCut typical target
    let range := (cut, target.stop)
    some (range,
      { planner with
        workers := (planner.workers.insert victim
          { target with stop := cut }).insert id (freshWorker range) })

/-- The copies of one range in the endgame. -/
structure Group (F : Type u) where
  /-- The copy with the earliest expected finish. -/
  leader : Int
  time : F
  copies : Nat
  silent : Nat
  young : Bool

/-- A copy without data after several usual start-ups is silent. -/
def silentAfter : F :=
  if positive planner.startup then
    Double.clamp (Double.ofInt 3 * planner.startup) minRaceSeconds raceSeconds
  else raceSeconds

/-- A group before its first copy. -/
def emptyGroup : Group F :=
  { leader := -1, time := Double.ofInt 0, copies := 0, silent := 0, young := false }

/-- One more copy in a group. -/
def addCopy (group : Group F) (id : Int) (worker : Worker F) : Group F :=
  let silent := !worker.receiving && Double.le planner.silentAfter worker.age
  let speed := if worker.receiving then worker.speed else Double.ofInt 0
  let time := if positive speed
    then Double.ofInt (worker.stop - worker.position) / speed
    else Double.ofInt 1000000000
  let leads := group.leader < 0 || Double.lt time group.time
  { leader := if leads then id else group.leader
    time := if leads then time else group.time
    copies := if silent then group.copies else group.copies + 1
    silent := if silent then group.silent + 1 else group.silent
    young := group.young || Double.lt worker.age
      (if worker.receiving then raceSeconds else planner.silentAfter) }

/-- Adds a worker to the group of copies that share its end. -/
def joinGroup (groups : OrdMap Int (Group F)) (entry : Int × Worker F) : OrdMap Int (Group F) :=
  let worker := entry.2
  if worker.stop - worker.position ≤ 0 ∨ worker.stop = unbounded then groups
  else
    groups.insert worker.stop (planner.addCopy
      ((groups.find? worker.stop).getD emptyGroup) entry.1 worker)

/-- Whether another copy of the leader's range would finish well first. -/
def worthCopy (group : Group F) (leader : Worker F) : Bool :=
  let speed := if leader.receiving then leader.speed else Double.ofInt 0
  let reference := Double.max (planner.typicalSpeed group.leader)
    planner.peakSpeed
  let remaining : F := Double.ofInt (leader.stop - leader.position)
  let start : F := if positive planner.startup then planner.startup
    else raceSeconds
  let copy := start + (if positive reference then remaining / reference
    else Double.ofInt 0)
  let slow := Double.max minRaceSeconds (Double.ofRat (3 / 2) * copy)
  !Double.le group.time slow && (Double.le reference (Double.ofInt 0) ||
      Double.lt speed (reference / Double.ofInt 2))

/-- The slowest leader so far, with its time, after one more group. -/
def slowerLeader (slowest : Option (Worker F) × F) (entry : Int × Group F) : Option (Worker F) × F
    :=
  let group := entry.2
  if group.young || group.copies ≥ maxCopies || group.silent ≥ 2 * maxCopies ||
      Double.le group.time slowest.2 then slowest
  else
    match planner.workers.find? group.leader with
    | none => slowest
    | some leader =>
      if planner.worthCopy group leader then (some leader, group.time)
      else slowest

/-- The endgame: a range that would hold the download back gets another
copy. -/
def race : Option (Range × SegmentPlanner F) :=
  let groups := planner.workers.entries.foldl planner.joinGroup ∅
  match (groups.entries.foldl planner.slowerLeader
    (none, Double.ofInt 0)).1 with
  | none => none
  | some slowest =>
    let range := (slowest.position, slowest.stop)
    some (range,
      { planner with
        workers := planner.workers.insert id (freshWorker range) })

/-- Range for a new connection, registered as worker `id`. -/
def assign : Option Range × SegmentPlanner F :=
  if planner.length < 0 then (none, planner)
  else
    match planner.largestGap with
    | some gap =>
      (some gap,
        { planner with
          workers := planner.workers.insert id (freshWorker gap) })
    | none =>
      match planner.split id with
      | some (range, next) => (some range, next)
      | none =>
        match planner.race id with
        | some (range, next) => (some range, next)
        | none => (none, planner)

/-- Records received bytes; returns how many belong to the assignment. -/
def receive (bytes : Int) : Option (Int × SegmentPlanner F) :=
  (planner.workers.find? id).map fun worker =>
    let usable := clampInt (worker.stop - worker.position) 0 bytes
    (usable,
      { planner with
        received := planner.received.add worker.position
          (worker.position + usable)
        workers := planner.workers.insert id
          { worker with
            position := worker.position + usable
            receiving := true } })

def updateSpeed (bytesPerSecond seconds : F) : SegmentPlanner F :=
  match planner.workers.find? id with
  | none => planner
  | some worker =>
    let speed := if positive worker.speed
      then worker.speed * Double.ofRat (6 / 10) + bytesPerSecond * Double.ofRat (4 / 10)
      else bytesPerSecond
    { planner with
      workers := planner.workers.insert id
        { worker with age := worker.age + seconds, speed }
      peakSpeed := Double.max planner.peakSpeed speed }

/-- The average rate of a finished connection. -/
def noteSpeed (bytesPerSecond : F) : SegmentPlanner F :=
  { planner with peakSpeed := Double.max planner.peakSpeed bytesPerSecond }

/-- Seconds from a request to its first payload byte. -/
def noteStartup (seconds : F) : SegmentPlanner F :=
  { planner with
    startup := if positive planner.startup
      then planner.startup * Double.ofRat (7 / 10) + seconds * Double.ofRat (3 / 10)
      else seconds }

/-- Everything received or assigned to another worker. -/
def ownedByOthers : RangeSet :=
  planner.workers.entries.foldl (fun set entry =>
    if entry.1 ≠ id then set.add entry.2.position entry.2.stop else set)
    planner.received

/-- What `extend` decided. -/
structure Extension (F : Type u) [Double F] where
  extended : Bool
  /-- The worker whose range was taken over. -/
  cancelled : Option Int
  planner : SegmentPlanner F

/-- The first worker, other than `id`, that starts where this one ends and
has received nothing. -/
def silentNeighbour (stop : Int) : Option (Int × Worker F) :=
  planner.workers.entries.find? fun entry =>
    entry.1 ≠ id && entry.2.position = stop && !entry.2.receiving

/-- After a worker reached its end: it takes over the next range if its
connection has not produced data yet, or continues into unowned bytes. -/
def extend : Option (Extension F) :=
  (planner.workers.find? id).map fun worker =>
    if worker.requestEnd ≤ worker.stop ∨
        planner.length ≥ 0 ∧ worker.stop ≥ planner.length then
      { extended := false, cancelled := none, planner }
    else
      match planner.silentNeighbour id worker.stop with
      | some (other, next) =>
        { extended := true
          cancelled := some other
          planner :=
            { planner with
              workers := (planner.workers.insert id
                { worker with
                  stop := min worker.requestEnd next.stop }).erase other } }
      | none =>
        let limit := if planner.length ≥ 0
          then min worker.requestEnd planner.length else worker.requestEnd
        match (planner.ownedByOthers id).firstGap worker.stop limit with
        | some gap =>
          if gap.1 = worker.stop then
            { extended := true
              cancelled := none
              planner :=
                { planner with
                  workers := planner.workers.insert id
                    { worker with stop := gap.2 } } }
          else { extended := false, cancelled := none, planner }
        | none => { extended := false, cancelled := none, planner }

/-- Workers whose remaining range is already covered by others. -/
def redundant : List Int :=
  (planner.workers.entries.filter fun entry =>
    entry.2.position < entry.2.stop &&
      planner.received.contains entry.2.position entry.2.stop).map Prod.fst

def release : SegmentPlanner F :=
  { planner with workers := planner.workers.erase id }

/-- Received bytes that turned out bad and are needed again. -/
def forget (begin stop : Int) : SegmentPlanner F :=
  { planner with received := planner.received.remove begin stop }

/-- A call that changes the planner. -/
inductive Call (F : Type u) where
  | place (id begin requestEnd : Int)
  | setLength (length : Int)
  | restore (ranges : List Range)
  | reset
  | assign (id : Int)
  | receive (id bytes : Int)
  | updateSpeed (id : Int) (bytesPerSecond seconds : F)
  | noteSpeed (bytesPerSecond : F)
  | noteStartup (seconds : F)
  | extend (id : Int)
  | release (id : Int)
  | forget (begin stop : Int)

/-- A call that throws leaves the planner as it is. -/
def step : Call F → SegmentPlanner F
  | .place id begin requestEnd => planner.place id begin requestEnd
  | .setLength length => planner.setLength length
  | .restore ranges => planner.restore ranges
  | .reset => planner.reset
  | .assign id => (planner.assign id).2
  | .receive id bytes =>
    ((planner.receive id bytes).map Prod.snd).getD planner
  | .updateSpeed id bytesPerSecond seconds =>
    planner.updateSpeed id bytesPerSecond seconds
  | .noteSpeed bytesPerSecond => planner.noteSpeed bytesPerSecond
  | .noteStartup seconds => planner.noteStartup seconds
  | .extend id => ((planner.extend id).map Extension.planner).getD planner
  | .release id => planner.release id
  | .forget begin stop => planner.forget begin stop

end SegmentPlanner

end Aria2Next
