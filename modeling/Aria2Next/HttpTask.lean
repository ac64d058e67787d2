/-
`http/HttpTask`: a download over one or more mirrors, first part: its state,
its connections and how it fails, restarts and stops.

Every callback runs on the control thread, so a callback is one step of the
task.  What the clock, the file system, the host pool, the options of other
tasks and the random back-off answer during a step are `Facts`.  Times are
milliseconds.  Disk jobs that have not called back are part of the state.
Address families, speeds and rate limits only choose among connections, so
their choices are inputs.
-/
import Aria2Next.SegmentPlanner

namespace Aria2Next

universe u

namespace HttpTask

inductive Phase where
  | idle | probing | opening | running | restarting | finishing | stopping
  | done
deriving DecidableEq, Repr

/-- `ErrorCode`, as far as the task reports it. -/
inductive Failure where
  | timedOut | resourceNotFound | network | cannotResume | fileExists
  | renameFailed | fileCreate | fileIo | nameResolve | httpProtocol
  | tooManyRedirects | httpAuth | serviceUnavailable | checksum | option
deriving DecidableEq, Repr

/-- `CURLcode`, as far as the task tells its values apart. -/
inductive CurlCode where
  | ok | writeError | httpReturnedError | couldntResolveHost
  | couldntResolveProxy | operationTimedOut | tooManyRedirects | loginDenied
  | remoteAccessDenied | remoteFileNotFound | unsupportedProtocol
  | urlMalformat | peerFailedVerification | sslCertProblem
  | sslCacertBadFile | sslIssuerError | sslPinnedPubkeyNotMatch | other
deriving DecidableEq, Repr

def curlError : CurlCode → Failure
  | .couldntResolveHost | .couldntResolveProxy => .nameResolve
  | .operationTimedOut => .timedOut
  | .tooManyRedirects => .tooManyRedirects
  | .loginDenied | .remoteAccessDenied => .httpAuth
  | .remoteFileNotFound => .resourceNotFound
  | _ => .network

/-- TLS and protocol errors that retrying cannot fix. -/
def permanent : CurlCode → Bool
  | .unsupportedProtocol | .urlMalformat | .peerFailedVerification
  | .sslCertProblem | .sslCacertBadFile | .sslIssuerError
  | .sslPinnedPubkeyNotMatch | .tooManyRedirects | .loginDenied
  | .remoteAccessDenied | .remoteFileNotFound => true
  | _ => false

/-- A probe without an answer after this long gets a second copy. -/
def probeHedge : Int := 2000

/-- A connection that delivers nothing for this long is stalled. -/
def stallAfter : Int := 8000

/-- Slow connections reach the disk at least this often. -/
def flushAfter : Int := 1000

def tickInterval : Int := 500

def minFlushSize : Int := 65536

def maxFlushSize : Int := 1048576

/-- Unwritten bytes a task may hold before its connections pause. -/
def writeBudget : Int := 67108864

def maxRestarts : Nat := 3

/-- Rounds of downloading pieces again that failed their hash. -/
def maxRepairs : Nat := 3

/-- Weak entity tags cannot validate byte ranges; missing quotes are added. -/
def strongTag (etag : String) : String :=
  if etag = "" ∨ etag.startsWith "W/" then ""
  else if etag.front = '"' then etag else "\"" ++ etag ++ "\""

/-- A modification date validates ranges only when the response was dated at
least a minute later. -/
def strongDate (getdate : String → Int) (modified date : String) : String :=
  if modified = "" ∨ date = "" then ""
  else if getdate modified ≥ 0 ∧ getdate date - getdate modified ≥ 60
  then modified else ""

/-- A parsed `Content-Range`; an unknown total is -1. -/
structure ContentRange where
  first : Int
  last : Int
  total : Int
deriving DecidableEq, Repr

/-- Where the body of a 206 without Content-Range belongs, when its length
leaves one answer. -/
def impliedContentRange (begin requestEnd contentLength : Int) : Option ContentRange :=
  if begin < 0 ∨ contentLength ≤ 0 then none
  else if requestEnd = unbounded then
    some ⟨begin, begin + contentLength - 1, begin + contentLength⟩
  else if requestEnd - begin ≠ contentLength then none
  else some ⟨begin, requestEnd - 1, -1⟩

/-- The header block of the final response of a request. -/
structure Response where
  status : Int := 0
  etag : String := ""
  lastModified : String := ""
  date : String := ""
  /-- The header, if there is one, and what `parseContentRange` makes of
  it. -/
  contentRange : Option (Option ContentRange) := none
  /-- What `unsatisfiedRangeLength` makes of it. -/
  unsatisfied : Option Int := none
  contentLength : Int := -1
  /-- `Accept-Ranges: bytes`. -/
  acceptsBytes : Bool := false
  /-- A content encoding that `http-accept-gzip` decodes. -/
  compressed : Bool := false
  /-- A media manifest, while `media` is `auto`. -/
  manifest : Bool := false
  retryAfter : Option Int := none
  effectiveUrl : String := ""
deriving DecidableEq, Repr

/-- One mirror. -/
structure Source where
  uri : String
  /-- Last validated redirect destination. -/
  redirect : String := ""
  /-- The destination expired; asking the URI again. -/
  refreshing : Bool := false
  active : Int := 0
  notFound : Int := 0
  failures : Int := 0
  readyAt : Int := 0
  dead : Bool := false
  used : Bool := false
  etag : String := ""
  lastModified : String := ""
  /-- Ghost: identifies the source whatever its position. -/
  uid : Nat
deriving DecidableEq, Repr

/-- One connection: a ranged request and its response. -/
structure Worker where
  slot : Nat
  source : Nat
  begin : Int
  requestEnd : Int
  /-- Requested through a cached redirect. -/
  redirected : Bool
  /-- The validator this request was sent with. -/
  ifRange : String
  response : Response := {}
  accepted : Bool := false
  /-- Assignment complete; an abort is not a failure. -/
  done : Bool := false
  /-- Received bytes not yet handed to the disk pool. -/
  buffer : List UInt8 := []
  bufferOffset : Int
  bufferedSince : Int := 0
  started : Int
  lastData : Int
  /-- The stall clock runs once the connection is up. -/
  connected : Bool := false
  paused : Bool := false
  tickBytes : Int := 0
  received : Int := 0
  receiving : Bool := false
  /-- Ghost: the response body delivered so far. -/
  body : List UInt8 := []
  /-- Ghost: the source it was launched against, and its URI. -/
  origin : Nat × String
deriving DecidableEq, Repr

/-- A connection position; it keeps its failure count. -/
structure Slot where
  worker : Option Int := none
  failures : Int := 0
  readyAt : Int := 0
deriving DecidableEq, Repr

/-- A position nothing was tried on. -/
def freshSlot : Slot := {}

/-- Bytes on their way to the disk. -/
structure Piece where
  offset : Int
  data : List UInt8
  /-- Ghost: the connection they came from, the range it requested and what
  its response body was then. -/
  worker : Int
  begin : Int
  requestEnd : Int
  body : List UInt8
deriving DecidableEq, Repr

/-- A call of `write`, with the length known at that moment. -/
structure Write where
  piece : Piece
  length : Int
deriving DecidableEq, Repr

/-- A call of `openOutput`; `foreign` tells whether the path on disk was
that of an adopted file. -/
structure Open where
  path : String
  truncate : Bool
  foreign : Bool
deriving DecidableEq, Repr

/-- A disk job or posted handler that has not called back. -/
inductive Job where
  | opened
  | written (offset size : Int)
  | restart
  | finishClosed
  | stopClosed
  | verified
  | piecesChecked (failure : String)
deriving DecidableEq, Repr

/-- How a run is reported. -/
inductive Report where
  | stopped
  | complete
  | failed (code : Failure) (message : String)
  | handedOver
deriving DecidableEq, Repr

/-- What the store keeps of a transfer. -/
structure TransferRecord where
  path : String
  etag : String
  lastModified : String
  totalLength : Int
  completed : List Range
deriving DecidableEq, Repr

/-- The options the task reads; the bounds are those of the option table. -/
structure Options where
  split : Int := 16
  maxConnectionPerServer : Int := 16
  minSplitSize : Int := 1048576
  maxTries : Int := 5
  maxFileNotFound : Int := 0
  retryWait : Int := 0
  out : String := ""
  /-- `joinPath` of `dir` and `out`. -/
  outPath : String := ""
  incompleteSuffix : String := ""
  checksum : String := ""
  continue_ : Bool := false
  allowOverwrite : Bool := false
  autoFileRenaming : Bool := true
  removeControlFile : Bool := false
  dryRun : Bool := false
  split_pos : 1 ≤ split := by decide
  maxConnectionPerServer_pos : 1 ≤ maxConnectionPerServer := by decide
  minSplitSize_pos : 1 ≤ minSplitSize := by decide

end HttpTask

open HttpTask in
structure HttpTask (F : Type u) [Double F] where
  options : Options
  sources : List Source
  slots : List Slot := []
  workers : OrdMap Int Worker := ∅
  nextWorkerId : Int := 0
  planner : SegmentPlanner F
  persisted : RangeSet := ∅
  /-- `output_` holds a file. -/
  output : Bool := false
  /-- Data that arrived before the output was open. -/
  held : List Piece := []
  path : String := ""
  etag : String := ""
  lastModified : String := ""
  /-- The output file belongs to this task. -/
  owned : Bool := false
  suffix : String := ""
  /-- The server honours byte ranges. -/
  ranged : Bool := true
  /-- One connection only. -/
  single : Bool := false
  rangesDistrusted : Bool := false
  tagsRotate : Bool := false
  restarts : Nat := 0
  /-- The length a Metalink promised. -/
  declared : Int := -1
  /-- The hash type of the pieces. -/
  pieceType : String := ""
  pieceLength : Int := 0
  /-- Per piece the mirrors (below 64) that delivered some of it; the bits of
  the source's mask as a list. -/
  pieceSources : List (List Nat) := []
  repairs : Nat := 0
  phase : Phase := .idle
  lastError : Failure := .network
  lastMessage : String := ""
  pendingWrites : UInt64 := 0
  unflushed : Int := 0
  /-- `stopped_` holds a callback. -/
  stopped : Bool := false
  jobs : List Job := []
  /-- The record of this transfer in the state store. -/
  stored : Option TransferRecord := none
  /-- Ghost: identities given to sources so far. -/
  nextSource : Nat := 0
  /-- Ghost: the calls of `write` since the start, in order. -/
  writes : List Write := []
  /-- Ghost: the calls of `openOutput`, in order. -/
  opens : List Open := []
  /-- Ghost: the existing files that were adopted as a prefix. -/
  adopted : List String := []
  reports : List Report := []

namespace HttpTask

variable {F : Type u} [Double F]

/-- What the surroundings answer during one step. -/
structure Facts (F : Type u) [Double F] where
  now : Int := 0
  /-- `HostPool::allowance`; the task has just reported its state to it. -/
  allowance : HttpTask F → Int := fun _ => 256
  hostReadyAt : Int := 0
  transferring : Int := 0
  /-- A draw between two bounds. -/
  draw : Int → Int → Int := fun low _ => low
  getdate : String → Int := fun _ => -1
  fileExists : String → Bool := fun _ => false
  fileSize : String → Int := fun _ => 0
  /-- Another task writes to the path. -/
  writing : String → Bool := fun _ => false
  /-- The record another task left for the path. -/
  claimTransfer : String → Option TransferRecord := fun _ => none
  /-- `Client::configure` throws during this step. -/
  configureError : Option (Failure × String) := none
  /-- The path the name of the download gives. -/
  named : String := "file"
  numbered : String → Option String := fun _ => none
  renameError : Option String := none
  /-- Neither rate limit is used up. -/
  available : Bool := true
  /-- The connection has an address. -/
  connected : Int → Bool := fun _ => false
  errorText : String := ""

variable (task : HttpTask F) (facts : Facts F)

def diskPath : String := task.path ++ task.suffix

def updateSource (index : Nat) (f : Source → Source) : HttpTask F :=
  { task with sources := task.sources.modify index f }

def updateSlot (index : Nat) (f : Slot → Slot) : HttpTask F :=
  { task with slots := task.slots.modify index f }

def updateWorker (id : Int) (f : Worker → Worker) : HttpTask F :=
  match task.workers.find? id with
  | none => task
  | some worker => { task with workers := task.workers.insert id (f worker) }

def queue (job : Job) : HttpTask F := { task with jobs := task.jobs ++ [job] }

def report (report : Report) : HttpTask F :=
  { task with reports := task.reports ++ [report] }

/-- The constructor, with the declared size and the pieces of a Metalink. -/
def create (options : Options) (uris : List String) (declared : Int)
    (pieceType : String) (pieceLength : Int) (pieces : Nat) : HttpTask F :=
  { options
    sources := uris.zipIdx.map fun entry =>
      { uri := entry.1, uid := entry.2 }
    nextSource := uris.length
    planner := { minSplit := options.minSplitSize }
    declared
    pieceType
    pieceLength
    pieceSources := List.replicate pieces [] }

def parallel : Bool := task.ranged && !task.single && task.planner.length > 0

/-- A single-source download shares its server's connections. -/
def pooled : Bool := task.sources.length = 1

/-- `split` and `max-connection-per-server`. -/
def configuredConnections : Int :=
  min task.options.split task.options.maxConnectionPerServer

def allowedConnections : Int :=
  if task.pooled then facts.allowance task else task.configuredConnections

/-- The number of slots `launch` uses when `allowed` connections are. -/
def connectionTarget (allowed : Int) : Int :=
  if !task.parallel then 1
  else
    let hosts := (task.sources.map fun source =>
      if source.dead then 0 else task.options.maxConnectionPerServer).sum
    clampInt (min (min task.options.split hosts) allowed) 1 256

/-- The wait after a failure: `retry-wait`, or a random share of a doubling
base. -/
def backoff (failures : Int) : Int :=
  if task.options.retryWait > 0 then task.options.retryWait * 1000
  else
    let base := min 30000 (500 * 2 ^ (min failures 6).toNat)
    clampInt (facts.draw (base / 2) base) (base / 2) base

def seconds (milliseconds : Int) : F := Double.ofInt milliseconds / Double.ofInt 1000

/-- `slots_.resize`. -/
def resizeSlots (slots : List Slot) (size : Nat) : List Slot :=
  slots.take size ++ List.replicate (size - slots.length) freshSlot

/-- Grows the slots to a size. -/
def widenSlots (size : Nat) : HttpTask F :=
  { task with
    slots := if task.slots.length < size then resizeSlots task.slots size
      else task.slots }

def reset : HttpTask F :=
  { task with
    workers := ∅
    planner := task.planner.reset
    persisted := ∅
    pieceSources := task.pieceSources.map fun _ => []
    output := false
    held := []
    pendingWrites := 0
    unflushed := 0
    slots := List.replicate (max 1 task.configuredConnections).toNat freshSlot
    sources := task.sources.map fun source =>
      { source with
        active := 0
        failures := 0
        readyAt := 0
        etag := ""
        lastModified := "" } }

def write (piece : Piece) : HttpTask F :=
  { task.queue (.written piece.offset piece.data.length) with
    pendingWrites := task.pendingWrites + 1
    writes := task.writes ++ [⟨piece, task.planner.length⟩] }

/-- The buffer of a worker as it leaves it. -/
def Worker.piece (worker : Worker) (id : Int) : Piece :=
  { offset := worker.bufferOffset, data := worker.buffer, worker := id,
    begin := worker.begin, requestEnd := worker.requestEnd,
    body := worker.body }

/-- Hands a worker's buffer to the disk, or keeps it until the file is
open. -/
def flush (id : Int) : HttpTask F :=
  match task.workers.find? id with
  | none => task
  | some worker =>
    if worker.buffer = [] then task
    else if task.phase = .restarting then
      { task with
        unflushed := task.unflushed - worker.buffer.length
        workers := task.workers.insert id { worker with buffer := [] } }
    else
      let task :=
        { task with
          workers := task.workers.insert id
            { worker with
              buffer := []
              bufferOffset := worker.bufferOffset + worker.buffer.length } }
      if task.output ∧ task.phase ≠ .probing ∧ task.phase ≠ .opening then
        task.write (worker.piece id)
      else { task with held := task.held ++ [worker.piece id] }

/-- The planner learns the average rate of a connection. -/
def noteRate (planner : SegmentPlanner F) (now : Int) (worker : Worker) : SegmentPlanner F :=
  if worker.received > 0 ∧ now > worker.started then
    planner.noteSpeed (Double.ofInt worker.received / seconds (now - worker.started))
  else planner

def retireWorker (now id : Int) : HttpTask F :=
  match task.workers.find? id with
  | none => task
  | some worker =>
    { task with
      planner := (noteRate task.planner now worker).release id
      sources := task.sources.modify worker.source fun source =>
        { source with active := max 0 (source.active - 1) }
      slots := task.slots.modify worker.slot fun slot =>
        if slot.worker = some id then { slot with worker := none } else slot
      workers := task.workers.erase id }

def cancelWorker (now id : Int) : HttpTask F :=
  match task.workers.find? id with
  | none => { task with planner := task.planner.release id }
  | some _ => (task.flush id).retireWorker now id

/-- Cancels every worker, keeping what it received. -/
def cancelAll (now : Int) : HttpTask F :=
  task.workers.keys.foldl (fun task id =>
    (task.flush id).retireWorker now id) task

/-- Stores the progress; `complete` tells that the task's state is. -/
def checkpoint (complete : Bool) : HttpTask F :=
  if task.path = "" ∨ task.planner.length ≤ 0 ∨ task.options.dryRun ∨
      task.phase = .restarting ∨ task.phase = .done ∧ complete then task
  else
    { task with
      stored := some
        { path := task.path, etag := task.etag, lastModified := task.lastModified,
          totalLength := task.planner.length,
          completed := task.persisted.ranges } }

def abort (code : Failure) (message : String) : HttpTask F :=
  if task.phase = .done ∨ task.phase = .stopping then task
  else
    ((({ task with phase := .done }.cancelAll facts.now).checkpoint
      false).report (.failed code message))

/-- A slot without tries left. -/
def exhausted (slot : Slot) : Bool := slot.failures ≥ task.options.maxTries

/-- The slot a failure is counted on. -/
def failedSlot (slot : Nat) : Nat :=
  if task.phase = .probing then 0 else slot

/-- Counts a failure and sets when the slot may try again. -/
def countFailure (slot : Nat) (code : Failure) (message : String) (wait : Int) : HttpTask F :=
  { task with
    lastError := code
    lastMessage := message
    slots := task.slots.modify (task.failedSlot slot) fun entry =>
      let failures := entry.failures + 1
      let delay := if task.sources.length > 1 then 0
        else if wait ≠ 0 then wait else task.backoff facts failures
      { entry with failures, readyAt := facts.now + delay } }

/-- Whether the task fails with its last error, once `max-tries` is
limited. -/
def outOfTries : Bool :=
  if task.sources.length > 1 then
    task.workers.entries.isEmpty && task.sources.all Source.dead
  else
    task.workers.entries.isEmpty &&
      (if task.phase = .probing then task.exhausted (task.slots.getD 0 freshSlot)
        else task.slots.all task.exhausted)

def slotFailed (slot : Nat) (code : Failure) (message : String) (wait : Int) : HttpTask F :=
  let task := task.countFailure facts slot code message wait
  if task.options.maxTries ≤ 0 then task
  else if task.outOfTries then
    task.abort facts task.lastError task.lastMessage
  else task

/-- Whether a mirror other than the one at `index` is alive. -/
def otherAlive (index : Nat) : Bool :=
  task.sources.zipIdx.any fun entry => entry.2 ≠ index && !entry.1.dead

/-- Drops a mirror that disagrees with the download. -/
def dropMirror (id : Int) (worker : Worker) (why : String) : HttpTask F :=
  ((task.updateSource worker.source fun source =>
      { source with dead := true }).cancelWorker facts.now id).slotFailed
    facts worker.slot .httpProtocol why 0

/-- If-Range validators: a single source has the download's. -/
def validators (source : Source) : String × String :=
  if task.sources.length > 1 then (source.etag, source.lastModified)
  else (strongTag task.etag, task.lastModified)

/-- Closes the file once the last write has landed, then starts again. -/
def restartWhenQuiet : HttpTask F :=
  if task.phase ≠ .restarting ∨ task.pendingWrites > 0 then task
  else task.queue .restart

/-- Every worker is cancelled and its unwritten bytes are dropped. -/
def retireAll (now : Int) : HttpTask F :=
  task.workers.keys.foldl (fun task id => task.retireWorker now id) task

/-- The representation changed: the download starts over, unless the file is
not the task's own. -/
def changed (why : String) : HttpTask F :=
  if !task.owned ∧ task.path ≠ "" then
    task.abort facts .cannotResume ("The remote file changed (" ++ why ++
      "); " ++ task.path ++ " was left unchanged")
  else
    let task := { task with restarts := task.restarts + 1 }
    if task.restarts > maxRestarts then
      task.abort facts .cannotResume ("The remote file keeps changing (" ++ why ++ ")")
    else
      let task :=
        { task with
          single := task.single || task.restarts > 1 || task.rangesDistrusted
          phase := .restarting }.retireAll facts.now
      { task with stored := none }.restartWhenQuiet

/-- The callback of the close that `quiesce` asks for. -/
def stopClosed : HttpTask F :=
  { task with output := false, phase := .idle }.report .stopped

def quiesce : HttpTask F :=
  if task.phase ≠ .stopping ∨ task.pendingWrites > 0 ∨ !task.stopped then task
  else
    let task := { task.checkpoint false with stopped := false }
    if task.output then task.queue .stopClosed else task.stopClosed

def stop : HttpTask F :=
  ({ task with stopped := true, phase := .stopping }.cancelAll facts.now).quiesce

end HttpTask

end Aria2Next
