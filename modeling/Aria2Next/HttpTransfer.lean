/-
`http/HttpTask`, second part: how connections are launched, what their
responses, bytes and ends do to the download, and the step function over
every callback of the task.
-/
import Aria2Next.HttpTask

namespace Aria2Next.HttpTask

universe u

variable {F : Type u} [Double F]

variable (task : HttpTask F) (facts : Facts F) (id : Int) (path : String) (worker : Worker)
  (total : Int)

/-- The mirror with the fewest recent failures, then the fewest connections;
mirrors that are backing off are skipped. -/
def pickSource (now : Int) : Option Nat :=
  task.sources.zipIdx.foldl (fun best entry =>
    let (source, index) := entry
    if source.dead ∨ source.active ≥ task.options.maxConnectionPerServer ∨
        now < source.readyAt then best
    -- its entry point is being asked already
    else if source.refreshing ∧ task.workers.values.any (fun worker =>
        worker.source = index && !worker.redirected && !worker.accepted)
    then best
    else
      match best.bind fun old => task.sources[old]? with
      | none => some index
      | some other =>
        if source.failures < other.failures ∨
            source.failures = other.failures ∧ source.active < other.active
        then some index else best) none

/-- Sends the request of a connection the planner knows. -/
def startWorker (slot source : Nat) (begin requestEnd : Int) : HttpTask F :=
  match task.sources[source]? with
  | none => task
  | some mirror =>
    match facts.configureError with
    | some (code, message) =>
      { task with planner := task.planner.release id }.abort facts code message
    | none =>
      let (etag, modified) := task.validators mirror
      let validator := if etag = "" then modified else etag
      { task with
        slots := task.slots.modify slot fun entry =>
          { entry with worker := some id }
        sources := task.sources.modify source fun mirror =>
          { mirror with active := mirror.active + 1, used := true }
        workers := task.workers.insert id
          { slot, source, begin, requestEnd
            redirected := mirror.redirect ≠ ""
            ifRange := if task.ranged then validator else ""
            bufferOffset := begin
            started := facts.now
            lastData := facts.now
            origin := (mirror.uid, mirror.uri) } }

/-- A slot that has spent `max-tries`; with mirrors they are spent per
mirror. -/
def spent (slot : Slot) : Bool :=
  task.options.maxTries > 0 && task.exhausted slot && task.sources.length = 1

/-- Sends the request that learns the length, the validators and the name, or
its hedged copy. -/
def sendProbe : HttpTask F :=
  let slot := if (task.slots.getD 0 freshSlot).worker.isSome then 1 else 0
  match task.pickSource facts.now with
  | none => task
  | some source =>
    if (task.slots.getD slot freshSlot).worker.isSome then task
    else
      let id := task.nextWorkerId
      { task with
        nextWorkerId := id + 1
        planner := task.planner.place id 0 unbounded }.startWorker facts id slot source 0 unbounded

/-- A probe is sent when none runs, or when the first stays silent.  Its
attempts and waits are kept on slot 0, also for the hedged copy. -/
def probe : HttpTask F :=
  let he := match task.workers.entries with
    | [(_, worker)] => decide (facts.now - worker.started ≥ probeHedge)
    | _ => false
  let first := task.slots.getD 0 freshSlot
  if (!task.workers.entries.isEmpty && !he) || facts.now < first.readyAt ||
      task.spent first then task
  else (task.widenSlots 2).sendProbe facts

/-- The loop of `launch` over the slots. -/
def launchSlots (facts : Facts F) : List Nat → HttpTask F → HttpTask F
  | [], task => task
  | slot :: rest, task =>
    let entry := task.slots.getD slot freshSlot
    if entry.worker.isSome || facts.now < entry.readyAt || task.spent entry
    then launchSlots facts rest task
    else
      match task.pickSource facts.now with
      | none => task
      | some source =>
        let id := task.nextWorkerId
        if task.ranged then
          match task.planner.assign id with
          | (none, _) => task
          | (some range, planner) =>
            launchSlots facts rest ({ task with nextWorkerId := id + 1, planner }.startWorker
                facts id slot source range.1 range.2)
        -- without ranges the only possible request is the whole file
        else if task.workers.entries.isEmpty then
          { task with
            nextWorkerId := id + 1
            planner := task.planner.place id 0
              (if task.planner.length ≥ 0 then task.planner.length
                else unbounded) }.startWorker facts id slot source 0 unbounded
        else task

def launch : HttpTask F :=
  if task.phase ≠ .probing ∧ task.phase ≠ .running then task
  else if task.planner.complete then task
  else if task.pooled ∧ (facts.now < facts.hostReadyAt ∨
      task.allowedConnections facts = 0) then task
  else if task.phase = .probing then task.probe facts
  else
    let target :=
      (task.connectionTarget (task.allowedConnections facts)).toNat
    launchSlots facts (List.range target) (task.widenSlots target)

def openOutput (truncate : Bool) : HttpTask F :=
  { task.queue .opened with
    output := true
    opens := task.opens ++ [⟨task.diskPath, truncate, task.adopted.contains task.diskPath⟩] }

/-- The suffix a stored record's file carries, or nothing when it is gone. -/
def storedSuffix : Option String :=
  let suffix := task.options.incompleteSuffix
  if suffix ≠ "" ∧ facts.fileExists (path ++ suffix) then some suffix
  else if facts.fileExists path then some "" else none

/-- Takes over the record of the unfinished file an earlier task left. -/
def claimRecord : Option TransferRecord × HttpTask F :=
  if !task.options.continue_ ∨ task.options.removeControlFile ∨
      task.options.dryRun ∨ facts.writing path then (none, task)
  else
    match facts.claimTransfer path with
    | none => (none, task)
    | some record =>
      (if record.totalLength ≤ 0 ∨ task.storedSuffix facts record.path = none
        then none else some record, { task with stored := some record })

/-- This task's record, or the one it claims as a retry naming the file. -/
def storedRecord : Option TransferRecord × HttpTask F :=
  match task.stored with
  | some record => (some record, task)
  | none =>
    if task.options.out = "" then (none, task)
    else task.claimRecord facts task.options.outPath

/-- The record that resumes the file this task created before, with the
suffix of that file. -/
def resumable : Option (TransferRecord × String) × HttpTask F :=
  match task.storedRecord facts with
  | (none, task) => (none, task)
  | (some record, task) =>
    if record.totalLength > 0 then
      ((task.storedSuffix facts record.path).map fun suffix =>
        (record, suffix), task)
    else (none, task)

def addRanges (set : RangeSet) (ranges : List Range) : RangeSet :=
  ranges.foldl (fun set range => set.add range.1 range.2) set

def start : HttpTask F :=
  let task := { task.reset with phase := .probing }
  if task.options.removeControlFile ∨ task.options.dryRun then
    task.launch facts
  else
    match task.resumable facts with
    | (none, task) => task.launch facts
    | (some (record, suffix), task) =>
      { task with
        path := record.path
        suffix
        owned := true
        etag := record.etag
        lastModified := record.lastModified
        planner := (task.planner.setLength record.totalLength).restore
          record.completed
        persisted := addRanges task.persisted record.completed
        phase := .opening }.openOutput false

def loadProgress : HttpTask F :=
  if task.options.removeControlFile ∨ task.options.dryRun then task
  else
    match task.resumable facts with
    | (none, task) => task
    | (some (record, suffix), task) =>
      { task with
        path := record.path
        suffix
        owned := true
        planner := (task.planner.setLength record.totalLength).restore
          record.completed }

/-- The validators a worker's source is held to. -/
def validatorsOf : String × String :=
  match task.sources[worker.source]? with
  | some source => task.validators source
  | none => ("", "")

/-- Some servers send a new strong entity tag with every response; ranges
are then validated by the date. -/
def tagRotated : Bool :=
  let (etag, modified) := task.validatorsOf worker
  let tag := strongTag worker.response.etag
  !(etag = "" || tag = "" || tag = etag || modified = "" ||
    worker.response.lastModified ≠ modified || total < 0 ||
    total ≠ task.planner.length)

/-- What `tagRotated` does when it finds that the tag rotates. -/
def distrustTags : HttpTask F :=
  { task.updateSource worker.source fun source =>
      { source with etag := "" } with
    tagsRotate := true
    etag := "" }

/-- Whether a response carries the validators of the download. -/
def carriesValidators : Bool :=
  let (etag, modified) := task.validatorsOf worker
  if etag ≠ "" then strongTag worker.response.etag = etag
  else if modified ≠ "" then worker.response.lastModified = modified
  else true

/-- A 200 answer to a ranged request, or a 206 whose Content-Range does not
place its body. -/
def rangesIgnored : HttpTask F :=
  let same := task.carriesValidators worker
  if !same && task.tagRotated worker worker.response.contentLength then
    (task.distrustTags worker).cancelWorker facts.now id
  else if task.tagsRotate ∧ worker.ifRange ≠ "" ∧
      worker.ifRange ≠ (task.validatorsOf worker).2 then
    task.cancelWorker facts.now id
  else if task.otherAlive worker.source then
    task.dropMirror facts id worker (if same then "it ignores byte ranges" else "its file changed")
  else if !same then task.changed facts "validator mismatch"
  -- the only way forward would destroy a prefix that is not the task's own
  else if !task.owned ∧ task.path ≠ "" then
    task.abort facts .cannotResume ("The server ignores byte ranges; " ++
      task.path ++ " was left unchanged")
  else { task with ranged := false }.cancelWorker facts.now id

/-- Takes a file that a claimed record describes. -/
def continueRecord (record : TransferRecord) : HttpTask F :=
  let task :=
    { task with
      path := record.path
      suffix := (task.storedSuffix facts record.path).getD ""
      owned := true }
  let same (stored now : String) : Bool :=
    stored = "" || now = "" || stored = now
  if record.totalLength = task.planner.length ∧ same record.etag task.etag ∧
      same record.lastModified task.lastModified then
    ({ task with
      planner := task.planner.restore record.completed
      persisted := addRanges task.persisted record.completed }.cancelWorker
          facts.now id).openOutput false
  else task.openOutput true

/-- Adopts an existing file as a prefix. -/
def adopt : HttpTask F :=
  let size := facts.fileSize path
  if task.planner.length ≥ 0 ∧ size > task.planner.length then
    task.abort facts .cannotResume (path ++ " is larger than the remote file")
  else if size > 0 ∧ !task.ranged then
    task.abort facts .cannotResume (path ++ " cannot be continued: the server ignores ranges")
  else
    let task :=
      { task with
        path
        suffix := ""
        owned := false
        adopted := path :: task.adopted }
    let task := if size > 0 ∧ task.ranged then
        { task with
          planner := task.planner.restore [(0, size)]
          persisted := task.persisted.add 0 size }.cancelWorker facts.now id
      else task
    task.openOutput false

/-- A file of the task's own, created or overwritten. -/
def createFile : HttpTask F :=
  { task with path, suffix := task.options.incompleteSuffix, owned := true }.openOutput true

/-- A leftover unfinished file holds the name like a finished one. -/
def leftover : Bool :=
  task.options.incompleteSuffix ≠ "" && facts.fileExists (path ++ task.options.incompleteSuffix)

/-- The part of `decidePath` after no record was claimed. -/
def choosePath : HttpTask F :=
  let shared := facts.writing path
  let left := task.leftover facts path
  if shared ∨ left ∨ facts.fileExists path then
    if !shared ∧ !left ∧ task.options.continue_ then task.adopt facts id path
    else if shared ∨ !task.options.allowOverwrite then
      if !task.options.autoFileRenaming then
        task.abort facts .fileExists (if shared
          then path ++ " belongs to another download"
          else path ++ " already exists")
      else
        match facts.numbered path with
        | none => task.abort facts .fileExists (path ++ " already exists")
        | some path => task.createFile path
    else task.createFile path
  else task.createFile path

def decidePath : HttpTask F :=
  let path := facts.named
  match (if facts.writing path then (none, task)
    else task.claimRecord facts path) with
  | (some record, task) => task.continueRecord facts id record
  | (none, task) => task.choosePath facts id path

/-- The first response defines the download: the other probe is cancelled
and the length is set. -/
def settle (now id total : Int) : HttpTask F :=
  let task := (task.workers.keys.filter fun other => other ≠ id).foldl
    (fun task other => task.cancelWorker now other) task
  if total ≥ 0 then { task with planner := task.planner.setLength total }
  else task

/-- The path and the file of a download whose length is set. -/
def prepare : HttpTask F :=
  let response := worker.response
  let task :=
    { task with
      ranged := task.ranged && !(response.status = 200 &&
        (response.contentLength < 0 || !response.acceptsBytes)) }
  if response.manifest ∧ !task.options.dryRun then
    ({ task with phase := .done }.cancelAll facts.now).report .handedOver
  else
    let task :=
      { task with
        etag := if task.tagsRotate then "" else strongTag response.etag
        lastModified := strongDate facts.getdate response.lastModified
          response.date }
    if task.options.dryRun then
      ({ task with phase := .done }.cancelWorker facts.now id).report .complete
    else
      let task := { task with phase := .opening }
      if task.path = "" then task.decidePath facts id
      -- restart of a task that already chose its file
      else task.openOutput (task.owned && task.persisted.ranges.isEmpty)

/-- A valid first response. -/
def define : HttpTask F :=
  (task.settle facts.now id total).prepare facts id worker

/-- What a source learns from a valid response. -/
def Source.answered (source : Source) (getdate : String → Int)
    (tagsRotate : Bool) (worker : Worker) : Source :=
  let response := worker.response
  let fresh := source.etag = "" ∧ source.lastModified = ""
  let url := response.effectiveUrl
  { source with
    failures := 0
    etag := if fresh then (if tagsRotate then "" else strongTag response.etag)
      else source.etag
    lastModified := if fresh
      then strongDate getdate response.lastModified response.date
      else source.lastModified
    refreshing := source.refreshing && worker.redirected
    redirect := if !worker.redirected ∧ url ≠ "" ∧ url ≠ source.uri then url
      else source.redirect }

def welcome : HttpTask F :=
  let task := (task.updateSource worker.source fun source =>
    source.answered facts.getdate task.tagsRotate worker).updateWorker id
      fun worker => { worker with accepted := true }
  if task.phase ≠ .probing then task else task.define facts id worker total

def lengthChanged : Bool :=
  task.planner.length ≥ 0 && total ≥ 0 && total ≠ task.planner.length

/-- Validators only matter while one source serves several connections. -/
def alone : Bool := task.sources.length = 1 && !task.single

def tagDiffers : Bool :=
  let tag := strongTag worker.response.etag
  task.alone && task.etag ≠ "" && tag ≠ "" && tag ≠ task.etag

def timeChanged : Bool :=
  let modified := worker.response.lastModified
  task.alone && task.etag = "" && task.lastModified ≠ "" && modified ≠ "" &&
    modified ≠ task.lastModified

/-- What follows from the length and the validators of a response. -/
def weigh (tagChanged : Bool) : HttpTask F :=
  if task.lengthChanged total ∧ task.otherAlive worker.source then
    task.dropMirror facts id worker "another length"
  else if task.lengthChanged total ∨ tagChanged ∨ task.timeChanged worker then
    task.changed facts (if task.lengthChanged total then "length changed"
      else "validator changed")
  else task.welcome facts id worker total

/-- Compares the length and the validators of a response with the
download's. -/
def validate : HttpTask F :=
  if task.tagDiffers worker && !task.lengthChanged total &&
      task.tagRotated worker total then
    (task.distrustTags worker).weigh facts id worker total false
  else task.weigh facts id worker total (task.tagDiffers worker)

/-- The checks of `accept` once the response is placed. -/
def judge : HttpTask F :=
  if task.declared ≥ 0 ∧ total ≥ 0 ∧ total ≠ task.declared then
    if task.otherAlive worker.source then
      task.dropMirror facts id worker (toString total ++ " bytes instead of " ++
        toString task.declared)
    else
      task.abort facts .httpProtocol ("No mirror has the stated length " ++ toString task.declared)
  else if worker.response.compressed ∧ task.planner.length < 0 then
    if task.ranged then { task with ranged := false }.cancelWorker facts.now id
    -- Content-Length counts the compressed bytes
    else task.validate facts id worker (-1)
  else task.validate facts id worker total

/-- Where a 206 places its body. -/
def Worker.placedRange : Option ContentRange :=
  match worker.response.contentRange with
  | none => impliedContentRange worker.begin worker.requestEnd worker.response.contentLength
  | some range => range

/-- A response arrived; `remaining` is the size an SFTP server states. -/
def accept (remaining : Int) : HttpTask F :=
  match task.workers.find? id with
  | none => task
  | some worker =>
    if worker.accepted then task
    else if worker.response.status = 206 then
      match worker.placedRange with
      | some range =>
        if range.first = worker.begin then
          task.judge facts id worker range.total
        else task.rangesIgnored facts id worker
      | none => task.rangesIgnored facts id worker
    else if worker.response.status = 0 then
      task.judge facts id worker (if remaining ≥ 0 then worker.begin + remaining else -1)
    else if worker.begin > 0 then task.rangesIgnored facts id worker
    else task.judge facts id worker worker.response.contentLength

/-- A header block has ended. -/
def onHeader (response : Response) : HttpTask F :=
  let task := task.updateWorker id fun worker => { worker with response }
  if 200 ≤ response.status ∧ response.status < 300 then
    task.accept facts id (-1)
  else task

/-- Completes the download once everything is received and written. -/
def tryFinish : HttpTask F :=
  if task.phase ≠ .running ∨ !task.planner.complete then task
  -- such an answer must end by itself, so that `receive` sees an excess
  else if task.workers.values.any (fun worker =>
      worker.accepted && !worker.done && worker.response.status = 206 &&
        worker.response.contentLength < 0) then task
  else
    let task := task.workers.keys.foldl (fun task id =>
      task.cancelWorker facts.now id) task
    if task.pendingWrites > 0 ∨ task.unflushed > 0 then task
    -- the source closes `output_` without asking whether it is there
    else if task.output then
      { task.queue .finishClosed with phase := .finishing }
    else task

/-- Notes the mirror that delivered bytes of pieces. -/
def markPieces (pieces : List (List Nat)) (pieceLength begin stop : Int)
    (source : Nat) : List (List Nat) :=
  if source < 64 then
    pieces.zipIdx.map fun entry =>
      if begin / pieceLength ≤ entry.2 ∧ entry.2 ≤ (stop - 1) / pieceLength ∧
          source ∉ entry.1 then entry.1 ++ [source] else entry.1
  else pieces

/-- Usable bytes go to the worker's buffer. -/
def keepBytes (before : Int) (data : List UInt8) : HttpTask F :=
  match task.workers.find? id with
  | none => task
  | some worker =>
    { task with
      pieceSources := markPieces task.pieceSources task.pieceLength before
        (before + data.length) worker.source
      workers := task.workers.insert id
        { worker with
          bufferOffset := if worker.buffer = [] then before
            else worker.bufferOffset
          bufferedSince := if worker.buffer = [] then facts.now
            else worker.bufferedSince
          buffer := worker.buffer ++ data } }

/-- How the bytes of a chunk ended: all used, past the assignment, or past
the end of the file. -/
inductive ChunkEnd where
  | used
  | ended
  | overrun
deriving DecidableEq, Repr

/-- The loop of `receive`.  Every round uses a byte, takes over a worker's
range or makes the next round use a byte, which bounds the rounds.  Without
an entry in the planner there is no answer. -/
def consume (facts : Facts F) (id : Int) :
    Nat → HttpTask F → List UInt8 → Option (HttpTask F × List UInt8 × ChunkEnd)
  | 0, _, _ => none
  | rounds + 1, task, rest =>
    if rest = [] then some (task, [], .used)
    else
      match task.planner.workers.find? id,
          task.planner.receive id rest.length with
      | some planned, some (usable, planner) =>
        let task := { task with planner }
        if usable > 0 then
          consume facts id rounds (task.keepBytes facts id planned.position
              (rest.take usable.toNat)) (rest.drop usable.toNat)
        else
          match planner.extend id with
          | none => none
          | some extension =>
            let task := { task with planner := extension.planner }
            if extension.extended then
              consume facts id rounds
                (match extension.cancelled with
                | some other => task.cancelWorker facts.now other
                | none => task) rest
            else if task.planner.length ≥ 0 ∧
                planned.position ≥ task.planner.length then
              some (task, rest, .overrun)
            else
              some (task.updateWorker id fun worker =>
                { worker with done := true }, rest, .ended)
      | _, _ => none

/-- Counts `amount` bytes that were used. -/
def countBytes (amount : Int) : HttpTask F :=
  { task.updateSlot worker.slot fun slot => { slot with failures := 0 } with
    planner := if worker.receiving then task.planner
      else task.planner.noteStartup (seconds (facts.now - worker.started))
    unflushed := task.unflushed + amount }.updateWorker id fun worker =>
      { worker with
        lastData := facts.now
        receiving := true
        tickBytes := worker.tickBytes + amount
        received := worker.received + amount }

/-- A raced range finished elsewhere: the slower copy gives way. -/
def endCopies : HttpTask F :=
  task.planner.redundant.foldl (fun task other =>
    if other = id then
      task.updateWorker id fun worker => { worker with done := true }
    else task.cancelWorker facts.now other) task

/-- The rest of `receive`, after `amount` bytes were used. -/
def received (amount : Int) : HttpTask F :=
  let task := (task.countBytes facts id worker amount).endCopies facts id
  let threshold := clampInt
    (writeBudget / (4 * max (task.workers.entries.length : Int) 1))
    minFlushSize maxFlushSize
  match task.workers.find? id with
  | none => task
  | some worker =>
    if worker.done then (task.flush id).tryFinish facts
    else if worker.buffer.length ≥ threshold then task.flush id
    else task

/-- Body bytes of an accepted response. -/
def receive (chunk : List UInt8) : HttpTask F :=
  match task.workers.find? id with
  | none => task
  | some worker =>
    if task.phase = .stopping ∨ task.phase = .done ∨
        task.phase = .restarting ∨ worker.done then task
    else if task.unflushed > writeBudget ∨ !facts.available then
      (if task.unflushed > writeBudget
        then task.workers.keys.foldl flush task else task).updateWorker id
          fun worker => { worker with paused := true }
    else
      match consume facts id
        (2 * chunk.length + task.planner.workers.entries.length + 1)
        (task.updateWorker id fun worker =>
          { worker with body := worker.body ++ chunk }) chunk with
      | none => task
      | some (task, _, .overrun) =>
        { task with rangesDistrusted := true }.changed facts
          "the server sent more than the length it announced"
      | some (task, rest, _) =>
        task.received facts id worker (chunk.length - rest.length)

/-- Bytes arrive.  SFTP has no header block; its first bytes stand for the
response.  A worker that `accept` cancelled has left the planner, and the
source would then read through a null pointer. -/
def onData (chunk : List UInt8) (remaining : Int) : HttpTask F :=
  let task := task.accept facts id remaining
  if (task.workers.find? id).any Worker.accepted then
    task.receive facts id chunk
  else task

/-- The file is open. -/
def outputReady (error : Option String) : HttpTask F :=
  if task.phase ≠ .opening then task.quiesce
  else
    match error with
    | some reason =>
      task.abort facts .fileCreate ("Cannot open " ++ task.diskPath ++ ": " ++ reason)
    | none =>
      let task := { task with phase := .running }.checkpoint false
      let task := task.held.foldl write { task with held := [] }
      let task := task.workers.keys.foldl flush task
      (task.tryFinish facts).launch facts

def written (offset size : Int) (error : Option String) : HttpTask F :=
  let task :=
    { task with
      pendingWrites := task.pendingWrites - 1
      unflushed := task.unflushed - size }
  if task.phase = .restarting then task.restartWhenQuiet
  else
    match error with
    | some reason =>
      task.abort facts .fileIo ("Cannot write " ++ task.diskPath ++ ": " ++ reason)
    | none =>
      let task :=
        { task with persisted := task.persisted.add offset (offset + size) }
      if task.phase = .stopping then task.quiesce else task.tryFinish facts

/-- The file of the old representation is closed. -/
def restart : HttpTask F :=
  if task.phase ≠ .restarting then task.quiesce
  else
    { task.reset with
      etag := ""
      lastModified := ""
      ranged := !task.rangesDistrusted
      phase := .probing }.launch facts

/-- Gives the finished file its final name. -/
def publish : Bool × HttpTask F :=
  match (if facts.fileExists task.path ∧ !task.options.allowOverwrite then
      (if task.options.autoFileRenaming then facts.numbered task.path
        else none)
    else some task.path) with
  | none => (false, task.abort facts .fileExists (task.path ++ " already exists"))
  | some path =>
    let task := { task with path }
    match facts.renameError with
    | some reason => (false, task.abort facts .renameFailed
        ("Cannot rename " ++ task.diskPath ++ " to " ++ path ++ ": " ++ reason))
    | none => (true, { task with suffix := "" })

def succeed : HttpTask F :=
  match (if task.suffix = "" then (true, task) else task.publish facts) with
  | (false, task) => task
  | (true, task) =>
    { task with phase := .done, stored := none }.report .complete

/-- The finished file is closed. -/
def finishClosed : HttpTask F :=
  let task := { task with output := false }
  if task.phase ≠ .finishing then task.quiesce
  else if task.options.checksum ≠ "" then task.queue .verified
  else if task.pieceSources.isEmpty then task.succeed facts
  else task.queue (.piecesChecked "")

/-- The checksum of the file was computed. -/
def verified (failure : Option String) : HttpTask F :=
  if task.phase ≠ .finishing then task.quiesce
  else
    match failure with
    | none => task.succeed facts
    | some failure =>
      if task.pieceSources.isEmpty then
        { task with phase := .running }.abort facts .checksum failure
      else task.queue (.piecesChecked failure)

/-- One bad piece is forgotten; a mirror that alone delivered it is not asked
again while others remain. -/
def forgetPiece (piece : Nat) : HttpTask F :=
  let begin := piece * task.pieceLength
  let stop := min (begin + task.pieceLength) task.planner.length
  let mirrors := task.pieceSources.getD piece []
  let task :=
    { task with
      planner := task.planner.forget begin stop
      persisted := task.persisted.remove begin stop
      pieceSources := task.pieceSources.set piece [] }
  match mirrors with
  | [mirror] =>
    if (task.sources.filter fun source => !source.dead).length > 1 then
      task.updateSource mirror fun source => { source with dead := true }
    else task
  | _ => task

def repair (bad : List Nat) : HttpTask F :=
  { bad.foldl forgetPiece { task with repairs := task.repairs + 1 } with
    phase := .opening }.openOutput false

/-- The pieces of the file were hashed. -/
def piecesChecked (failure : String) (bad : Option (List Nat)) : HttpTask F :=
  if task.phase ≠ .finishing then task.quiesce
  else
    match bad with
    | none => { task with phase := .running }.abort facts .checksum
        ("Cannot check the " ++ task.pieceType ++ " piece hashes")
    | some [] =>
      if failure = "" then task.succeed facts
      else { task with phase := .running }.abort facts .checksum failure
    | some bad =>
      if task.repairs < maxRepairs then task.repair bad
      else { task with phase := .running }.abort facts .checksum
        (toString bad.length ++ " piece(s) failed their hash")

def allDead : Bool := task.sources.all Source.dead

/-- How long an overloaded source is left alone. -/
def overloadWait : Int :=
  let failures := (task.slots.getD worker.slot freshSlot).failures
  match worker.response.retryAfter with
  | some seconds => max (task.backoff facts failures) (min seconds 600 * 1000)
  | none => task.backoff facts failures

/-- A server that asks for a pause, or caps the connections of a client. -/
def overloaded (status : Int) (receiving : Int) : HttpTask F :=
  let wait := task.overloadWait facts worker
  let task := task.updateSource worker.source fun source =>
    { source with readyAt := facts.now + wait }
  let transferring := if task.pooled then max receiving facts.transferring
    else receiving
  if task.allDead then
    task.abort facts .serviceUnavailable ("HTTP " ++ toString status)
  else if transferring = 0 then
    task.slotFailed facts worker.slot .serviceUnavailable ("HTTP " ++ toString status) wait
  else if task.sources.length > 1 then task
  else task.updateSlot worker.slot fun slot =>
    { slot with readyAt := facts.now + wait }

/-- The answer of a source that has no such file. -/
def missing (status : Int) : HttpTask F :=
  let task := task.updateSource worker.source fun source =>
    { source with
      notFound := source.notFound + 1
      dead := source.dead || source.notFound + 1 ≥
        max task.options.maxFileNotFound 1 || task.sources.length > 1 }
  let code := if status = 403 then .httpProtocol else .resourceNotFound
  if task.allDead then task.abort facts code ("HTTP " ++ toString status)
  else task.slotFailed facts worker.slot code ("HTTP " ++ toString status) 0

/-- An HTTP error, after the connection was retired. -/
def failedStatus (status : Int) : HttpTask F :=
  let receiving := task.workers.values.countP Worker.receiving
  if status = 429 ∨ status = 503 ∨ status = 403 ∧ receiving > 0 then
    task.overloaded facts worker status receiving
  else if status = 416 ∧ task.planner.length ≥ 0 then
    task.changed facts "range not satisfiable"
  else if status = 412 ∧ task.planner.length ≥ 0 then
    task.changed facts "precondition failed"
  else if status = 403 ∨ status = 404 ∨ status = 410 ∨ status = 451 then
    task.missing facts worker status
  else if status = 401 ∨ status = 407 then
    task.abort facts .httpAuth ("HTTP " ++ toString status ++ ": authorization failed")
  else
    task.slotFailed facts worker.slot (if status ≥ 500 then .network else .httpProtocol)
      ("HTTP " ++ toString status) 0

/-- A failure counts against its source. -/
def blameSource (index : Nat) : HttpTask F :=
  task.updateSource index fun source =>
    let failures := source.failures + 1
    if task.sources.length > 1 then
      { source with
        failures
        readyAt := facts.now + task.backoff facts failures
        dead := source.dead || task.options.maxTries > 0 &&
          failures ≥ task.options.maxTries }
    else { source with failures }

/-- A request ended without success.  `detour` tells that `blameFamily` blames
the address family, with the destination it pins, if any. -/
def failedResponse (code : CurlCode) (status : Int) (detour : Option (Option String)) : HttpTask F
    :=
  match detour with
  | some pinned =>
    (((task.updateSource worker.source fun source =>
      { source with redirect := pinned.getD source.redirect }).retireWorker
        facts.now id).updateSlot worker.slot fun slot =>
          { slot with readyAt := 0 }).launch facts
  | none =>
    let empty := code = .httpReturnedError ∧ status = 416 ∧ task.ranged ∧
      task.planner.length < 0 ∧ worker.response.unsatisfied = some 0
    let task := task.retireWorker facts.now id
    if empty then { task with ranged := false }.launch facts
    else if code = .httpReturnedError ∧ worker.redirected ∧
        (status = 401 ∨ status = 403 ∨ status = 404 ∨ status = 410) then
      -- an expired destination: back through the original URI
      (task.updateSource worker.source fun source =>
        { source with
          redirect := ""
          refreshing := source.refreshing || source.redirect ≠ "" }).launch facts
    else
      let task := task.blameSource facts worker.source
      if code = .httpReturnedError then task.failedStatus facts worker status
      else
        let task := if permanent code then
            task.updateSource worker.source fun source =>
              { source with dead := true }
          else task
        if permanent code ∧ task.allDead then
          task.abort facts (curlError code) facts.errorText
        else
          task.slotFailed facts worker.slot (curlError code) facts.errorText 0

/-- A stream without a declared length ends where the server stops. -/
def endStream : HttpTask F :=
  match task.planner.workers.find? id with
  | some planned =>
    if task.planner.length < 0 then
      { task with planner := task.planner.setLength planned.position }
    else task
  | none => task

/-- A request ended. -/
def finished (code : CurlCode) (status : Int) (detour : Option (Option String)) : HttpTask F :=
  match task.workers.find? id with
  | none => task
  | some worker =>
    let task := task.flush id
    if task.phase = .stopping ∨ task.phase = .done ∨
        task.phase = .restarting then
      (task.retireWorker facts.now id).quiesce
    else if code ≠ .ok ∧ ¬ (worker.done ∧ code = .writeError) then
      task.failedResponse facts id worker code status detour
    else
      let task := task.endStream id
      let short : Bool := code = .ok && !worker.done &&
        (task.planner.workers.find? id).any fun planned =>
          planned.position < planned.stop
      let task := task.retireWorker facts.now id
      if short then
        task.slotFailed facts worker.slot .network
          "The connection closed before the range was complete" 0
      else (task.tryFinish facts).launch facts

/-- Connections that give way to new ones on the same slots: what
`leaveSlowFamily` and `recycleSlow` decide. -/
def replaceWorkers (ids : List Int) : HttpTask F :=
  if task.phase ≠ .running ∨ !task.ranged then task
  else ids.foldl (fun task id =>
    match task.workers.find? id with
    | none => task
    | some worker =>
      (task.cancelWorker facts.now id).updateSlot worker.slot fun slot =>
        { slot with readyAt := 0 }) task

/-- The connection with the most left to fetch. -/
def shedVictim : Option Int :=
  (task.workers.keys.foldl (fun (best : Option Int × Int) id =>
    let left := match task.planner.workers.find? id with
      | some planned => planned.stop - planned.position
      | none => 0
    if left > best.2 then (some id, left) else best) (none, -1)).1

/-- Cancels connections beyond the allowance, one a round. -/
def shed (now allowed : Int) : Nat → HttpTask F → HttpTask F
  | 0, task => task
  | rounds + 1, task =>
    if (task.workers.entries.length : Int) > max allowed 1 then
      match task.shedVictim with
      | none => task
      | some victim => shed now allowed rounds (task.cancelWorker now victim)
    else task

def shedConnections : HttpTask F :=
  if !task.pooled ∨ task.phase ≠ .running then task
  else shed facts.now (task.allowedConnections facts) task.workers.entries.length task

/-- The bytes since the last tick make a speed sample. -/
def sampleSpeed : HttpTask F :=
  { task with
    planner := task.planner.updateSpeed id
      (Double.ofInt worker.tickBytes / seconds tickInterval)
      (seconds tickInterval) }.updateWorker id fun worker =>
        { worker with tickBytes := 0 }

/-- Bytes do not wait long in a buffer. -/
def flushOld : HttpTask F :=
  if worker.buffer ≠ [] ∧ facts.now - worker.bufferedSince ≥ flushAfter then
    task.flush id
  else task

/-- The stall clock starts once the connection is up. -/
def noteConnected : HttpTask F :=
  if !worker.connected && facts.connected id then
    task.updateWorker id fun worker =>
      { worker with connected := true, lastData := facts.now }
  else task

/-- The part of `tick` about one connection, as it was before the tick. -/
def tickWorker (task : HttpTask F) (entry : Int × Worker) : HttpTask F :=
  let (id, worker) := entry
  let task := (task.sampleSpeed id worker).flushOld facts id worker
  if worker.paused then
    if task.unflushed ≤ writeBudget ∧ facts.available then
      task.updateWorker id fun worker =>
        { worker with paused := false, lastData := facts.now }
    else task
  else if worker.connected ∧ facts.now - worker.lastData > stallAfter then
    ((task.noteConnected facts id worker).cancelWorker facts.now id).slotFailed
      facts worker.slot .timedOut "Connection stalled" 1000
  else task.noteConnected facts id worker

/-- The timer; `moved` and `replaced` are connections that have become slow. -/
def tick (moved replaced : List Int) : HttpTask F :=
  if task.phase ≠ .probing ∧ task.phase ≠ .opening ∧ task.phase ≠ .running
  then task
  else
    let task := task.replaceWorkers facts moved
    let task := task.workers.entries.foldl (tickWorker facts) task
    let task := task.replaceWorkers facts replaced
    (task.shedConnections facts).launch facts

/-- Removes the first source with the URI, unless it is in use. -/
def removeUri (sources : List Source) (uri : String) : List Source :=
  match sources.findIdx? fun source => source.uri = uri with
  | none => sources
  | some index =>
    if (sources[index]?).any fun source => source.active = 0 then
      sources.eraseIdx index
    else sources

/-- The edit of `changeUris`. -/
def editUris (remove add : List String) (position : Int) : HttpTask F :=
  let sources := remove.foldl removeUri task.sources
  let size : Int := sources.length
  let place := clampInt (if position < 0 then size else position) 0 size
  let fresh := add.zipIdx.map fun entry : String × Nat =>
    ({ uri := entry.1, uid := task.nextSource + entry.2 } : Source)
  { task with
    sources := sources.take place.toNat ++ fresh ++ sources.drop place.toNat
    nextSource := task.nextSource + add.length }

/-- `changeUris` of the only file; `active` tells the state of the task. -/
def changeUris (remove add : List String) (position : Int) (active : Bool) : HttpTask F :=
  let task := task.editUris remove add position
  if active then task.launch facts else task

/-- The engine starts anew: the task is built again from its session and the
store is what remains. -/
def recreate : HttpTask F :=
  { create task.options (task.sources.map Source.uri) task.declared
      task.pieceType task.pieceLength task.pieceSources.length with
    stored := task.stored
    writes := task.writes
    opens := task.opens
    adopted := task.adopted
    reports := task.reports }

/-- What a disk job or posted handler brings. -/
structure JobResult where
  /-- The error of an open or a write, or a checksum that differs. -/
  error : Option String := none
  /-- The pieces that failed their hash, if they could be hashed. -/
  bad : Option (List Nat) := none

def jobDone (result : JobResult) : Job → HttpTask F
  | .opened => task.outputReady facts result.error
  | .written offset size => task.written facts offset size result.error
  | .restart => task.restart facts
  | .finishClosed => task.finishClosed facts
  | .stopClosed => task.stopClosed
  | .verified => task.verified facts result.error
  | .piecesChecked failure => task.piecesChecked facts failure result.bad

/-- A call of the engine, the client, the disk pool or a timer. -/
inductive Input where
  | start
  | stop
  | header (id : Int) (response : Response)
  | data (id : Int) (chunk : List UInt8) (remaining : Int)
  | done (id : Int) (code : CurlCode) (status : Int) (detour : Option (Option String))
  | jobDone (job : Job) (result : JobResult)
  | tick (moved replaced : List Int)
  | changeUris (remove add : List String) (position : Int) (active : Bool)
  | checkpoint (complete : Bool)
  | loadProgress
  | discardState
  | recreate

/-- An input together with what the surroundings answer. -/
structure Event (F : Type u) [Double F] where
  input : Input
  facts : Facts F := {}

def step (event : Event F) : HttpTask F :=
  let facts := event.facts
  match event.input with
  -- the engine starts a task that is at rest, with every stop answered
  | .start =>
    if (task.phase = .idle ∨ task.phase = .done) ∧ .stopClosed ∉ task.jobs
    then task.start facts else task
  | .stop => task.stop facts
  | .header id response => task.onHeader facts id response
  | .data id chunk remaining => task.onData facts id chunk remaining
  | .done id code status detour =>
    task.finished facts id code status detour
  | .jobDone job result =>
    if job ∈ task.jobs then
      { task with jobs := task.jobs.erase job }.jobDone facts result job
    else task
  | .tick moved replaced => task.tick facts moved replaced
  | .changeUris remove add position active =>
    task.changeUris facts remove add position active
  | .checkpoint complete => task.checkpoint complete
  -- the engine asks for it when it adds the task
  | .loadProgress => if task.phase = .idle then task.loadProgress facts
      else task
  | .discardState => { task with stored := none }
  | .recreate => task.recreate

end Aria2Next.HttpTask
