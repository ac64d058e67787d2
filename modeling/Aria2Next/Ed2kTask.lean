/-
`ed2k/Parts` and `ed2k/Ed2kTask`: one ED2K file, downloaded part by part.
Every disk job runs on the strand of the file and calls back on the control
thread; jobs that have not called back are part of the state, and an input
says which one calls back with which result.

A digest is any type with decidable equality.  What the store, the file
system, the options and the clock answer are inputs.  Sources, the network,
uploads and speeds do not decide how a run ends and are left out.
-/
import Aria2Next.Ranges

namespace Aria2Next

universe u

def pieceLength : Int := 9728000

/-- Number of hashes in a hash set; small files have none. -/
def hashSetPartCount (fileSize : Int) : Nat :=
  if fileSize ≤ 0 then 0
  else
    let fullParts := (fileSize / pieceLength).toNat
    if fullParts = 0 then 0 else fullParts + 1

/-- Progress of a file split into parts. -/
structure Parts where
  size : Int
  verified : List Bool
  received : RangeSet

namespace Parts

def ofSize (size : Int) : Parts :=
  { size
    verified := List.replicate
      ((size + pieceLength - 1) / pieceLength).toNat false
    received := ∅ }

variable (parts : Parts) (index : Nat)

def count : Nat := parts.verified.length

def part : Range :=
  (index * pieceLength, min (index * pieceLength + pieceLength) parts.size)

def partOf (offset : Int) : Nat := (offset / pieceLength).toNat

def isVerified : Bool := parts.verified.getD index false

def complete : Bool := parts.verified.all id

/-- Received bytes, verified or not. -/
def completed : Int := parts.received.total

def filled : Bool :=
  parts.received.contains (parts.part index).1 (parts.part index).2

/-- Records received bytes; returns the part they filled, if any. -/
def add (begin stop : Int) : Option Nat × Parts :=
  let begin := max begin 0
  let stop := min stop parts.size
  if begin ≥ stop then (none, parts)
  else
    let parts := { parts with received := parts.received.add begin stop }
    ((List.range' (partOf begin) (partOf (stop - 1) + 1 - partOf begin)).find?
      fun index => !parts.isVerified index && parts.filled index, parts)

def verify : Parts :=
  { parts with
    verified := parts.verified.set index true
    received := parts.received.add (parts.part index).1 (parts.part index).2 }

/-- A part failed its hash: its bytes are requested again. -/
def reject : Parts :=
  { parts with
    verified := parts.verified.set index false
    received := parts.received.remove (parts.part index).1
      (parts.part index).2 }

end Parts

/-- The ED2K link of a task. -/
structure Ed2kLink (D : Type u) where
  hash : D
  size : Int
  pieceHashes : List D

/-- The digests the task computes besides those of parts. -/
structure Hashing (D : Type u) where
  rootHash : List D → D
  /-- The digest of no data. -/
  nothing : D
  toHex : D → String

/-- `DownloadRecord`: what the store keeps of a download. -/
structure DownloadRecord (D : Type u) where
  fileHash : D
  path : String
  modified : Int
  parts : List Bool
  received : List Range
  /-- The part hashes of the stored link, when it parses. -/
  pieceHashes : Option (D × List D)

/-- What `open` finds: the stored record, the file system and the
options. -/
structure OpenFacts (D : Type u) where
  record : Option (DownloadRecord D)
  defaultPath : String
  fileExists : String → Bool
  fileSize : String → Int
  modificationTime : String → Int
  continue_ : Bool
  allowOverwrite : Bool
  /-- The numbered name, when automatic renaming finds one. -/
  numbered : Option String

namespace Ed2kTask

inductive Phase where
  | idle | opening | checking | downloading | sharing | closing
deriving DecidableEq, Repr

/-- `ErrorCode`, as far as the task reports it. -/
inductive Failure where
  | duplicateDownload | cannotResume | fileExists | fileCreate | fileIo
  | notEnoughDiskSpace
deriving DecidableEq, Repr

/-- The outcome of a run, with what `failed()` is told. -/
inductive Outcome where
  | stop
  | complete
  | fail (code : Failure) (message : String)
deriving DecidableEq, Repr

/-- Why a part was hashed. -/
inductive HashUse (D : Type u) where
  /-- `checkAll` without a hash set. -/
  | collect
  /-- `checkAll` with the expected digest. -/
  | check (expected : D)
  /-- `verifyFilled` with the expected digest. -/
  | verify (expected : D)
deriving DecidableEq, Repr

/-- A disk job that has not called back. -/
inductive Job (D : Type u) where
  | open (check : Bool)
  | write (begin stop : Int)
  | hash (index : Nat) (use : HashUse D)
  | sync
  | close
deriving DecidableEq, Repr

/-- How a run is reported: the callback of `stop`, `complete()` or
`failed()`. -/
inductive Report where
  | stopped
  | complete
  | failed (code : Failure) (message : String)
deriving DecidableEq, Repr

/-- An error of a disk job. -/
structure DiskError where
  noSpace : Bool
  message : String
deriving DecidableEq, Repr

end Ed2kTask

open Ed2kTask in
structure Ed2kTask (D : Type u) where
  hashing : Hashing D
  link : Ed2kLink D
  path : String := ""
  parts : Parts
  pieceHashes : List D := []
  phase : Phase := .idle
  outcome : Outcome := .stop
  /-- `opening_` holds the file. -/
  opening : Bool := false
  pendingWrites : Int := 0
  pendingHashes : Int := 0
  waitingForHashSet : List Nat := []
  unchecked : Bool := false
  localHashes : List (Option D) := []
  /-- `stopped_` holds a callback. -/
  stopped : Bool := false
  opened : Bool := false
  announced : Bool := false
  corruptParts : Nat := 0
  jobs : List (Job D) := []
  /-- Ghost: the reports since the last `start`. -/
  reports : List Report := []
  /-- Ghost: `stop` was called since the last `start`, before the run had
  ended. -/
  stopCalled : Bool := false
  /-- Ghost: the run was asked to end, by `stop` or by itself. -/
  ending : Bool := false

namespace Ed2kTask

variable {D : Type u} [DecidableEq D]

/-- The constructor: the hashes of the link count when they prove the file
hash. -/
def create (hashing : Hashing D) (link : Ed2kLink D) : Ed2kTask D :=
  let parts := Parts.ofSize link.size
  let count := hashSetPartCount link.size
  if count > 0 ∧ link.pieceHashes.length = count ∧
      hashing.rootHash link.pieceHashes = link.hash then
    { hashing, link, parts, pieceHashes := link.pieceHashes }
  else { hashing, link := { link with pieceHashes := [] }, parts }

variable (task : Ed2kTask D) (index : Nat)

def report (report : Report) : Ed2kTask D :=
  { task with reports := task.reports ++ [report] }

def queue (job : Job D) : Ed2kTask D := { task with jobs := task.jobs ++ [job] }

def needsHashSet : Bool :=
  hashSetPartCount task.link.size > 0 && task.pieceHashes.isEmpty

/-- Closes the file once no disk work is left. -/
def quiesce : Ed2kTask D :=
  if task.phase ≠ .closing ∨ task.pendingWrites > 0 ∨ task.pendingHashes > 0
  then task
  else { task.queue .close with pendingWrites := task.pendingWrites + 1 }

/-- Leaves the network, lets queued disk work end, then closes the file and
reports the outcome. -/
def finish (outcome : Outcome) : Ed2kTask D :=
  if task.phase = .closing then task
  else if task.phase = .idle then
    match outcome with
    | .fail code message => task.report (.failed code message)
    | _ => task
  else
    let closing := { task with outcome, phase := .closing, ending := true }
    -- while the file opens, `opened` continues
    if task.phase = .opening then closing else closing.quiesce

/-- The part of `evaluateSharing` and `tick` that ends a run; `enough` tells
whether the seed time or ratio is reached. -/
def evaluateSharing (enough : Bool) : Ed2kTask D :=
  if task.phase = .sharing ∧ enough then task.finish .complete else task

def downloaded (enough : Bool) : Ed2kTask D := evaluateSharing
    { task.queue .sync with
      phase := .sharing
      pendingWrites := task.pendingWrites + 1
      announced := task.announced ||
        decide (task.parts.completed = task.link.size) } enough

def digestPart (use : HashUse D) : Ed2kTask D :=
  { task.queue (.hash index use) with pendingHashes := task.pendingHashes + 1 }

/-- The digest a part must have. -/
def expected : D :=
  if task.pieceHashes.isEmpty then task.link.hash
  else task.pieceHashes.getD index task.link.hash

def verifyFilled : Ed2kTask D :=
  if task.needsHashSet then
    if index ∈ task.waitingForHashSet then task
    else { task with waitingForHashSet := task.waitingForHashSet ++ [index] }
  else task.digestPart index (.verify (task.expected index))

/-- Takes over the parts of an existing file that nobody wrote to since they
were hashed. -/
def keepLocal : Ed2kTask D :=
  { task with
    parts := (List.range task.parts.count).foldl (fun parts index =>
      if parts.isVerified index = false ∧
          parts.received.covered (parts.part index).1 (parts.part index).2 = 0 ∧
          task.localHashes.getD index none = some (task.expected index) then
        parts.verify index
      else parts) task.parts
    localHashes := [] }

def acceptHashSet (hashes : List D) (enough : Bool) : Bool × Ed2kTask D :=
  if task.needsHashSet = false then (true, task)
  else if hashes.length ≠ hashSetPartCount task.link.size ∨
      task.hashing.rootHash hashes ≠ task.link.hash then (false, task)
  else
    let waiting := task.waitingForHashSet
    let task :=
      { task with
        pieceHashes := hashes
        link := { task.link with pieceHashes := hashes }
        waitingForHashSet := [] }
    let task := waiting.foldl verifyFilled task
    if task.unchecked then
      let task := { task with unchecked := false }.keepLocal
      if task.parts.complete ∧ task.phase = .downloading then
        (true, task.downloaded enough)
      else (true, task)
    else (true, task)

/-- Attaches to the network and downloads, or shares a complete file. -/
def run (enough : Bool) : Ed2kTask D :=
  if task.parts.complete then { task with announced := true }.downloaded enough
  else { task with phase := .downloading }

def checkAll : Ed2kTask D :=
  let task := { task with phase := .checking }
  if task.needsHashSet then
    (List.range task.parts.count).foldl (fun task index => task.digestPart index .collect)
      { task with localHashes := List.replicate task.parts.count none }
  else
    (List.range task.parts.count).foldl (fun task index =>
      task.digestPart index (.check (task.expected index))) task

/-- Whether the stored record describes the file that is there. -/
def recordMatches (facts : OpenFacts D) (path : String) (record : DownloadRecord D) : Bool :=
  record.fileHash = task.link.hash && facts.fileExists path &&
    facts.fileSize path = task.link.size &&
    record.modified = facts.modificationTime path

/-- Progress of our own file, unchanged since it was saved. -/
def loadRecord (record : DownloadRecord D) : Ed2kTask D :=
  let verified := (record.parts.zipIdx.filter fun entry =>
    entry.1 && entry.2 < task.parts.count).foldl
      (fun parts entry => parts.verify entry.2) task.parts
  let added := record.received.foldl (fun (found, parts) range =>
    let (filled, parts) := parts.add range.1 range.2
    (found ++ filled.toList, parts)) ([], verified)
  let task :=
    { task with parts := added.2, waitingForHashSet := added.1 }
  match record.pieceHashes with
  | some (hash, hashes) =>
    if task.pieceHashes.isEmpty ∧ hash = task.link.hash ∧
        hashes.length = hashSetPartCount task.link.size ∧
        task.hashing.rootHash hashes = task.link.hash then
      { task with
        pieceHashes := hashes
        link := { task.link with pieceHashes := hashes } }
    else task
  | none => task

/-- How `open` goes on for a file that exists: whether it is checked, and
under which name it is opened. -/
def existingFile (facts : OpenFacts D) (path : String) :
    Except (Failure × String) (Bool × String) :=
  let existing := facts.fileSize path
  if (facts.record.any fun record => record.path = path) then
    .ok (existing = task.link.size, path)
  else if existing = task.link.size ∨ facts.continue_ then
    if existing > task.link.size then
      .error (.cannotResume, path ++ " is larger than the ED2K file")
    else .ok (true, path)
  else if facts.allowOverwrite then .ok (false, path)
  else
    match facts.numbered with
    | some path => .ok (false, path)
    | none => .error (.fileExists, path ++ " already exists")

/-- Picks the file and queues the job that opens it. -/
def open_ (facts : OpenFacts D) : Ed2kTask D :=
  let path := match facts.record with
    | some record =>
      if record.path = "" then facts.defaultPath else record.path
    | none => facts.defaultPath
  let task :=
    { task with
      phase := .opening
      opened := false
      parts := Parts.ofSize task.link.size
      waitingForHashSet := []
      unchecked := false
      path }
  let opening (task : Ed2kTask D) (check : Bool) : Ed2kTask D :=
    { task.queue (.open check) with opening := true }
  match facts.record.filter (task.recordMatches facts path) with
  | some record => opening (task.loadRecord record) false
  | none =>
    if facts.fileExists path then
      match task.existingFile facts path with
      | .error (code, message) =>
        { task.report (.failed code message) with
          phase := .idle
          ending := true }
      | .ok (check, path) => opening { task with path } check
    else opening task false

/-- Begins a run; `duplicate` tells whether another task downloads the same
file. -/
def start (duplicate : Bool) (facts : OpenFacts D) : Ed2kTask D :=
  if task.phase ≠ .idle then task
  else
    let task := { task with reports := [], stopCalled := false, ending := false }
    if duplicate then
      { task.report (.failed .duplicateDownload
          ("The ED2K file " ++ task.hashing.toHex task.link.hash ++
            " is already being downloaded")) with
        ending := true }
    else
      { task with outcome := .stop, announced := false, corruptParts := 0 }.open_ facts

def stop : Ed2kTask D :=
  -- an idle task answers at once, and no run is under way
  if task.phase = .idle then task
  else { task with stopped := true, stopCalled := true, ending := true }.finish .stop

/-- The job that opens the file has ended. -/
def openDone (error : Option DiskError) (check enough : Bool) : Ed2kTask D :=
  let task := { task with opening := false }
  if task.phase ≠ .opening then task.quiesce
  else
    match error with
    | some error =>
      task.finish (.fail .fileCreate ("Cannot open " ++ task.path ++ ": " ++ error.message))
    | none =>
      let task := { task with opened := true }
      if check then task.checkAll
      else
        let pending := task.waitingForHashSet
        let task := { task with waitingForHashSet := [] }.run enough
        pending.foldl verifyFilled task

def writeDone (error : Option DiskError) : Ed2kTask D :=
  let task := { task with pendingWrites := task.pendingWrites - 1 }
  match error with
  | some error =>
    if task.phase = .closing then task.quiesce
    else
      task.finish (.fail (if error.noSpace then .notEnoughDiskSpace else .fileIo)
        ("Cannot write " ++ task.path ++ ": " ++ error.message))
  | none => task.quiesce

/-- A filled part was hashed. -/
def partVerified (ok enough : Bool) : Ed2kTask D :=
  if task.phase ≠ .downloading ∨ task.parts.isVerified index then task
  else if ok = false then
    { task with
      corruptParts := task.corruptParts + 1
      parts := task.parts.reject index }
  else
    let task := { task with parts := task.parts.verify index }
    if task.parts.complete then task.downloaded enough else task

/-- All parts of an existing file are hashed: the digests may prove
themselves against the file hash. -/
def allCollected (enough : Bool) : Ed2kTask D :=
  let hashes := task.localHashes.filterMap id
  let hashes := if hashes.length < hashSetPartCount task.link.size
    then hashes ++ [task.hashing.nothing] else hashes
  match task.acceptHashSet hashes enough with
  | (true, task) =>
    { task with
      parts := (List.range task.parts.count).foldl Parts.verify
        task.parts }.run enough
  | (false, task) => { task with unchecked := true }.run enough

/-- The digest of a part of an existing file, without a hash set. -/
def collected (digest : D) (enough : Bool) : Ed2kTask D :=
  let task :=
    { task with localHashes := task.localHashes.set index (some digest) }
  if task.pendingHashes = 0 ∧ task.phase = .checking then
    task.allCollected enough
  else task

/-- The digest of a part of an existing file, with a hash set. -/
def compared (ok enough : Bool) : Ed2kTask D :=
  let task := if ok then { task with parts := task.parts.verify index }
    else task
  if task.pendingHashes = 0 ∧ task.phase = .checking then task.run enough
  else task

def hashDone (use : HashUse D) (digest : Except DiskError D) (enough : Bool) : Ed2kTask D :=
  let task := { task with pendingHashes := task.pendingHashes - 1 }
  if task.phase = .closing then task.quiesce
  else
    match digest with
    | .error error =>
      task.finish (.fail .fileIo ("Cannot read " ++ task.path ++ ": " ++ error.message))
    | .ok digest =>
      match use with
      | .collect => task.collected index digest enough
      | .check expected => task.compared index (digest = expected) enough
      | .verify expected =>
        task.partVerified index (digest = expected) enough

def syncDone : Ed2kTask D :=
  { task with pendingWrites := task.pendingWrites - 1 }.quiesce

/-- The file is closed: the run is reported. -/
def closeDone : Ed2kTask D :=
  let task :=
    { task with pendingWrites := task.pendingWrites - 1, phase := .idle }
  if task.stopped then { task.report .stopped with stopped := false }
  else
    match task.outcome with
    | .complete => task.report .complete
    | .fail code message => task.report (.failed code message)
    | .stop => task

/-- Data of a claimed block. -/
def receive (begin size : Int) : Ed2kTask D :=
  let stop := min (begin + size) task.link.size
  if task.phase ≠ .downloading ∨ size ≤ 0 ∨ begin < 0 ∨ begin ≥ stop then task
  else
    let (filled, parts) := task.parts.add begin stop
    let task :=
      { task.queue (.write begin stop) with
        parts
        pendingWrites := task.pendingWrites + 1 }
    match filled with
    | some index => task.verifyFilled index
    | none => task

/-- What a disk job brought. -/
structure JobResult (D : Type u) where
  error : Option DiskError := none
  /-- The digest of a hashed part. -/
  digest : Except DiskError D := .error ⟨false, ""⟩
  /-- Whether the seed time or ratio is reached at that moment. -/
  enough : Bool := false

/-- A disk job calls back. -/
def jobDone (result : JobResult D) : Job D → Ed2kTask D
  | .open check => task.openDone result.error check result.enough
  | .write _ _ => task.writeDone result.error
  | .hash index use => task.hashDone index use result.digest result.enough
  | .sync => task.syncDone
  | .close => task.closeDone

inductive Input (D : Type u) where
  | start (duplicate : Bool) (facts : OpenFacts D)
  | stop
  | receive (begin size : Int)
  /-- A source sends the hash set; sources exist while downloading only. -/
  | hashSet (hashes : List D) (enough : Bool)
  /-- The timer, or a changed seed option. -/
  | tick (enough : Bool)
  | jobDone (job : Job D) (result : JobResult D)

def step : Input D → Ed2kTask D
  | .start duplicate facts => task.start duplicate facts
  | .stop => task.stop
  | .receive begin size => task.receive begin size
  | .hashSet hashes enough =>
    if task.phase = .downloading then (task.acceptHashSet hashes enough).2
    else task
  | .tick enough => task.evaluateSharing enough
  | .jobDone job result =>
    if job ∈ task.jobs then
      { task with jobs := task.jobs.erase job }.jobDone result job
    else task

end Ed2kTask

end Aria2Next
