/-
One ED2K download as a system: the task, the clients that claim and send
blocks, the strand of the file with the bytes of the queued writes, the file
itself and the row in the store.

The strand runs the queued jobs in order, one at a time, and each calls back
on the control thread some time after it ran, in that order too.  Data is a
function of the offset in the file, so that a block is its range and such a
function.
-/
import Aria2Next.Ed2kSwarm
import Aria2Next.Ed2kStore

namespace Aria2Next

open Ed2kTask

universe u v w

/-- The digest of a part, over the bytes of the file. -/
abbrev PartHash (B : Type v) (D : Type u) := List B → D

structure Ed2kDownload (D : Type u) (B : Type v) (O : Type w) where
  task : Ed2kTask D
  swarm : Swarm O := {}
  /-- What the writes that have not run will write, in the order of the
  queue. -/
  payloads : List (Int → B) := []
  /-- The results of the jobs that ran and have not called back, the first of
  `task.jobs`. -/
  ran : List (JobResult D) := []
  /-- The bytes of the file. -/
  file : Int → B
  /-- The row of this download in the store. -/
  stored : Option (Ed2kStore.DownloadRow D) := none
  /-- Ghost: every job queued so far, in order. -/
  log : List (Job D) := []
  /-- Ghost: for a part, the number in `log` of the hash job that called back
  last while the part was not verified. -/
  hashed : Nat → Option Nat := fun _ => none

namespace Ed2kDownload

variable {D : Type u} {B : Type v} {O : Type w}

/-- The bytes of a range. -/
def bytes (file : Int → B) (range : Range) : List B :=
  (List.range (range.2 - range.1).toNat).map fun (offset : Nat) =>
    file (range.1 + offset)

def overwrite (file : Int → B) (begin stop : Int) (data : Int → B) : Int → B :=
  fun offset => if begin ≤ offset ∧ offset < stop then data offset
    else file offset

/-- The task has moved on: what it queued is logged, and a task that no longer
downloads drops its sources. -/
def become (download : Ed2kDownload D B O) (task : Ed2kTask D) : Ed2kDownload D B O :=
  { download with
    task
    log := download.log ++ task.jobs.drop download.task.jobs.length
    swarm := if task.phase = .downloading then download.swarm else {} }

def save (download : Ed2kDownload D B O) (modified : Int) (parses : Bool) : Ed2kDownload D B O :=
  { download with
    stored := some (Ed2kStore.saveDownload download.task.link.size
      (download.task.record modified parses)) }

def checkpoint (download : Ed2kDownload D B O) (modified : Int)
    (parses : Bool) : Ed2kDownload D B O :=
  if download.task.checkpoints then download.save modified parses else download

/-- The task moves on in a callback that ends with a checkpoint when the file
is complete or the run over.  A complete file that was shared enough before is
closing by then. -/
def becomeSaved (download : Ed2kDownload D B O) (task : Ed2kTask D)
    (modified : Int) (parses : Bool) : Ed2kDownload D B O :=
  if task.opened ∧ download.task.phase ≠ task.phase ∧
      (task.phase = .sharing ∨ task.phase = .idle ∨
        (task.phase = .closing ∧ task.outcome = .complete ∧ download.task.phase ≠ .sharing)) then
    (download.become task).save modified parses
  else download.become task

variable [DecidableEq D] [DecidableEq O]

/-- Data from a client: what it did not claim is not taken. -/
def receiveBlock (download : Ed2kDownload D B O) (owner : O) (begin stop : Int) (size : Nat)
    (data : Int → B) (ask : Parts.Ask) : Ed2kDownload D B O :=
  if (download.swarm.clients owner).downloading = false then download
  else if stop ≤ begin ∨ stop - begin ≠ size then
    -- a protocol error ends the connection
    { download with swarm := download.swarm.stopDownloading owner }
  else if Parts.claimed download.swarm.claims owner begin stop = false then
    download
  else
    let task := download.task.receive begin size
    let written := task.jobs.length > download.task.jobs.length
    let download :=
      { download.become task with
        payloads := download.payloads ++ if written then [data] else [] }
    { download with
      swarm := download.swarm.noteReceived task.parts owner begin stop ask }

/-- The strand runs the next job.  A file opened anew holds `fresh`, if it is
not the one that was there. -/
def work (partHash : PartHash B D) (download : Ed2kDownload D B O) (error : Option DiskError)
    (fresh : Option (Int → B)) : Ed2kDownload D B O :=
  match download.task.jobs[download.ran.length]? with
  | none => download
  | some job =>
    let done (result : JobResult D) : Ed2kDownload D B O :=
      { download with ran := download.ran ++ [result] }
    match job with
    | .open _ => { done { error } with file := fresh.getD download.file }
    | .write begin stop =>
      let file := match download.payloads.head?, error with
        | some data, none => overwrite download.file begin stop data
        | _, _ => download.file
      { done { error } with payloads := download.payloads.tail, file }
    | .hash index _ =>
      done { digest := match error with
        | some error => .error error
        | none => .ok (partHash (bytes download.file
            (download.task.parts.part index))) }
    | .sync => done { error }
    | .close => done { error }

/-- The first job that ran calls back; `modified` and `parses` are for the
checkpoint that ends a run or a download. -/
def callBack (download : Ed2kDownload D B O) (enough : Bool) (modified : Int)
    (parses : Bool) : Ed2kDownload D B O :=
  match download.task.jobs, download.ran with
  | job :: rest, result :: ran =>
    let next := { download.task with jobs := rest }.jobDone
      { result with enough } job
    let number := download.log.length - download.task.jobs.length
    let hashed := match job with
      | .hash index _ =>
        if download.task.parts.isVerified index then download.hashed
        else Function.update download.hashed index (some number)
      | _ => download.hashed
    { download with task := { download.task with jobs := rest }, ran, hashed
      }.becomeSaved next modified parses
  | _, _ => download

inductive Event (D : Type u) (B : Type v) (O : Type w) where
  /-- The record that `open` reads is the stored one. -/
  | start (duplicate : Bool) (facts : OpenFacts D)
  | stop
  /-- `OP_ACCEPTUPLOADREQ` of a client. -/
  | accept (owner : O) (partStatus : List Bool) (ask : Parts.Ask)
  /-- The client ends its upload, times out or leaves. -/
  | leave (owner : O)
  | block (owner : O) (begin stop : Int) (size : Nat) (data : Int → B) (ask : Parts.Ask)
  | hashSet (hashes : List D) (enough : Bool) (modified : Int) (parses : Bool)
  | tick (enough : Bool)
  | checkpoint (modified : Int) (parses : Bool)
  | work (error : Option DiskError) (fresh : Option (Int → B))
  | callBack (enough : Bool) (modified : Int) (parses : Bool)

def create (hashing : Hashing D) (link : Ed2kLink D) (file : Int → B) : Ed2kDownload D B O :=
  { task := Ed2kTask.create hashing link, file }

def step (partHash : PartHash B D) (download : Ed2kDownload D B O) :
    Event D B O → Ed2kDownload D B O
  | .start duplicate facts =>
    let facts :=
      { facts with record := download.stored.map Ed2kStore.loadDownload }
    download.become (download.task.start duplicate facts)
  | .stop => download.become download.task.stop
  | .accept owner partStatus ask =>
    if download.task.phase = .downloading then
      { download with
        swarm := download.swarm.accept download.task.parts owner partStatus
          ask }
    else download
  | .leave owner =>
    { download with swarm := download.swarm.stopDownloading owner }
  | .block owner begin stop size data ask =>
    download.receiveBlock owner begin stop size data ask
  | .hashSet hashes enough modified parses =>
    download.becomeSaved (download.task.step (.hashSet hashes enough)) modified parses
  | .tick enough => download.become (download.task.evaluateSharing enough)
  | .checkpoint modified parses => download.checkpoint modified parses
  | .work error fresh => download.work partHash error fresh
  | .callBack enough modified parses =>
    download.callBack enough modified parses

omit [DecidableEq D] [DecidableEq O] in
theorem becomeSaved_task (d : Ed2kDownload D B O) (t : Ed2kTask D) (m : Int) (p : Bool) :
    (d.becomeSaved t m p).task = t := by
  rw [becomeSaved]
  split <;> rfl

/-- A step of the system is at most one step of its task. -/
theorem step_task (p : PartHash B D) (d : Ed2kDownload D B O) (e : Event D B O) :
    (d.step p e).task = d.task ∨ ∃ i, (d.step p e).task = d.task.step i := by
  cases e with
  | start du f => exact .inr ⟨.start du _, rfl⟩
  | stop => exact .inr ⟨.stop, rfl⟩
  | accept o ps ask =>
    rw [step]
    split <;> exact .inl rfl
  | leave o => exact .inl rfl
  | block o begin stop size data ask =>
    rw [step, receiveBlock]
    split
    · exact .inl rfl
    split
    · exact .inl rfl
    split
    · exact .inl rfl
    · exact .inr ⟨.receive begin size, rfl⟩
  | hashSet hashes enough m pa =>
    exact .inr ⟨.hashSet hashes enough, becomeSaved_task _ _ _ _⟩
  | tick enough => exact .inr ⟨.tick enough, rfl⟩
  | checkpoint m pa =>
    rw [step, checkpoint]
    split <;> exact .inl rfl
  | work er fr =>
    rw [step, work]
    split
    · exact .inl rfl
    · split <;> exact .inl rfl
  | callBack enough m pa =>
    rw [step, callBack]
    split
    · rename_i job rest r ran hj _
      refine .inr ⟨.jobDone job { r with enough }, ?_⟩
      rw [becomeSaved_task, Ed2kTask.step,
        if_pos (hj ▸ List.mem_cons_self), hj, List.erase_cons_head]
    · exact .inl rfl

end Ed2kDownload

end Aria2Next
