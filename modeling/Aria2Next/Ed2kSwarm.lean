/-
`ed2k/Parts`, the claims, and the part of `ed2k/Client` that downloads: which
blocks a client asks for, and which data of it is taken.

A client is known by its address, any type with decidable equality.  What the
clock, the random numbers and the other clients contribute to a request are
inputs.
-/
import Aria2Next.Ed2kTask
import Aria2Next.OrdMap

namespace Aria2Next

universe u

/-- `Parts::Claim` with its key in `claims_`, the begin of the block. -/
structure Claim (O : Type u) where
  begin : Int
  stop : Int
  owner : O
  since : Int
deriving DecidableEq, Repr

def blockLength : Int := 184320

/-- In the endgame a block is duplicated only when its claim is this old, in
milliseconds. -/
def duplicateAfter : Int := 5000

namespace Parts

variable {O : Type u} [DecidableEq O]

/-- `claims_.emplace`: behind the claims of the same begin. -/
def emplace (claim : Claim O) : List (Claim O) → List (Claim O)
  | [] => [claim]
  | next :: rest =>
    if claim.begin < next.begin then claim :: next :: rest
    else next :: emplace claim rest

/-- One pass over the claims: a blocking claim that holds `begin` moves it and
ends the pass, one further on ends the stretch. -/
def sweep (blocking : Claim O → Bool) (begin stop : Int) : List (Claim O) → Bool × Range
  | [] => (false, begin, stop)
  | claim :: rest =>
    if claim.stop ≤ begin ∨ claim.begin ≥ stop ∨ blocking claim = false then
      sweep blocking begin stop rest
    else if claim.begin ≤ begin then (true, claim.stop, stop)
    else sweep blocking begin claim.begin rest

/-- The first stretch of a gap that no blocking claim covers.  A pass that
moves `begin` leaves a claim behind for good, so that `passes` is never more
than the number of claims. -/
def stretch (blocking : Claim O → Bool) (claims : List (Claim O)) : Nat → Range → Range
  | 0, range => range
  | passes + 1, (begin, stop) =>
    if begin < stop then
      match sweep blocking begin stop claims with
      | (true, range) => stretch blocking claims passes range
      | (false, range) => range
    else (begin, stop)

/-- The end of the block that `begin` lies in, on the grid of the part. -/
def grid (partBegin begin : Int) : Int :=
  partBegin + ((begin - partBegin) / blockLength + 1) * blockLength

/-- The loop of `claimGaps` from `start` on.  Every round claims a block or
leaves a gap behind, so that `rounds` is never more than `wanted` and the
number of gaps. -/
def claimLoop (parts : Parts) (owner : O) (index wanted : Nat) (endgame : Bool)
    (now : Int) : Nat → Int → List (Claim O) → List Range → List (Claim O) × List Range
  | 0, _, claims, out => (claims, out)
  | rounds + 1, start, claims, out =>
    if out.length ≥ wanted then (claims, out)
    else
      match parts.received.firstGap start (parts.part index).2 with
      | none => (claims, out)
      | some gap =>
        let free := stretch (fun claim => claim.owner = owner || !endgame ||
          now - claim.since < duplicateAfter) claims (claims.length + 1) gap
        if free.1 ≥ free.2 then
          parts.claimLoop owner index wanted endgame now rounds gap.2 claims out
        else
          let block : Range :=
            (free.1, min free.2 (grid (parts.part index).1 free.1))
          parts.claimLoop owner index wanted endgame now rounds block.2
            (emplace ⟨block.1, block.2, owner, now⟩ claims) (out ++ [block])

variable (parts : Parts) (claims : List (Claim O))

def claimGaps (owner : O) (index wanted : Nat) (endgame : Bool) (now : Int)
    (claims : List (Claim O)) (out : List Range) : List (Claim O) × List Range :=
  parts.claimLoop owner index wanted endgame now
    (wanted + parts.received.ranges.length + 2) (parts.part index).1 claims out

/-- Whether a source holds a part; a complete source lists none. -/
def offers (available : List Bool) (index : Nat) : Bool :=
  available.isEmpty || available.getD index false

/-- The parts a source holds that are still missing here. -/
def wants (available : List Bool) : Bool :=
  (List.range parts.count).any fun index =>
    !parts.isVerified index && !parts.filled index && offers available index

/-- What a request reads besides the parts and the claims. -/
structure Ask where
  /-- The sources of every part, for rarest first. -/
  availability : List Int := []
  /-- The option `ed2k-preview-priority`. -/
  preview : Bool := false
  /-- The random number drawn for a part. -/
  random : Nat → Nat := fun _ => 0
  now : Int := 0

/-- The rank of a candidate; lower is better. -/
def rank (owner : O) (ask : Ask) (index : Nat) : List Int :=
  let (begin, stop) := parts.part index
  let here := claims.filter fun claim => claim.begin < stop ∧ claim.stop > begin
  let mine := here.any fun claim => claim.owner = owner
  let started := !here.isEmpty || 0 < parts.received.covered begin stop
  let last := parts.count - 1
  -- previews want the first part and the last, or two, if it is short
  let edge := index = 0 ∨ index = last ∨
    (index + 1 = last ∧ parts.size - (parts.part last).1 < pieceLength / 3)
  [if mine then 0 else 1, if ask.preview ∧ edge then 0 else 1,
    if started then 0 else 1, ask.availability.getD index 0, ask.random index]

/-- The parts a block may be claimed in, best first. -/
def candidates (owner : O) (available : List Bool) (ask : Ask) : List Nat :=
  ((List.range parts.count).filter fun index =>
    !parts.isVerified index && !parts.filled index && offers available index
  ).insertionSort fun left right =>
    parts.rank claims owner ask left ≤ parts.rank claims owner ask right

/-- One pass over the candidates. -/
def claimPass (owner : O) (wanted : Nat) (endgame : Bool) (now : Int) (order : List Nat)
    (claims : List (Claim O)) : List (Claim O) × List Range :=
  order.foldl (fun (claims, out) index =>
    if out.length ≥ wanted then (claims, out)
    else parts.claimGaps owner index wanted endgame now claims out) (claims, [])

/-- Claims up to `wanted` blocks; blocks of others only when nothing else is
left. -/
def claim (owner : O) (available : List Bool) (wanted : Nat) (ask : Ask) : List (Claim O) × List
    Range :=
  let order := parts.candidates claims owner available ask
  let first := parts.claimPass owner wanted false ask.now order claims
  if first.2.isEmpty then
    parts.claimPass owner wanted true ask.now order first.1
  else first

def release (owner : O) (block : Range) : List (Claim O) :=
  claims.eraseP fun claim => claim.begin = block.1 ∧ claim.owner = owner

def releaseAll (owner : O) : List (Claim O) :=
  claims.filter fun claim => claim.owner ≠ owner

/-- Whether `[begin, stop)` lies inside a block that `owner` claimed. -/
def claimed (owner : O) (begin stop : Int) : Bool :=
  claims.any fun claim =>
    claim.owner = owner && claim.begin ≤ begin && stop ≤ claim.stop

end Parts

/-- `Client`, as far as it downloads this file. -/
structure Client where
  /-- `download_` is `Downloading` and `downloadFile_` is the task. -/
  downloading : Bool := false
  partStatus : List Bool := []
  /-- Requested, in the order sent. -/
  blocks : List Range := []
  /-- Bytes received, by the begin of the block. -/
  progress : OrdMap Int Int := ∅

/-- The clients of a file and what they claimed of it. -/
structure Swarm (O : Type u) where
  claims : List (Claim O) := []
  clients : O → Client := fun _ => {}

namespace Swarm

variable {O : Type u} [DecidableEq O]

def blocksAhead : Nat := 3

def update (swarm : Swarm O) (owner : O) (client : Client) : Swarm O :=
  { swarm with clients := Function.update swarm.clients owner client }

variable (swarm : Swarm O)

/-- `releaseBlocks`, with the client no longer downloading. -/
def stopDownloading (owner : O) : Swarm O :=
  { swarm with claims := Parts.releaseAll swarm.claims owner }.update owner
    { swarm.clients owner with
      downloading := false
      blocks := []
      progress := ∅ }

/-- Claims and requests blocks; a client with nothing left to send is let
go. -/
def requestBlocks (parts : Parts) (owner : O) (ask : Parts.Ask) : Swarm O :=
  let client := swarm.clients owner
  if client.downloading = false ∨ client.blocks.length ≥ blocksAhead then swarm
  else
    let (claims, claimed) := parts.claim swarm.claims owner client.partStatus
      (blocksAhead - client.blocks.length) ask
    if claimed.isEmpty then
      if client.blocks.isEmpty then swarm.stopDownloading owner else swarm
    else
      { swarm with claims }.update owner
        { client with
          blocks := client.blocks ++ claimed
          progress := claimed.foldl (fun progress (block : Range) =>
            progress.insert block.1 0) client.progress }

def blockDone (parts : Parts) (owner : O) (block : Range) (ask : Parts.Ask) : Swarm O :=
  let client := swarm.clients owner
  requestBlocks ({ swarm with claims := Parts.release swarm.claims owner block }.update owner
      { client with
        blocks := client.blocks.filter (· ≠ block)
        progress := client.progress.erase block.1 }) parts owner ask

/-- The requested block that holds `[begin, stop)`. -/
def blockOf (client : Client) (begin stop : Int) : Option Range :=
  client.blocks.find? fun block => block.1 ≤ begin ∧ stop ≤ block.2

/-- What `receiveBlock` notes once the data went to the task. -/
def noteReceived (parts : Parts) (owner : O) (begin stop : Int) (ask : Parts.Ask) : Swarm O :=
  let client := swarm.clients owner
  match blockOf client begin stop with
  | none => swarm
  | some block =>
    let got := (client.progress.find? block.1).getD 0 + (stop - begin)
    let swarm := swarm.update owner
      { client with progress := client.progress.insert block.1 got }
    if got ≥ block.2 - block.1 then swarm.blockDone parts owner block ask
    else swarm

/-- `OP_ACCEPTUPLOADREQ`: an upload slot for us. -/
def accept (parts : Parts) (owner : O) (partStatus : List Bool) (ask : Parts.Ask) : Swarm O :=
  (swarm.update owner { swarm.clients owner with downloading := true, partStatus }).requestBlocks
      parts owner ask

end Swarm

end Aria2Next
