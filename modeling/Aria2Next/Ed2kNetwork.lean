/-
`ed2k/Network` and the parts of `ed2k/Client` that it, the upload queue and the
files meet: who is registered, who is connected, who downloads from us, and
which file a client is a source of.

A client object is known by the number of its creation, a task by any type.
An address is the number of its four bytes, 0 the unspecified one.  What the
download side of a client does within its file is left to an input that sets
its state.  Coroutines are part of the state where they wait, and an input
resumes one.  A packet goes to a client or to the one that has adopted its
connection, so that any client may receive any message.
-/
import Aria2Next.Ed2kSwarm
import Aria2Next.Ed2kUploadQueue
import Aria2Next.Text

namespace Aria2Next

universe u

namespace Ed2kNetwork

def hashLength : Nat := 16

/-- Client ids below this one cannot be reached. -/
def lowIdLimit : Nat := 0x1000000

/-- A task, as the clients see it. -/
structure File where
  hash : Text
  parts : Parts
  phase : Ed2kTask.Phase
  /-- The bitfield has a bit for every part, as `Parts` creates it. -/
  whole : parts.verified.length = ((parts.size + pieceLength - 1) / pieceLength).toNat

namespace File

/-- The parts others may ask for; a complete file lists none. -/
def sharedParts (file : File) : List Bool :=
  if file.parts.complete then [] else file.parts.verified

def sharesAnything (file : File) : Bool := (file.phase = .downloading || file.phase = .sharing) &&
    file.parts.verified.any id

/-- The file after a part was verified or rejected or the task moved on. -/
def progress (file : File) (verified : Nat → Bool) (phase : Ed2kTask.Phase) : File where
  hash := file.hash
  parts := { file.parts with
    verified := (List.range file.parts.verified.length).map verified }
  phase := phase
  whole := by
    rw [List.length_map, List.length_range]
    exact file.whole

end File

/-- The parts that `uploadLoop` tests for a range; the division of the source
rounds towards zero. -/
def touched (range : Range) : List Int :=
  let first := range.1.tdiv pieceLength
  let last := (range.2 - 1).tdiv pieceLength
  (List.range (last - first + 1).toNat).map fun (step : Nat) => first + step

/-- A test outside the bitfield, which is undefined in the source, fails. -/
def File.shares (file : File) (range : Range) : Bool := (touched range).all fun part =>
    file.sharedParts.isEmpty || (0 ≤ part && file.sharedParts.getD part.toNat false)

inductive Upload where
  | none | waiting | uploading
deriving DecidableEq, Repr

inductive Download where
  | none | idle | connecting | asking | queued | downloading | noNeededParts
  | noFile
deriving DecidableEq, Repr

/-- Where an `uploadLoop` waits. -/
inductive Loop (F : Type u) where
  /-- Before the test of the loop. -/
  | head
  /-- For the block from disk. -/
  | reading (file : F) (range : Range)
  /-- For the socket, between two packets. -/
  | sending (file : F) (range : Range)
deriving DecidableEq, Repr

structure Client (F : Type u) where
  address : Nat := 0
  port : Nat := 0
  userHash : Text := []
  clientId : Nat := 0
  /-- `connection_`, and whether it is open. -/
  connection : Option Bool := none
  handshaked : Bool := false
  outgoing : Bool := false
  connecting : Bool := false
  download : Download := .none
  downloadFile : Option F := none
  upload : Upload := .none
  uploadFile : Option F := none
  slotPending : Bool := false
  requests : List Range := []
  sessionUploaded : Nat := 0
  /-- A loop was started for the connection. -/
  uploading : Bool := false
  loops : List (Loop F) := []
deriving DecidableEq, Repr

namespace Client

variable {F : Type u}

def connected (client : Client F) : Bool := client.connection = some true

def lowId (client : Client F) : Bool := client.clientId ≠ 0 && client.clientId < lowIdLimit

def create (address port : Nat) : Client F := { address, port, clientId := address }

/-- The key of the registry. -/
def key (client : Client F) : Nat ×ₗ Nat :=
  toLex (if client.address = 0 then client.clientId else client.address, client.port)

def learn (client : Client F) (userHash : Text) (clientId : Nat) : Client F :=
  { client with
    userHash := if client.userHash = [] ∧ userHash.length = hashLength then
      userHash else client.userHash
    clientId := if clientId ≠ 0 ∧ client.address = 0 then clientId
      else client.clientId }

/-- `run`, up to its first packet. -/
def run (client : Client F) (outgoing : Bool) : Client F :=
  { client with connection := some true, outgoing, handshaked := false }

def disconnect (client : Client F) : Client F :=
  { client with connection := client.connection.map fun _ => false }

/-- One file per source at a time. -/
def setSource (client : Client F) (file : F) : Client F :=
  if client.downloadFile.isSome then client
  else { client with downloadFile := some file, download := .idle }

def dropSource (client : Client F) : Client F :=
  if client.downloadFile.isNone then client
  else
    let client := { client with downloadFile := none, download := .none }
    if client.upload = .none ∧ client.connected ∧ !client.connecting then
      client.disconnect
    else client

def stopDownloading (client : Client F) (next : Download) : Client F :=
  if client.downloadFile.isNone then { client with download := .none }
  else
    let client := { client with
      download := next
      connecting := client.connecting && client.connected }
    if client.connected ∧ client.upload = .none ∧ next ≠ .downloading then
      client.disconnect
    else client

/-- The slot, and whether the client gives it back with `remove`. -/
def grantSlot (client : Client F) : Client F × Bool :=
  if client.uploadFile.isNone then (client, true)
  else if !client.connected || !client.handshaked then
    -- call it, then tell it after the handshake
    let client := { client with slotPending := true, upload := .uploading }
    if !client.connected && !client.connecting then
      if client.lowId || client.address = 0 then
        ({ client with slotPending := false }, true)
      else ({ client with connecting := true }, false)
    else (client, false)
  else ({ client with upload := .uploading, sessionUploaded := 0 }, false)

def revokeSlot (client : Client F) : Client F :=
  if client.upload ≠ .uploading then client
  else { client with upload := .none, requests := [] }

def readHello (client : Client F) (userHash : Text) (port id : Nat) : Client F :=
  { client with
    userHash
    -- the listen port, not the ephemeral source port
    port := if !client.outgoing && port ≠ 0 then port else client.port
    clientId := if id ≥ lowIdLimit ∧ client.address ≠ 0 then client.address
      else id }

end Client

/-- A little-endian number. -/
def readUInt (bytes : Text) : Nat := bytes.foldr (fun byte rest => byte.toNat + 256 * rest) 0

/-- An unsigned 64-bit number stored in a signed one. -/
def toInt64 (number : Nat) : Int :=
  if number < 2 ^ 63 then number else (number : Int) - 2 ^ 64

/-- The six numbers of a part request: the begins, then the ends. -/
def offsets (payload : Text) (large : Bool) : List Nat :=
  let size := if large then 8 else 4
  (List.range 6).map fun index =>
    readUInt ((payload.drop (hashLength + size * index)).take size)

/-- The file and the ranges of a part request; the second and the third range
may be empty. -/
def parsePartRequestPayload (payload : Text) (large : Bool) : Option (Text × List Range) :=
  if payload.length ≠ hashLength + (if large then 8 else 4) * 6 then none
  else
    let numbers := (offsets payload large).map toInt64
    let ranges := ((numbers.take 3).zip (numbers.drop 3)).filter
      (· ≠ ((0 : Int), (0 : Int)))
    if ranges.any fun range => range.2 ≤ range.1 then none
    else some (payload.take hashLength, ranges)

/-- The loop of `answerPartRequest`; the flag tells that it threw. -/
def pushRanges (size : Int) : List Range → List Range → List Range × Bool
  | [], requests => (requests, false)
  | range :: rest, requests =>
    if range.2 > size ∨ range.2 - range.1 > 3 * blockLength then
      (requests, true)
    else pushRanges size rest (if range ∈ requests then requests else requests ++ [range])

namespace Client

variable {F : Type u}

/-- A part request; the flag tells that it threw. -/
def answerPartRequest (client : Client F) (tasks : F → File) (payload : Text)
    (large : Bool) : Client F × Bool :=
  match parsePartRequestPayload payload large with
  | none => (client, true)
  | some (hash, ranges) =>
    match client.uploadFile with
    | none => (client, false)
    | some file =>
      if client.upload ≠ .uploading ∨ client.slotPending ∨
          hash ≠ (tasks file).hash then (client, false)
      else
        let (requests, thrown) :=
          pushRanges (tasks file).parts.size ranges client.requests
        let client := { client with requests }
        if thrown then (client, true)
        else if !client.uploading && client.connection.isSome then
          ({ client with
            uploading := true
            loops := client.loops ++ [.head] }, false)
        else (client, false)

/-- What resumes an `uploadLoop`. -/
structure Resume where
  /-- The connection of the loop is open. -/
  isOpen : Bool := true
  /-- The block could be read, the packet could be sent. -/
  ok : Bool := true
  /-- The content of the packet. -/
  content : Nat := 0
  /-- The block has further packets. -/
  more : Bool := false
deriving DecidableEq, Repr

/-- An `uploadLoop` up to where it waits next; without a place it has ended. -/
def resume [DecidableEq F] (client : Client F) (tasks : F → File)
    (input : Resume) : Loop F → Client F × Option (Loop F)
  | .head =>
    match client.uploadFile, client.requests with
    | some file, range :: _ =>
      if client.upload = .uploading ∧ input.isOpen then
        if (tasks file).shares range then (client, some (.reading file range))
        -- a part we do not share: the connection closes
        else ({ client with uploading := false }, none)
      else ({ client with uploading := false }, none)
    | _, _ => ({ client with uploading := false }, none)
  | .reading file range =>
    if input.ok ∧ client.uploadFile = some file ∧
        client.upload = .uploading then
      (client, some (.sending file range))
    else ({ client with uploading := false }, none)
  | .sending file range =>
    if input.ok then
      let client := { client with
        sessionUploaded := client.sessionUploaded + input.content }
      if input.more then (client, some (.sending file range))
      else
        ({ client with
          requests := if client.requests.head? = some range then
            client.requests.tail else client.requests }, some .head)
    else ({ client with uploading := false }, none)

end Client

open UploadQueue (Rounds)

/-- What the queue asks of the clients. -/
def slots {F : Type u} : UploadQueue.Clients Nat (Nat → Client F) where
  grantSlot world client :=
    let answer := (world client).grantSlot
    (Function.update world client answer.1, answer.2)
  revokeSlot world client := Function.update world client (world client).revokeSlot
  uploading world client := (world client).upload = .uploading
  sessionUploaded world client := (world client).sessionUploaded
  connected world client := (world client).connected

end Ed2kNetwork

structure Ed2kNetwork (F : Type u) where
  tasks : F → Ed2kNetwork.File
  /-- `files_` -/
  files : OrdMap Text F := ∅
  /-- `clients_` -/
  registry : OrdMap (Nat ×ₗ Nat) Nat := ∅
  /-- `uploads_`, with the client objects. -/
  queue : UploadQueue Nat (Nat → Ed2kNetwork.Client F) := { world := fun _ => {} }
  /-- The number of client objects created so far. -/
  created : Nat := 0

namespace Ed2kNetwork

open UploadQueue (Rounds)

variable {F : Type u} [DecidableEq F]

variable (network : Ed2kNetwork F) (id : Nat) (rounds : Rounds Nat)

def client : Client F := network.queue.world id

def setClient (client : Client F) : Ed2kNetwork F :=
  { network with
    queue := { network.queue with
      world := Function.update network.queue.world id client } }

def modify (change : Client F → Client F) : Ed2kNetwork F :=
  network.setClient id (change (network.client id))

/-- `uploads().remove` -/
def leaveUploadQueue : Ed2kNetwork F :=
  { network with queue := network.queue.removed slots rounds id }

def attach (file : F) : Ed2kNetwork F :=
  { network with
    files := network.files.insert (network.tasks file).hash file }

/-- The body of the loop of `detach`. -/
def cutClient (file : F) (id : Nat) (rounds : Rounds Nat) : Ed2kNetwork F :=
  let network := if (network.client id).downloadFile = some file then
    network.modify id Client.dropSource else network
  if (network.client id).uploadFile = some file then
    (network.leaveUploadQueue id rounds).modify id Client.revokeSlot
  else network

def detach (file : F) (rounds : Nat → Rounds Nat) : Ed2kNetwork F :=
  let hash := (network.tasks file).hash
  let network := if network.files.find? hash = some file then
    { network with files := network.files.erase hash } else network
  network.registry.values.foldl (fun network id =>
    network.cutClient file id (rounds id)) network

/-- A new client object. -/
def newClient (client : Client F) : Ed2kNetwork F :=
  { network.setClient network.created client with
    created := network.created + 1 }

/-- `Network::client`: the registered client, or a new one. -/
def clientAt (address port clientId : Nat) : Ed2kNetwork F × Nat :=
  let key := toLex (if address = 0 then clientId else address, port)
  match network.registry.find? key with
  | some id => (network, id)
  | none =>
    let id := network.created
    ({ network.newClient (Client.create address port) with
      registry := network.registry.insert key id }, id)

/-- Which client goes on with the connection whose hello `id` has read. -/
def identified : Ed2kNetwork F × Nat :=
  let client := network.client id
  match network.registry.values.find? fun known =>
      known ≠ id ∧ (network.client known).userHash = client.userHash with
  | some known => (network, known)
  | none =>
    let registered :=
      { network with registry := network.registry.insert client.key id }
    match network.registry.find? client.key with
    | none => (registered, id)
    | some slot =>
      if slot = id then (network, id)
      else
        let other := network.client slot
        -- a different client now uses this address and port
        if other.userHash ≠ [] ∧ other.userHash ≠ client.userHash then
          if other.connected ∨ other.downloadFile.isSome ∨
              other.upload ≠ .none then
            -- keep both; this one stays unregistered
            (network, id)
          else (registered, id)
        else (network, slot)

def closed : Ed2kNetwork F :=
  let network := network.modify id fun client =>
    let client := { client with
      connection := none
      handshaked := false
      uploading := false }
    if client.download = .connecting ∨ client.download = .asking ∨
        client.download = .downloading then client.stopDownloading .idle
    else client
  if (network.client id).upload = .uploading then
    network.leaveUploadQueue id rounds
  else network

/-- `grantSlot`, when the queue does not call it. -/
def grantSlot : Ed2kNetwork F :=
  let answer := (network.client id).grantSlot
  let network := network.setClient id answer.1
  if answer.2 then network.leaveUploadQueue id rounds else network

def handshakeDone : Ed2kNetwork F :=
  let network := network.modify id fun client =>
    { client with handshaked := true }
  let network := if (network.client id).slotPending then
    (network.modify id fun client =>
      { client with slotPending := false }).grantSlot id rounds
    else network
  let client := network.client id
  match client.downloadFile with
  | none => network
  | some file =>
    if (network.tasks file).phase = .downloading ∧
        (client.download = .connecting ∨ client.download = .idle ∨
          (client.download = .queued ∧ client.outgoing)) then
      network.setClient id { client with download := .asking }
    else network

/-- `OP_HELLO` -/
def hello (userHash : Text) (port clientId : Nat) (rounds : Nat → Rounds Nat) : Ed2kNetwork F :=
  let network := network.modify id fun client =>
    client.readHello userHash port clientId
  match network.identified id with
  | (network, self) =>
    if self = id then network.handshakeDone id (rounds 0)
    else
      let connection := (network.client id).connection
      let network := network.modify id fun client =>
        { client with connection := none }
      let network := if (network.client self).connection.isSome then
        network.closed self (rounds 1) else network
      (network.modify self fun client =>
        { client with
          connection
          outgoing := false
          connecting := false }).handshakeDone self (rounds 0)

/-- `OP_HELLOANSWER` -/
def helloAnswer (userHash : Text) (port clientId : Nat) (rounds : Rounds Nat) : Ed2kNetwork F :=
  ((network.modify id fun client =>
    client.readHello userHash port clientId).identified id).1.handshakeDone id rounds

/-- A shared file by its hash. -/
def sharedFile (hash : Text) : Option F :=
  (network.files.find? hash).filter fun file =>
    (network.tasks file).sharesAnything

/-- `OP_STARTUPLOADREQ`; a packet that is too short closes the connection. -/
def answerUploadRequest (payload : Text) (now : Int) (rounds : Rounds Nat) : Ed2kNetwork F :=
  if payload.length < hashLength then network.closed id rounds
  else
    match network.sharedFile (payload.take hashLength) with
    | none => network
    | some file =>
      let client := network.client id
      if client.upload = .uploading ∧ client.uploadFile = some file then
        network
      else
        let network := network.setClient id
          { client with uploadFile := some file }
        let (rank, queue) := network.queue.requested slots rounds id now
        let network := { network with queue }
        if rank > 0 ∧ (network.client id).upload ≠ .uploading then
          network.modify id fun client => { client with upload := .waiting }
        else network

/-- `OP_REQUESTPARTS` and `OP_REQUESTPARTS_I64`; a bad packet closes the
connection. -/
def answerPartRequest (payload : Text) (large : Bool) (rounds : Rounds Nat) : Ed2kNetwork F :=
  let answer :=
    (network.client id).answerPartRequest network.tasks payload large
  let network := network.setClient id answer.1
  if answer.2 then network.closed id rounds else network

/-- What `connectAndRun` comes to. -/
def connectDone (ok : Bool) (rounds : Rounds Nat) : Ed2kNetwork F :=
  let network := network.modify id fun client =>
    { client with connecting := false }
  if ok then network.modify id fun client => client.run true
  else
    let network := if (network.client id).download = .connecting then
      network.modify id fun client => client.stopDownloading .idle
      else network
    if (network.client id).slotPending then
      (network.modify id fun client =>
        { client with slotPending := false }).leaveUploadQueue id rounds
    else network

/-- `addSource`, for an endpoint that the task takes. -/
def addSource (file : F) (address port clientId : Nat) (userHash : Text) : Ed2kNetwork F :=
  if (network.tasks file).phase ≠ .downloading ∨ port = 0 then network
  else
    let (network, id) := network.clientAt address port clientId
    network.modify id fun client =>
      (client.learn userHash clientId).setSource file

/-- `callBack` and `checkFirewall`: the client at an address is called. -/
def callAt (address port : Nat) (mayConnect : Bool) : Ed2kNetwork F :=
  let (network, id) := network.clientAt address port 0
  network.modify id fun client =>
    if client.connected || client.connecting || client.address = 0 ||
        !mayConnect then client
    else { client with connecting := true }

/-- `callBack` tells whether our server asks a client with a low id to call. -/
def askForFile (mayConnect callBack : Bool) : Ed2kNetwork F :=
  let client := network.client id
  match client.downloadFile with
  | none => network
  | some file =>
    if (network.tasks file).phase ≠ .downloading then network
    else if client.connected then
      if client.handshaked then
        network.setClient id { client with download := .asking }
      else network
    else if client.connecting then network
    else if client.lowId ∧ !callBack then
      network.setClient id (client.stopDownloading .idle)
    else if !client.lowId ∧ !mayConnect then network
    else network.setClient id { client with download := .connecting, connecting := true }

/-- A client of the registry with nothing left to do, and with no owner but
the registry. -/
def forgettable (held : Nat → Bool) (id : Nat) : Bool :=
  !held id && id ∉ network.queue.members && network.registry.values.count id = 1 &&
    !(network.client id).connected &&
    (network.client id).download = .none && (network.client id).upload = .none

/-- The end of `tick`: the objects of forgotten clients are gone. -/
def forget (held : Nat → Bool) : Ed2kNetwork F :=
  { network with
    registry := network.registry.filter fun _ id =>
      !network.forgettable held id
    queue := { network.queue with
      world := fun id =>
        if network.forgettable held id then {} else network.client id } }

/-- `tick`, with the owners other than the registry and the queue. -/
def tick (now : Int) (rounds : Rounds Nat) (held : Nat → Bool) : Ed2kNetwork F :=
  { network with queue := network.queue.ticked slots rounds now }.forget held

/-- The upload loop of a client goes on. -/
def resume (index : Nat) (input : Client.Resume) : Ed2kNetwork F :=
  let client := network.client id
  match client.loops[index]? with
  | none => network
  | some loop =>
    let (client, next) := client.resume network.tasks input loop
    network.setClient id { client with
      loops := match next with
        | some next => client.loops.set index next
        | none => client.loops.eraseIdx index }

inductive Input (F : Type u) where
  | attach (file : F)
  | detach (file : F) (rounds : Nat → Rounds Nat)
  | progress (file : F) (verified : Nat → Bool) (phase : Ed2kTask.Phase)
  /-- A connection is accepted. -/
  | incoming (address port : Nat)
  | addSource (file : F) (address port clientId : Nat) (userHash : Text)
  | callAt (address port : Nat) (mayConnect : Bool)
  | askForFile (id : Nat) (mayConnect callBack : Bool)
  | connectDone (id : Nat) (ok : Bool) (rounds : Rounds Nat)
  | hello (id : Nat) (userHash : Text) (port clientId : Nat) (rounds : Nat → Rounds Nat)
  | helloAnswer (id : Nat) (userHash : Text) (port clientId : Nat) (rounds : Rounds Nat)
  | uploadRequest (id : Nat) (payload : Text) (now : Int) (rounds : Rounds Nat)
  | partRequest (id : Nat) (payload : Text) (large : Bool) (rounds : Rounds Nat)
  /-- `OP_CANCELTRANSFER` -/
  | cancel (id : Nat) (rounds : Rounds Nat)
  /-- `OP_REASKFILEPING` -/
  | reask (id : Nat) (now : Int)
  | closed (id : Nat) (rounds : Rounds Nat)
  | disconnect (id : Nat)
  /-- The download side of the client goes on. -/
  | download (id : Nat) (next : Download)
  | dropSource (id : Nat)
  | resume (id index : Nat) (input : Client.Resume)
  | tick (now : Int) (rounds : Rounds Nat) (held : Nat → Bool)
  | setSlots (slots : Int)

/-- The client object that acts. -/
def Input.client? : Input F → Option Nat
  | .askForFile id _ _ => some id
  | .connectDone id _ _ => some id
  | .hello id _ _ _ _ => some id
  | .helloAnswer id _ _ _ _ => some id
  | .uploadRequest id _ _ _ => some id
  | .partRequest id _ _ _ => some id
  | .cancel id _ => some id
  | .reask id _ => some id
  | .closed id _ => some id
  | .disconnect id => some id
  | .download id _ => some id
  | .dropSource id => some id
  | .resume id _ _ => some id
  | _ => none

def act : Input F → Ed2kNetwork F
  | .attach file => network.attach file
  | .detach file rounds => network.detach file rounds
  | .progress file verified phase =>
    { network with
      tasks := Function.update network.tasks file
        ((network.tasks file).progress verified phase) }
  | .incoming address port =>
    network.newClient ((Client.create address port).run false)
  | .addSource file address port clientId userHash =>
    network.addSource file address port clientId userHash
  | .callAt address port mayConnect =>
    network.callAt address port mayConnect
  | .askForFile id mayConnect callBack =>
    network.askForFile id mayConnect callBack
  | .connectDone id ok rounds => network.connectDone id ok rounds
  | .hello id userHash port clientId rounds =>
    network.hello id userHash port clientId rounds
  | .helloAnswer id userHash port clientId rounds =>
    network.helloAnswer id userHash port clientId rounds
  | .uploadRequest id payload now rounds =>
    network.answerUploadRequest id payload now rounds
  | .partRequest id payload large rounds =>
    network.answerPartRequest id payload large rounds
  | .cancel id rounds => network.leaveUploadQueue id rounds
  | .reask id now => { network with queue := network.queue.touched id now }
  | .closed id rounds => network.closed id rounds
  | .disconnect id => network.modify id Client.disconnect
  | .download id next => network.modify id fun client =>
    if client.downloadFile.isSome ∧ next ≠ .none then
      { client with download := next } else client
  | .dropSource id => network.modify id Client.dropSource
  | .resume id index input => network.resume id index input
  | .tick now rounds held => network.tick now rounds held
  | .setSlots slots => { network with
      queue := { network.queue with slots := max 1 slots } }

/-- Only a client object that was created acts. -/
def step (input : Input F) : Ed2kNetwork F :=
  if ∀ id ∈ input.client?, id < network.created then network.act input
  else network

end Ed2kNetwork

end Aria2Next
