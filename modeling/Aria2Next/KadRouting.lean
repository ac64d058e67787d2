/-
`ed2k/KadRouting`: the table of Kad nodes a client knows.  Nodes stand in
buckets by their distance to the client's own id; each bucket keeps a list of
live nodes and, once it is full, a list of replacements.

A node is recognised by its id or by its address, and is then overwritten
where it stands.  What every run keeps is therefore about sizes and places;
that an id stands in the table once, and that a confirmed node is one that
answered, are kept only by runs that do not meet the cases described here.
-/
import Aria2Next.Cursor
import Aria2Next.Ed2kLink
import Aria2Next.Runs

namespace Aria2Next

open Packet (hashLength readUInt32)

structure KadContact where
  id : Text
  host : Text
  udpPort : UInt16 := 0
  tcpPort : UInt16 := 0
  version : UInt8 := 0
  udpKey : UInt32 := 0
deriving DecidableEq, Repr

structure KadRoutingNode where
  contact : KadContact
  confirmed : Bool := false
  seed : Bool := false
  failCount : UInt32 := 0
  firstSeen : Int64 := 0
  lastSeen : Int64 := 0
deriving DecidableEq, Repr

/-- A bucket of the table, and of its snapshot. -/
structure KadRoutingBucket where
  live : List KadRoutingNode := []
  replacements : List KadRoutingNode := []
  lastActive : Int64 := 0
deriving DecidableEq, Repr

def sameContact (lhs rhs : KadContact) : Bool := (lhs.id ≠ [] ∧ lhs.id = rhs.id) ∨
    (lhs.host = rhs.host ∧ lhs.udpPort = rhs.udpPort)

def validId (id : Text) : Bool := id.length = hashLength

def validRoutingContact (contact : KadContact) : Bool :=
  if ¬ validId contact.id ∨ contact.host = [] ∨
      contact.host = Text.of "0.0.0.0" ∨ contact.udpPort = 0 ∨
      contact.version ≤ 1 then false
  else contact.udpPort ≠ 53 ∨ contact.version > 5

/-- The words of the XOR of two ids, first to last. -/
def distance (lhs rhs : Text) : List UInt32 := (List.range (hashLength / 4)).map fun chunk =>
    readUInt32 (lhs.drop (chunk * 4)) ^^^ readUInt32 (rhs.drop (chunk * 4))

/-- Which of two ids is closer to the target: the first word that differs
decides. -/
def distanceCompare (lhs rhs target : Text) : Ordering :=
  compare (distance lhs target) (distance rhs target)

def findNode (nodes : List KadRoutingNode) (contact : KadContact) :
    Option (Cursor KadRoutingNode) :=
  Cursor.find (fun node => sameContact node.contact contact) nodes

def updateNode (node : KadRoutingNode) (contact : KadContact)
    (confirmed : Bool) (now : Int64) : KadRoutingNode :=
  { node with
    contact := if contact.udpKey = 0 then
        { contact with udpKey := node.contact.udpKey } else contact
    lastSeen := now
    firstSeen := if node.firstSeen = 0 then now else node.firstSeen
    confirmed := confirmed || node.confirmed
    failCount := if confirmed then 0 else node.failCount }

def splitLevels : Nat := 4

/-- The buckets picked by the top four bits of the distance. -/
def farBuckets : Nat := 2 ^ splitLevels - 1

def bucketCount : Nat := farBuckets + 128 - splitLevels

structure KadRoutingSnapshot where
  selfId : Text
  buckets : List KadRoutingBucket := []
  routerNodes : List Endpoint := []
  routerContacts : List KadContact := []
  lastBootstrap : Int64 := 0
  lastRefresh : Int64 := 0
  lastSelfRefresh : Int64 := 0
  lastFirewalledCheck : Int64 := 0
  lastSourcePublish : Int64 := 0
  lastSourceSearch : Int64 := 0
  sourceSearchCount : UInt32 := 0
  udpVerifyKey : UInt32 := 0
  firewalled : Bool := true
  observedAddresses : List Text := []
deriving DecidableEq, Repr

/-- The bucket of a distance, from its chunk with the given number on. -/
def bucketFrom (chunk : Nat) : List UInt32 → Nat
  | [] => bucketCount - 1
  | x :: rest =>
    if x = 0 then bucketFrom (chunk + 1) rest
    else if chunk = 0 ∧ x >>> 28 ≠ 0 then (x >>> 28).toNat - 1
    else match (List.range 32).find? fun bit =>
        x &&& ((0x80000000 : UInt32) >>> UInt32.ofNat bit) ≠ 0 with
      | some bit => farBuckets + chunk * 32 + bit - splitLevels
      | none => bucketFrom (chunk + 1) rest

theorem bucketFrom_lt (c : Nat) (w : List UInt32) (hl : c + w.length ≤ 4) :
    bucketFrom c w < bucketCount := by
  have hc : bucketCount = 139 := rfl
  have hf : farBuckets = 15 := rfl
  have hs : splitLevels = 4 := rfl
  induction w generalizing c with
  | nil =>
    rw [bucketFrom]
    omega
  | cons x r ih =>
    rw [List.length_cons] at hl
    rw [bucketFrom]
    split_ifs
    · exact ih (c + 1) (by omega)
    · have ht : (x >>> 28).toNat = x.toNat / 2 ^ 28 := by
        simp [Nat.shiftRight_eq_div_pow]
      have hx := x.toNat_lt
      omega
    · split
      · rename_i bit hb
        have := List.mem_range.mp (List.mem_of_find?_eq_some hb)
        omega
      · exact ih (c + 1) (by omega)

structure KadRoutingTable where
  selfId : Text
  bucketSize : Nat
  buckets : Vector KadRoutingBucket bucketCount := Vector.replicate bucketCount {}
  routerNodes : List Endpoint := []
  routerContacts : List KadContact := []
  lastBootstrap : Int64 := 0
  lastRefresh : Int64 := 0
  lastSelfRefresh : Int64 := 0
  validSelf : validId selfId
  bucketSize_pos : 0 < bucketSize
deriving DecidableEq

namespace KadRoutingBucket

def addNode (bucketSize : Nat) (contact : KadContact) (confirmed : Bool)
    (now : Int64) (bucket : KadRoutingBucket) : KadRoutingBucket :=
  match findNode bucket.live contact with
  | some live =>
    { bucket with
      lastActive := now
      live := live.erase ++ [updateNode live.item contact confirmed now] }
  | none =>
    match findNode bucket.replacements contact with
    | some replacement =>
      let node := updateNode replacement.item contact confirmed now
      if confirmed ∧ bucket.live.length < bucketSize then
        { live := bucket.live ++ [node], replacements := replacement.erase, lastActive := now }
      else
        { bucket with
          lastActive := now, replacements := replacement.set node }
    | none =>
      let node : KadRoutingNode :=
        { contact, confirmed, firstSeen := now, lastSeen := now }
      if bucket.live.length < bucketSize then
        { bucket with lastActive := now, live := bucket.live ++ [node] }
      else
        let replacements :=
          if bucket.replacements.length = bucketSize then
            bucket.replacements.tail
          else bucket.replacements
        { bucket with
          lastActive := now, replacements := replacements ++ [node] }

def nodeFailed (contact : KadContact) (bucket : KadRoutingBucket) : KadRoutingBucket :=
  match findNode bucket.live contact with
  | some live =>
    if ¬ live.item.confirmed then { bucket with live := live.erase }
    else
      match bucket.replacements with
      | front :: rest =>
        { bucket with live := live.set front, replacements := rest }
      | [] =>
        let node :=
          { live.item with failCount := live.item.failCount + 1 }
        if node.failCount ≥ 20 then { bucket with live := live.erase }
        else { bucket with live := live.set node }
  | none =>
    match findNode bucket.replacements contact with
    | some replacement =>
      { bucket with replacements := replacement.erase }
    | none => bucket

/-- One node of a snapshot, placed again. -/
def place (bucketSize : Nat) (lastActive : Int64) (live : Bool)
    (node : KadRoutingNode) (bucket : KadRoutingBucket) : KadRoutingBucket :=
  let lastActive := max bucket.lastActive lastActive
  if live ∧ bucket.live.length < bucketSize then
    { bucket with lastActive, live := bucket.live ++ [node] }
  else if bucket.replacements.length < bucketSize then
    { bucket with lastActive, replacements := bucket.replacements ++ [node] }
  else { bucket with lastActive }

def nodes (bucket : KadRoutingBucket) : List KadRoutingNode := bucket.live ++ bucket.replacements

/-- The node a contact is taken for. -/
def matching (bucket : KadRoutingBucket) (contact : KadContact) : Option KadRoutingNode :=
  bucket.nodes.find? fun node => sameContact node.contact contact

end KadRoutingBucket

namespace KadRoutingTable

def create (selfId : Text) (bucketSize : Nat) : Except Text KadRoutingTable :=
  if hs : validId selfId then
    .ok
      { selfId
        bucketSize := if bucketSize = 0 then 10 else bucketSize
        validSelf := hs
        bucketSize_pos := by split_ifs <;> omega }
  else .error (Text.of "Bad ED2K Kad id length.")

variable (table : KadRoutingTable) (contact : KadContact)

/-- The bucket of an id; the callers have checked its length. -/
def bucketIndex (id : Text) : Fin bucketCount :=
  ⟨bucketFrom 0 (distance table.selfId id),
    bucketFrom_lt 0 _ (by simp [distance, hashLength])⟩

def bucketOf (id : Text) : KadRoutingBucket :=
  table.buckets[table.bucketIndex id]

def modifyBucket (id : Text) (change : KadRoutingBucket → KadRoutingBucket) : KadRoutingTable :=
  { table with
    buckets := table.buckets.set (table.bucketIndex id)
      (change (table.bucketOf id)) }

def addNode (confirmed : Bool) (now : Int64) : KadRoutingTable :=
  if ¬ validRoutingContact contact ∨ contact.id = table.selfId then table
  else table.modifyBucket contact.id
    (KadRoutingBucket.addNode table.bucketSize contact confirmed now)

def heardAbout (now : Int64) : KadRoutingTable :=
  table.addNode contact false now

def nodeSeen (now : Int64) : KadRoutingTable :=
  table.addNode contact true now

def nodeFailed : KadRoutingTable :=
  if ¬ validId contact.id then table
  else table.modifyBucket contact.id (KadRoutingBucket.nodeFailed contact)

def findClosestExcluding (targetId excludedId : Text) (limit : Nat) (includeUnconfirmed : Bool) :
    Except Text (List KadContact) :=
  if ¬ validId targetId ∨ (excludedId ≠ [] ∧ ¬ validId excludedId) then
    .error (Text.of "Bad ED2K Kad id length.")
  else
    let nodes := table.buckets.toList.flatMap fun bucket =>
      bucket.live.filter fun node =>
        (includeUnconfirmed || node.confirmed) && node.contact.id != excludedId
    let nodes := nodes.insertionSort fun lhs rhs =>
      distanceCompare lhs.contact.id rhs.contact.id targetId ≠ .gt
    let nodes := if limit > 0 ∧ nodes.length > limit then nodes.take limit
      else nodes
    .ok (nodes.map (·.contact))

def findClosest (targetId : Text) (limit : Nat)
    (includeUnconfirmed : Bool) : Except Text (List KadContact) :=
  table.findClosestExcluding targetId [] limit includeUnconfirmed

/-- `addRouterNode(const Endpoint&)`. -/
def addRouterEndpoint (endpoint : Endpoint) : KadRoutingTable :=
  if endpoint.host = [] ∨ endpoint.port = 0 then table
  else if table.routerNodes.any fun item =>
      item.host = endpoint.host ∧ item.port = endpoint.port then table
  else { table with routerNodes := table.routerNodes ++ [endpoint] }

/-- `addRouterNode(const KadContact&)`. -/
def addRouterContact : KadRoutingTable :=
  if ¬ validRoutingContact contact then table
  else
    let table := table.addRouterEndpoint
      { host := contact.host, port := contact.udpPort }
    match Cursor.find (fun item => sameContact item contact ||
        (item.host = contact.host ∧ item.udpPort = contact.udpPort))
        table.routerContacts with
    | none =>
      { table with routerContacts := table.routerContacts ++ [contact] }
    | some existing => { table with routerContacts := existing.set contact }

/-- The members the table does not know keep their defaults; `Kad` fills them
in. -/
def snapshot : KadRoutingSnapshot :=
  { selfId := table.selfId
    buckets := table.buckets.toList
    routerNodes := table.routerNodes
    routerContacts := table.routerContacts
    lastBootstrap := table.lastBootstrap
    lastRefresh := table.lastRefresh
    lastSelfRefresh := table.lastSelfRefresh }

/-- A node of a snapshot whose id is not one is left out. -/
def place (lastActive : Int64) (live : Bool) (table : KadRoutingTable)
    (node : KadRoutingNode) : KadRoutingTable :=
  if ¬ validId node.contact.id then table
  else table.modifyBucket node.contact.id
    (KadRoutingBucket.place table.bucketSize lastActive live node)

def restoreBucket (saved : KadRoutingBucket) : KadRoutingTable :=
  let table := saved.live.foldl (place saved.lastActive true) table
  saved.replacements.foldl (place saved.lastActive false) table

def restore (snapshot : KadRoutingSnapshot) : Except Text KadRoutingTable :=
  if ¬ validId snapshot.selfId then
    .error (Text.of "Bad ED2K Kad id length.")
  else .ok (snapshot.buckets.foldl restoreBucket
    { table with
      routerNodes := snapshot.routerNodes
      routerContacts := snapshot.routerContacts
      lastBootstrap := snapshot.lastBootstrap
      lastRefresh := snapshot.lastRefresh
      lastSelfRefresh := snapshot.lastSelfRefresh
      buckets := Vector.replicate bucketCount {} })

def nodes : List KadRoutingNode :=
  table.buckets.toList.flatMap KadRoutingBucket.nodes

end KadRoutingTable

/-- The calls that change a table. -/
inductive KadRoutingCall where
  | heardAbout (contact : KadContact) (now : Int64)
  | nodeSeen (contact : KadContact) (now : Int64)
  | nodeFailed (contact : KadContact)
  | addRouterEndpoint (endpoint : Endpoint)
  | addRouterContact (contact : KadContact)

namespace KadRoutingTable

def step (table : KadRoutingTable) : KadRoutingCall → KadRoutingTable
  | .heardAbout contact now => table.heardAbout contact now
  | .nodeSeen contact now => table.nodeSeen contact now
  | .nodeFailed contact => table.nodeFailed contact
  | .addRouterEndpoint endpoint => table.addRouterEndpoint endpoint
  | .addRouterContact contact => table.addRouterContact contact

end KadRoutingTable

end Aria2Next
