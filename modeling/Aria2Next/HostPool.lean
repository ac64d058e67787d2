/-
`http/HostPool`: connections to one server, shared by every download from it.
A host without overload feedback has no limit; an overloaded one divides its
limit among its members, one connection each first and the rest as D'Hondt
seats by remaining bytes.

Times are nanoseconds of the steady clock.  Members and host names are only
compared, so their types stay open.
-/
import Aria2Next.Double
import Aria2Next.OrdMap
import Aria2Next.Runs

namespace Aria2Next

universe u v w

/-- A member's current wish. -/
structure Demand (Host : Type v) where
  host : Host
  wanted : Int
  remaining : Int
  transferring : Int
  order : Nat
deriving Repr, DecidableEq

/-- What is known about one server. -/
structure HostState where
  limit : Int := 0
  strikes : Nat := 0
  calmSince : Int := 0
  dropped : Int := 0
  readyAt : Int := 0
deriving Repr, DecidableEq

structure HostPool (Member : Type u) (Host : Type v) [LinearOrder Member]
    [LinearOrder Host] where
  members : OrdMap Member (Demand Host) := ∅
  hosts : OrdMap Host HostState := ∅
  allowances : OrdMap Member Int := ∅
  stale : Bool := true
  nextOrder : Nat := 0

namespace HostPool

variable {Member : Type u} {Host : Type v} {F : Type w} [LinearOrder Member] [LinearOrder Host]

def second : Int := 1000000000

/-- A lowered limit gains one connection per calm period without overload. -/
def calmPeriod : Int := 5 * second

/-- Pause after repeated refusals: 1 s, doubling up to this. -/
def maxPause : Int := 8 * second

variable (pool : HostPool Member Host) (member : Member) (host hs : Host)

/-- 0 while the host has given no overload feedback. -/
def limit : Int :=
  match pool.hosts.find? host with
  | none => 0
  | some state => state.limit

/-- Connections delivering from a host, over all its members. -/
def transferringOn : Int :=
  (pool.members.entries.map fun entry =>
    if entry.2.host = host then entry.2.transferring else 0).sum

/-- Connections asked of a host, over all its members. -/
def wantedOn : Int :=
  (pool.members.entries.map fun entry =>
    if entry.2.host = host then entry.2.wanted else 0).sum

def usedBy (members : OrdMap Member (Demand Host)) (host : Host) : Bool :=
  members.entries.any fun entry => entry.2.host = host

/-- Connections the server goes on serving are proof that it accepts them. -/
def raiseLimit : HostPool Member Host :=
  match pool.hosts.find? host with
  | some state =>
    if state.limit > 0 ∧ pool.transferringOn host > state.limit then
      { pool with
        hosts := pool.hosts.insert host
          { state with limit := pool.transferringOn host }
        stale := true }
    else pool
  | none => pool

/-- Whether `update` stores something other than what is stored. -/
def changes (entry : Option (Demand Host)) (host : Host) (wanted remaining : Int) : Bool :=
  match entry with
  | none => true
  | some demand => demand.host ≠ host || demand.wanted ≠ wanted || demand.remaining ≠ remaining

/-- The first half of `update`: the demand is stored. -/
def storeDemand (wanted remaining transferring : Int) : HostPool Member Host :=
  let entry := pool.members.find? member
  let order := match entry with
    | some demand => demand.order
    | none => pool.nextOrder
  { pool with
    members := pool.members.insert member
      { host, wanted := max 1 wanted, remaining, transferring, order }
    stale := pool.stale || changes entry host wanted remaining
    nextOrder := if entry.isNone then pool.nextOrder + 1
      else pool.nextOrder }

def update (wanted remaining transferring : Int) : HostPool Member Host :=
  (pool.storeDemand member host wanted remaining transferring).raiseLimit host

/-- A server nobody downloads from any more is asked afresh next time. -/
def leave : HostPool Member Host :=
  match pool.members.find? member with
  | none => pool
  | some demand =>
    let members := pool.members.erase member
    { pool with
      members
      stale := true
      hosts := if usedBy members demand.host then pool.hosts
        else pool.hosts.erase demand.host }

/-- The members on a host in joining order. -/
def membersOf : List (Member × Demand Host) :=
  (pool.members.entries.filter fun entry => entry.2.host = host).insertionSort
    (fun left right => left.2.order ≤ right.2.order)

/-- Every download first gets one connection, in the order they came: the
seats given to `count` members, and those left. -/
def firstSeats : Nat → Nat → List Int × Nat
  | 0, seats => ([], seats)
  | count + 1, 0 => (0 :: (firstSeats count 0).1, 0)
  | count + 1, seats + 1 =>
    (1 :: (firstSeats count seats).1, (firstSeats count seats).2)

section Seats

variable [Double F]

/-- The largest remaining work per connection so far, as a position and its
quotient, after looking at one more member's `(wanted, remaining)`. -/
def betterSeat (best : Option (Nat × F)) (index : Nat) (ask : Int × Int)
    (given : Int) : Option (Nat × F) :=
  if given = 0 ∨ given ≥ ask.1 then best
  else
    let weight : F := Double.ofInt (max 1 ask.2)
    let quotient := weight / Double.ofInt (given + 1)
    match best with
    | none => some (index, quotient)
    | some (_, bestQuotient) =>
      if Double.lt bestQuotient quotient then some (index, quotient)
      else best

/-- One scan for the member that takes the next seat. -/
def bestSeat (F : Type w) [Double F] (asks : List (Int × Int)) (given : List Int) : Option Nat :=
  (((asks.zip given).zipIdx).foldl (fun best entry =>
    betterSeat best entry.2 entry.1.1 entry.1.2) (none : Option (Nat × F))).map Prod.fst

/-- The rest go one at a time to the largest remaining work per
connection. -/
def divideSeats (F : Type w) [Double F] (asks : List (Int × Int)) : Nat → List Int → List Int
  | 0, given => given
  | seats + 1, given =>
    match bestSeat F asks given with
    | none => given
    | some best => divideSeats F asks seats (given.modify best (· + 1))

/-- The connections each member of a host gets, in joining order. -/
def shares (F : Type w) [Double F] (pool : HostPool Member Host)
    (host : Host) : List (Member × Int) :=
  let list := pool.membersOf host
  if pool.limit host ≤ 0 then list.map fun entry => (entry.1, entry.2.wanted)
  else
    let (given, seats) := firstSeats list.length (pool.limit host).toNat
    let asks := list.map fun entry => (entry.2.wanted, entry.2.remaining)
    (list.map Prod.fst).zip (divideSeats F asks seats given)

/-- `allocate` stores the shares of one host. -/
def allocate (F : Type w) [Double F] (pool : HostPool Member Host)
    (host : Host) : HostPool Member Host :=
  { pool with
    allowances := pool.allowances.insertAll (pool.shares F host) }

/-- The loop of `allowance` over all members; `done` holds the hosts that
were allocated. -/
def allocateAll (F : Type w) [Double F] (pool : HostPool Member Host)
    (done : List Host) : List (Member × Demand Host) → HostPool Member Host
  | [] => pool
  | (_, demand) :: rest =>
    if demand.host ∈ done then allocateAll F pool done rest
    else allocateAll F (pool.allocate F demand.host) (done ++ [demand.host]) rest

/-- Recompute the cache when it is stale. -/
def refresh (F : Type w) [Double F] (pool : HostPool Member Host) : HostPool Member Host :=
  if pool.stale then
    { allocateAll F { pool with allowances := ∅ } [] pool.members.entries with
      stale := false }
  else pool

/-- Connections the member may hold now, and the pool with its cache. -/
def allowance (F : Type w) [Double F] (pool : HostPool Member Host)
    (member : Member) : Int × HostPool Member Host :=
  match pool.members.find? member with
  | none => (0, pool)
  | some demand =>
    let pool := pool.refresh F
    (match pool.allowances.find? member with
      | none => demand.wanted
      | some allowed => allowed, pool)

end Seats

/-- A request from before the last drop: already answered by it. -/
def answered (state : HostState) (sent : Int) : Bool := state.limit > 0 && sent < state.dropped

/-- What `overloaded` makes of a host that serves `transferring`
connections. -/
def refuse (state : HostState) (transferring sent now readyAt : Int) : HostState :=
  let state := { state with readyAt := max state.readyAt readyAt }
  if answered state sent then state
  else
    let strikes := if now - state.calmSince < calmPeriod
      then state.strikes + 1 else 1
    let pause := min maxPause (second * 2 ^ min (strikes - 1) 5)
    { limit := max 1 transferring
      strikes
      calmSince := now
      dropped := now
      readyAt := max state.readyAt (now + pause) }

def overloaded (sent now readyAt : Int) : HostPool Member Host :=
  match pool.members.find? member with
  | none => pool
  | some demand =>
    let state := (pool.hosts.find? demand.host).getD {}
    { pool with
      hosts := pool.hosts.insert demand.host
        (refuse state (pool.transferringOn demand.host) sent now readyAt)
      stale := pool.stale || !answered state sent }

/-- Whether the calm period of a limited host is over. -/
def calm (now : Int) (state : HostState) : Bool :=
  state.limit > 0 && now - state.calmSince ≥ calmPeriod

/-- What `tick` makes of a host that is still used. -/
def recover (now : Int) (host : Host) (state : HostState) : HostState :=
  if calm now state then
    { state with
      limit := if state.limit + 1 ≥ pool.wantedOn host then 0
        else state.limit + 1
      strikes := 0
      calmSince := now }
  else state

/-- Lets a limit recover after a calm period, and forgets hosts that every
member has left. -/
def tick (now : Int) : HostPool Member Host :=
  let used := pool.hosts.filter fun host _ => usedBy pool.members host
  { pool with
    hosts := used.mapValues (pool.recover now)
    stale := pool.stale || used.entries.any fun entry => calm now entry.2 }

/-- A call of the pool. -/
inductive Call (Member : Type u) (Host : Type v) where
  | update (member : Member) (host : Host) (wanted remaining transferring : Int)
  | leave (member : Member)
  | overloaded (member : Member) (sent now readyAt : Int)
  | tick (now : Int)
  | allowance (member : Member)
deriving Repr

def step (F : Type w) [Double F] (pool : HostPool Member Host) :
    Call Member Host → HostPool Member Host
  | .update member host wanted remaining transferring =>
    pool.update member host wanted remaining transferring
  | .leave member => pool.leave member
  | .overloaded member sent now readyAt =>
    pool.overloaded member sent now readyAt
  | .tick now => pool.tick now
  | .allowance member => (pool.allowance F member).2

section

variable (p : HostPool Member Host)

theorem limit_insert (hs o : Host) (s : HostState) :
    { p with hosts := p.hosts.insert hs s }.limit o = if o = hs then s.limit else p.limit o := by
  simp only [limit, OrdMap.find?_insert]
  by_cases he : o = hs <;> simp [he]

theorem limit_eq_getD (hs : Host) : p.limit hs = ((p.hosts.find? hs).getD {}).limit := by
  rw [limit]
  cases p.hosts.find? hs with
  | _ => rfl

theorem refuse_limit (s : HostState) (on se now readyAt : Int) :
    (refuse s on se now readyAt).limit = if answered s se then s.limit else max 1 on := by
  have hs : answered { s with readyAt := max s.readyAt readyAt } se = answered s se := rfl
  rw [refuse, hs]
  by_cases ha : answered s se = true
  · rw [if_pos ha, if_pos ha]
  · rw [if_neg ha, if_neg ha]

theorem refuse_readyAt_ge (s : HostState) (on se now readyAt : Int) :
    s.readyAt ≤ (refuse s on se now readyAt).readyAt := by
  by_cases ha : answered { s with readyAt := max s.readyAt readyAt } se = true
  · simp [refuse, ha]
  · simp [refuse, ha]

theorem overloaded_members (m : Member) (s now r : Int) :
    (p.overloaded m s now r).members = p.members := by
  rw [overloaded]
  cases p.members.find? m with
  | _ => rfl

theorem usedBy_of_find? {m : OrdMap Member (Demand Host)} {me : Member} {d : Demand Host}
    (hm : m.find? me = some d) : usedBy m d.host = true := by
  rw [usedBy, List.any_eq_true]
  exact ⟨(me, d), (OrdMap.find?_eq_some_iff _ _ _).mp hm, by simp⟩

theorem find?_tick (now : Int) (hs : Host) : (p.tick now).hosts.find? hs =
      if usedBy p.members hs then
        (p.hosts.find? hs).map (p.recover now hs)
      else none := by
  rw [tick, OrdMap.find?_mapValues, OrdMap.find?_filter]
  cases p.hosts.find? hs with
  | none => simp
  | some s =>
    by_cases hu : usedBy p.members hs = true <;> simp [hu, Option.filter]

end

section Cache

variable [Double F]

theorem allocateAll_members (p : HostPool Member Host) (d : List Host)
    (es : List (Member × Demand Host)) :
    (allocateAll F p d es).members = p.members ∧ (allocateAll F p d es).hosts = p.hosts := by
  induction es generalizing p d with
  | nil => exact ⟨rfl, rfl⟩
  | cons e r ih =>
    by_cases hdo : e.2.host ∈ d
    · simpa [allocateAll, hdo] using ih p d
    · simp only [allocateAll, hdo, ↓reduceIte]
      exact ih (p.allocate F e.2.host) (d ++ [e.2.host])

theorem refresh_members (p : HostPool Member Host) :
    (p.refresh F).members = p.members ∧ (p.refresh F).hosts = p.hosts := by
  rw [refresh]
  split_ifs
  · exact allocateAll_members _ _ _
  · exact ⟨rfl, rfl⟩

end Cache

end HostPool

end Aria2Next
