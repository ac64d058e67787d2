/-
`net/PortMapper`: the ports that a UPnP gateway forwards.  `run` is a
coroutine; between two of its suspension points it runs alone, so a step takes
it from one to the next, and calls from outside fall at any of them.
-/
import Aria2Next.Runs

namespace Aria2Next

open Runs

inductive Protocol where
  | tcp
  | udp
deriving DecidableEq, Repr

structure Mapping where
  protocol : Protocol
  port : Nat
  mapped : Bool := false
  /-- How often `map` was called for it; the source does not count. -/
  attempts : Nat := 0
deriving DecidableEq, Repr

/-- Where `run` is suspended. -/
inductive Suspension where
  /-- There is no coroutine: `running_` is false. -/
  | idle
  /-- Spawned, to be started by the executor. -/
  | start
  | discover
  /-- In `describe`, with the locations behind this one. -/
  | describe (later : List String)
  /-- In a request of `map`: the position in the vector, where the loop ends,
  the loop's `mapped` and whether this is the second attempt. -/
  | map (index stop : Nat) (mapped again : Bool)
  | external
  | wait
  /-- The wait was cancelled or has expired. -/
  | woken
  | ended
deriving DecidableEq, Repr

/-- A request to the gateway is under way. -/
def Suspension.inRequest : Suspension → Bool
  | .map _ _ _ _ => true
  | .external => true
  | _ => false

structure PortMapper (G : Type) where
  mappings : List Mapping := []
  gateway : Option G := none
  permanent : Bool := false
  closed : Bool := false
  alive : Bool := true
  point : Suspension := .idle
deriving DecidableEq, Repr

namespace PortMapper

variable {G : Type}

/-- `wake_.cancel()` ends a wait that is in progress and does nothing else. -/
def cancel (mapper : PortMapper G) : PortMapper G :=
  if mapper.point = .wait then { mapper with point := .woken } else mapper

def add (mapper : PortMapper G) (protocol : Protocol) (port : Nat) : PortMapper G :=
  if mapper.closed ∨ port = 0 then mapper
  else
    let mapper := { mapper with mappings := mapper.mappings ++ [({ protocol, port } : Mapping)] }
    if mapper.point = .idle then { mapper with point := .start } else mapper.cancel

/-- `map` sends its first request for the mapping at `index`. -/
def map (mapper : PortMapper G) (index stop : Nat) (mapped : Bool) : PortMapper G :=
  { mapper with
    mappings := mapper.mappings.modify index fun mapping =>
      { mapping with attempts := mapping.attempts + 1 }
    point := .map index stop mapped false }

/-- The loop over the mappings, from `index` to the end it had at first. -/
def mapFrom (mapper : PortMapper G) (index stop : Nat) (mapped : Bool) : PortMapper G :=
  if index < stop then mapper.map index stop mapped else { mapper with point := .external }

/-- From the end of the search to the mappings, or to the wait for another
search. -/
def searched (mapper : PortMapper G) : PortMapper G :=
  if !mapper.alive || mapper.closed then { mapper with point := .ended }
  else if mapper.gateway.isNone then { mapper with point := .wait }
  else mapper.mapFrom 0 mapper.mappings.length true

/-- The head of the outer loop. -/
def head (mapper : PortMapper G) : PortMapper G :=
  if !mapper.alive || mapper.closed then { mapper with point := .ended }
  else if mapper.gateway.isNone then { mapper with point := .discover }
  else mapper.searched

def describe (mapper : PortMapper G) : List String → PortMapper G
  | [] => mapper.searched
  | _ :: later =>
    if !mapper.alive || mapper.closed then { mapper with point := .ended }
    else { mapper with point := .describe later }

/-- `map` returns with its outcome, and the loop goes on. -/
def mapReturned (mapper : PortMapper G) (index stop : Nat) (mapped done : Bool) : PortMapper G :=
  let mapper := { mapper with
    mappings := mapper.mappings.modify index fun mapping => { mapping with mapped := done } }
  if !mapper.alive || mapper.closed then { mapper with point := .ended }
  else mapper.mapFrom (index + 1) stop (mapped && done)

/-- The answer to a request of `map`. -/
def mapAnswered (mapper : PortMapper G) (index stop : Nat) (mapped again : Bool) (status : Nat)
    (code : String) : PortMapper G :=
  if status = 200 then mapper.mapReturned index stop mapped true
  else if code = "725" ∧ !mapper.permanent then
    let mapper := { mapper with permanent := true }
    -- after the second attempt the loop of `map` ends with `mapped` as it was
    if again then
      mapper.mapReturned index stop mapped ((mapper.mappings[index]?.map Mapping.mapped).getD false)
    else { mapper with point := .map index stop mapped true }
  else mapper.mapReturned index stop mapped false

inductive Event (G : Type) where
  | add (protocol : Protocol) (port : Nat)
  | close
  | destroy
  /-- The executor starts or resumes the coroutine. -/
  | resume
  | expire
  | discovered (locations : List String)
  | described (gateway : Option G)
  | answered (status : Nat) (code : String)
  /-- An exception ends the coroutine. -/
  | threw
deriving DecidableEq, Repr

def step (mapper : PortMapper G) : Event G → PortMapper G
  | .add protocol port => mapper.add protocol port
  | .close => { mapper with closed := true }.cancel
  | .destroy => { mapper with alive := false }
  | .resume =>
    match mapper.point with
    | .start => mapper.head
    | .woken => mapper.head
    | _ => mapper
  | .expire => mapper.cancel
  | .discovered locations => if mapper.point = .discover then mapper.describe locations else mapper
  | .described gateway =>
    match mapper.point with
    | .describe later =>
      let mapper := { mapper with gateway }
      if gateway.isSome then mapper.searched else mapper.describe later
    | _ => mapper
  | .answered status code =>
    match mapper.point with
    | .map index stop mapped again => mapper.mapAnswered index stop mapped again status code
    -- a gateway that cannot be reached is looked for again
    | .external =>
      { mapper with gateway := if status = 0 then none else mapper.gateway, point := .wait }
    | _ => mapper
  | .threw => if mapper.point = .idle then mapper else { mapper with point := .ended }

/-- A port is added while a request is under way. -/
def addsInRequest (mapper : PortMapper G) : Event G → Bool
  | .add _ port => port ≠ 0 && !mapper.closed && mapper.point.inRequest
  | _ => false

/-- The mappings before a position were attempted. -/
def AttemptedTo (mapper : PortMapper G) (index : Nat) : Prop :=
  ∀ k < index, ∀ mapping, mapper.mappings[k]? = some mapping → 0 < mapping.attempts

/-- What holds of the mappings at each suspension point. -/
def Attended (mapper : PortMapper G) : Prop :=
  match mapper.point with
  | .map index stop _ _ =>
    index < stop ∧ stop = mapper.mappings.length ∧ mapper.AttemptedTo (index + 1)
  | .external => mapper.AttemptedTo mapper.mappings.length
  | .wait => mapper.gateway.isSome → mapper.AttemptedTo mapper.mappings.length
  | _ => True

variable {mapper mp : PortMapper G}

theorem attended_of_point (hr : mp.point.inRequest = false) (hw : mp.point ≠ .wait) :
    mp.Attended := by
  rw [Attended]
  split
  · next h => simp [h, Suspension.inRequest] at hr
  · next h => simp [h, Suspension.inRequest] at hr
  · next h => exact absurd h hw
  · trivial

/-- The loop over the mappings keeps its record. -/
theorem mapFrom_attended {i s : Nat} (hs : s = mp.mappings.length) (hi : i ≤ s)
    (ha : mp.AttemptedTo i) (m : Bool) : (mp.mapFrom i s m).Attended := by
  rw [mapFrom]
  split_ifs with h
  · refine ⟨h, by simpa [map] using hs, fun k hk ma hf => ?_⟩
    rw [map, List.getElem?_modify] at hf
    obtain ⟨b, hb, rfl⟩ := Option.map_eq_some_iff.mp hf
    split_ifs with he
    · exact Nat.succ_pos _
    · exact ha k (by omega) b hb
  · obtain rfl : i = s := by omega
    exact fun k hk => ha k (hs ▸ hk)

theorem searched_attended (m : PortMapper G) : m.searched.Attended := by
  rw [searched]
  split_ifs with hc hg
  · trivial
  · exact fun h => absurd h (by simpa using hg)
  · exact mapFrom_attended rfl (Nat.zero_le _) (fun k hk => absurd hk (Nat.not_lt_zero k)) true

theorem head_attended (m : PortMapper G) : m.head.Attended := by
  rw [head]
  split_ifs
  · trivial
  · trivial
  · exact searched_attended m

theorem describe_attended (m : PortMapper G) (l : List String) : (m.describe l).Attended := by
  cases l with
  | nil => exact searched_attended m
  | cons lo la =>
    rw [describe]
    split_ifs <;> trivial

theorem mapReturned_attended {i s : Nat} (hs : s = mp.mappings.length) (hi : i < s)
    (ha : mp.AttemptedTo (i + 1)) (m d : Bool) : (mp.mapReturned i s m d).Attended := by
  rw [mapReturned]
  split_ifs
  · trivial
  · refine mapFrom_attended (by simpa using hs) hi (fun k hk ma hf => ?_) _
    rw [List.getElem?_modify] at hf
    obtain ⟨b, hb, rfl⟩ := Option.map_eq_some_iff.mp hf
    have := ha k hk b hb
    split_ifs <;> exact this

theorem mapAnswered_attended {i st : Nat} (hs : st = mp.mappings.length) (hi : i < st)
    (ha : mp.AttemptedTo (i + 1)) (m a : Bool) (s : Nat) (c : String) :
    (mp.mapAnswered i st m a s c).Attended := by
  rw [mapAnswered]
  split_ifs
  · exact mapReturned_attended hs hi ha m true
  · exact @mapReturned_attended G { mp with permanent := true } i st hs hi ha m _
  · exact ⟨hi, hs, ha⟩
  · exact mapReturned_attended hs hi ha m false

theorem cancel_attended (ha : mp.Attended) : mp.cancel.Attended := by
  rw [cancel]
  split_ifs
  · trivial
  · exact ha

/-- Unless it falls into a request, a step keeps the record. -/
theorem step_attended (m : PortMapper G) (e : Event G) (ha : m.Attended)
    (hq : m.addsInRequest e = false) : (m.step e).Attended := by
  cases e with
  | add p po =>
    rw [step, add]
    dsimp only
    split_ifs with hc hr
    · exact ha
    · trivial
    · rw [cancel]
      split_ifs with hw
      · trivial
      · rw [not_or] at hc
        refine attended_of_point ?_ hw
        simpa [addsInRequest, hc.1, hc.2] using hq
  | close | expire => exact cancel_attended ha
  | destroy => exact ha
  | resume =>
    rw [step]
    split
    · exact head_attended m
    · exact head_attended m
    · exact ha
  | discovered l =>
    rw [step]
    split_ifs
    · exact describe_attended m l
    · exact ha
  | described g =>
    rw [step]
    split
    · split_ifs
      · exact searched_attended _
      · exact describe_attended _ _
    · exact ha
  | answered s c =>
    have hk := ha
    rw [Attended] at hk
    rw [step]
    split
    · next h =>
      rw [h] at hk
      exact mapAnswered_attended hk.2.1 hk.1 hk.2.2 _ _ s c
    · next h =>
      rw [h] at hk
      exact fun _ => hk
    · exact ha
  | threw =>
    rw [step]
    split_ifs
    · exact ha
    · trivial

/-- When no port is added while a request is under way, a wait with the
gateway known begins with every port attempted. -/
theorem run_wait_attempted {events : List (Event G)}
    (hq : Meets step (fun mapper event => mapper.addsInRequest event = false) {} events)
    (hw : (run step {} events).point = .wait) (hg : (run step {} events).gateway.isSome = true) :
    ∀ mapping ∈ (run step {} events).mappings, 0 < mapping.attempts := by
  have ha : (run step {} events).Attended :=
    @run_invariant _ _ step _ Attended step_attended {} events trivial hq
  rw [Attended, hw] at ha
  intro mapping hm
  obtain ⟨k, hk, rfl⟩ := List.mem_iff_getElem.mp hm
  exact ha hg k hk _ (List.getElem?_eq_getElem hk)

/-- A first port is mapped; a second one follows during the wait. -/
theorem run_wait_attempted_second :
    let events : List (Event Nat) := [.add .tcp 4662, .resume, .discovered ["u"], .described (some 1),
      .answered 200 "", .answered 200 "", .add .udp 4672, .resume, .answered 200 "",
      .answered 200 "", .answered 200 ""]
    (run step {} events).point = .wait ∧ (run step {} events).mappings.length = 2 ∧
      ∀ mapping ∈ (run step {} events).mappings, 0 < mapping.attempts := by
  refine ⟨by decide +kernel, by decide +kernel, run_wait_attempted ?_ ?_ ?_⟩
  · decide +kernel
  · decide +kernel
  · decide +kernel

/-- A port added while the external address is asked for is left to the next
renewal. -/
theorem run_wait_lost :
    let mapper := run step ({} : PortMapper Nat) [.add .tcp 4662, .resume, .discovered ["u"],
      .described (some 1), .answered 200 "", .add .udp 4672, .answered 200 ""]
    mapper.point = .wait ∧ mapper.gateway = some 1 ∧
      { protocol := .udp, port := 4672, mapped := false, attempts := 0 } ∈ mapper.mappings := by
  decide +kernel

end PortMapper

end Aria2Next
