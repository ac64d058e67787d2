/-
`KadTraversal` of `ed2k/KadRouting`: a lookup asks contacts that are closer and
closer to a target, until the closest of those that did not fail have answered,
and searches contacts that answered.

The flags of the observers say what was sent and what came back, so the
counters of the lookup are counts of flags.  Each step marks some observers:
what a mark does to the observers with a property is said once, for all marks.
-/
import Aria2Next.KadRoutingReach

namespace Aria2Next

open List

inductive KadTraversalActionType where
  | findNode | search
deriving DecidableEq, Repr

structure KadTraversalAction where
  type : KadTraversalActionType
  contact : KadContact
deriving DecidableEq, Repr

namespace KadTraversal

structure Observer where
  contact : KadContact
  queried : Bool := false
  alive : Bool := false
  failed : Bool := false
  searched : Bool := false
deriving DecidableEq, Repr

end KadTraversal

open KadTraversal in
structure KadTraversal where
  targetId : Text
  searchable : Option (KadContact → Bool) := none
  maxSearches : Nat := 0
  branchFactor : Nat := 3
  targetNodes : Nat := 8
  inFlight : Nat := 0
  extra : Nat := 0
  queried : Nat := 0
  answered : Nat := 0
  searches : Nat := 0
  searchInFlight : Nat := 0
  converged : Bool := false
  done : Bool := true
  observers : List Observer := []

namespace KadTraversal

/-- The constructor. -/
def create (targetId : Text) (searchable : Option (KadContact → Bool))
    (maxSearches branchFactor targetNodes : Nat) : Except Text KadTraversal :=
  if validId targetId then
    .ok { targetId, searchable, maxSearches
          branchFactor := if branchFactor = 0 then 3 else branchFactor
          targetNodes := if targetNodes = 0 then 8 else targetNodes
          done := false }
  else .error (Text.of "Bad ED2K Kad id length.")

def find (traversal : KadTraversal) (contact : KadContact) : Option (Cursor Observer) :=
  Cursor.find (fun observer => sameContact observer.contact contact ||
    (observer.contact.host = contact.host ∧ observer.contact.udpPort = contact.udpPort))
    traversal.observers

variable (traversal : KadTraversal) (type : KadTraversalActionType) (observer : Observer)

/-- The traversal, the observer and the contact that is searched, if it is. -/
def search (anyAnswered : Bool) : KadTraversal × Observer × List KadContact :=
  match traversal.searchable with
  | none => (traversal, observer, [])
  | some accepts =>
    if observer.searched ∨ traversal.searches ≥ traversal.maxSearches ∨
        (anyAnswered = false ∧ accepts observer.contact = false) then (traversal, observer, [])
    else
      ({ traversal with
          searches := traversal.searches + 1
          searchInFlight := traversal.searchInFlight + 1 },
        { observer with searched := true }, [observer.contact])

/-- What a contact that is known already learns. -/
def learn (known contact : KadContact) : KadContact :=
  { known with
    tcpPort := if known.tcpPort = 0 then contact.tcpPort else known.tcpPort
    version := if known.version = 0 then contact.version else known.version
    udpKey := if known.udpKey = 0 then contact.udpKey else known.udpKey }

/-- The loop at the end of `addContact`, from the last observer on. -/
def dropFar : List Observer → List Observer
  | [] => []
  | observer :: rest =>
    if rest.length + 1 > 128 ∧ observer.queried = false then dropFar rest else observer :: rest

/-- The first observer is not farther from the target. -/
abbrev Nearer (targetId : Text) (lhs rhs : Observer) : Prop :=
  distanceCompare lhs.contact.id rhs.contact.id targetId ≠ .gt

/-- `lower_bound` on sorted observers finds the first that is not closer. -/
def addContact (contact : KadContact) : KadTraversal :=
  if ¬ validId contact.id ∨ contact.host = [] ∨ contact.udpPort = 0 then traversal
  else
    match traversal.find contact with
    | some known =>
      { traversal with
        observers := known.set { known.item with contact := learn known.item.contact contact } }
    | none =>
      let observers := traversal.observers.orderedInsert (Nearer traversal.targetId) { contact }
      { traversal with observers := (dropFar observers.reverse).reverse }

/-- The first loop of `nextActions`: whether it converged, the observers and
the contacts that are asked. -/
def ask (limit targetNodes : Nat) : Nat → Nat → List Observer →
    Bool × List Observer × List KadContact
  | _, _, [] => (true, [], [])
  | considered, inFlight, observer :: rest =>
    if observer.failed then
      let (converged, rest, asked) := ask limit targetNodes considered inFlight rest
      (converged, observer :: rest, asked)
    else if considered + 1 > targetNodes then (true, observer :: rest, [])
    else if observer.alive then
      let (converged, rest, asked) := ask limit targetNodes (considered + 1) inFlight rest
      (converged, observer :: rest, asked)
    else if observer.queried = false ∧ inFlight < limit then
      let (_, rest, asked) := ask limit targetNodes (considered + 1) (inFlight + 1) rest
      (false, { observer with queried := true } :: rest, observer.contact :: asked)
    else
      let (_, rest, asked) := ask limit targetNodes (considered + 1) inFlight rest
      (false, observer :: rest, asked)

/-- The second loop of `nextActions`. -/
def searchClosest : Nat → KadTraversal → List Observer →
    KadTraversal × List Observer × List KadContact
  | _, traversal, [] => (traversal, [], [])
  | considered, traversal, observer :: rest =>
    if observer.alive then
      let (traversal, observer, searched) :=
        if considered + 1 ≤ traversal.targetNodes then traversal.search observer true
        else (traversal, observer, [])
      let (traversal, rest, more) := searchClosest (considered + 1) traversal rest
      (traversal, observer :: rest, searched ++ more)
    else
      let (traversal, rest, more) := searchClosest considered traversal rest
      (traversal, observer :: rest, more)

def nextActions : KadTraversal × List KadTraversalAction :=
  if traversal.done ∨ traversal.converged then (traversal, [])
  else
    let (converged, observers, asked) := ask (traversal.branchFactor + traversal.extra)
      traversal.targetNodes 0 traversal.inFlight traversal.observers
    let traversal := { traversal with
      observers
      queried := traversal.queried + asked.length
      inFlight := traversal.inFlight + asked.length }
    let actions := asked.map (⟨.findNode, ·⟩)
    if converged = false then (traversal, actions)
    else
      let (traversal, observers, searched) :=
        searchClosest 0 { traversal with converged := true } observers
      ({ traversal with observers, done := traversal.done || traversal.searchInFlight = 0 },
        actions ++ searched.map (⟨.search, ·⟩))

def start (seeds : List KadContact) : KadTraversal × List KadTraversalAction :=
  (seeds.foldl addContact traversal).nextActions

/-- What `onResponse` does to the contact that answers. -/
def answer (contact : KadContact) : KadTraversal × List KadContact :=
  match traversal.find contact with
  | none => (traversal, [])
  | some found =>
    if found.item.queried ∧ found.item.alive = false then
      let (traversal, observer, searched) := { traversal with
          answered := traversal.answered + 1
          inFlight := traversal.inFlight - 1 }.search
        { found.item with alive := true, failed := false } false
      ({ traversal with observers := found.set observer }, searched)
    else (traversal, [])

def onResponse (contact : KadContact) (closer : List KadContact) :
    KadTraversal × List KadTraversalAction :=
  if traversal.done then (traversal, [])
  else
    let (traversal, searched) := traversal.answer contact
    let (traversal, next) := (closer.foldl addContact traversal).nextActions
    (traversal, searched.map (⟨.search, ·⟩) ++ next)

/-- What `onFailure` does to the contact that failed. -/
def fail (contact : KadContact) : KadTraversal :=
  match traversal.find contact with
  | none => traversal
  | some found =>
    if found.item.failed = false ∧ found.item.alive = false then
      { traversal with
        observers := found.set { found.item with failed := true }
        inFlight := traversal.inFlight - 1 }
    else traversal

def onFailure (contact : KadContact) : KadTraversal × List KadTraversalAction :=
  (traversal.fail contact).nextActions

def stalled : KadTraversal × List KadTraversalAction :=
  nextActions (if traversal.extra < 2 * traversal.branchFactor then
    { traversal with extra := traversal.extra + 1 } else traversal)

def finishSearch (contact : KadContact) (failed : Bool) : KadTraversal :=
  let observers := match traversal.find contact with
    | some found => if failed then found.set { found.item with failed := true }
      else traversal.observers
    | none => traversal.observers
  let searchInFlight := traversal.searchInFlight - 1
  { traversal with
    observers
    searchInFlight
    done := traversal.done || (traversal.converged && searchInFlight = 0) }

def onSearchResponse (contact : KadContact) : KadTraversal :=
  traversal.finishSearch contact false

def onSearchFailure (contact : KadContact) : KadTraversal :=
  traversal.finishSearch contact true

/-- The closest observers that have not failed. -/
def closest : List Observer :=
  (traversal.observers.filter (!·.failed)).take traversal.targetNodes

/-- Who a contact is. -/
abbrev Key := Text × Text × UInt16

def Observer.key : Key := observer.contact.triple

/-- The observers with a property. -/
def keys (p : Observer → Bool) (observers : List Observer) : List Key :=
  (observers.filter p).map Observer.key

/-- Asked, and neither answered nor failed. -/
def Observer.pending : Bool :=
  observer.queried && !observer.alive && !observer.failed

/-- Some observers that meet the guard are changed, those of the given keys. -/
inductive Marks (guard : Observer → Prop) (f : Observer → Observer) :
    List Observer → List Observer → List Key → Prop
  | stop (observers : List Observer) : Marks guard f observers observers []
  | skip (observer : Observer) {observers next : List Observer} {new : List Key}
      (hrest : Marks guard f observers next new) :
      Marks guard f (observer :: observers) (observer :: next) new
  | mark {observer : Observer} (hguard : guard observer) {observers next : List Observer}
      {new : List Key} (hrest : Marks guard f observers next new) :
      Marks guard f (observer :: observers) (f observer :: next) (observer.key :: new)

namespace Marks

variable {gr g : Observer → Prop} {f : Observer → Observer} {os nx n : List Observer}
  {new : List Key} {p : Observer → Bool}

theorem of_cursor (fn : Cursor Observer) (hg : gr fn.item) :
    Marks gr f fn.list (fn.set (f fn.item)) [fn.item.key] := by
  obtain ⟨b, item, a⟩ := fn
  induction b with
  | nil => exact .mark hg (.stop a)
  | cons o b ih => exact .skip o (ih hg)

theorem map_eq (hm : Marks gr f os nx new) {B : Type*} {g : Observer → B}
    (hg : ∀ o, gr o → g (f o) = g o) : nx.map g = os.map g := by
  induction hm with
  | stop => rfl
  | skip o _ ih => rw [map_cons, ih, map_cons]
  | mark hgu _ ih => rw [map_cons, ih, hg _ hgu, map_cons]

theorem keep (hm : Marks gr f os n new) (p : Observer → Bool)
    (hf : ∀ o, gr o → (p (f o), (f o).key) = (p o, o.key)) : keys p n = keys p os := by
  have hk (os : List Observer) : keys p os =
      ((os.map fun o => (p o, o.key)).filter (·.1)).map (·.2) := by
    simp [keys, filter_map, Function.comp_def]
  rw [hk, hm.map_eq hf, ← hk]

/-- Marks that say nothing about answers and failures. -/
theorem alive (hm : Marks gr f os n new)
    (hf : ∀ o, gr o → ((f o).failed, (f o).alive) = (o.failed, o.alive)) {c : Nat}
    (ha : ∀ o ∈ (os.filter (!·.failed)).take c, o.alive = true) :
    ∀ o ∈ (n.filter (!·.failed)).take c, o.alive = true := by
  have hfl (os : List Observer) : (∀ o ∈ (os.filter (!·.failed)).take c, o.alive = true) ↔
      ∀ fl ∈ ((os.map fun o => (o.failed, o.alive)).filter (!·.1)).take c, fl.2 = true := by
    simp [filter_map, ← map_take, Function.comp_def]
  rw [hfl, hm.map_eq hf, ← hfl]
  exact ha

theorem gain (hm : Marks g f os n new)
    (hf : ∀ o, g o → (f o).key = o.key ∧ p o = false ∧ p (f o) = true) :
    (keys p n).Perm (keys p os ++ new) := by
  simp only [keys]
  induction hm with
  | stop => simp
  | skip o _ ih => cases ho : p o <;> simp [ho, ih]
  | @mark o hg _ _ _ _ ih =>
    obtain ⟨hk, hb, ha⟩ := hf o hg
    simp only [filter_cons, hb, ha, hk, if_true, Bool.false_eq_true, if_false, map_cons]
    exact (ih.cons _).trans perm_middle.symm

theorem lose (hm : Marks gr f os n new) (hf : ∀ o, gr o → p o = true ∧ p (f o) = false) :
    (keys p os).Perm (keys p n ++ new) := by
  simp only [keys]
  induction hm with
  | stop => simp
  | skip o _ ih => cases ho : p o <;> simp [ho, ih]
  | @mark o hg _ _ _ _ ih =>
    obtain ⟨hb, ha⟩ := hf o hg
    simp only [filter_cons, hb, ha, if_true, Bool.false_eq_true, if_false, map_cons]
    exact (ih.cons _).trans perm_middle.symm

theorem all (hm : Marks gr f os n new) {motive : Observer → Prop}
    (hf : ∀ o, gr o → motive o → motive (f o)) (ha : ∀ o ∈ os, motive o) : ∀ o ∈ n, motive o := by
  induction hm with
  | stop => exact ha
  | skip o _ ih =>
    rw [forall_mem_cons] at ha ⊢
    exact ⟨ha.1, ih ha.2⟩
  | mark hg _ ih =>
    rw [forall_mem_cons] at ha ⊢
    exact ⟨hf _ hg ha.1, ih ha.2⟩

end Marks

/-- The contacts that were sent a request of a type. -/
def sent (actions : List KadTraversalAction) : List Key :=
  (actions.filter (·.type = type)).map (·.contact.triple)

/-- A lookup with what it has sent, what is not answered yet and who answered. -/
structure Lookup where
  traversal : KadTraversal
  issued : List KadTraversalAction := []
  finds : List Key := []
  searches : List Key := []
  answers : List Key := []

namespace Lookup

def perform (lookup : Lookup) (result : KadTraversal × List KadTraversalAction) : Lookup :=
  { lookup with
    traversal := result.1
    issued := lookup.issued ++ result.2
    finds := lookup.finds ++ sent .findNode result.2
    searches := lookup.searches ++ sent .search result.2 }

def begin (traversal : KadTraversal) (seeds : List KadContact) : Lookup :=
  perform { traversal } (traversal.start seeds)

inductive Event where
  | response (contact : KadContact) (closer : List KadContact)
  | failure (contact : KadContact)
  | searchResponse (contact : KadContact)
  | searchFailure (contact : KadContact)
  | stalled
deriving DecidableEq, Repr

def step (lookup : Lookup) : Event → Lookup
  | .response contact closer =>
    { lookup with
      finds := lookup.finds.erase contact.triple
      answers := lookup.answers ++ [contact.triple] }.perform
      (lookup.traversal.onResponse contact closer)
  | .failure contact =>
    { lookup with finds := lookup.finds.erase contact.triple }.perform
      (lookup.traversal.onFailure contact)
  | .searchResponse contact =>
    { lookup with
      traversal := lookup.traversal.onSearchResponse contact
      searches := lookup.searches.erase contact.triple }
  | .searchFailure contact =>
    { lookup with
      traversal := lookup.traversal.onSearchFailure contact
      searches := lookup.searches.erase contact.triple }
  | .stalled => lookup.perform lookup.traversal.stalled

/-- An answer or a failure is that of a request. -/
def Due (lookup : Lookup) : Event → Prop
  | .response contact _ | .failure contact => contact.triple ∈ lookup.finds
  | .searchResponse contact | .searchFailure contact => contact.triple ∈ lookup.searches
  | .stalled => True

instance (lookup : Lookup) : ∀ event, Decidable (lookup.Due event) := fun event => by
  unfold Due
  split <;> infer_instance

end Lookup

/-- Contacts in order, none of them in two places. -/
def Before (targetId : Text) (first second : Key) : Prop :=
  distanceCompare first.1 second.1 targetId = .lt ∧ first.2 ≠ second.2

/-- Different contacts. -/
def Apart (first second : Key) : Prop := first.1 ≠ second.1 ∧ first.2 ≠ second.2

/-- What a lookup keeps from its beginning. -/
def settings : Text × Nat × Nat × Nat :=
  (traversal.targetId, traversal.maxSearches, traversal.branchFactor, traversal.targetNodes)

/-- The observers stand in order. -/
structure Placed (home traversal : KadTraversal) : Prop where
  settings_eq : traversal.settings = home.settings
  branch : 0 < traversal.branchFactor
  sorted : (traversal.observers.map Observer.key).Pairwise (Before traversal.targetId)
  valid : ∀ key ∈ traversal.observers.map Observer.key, validId key.1

theorem Apart.symm {first s : Key} (ha : Apart first s) : Apart s first := ⟨ha.1.symm, ha.2.symm⟩

variable {first fr s target tr : Text} {home he t : KadTraversal} {l : Lookup}

theorem Placed.of_keys {next : KadTraversal} (hp : Placed he t) (hs : next.settings = t.settings)
    (hk : next.observers.map Observer.key = t.observers.map Observer.key) : Placed he next := by
  have hsa := hs
  simp only [settings, Prod.mk.injEq] at hsa
  constructor
  · exact hs.trans hp.settings_eq
  · rw [hsa.2.2.1]
    exact hp.branch
  · rw [hk, hsa.1]
    exact hp.sorted
  · rw [hk]
    exact hp.valid

/-- The flags of the observers tell what the lookup has sent and what came
back. -/
structure Booked (home : KadTraversal) (lookup : Lookup) : Prop where
  placed : Placed home lookup.traversal
  flags : ∀ observer ∈ lookup.traversal.observers, (observer.searched → observer.alive) ∧
    (observer.alive → observer.queried ∧ observer.key ∈ lookup.answers)
  asked : (sent .findNode lookup.issued).Perm (keys (·.queried) lookup.traversal.observers)
  sought : (sent .search lookup.issued).Perm (keys (·.searched) lookup.traversal.observers)
  count : lookup.traversal.searches = (sent .search lookup.issued).length
  limit : lookup.traversal.searches ≤ lookup.traversal.maxSearches
  pending : lookup.traversal.done = false →
    lookup.finds.Perm (keys Observer.pending lookup.traversal.observers) ∧
      lookup.traversal.inFlight = lookup.finds.length
  searching : lookup.searches ⊆ sent .search lookup.issued
  inFlight : lookup.traversal.searchInFlight = lookup.searches.length

/-- A lookup that is not done waits for something. -/
def Waits (lookup : Lookup) : Prop :=
  lookup.traversal.done = false →
    if lookup.traversal.converged then lookup.searches ≠ [] else lookup.finds ≠ []

open Packet (hashLength readUInt32 take_eq_of_readUInt32) in
/-- Ids at the same distance are the same. -/
theorem distance_inj (hf : validId fr) (hs : validId s) (hsa : distance fr tr = distance s tr) :
    fr = s := by
  have hl : fr.length = s.length := (of_decide_eq_true hf).trans (of_decide_eq_true hs).symm
  have hc (c : Nat) (hlt : c < hashLength / 4) :
      (fr.drop (c * 4)).take 4 = (s.drop (c * 4)).take 4 := by
    apply take_eq_of_readUInt32 (by simp [hl])
    exact (UInt32.xor_left_inj _).mp (map_inj_left.mp hsa c (mem_range.mpr hlt))
  apply ext_getElem hl
  intro i hi hi'
  have hlt : i < 16 := hi.trans_eq (of_decide_eq_true hf)
  have hb := congrArg (·[i % 4]?) (hc (i / 4) (by rw [hashLength]; omega))
  simpa [Nat.mod_lt, Nat.div_add_mod', List.getElem?_eq_getElem hi,
    List.getElem?_eq_getElem hi'] using hb

theorem distanceCompare_trans {t : Text} (hf : distanceCompare fr s tr = .lt)
    (hs : distanceCompare s t tr = .lt) : distanceCompare fr t tr = .lt := by
  rw [distanceCompare] at hf hs ⊢
  exact Std.TransCmp.lt_trans hf hs

/-- Of two different ids one is closer. -/
theorem distanceCompare_lt_or (hf : validId fr) (hs : validId s) (hn : fr ≠ s) :
    distanceCompare fr s tr = .lt ∨
      distanceCompare fr s tr = .gt ∧ distanceCompare s fr tr = .lt := by
  rw [distanceCompare, distanceCompare]
  cases hc : compare (distance fr tr) (distance s tr) with
  | lt => exact .inl rfl
  | eq =>
    have hsa := Std.LawfulEqCmp.eq_of_compare hc
    exact absurd (distance_inj hf hs hsa) hn
  | gt => exact .inr ⟨rfl, Std.OrientedCmp.gt_iff_lt.mp hc⟩

/-- A contact that is new finds its place. -/
theorem orderedInsert_before {os : List Observer} {new : Observer} (hn : validId new.contact.id)
    (hv : ∀ key ∈ os.map Observer.key, validId key.1)
    (ha : ∀ key ∈ os.map Observer.key, Apart key new.key)
    (hs : (os.map Observer.key).Pairwise (Before tr)) :
    ((os.orderedInsert (Nearer tr) new).map Observer.key).Pairwise (Before tr) := by
  induction os with
  | nil => simp
  | cons o r ih =>
    simp only [map_cons, forall_mem_cons, pairwise_cons] at hv ha hs
    rw [orderedInsert_cons]
    have hc : distanceCompare new.contact.id o.contact.id tr = .lt ∨ _ :=
      distanceCompare_lt_or hn hv.1 ha.1.1.symm
    rcases hc with hl | ⟨hg, hl⟩
    · rw [if_pos (by simp [Nearer, hl])]
      simp only [map_cons, pairwise_cons, forall_mem_cons]
      refine ⟨⟨⟨hl, ha.1.2.symm⟩, fun key hk => ?_⟩, hs⟩
      exact ⟨distanceCompare_trans hl (hs.1 key hk).1, (ha.2 key hk).2.symm⟩
    · rw [if_neg (not_not.mpr hg)]
      simp only [map_cons, pairwise_cons, forall_mem_map, mem_orderedInsert]
      refine ⟨?_, ih hv.2 ha.2 hs.2⟩
      rintro ot (rfl | ho)
      · exact ⟨hl, ha.1.2⟩
      · exact hs.1 _ (mem_map_of_mem ho)

/-- The observers that are dropped were not asked. -/
theorem dropFar_eq (os : List Observer) :
    ∃ g, os = g ++ dropFar os ∧ ∀ o ∈ g, o.queried = false := by
  induction os with
  | nil => exact ⟨[], rfl, by simp⟩
  | cons o r ih =>
    rw [dropFar]
    split_ifs with hf
    · obtain ⟨g, hr, hg⟩ := ih
      exact ⟨o :: g, congrArg _ hr, forall_mem_cons.mpr ⟨hf.2, hg⟩⟩
    · exact ⟨[], rfl, by simp⟩

section

variable {t : KadTraversal} {c : KadContact} {fn : Cursor Observer}

theorem find_eq_some (hf : t.find c = some fn) :
    fn.list = t.observers ∧ ¬ Apart fn.item.key c.triple := by
  obtain ⟨hl, hm, _⟩ := Cursor.find_eq_some hf
  refine ⟨hl, fun ha => ?_⟩
  simp only [sameContact, Bool.or_eq_true, decide_eq_true_eq] at hm
  rcases hm with (hi | hp) | hp
  · exact ha.1 hi.2
  all_goals exact ha.2 (Prod.ext hp.1 hp.2)

theorem find_eq_none (hv : ∀ key ∈ t.observers.map Observer.key, validId key.1)
    (hf : t.find c = none) : ∀ key ∈ t.observers.map Observer.key, Apart key c.triple := by
  rw [forall_mem_map] at hv ⊢
  intro o hme
  have hm := Cursor.find_eq_none.mp hf o hme
  simp only [sameContact, Bool.or_eq_false_iff, decide_eq_false_iff_not, not_or] at hm
  constructor
  · intro hi
    refine hm.1.1 ⟨fun hn => ?_, hi⟩
    have hl := of_decide_eq_true (hv o hme)
    rw [show o.key.1 = [] from hn] at hl
    cases hl
  · intro hp
    exact hm.2 ⟨congrArg Prod.fst hp, congrArg Prod.snd hp⟩

end

theorem Before.apart {first s : Key} (hb : Before target first s) : Apart first s := by
  refine ⟨fun hi => ?_, hb.2⟩
  have hl := hb.1
  have hs : distanceCompare s.1 s.1 target = .eq := Std.ReflCmp.compare_self
  rw [hi, hs] at hl
  cases hl

@[simp] theorem sent_append (fr s : List KadTraversalAction) :
    sent type (fr ++ s) = sent type fr ++ sent type s := by
  simp [sent]

@[simp] theorem sent_map (o : KadTraversalActionType) (cs : List KadContact) :
    sent type (cs.map (⟨o, ·⟩)) = if o = type then cs.map (·.triple) else [] := by
  split_ifs with ht <;> simp [sent, filter_map, Function.comp_def, ht]

theorem Lookup.perform_nil (l : Lookup) : l.perform (l.traversal, []) = l := by
  simp [Lookup.perform, sent]

/-- What is sent in two parts. -/
theorem Lookup.perform_perform (l : Lookup) (m nx : KadTraversal)
    (first s : List KadTraversalAction) :
    (l.perform (m, first)).perform (nx, s) = l.perform (nx, first ++ s) := by
  simp [Lookup.perform]

/-- An observer that answered and was not searched is searched. -/
def Observer.seek : Observer := { observer with searched := true }

def Observer.Seekable : Prop :=
  observer.alive = true ∧ observer.searched = false

/-- An observer that was not asked is asked. -/
def Observer.ask : Observer := { observer with queried := true }

def Observer.Askable : Prop :=
  observer.queried = false ∧ observer.alive = false ∧ observer.failed = false

theorem ask_marks (l t : Nat) (os : List Observer) : ∀ c i, Marks Observer.Askable Observer.ask os
      (ask l t c i os).2.1 ((ask l t c i os).2.2.map (·.triple)) := by
  induction os with
  | nil => exact fun _ _ => .stop []
  | cons o r ih =>
    intro c i
    rw [ask]
    split_ifs with hf hm ha hq
    · exact .skip o (ih c i)
    · exact .stop (o :: r)
    · exact .skip o (ih (c + 1) i)
    · exact .mark ⟨hq.1, by simpa using ha, by simpa using hf⟩ (ih (c + 1) (i + 1))
    · exact .skip o (ih (c + 1) i)

/-- The walk converges when the closest observers have all answered. -/
theorem ask_converged (l t : Nat) (os : List Observer) : ∀ c i, (ask l t c i os).1 = true →
      ∀ o ∈ ((ask l t c i os).2.1.filter (!·.failed)).take (t - c), o.alive = true := by
  induction os with
  | nil => simp [ask]
  | cons o r ih =>
    intro c i hc
    rw [ask] at hc ⊢
    split_ifs at hc ⊢ with hf hm ha hq
    · simpa [hf] using ih c i hc
    · simp [Nat.sub_eq_zero_of_le (Nat.lt_succ_iff.mp hm)]
    · obtain ⟨left, hl⟩ : ∃ left, t - c = left + 1 := ⟨t - (c + 1), by omega⟩
      have hr := ih (c + 1) i hc
      rw [Nat.sub_add_eq, hl] at hr
      simpa [hf, hl, ha] using hr

/-- Otherwise somebody is asked, or as many are as may be. -/
theorem ask_waits (l t : Nat) (os : List Observer) : ∀ c i, (ask l t c i os).1 = false →
      keys Observer.pending (ask l t c i os).2.1 ≠ [] ∨ l ≤ i := by
  induction os with
  | nil => simp [ask]
  | cons o r ih =>
    intro c i hw
    have hc (n : List Observer) (hn : keys Observer.pending n ≠ []) :
        keys Observer.pending (o :: n) ≠ [] := by
      simp only [keys, ne_eq, map_eq_nil_iff, filter_eq_nil_iff] at hn ⊢
      exact fun hno => hn fun ot ho => hno ot (.tail _ ho)
    rw [ask] at hw ⊢
    split_ifs at hw ⊢ with hf hm hal hq
    · exact (ih _ _ hw).imp_left (hc _)
    · exact (ih _ _ hw).imp_left (hc _)
    · left
      simp [keys, Observer.pending, hal, hf]
    · rcases Bool.eq_false_or_eq_true o.queried with ha | ha
      · left
        simp [keys, Observer.pending, hal, hf, ha]
      · exact .inr (Nat.le_of_not_lt fun hl => hq ⟨ha, hl⟩)

/-- After a number of searches. -/
def searching (count : Nat) : KadTraversal :=
  { traversal with
    searches := traversal.searches + count
    searchInFlight := traversal.searchInFlight + count }

theorem search_spec {o : Observer} (a : Bool) (ha : o.alive = true)
    (hl : t.searches ≤ t.maxSearches) : ∃ marked s, t.search o a =
        (t.searching s.length, marked, s) ∧
      t.searches + s.length ≤ t.maxSearches ∧ (s = [] ∧ marked = o ∨
        s = [o.contact] ∧ marked = o.seek ∧ o.Seekable) := by
  rw [search]
  split
  · exact ⟨o, [], rfl, hl, .inl ⟨rfl, rfl⟩⟩
  next ac _ =>
  split_ifs with hs
  · exact ⟨o, [], rfl, hl, .inl ⟨rfl, rfl⟩⟩
  · simp only [not_or, not_le] at hs
    exact ⟨_, [o.contact], rfl, hs.2.1, .inr ⟨rfl, rfl, ha, by simpa using hs.1⟩⟩

theorem searchClosest_spec (os : List Observer) :
    ∀ c (t : KadTraversal), t.searches ≤ t.maxSearches → ∃ marked searched, searchClosest c t os =
        (t.searching searched.length, marked, searched) ∧
      t.searches + searched.length ≤ t.maxSearches ∧
      Marks Observer.Seekable Observer.seek os marked (searched.map (·.triple)) := by
  induction os with
  | nil => exact fun _ _ hl => ⟨[], [], rfl, hl, .stop []⟩
  | cons o r ih =>
    intro c t hl
    rw [searchClosest]
    split_ifs with ha hc
    · obtain ⟨marked, searched, hse, hl', hm⟩ := search_spec true ha hl
      obtain ⟨n, more, hn, hl'', hr⟩ := ih (c + 1) (t.searching searched.length) hl'
      rw [hse]
      simp only [hn]
      refine ⟨marked :: n, searched ++ more, ?_, ?_, ?_⟩
      · simp [searching, Nat.add_assoc]
      · rw [length_append, ← Nat.add_assoc]
        exact hl''
      · rcases hm with ⟨rfl, rfl⟩ | ⟨rfl, rfl, hs⟩
        · exact .skip _ hr
        · exact .mark hs hr
    · obtain ⟨n, more, hn, hl', hr⟩ := ih (c + 1) t hl
      simp only [hn]
      exact ⟨_, _, rfl, hl', .skip o hr⟩
    · obtain ⟨n, more, hn, hl', hr⟩ := ih c t hl
      simp only [hn]
      exact ⟨_, _, rfl, hl', .skip o hr⟩

namespace Booked

variable {home he : KadTraversal} {l : Lookup} {c : KadContact} {p : Observer → Bool}

/-- Two observers of one contact are one. -/
theorem eq_of_not_apart (hb : Booked he l) {fr s : Observer} (hf : fr ∈ l.traversal.observers)
    (hs : s ∈ l.traversal.observers) (hsa : ¬ Apart fr.key s.key) : fr = s := by
  have hp : l.traversal.observers.Pairwise fun fr s =>
      Apart fr.key s.key :=
    (pairwise_map.mp hb.placed.sorted).imp Before.apart
  have hsy : Std.Symm fun fr s : Observer => Apart fr.key s.key := ⟨fun _ _ => .symm⟩
  by_contra hn
  exact hsa (hp.forall hf hs hn)

/-- The observer of a contact is found. -/
theorem found (hb : Booked home l) (hm : c.triple ∈ keys p l.traversal.observers) :
    ∃ found, l.traversal.find c = some found ∧
      found.list = l.traversal.observers ∧ p found.item = true ∧ found.item.key = c.triple := by
  obtain ⟨o, ho, hk⟩ := mem_map.mp hm
  obtain ⟨ho, hp⟩ := mem_filter.mp ho
  cases hf : l.traversal.find c with
  | none =>
    have ha := find_eq_none hb.placed.valid hf _ (mem_map_of_mem ho)
    exact absurd (congrArg Prod.fst hk) ha.1
  | some found =>
    obtain ⟨hl, hs⟩ := find_eq_some hf
    rw [← hk] at hs
    have hi : found.item ∈ l.traversal.observers := by simp [← hl, Cursor.list]
    rw [← hb.eq_of_not_apart hi ho hs] at hp hk
    exact ⟨found, rfl, hl, hp, hk⟩

variable {observers : List Observer} {cs : List KadContact}

theorem searched (hb : Booked he l)
    (hl : l.traversal.searches + cs.length ≤ l.traversal.maxSearches)
    (hm : Marks Observer.Seekable Observer.seek l.traversal.observers observers
      (cs.map (·.triple))) :
    Booked he (l.perform ({ l.traversal.searching cs.length with observers },
      cs.map (⟨.search, ·⟩))) where
  placed := hb.placed.of_keys rfl (hm.map_eq fun _ _ => rfl)
  flags := hm.all (fun _ hg hf => ⟨fun _ => hg.1, hf.2⟩) hb.flags
  asked := by
    simpa [Lookup.perform, hm.keep (·.queried) fun _ _ => rfl] using hb.asked
  sought := by
    have hga := hm.gain (p := (·.searched)) fun _ hg => ⟨rfl, hg.2, rfl⟩
    simpa [Lookup.perform] using (hb.sought.append_right _).trans hga.symm
  count := by simp [Lookup.perform, KadTraversal.searching, hb.count]
  limit := hl
  pending := by
    simpa [Lookup.perform, KadTraversal.searching, hm.keep Observer.pending fun _ _ => rfl]
      using hb.pending
  searching := by
    simp only [Lookup.perform, sent_append, sent_map, if_true]
    exact append_subset.mpr ⟨subset_append_of_subset_left _ hb.searching, subset_append_right _ _⟩
  inFlight := by simp [Lookup.perform, KadTraversal.searching, hb.inFlight]

theorem asks (hb : Booked he l)
    (hm : Marks Observer.Askable Observer.ask l.traversal.observers observers (cs.map (·.triple))) :
    Booked he (l.perform ({ l.traversal with
        observers
        queried := l.traversal.queried + cs.length
        inFlight := l.traversal.inFlight + cs.length }, cs.map (⟨.findNode, ·⟩))) where
  placed := hb.placed.of_keys rfl (hm.map_eq fun _ _ => rfl)
  flags := hm.all (fun _ _ hf => ⟨hf.1, fun ha => ⟨rfl, (hf.2 ha).2⟩⟩) hb.flags
  asked := by
    have hga := hm.gain (p := (·.queried)) fun _ hg => ⟨rfl, hg.1, rfl⟩
    simpa [Lookup.perform] using (hb.asked.append_right _).trans hga.symm
  sought := by
    simpa [Lookup.perform, hm.keep (·.searched) fun _ _ => rfl] using hb.sought
  count := by simp [Lookup.perform, hb.count]
  limit := hb.limit
  pending := fun hdo => by
    have hga := hm.gain (p := Observer.pending) fun o hg =>
      ⟨rfl, by simp [Observer.pending, hg.1], by simp [Observer.pending, Observer.ask, hg.2]⟩
    obtain ⟨hp, hfl⟩ := hb.pending hdo
    constructor
    · simpa [Lookup.perform] using (hp.append_right _).trans hga.symm
    · simp [Lookup.perform, hfl]
  searching := by simpa [Lookup.perform] using hb.searching
  inFlight := by simp [Lookup.perform, hb.inFlight]

/-- A request is answered or fails. -/
theorem closes (hb : Booked home l) (hdo : l.traversal.done = false)
    (hme : c.triple ∈ l.finds) {f : Observer → Observer} {answers : List Key}
    (hf : ∀ o, ((f o).key, (f o).queried, (f o).searched) =
      (o.key, o.queried, o.searched) ∧ (f o).pending = false)
    (hfla : (∀ o, (f o).alive = o.alive) ∨ c.triple ∈ answers) (han : l.answers ⊆ answers) :
    ∃ g, l.traversal.find c = some g ∧ g.item.pending = true ∧ ∀ answered, Booked home { l with
        traversal := { l.traversal with
          observers := g.set (f g.item)
          inFlight := l.traversal.inFlight - 1
          answered }
        finds := l.finds.erase c.triple
        answers } := by
  obtain ⟨hpe, hfl⟩ := hb.pending hdo
  obtain ⟨g, hfi, hli, hi, hk⟩ := hb.found (hpe.mem_iff.mp hme)
  have hm : Marks (fun o => o.pending = true ∧ o.key = c.triple) f
      g.list _ _ := .of_cursor g ⟨hi, hk⟩
  rw [hli] at hm
  have hke {p : Observer → Bool} (hp : ∀ o, p (f o) = p o) :
      keys p (g.set (f g.item)) = keys p l.traversal.observers :=
    hm.keep p fun o _ => by rw [hp, (Prod.mk.inj (hf o).1).1]
  have he := perm_cons_erase hme
  refine ⟨g, hfi, hi, fun answered => ?_⟩
  constructor
  case placed =>
    exact hb.placed.of_keys rfl (hm.map_eq fun o _ => (Prod.mk.inj (hf o).1).1)
  case flags =>
    refine hm.all (fun o hg hold => ?_) fun o ho =>
      ⟨(hb.flags o ho).1, fun ha =>
        ⟨((hb.flags o ho).2 ha).1, han ((hb.flags o ho).2 ha).2⟩⟩
    obtain ⟨⟨hpe, hk⟩, hs⟩ := hg, (hf o).1
    simp only [Observer.pending, Bool.and_eq_true, Bool.not_eq_true'] at hpe
    simp only [Prod.mk.injEq] at hs
    rw [hs.1, hs.2.1, hs.2.2, hk]
    refine ⟨fun hse => ?_, fun ha => ⟨hpe.1.1, ?_⟩⟩
    · exact absurd (hold.1 hse) (by simp [hpe.1.2])
    · refine hfla.resolve_left fun hs => ?_
      rw [hs, hpe.1.2] at ha
      cases ha
  case asked =>
    rw [hke fun o => (Prod.mk.inj (Prod.mk.inj (hf o).1).2).1]
    exact hb.asked
  case sought =>
    rw [hke fun o => (Prod.mk.inj (Prod.mk.inj (hf o).1).2).2]
    exact hb.sought
  case pending =>
    intro _
    have hl := hm.lose fun o hg => ⟨hg.1, (hf o).2⟩
    rw [hk] at hl
    constructor
    · exact (he.symm.trans (hpe.trans (hl.trans (perm_append_singleton _ _)))).cons_inv
    · simp [hfl, length_erase_of_mem hme]
  case count => exact hb.count
  case limit => exact hb.limit
  case searching => exact hb.searching
  case inFlight => exact hb.inFlight

/-- A search is answered or fails. -/
theorem finishes (hb : Booked home l) (hme : c.triple ∈ l.searches) (failed : Bool) :
    Booked home { l with
      traversal := l.traversal.finishSearch c failed
      searches := l.searches.erase c.triple } := by
  obtain ⟨g, hf, hl, hi, -⟩ := hb.found (hb.sought.mem_iff.mp (hb.searching hme))
  have ha : g.item.alive = true := (hb.flags g.item (by simp [← hl, Cursor.list])).1 hi
  obtain ⟨os, new, ho, hm⟩ : ∃ os new, (l.traversal.finishSearch c failed).observers = os ∧
      Marks (·.alive = true) (fun o => { o with failed := true }) l.traversal.observers os new := by
    rw [finishSearch, hf, ← hl]
    cases failed with
    | true => exact ⟨_, _, rfl, .of_cursor g ha⟩
    | false => exact ⟨_, _, rfl, .stop _⟩
  have hle := length_erase_of_mem hme
  constructor
  case placed =>
    refine hb.placed.of_keys rfl ?_
    rw [ho]
    exact hm.map_eq fun _ _ => rfl
  case flags =>
    rw [ho]
    exact hm.all (fun _ _ => id) hb.flags
  case asked =>
    rw [ho, hm.keep _ fun _ _ => rfl]
    exact hb.asked
  case sought =>
    rw [ho, hm.keep _ fun _ _ => rfl]
    exact hb.sought
  case count => exact hb.count
  case limit => exact hb.limit
  case pending =>
    intro hdo
    rw [ho, hm.keep Observer.pending fun o ha => by
      simp [Observer.pending, ha, Observer.key]]
    exact hb.pending (Bool.or_eq_false_iff.mp hdo).1
  case searching => exact fun _ hk => hb.searching (mem_of_mem_erase hk)
  case inFlight =>
    rw [hle, ← hb.inFlight]
    rfl

theorem filter_orderedInsert {tr : Text} {new : Observer} (hn : p new = false)
    (os : List Observer) : (os.orderedInsert (Nearer tr) new).filter p = os.filter p := by
  induction os with
  | nil => simp [hn]
  | cons o r ih =>
    rw [orderedInsert_cons]
    split_ifs
    · rw [filter_cons_of_neg (by simp [hn])]
    · rw [filter_cons, ih, ← filter_cons]

/-- A contact that is new is inserted, and observers that were not asked may
be dropped. -/
theorem inserts {contact : KadContact} (hb : Booked he l) (hv : validId contact.id)
    (ha : ∀ key ∈ l.traversal.observers.map Observer.key, Apart key contact.triple)
    {g : List Observer} (hi : l.traversal.observers.orderedInsert
      (Nearer l.traversal.targetId) { contact } = observers ++ g)
    (hg : ∀ o ∈ g, o.queried = false) :
    Booked he { l with traversal := { l.traversal with observers } } := by
  have hs := @orderedInsert_before _ _ { contact } hv hb.placed.valid ha hb.placed.sorted
  have hm (o : Observer) (ho : o ∈ observers ++ g) :
      o = { contact } ∨ o ∈ l.traversal.observers := by
    rw [← hi] at ho
    exact (mem_orderedInsert _).mp ho
  have hk (p : Observer → Bool) (hp : p { contact } = false)
      (hq : ∀ o ∈ l.traversal.observers, p o = true →
        o.queried = true) : keys p observers = keys p l.traversal.observers := by
    have hn : g.filter p = [] := by
      rw [filter_eq_nil_iff]
      intro o ho hpo
      have hf := hg o ho
      rcases hm o (mem_append_right _ ho) with rfl | hold
      · exact absurd hpo (by simp [hp])
      · exact absurd (hq o hold hpo) (by simp [hf])
    rw [keys, ← append_nil (observers.filter p), ← hn, ← filter_append,
      ← hi, filter_orderedInsert hp, keys]
  have hold (o : Observer) (ho : o ∈ observers) := hm o (mem_append_left _ ho)
  rw [hi] at hs
  exact { hb with
    placed := {
      settings_eq := hb.placed.settings_eq
      branch := hb.placed.branch
      sorted := hs.sublist ((sublist_append_left _ _).map _)
      valid := by
        rw [forall_mem_map]
        intro o ho
        rcases hold o ho with rfl | ho
        · exact hv
        · exact hb.placed.valid _ (mem_map_of_mem ho) }
    flags := by
      intro o ho
      rcases hold o ho with rfl | ho
      · simp
      · exact hb.flags o ho
    asked := hk (·.queried) rfl (fun _ _ => id) ▸ hb.asked
    sought := hk (·.searched) rfl (fun o ho hse =>
      ((hb.flags o ho).2 ((hb.flags o ho).1 hse)).1) ▸ hb.sought
    pending := hk Observer.pending rfl (fun _ _ hpe => by
      simp only [Observer.pending, Bool.and_eq_true] at hpe
      exact hpe.1.1) ▸ hb.pending }

theorem adds (hb : Booked he l) (contact : KadContact) :
    Booked he { l with traversal := l.traversal.addContact contact } := by
  rw [addContact]
  split_ifs with hi
  · exact hb
  simp only [not_or, not_not] at hi
  split
  · next fn hf =>
    have hm : Marks (fun _ => True) (fun o => { o with contact := learn o.contact contact })
        fn.list _ _ := .of_cursor fn trivial
    rw [(find_eq_some hf).1] at hm
    exact { hb with
      placed := hb.placed.of_keys rfl (hm.map_eq fun _ _ => rfl)
      flags := hm.all (fun _ _ => id) hb.flags
      asked := (hm.keep (·.queried) fun _ _ => rfl) ▸ hb.asked
      sought := (hm.keep (·.searched) fun _ _ => rfl) ▸ hb.sought
      pending := (hm.keep Observer.pending fun _ _ => rfl) ▸ hb.pending }
  · next hf =>
    obtain ⟨g, hg, hu⟩ := dropFar_eq (l.traversal.observers.orderedInsert
      (Nearer l.traversal.targetId) { contact }).reverse
    refine hb.inserts hi.1 (find_eq_none hb.placed.valid hf) ?_ fun o ho => hu o (mem_reverse.mp ho)
    rw [← reverse_append, ← hg, reverse_reverse]

theorem foldl_adds (hb : Booked home l) (cs : List KadContact) :
    Booked home { l with traversal := cs.foldl addContact l.traversal } := by
  induction cs generalizing l with
  | nil => exact hb
  | cons c r ih => exact ih (hb.adds c)

/-- The next requests: afterwards the lookup waits for something, or is done. -/
theorem next (hb : Booked he l)
    (hw : l.traversal.done = false → l.traversal.converged = true → l.searches ≠ []) :
    Booked he (l.perform l.traversal.nextActions) ∧ Waits (l.perform l.traversal.nextActions) := by
  have hm := ask_marks (l.traversal.branchFactor + l.traversal.extra)
    l.traversal.targetNodes l.traversal.observers 0 l.traversal.inFlight
  have hp := ask_waits (l.traversal.branchFactor + l.traversal.extra)
    l.traversal.targetNodes l.traversal.observers 0 l.traversal.inFlight
  rw [nextActions]
  split_ifs with ho
  · rw [Lookup.perform_nil]
    refine ⟨hb, fun hdo => ?_⟩
    have hc := ho.resolve_left (by simp [hdo])
    rw [if_pos hc]
    exact hw hdo hc
  simp only [not_or, Bool.not_eq_true] at ho
  generalize ask (l.traversal.branchFactor + l.traversal.extra)
    l.traversal.targetNodes 0 l.traversal.inFlight l.traversal.observers = asked
    at hm hp
  obtain ⟨converged, observers, cs⟩ := asked
  have ha := hb.asks hm
  dsimp only at ha hm hp ⊢
  cases converged with
  | false =>
    rw [if_pos rfl]
    refine ⟨ha, fun hdo => ?_⟩
    obtain ⟨hfi, hf⟩ := ha.pending hdo
    rw [if_neg (by simp [Lookup.perform, ho.2])]
    intro hn
    rw [hn] at hfi hf
    rcases hp rfl with hs | hfu
    · exact hs hfi.nil_eq.symm
    · have hbr := hb.placed.branch
      simp only [Lookup.perform, length_nil] at hf
      omega
  | true =>
    obtain ⟨m, searched, hse, hl, hsee⟩ := searchClosest_spec observers 0 { l.traversal with
        observers
        queried := l.traversal.queried + cs.length
        inFlight := l.traversal.inFlight + cs.length
        converged := true } hb.limit
    have hdo := ha.searched hl hsee
    rw [Lookup.perform_perform] at hdo
    simp only [Bool.true_eq_false, if_false, hse]
    refine ⟨{ hdo with
      placed := hdo.placed.of_keys rfl rfl
      pending := fun ho => hdo.pending (Bool.or_eq_false_iff.mp ho).1 }, fun ho => ?_⟩
    have hs := (Bool.or_eq_false_iff.mp ho).2
    have hf := hdo.inFlight
    intro hn
    exact of_decide_eq_false hs (hf.trans (congrArg List.length hn))

end Booked

/-- Whether the walk is over, and whether it has converged. -/
def ends : Bool × Bool := (traversal.done, traversal.converged)

theorem ends_addContact (t : KadTraversal) (c : KadContact) : (t.addContact c).ends = t.ends := by
  rw [addContact]
  split_ifs
  · rfl
  · split <;> rfl

theorem ends_foldl (cs : List KadContact) (t : KadTraversal) :
    (cs.foldl addContact t).ends = t.ends := by
  induction cs generalizing t with
  | nil => rfl
  | cons c r ih => exact (ih _).trans (ends_addContact t c)

theorem ends_search (t : KadTraversal) (o : Observer) (a : Bool) :
    (t.search o a).1.ends = t.ends := by
  rw [search]
  split
  · rfl
  · split_ifs <;> rfl

theorem ends_answer (t : KadTraversal) (c : KadContact) : (t.answer c).1.ends = t.ends := by
  rw [answer]
  split
  · rfl
  split_ifs
  · exact ends_search _ _ _
  · rfl

theorem fail_marks (t : KadTraversal) (c : KadContact) :
    ∃ observers inFlight new, t.fail c = { t with observers, inFlight } ∧
      Marks (fun _ => True) (fun o => { o with failed := true }) t.observers observers new := by
  rw [fail]
  split
  · exact ⟨_, _, _, rfl, .stop _⟩
  next fn hf =>
  split_ifs
  · refine ⟨_, _, [fn.item.key], rfl, ?_⟩
    rw [← (find_eq_some hf).1]
    exact .of_cursor fn trivial
  · exact ⟨_, _, _, rfl, .stop _⟩

/-- When the walk converges the closest observers have answered. -/
theorem nextActions_converged (hb : t.converged = false) (hl : t.searches ≤ t.maxSearches)
    (ha : t.nextActions.1.converged = true) : ∀ o ∈ t.nextActions.1.closest, o.alive = true := by
  have hal := ask_converged (t.branchFactor + t.extra) t.targetNodes t.observers 0 t.inFlight
  rw [nextActions] at ha ⊢
  split_ifs at ha ⊢ with ho
  · simp [hb] at ha
  generalize ask (t.branchFactor + t.extra) t.targetNodes 0 t.inFlight t.observers = asked at hal ha
  obtain ⟨converged, observers, cs⟩ := asked
  cases converged with
  | false => simp [hb] at ha
  | true =>
    obtain ⟨m, searched, hs, -, hse⟩ := searchClosest_spec observers 0
      { t with
        observers
        queried := t.queried + cs.length
        inFlight := t.inFlight + cs.length
        converged := true } hl
    simp only [Bool.true_eq_false, if_false, hs]
    exact hse.alive (fun _ _ => rfl) (hal rfl)

namespace Booked

variable {home he : KadTraversal} {l : Lookup} {c : KadContact}

/-- Whatever comes after the end of the lookup. -/
theorem past (hb : Booked he l) (hdo : l.traversal.done = true) {inFlight : Nat}
    {g : Observer → Prop} {observers : List Observer} {new finds answers : List Key}
    (hm : Marks g (fun o => { o with failed := true }) l.traversal.observers observers new)
    (han : l.answers ⊆ answers) : Booked he { l with
      traversal := { l.traversal with observers, inFlight }, finds, answers } where
  placed := hb.placed.of_keys rfl (hm.map_eq fun _ _ => rfl)
  flags := by
    refine hm.all (fun _ _ => id) fun o ho => ?_
    obtain ⟨hs, ha⟩ := hb.flags o ho
    exact ⟨hs, fun h => ⟨(ha h).1, han (ha h).2⟩⟩
  asked := (hm.keep (·.queried) fun _ _ => rfl) ▸ hb.asked
  sought := (hm.keep (·.searched) fun _ _ => rfl) ▸ hb.sought
  count := hb.count
  limit := hb.limit
  pending := fun hop => by
    rw [hdo] at hop
    cases hop
  searching := hb.searching
  inFlight := hb.inFlight

/-- The contact that answers may be searched. -/
theorem answers (hb : Booked home l) (hdo : l.traversal.done = false) (hme : c.triple ∈ l.finds) :
    Booked home ({ l with
      finds := l.finds.erase c.triple
      answers := l.answers ++ [c.triple] }.perform ((l.traversal.answer c).1,
        (l.traversal.answer c).2.map (⟨.search, ·⟩))) := by
  have ha : c.triple ∈ l.answers ++ [c.triple] := by simp
  obtain ⟨g, hf, hi, hc⟩ := hb.closes hdo hme
    (f := fun o => { o with alive := true, failed := false })
    (fun o => ⟨rfl, by simp [Observer.pending]⟩) (.inr ha) (subset_append_left _ _)
  simp only [Observer.pending, Bool.and_eq_true, Bool.not_eq_true'] at hi
  obtain ⟨marked, searched, hse, hl, hm⟩ := @search_spec { l.traversal with
      answered := l.traversal.answered + 1
      inFlight := l.traversal.inFlight - 1 }
    { g.item with alive := true, failed := false } false rfl hb.limit
  have hr : l.traversal.answer c = ({ (KadTraversal.searching { l.traversal with
          answered := l.traversal.answered + 1
          inFlight := l.traversal.inFlight - 1 } searched.length) with
        observers := g.set marked }, searched) := by
    rw [answer, hf]
    dsimp only
    rw [if_pos hi.1]
    exact congrArg (fun result => ({ result.1 with observers := g.set result.2.1 }, result.2.2)) hse
  rw [hr]
  refine @Booked.searched _ _ (g.set marked) searched (hc (l.traversal.answered + 1)) hl ?_
  rcases hm with ⟨rfl, rfl⟩ | ⟨rfl, rfl, hs⟩
  · exact .stop _
  · exact @Marks.of_cursor _ _ { g with item := { g.item with alive := true, failed := false } } hs

end Booked

/-- Observers with a property are different contacts. -/
theorem Placed.apart (hp : Placed he t) (p : Observer → Bool) :
    (keys p t.observers).Pairwise Apart :=
  (hp.sorted.imp Before.apart).sublist (filter_sublist.map _)

theorem Booked.answered (hb : Booked home l) {n : Nat}
    (ha : ∀ o ∈ (l.traversal.observers.filter (!·.failed)).take n, o.alive = true) :
    ∀ o ∈ (l.traversal.observers.filter (!·.failed)).take n, o.key ∈ l.answers := by
  intro o ho
  have hm := mem_of_mem_filter (mem_of_mem_take ho)
  exact ((hb.flags o hm).2 (ha o ho)).2

theorem step_sound (l : Lookup) (e : Lookup.Event) (hso : Booked home l ∧ Waits l) (hdu : l.Due e) :
    Booked home (l.step e) ∧ Waits (l.step e) := by
  obtain ⟨hb, hw⟩ := hso
  have hs (hdo : l.traversal.done = false)
      (hc : l.traversal.converged = true) : l.searches ≠ [] := by
    simpa [hc] using hw hdo
  have hfi (c : KadContact) (failed : Bool) (hme : c.triple ∈ l.searches) : Booked home { l with
        traversal := l.traversal.finishSearch c failed
        searches := l.searches.erase c.triple } ∧ Waits { l with
        traversal := l.traversal.finishSearch c failed
        searches := l.searches.erase c.triple } := by
    have hf := hb.finishes hme failed
    refine ⟨hf, fun hdo => ?_⟩
    obtain ⟨ho, hl⟩ := Bool.or_eq_false_iff.mp hdo
    have hfl := hf.inFlight
    have hbe := hw ho
    change if l.traversal.converged then l.searches.erase c.triple ≠ []
      else l.finds ≠ []
    split_ifs at hbe ⊢ with hc
    · intro hn
      rw [hn] at hfl
      rw [hc] at hl
      exact of_decide_eq_false hl hfl
    · exact hbe
  cases e with
  | response c closer =>
    rw [Lookup.step, onResponse]
    split_ifs with hdo
    · rw [Lookup.perform_nil { l with finds := _, answers := _ }]
      refine ⟨?_, fun ho => absurd hdo (by simpa using ho)⟩
      exact hb.past hdo (.stop _ : Marks (fun _ => False) _ _ _ _) (subset_append_left l.answers _)
    · have ha := (hb.answers (by simpa using hdo) hdu).foldl_adds closer
      have he : (closer.foldl addContact (l.traversal.answer c).1).ends =
          l.traversal.ends := (ends_foldl closer _).trans (ends_answer _ c)
      rw [Prod.mk.injEq] at he
      rw [← Lookup.perform_perform _ (l.traversal.answer c).1]
      refine ha.next fun ho hc => append_ne_nil_of_left_ne_nil ?_ _
      exact hs (he.1.symm.trans ho) (he.2.symm.trans hc)
  | failure c =>
    rw [Lookup.step, onFailure]
    by_cases hdo : l.traversal.done = true
    · obtain ⟨os, inFlight, new, hfa, hm⟩ := fail_marks l.traversal c
      rw [hfa, nextActions, if_pos (.inl hdo)]
      refine ⟨?_, fun ho => absurd hdo (by simpa [Lookup.perform] using ho)⟩
      simpa [Lookup.perform, sent] using hb.past hdo hm (List.Subset.refl _)
    · rw [Bool.not_eq_true] at hdo
      obtain ⟨found, hfin, hi, hcl⟩ := hb.closes hdo hdu
        (f := fun o => { o with failed := true })
        (fun o => ⟨rfl, by simp [Observer.pending]⟩) (.inl fun _ => rfl) (List.Subset.refl _)
      simp only [Observer.pending, Bool.and_eq_true, Bool.not_eq_true'] at hi
      rw [fail, hfin]
      dsimp only
      rw [if_pos ⟨hi.2, hi.1.2⟩]
      exact (hcl l.traversal.answered).next hs
  | searchResponse c => exact hfi c false hdu
  | searchFailure c => exact hfi c true hdu
  | stalled =>
    rw [Lookup.step, stalled]
    split_ifs
    · have hext : Booked home { l with traversal := { l.traversal with
          extra := l.traversal.extra + 1 } } := { hb with placed := hb.placed.of_keys rfl rfl }
      exact hext.next hs
    · exact hb.next hs

/-- When a lookup converges the closest observers have answered. -/
theorem step_converged (hbo : Booked home l) {e : Lookup.Event} (hdu : l.Due e)
    (hb : l.traversal.converged = false) (ha : (l.step e).traversal.converged = true) :
    ∀ o ∈ (l.step e).traversal.closest, o.alive = true := by
  cases e with
  | response c cl =>
    rw [Lookup.step, onResponse] at ha ⊢
    split_ifs at ha ⊢ with hdo
    · exact absurd ha (by simp [Lookup.perform, hb])
    · have hl := ((hbo.answers (by simpa using hdo) hdu).foldl_adds cl).limit
      have he : (cl.foldl addContact (l.traversal.answer c).1).ends =
          l.traversal.ends := (ends_foldl cl _).trans (ends_answer _ c)
      exact nextActions_converged ((Prod.mk.inj he).2.trans hb) hl ha
  | failure c =>
    obtain ⟨os, inFlight, new, hf, -⟩ := fail_marks l.traversal c
    rw [Lookup.step, onFailure, hf] at ha ⊢
    exact nextActions_converged hb hbo.limit ha
  | searchResponse | searchFailure => exact absurd (hb.symm.trans ha) (by decide)
  | stalled =>
    rw [Lookup.step, stalled] at ha ⊢
    split_ifs at ha ⊢ <;> exact nextActions_converged hb hbo.limit ha

theorem create_booked {t : Text} {s : Option (KadContact → Bool)} {m b tn : Nat}
    {traversal : KadTraversal} (hc : create t s m b tn = .ok traversal) :
    Booked traversal { traversal } ∧ traversal.targetId = t ∧ traversal.maxSearches = m := by
  rw [create] at hc
  by_cases hv : validId t = true
  · rw [if_pos hv] at hc
    cases hc
    refine ⟨⟨⟨rfl, ?_, .nil, by simp⟩, by simp, .nil, .nil, rfl, Nat.zero_le _,
      fun _ => ⟨.nil, rfl⟩, nil_subset _, rfl⟩, rfl, rfl⟩
    dsimp only
    split_ifs with hz
    · decide
    · exact Nat.pos_of_ne_zero hz
  · rw [if_neg hv] at hc
    cases hc

/-- In every lookup no contact is asked twice or searched twice, only contacts
that answered are searched, and not too many; the observers stand in order, a
lookup that is not done waits for something, and when it converges the closest
observers that have not failed have answered. -/
theorem run_lookup_waits {targetId : Text} {searchable : Option (KadContact → Bool)}
    {maxSearches branchFactor targetNodes : Nat} {traversal : KadTraversal}
    (hcreate : create targetId searchable maxSearches branchFactor targetNodes = .ok traversal)
    (seeds : List KadContact) (events : List Lookup.Event)
    (hmeets : Runs.Meets Lookup.step Lookup.Due (Lookup.begin traversal seeds) events) :
    let first := Lookup.begin traversal seeds
    let last := Runs.run Lookup.step first events
    (sent .findNode last.issued).Pairwise Apart ∧ (sent .search last.issued).Pairwise Apart ∧
    sent .search last.issued ⊆ last.answers ∧
    (sent .search last.issued).length ≤ maxSearches ∧
    last.traversal.observers.Pairwise (fun closer farther =>
      distanceCompare closer.contact.id farther.contact.id targetId = .lt ∧
        Apart closer.key farther.key) ∧
    (last.traversal.done = false → last.finds ≠ [] ∨ last.searches ≠ []) ∧
    (first.traversal.converged = true → ∀ observer ∈ first.traversal.closest,
      observer.key ∈ first.answers) ∧
    ∀ event, last.Due event → last.traversal.converged = false →
      (last.step event).traversal.converged = true →
      ∀ observer ∈ (last.step event).traversal.closest,
        observer.key ∈ (last.step event).answers := by
  intro first last
  obtain ⟨hnew, htarget, hmost⟩ := create_booked hcreate
  have hseeded := hnew.foldl_adds seeds
  have hends := (Prod.mk.inj (ends_foldl seeds traversal)).2
  have hopen : traversal.converged = false := by
    rw [create] at hcreate
    split_ifs at hcreate <;> cases hcreate <;> rfl
  have hfirst : Booked traversal first ∧ Waits first :=
    hseeded.next fun _ hconverged => absurd (hends.symm.trans hconverged) (by simp [hopen])
  obtain ⟨hbooked, hwaits⟩ : Booked traversal last ∧ Waits last :=
    Runs.run_invariant step_sound hfirst hmeets
  have hsettings := hbooked.placed.settings_eq
  simp only [settings, Prod.mk.injEq] at hsettings
  refine ⟨?_, ?_, fun key hkey => ?_, ?_, ?_, fun hdone => ?_, fun hconverged => ?_,
    fun event hdue hbefore hafter => ?_⟩
  · exact (hbooked.asked.pairwise_iff Apart.symm).mpr (hbooked.placed.apart _)
  · exact (hbooked.sought.pairwise_iff Apart.symm).mpr (hbooked.placed.apart _)
  · obtain ⟨observer, hobserver, rfl⟩ := mem_map.mp (hbooked.sought.mem_iff.mp hkey)
    obtain ⟨hmem, hsearched⟩ := mem_filter.mp hobserver
    obtain ⟨halive, hanswer⟩ := hbooked.flags observer hmem
    exact (hanswer (halive hsearched)).2
  · rw [← hbooked.count, ← hmost, ← hsettings.2.1]
    exact hbooked.limit
  · rw [← htarget, ← hsettings.1]
    exact (pairwise_map.mp hbooked.placed.sorted).imp fun hbefore =>
      ⟨hbefore.1, hbefore.apart⟩
  · have hsome := hwaits hdone
    split_ifs at hsome
    · exact .inr hsome
    · exact .inl hsome
  · exact hfirst.1.answered (nextActions_converged (hends.trans hopen) hseeded.limit hconverged)
  · exact (step_sound last event ⟨hbooked, hwaits⟩ hdue).1.answered
      (step_converged hbooked hdue hbefore hafter)

/-- A contact whose first bytes are given. -/
def near (byte : UInt8) : KadContact where
  id := byte :: List.replicate 15 0
  host := [byte]
  udpPort := 4672

/-- Two contacts are asked; one answers with a closer one, the other fails. -/
theorem run_lookup_waits_closer :
    ∃ traversal, create (List.replicate 16 0) (some fun _ => true) 2 0 0 = .ok traversal ∧
      let last := Runs.run Lookup.step (Lookup.begin traversal [near 8, near 9])
        [.response (near 8) [near 1], .failure (near 9), .searchResponse (near 8)]
      last.traversal.done = false ∧ last.finds = [(near 1).triple] ∧
        (last.finds ≠ [] ∨ last.searches ≠ []) := by
  have hcreate : create (List.replicate 16 0) (some fun _ => true) 2 0 0 = .ok _ := rfl
  refine ⟨_, hcreate, by decide +kernel, by decide +kernel, ?_⟩
  exact (run_lookup_waits hcreate [near 8, near 9] _ (by decide +kernel)).2.2.2.2.2.1
    (by decide +kernel)

end KadTraversal

end Aria2Next
