/-
`ed2k/UploadQueue`: the upload slots and the clients that wait for one.

Granting a slot calls back into the client, and a client that cannot take the
slot removes itself from the queue, which grants again before the first loop
goes on.  The clients are a world of their own that the queue changes by
`grantSlot` and `revokeSlot` only; between the calls of the queue it may change
in any way.

Scores are arbitrary: a comparison is any function of two waiting clients.
Each round of granting has one waiting client less than the one before, so the
number of waiting clients names the round.
-/
import Mathlib.Data.List.Perm.Basic
import Mathlib.Data.List.Nodup

namespace Aria2Next

open List

universe u v

/-- A client that waits; times are seconds. -/
structure Waiting (C : Type u) where
  client : C
  since : Int
  lastAsked : Int
deriving DecidableEq, Repr

/-- A client with a slot. -/
structure Active (C : Type u) where
  client : C
  since : Int
deriving DecidableEq, Repr

structure UploadQueue (C : Type u) (W : Type v) where
  slots : Int := 3
  waiting : List (Waiting C) := []
  active : List (Active C) := []
  /-- The clients themselves. -/
  world : W
deriving DecidableEq, Repr

namespace UploadQueue

variable {C : Type u} {W : Type v}

/-- What the queue asks of the clients.  `grantSlot` also tells whether the
client gives the slot back at its end, with `remove`. -/
structure Clients (C : Type u) (W : Type v) where
  grantSlot : W → C → W × Bool
  revokeSlot : W → C → W
  /-- The upload state is `Uploading`. -/
  uploading : W → C → Bool
  sessionUploaded : W → C → Nat
  connected : W → C → Bool

/-- The clock and the scores in the round with that many waiting clients. -/
structure Rounds (C : Type u) where
  now : Nat → Int := fun _ => 0
  /-- The score of the first is below that of the second. -/
  less : Nat → Waiting C → Waiting C → Bool := fun _ _ _ => false
  /-- As `less`, when `rank` compares. -/
  behind : Waiting C → Waiting C → Bool := fun _ _ => false

def maxWaiting : Nat := 5000

/-- A waiting client that did not ask again for this long has given up. -/
def purgeAfter : Int := 3600

/-- A slot is passed on after about one part. -/
def sessionBytes : Nat := 9728000 + 20480

def sessionTime : Int := 3600

/-- `std::max_element`, with the place of the element. -/
def maxElement {A : Type*} (less : A → A → Bool) : List A → Option (A × Nat)
  | [] => none
  | first :: rest =>
    some ((rest.zipIdx 1).foldl (fun best entry =>
      if less best.1 entry.1 then entry else best) (first, 0))

/-- The client moves from its place in `waiting_` to `active_`. -/
def promote (queue : UploadQueue C W) (entry : Waiting C × Nat) (now : Int) : UploadQueue C W :=
  { queue with
    waiting := queue.waiting.eraseIdx entry.2
    active := queue.active ++ [⟨entry.1.client, now⟩] }

variable [DecidableEq C]

variable (clients cs : Clients C W) (rounds : Rounds C)

/-- The part of `remove` before it grants; the flag tells whether a slot was
freed. -/
def withdraw (queue : UploadQueue C W) (client : C) : UploadQueue C W × Bool :=
  let active := queue.active.filter (·.client ≠ client)
  let freed := active.length ≠ queue.active.length
  ({ queue with
      waiting := queue.waiting.filter (·.client ≠ client)
      active
      world := if freed then clients.revokeSlot queue.world client
        else queue.world }, freed)

/-- The loop of `grant`, with a bound on its rounds and on the calls inside
each other. -/
def grant (clients : Clients C W) (rounds : Rounds C) :
    Nat → UploadQueue C W → Option (UploadQueue C W)
  | 0, _ => none
  | fuel + 1, queue =>
    if (queue.active.length : Int) < queue.slots then
      match maxElement (rounds.less queue.waiting.length) queue.waiting with
      | none => some queue
      | some entry =>
        let granted := queue.promote entry
          (rounds.now queue.waiting.length)
        let answer := clients.grantSlot granted.world entry.1.client
        let granted := { granted with world := answer.1 }
        if answer.2 then
          -- `grantSlot` calls `remove`, which grants before it returns
          let left := granted.withdraw clients entry.1.client
          if left.2 then
            (grant clients rounds fuel left.1).bind (grant clients rounds fuel)
          else grant clients rounds fuel left.1
        else grant clients rounds fuel granted
    else some queue

/-- `grant` with a bound that suffices. -/
def grantAll (queue : UploadQueue C W) : Option (UploadQueue C W) :=
  grant clients rounds (queue.waiting.length + 1) queue

/-- Why `request` returned. -/
inductive Answer where
  /-- The client has a slot already. -/
  | active
  /-- The queue is full. -/
  | full
  /-- The client waits or was granted a slot. -/
  | asked
deriving DecidableEq, Repr

/-- The client asks, now or again. -/
def enqueue (queue : UploadQueue C W) (client : C) (now : Int) : Answer × UploadQueue C W :=
  if queue.active.any (·.client = client) then (.active, queue)
  else if queue.waiting.any (·.client = client) then
    (.asked, { queue with
      waiting := queue.waiting.map fun waiting =>
        if waiting.client = client then { waiting with lastAsked := now }
        else waiting })
  else if queue.waiting.length ≥ maxWaiting then (.full, queue)
  else (.asked, { queue with
    waiting := queue.waiting ++ [⟨client, now, now⟩] })

/-- 0 for a client that does not wait. -/
def rank (queue : UploadQueue C W) (client : C) (behind : Waiting C → Waiting C → Bool) : Nat :=
  match queue.waiting.find? (·.client = client) with
  | none => 0
  | some mine => min (queue.waiting.countP (behind mine) + 1) 0xffff

/-- The queue afterwards with the rank: 0 when the client got a slot. -/
def request (queue : UploadQueue C W) (client : C) (now : Int) : Option (Nat × UploadQueue C W) :=
  match queue.enqueue client now with
  | (.active, queue) => some (0, queue)
  | (.full, queue) => some (min queue.waiting.length 0xffff, queue)
  | (.asked, queue) => (queue.grantAll clients rounds).map fun queue =>
    (queue.rank client rounds.behind, queue)

def remove (queue : UploadQueue C W) (client : C) : Option (UploadQueue C W) :=
  match queue.withdraw clients client with
  | (queue, true) => queue.grantAll clients rounds
  | (queue, false) => some queue

def touched (queue : UploadQueue C W) (client : C) (now : Int) : UploadQueue C W :=
  { queue with
    waiting := queue.waiting.map fun waiting =>
      if waiting.client = client then { waiting with lastAsked := now }
      else waiting }

/-- Waiting clients that have given up leave. -/
def purge (queue : UploadQueue C W) (now : Int) : UploadQueue C W :=
  { queue with
    waiting := queue.waiting.filter fun waiting =>
      !(now - waiting.lastAsked > purgeAfter &&
        !clients.connected queue.world waiting.client) }

/-- The loop of `tick` that ends long sessions; `kept` are the slots it has
stepped over. -/
def rotate (clients : Clients C W) (now : Int) (kept : List (Active C)) :
    List (Active C) → UploadQueue C W → UploadQueue C W
  | [], queue => { queue with active := kept }
  | slot :: rest, queue =>
    if clients.sessionUploaded queue.world slot.client ≥ sessionBytes ∨
        now - slot.since > sessionTime then
      -- eMule puts it back at the end of the queue
      rotate clients now kept rest
        { queue with
          world := clients.revokeSlot queue.world slot.client
          waiting := queue.waiting ++ [⟨slot.client, now, now⟩] }
    else rotate clients now (kept ++ [slot]) rest queue

/-- The slots of clients that lost their connection free up. -/
def reap (queue : UploadQueue C W) : UploadQueue C W :=
  { queue with
    active := queue.active.filter fun slot =>
      clients.uploading queue.world slot.client }

def tick (queue : UploadQueue C W) (now : Int) : Option (UploadQueue C W) :=
  let queue := queue.purge clients now
  let queue := if queue.waiting = [] then queue
    else rotate clients now [] queue.active queue
  (queue.reap clients).grantAll clients rounds

/-- A call of the queue, or a change of the clients between two calls: a
connection that is lost, made or used. -/
inductive Input (C : Type u) (W : Type v) where
  | request (client : C) (now : Int) (rounds : Rounds C)
  | remove (client : C) (rounds : Rounds C)
  | touched (client : C) (now : Int)
  | tick (now : Int) (rounds : Rounds C)
  | setSlots (slots : Int)
  | clients (world : W)

def step (queue : UploadQueue C W) : Input C W → Option (UploadQueue C W)
  | .request client now rounds =>
    (queue.request clients rounds client now).map (·.2)
  | .remove client rounds => queue.remove clients rounds client
  | .touched client now => some (queue.touched client now)
  | .tick now rounds => queue.tick clients rounds now
  | .setSlots slots => some { queue with slots := max 1 slots }
  | .clients world => some { queue with world }

/-- The clients with a slot and those that wait, in the order of the lists. -/
def members (queue : UploadQueue C W) : List C :=
  queue.active.map (·.client) ++ queue.waiting.map (·.client)

/-- No client waits while a slot is free. -/
def Filled (queue : UploadQueue C W) : Prop :=
  queue.slots ≤ queue.active.length ∨ queue.waiting = []

/-- What granting does, whatever the clients do in between. -/
structure Granted (before after : UploadQueue C W) : Prop where
  slots : after.slots = before.slots
  members : after.members.Subperm before.members
  waiting : after.waiting.length ≤ before.waiting.length
  /-- A client is granted a slot up to `slots_` only. -/
  bounded : after.slots < after.active.length → after.active = before.active
  filled : after.Filled

variable {A : Type*} {before b middle m after a : UploadQueue C W}

theorem maxElement_eq_none {l : A → A → Bool} {es : List A} : maxElement l es = none ↔ es = [] := by
  cases es with
  | _ => simp [maxElement]

/-- The fold of `maxElement` stays at an element and its place. -/
theorem maxElement_getElem? {l : A → A → Bool} {es : List A} {e : A × Nat}
    (hb : maxElement l es = some e) : es[e.2]? = some e.1 := by
  cases es with
  | nil => simp [maxElement] at hb
  | cons first r =>
    simp only [maxElement, Option.some.injEq] at hb
    have hf : ∀ (p : List (A × Nat)) (b : A × Nat), (first :: r)[b.2]? = some b.1 →
        (∀ pl ∈ p, (first :: r)[pl.2]? = some pl.1) → (first :: r)[(p.foldl (fun b e =>
          if l b.1 e.1 then e else b) b).2]? =
        some (p.foldl (fun b e =>
          if l b.1 e.1 then e else b) b).1 := by
      intro p
      induction p with
      | nil =>
        intro b hb _
        exact hb
      | cons pl p ih =>
        intro b hb hp
        apply ih
        · dsimp only
          split
          · exact hp pl mem_cons_self
          · exact hb
        · intro o ho
          exact hp o (mem_cons_of_mem pl ho)
    rw [← hb]
    apply hf
    · rfl
    · rintro ⟨o, i⟩ ho
      obtain ⟨hl, hg⟩ := mk_mem_zipIdx_iff_le_and_getElem?_sub.mp ho
      have hi : i = (i - 1) + 1 := by omega
      rw [hi]
      simpa using hg

section Promote

variable {q : UploadQueue C W} {e : Waiting C × Nat}

omit [DecidableEq C] in
theorem promote_members (now : Int) (he : q.waiting[e.2]? = some e.1) :
    (q.promote e now).members.Perm q.members := by
  obtain ⟨hl, hg⟩ := List.getElem?_eq_some_iff.mp he
  have hp : (e.1 :: q.waiting.eraseIdx e.2).Perm q.waiting := by
    rw [← hg]
    exact getElem_cons_eraseIdx_perm hl
  have hc := hp.map Waiting.client
  simp only [members, promote, map_append, map_cons, map_nil, append_assoc]
  exact List.Perm.append_left _ hc

omit [DecidableEq C] in
theorem promote_waiting (now : Int) (he : q.waiting[e.2]? = some e.1) :
    (q.promote e now).waiting.length + 1 = q.waiting.length := by
  obtain ⟨hl, -⟩ := List.getElem?_eq_some_iff.mp he
  simp only [promote, length_eraseIdx, hl, if_true]
  omega

end Promote

section Withdraw

variable (cs : Clients C W) (q : UploadQueue C W) (client c : C)

theorem withdraw_members : (q.withdraw cs c).1.members.Sublist q.members := by
  apply List.Sublist.append
  · exact (filter_sublist (l := q.active)).map _
  · exact (filter_sublist (l := q.waiting)).map _

theorem withdraw_waiting : (q.withdraw cs c).1.waiting.length ≤ q.waiting.length :=
  length_filter_le _ _

theorem withdraw_active : (q.withdraw cs c).1.active.length ≤ q.active.length :=
  length_filter_le _ _

/-- A slot is freed exactly if the client had one. -/
theorem withdraw_freed : (q.withdraw cs c).2 = true ↔ c ∈ q.active.map (·.client) := by
  have hl : (q.active.filter (·.client ≠ c)).length =
      q.active.length ↔ ∀ s ∈ q.active, s.client ≠ c := by
    simp
  simp only [withdraw, decide_eq_true_eq, ne_eq, mem_map]
  rw [not_iff_comm]
  simp only [not_exists, not_and]
  exact hl.symm

end Withdraw

omit [DecidableEq C] in
/-- A call of `grant` after one that has promoted a client. -/
theorem Granted.trans {first s t : UploadQueue C W} (hf : Granted first s) (hs : Granted s t) :
    Granted first t where
  slots := hs.slots.trans hf.slots
  members := hs.members.trans hf.members
  waiting := Nat.le_trans hs.waiting hf.waiting
  bounded := by
    intro ho
    have hsa := hs.bounded ho
    rw [hsa, hs.slots] at ho
    rw [hsa, hf.bounded ho]
  filled := hs.filled

/-- Granting from a state that has come from `before` by steps that leave the
slots at most full. -/
theorem Granted.of_below (hg : Granted m a) (hs : m.slots = b.slots)
    (hm : m.members.Subperm b.members) (hw : m.waiting.length ≤ b.waiting.length)
    (ha : (m.active.length : Int) ≤ m.slots) : Granted b a where
  slots := hg.slots.trans hs
  members := hg.members.trans hm
  waiting := Nat.le_trans hg.waiting hw
  bounded := by
    intro ho
    have hsa := hg.bounded ho
    rw [hsa, hg.slots] at ho
    omega
  filled := hg.filled

/-- Granting ends, and fills the slots: the induction is on the bound, which
every round and every call inside a round finds one lower, with one waiting
client less. -/
theorem grant_granted (r : Rounds C) (f : Nat) (q : UploadQueue C W) (hfu : q.waiting.length < f) :
    ∃ a, grant cs r f q = some a ∧ Granted q a := by
  induction f generalizing q with
  | zero => omega
  | succ f ih =>
    rw [grant]
    by_cases hfr : (q.active.length : Int) < q.slots
    · rw [if_pos hfr]
      cases hbe : maxElement (r.less q.waiting.length) q.waiting with
      | none =>
        have hem := maxElement_eq_none.mp hbe
        exact ⟨q, rfl, rfl, List.Subperm.refl _, Nat.le_refl _, fun _ => rfl, .inr hem⟩
      | some e =>
        have he := maxElement_getElem? hbe
        dsimp only
        generalize r.now q.waiting.length = now
        generalize han : cs.grantSlot (q.promote e now).world e.1.client = answer
        obtain ⟨world, g⟩ := answer
        generalize hg : ({ q.promote e now with world := world } : UploadQueue C W) = granted
        have hm : granted.members.Perm q.members := by
          rw [← hg]
          exact promote_members now he
        have hw : granted.waiting.length + 1 = q.waiting.length := by
          rw [← hg]
          exact promote_waiting now he
        have hs : granted.slots = q.slots := by
          rw [← hg]
          rfl
        have ha : (granted.active.length : Int) ≤ granted.slots := by
          rw [← hg]
          simp only [promote, length_append, length_cons, length_nil]
          omega
        cases g with
        | false =>
          obtain ⟨a, haf, hr⟩ := ih granted (by omega)
          exact ⟨a, haf, hr.of_below hs hm.subperm (by omega) ha⟩
        | true =>
          have hl := withdraw_waiting cs granted e.1.client
          have hk := withdraw_members cs granted e.1.client
          have hle := withdraw_active cs granted e.1.client
          have hsa : (granted.withdraw cs e.1.client).1.slots = granted.slots := rfl
          generalize granted.withdraw cs e.1.client = left at hl hk hle hsa
          obtain ⟨first, hf, hi⟩ := ih left.1 (by omega)
          have hb : Granted q first := hi.of_below (hsa.trans hs)
              (hk.subperm.trans hm.subperm) (by omega) (by omega)
          cases left.2 with
          | false => exact ⟨first, hf, hb⟩
          | true =>
            have hin := hi.waiting
            obtain ⟨s, hse, ho⟩ := ih first (by omega)
            refine ⟨s, ?_, hb.trans ho⟩
            simp only [if_true, hf, Option.bind_some, hse]
    · rw [if_neg hfr]
      exact ⟨q, rfl, rfl, List.Subperm.refl _, Nat.le_refl _, fun _ => rfl, .inl (by omega)⟩

theorem grantAll_granted (r : Rounds C) (q : UploadQueue C W) :
    ∃ a, q.grantAll cs r = some a ∧ Granted q a := grant_granted cs r _ q (Nat.lt_succ_self _)

/-- What every call leaves behind. -/
structure Kept (before after : UploadQueue C W) : Prop where
  nodup : before.members.Nodup → after.members.Nodup
  /-- With more clients than slots, none of them was granted its slot by this
  call. -/
  bounded : after.slots < after.active.length → after.active.Sublist before.active

omit [DecidableEq C] in
theorem Granted.kept (hg : Granted m a) (hn : b.members.Nodup → m.members.Nodup)
    (ha : m.active.Sublist b.active) : Kept b a where
  nodup := by
    intro hb
    obtain ⟨l, hp, hs⟩ := hg.members
    exact hp.nodup_iff.mp (hs.nodup (hn hb))
  bounded := by
    intro ho
    rw [hg.bounded ho]
    exact ha

section

variable (q : UploadQueue C W) (client c : C) (now : Int)

theorem touched_members : (q.touched c now).members = q.members := by
  simp only [members, touched, map_map]
  congr 1
  apply map_congr_left
  intro w _
  dsimp only [Function.comp]
  split <;> rfl

/-- The client joins once, and a client with a slot does not join. -/
theorem enqueue_kept : (q.enqueue c now).2.active = q.active ∧ (q.members.Nodup →
        (q.enqueue c now).2.members.Nodup) := by
  unfold enqueue
  by_cases ha : q.active.any (·.client = c)
  · rw [if_pos ha]
    exact ⟨rfl, id⟩
  rw [if_neg ha]
  by_cases hw : q.waiting.any (·.client = c)
  · rw [if_pos hw]
    refine ⟨rfl, fun hn => ?_⟩
    have hsa := touched_members q c now
    rw [← hsa] at hn
    exact hn
  rw [if_neg hw]
  by_cases hf : q.waiting.length ≥ maxWaiting
  · rw [if_pos hf]
    exact ⟨rfl, id⟩
  rw [if_neg hf]
  refine ⟨rfl, fun hn => ?_⟩
  have hfr : c ∉ q.members := by
    simp only [any_eq_true, decide_eq_true_eq, not_exists, not_and] at ha hw
    simp only [members, mem_append, mem_map, not_or, not_exists, not_and]
    exact ⟨ha, hw⟩
  have hs : members { q with waiting := q.waiting ++ [⟨c, now, now⟩] } = q.members ++ [c] := by
    simp [members]
  rw [hs, ← concat_eq_append]
  exact hn.concat hfr

/-- The request goes on to grant exactly if the client has no slot and is
among those that wait afterwards. -/
theorem enqueue_asked : (q.enqueue c now).1 = .asked ↔ c ∉ q.active.map (·.client) ∧
        (c ∈ q.waiting.map (·.client) ∨ q.waiting.length < maxWaiting) := by
  have ha : q.active.any (·.client = c) = true ↔ c ∈ q.active.map (·.client) := by
    simp
  have hwa : q.waiting.any (·.client = c) = true ↔ c ∈ q.waiting.map (·.client) := by
    simp
  unfold enqueue
  rw [← ha, ← hwa]
  by_cases hh : q.active.any (·.client = c) = true
  · simp [hh]
  · by_cases hw : q.waiting.any (·.client = c) = true
    · simp [hh, hw]
    · by_cases hf : q.waiting.length ≥ maxWaiting
      · simp only [hh, hw, if_pos hf]
        simp
        exact hf
      · simp only [hh, hw, if_neg hf]
        simp
        exact Nat.lt_of_not_le hf

end

section

variable (cs : Clients C W) (r : Rounds C) (q : UploadQueue C W)

theorem request_kept (c : C) (now : Int) :
    ∃ ra after, q.request cs r c now = some (ra, after) ∧ Kept q after ∧
      ((q.enqueue c now).1 = .asked → after.Filled) ∧
      ((q.enqueue c now).1 ≠ .asked → after = q) := by
  obtain ⟨ha, hn⟩ := enqueue_kept q c now
  have he : (q.enqueue c now).1 ≠ .asked → (q.enqueue c now).2 = q := by
    intro hno
    revert hno
    unfold enqueue
    split_ifs <;> simp
  unfold request
  generalize q.enqueue c now = entered at *
  obtain ⟨a, entered⟩ := entered
  cases a with
  | asked =>
    obtain ⟨after, haf, hg⟩ := grantAll_granted cs r entered
    refine ⟨after.rank c r.behind, after, ?_, hg.kept hn ?_, fun _ => hg.filled,
      fun hno => absurd rfl hno⟩
    · dsimp only
      rw [haf, Option.map_some]
    · rw [ha]
  | active | full =>
    have hs := he (by simp)
    subst hs
    exact ⟨_, entered, rfl, ⟨id, fun _ => List.Sublist.refl _⟩, by simp, fun _ => rfl⟩

theorem remove_kept (c : C) :
    ∃ a, q.remove cs r c = some a ∧ Kept q a ∧ (c ∈ q.active.map (·.client) → a.Filled) := by
  have hf := withdraw_freed cs q c
  have hm := withdraw_members cs q c
  have ha : (q.withdraw cs c).1.active.Sublist q.active := filter_sublist
  unfold remove
  generalize q.withdraw cs c = left at *
  obtain ⟨left, f⟩ := left
  cases f with
  | true =>
    obtain ⟨a, haf, hg⟩ := grantAll_granted cs r left
    exact ⟨a, haf, hg.kept hm.nodup ha, fun _ => hg.filled⟩
  | false =>
    refine ⟨left, rfl, ⟨hm.nodup, fun _ => ha⟩, ?_⟩
    intro hh
    exact absurd (hf.mpr hh) (by simp)

omit [DecidableEq C] in
/-- Rotating moves clients from the slots to the end of the queue. -/
theorem rotate_kept (cs : Clients C W) (now : Int) (r k : List (Active C)) (q : UploadQueue C W) :
    (rotate cs now k r q).active.Sublist (k ++ r) ∧
      (rotate cs now k r q).members.Perm ((k ++ r).map (·.client) ++ q.waiting.map (·.client)) := by
  induction r generalizing k q with
  | nil => simp [rotate, members]
  | cons s r ih =>
    rw [rotate]
    split
    · obtain ⟨ha, hm⟩ := ih k
        { q with
          world := cs.revokeSlot q.world s.client
          waiting := q.waiting ++ [⟨s.client, now, now⟩] }
      constructor
      · apply ha.trans
        exact List.Sublist.append_left (sublist_cons_self s r) _
      · apply hm.trans
        simp only [map_append, map_cons, map_nil, append_assoc, cons_append]
        apply List.Perm.append_left
        rw [← append_assoc]
        exact perm_append_singleton _ _
    · obtain ⟨ha, hm⟩ := ih (k ++ [s]) q
      rw [append_assoc] at ha hm
      exact ⟨ha, hm⟩

theorem tick_kept (now : Int) : ∃ a, q.tick cs r now = some a ∧ Kept q a ∧ a.Filled := by
  have hp : (q.purge cs now).members.Sublist q.members :=
    List.Sublist.append_left (filter_sublist.map _) _
  have hs : (q.purge cs now).active = q.active := rfl
  unfold tick
  generalize q.purge cs now = purged at hp hs
  dsimp only
  generalize hrot : (if purged.waiting = [] then purged
    else rotate cs now [] purged.active purged) = rotated
  have hro : rotated.active.Sublist q.active ∧ rotated.members.Perm purged.members := by
    rw [← hrot, ← hs]
    split
    · exact ⟨List.Sublist.refl _, List.Perm.refl _⟩
    · exact rotate_kept cs now purged.active [] purged
  have hr : (rotated.reap cs).active.Sublist rotated.active := filter_sublist
  have hm : (rotated.reap cs).members.Sublist rotated.members :=
    List.Sublist.append_right (hr.map _) _
  obtain ⟨a, ha, hg⟩ := grantAll_granted cs r (rotated.reap cs)
  refine ⟨a, ha, hg.kept ?_ (hr.trans hro.1), hg.filled⟩
  intro hn
  exact hm.nodup (hro.2.nodup_iff.mpr (hp.nodup hn))

end

/-- The calls after which the slots are filled: a request that left the client
queued or granted it a slot it had not, the removal of a client with a slot,
and every tick. -/
def Fills (before after : UploadQueue C W) : Input C W → Prop
  | .request client _ _ =>
    client ∈ after.waiting.map (·.client) ∨ client ∈ after.active.map (·.client) ∧
        client ∉ before.active.map (·.client)
  | .remove client _ => client ∈ before.active.map (·.client)
  | .tick _ _ => True
  | _ => False

/-- One call ends, keeps the members apart and the slots bounded, and fills the
slots where it should. -/
theorem step_kept (q : UploadQueue C W) (i : Input C W) (hno : q.members.Nodup) :
    ∃ after, q.step cs i = some after ∧ Kept q after ∧ (Fills q after i → after.Filled) := by
  cases i with
  | request c now r =>
    obtain ⟨ra, after, ha, hk, hf, he⟩ := request_kept cs r q c now
    refine ⟨after, ?_, hk, fun hfi => hf ?_⟩
    · rw [step, ha, Option.map_some]
    by_contra hn
    have hs := he hn
    subst hs
    rw [enqueue_asked] at hn
    rcases hfi with hw | ⟨hh, hnon⟩
    · apply hn
      refine ⟨fun hh => ?_, .inl hw⟩
      exact (disjoint_of_nodup_append hno) hh hw
    · exact hnon hh
  | remove c r => exact remove_kept cs r q c
  | touched c now =>
    refine ⟨_, rfl, ⟨?_, fun _ => List.Sublist.refl _⟩, False.elim⟩
    rw [touched_members]
    exact id
  | tick now r =>
    obtain ⟨after, ha, hk, hf⟩ := tick_kept cs r q now
    exact ⟨after, ha, hk, fun _ => hf⟩
  | setSlots | clients =>
    exact ⟨_, rfl, ⟨id, fun _ => List.Sublist.refl _⟩, False.elim⟩

/-- A sequence of calls from the empty queue. -/
def runFrom (queue : UploadQueue C W) (inputs : List (Input C W)) : Option (UploadQueue C W) :=
  inputs.foldlM (step clients) queue

theorem runFrom_nodup (i : List (Input C W)) (q : UploadQueue C W) (hn : q.members.Nodup) :
    ∃ a, runFrom cs q i = some a ∧ a.members.Nodup := by
  induction i generalizing q with
  | nil => exact ⟨q, rfl, hn⟩
  | cons input i ih =>
    obtain ⟨next, hne, hk, -⟩ := step_kept cs q input hn
    obtain ⟨a, ha, hdo⟩ := ih next (hk.nodup hn)
    refine ⟨a, ?_, hdo⟩
    unfold runFrom at ha ⊢
    rw [foldlM_cons, hne]
    exact ha

/-- However the calls follow each other, whatever the clients do when they are
granted a slot and between the calls, and however they are scored: every call
returns; no client is twice in the queue; a call that ends with more clients
than slots granted none; and a request that left its client in the queue, the
removal of a client with a slot and a tick end with every slot taken or nobody
waiting. -/
theorem calls_fill_slots (clients : Clients C W) (world : W) (calls : List (Input C W))
    (call : Input C W) :
    ∃ before after : UploadQueue C W, runFrom clients { world := world } calls = some before ∧
      step clients before call = some after ∧ after.members.Nodup ∧
      (after.slots < after.active.length → after.active.Sublist before.active) ∧
      (Fills before after call → after.slots ≤ after.active.length ∨ after.waiting = []) := by
  obtain ⟨before, hbefore, hnodup⟩ := runFrom_nodup clients calls { world := world } nodup_nil
  obtain ⟨after, hafter, hkept, hfilled⟩ := step_kept clients before call hnodup
  exact ⟨before, after, hbefore, hafter, hkept.nodup hnodup, hkept.bounded, hfilled⟩

/-- What holds of the clients and is kept by granting and revoking the slot of
the clients in `inside` holds after every call of the queue. -/
structure Rule (clients : Clients C W) (inside : C → Prop) (holds : W → Prop) :
    Prop where
  grant : ∀ world client, inside client → holds world → holds (clients.grantSlot world client).1
  revoke : ∀ world client, inside client → holds world → holds (clients.revokeSlot world client)

/-- A queue of clients in `inside`, with clients of which `holds` is true. -/
structure Ruled (inside : C → Prop) (holds : W → Prop)
    (queue : UploadQueue C W) : Prop where
  members : ∀ client ∈ queue.members, inside client
  world : holds queue.world

section Ruled

variable {cs : Clients C W} {i : C → Prop} {ho : W → Prop}
variable {q a : UploadQueue C W}

theorem withdraw_ruled (hr : Rule cs i ho) (hq : Ruled i ho q) (c : C) :
    Ruled i ho (q.withdraw cs c).1 where
  members := by
    intro m hm
    exact hq.members m ((withdraw_members cs q c).subset hm)
  world := by
    have hf := withdraw_freed cs q c
    simp only [withdraw, decide_eq_true_eq] at hf ⊢
    split
    · rename_i hs
      apply hr.revoke _ _ _ hq.world
      apply hq.members
      exact mem_append_left _ (hf.mp hs)
    · exact hq.world

theorem withdraw_notMem (cs : Clients C W) (q : UploadQueue C W) (c : C) :
    c ∉ (q.withdraw cs c).1.members := by
  simp [withdraw, members]

theorem grant_ruled (hr : Rule cs i ho) (r : Rounds C) (f : Nat) (hq : Ruled i ho q)
    (hg : grant cs r f q = some a) : Ruled i ho a := by
  induction f generalizing q a with
  | zero => simp [grant] at hg
  | succ f ih =>
    rw [grant] at hg
    by_cases hf : (q.active.length : Int) < q.slots
    · rw [if_pos hf] at hg
      cases hb : maxElement (r.less q.waiting.length) q.waiting with
      | none =>
        rw [hb] at hg
        cases hg
        exact hq
      | some e =>
        rw [hb] at hg
        dsimp only at hg
        have hp := promote_members (r.now q.waiting.length) (maxElement_getElem? hb)
        have hc : e.1.client ∈ (q.promote e (r.now q.waiting.length)).members := by
          simp [members, promote]
        have hi := hq.members _ (hp.subset hc)
        have hgr : Ruled i ho { q.promote e (r.now q.waiting.length) with
              world := (cs.grantSlot (q.promote e (r.now q.waiting.length)).world
                e.1.client).1 } := by
          constructor
          · intro m hm
            exact hq.members m (hp.subset hm)
          · exact hr.grant _ _ hi hq.world
        have hl := withdraw_ruled hr hgr e.1.client
        split at hg
        · split at hg
          · obtain ⟨mi, hmi, hre⟩ := Option.bind_eq_some_iff.mp hg
            exact ih (ih hl hmi) hre
          · exact ih hl hg
        · exact ih hgr hg
    · rw [if_neg hf] at hg
      cases hg
      exact hq

end Ruled

section Total

variable (clients cs : Clients C W) (rounds r : Rounds C) (queue q : UploadQueue C W)

theorem request_isSome (c : C) (now : Int) : (q.request cs r c now).isSome := by
  obtain ⟨ra, after, ha, -⟩ := request_kept cs r q c now
  rw [ha]
  rfl

theorem remove_isSome (c : C) : (q.remove cs r c).isSome := by
  obtain ⟨a, ha, -⟩ := remove_kept cs r q c
  rw [ha]
  rfl

theorem tick_isSome (now : Int) : (q.tick cs r now).isSome := by
  obtain ⟨a, ha, -⟩ := tick_kept cs r q now
  rw [ha]
  rfl

/-- `request`, which always returns. -/
def requested (client : C) (now : Int) : Nat × UploadQueue C W :=
  (queue.request clients rounds client now).get (request_isSome clients rounds queue client now)

/-- `remove`, which always returns. -/
def removed (client : C) : UploadQueue C W := (queue.remove clients rounds client).get
    (remove_isSome clients rounds queue client)

/-- `tick`, which always returns. -/
def ticked (now : Int) : UploadQueue C W := (queue.tick clients rounds now).get
    (tick_isSome clients rounds queue now)

end Total

section TotalRules

variable {cs : Clients C W} {i : C → Prop} {holds ho : W → Prop}
variable {q : UploadQueue C W}

theorem requested_ruled (hru : Rule cs i ho) (r : Rounds C) {c : C} (now : Int)
    (hq : Ruled i ho q) (hc : i c) : Ruled i ho (q.requested cs r c now).2 := by
  have he : Ruled i ho (q.enqueue c now).2 := by
    unfold enqueue
    split
    · exact hq
    split
    · constructor
      · intro m hm
        have hsa := touched_members q c now
        apply hq.members
        rw [← hsa]
        exact hm
      · exact hq.world
    split
    · exact hq
    · constructor
      · intro m hm
        simp only [members, map_append, map_cons, map_nil, mem_append, mem_singleton] at hm
        rcases hm with ha | hw | hsa
        · exact hq.members m (mem_append_left _ ha)
        · exact hq.members m (mem_append_right _ hw)
        · rw [hsa]
          exact hc
      · exact hq.world
  have hs := Option.some_get (request_isSome cs r q c now)
  change some (q.requested cs r c now) = _ at hs
  generalize q.requested cs r c now = result at hs
  unfold request at hs
  generalize q.enqueue c now = e at *
  obtain ⟨a, e⟩ := e
  cases a with
  | active | full =>
    cases hs
    exact he
  | asked =>
    obtain ⟨g, hg, hr⟩ := Option.map_eq_some_iff.mp hs.symm
    rw [← hr]
    exact grant_ruled hru r _ he hg

theorem removed_ruled (hr : Rule cs i ho) (r : Rounds C) (c : C) (hq : Ruled i ho q) :
    Ruled i ho (q.removed cs r c) := by
  have hl := withdraw_ruled hr hq c
  have hs := Option.some_get (remove_isSome cs r q c)
  change some (q.removed cs r c) = _ at hs
  generalize q.removed cs r c = result at hs
  unfold remove at hs
  generalize q.withdraw cs c = left at *
  obtain ⟨left, f⟩ := left
  cases f with
  | true => exact grant_ruled hr r _ hl hs.symm
  | false =>
    cases hs
    exact hl

/-- A client that was removed is not in the queue. -/
theorem removed_notMem (cs : Clients C W) (r : Rounds C) (q : UploadQueue C W) (c : C) :
    c ∉ (q.removed cs r c).members := by
  have hru : Rule cs (· ≠ c) (fun _ => True) := ⟨fun _ _ _ _ => trivial, fun _ _ _ _ => trivial⟩
  have hl : Ruled (· ≠ c) (fun _ => True) (q.withdraw cs c).1 := by
    refine ⟨fun m hm hsa => ?_, trivial⟩
    rw [hsa] at hm
    exact withdraw_notMem cs q c hm
  have hs := Option.some_get (remove_isSome cs r q c)
  change some (q.removed cs r c) = _ at hs
  generalize q.removed cs r c = result at hs
  unfold remove at hs
  generalize q.withdraw cs c = left at *
  obtain ⟨left, f⟩ := left
  intro hm
  cases f with
  | true =>
    have hr := grant_ruled hru r _ hl hs.symm
    exact hr.members c hm rfl
  | false =>
    cases hs
    exact hl.members c hm rfl

omit [DecidableEq C] in
theorem rotate_ruled (hru : Rule cs i holds) (now : Int) (r k : List (Active C))
    (hq : holds q.world) (hs : ∀ s ∈ r, i s.client) : holds (rotate cs now k r q).world := by
  induction r generalizing k q with
  | nil => exact hq
  | cons s r ih =>
    rw [rotate]
    have hr : ∀ o ∈ r, i o.client := by
      intro o ho
      exact hs o (mem_cons_of_mem s ho)
    split
    · apply ih _ _ hr
      exact hru.revoke _ _ (hs s mem_cons_self) hq
    · exact ih _ hq hr

theorem ticked_ruled (hru : Rule cs i ho) (r : Rounds C) (now : Int) (hq : Ruled i ho q) :
    Ruled i ho (q.ticked cs r now) := by
  have hp : Ruled i ho (q.purge cs now) := by
    constructor
    · intro m hm
      apply hq.members
      exact (List.Sublist.append_left (filter_sublist.map _) _).subset hm
    · exact hq.world
  have hs := Option.some_get (tick_isSome cs r q now)
  change some (q.ticked cs r now) = _ at hs
  generalize q.ticked cs r now = result at hs
  unfold tick at hs
  generalize q.purge cs now = purged at hp hs
  refine grant_ruled hru r _ ?_ hs.symm
  have hr : Ruled i ho (if purged.waiting = [] then purged
      else rotate cs now [] purged.active purged) := by
    split
    · exact hp
    · constructor
      · intro m hm
        apply hp.members
        exact (rotate_kept cs now purged.active [] purged).2.subset hm
      · apply rotate_ruled hru now _ _ hp.world
        intro s hsl
        apply hp.members
        exact mem_append_left _ (mem_map_of_mem hsl)
  constructor
  · intro m hm
    apply hr.members
    exact (List.Sublist.append_right (filter_sublist.map _) _).subset hm
  · exact hr.world

end TotalRules

end UploadQueue

end Aria2Next
