/-
`KadTraversal` under any order of calls: the requests in flight are counted
right as long as no answer comes after the same request was reported failed and
no failure is reported for a contact that was not asked.  Either takes a request
off the counter that is not counted any more, or not yet.
-/
import Aria2Next.KadTraversal

namespace Aria2Next.KadTraversal

open Runs List

inductive Call where
  | start (seeds : List KadContact)
  | response (contact : KadContact) (closer : List KadContact)
  | failure (contact : KadContact)
  | stalled

variable (traversal : KadTraversal)

def call : Call → KadTraversal
  | .start seeds => (traversal.start seeds).1
  | .response contact closer => (traversal.onResponse contact closer).1
  | .failure contact => (traversal.onFailure contact).1
  | .stalled => traversal.stalled.1

/-- The observers that were asked and have neither answered nor failed. -/
def pendings : Nat := traversal.observers.countP Observer.pending

def Counts : Prop := traversal.inFlight = traversal.pendings

def limit : Nat := traversal.branchFactor + traversal.extra

/-- The call takes nothing off the counter that is not counted. -/
def Expected : Call → Prop
  | .response contact _ => traversal.done = false → ∀ found ∈ traversal.find contact,
      found.item.queried = true ∧ found.item.alive = false →
      found.item.pending = true ∨ traversal.inFlight = 0
  | .failure contact => ∀ found ∈ traversal.find contact,
      found.item.failed = false ∧ found.item.alive = false →
      found.item.pending = true ∨ traversal.inFlight = 0
  | .start _ | .stalled => True

/-- The counter and the observers change alike. -/
structure Level (traversal next : KadTraversal) : Prop where
  counts : next.inFlight + traversal.pendings = traversal.inFlight + next.pendings
  bound : traversal.inFlight ≤ traversal.limit → next.inFlight ≤ next.limit

variable {t next n : KadTraversal} {c : KadContact}

theorem Level.trans {l : KadTraversal} (hf : Level t n) (hl : Level n l) : Level t l where
  counts := by
    have := hf.counts
    have := hl.counts
    omega
  bound := fun hb => hl.bound (hf.bound hb)

theorem Level.counts_iff (hl : Level t n) : n.Counts ↔ t.Counts := by
  have := hl.counts
  rw [Counts, Counts]
  omega

/-- Nothing changes that is counted. -/
theorem Level.of_eq (hi : n.inFlight = t.inFlight) (hl : t.limit ≤ n.limit)
    (hp : n.pendings = t.pendings) : Level t n where
  counts := by omega
  bound := by omega

theorem addContact_level (t : KadTraversal) (c : KadContact) : Level t (t.addContact c) := by
  rw [addContact]
  split_ifs
  · exact .of_eq rfl le_rfl rfl
  split
  · next g hf =>
    refine .of_eq rfl le_rfl ?_
    rw [pendings, pendings, ← (find_eq_some hf).1]
    simp [Cursor.set, Cursor.list, countP_cons, Observer.pending]
  · refine .of_eq rfl le_rfl ?_
    have hn : ({ contact := c } : Observer).pending = false := rfl
    obtain ⟨go, hg, hq⟩ := dropFar_eq
      (t.observers.orderedInsert (Nearer t.targetId) { contact := c }).reverse
    have hz : go.countP Observer.pending = 0 := by
      rw [countP_eq_zero]
      intro o ho
      simp [Observer.pending, hq o ho]
    have hi := congrArg (countP Observer.pending) hg
    rw [countP_append, hz, countP_reverse, countP_eq_length_filter,
      Booked.filter_orderedInsert hn, ← countP_eq_length_filter, Nat.zero_add] at hi
    rw [pendings, pendings, countP_reverse, ← hi]

theorem foldl_addContact_level (cs : List KadContact) (t : KadTraversal) :
    Level t (cs.foldl addContact t) := by
  induction cs generalizing t with
  | nil => exact .of_eq rfl le_rfl rfl
  | cons c r ih => exact (addContact_level t c).trans (ih _)

theorem search_level (t : KadTraversal) (o : Observer) (a : Bool) :
    (t.search o a).1.inFlight = t.inFlight ∧ (t.search o a).1.limit = t.limit ∧
      (t.search o a).2.1.pending = o.pending := by
  rw [search]
  split
  · exact ⟨rfl, rfl, rfl⟩
  · split_ifs <;> exact ⟨rfl, rfl, rfl⟩

theorem searchClosest_level (os : List Observer) (n : Nat) (t : KadTraversal) :
    (searchClosest n t os).1.inFlight = t.inFlight ∧ (searchClosest n t os).1.limit = t.limit ∧
      (searchClosest n t os).2.1.countP Observer.pending = os.countP Observer.pending := by
  induction os generalizing n t with
  | nil => exact ⟨rfl, rfl, rfl⟩
  | cons o r ih =>
    rw [searchClosest]
    split_ifs with ha hn
    · obtain ⟨hi, hl, hp⟩ := search_level t o true
      obtain ⟨hi', hl', hp'⟩ := ih (n + 1) (t.search o true).1
      refine ⟨hi'.trans hi, hl'.trans hl, ?_⟩
      simp only [countP_cons, hp', hp]
    · obtain ⟨hi, hl, hp⟩ := ih (n + 1) t
      exact ⟨hi, hl, by simp only [countP_cons, hp]⟩
    · obtain ⟨hi, hl, hp⟩ := ih n t
      exact ⟨hi, hl, by simp only [countP_cons, hp]⟩

theorem ask_bound (l t : Nat) (os : List Observer) :
    ∀ c i, i ≤ l → i + (ask l t c i os).2.2.length ≤ l := by
  induction os with
  | nil => exact fun _ _ => id
  | cons o r ih =>
    intro c i hl
    rw [ask]
    split_ifs with hf hm ha hq
    · exact ih c i hl
    · exact hl
    · exact ih (c + 1) i hl
    · have := ih (c + 1) (i + 1) hq.2
      change i + ((ask l t (c + 1) (i + 1) r).2.2.length + 1) ≤ l
      omega
    · exact ih (c + 1) i hl

/-- As many are asked as are pending afterwards. -/
theorem ask_pending (l t c i : Nat) (os : List Observer) :
    (ask l t c i os).2.1.countP Observer.pending =
      os.countP Observer.pending + (ask l t c i os).2.2.length := by
  have hm := (ask_marks l t os c i).gain (p := Observer.pending) fun o ho => by
      obtain ⟨hq, ha, hf⟩ := ho
      exact ⟨rfl, by simp [Observer.pending, hq], by simp [Observer.pending, Observer.ask, ha, hf]⟩
  simpa [keys, countP_eq_length_filter] using hm.length_eq

theorem nextActions_level (t : KadTraversal) : Level t t.nextActions.1 := by
  have hc := ask_pending (t.branchFactor + t.extra) t.targetNodes 0 t.inFlight t.observers
  have hl := ask_bound (t.branchFactor + t.extra) t.targetNodes t.observers 0 t.inFlight
  rw [nextActions]
  split_ifs with ho
  · exact .of_eq rfl le_rfl rfl
  generalize ask (t.branchFactor + t.extra) t.targetNodes 0 t.inFlight t.observers = asked at hc hl
  obtain ⟨converged, observers, cs⟩ := asked
  cases converged with
  | false => exact ⟨by simp only [pendings, if_true, hc]; omega, hl⟩
  | true =>
    obtain ⟨hi, hb, hp⟩ := searchClosest_level observers 0 { t with
      observers, queried := t.queried + cs.length
      inFlight := t.inFlight + cs.length, converged := true }
    simp only [Bool.true_eq_false, if_false]
    constructor
    · simp only [pendings, hi, hp, hc]
      omega
    · exact fun h => (hi.trans_le (hl h)).trans_eq hb.symm

/-- A request is taken off the counter, that of the observer found. -/
theorem taken {g : Cursor Observer} {o : Observer} (hf : t.find c = some g)
    (ho : o.pending = false) (hi : n.inFlight = t.inFlight - 1) (hs : n.observers = g.set o)
    (hc : t.Counts) : n.Counts ↔ g.item.pending = true ∨ t.inFlight = 0 := by
  rw [Counts, pendings, ← (find_eq_some hf).1, Cursor.list, countP_append, countP_cons] at hc
  rw [Counts, pendings, hi, hs, Cursor.set, countP_append, countP_cons, ho]
  cases hp : g.item.pending <;> simp [hp] at hc ⊢ <;> omega

/-- An answer is counted right when it is expected. -/
theorem answer_counts (hc : t.Counts) : (t.answer c).1.Counts ↔ ∀ g ∈ t.find c,
    g.item.queried = true ∧ g.item.alive = false → g.item.pending = true ∨ t.inFlight = 0 := by
  rw [answer]
  split
  · next hf => simp [hc, hf]
  next g hf =>
  simp only [hf, Option.mem_some_iff, forall_eq']
  split_ifs with hq
  · refine (taken hf ((search_level _ _ _).2.2.trans (by simp [Observer.pending])) ?_ rfl
      hc).trans (by simp [hq])
    exact (search_level _ _ _).1
  · exact iff_of_true hc fun h => absurd h hq

theorem answer_bound (hb : t.inFlight ≤ t.limit) :
    (t.answer c).1.inFlight ≤ (t.answer c).1.limit := by
  rw [answer]
  split
  · exact hb
  split_ifs
  · refine le_of_eq_of_le (search_level _ _ _).1 (le_of_le_of_eq ?_ (search_level _ _ _).2.1.symm)
    exact (Nat.sub_le _ _).trans hb
  · exact hb

theorem fail_counts (hc : t.Counts) : (t.fail c).Counts ↔ ∀ g ∈ t.find c,
    g.item.failed = false ∧ g.item.alive = false → g.item.pending = true ∨ t.inFlight = 0 := by
  rw [fail]
  split
  · next hf => simp [hc, hf]
  next g hf =>
  simp only [hf, Option.mem_some_iff, forall_eq']
  split_ifs with hq
  · exact (taken hf (by simp [Observer.pending]) rfl rfl hc).trans (by simp [hq])
  · exact iff_of_true hc fun h => absurd h hq

theorem fail_bound (hb : t.inFlight ≤ t.limit) : (t.fail c).inFlight ≤ (t.fail c).limit := by
  rw [fail]
  split
  · exact hb
  split_ifs
  · exact (Nat.sub_le _ _).trans hb
  · exact hb

theorem stalled_level (t : KadTraversal) : Level t t.stalled.1 := by
  rw [stalled]
  refine .trans ?_ (nextActions_level _)
  split_ifs
  · exact .of_eq rfl (Nat.le_succ _) rfl
  · exact .of_eq rfl le_rfl rfl

theorem call_counts (hc : t.Counts) (ca : Call) : (t.call ca).Counts ↔ t.Expected ca := by
  cases ca with
  | start s =>
    exact iff_of_true (((foldl_addContact_level s t).trans
      (nextActions_level _)).counts_iff.mpr hc) trivial
  | response c cl =>
    rw [KadTraversal.call, onResponse, Expected]
    split_ifs with hd
    · simp [hc, hd]
    · rw [((foldl_addContact_level cl _).trans (nextActions_level _)).counts_iff, answer_counts hc]
      simp [hd]
  | failure c => exact (nextActions_level _).counts_iff.trans (fail_counts hc)
  | stalled => exact iff_of_true ((stalled_level t).counts_iff.mpr hc) trivial

theorem call_bound (t : KadTraversal) (ca : Call) (hb : t.inFlight ≤ t.limit) :
    (t.call ca).inFlight ≤ (t.call ca).limit := by
  cases ca with
  | start s =>
    exact ((foldl_addContact_level s t).trans (nextActions_level _)).bound hb
  | response c cl =>
    rw [KadTraversal.call, onResponse]
    split_ifs
    · exact hb
    · exact ((foldl_addContact_level cl _).trans (nextActions_level _)).bound (answer_bound hb)
  | failure c => exact (nextActions_level _).bound (fail_bound hb)
  | stalled => exact (stalled_level t).bound hb

theorem meets_counts_iff (c : List Call) (hc : t.Counts) :
    Meets call (fun t call => (t.call call).Counts) t c ↔ Meets call Expected t c := by
  induction c generalizing t with
  | nil => exact Iff.rfl
  | cons n rest ih =>
    have hn := call_counts hc n
    constructor
    · rintro ⟨hf, hr⟩
      exact ⟨hn.mp hf, (ih hf).mp hr⟩
    · rintro ⟨hf, hr⟩
      exact ⟨hn.mpr hf, (ih (hn.mpr hf)).mpr hr⟩

/-- In every run no more requests are in flight than may be, and the counter is
right after every call exactly as long as every call is expected. -/
theorem run_counts_in_flight {targetId : Text} {searchable : Option (KadContact → Bool)}
    {maxSearches branchFactor targetNodes : Nat} {traversal : KadTraversal}
    (hcreate : create targetId searchable maxSearches branchFactor targetNodes = .ok traversal)
    (calls : List Call) :
    (run call traversal calls).inFlight ≤ (run call traversal calls).limit ∧
      (Meets call (fun traversal call => (traversal.call call).Counts) traversal calls ↔
        Meets call Expected traversal calls) := by
  rw [create] at hcreate
  split at hcreate
  · cases hcreate
    exact ⟨run_preserves call_bound calls (Nat.zero_le _), meets_counts_iff calls rfl⟩
  · cases hcreate

/-- The contacts are asked one at a time: the second is not asked yet. -/
theorem run_counts_in_flight_two :
    ∃ traversal, create (replicate 16 0) none 0 1 0 = .ok traversal ∧
      let last := run call traversal [.start [near 8, near 9], .stalled, .failure (near 9)]
      last.inFlight = 1 ∧ last.inFlight ≤ last.limit := by
  have hcreate : create (replicate 16 0) none 0 1 0 = .ok _ := rfl
  exact ⟨_, hcreate, by decide +kernel, (run_counts_in_flight hcreate _).1⟩

/-- A contact that was not asked is reported failed: one of the requests is
not counted any more, and another one is sent. -/
theorem run_miscounts_failure :
    ∃ traversal, create (replicate 16 0) none 0 1 0 = .ok traversal ∧
      let last := run call traversal [.start [near 8, near 9, near 10], .failure (near 9)]
      last.inFlight = 1 ∧ last.pendings = 2 :=
  ⟨_, rfl, by decide +kernel, by decide +kernel⟩

end Aria2Next.KadTraversal
