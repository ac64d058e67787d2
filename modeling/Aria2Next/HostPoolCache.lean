/-
The allowances a `HostPool` caches are never seen to be cached: while the
pool is not marked stale, every stored allowance is what a fresh allocation
of the member's host would store.
-/
import Aria2Next.HostPool

namespace Aria2Next.HostPool

open Runs OrdMap

universe u v w

variable {Member : Type u} {Host : Type v} {F : Type w}
  [LinearOrder Member] [LinearOrder Host] [Double F]

/-- What `allocate` would give a member if nothing were cached. -/
def freshAllowance (F : Type w) [Double F] (pool : HostPool Member Host) (member : Member) : Int :=
  match pool.members.find? member with
  | none => 0
  | some demand =>
    let fresh := { pool with allowances := ∅ }.allocate F demand.host
    match fresh.allowances.find? member with
    | none => demand.wanted
    | some allowed => allowed

section

variable (pool p : HostPool Member Host)

variable (host ht : Host)

theorem mem_membersOf (e : Member × Demand Host) :
    e ∈ p.membersOf ht ↔ e ∈ p.members.entries ∧ e.2.host = ht := by
  rw [membersOf, List.mem_insertionSort, List.mem_filter, decide_eq_true_iff]

theorem membersOf_nodup : ((p.membersOf ht).map Prod.fst).Nodup := by
  have hp := List.perm_insertionSort
    (fun left right : Member × Demand Host => left.2.order ≤ right.2.order)
    (p.members.entries.filter fun e => e.2.host = ht)
  rw [membersOf, (hp.map Prod.fst).nodup_iff]
  exact p.members.keys_nodup.sublist (List.filter_sublist.map Prod.fst)

theorem firstSeats_length (n s : Nat) : (firstSeats n s).1.length = n := by
  induction n generalizing s with
  | zero => rfl
  | succ n ih =>
    cases s with
    | _ => simp [firstSeats, ih]

theorem divideSeats_length (a : List (Int × Int)) (s : Nat) (g : List Int) :
    (divideSeats F a s g).length = g.length := by
  induction s generalizing g with
  | zero => rfl
  | succ s ih =>
    rw [divideSeats]
    cases bestSeat F a g with
    | none => rfl
    | some b => simp [ih]

/-- An allocation of a host has a share for exactly its members. -/
theorem shares_members : (p.shares F ht).map Prod.fst = (p.membersOf ht).map Prod.fst := by
  rw [shares]
  by_cases hl : p.limit ht ≤ 0
  · simp [hl]
  · simp only [hl, ↓reduceIte]
    rw [List.map_fst_zip]
    rw [divideSeats_length, firstSeats_length, List.length_map]

theorem shares_nodup : ((p.shares F ht).map Prod.fst).Nodup := by
  rw [shares_members]
  exact p.membersOf_nodup ht

variable {member m : Member} {d : Demand Host} {o : HostPool Member Host}

section

variable (hm : p.members.find? m = some d)

include hm

theorem mem_shares_iff_host :
    m ∈ (p.shares F ht).map Prod.fst ↔ d.host = ht := by
  rw [shares_members, List.mem_map]
  constructor
  · rintro ⟨e, he, rfl⟩
    obtain ⟨hme, hh⟩ := (p.mem_membersOf ht e).mp he
    rw [find?_eq_some_iff] at hm
    rw [p.members.eq_of_mem_entries hm hme]
    exact hh
  · intro hh
    refine ⟨(m, d), (p.mem_membersOf ht _).mpr ⟨?_, hh⟩, rfl⟩
    exact (find?_eq_some_iff _ _ _).mp hm

theorem exists_share : ∃ a, (m, a) ∈ p.shares F d.host := by
  have hme := (p.mem_shares_iff_host (F := F) d.host hm).mpr rfl
  obtain ⟨⟨_, a⟩, he, rfl⟩ := List.mem_map.mp hme
  exact ⟨a, he⟩

/-- The share of a member is what a fresh allocation stores for it. -/
theorem freshAllowance_eq {a : Int}
    (hs : (m, a) ∈ p.shares F d.host) : p.freshAllowance F m = a := by
  have hf := find?_insertAll_of_mem (∅ : OrdMap Member Int) (p.shares_nodup (F := F) d.host) hs
  simp only [freshAllowance, hm]
  change (match ((∅ : OrdMap Member Int).insertAll (p.shares F d.host)).find? m with
    | none => d.wanted
    | some a => a) = a
  rw [hf]

end

/-- The cached allowances of the members of `host` are its shares. -/
def Cached (F : Type w) [Double F] (pool : HostPool Member Host) (host : Host) : Prop :=
  ∀ entry ∈ pool.shares F host, pool.allowances.find? entry.1 = some entry.2

theorem allocate_cached : (p.allocate F ht).Cached F ht := by
  intro e he
  exact find?_insertAll_of_mem p.allowances (p.shares_nodup (F := F) ht) he

/-- Allocating one host leaves the allowances of the others alone. -/
theorem allocate_cached_of_cached (o : Host) (hc : p.Cached F o) :
    (p.allocate F ht).Cached F o := by
  by_cases heq : o = ht
  · rw [heq]
    exact p.allocate_cached ht
  · intro e he
    have hn : e.1 ∉ (p.shares F ht).map Prod.fst := by
      have hme : e.1 ∈ (p.shares F o).map Prod.fst := List.mem_map_of_mem he
      intro hh
      rw [shares_members, List.mem_map] at hme
      obtain ⟨⟨m, d⟩, hi, hm⟩ := hme
      obtain ⟨hen, ho⟩ := (p.mem_membersOf o _).mp hi
      have hf := (find?_eq_some_iff _ _ _).mpr hen
      rw [← hm] at hh
      have := (p.mem_shares_iff_host (F := F) ht hf).mp hh
      exact heq (ho.symm.trans this)
    have hs := find?_insertAll_of_notMem p.allowances hn
    exact hs.trans (hc e he)

/-- After the loop every host that was done before it or has a member among
the entries it ran over is cached. -/
theorem allocateAll_cached (d : List Host) (es : List (Member × Demand Host))
    (hdo : ∀ ht ∈ d, p.Cached F ht) :
    (∀ ht ∈ d, (allocateAll F p d es).Cached F ht) ∧ ∀ e ∈ es,
        (allocateAll F p d es).Cached F e.2.host := by
  induction es generalizing p d with
  | nil => exact ⟨hdo, by simp⟩
  | cons e r ih =>
    by_cases hi : e.2.host ∈ d
    · obtain ⟨hold, hr⟩ := ih p d hdo
      simp only [allocateAll, hi, ↓reduceIte]
      exact ⟨hold, List.forall_mem_cons.mpr ⟨hold _ hi, hr⟩⟩
    · have hn : ∀ ht ∈ d ++ [e.2.host], (p.allocate F e.2.host).Cached F ht := by
        intro ht hh
        rcases List.mem_append.mp hh with hh | hh
        · exact p.allocate_cached_of_cached _ ht (hdo ht hh)
        · rw [List.mem_singleton.mp hh]
          exact p.allocate_cached e.2.host
      obtain ⟨hold, hr⟩ := ih (p.allocate F e.2.host) (d ++ [e.2.host]) hn
      simp only [allocateAll, hi, ↓reduceIte]
      refine ⟨fun ht hh => hold ht (List.mem_append_left _ hh),
        List.forall_mem_cons.mpr ⟨hold _ ?_, hr⟩⟩
      exact List.mem_append_right d (List.mem_singleton.mpr rfl)

/-- The part of a demand an allocation looks at. -/
def wish (demand : Demand Host) : Demand Host := { demand with transferring := 0 }

def wishes (pool : HostPool Member Host) : OrdMap Member (Demand Host) :=
  pool.members.mapValues fun _ demand => wish demand

theorem membersOf_wishes : { p with members := p.wishes }.membersOf ht =
      (p.membersOf ht).map fun e => (e.1, wish e.2) := by
  simp only [membersOf, wishes, mapValues, List.filter_map]
  symm
  apply List.map_insertionSort
  intro left _ right _
  rfl

theorem shares_wishes : { p with members := p.wishes }.shares F ht = p.shares F ht := by
  have hl : { p with members := p.wishes }.limit ht = p.limit ht := rfl
  simp [shares, membersOf_wishes, hl, List.map_map, Function.comp_def, wish]

/-- Shares depend on the wishes of the members and the limit of the host
only. -/
theorem shares_congr {p : HostPool Member Host} (ht : Host) (hw : p.wishes = o.wishes)
    (hl : p.limit ht = o.limit ht) : p.shares F ht = o.shares F ht := by
  have hm : { p with members := p.wishes }.membersOf ht =
      { o with members := o.wishes }.membersOf ht := by
    rw [hw]
    rfl
  have hs : { p with members := p.wishes }.limit ht =
      { o with members := o.wishes }.limit ht := hl
  rw [← p.shares_wishes, ← o.shares_wishes, shares, shares, hm, hs]

/-- While the cache is not stale it holds the shares of every member's
host; stored wishes ask for a connection at least. -/
structure CacheOk (F : Type w) [Double F] (pool : HostPool Member Host) :
    Prop where
  cached : pool.stale = false → ∀ member demand,
    pool.members.find? member = some demand → pool.Cached F demand.host
  wanted : ∀ member demand, pool.members.find? member = some demand → 1 ≤ demand.wanted

theorem cacheOk_empty : CacheOk F ({} : HostPool Member Host) := by
  refine ⟨by simp, ?_⟩
  intro m d hm
  simp at hm

/-- A step that keeps the cache, the wishes and the limits keeps it
valid. -/
theorem CacheOk.of_same {p : HostPool Member Host} (ho : CacheOk F p) (hw : o.wishes = p.wishes)
    (hc : o.stale = false → p.stale = false ∧ o.allowances = p.allowances ∧ ∀ m d,
        p.members.find? m = some d → o.limit d.host = p.limit d.host) : CacheOk F o := by
  have hme : ∀ m d, o.members.find? m = some d →
      ∃ old, p.members.find? m = some old ∧ old.host = d.host ∧ old.wanted = d.wanted := by
    intro m d hm
    have hf := congrArg (fun map => map.find? m) hw
    simp only [wishes, find?_mapValues, hm, Option.map_some] at hf
    cases hold : p.members.find? m with
    | none => simp [hold] at hf
    | some old =>
      simp only [hold, Option.map_some, Option.some.injEq, wish, Demand.mk.injEq] at hf
      exact ⟨old, rfl, hf.1.symm, hf.2.1.symm⟩
  constructor
  · intro hs m d hm e he
    obtain ⟨hfr, ha, hli⟩ := hc hs
    obtain ⟨old, hold, hh, _⟩ := hme m d hm
    have hl := hli m old hold
    rw [hh] at hl
    rw [shares_congr d.host hw hl] at he
    rw [ha]
    have := ho.cached hfr m old hold
    rw [hh] at this
    exact this e he
  · intro m d hm
    obtain ⟨old, hold, _, hwa⟩ := hme m d hm
    rw [← hwa]
    exact ho.wanted m old hold

/-- A stale cache says nothing. -/
theorem CacheOk.of_stale {p : HostPool Member Host} (hs : p.stale = true)
    (hw : ∀ m d, p.members.find? m = some d → 1 ≤ d.wanted) : CacheOk F p := by
  refine ⟨fun hf => ?_, hw⟩
  rw [hs] at hf
  contradiction

theorem raiseLimit_eq :
    p.raiseLimit ht = p ∨ ∃ hosts, p.raiseLimit ht = { p with hosts, stale := true } := by
  rw [raiseLimit]
  cases p.hosts.find? ht with
  | none => exact .inl rfl
  | some s =>
    by_cases hr : s.limit > 0 ∧ p.transferringOn ht > s.limit
    · exact .inr ⟨_, if_pos hr⟩
    · exact .inl (if_neg hr)

theorem changes_eq_false {e : Option (Demand Host)} {ht : Host} {w left : Int}
    (hs : changes e ht w left = false) :
    ∃ d, e = some d ∧ d.host = ht ∧ d.wanted = w ∧ d.remaining = left := by
  cases e with
  | none => simp [changes] at hs
  | some d =>
    simp only [changes, Bool.or_eq_false_iff, decide_eq_false_iff_not,
      ne_eq, Decidable.not_not] at hs
    exact ⟨d, rfl, hs.1.1, hs.1.2, hs.2⟩

section

variable (ho : CacheOk F p)

include ho

theorem insert_wanted (m : Member) (d : Demand Host) (hw : 1 ≤ d.wanted) :
    ∀ o s, (p.members.insert m d).find? o = some s → 1 ≤ s.wanted := by
  intro o s hf
  by_cases he : o = m
  · rw [he, find?_insert_self] at hf
    cases hf
    exact hw
  · rw [find?_insert_of_ne _ _ he] at hf
    exact ho.wanted o s hf

theorem storeDemand_cacheOk (m : Member) (ht : Host) (w left on : Int) :
    CacheOk F (p.storeDemand m ht w left on) := by
  by_cases hs : changes (p.members.find? m) ht w left = false
  · -- the same wish again: only `transferring` may differ
    obtain ⟨d, hf, hh, hw, hr⟩ := changes_eq_false hs
    have hon := ho.wanted m d hf
    refine ho.of_same ?_ fun hst => ⟨?_, rfl, fun _ _ _ => rfl⟩
    · apply ext_find?
      intro o
      simp only [wishes, storeDemand, find?_mapValues]
      by_cases he : o = m
      · simp [he, hf, wish, hon, ← hh, ← hw, ← hr]
      · rw [find?_insert_of_ne _ _ he]
    · simpa [storeDemand, hs] using hst
  · refine .of_stale ?_ (insert_wanted p ho m _ ?_)
    · simp [storeDemand, hs]
    · exact le_max_left 1 w

theorem update_cacheOk (m : Member) (ht : Host) (w left on : Int) :
    CacheOk F (p.update m ht w left on) := by
  have hs := storeDemand_cacheOk p ho m ht w left on
  rw [update]
  rcases raiseLimit_eq (p.storeDemand m ht w left on) ht
    with hk | ⟨hosts, hr⟩
  · rw [hk]
    exact hs
  · rw [hr]
    exact .of_stale rfl hs.wanted

theorem leave_cacheOk (m : Member) : CacheOk F (p.leave m) := by
  rw [leave]
  cases p.members.find? m with
  | none => exact ho
  | some d =>
    refine .of_stale rfl fun o s hf => ?_
    by_cases he : o = m
    · simp [he] at hf
    · rw [find?_erase_of_ne _ he] at hf
      exact ho.wanted o s hf

theorem overloaded_cacheOk (m : Member) (s now r : Int) :
    CacheOk F (p.overloaded m s now r) := by
  rw [overloaded]
  cases p.members.find? m with
  | none => exact ho
  | some d =>
    refine ho.of_same rfl fun hs => ?_
    simp only [Bool.or_eq_false_iff, Bool.not_eq_false'] at hs
    refine ⟨hs.1, rfl, fun _ o _ => ?_⟩
    refine (limit_insert p d.host o.host _).trans ?_
    rw [refuse_limit, if_pos hs.2, ← limit_eq_getD]
    split_ifs with he
    · rw [he]
    · rfl

theorem tick_cacheOk (now : Int) : CacheOk F (p.tick now) := by
  refine ho.of_same rfl fun hs => ?_
  simp only [tick, Bool.or_eq_false_iff, List.any_eq_false] at hs
  refine ⟨hs.1, rfl, fun m d hm => ?_⟩
  have hu := usedBy_of_find? hm
  rw [limit, find?_tick, if_pos hu, limit]
  cases hh : p.hosts.find? d.host with
  | none => rfl
  | some s =>
    have he : (d.host, s) ∈ (p.hosts.filter fun ht _ => usedBy p.members ht).entries :=
      (mem_filter _ _ _ _).mpr ⟨(find?_eq_some_iff _ _ _).mp hh, hu⟩
    have hc := hs.2 _ he
    simp [recover, hc]

theorem refresh_cached (hm : p.members.find? m = some d) :
    (p.refresh F).Cached F d.host := by
  rw [refresh]
  by_cases hs : p.stale = true
  · rw [if_pos hs]
    have ha := (allocateAll_cached (F := F) { p with allowances := ∅ } []
      p.members.entries (by simp)).2
    exact ha (m, d) ((find?_eq_some_iff _ _ _).mp hm)
  · rw [if_neg hs]
    exact ho.cached (by simpa using hs) m d hm

theorem refresh_cacheOk : CacheOk F (p.refresh F) := by
  have hm := (p.refresh_members (F := F)).1
  constructor
  · intro _ m d hme
    rw [hm] at hme
    exact p.refresh_cached ho hme
  · rw [hm]
    exact ho.wanted

theorem allowance_cacheOk (m : Member) : CacheOk F (p.allowance F m).2 := by
  rw [allowance]
  cases p.members.find? m with
  | none => exact ho
  | some d => exact p.refresh_cacheOk ho

end

theorem step_cacheOk (c : Call Member Host) (ho : CacheOk F p) : CacheOk F (step F p c) := by
  cases c with
  | update m ht w left on =>
    exact update_cacheOk p ho m ht w left on
  | leave m => exact leave_cacheOk p ho m
  | overloaded m s now r =>
    exact overloaded_cacheOk p ho m s now r
  | tick now => exact tick_cacheOk p ho now
  | allowance m => exact allowance_cacheOk p ho m

/-- With a valid cache, what `allowance` answers is a fresh allocation. -/
theorem allowance_eq_fresh (ho : CacheOk F p) (m : Member) :
    (p.allowance F m).1 = p.freshAllowance F m := by
  cases hm : p.members.find? m with
  | none => simp [allowance, freshAllowance, hm]
  | some d =>
    obtain ⟨a, hs⟩ := p.exists_share (F := F) hm
    rw [p.freshAllowance_eq hm hs]
    have hc := p.refresh_cached ho hm
    have hsa : (p.refresh F).shares F d.host = p.shares F d.host := by
      obtain ⟨hme, hh⟩ := p.refresh_members (F := F)
      apply shares_congr
      · rw [wishes, wishes, hme]
      · rw [limit, limit, hh]
    have hf := hc (m, a) (hsa ▸ hs)
    simp only [allowance, hm]
    rw [hf]

end

/-- Caching is invisible: after any calls, `allowance` answers what a fresh
allocation of the member's host answers. -/
theorem allowance_run_eq_freshAllowance (calls : List (Call Member Host)) (member : Member) :
    ((run (step F) ({} : HostPool Member Host) calls).allowance F member).1 =
      (run (step F) ({} : HostPool Member Host) calls).freshAllowance F
        member := by
  apply allowance_eq_fresh
  exact run_preserves step_cacheOk calls cacheOk_empty

end Aria2Next.HostPool
