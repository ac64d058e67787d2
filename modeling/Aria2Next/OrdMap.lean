/-
A map kept as the list of its entries in key order, the order in which a loop
over it runs.  The order is a field of the structure, so a map with a
duplicate or misplaced key cannot be built.
-/
import Mathlib

universe u v w

/-- Entries with strictly increasing keys. -/
structure OrdMap (K : Type u) (V : Type v) [LinearOrder K] where
  entries : List (K × V)
  sorted : entries.Pairwise (fun left right => left.1 < right.1)

namespace OrdMap

open List

variable {K : Type u} {V : Type v} {W : Type w} [LinearOrder K]

instance : EmptyCollection (OrdMap K V) := ⟨⟨[], List.Pairwise.nil⟩⟩

@[simp] theorem entries_empty : (∅ : OrdMap K V).entries = [] := rfl

instance : Inhabited (OrdMap K V) := ⟨∅⟩

theorem eq_empty_of_entries {map : OrdMap K V} (he : map.entries = []) : map = ∅ := by
  cases map
  subst he
  rfl

/-- The value stored under a key. -/
def find? (map : OrdMap K V) (key : K) : Option V :=
  (map.entries.find? (fun entry => entry.1 = key)).map Prod.snd

def contains (map : OrdMap K V) (key : K) : Bool := (map.find? key).isSome

/-- Store a value under a key, replacing what was there. -/
def insert (map : OrdMap K V) (key : K) (value : V) : OrdMap K V where
  entries := map.entries.filter (fun entry => entry.1 < key) ++
    (key, value) :: map.entries.filter (fun entry => key < entry.1)
  sorted := by
    rw [pairwise_append, pairwise_cons]
    refine ⟨map.sorted.filter _, ⟨?_, map.sorted.filter _⟩, ?_⟩
    · intro entry he
      simpa using (mem_filter.mp he).2
    · intro left hle right hr
      have hl : left.1 < key := by simpa using (mem_filter.mp hle).2
      rcases mem_cons.mp hr with rfl | hr
      · exact hl
      · exact hl.trans (by simpa using (mem_filter.mp hr).2)

def erase (map : OrdMap K V) (key : K) : OrdMap K V where
  entries := map.entries.filter (fun entry => entry.1 ≠ key)
  sorted := map.sorted.filter _

/-- Keep the entries a predicate on key and value accepts. -/
def filter (map : OrdMap K V) (keep : K → V → Bool) : OrdMap K V where
  entries := map.entries.filter (fun entry => keep entry.1 entry.2)
  sorted := map.sorted.filter _

/-- Replace every value, keeping the keys. -/
def mapValues (map : OrdMap K V) (f : K → V → W) : OrdMap K W where
  entries := map.entries.map (fun entry => (entry.1, f entry.1 entry.2))
  sorted := by
    rw [pairwise_map]
    exact map.sorted

def keys (map : OrdMap K V) : List K := map.entries.map Prod.fst

def values (map : OrdMap K V) : List V := map.entries.map Prod.snd

variable (map : OrdMap K V)

theorem keys_nodup : map.keys.Nodup := by
  rw [keys, List.Nodup, pairwise_map]
  exact map.sorted.imp ne_of_lt

variable {key o : K} {l r : OrdMap K V} {value v : V} {list : List (K × V)} {p : V → Prop}

/-- A key determines its entry. -/
theorem eq_of_mem_entries {l r : V} (hl : (key, l) ∈ map.entries) (hr : (key, r) ∈ map.entries) :
    l = r := by
  have hi := (nodup_map_iff_inj_on (List.Nodup.of_map _ map.keys_nodup)).mp map.keys_nodup
  exact (Prod.mk.inj (hi _ hl _ hr rfl)).2

theorem find?_eq_some_iff (key : K) (v : V) : map.find? key = some v ↔ (key, v) ∈ map.entries := by
  constructor
  · intro hf
    obtain ⟨e, he, rfl⟩ := Option.map_eq_some_iff.mp hf
    have hk : e.1 = key := by simpa using List.find?_some he
    rw [← hk]
    exact mem_of_find?_eq_some he
  · intro hm
    cases hf : map.entries.find? (fun e => e.1 = key) with
    | none =>
      have := List.find?_eq_none.mp hf _ hm
      simp at this
    | some e =>
      have hk : e.1 = key := by simpa using List.find?_some hf
      have he : (key, e.2) ∈ map.entries := by
        rw [← hk]
        exact mem_of_find?_eq_some hf
      rw [find?, hf, Option.map_some, map.eq_of_mem_entries he hm]

theorem find?_eq_none_iff (key : K) : map.find? key = none ↔ ∀ v, (key, v) ∉ map.entries := by
  rw [Option.eq_none_iff_forall_ne_some]
  simp only [ne_eq, find?_eq_some_iff]

/-- Two maps with the same entries answer every lookup alike. -/
theorem find?_congr {k : K} (hm : ∀ v, (key, v) ∈ l.entries ↔ (k, v) ∈ r.entries) :
    l.find? key = r.find? k := by
  apply Option.ext
  intro v
  simp only [find?_eq_some_iff, hm]

/-- A map is determined by its lookups. -/
theorem ext_find? (hf : ∀ key, l.find? key = r.find? key) : l = r := by
  have hm : ∀ e, e ∈ l.entries ↔ e ∈ r.entries := by
    rintro ⟨key, v⟩
    rw [← find?_eq_some_iff, ← find?_eq_some_iff, hf]
  have hp : l.entries.Perm r.entries :=
    (perm_ext_iff_of_nodup (List.Nodup.of_map _ l.keys_nodup)
      (List.Nodup.of_map _ r.keys_nodup)).mpr hm
  have he : l.entries = r.entries :=
    hp.eq_of_pairwise (fun _ _ _ _ hl hg => absurd hl hg.asymm)
      l.sorted r.sorted
  cases l
  cases r
  simpa using he

@[simp] theorem find?_empty (key : K) : (∅ : OrdMap K V).find? key = none := rfl

theorem mem_insert (key o : K) (va v : V) :
    (o, v) ∈ (map.insert key va).entries ↔
      (o = key ∧ v = va) ∨ (o ≠ key ∧ (o, v) ∈ map.entries) := by
  simp only [insert, mem_append, mem_filter, mem_cons, Prod.mk.injEq, decide_eq_true_eq]
  constructor
  · rintro (⟨hm, hl⟩ | ⟨rfl, rfl⟩ | ⟨hm, hl⟩)
    · exact .inr ⟨hl.ne, hm⟩
    · exact .inl ⟨rfl, rfl⟩
    · exact .inr ⟨hl.ne', hm⟩
  · rintro (⟨rfl, rfl⟩ | ⟨hn, hm⟩)
    · exact .inr (.inl ⟨rfl, rfl⟩)
    · rcases lt_or_gt_of_ne hn with hl | hg
      · exact .inl ⟨hm, hl⟩
      · exact .inr (.inr ⟨hm, hg⟩)

theorem mem_erase (key o : K) (v : V) :
    (o, v) ∈ (map.erase key).entries ↔ o ≠ key ∧ (o, v) ∈ map.entries := by
  simp only [erase, mem_filter, ne_eq, decide_not, Bool.not_eq_true', decide_eq_false_iff_not]
  exact And.comm

theorem mem_filter (k : K → V → Bool) (key : K) (v : V) :
    (key, v) ∈ (map.filter k).entries ↔ (key, v) ∈ map.entries ∧ k key v = true := by
  simp [filter]

theorem mem_mapValues (f : K → V → W) (key : K) (w : W) :
    (key, w) ∈ (map.mapValues f).entries ↔ ∃ v, (key, v) ∈ map.entries ∧ f key v = w := by
  simp only [mapValues, mem_map, Prod.exists, Prod.mk.injEq]
  constructor
  · rintro ⟨o, v, hm, rfl, rfl⟩
    exact ⟨v, hm, rfl⟩
  · rintro ⟨v, hm, rfl⟩
    exact ⟨key, v, hm, rfl, rfl⟩

@[simp] theorem find?_insert_self (key : K) (v : V) : (map.insert key v).find? key = some v := by
  rw [find?_eq_some_iff, mem_insert]
  exact .inl ⟨rfl, rfl⟩

theorem find?_insert_of_ne (va : V) (hn : o ≠ key) : (map.insert key va).find? o = map.find? o := by
  apply find?_congr
  intro v
  rw [mem_insert]
  simp [hn]

theorem find?_insert (key o : K) (v : V) :
    (map.insert key v).find? o =
      if o = key then some v else map.find? o := by
  by_cases he : o = key
  · rw [he, find?_insert_self, if_pos rfl]
  · rw [find?_insert_of_ne map v he, if_neg he]

@[simp] theorem find?_erase_self (key : K) : (map.erase key).find? key = none := by
  rw [find?_eq_none_iff]
  intro v hm
  exact ((mem_erase map key key v).mp hm).1 rfl

theorem find?_erase_of_ne (hn : o ≠ key) : (map.erase key).find? o = map.find? o := by
  apply find?_congr
  intro v
  rw [mem_erase]
  simp [hn]

theorem find?_erase (key o : K) : (map.erase key).find? o =
      if o = key then none else map.find? o := by
  by_cases he : o = key
  · rw [he, find?_erase_self, if_pos rfl]
  · rw [find?_erase_of_ne map he, if_neg he]

theorem find?_filter (k : K → V → Bool) (key : K) :
    (map.filter k).find? key = (map.find? key).filter (fun v => k key v) := by
  apply Option.ext
  intro v
  rw [find?_eq_some_iff, mem_filter, Option.filter_eq_some_iff, find?_eq_some_iff]

theorem find?_mapValues (f : K → V → W) (key : K) :
    (map.mapValues f).find? key = (map.find? key).map (f key) := by
  apply Option.ext
  intro v
  rw [find?_eq_some_iff, mem_mapValues, Option.map_eq_some_iff]
  simp only [find?_eq_some_iff]

theorem erase_insert_of_ne (hn : o ≠ key) (v : V) :
    (map.insert key v).erase o = (map.erase o).insert key v := by
  apply ext_find?
  intro g
  simp only [find?_erase, find?_insert]
  by_cases hf : g = o
  · rw [if_pos hf, if_neg (hf ▸ hn), if_pos hf]
  · rw [if_neg hf, if_neg hf]

theorem mem_keys_iff (key : K) : key ∈ map.keys ↔ map.find? key ≠ none := by
  rw [Ne, find?_eq_none_iff]
  simp [keys]

theorem mem_keys_insert (key o : K) (v : V) :
    o ∈ (map.insert key v).keys ↔ o = key ∨ o ∈ map.keys := by
  rw [mem_keys_iff, mem_keys_iff, find?_insert]
  by_cases hs : o = key <;> simp [hs]

theorem mem_keys_erase (key o : K) : o ∈ (map.erase key).keys ↔ o ≠ key ∧ o ∈ map.keys := by
  rw [mem_keys_iff, mem_keys_iff, find?_erase]
  by_cases hs : o = key <;> simp [hs]

@[simp] theorem insert_insert (key : K) (va v : V) :
    (map.insert key va).insert key v = map.insert key v := by
  apply ext_find?
  intro o
  rw [find?_insert, find?_insert, find?_insert]
  split_ifs <;> rfl

/-- Storing what is there changes nothing. -/
theorem insert_eq_self {map : OrdMap K V} (hf : map.find? key = some v) :
    map.insert key v = map := by
  apply ext_find?
  intro o
  rw [find?_insert]
  split_ifs with ho
  · rw [ho, hf]
  · rfl

/-- A map with one key. -/
theorem keys_eq_singleton {map : OrdMap K V} (hf : map.find? key = some v)
    (hot : ∀ o, o ≠ key → map.find? o = none) : map.keys = [key] := by
  have hm : map = (∅ : OrdMap K V).insert key v := by
    apply ext_find?
    intro o
    rw [find?_insert]
    split_ifs with ho
    · rw [ho, hf]
    · exact hot o ho
  rw [hm]
  rfl

/-- Store a list of entries one after the other. -/
def insertAll (map : OrdMap K V) (list : List (K × V)) : OrdMap K V :=
  list.foldl (fun map entry => map.insert entry.1 entry.2) map

theorem find?_insertAll_of_notMem (hk : key ∉ list.map Prod.fst) :
    (map.insertAll list).find? key = map.find? key := by
  induction list generalizing map with
  | nil => rfl
  | cons e r ih =>
    simp only [map_cons, mem_cons, not_or] at hk
    have hs := ih (map.insert e.1 e.2) hk.2
    rw [find?_insert_of_ne map e.2 hk.1] at hs
    exact hs

theorem find?_insertAll_of_mem (hn : (list.map Prod.fst).Nodup) (hm : (key, v) ∈ list) :
    (map.insertAll list).find? key = some v := by
  induction list generalizing map with
  | nil => simp at hm
  | cons e rest ih =>
    rw [map_cons, nodup_cons] at hn
    rcases mem_cons.mp hm with rfl | hm
    · have hs := find?_insertAll_of_notMem (map.insert key v) hn.1
      rw [find?_insert_self] at hs
      exact hs
    · exact ih (map.insert e.1 e.2) hn.2 hm

/-- Every entry but the one under `key`, with that one in front. -/
theorem entries_perm_cons_erase (hm : (key, value) ∈ map.entries) :
    map.entries.Perm ((key, value) :: (map.erase key).entries) := by
  have hs := filter_append_perm (fun e : K × V => decide (e.1 = key)) map.entries
  have hon : map.entries.filter (fun e => decide (e.1 = key)) = [(key, value)] := by
    have hn : (map.entries.filter (fun e => decide (e.1 = key))).Nodup :=
      (List.Nodup.of_map _ map.keys_nodup).filter _
    apply perm_singleton.mp
    rw [perm_ext_iff_of_nodup hn (nodup_singleton _)]
    rintro ⟨o, v⟩
    simp only [List.mem_filter, decide_eq_true_eq, List.mem_singleton, Prod.mk.injEq]
    constructor
    · rintro ⟨ho, rfl⟩
      exact ⟨rfl, map.eq_of_mem_entries ho hm⟩
    · rintro ⟨rfl, rfl⟩
      exact ⟨hm, rfl⟩
  rw [hon] at hs
  refine hs.symm.trans ?_
  simp [erase]

theorem entries_insert_perm (key : K) (va : V) :
    (map.insert key va).entries.Perm ((key, va) :: (map.erase key).entries) := by
  have hm : (key, va) ∈ (map.insert key va).entries :=
    (mem_insert map key key va va).mpr (.inl ⟨rfl, rfl⟩)
  refine ((map.insert key va).entries_perm_cons_erase hm).trans ?_
  apply List.Perm.cons
  have hl := List.Nodup.of_map _ ((map.insert key va).erase key).keys_nodup
  have hr := List.Nodup.of_map _ (map.erase key).keys_nodup
  rw [perm_ext_iff_of_nodup hl hr]
  rintro ⟨o, v⟩
  rw [mem_erase, mem_erase, mem_insert]
  constructor
  · rintro ⟨hn, (⟨he, _⟩ | ⟨_, hold⟩)⟩
    · exact absurd he hn
    · exact ⟨hn, hold⟩
  · rintro ⟨hn, hold⟩
    exact ⟨hn, .inr ⟨hn, hold⟩⟩

theorem length_erase_of_find {map : OrdMap K V} (hf : map.find? key = some v) :
    (map.erase key).entries.length + 1 = map.entries.length := by
  have hm := (find?_eq_some_iff map key v).mp hf
  have hp := (map.entries_perm_cons_erase hm).length_eq
  rw [hp, length_cons]

theorem length_erase_le (key : K) : (map.erase key).entries.length ≤ map.entries.length :=
  length_filter_le _ _

/-- Replacing a value does not change the number of entries. -/
theorem length_insert_of_find {map : OrdMap K V} (hf : map.find? key = some value) (v : V) :
    (map.insert key v).entries.length = map.entries.length := by
  rw [(map.entries_insert_perm key v).length_eq, length_cons, length_erase_of_find hf]

/-- The number of values that meet a condition. -/
def count (map : OrdMap K V) (p : V → Prop) [DecidablePred p] : Nat :=
  map.entries.countP fun entry => p entry.2

theorem count_cons_erase (p : V → Prop) [DecidablePred p] (hf : map.find? key = some v) :
    map.count p = (map.erase key).count p + if p v then 1 else 0 := by
  have hm := (find?_eq_some_iff map key v).mp hf
  rw [count, (map.entries_perm_cons_erase hm).countP_eq, countP_cons]
  simp [count]

theorem count_insert (p : V → Prop) [DecidablePred p] (key : K) (v : V) :
    (map.insert key v).count p = (map.erase key).count p + if p v then 1 else 0 := by
  rw [count, (map.entries_insert_perm key v).countP_eq, countP_cons]
  simp [count]

theorem count_congr {map : OrdMap K V} {q : V → Prop} [DecidablePred p] [DecidablePred q]
    (hs : ∀ key v, map.find? key = some v → (p v ↔ q v)) : map.count p = map.count q := by
  apply countP_congr
  rintro ⟨key, v⟩ hm
  simpa using hs key v ((find?_eq_some_iff map key v).mpr hm)

theorem count_eq_zero {map : OrdMap K V} [DecidablePred p]
    (hn : ∀ key v, map.find? key = some v → ¬ p v) : map.count p = 0 := by
  apply countP_eq_zero.mpr
  rintro ⟨key, v⟩ hm
  simpa using hn key v ((find?_eq_some_iff map key v).mpr hm)

theorem erase_of_find_none {map : OrdMap K V} (hf : map.find? key = none) :
    map.erase key = map := by
  apply ext_find?
  intro o
  rw [find?_erase]
  split_ifs with ho
  · rw [ho, hf]
  · rfl

theorem sum_insert (key : K) (v : V) (f : K × V → Int) :
    ((map.insert key v).entries.map f).sum = f (key, v) + ((map.erase key).entries.map f).sum := by
  rw [((map.entries_insert_perm key v).map f).sum_eq, map_cons, sum_cons]

theorem sum_erase_le (key : K) {f : K × V → Int} (hn : ∀ e ∈ map.entries, 0 ≤ f e) :
    ((map.erase key).entries.map f).sum ≤ (map.entries.map f).sum := by
  apply List.Sublist.sum_le_sum
  · exact filter_sublist.map f
  · intro a ha
    obtain ⟨e, he, rfl⟩ := mem_map.mp ha
    exact hn e he

end OrdMap
