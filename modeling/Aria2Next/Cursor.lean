/-
Where a search for the first element with a property ends: what stands before
the element, the element, and what stands behind it.  Writing to the place or
erasing it are appends, so what a list holds afterwards is read off by
permutations.
-/
import Mathlib.Data.List.Perm.Basic

universe u

structure Cursor (α : Type u) where
  before : List α
  item : α
  after : List α

namespace Cursor

variable {α : Type u}

variable (cursor c : Cursor α)

/-- The list the cursor points into. -/
def list : List α := cursor.before ++ cursor.item :: cursor.after

def erase : List α := cursor.before ++ cursor.after

def set (value : α) : List α := cursor.before ++ value :: cursor.after

/-- The first element with the property. -/
def find (p : α → Bool) : List α → Option (Cursor α)
  | [] => none
  | item :: rest =>
    if p item then some ⟨[], item, rest⟩
    else (find p rest).map fun cursor =>
      { cursor with before := item :: cursor.before }

variable {p : α → Bool} {items first last : List α}

theorem find_eq_none : find p items = none ↔ ∀ i ∈ items, p i = false := by
  induction items with
  | nil => simp [find]
  | cons i r ih =>
    rw [find, List.forall_mem_cons]
    cases hi : p i with
    | true => simp
    | false => simp [ih]

theorem find_eq_some {c : Cursor α} (hf : find p items = some c) :
    c.list = items ∧ p c.item = true ∧ ∀ i ∈ c.before, p i = false := by
  induction items generalizing c with
  | nil => simp [find] at hf
  | cons i r ih =>
    rw [find] at hf
    cases hi : p i with
    | true =>
      rw [hi, if_pos rfl, Option.some.injEq] at hf
      subst hf
      exact ⟨rfl, hi, by simp⟩
    | false =>
      rw [hi, if_neg Bool.false_ne_true, Option.map_eq_some_iff] at hf
      obtain ⟨inner, hin, rfl⟩ := hf
      obtain ⟨hl, hfo, hb⟩ := ih hin
      refine ⟨congrArg (i :: ·) hl, hfo, ?_⟩
      exact List.forall_mem_cons.mpr ⟨hi, hb⟩

theorem find?_eq (p : α → Bool) (i : List α) : i.find? p = (find p i).map item := by
  induction i with
  | nil => rfl
  | cons item rest ih =>
    rw [find, List.find?_cons]
    cases hi : p item with
    | true => rfl
    | false =>
      rw [if_neg Bool.false_ne_true, Option.map_map]
      exact ih

theorem set_perm (v : α) :
    (c.set v).Perm (v :: c.erase) := List.perm_middle

theorem list_perm :
    c.list.Perm (c.item :: c.erase) := List.perm_middle

theorem length_set (v : α) : (c.set v).length = c.list.length := by
  simp [set, list]

theorem length_erase : c.erase.length + 1 = c.list.length := by
  simp only [erase, list, List.length_append, List.length_cons]
  omega

theorem subperm_map {β : Type*} (f : α → β) (hs : first.Subperm last) :
    (first.map f).Subperm (last.map f) := by
  obtain ⟨m, hp, hs⟩ := hs
  exact ⟨m.map f, hp.map f, hs.map f⟩

theorem nodup_of_subperm (hs : first.Subperm last) (hn : last.Nodup) : first.Nodup := by
  obtain ⟨m, hp, hs⟩ := hs
  exact hp.nodup_iff.mp (hn.sublist hs)

end Cursor
