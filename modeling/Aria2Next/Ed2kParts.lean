/-
What the operations of `ed2k/Parts` do to the received bytes and the verified
parts.  Parts are disjoint, so that verifying, rejecting or receiving inside
one part leaves the others as they are.
-/
import Aria2Next.Ed2kTask

namespace Aria2Next.Parts

/-- The parts of a file of this size. -/
structure Shaped (parts : Parts) (size : Int) : Prop where
  size_eq : parts.size = size
  count_eq : parts.count = ((size + pieceLength - 1) / pieceLength).toNat

theorem pieceLength_pos : 0 < pieceLength := by decide

theorem ofSize_shaped (s : Int) : (ofSize s).Shaped s := ⟨rfl, List.length_replicate⟩

/-- An offset lies in a part. -/
def In (parts : Parts) (index : Nat) (offset : Int) : Prop :=
  (parts.part index).1 ≤ offset ∧ offset < (parts.part index).2

section

variable {parts p : Parts}

variable {i o : Nat} {ot size : Int}

theorem in_iff :
    p.In i ot ↔ i * pieceLength ≤ ot ∧ ot < i * pieceLength + pieceLength ∧ ot < p.size := by
  simp only [In, part]
  omega

theorem In.partOf (hi : p.In i ot) : partOf ot = i := by
  obtain ⟨hl, hh, _⟩ := in_iff.mp hi
  simp only [pieceLength] at hl hh
  simp only [Parts.partOf, pieceLength]
  omega

theorem In.unique {left right : Nat} (hl : p.In left ot) (hr : p.In right ot) : left = right :=
  hl.partOf.symm.trans hr.partOf

theorem Shaped.part_lt (hs : p.Shaped size) (hi : i < p.count) : (p.part i).1 < (p.part i).2 := by
  rw [hs.count_eq] at hi
  simp only [part, hs.size_eq, pieceLength] at hi ⊢
  omega

theorem Shaped.in_begin (hs : p.Shaped size) (hi : i < p.count) :
    p.In i (p.part i).1 := ⟨le_refl _, hs.part_lt hi⟩

theorem Shaped.lt_count (hs : p.Shaped size) (hi : p.In i ot) : i < p.count := by
  obtain ⟨hl, _, hh⟩ := in_iff.mp hi
  rw [hs.size_eq] at hh
  rw [hs.count_eq]
  simp only [pieceLength] at hl ⊢
  omega

theorem filled_iff : p.filled i = true ↔ ∀ x, p.In i x → x ∈ p.received := by
  rw [filled, RangeSet.contains_iff]
  constructor
  · intro ha x hi
    exact ha x hi.1 hi.2
  · intro ha x hl hh
    exact ha x ⟨hl, hh⟩

/-- A part that is there and not verified. -/
def Pending (parts : Parts) (index : Nat) : Prop :=
  parts.filled index = true ∧ parts.isVerified index = false

/-- Operations that keep the size and the number of parts. -/
theorem Shaped.of_eq {ps o : Parts} (hs : ps.Shaped size) (hsi : o.size = ps.size)
    (hc : o.count = ps.count) : o.Shaped size := ⟨hsi.trans hs.size_eq, hc.trans hs.count_eq⟩

@[simp] theorem verify_size (ps : Parts) (i : Nat) : (ps.verify i).size = ps.size := rfl

@[simp] theorem verify_count (ps : Parts) (i : Nat) :
    (ps.verify i).count = ps.count := List.length_set

theorem verify_isVerified (ho : o < parts.count) :
    (parts.verify i).isVerified o = (i == o || parts.isVerified o) := by
  by_cases he : i = o
  · subst he
    simp [isVerified, verify, List.getD_eq_getElem?_getD, List.getElem?_set_self ho]
  · simp [isVerified, verify, List.getD_eq_getElem?_getD, List.getElem?_set_ne he, he]

theorem mem_verify : ot ∈ (p.verify i).received ↔ ot ∈ p.received ∨ p.In i ot :=
  RangeSet.mem_add

theorem verify_filled (hn : i ≠ o) : (p.verify i).filled o = true ↔ p.filled o = true := by
  rw [filled_iff, filled_iff]
  constructor
  · intro ha x hi
    rcases mem_verify.mp (ha x hi) with hm | hm
    · exact hm
    · exact absurd (hm.unique hi) hn
  · intro ha x hi
    exact mem_verify.mpr (.inl (ha x hi))

/-- Verifying leaves no part pending that was not. -/
theorem Pending.of_verify (ho : o < p.count) (hp : (p.verify i).Pending o) :
    p.Pending o ∧ i ≠ o := by
  obtain ⟨hf, hv⟩ := hp
  rw [verify_isVerified ho, Bool.or_eq_false_iff] at hv
  have hn : i ≠ o := by simpa using hv.1
  exact ⟨⟨(verify_filled hn).mp hf, hv.2⟩, hn⟩

@[simp] theorem reject_size (ps : Parts) (i : Nat) : (ps.reject i).size = ps.size := rfl

@[simp] theorem reject_count (ps : Parts) (i : Nat) :
    (ps.reject i).count = ps.count := List.length_set

theorem reject_isVerified (hv : p.isVerified i = false) :
    (p.reject i).isVerified o = p.isVerified o := by
  by_cases he : i = o
  · subst he
    by_cases hl : i < p.verified.length
    · simpa [isVerified, reject, List.getD_eq_getElem?_getD,
        List.getElem?_set_self hl] using hv.symm
    · simp [isVerified, reject, List.getD_eq_getElem?_getD, hl]
  · simp [isVerified, reject, List.getD_eq_getElem?_getD, List.getElem?_set_ne he]

theorem mem_reject : ot ∈ (p.reject i).received ↔ ot ∈ p.received ∧ ¬ p.In i ot :=
  RangeSet.mem_remove

/-- A rejected part is no longer there, and no other part is touched. -/
theorem Pending.of_reject (hs : p.Shaped size) (hv : p.isVerified i = false) (hot : o < p.count)
    (hp : (p.reject i).Pending o) : p.Pending o ∧ o ≠ i := by
  obtain ⟨hf, ho⟩ := hp
  rw [reject_isVerified hv] at ho
  rw [filled_iff] at hf
  have hk : ∀ x, p.In o x → x ∈ p.received ∧ ¬ p.In i x :=
    fun x hi => mem_reject.mp (hf x hi)
  constructor
  · exact ⟨filled_iff.mpr fun x hi => (hk x hi).1, ho⟩
  · intro he
    have hb := hs.in_begin hot
    exact (hk _ hb).2 (he ▸ hb)

end

section

variable (p : Parts) (b s : Int)

@[simp] theorem add_size : (p.add b s).2.size = p.size := by
  simp only [add]
  split <;> rfl

@[simp] theorem add_verified : (p.add b s).2.verified = p.verified := by
  simp only [add]
  split <;> rfl

theorem add_count : (p.add b s).2.count = p.count := by
  rw [count, add_verified, count]

theorem add_isVerified (i : Nat) : (p.add b s).2.isVerified i = p.isVerified i := by
  rw [isVerified, add_verified, isVerified]

theorem add_part (i : Nat) : (p.add b s).2.part i = p.part i := by
  rw [part, add_size, part]

end

variable {p : Parts} {b s ot : Int} {i : Nat}

theorem add_in : (p.add b s).2.In i ot ↔ p.In i ot := by
  rw [In, add_part, In]

theorem mem_addBytes :
    ot ∈ (p.add b s).2.received ↔ ot ∈ p.received ∨ (max b 0 ≤ ot ∧ ot < min s p.size) := by
  simp only [add]
  split
  · rename_i hg
    constructor
    · exact .inl
    · rintro (hm | hm)
      · exact hm
      · omega
  · exact RangeSet.mem_add

/-- What `add` returns: the first part in the range that is pending then. -/
theorem add_fst (hl : max b 0 < min s p.size) :
    (p.add b s).1 = (List.range' (partOf (max b 0))
        (partOf (min s p.size - 1) + 1 - partOf (max b 0))).find?
        fun i => !(p.add b s).2.isVerified i && (p.add b s).2.filled i := by
  simp only [add, not_le.mpr hl, ↓reduceIte]

theorem partOf_mono {left right : Int} (hl : left ≤ right) : partOf left ≤ partOf right :=
  Int.toNat_le_toNat (Int.ediv_le_ediv pieceLength_pos hl)

/-- A part that became pending is among those `add` looks at. -/
theorem mem_range_of_in (b s : Int) (hi : p.In i ot) (hlo : b ≤ ot) (hh : ot < s) :
    i ∈ List.range' (partOf b) (partOf (s - 1) + 1 - partOf b) := by
  have hl := partOf_mono hlo
  have hr : partOf ot ≤ partOf (s - 1) := partOf_mono (by omega)
  rw [hi.partOf] at hl hr
  rw [List.mem_range'_1]
  omega

/-- A part that `add` looks at has bytes of the range. -/
theorem in_of_mem_range (ps : Parts) (hp : 0 ≤ b) (hl : b < s) (hs : s ≤ ps.size)
    (hm : i ∈ List.range' (partOf b) (partOf (s - 1) + 1 - partOf b)) :
    ps.In i (max b (i * pieceLength)) ∧ max b (i * pieceLength) < s := by
  rw [List.mem_range'_1] at hm
  rw [in_iff]
  simp only [partOf, pieceLength] at hm ⊢
  omega

/-- Data inside one part: no other part is filled by it, and when the part is
pending then, `add` names it. -/
theorem add_within (p : Parts) (hl : i * pieceLength ≤ b) (hlt : b < s)
    (hh : s ≤ min (i * pieceLength + pieceLength) p.size) :
    (∀ o, o ≠ i → (p.add b s).2.Pending o → p.Pending o) ∧
    ((p.add b s).2.Pending i → (p.add b s).1 = some i) := by
  have hp : 0 ≤ b := by
    simp only [pieceLength] at hl
    omega
  have hi : ∀ x, b ≤ x → x < s → p.In i x := by
    intro x hl' hh'
    rw [in_iff]
    omega
  constructor
  · rintro o hn ⟨hf, hv⟩
    rw [add_isVerified] at hv
    refine ⟨filled_iff.mpr fun x ho => ?_, hv⟩
    have hm := filled_iff.mp hf x (add_in.mpr ho)
    rcases mem_addBytes.mp hm with hm | ⟨hl', hh'⟩
    · exact hm
    · exact absurd (ho.unique (hi x (by omega) (by omega))) hn
  · rintro ⟨hf, hv⟩
    have hb : max b 0 = b := by omega
    have hs : min s p.size = s := by omega
    rw [add_fst (by omega), hb, hs, (hi b (le_refl _) hlt).partOf,
      (hi (s - 1) (by omega) (by omega)).partOf, Nat.add_sub_cancel_left]
    simp [hf, hv]

end Aria2Next.Parts
