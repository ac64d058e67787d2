/-
Byte strings and the text helpers of `base/Text`.
-/
import Mathlib

namespace Aria2Next

open List

/-- A `std::string`: any bytes. -/
abbrev Text := List UInt8

instance linearOrderUInt8 : LinearOrder UInt8 where
  le_refl := UInt8.le_refl
  le_trans _ _ _ := UInt8.le_trans
  le_antisymm _ _ := UInt8.le_antisymm
  le_total := UInt8.le_total
  lt_iff_le_not_ge _ _ := by
    rw [UInt8.not_le]
    exact ⟨fun hl => ⟨UInt8.le_of_lt hl, hl⟩, And.right⟩
  toDecidableLE := inferInstance
  toDecidableEq := inferInstance
  toDecidableLT := inferInstance

instance lawfulBEqUInt8 : LawfulBEq UInt8 := inferInstance

namespace Text

/-- The bytes of a literal. -/
def of (literal : String) : Text := literal.toUTF8.toList

/-- The characters `trim` takes off: blank, tab, CR, LF, VT and FF. -/
def isSpace (byte : UInt8) : Bool :=
  byte = 0x20 || byte = 0x09 || byte = 0x0d || byte = 0x0a || byte = 0x0b || byte = 0x0c

def trim (value : Text) : Text := (value.dropWhile isSpace).rdropWhile isSpace

/-- The trimmed pieces between the separators; empty ones only on request. -/
def split (value : Text) (separator : UInt8) (keepEmpty : Bool := false) :
    List Text :=
  ((value.splitOn separator).map trim).filter fun part =>
    keepEmpty || !part.isEmpty

/-- The glue stands between values, unless everything before was empty. -/
def join (values : List Text) (glue : Text) : Text := values.foldl (fun result value =>
    (if result.isEmpty then result else result ++ glue) ++ value) []

def lowerByte (byte : UInt8) : UInt8 :=
  if 0x41 ≤ byte ∧ byte ≤ 0x5a then byte - 0x41 + 0x61 else byte

def lower (value : Text) : Text := value.map lowerByte

def iequals (a b : Text) : Bool := a.length = b.length && lower a = lower b

def istartsWith (value start : Text) : Bool :=
  value.length ≥ start.length && iequals (value.take start.length) start

variable {b : UInt8} {start v : Text} {vl : List Text}

theorem not_isSpace_lowerByte (hl : isSpace (lowerByte b) = false) : isSpace b = false := by
  by_contra hs
  rw [Bool.not_eq_false] at hs
  have hsa : lowerByte b = b := by
    simp only [isSpace, Bool.or_eq_true, decide_eq_true_eq] at hs
    rcases hs with ((((rfl | rfl) | rfl) | rfl) | rfl) | rfl <;> decide
  rw [hsa, hs] at hl
  exact absurd hl (by decide)

theorem istartsWith_append {n : Text} (hn : lower n = lower start) (r : Text) :
    istartsWith (n ++ r) start = true := by
  have hl : n.length = start.length := by
    have := congrArg List.length hn
    rwa [lower, lower, length_map, length_map] at this
  simp [istartsWith, iequals, ← hl, hn]

theorem lower_take_of_istartsWith (hs : istartsWith v start = true) :
    lower (v.take start.length) = lower start := by
  simp only [istartsWith, iequals, Bool.and_eq_true, decide_eq_true_eq] at hs
  exact hs.2.2

/-- A byte is found behind the text it does not occur in. -/
theorem idxOf?_append_cons {left : Text} (hl : b ∉ left) (right : Text) :
    (left ++ b :: right).idxOf? b = some left.length := by
  induction left with
  | nil => simp [List.idxOf?_cons]
  | cons head left ih =>
    rw [mem_cons, not_or] at hl
    simp [List.idxOf?_cons, Ne.symm hl.1, ih hl.2]

/-- What stands in front of a byte that stays is not looked at. -/
theorem rdropWhile_append_cons (p : UInt8 → Bool) (left : Text) {s : UInt8} (hs : p s = false)
    (right : Text) : (left ++ s :: right).rdropWhile p = left ++ s :: right.rdropWhile p := by
  induction right using List.reverseRecOn with
  | nil =>
    rw [rdropWhile_concat_neg p left s (by simp [hs])]
    rfl
  | append_singleton right l ih =>
    have ha : left ++ s :: (right ++ [l]) = (left ++ s :: right) ++ [l] := by simp
    rw [ha]
    by_cases hl : p l = true
    · rw [rdropWhile_concat_pos _ _ _ hl, ih, rdropWhile_concat_pos _ _ _ hl]
    · rw [rdropWhile_concat_neg _ _ _ hl, rdropWhile_concat_neg _ _ _ hl]
      simp

theorem trim_eq_self_iff (v : Text) :
    trim v = v ↔ ∀ hn : v ≠ [], isSpace (v.head hn) = false ∧ isSpace (v.getLast hn) = false := by
  have hf : v.dropWhile isSpace = v ↔ ∀ hn : v ≠ [], isSpace (v.head hn) = false := by
    cases v with
    | nil => simp
    | cons b r =>
      simp only [head_cons, ne_eq, reduceCtorEq, not_false_eq_true, forall_true_left]
      constructor
      · intro hs
        by_contra hsp
        rw [dropWhile_cons_of_pos ((Bool.not_eq_false _).mp hsp)] at hs
        have hl := congrArg List.length hs
        have hle := (dropWhile_sublist isSpace (l := r)).length_le
        simp only [length_cons] at hl
        omega
      · intro hsp
        exact dropWhile_cons_of_neg (by simp [hsp])
  constructor
  · intro hs
    have hdr : v.dropWhile isSpace = v := by
      apply (dropWhile_sublist isSpace).eq_of_length_le
      have hle := ( rdropWhile_prefix isSpace (v.dropWhile isSpace)).length_le
      rw [← trim, hs] at hle
      exact hle
    have hb : v.rdropWhile isSpace = v := by
      rw [trim, hdr] at hs
      exact hs
    intro hn
    rw [rdropWhile_eq_self_iff] at hb
    exact ⟨hf.mp hdr hn, by simpa using hb hn⟩
  · intro he
    rw [trim, hf.mpr (fun hn => (he hn).1), rdropWhile_eq_self_iff]
    intro hn
    simp [(he hn).2]

theorem trim_trim (v : Text) : trim (trim v) = trim v := by
  have hs : (trim v).dropWhile isSpace = trim v := by
    cases hdr : v.dropWhile isSpace with
    | nil => simp [trim, hdr]
    | cons b r =>
      have hb : isSpace b = false := by
        have hne : v.dropWhile isSpace ≠ [] := by simp [hdr]
        have hn := head_dropWhile_not isSpace hne
        simpa [hdr] using hn
      have hk := rdropWhile_append_cons isSpace [] hb r
      rw [nil_append] at hk
      rw [trim, hdr, hk]
      exact dropWhile_cons_of_neg (by simp [hb])
  rw [trim, hs]
  exact rdropWhile_idempotent _ _

theorem length_trim_le (v : Text) : (trim v).length ≤ v.length :=
  ( rdropWhile_prefix isSpace _).length_le.trans (dropWhile_sublist isSpace).length_le

theorem trim_of_not_space (hv : ∀ b ∈ v, isSpace b = false) : trim v = v := by
  rw [trim_eq_self_iff]
  intro hn
  exact ⟨hv _ (head_mem hn), hv _ (getLast_mem hn)⟩

theorem trim_surrounded {left m right : Text} (hl : ∀ b ∈ left, isSpace b = true)
    (hm : ∀ b ∈ m, isSpace b = false) (hr : ∀ b ∈ right, isSpace b = true) :
    trim (left ++ m ++ right) = m := by
  have hb : (m ++ right).rdropWhile isSpace = m.rdropWhile isSpace := by
    rw [List.rdropWhile, reverse_append, dropWhile_append_of_pos (by simpa using hr)]
    rfl
  have ht := trim_of_not_space hm
  rw [trim] at ht
  rw [trim, append_assoc, dropWhile_append_of_pos hl]
  cases m with
  | nil =>
    rw [nil_append, dropWhile_eq_nil_iff.mpr hr]
    rfl
  | cons b r =>
    have hn : ¬ isSpace b = true := by simp [hm b mem_cons_self]
    rw [dropWhile_cons_of_neg hn] at ht
    rw [cons_append, dropWhile_cons_of_neg hn, ← cons_append, hb, ht]

theorem trim_space_cons (v : Text) : trim (0x20 :: v) = trim v := by
  rfl

theorem notMem_of_mem_splitOn (v : Text) (s : UInt8) : ∀ p ∈ v.splitOn s, s ∉ p := by
  induction v with
  | nil => simp
  | cons b rest ih =>
    intro p hp
    rw [splitOn_cons_eq_if_modifyHead] at hp
    cases hr : rest.splitOn s with
    | nil => exact absurd hr (splitOn_ne_nil s rest)
    | cons first others =>
      rw [hr] at hp ih
      split at hp
      · rcases mem_cons.mp hp with rfl | hp
        · simp
        · exact ih p hp
      case isFalse hb =>
        rcases mem_cons.mp hp with rfl | hp
        · have hf := ih first mem_cons_self
          have hn : s ≠ b := by
            rintro rfl
            simp at hb
          simp [hn, hf]
        · exact ih p (mem_cons_of_mem first hp)

theorem mem_of_mem_trim (hb : b ∈ trim v) : b ∈ v :=
  (dropWhile_sublist isSpace).subset (( rdropWhile_prefix isSpace _).subset hb)

theorem intercalate_cons (g : Text) (r : List Text) :
    ∀ v : Text, g.intercalate (v :: r) = v ++ r.flatMap (g ++ ·) := by
  induction r with
  | nil => intro v; simp
  | cons next r ih =>
    intro v
    rw [intercalate_cons_cons, ih next]
    simp

theorem join_eq_intercalate {g : Text} (hv : ∀ v ∈ vl, v ≠ []) : join vl g = g.intercalate vl := by
  have hf : ∀ (re : List Text) (s : Text), s ≠ [] → re.foldl (fun r v =>
        (if r.isEmpty then r else r ++ g) ++ v) s =
        s ++ re.flatMap (g ++ ·) := by
    intro re
    induction re with
    | nil => intro s _; simp
    | cons v re ih =>
      intro s hs
      have hk : s.isEmpty = false := by simpa using hs
      rw [foldl_cons, hk, ih _ (by simp [hs])]
      simp
  cases vl with
  | nil => rfl
  | cons v re =>
    rw [join, foldl_cons]
    simp only [isEmpty_nil, if_true, nil_append]
    rw [hf re v (hv v mem_cons_self), intercalate_cons]

/-- What a separator joined it takes apart again. -/
theorem split_join {s : UInt8} (hn : vl ≠ []) (hva : ∀ v ∈ vl, v ≠ [] ∧ s ∉ v ∧ trim v = v) :
    split (join vl [s]) s = vl := by
  rw [join_eq_intercalate (fun v hv => (hva v hv).1), split,
    splitOn_intercalate s (fun v hv => (hva v hv).2.1) hn]
  have ht : vl.map trim = vl := by
    apply Eq.trans _ (map_id vl)
    apply map_congr_left
    intro v hv
    exact (hva v hv).2.2
  rw [ht, filter_eq_self]
  intro v hv
  simpa using (hva v hv).1

/-- Trimming and dropping pieces never makes the text longer. -/
theorem length_join_split_le (v : Text) (s : UInt8) : (join (split v s) [s]).length ≤ v.length := by
  have hl : ∀ ps : List Text, ps ≠ [] → ([s].intercalate ps).length + 1 =
        (ps.map fun p => p.length + 1).sum := by
    intro ps hne
    induction ps with
    | nil => exact absurd rfl hne
    | cons p r ih =>
      cases r with
      | nil => simp
      | cons next r =>
        have hr := ih (by simp)
        rw [intercalate_cons_cons, map_cons, sum_cons]
        simp only [length_append, length_cons, length_nil]
        omega
  have hle : ∀ ps : List Text,
      (((ps.map trim).filter fun pa => false || !pa.isEmpty).map
        fun p => p.length + 1).sum ≤ (ps.map fun p => p.length + 1).sum := by
    intro ps
    induction ps with
    | nil => simp
    | cons p r ih =>
      have hpi := length_trim_le p
      rw [map_cons, filter_cons, map_cons, sum_cons]
      split
      · rw [map_cons, sum_cons]
        omega
      · omega
  have hp : ∀ pa ∈ split v s, pa ≠ [] := by
    intro pa hpa
    simpa using (mem_filter.mp hpa).2
  rw [join_eq_intercalate hp]
  by_cases hn : split v s = []
  · rw [hn]
    exact Nat.zero_le _
  · have hj := hl _ hn
    have hw := hl _ (splitOn_ne_nil s v)
    rw [intercalate_splitOn] at hw
    have hs := hle (v.splitOn s)
    rw [split] at hj ⊢
    omega

/-- What holds of the 256 bytes holds of every byte. -/
theorem forall_byte {p : UInt8 → Prop} (ha : ∀ v < 256, p (UInt8.ofNat v)) (b : UInt8) : p b := by
  have hb := ha b.toNat b.toNat_lt
  rwa [UInt8.ofNat_toNat] at hb

theorem not_space_of_lt (hb : 0x20 < b) : isSpace b = false :=
  forall_byte (p := fun b => 0x20 < b → isSpace b = false) (by decide +kernel) b hb

theorem ofNat_eq {n : Nat} (b : UInt8) (hn : n = b.toNat) : UInt8.ofNat n = b := by
  rw [hn, UInt8.ofNat_toNat]

theorem toList_loop (bs : ByteArray) (r : Nat) :
    ∀ (i : Nat) (s : Text), r = bs.size - i →
      ByteArray.toList.loop bs i s = s.reverse ++ bs.data.toList.drop i := by
  induction r with
  | zero =>
    intro i s hr
    have he : bs.data.toList.length ≤ i := by
      change bs.size ≤ i
      omega
    rw [ByteArray.toList.loop, if_neg (by omega), drop_eq_nil_of_le he, append_nil]
  | succ r ih =>
    intro i s hr
    have hi : i < bs.data.toList.length := by
      change i < bs.size
      omega
    rw [ByteArray.toList.loop, if_pos (by omega), ih _ _ (by omega),
      drop_eq_getElem_cons hi, reverse_cons, append_assoc]
    have hb : bs.get! i = bs.data.toList[i] := getElem!_pos bs.data i hi
    rw [hb]
    rfl

theorem of_eq (l : String) : of l = l.toUTF8.data.toList := by
  exact toList_loop l.toUTF8 _ 0 [] rfl

theorem of_injective {left right : String} (hs : of left = of right) : left = right := by
  rw [of_eq, of_eq] at hs
  apply String.toByteArray_inj.mp
  exact ByteArray.ext (Array.ext' hs)

theorem of_ofList {cs : List Char} (ha : ∀ c ∈ cs, c.toNat ≤ 127) :
    of (String.ofList cs) = cs.map fun c => c.toNat.toUInt8 := by
  have hb : (String.ofList cs).toUTF8 =
      (cs.flatMap String.utf8EncodeChar).toByteArray := rfl
  rw [of_eq, hb, data_toByteArray]
  induction cs with
  | nil => rfl
  | cons c r ih =>
    rw [forall_mem_cons] at ha
    have ho : String.utf8EncodeChar c = [c.toNat.toUInt8] := if_pos ha.1
    have hr := ih ha.2 rfl
    rw [flatMap_cons, ho]
    exact congrArg (c.toNat.toUInt8 :: ·) hr

end Text

end Aria2Next
