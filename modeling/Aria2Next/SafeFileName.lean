/-
File names from the network (`base/Path`): `safeFileName` replaces what a file
system does not take, trims, keeps clear of the device names and cuts what is
too long.  The cut is made last, so it can leave a blank or a dot at the end.
-/
import Aria2Next.Utf8

namespace Aria2Next.Text

open List

def isReserved (c : UInt8) : Bool :=
  c < 0x20 || c = 0x7f || c = 0x2f || c = 0x5c || c = 0x3a || c = 0x2a || c = 0x3f || c = 0x22 ||
    c = 0x3c || c = 0x3e || c = 0x7c

/-- A dot or a blank, which no name ends with. -/
def isTrailing (c : UInt8) : Bool := c = 0x2e || c = 0x20

variable (input : Text)

/-- The name with its reserved characters replaced, in UTF-8. -/
def replaced : Text :=
  let name := input.map fun c => if isReserved c then 0x5f else c
  if isUtf8 name then name else latin1ToUtf8 name

/-- The name behind the two loops that trim it. -/
def cleaned : Text :=
  ((replaced input).rdropWhile isTrailing).dropWhile (· = 0x20)

def stem (name : Text) : Text := lower (name.takeWhile (· ≠ 0x2e))

def isDevice (name : Text) : Bool :=
  let stem := stem name
  stem = of "con" || stem = of "prn" || stem = of "aux" || stem = of "nul" ||
    (stem.length = 4 && ((of "com").isPrefixOf stem || (of "lpt").isPrefixOf stem) &&
      stem[3]?.any fun digit => 0x31 ≤ digit && digit ≤ 0x39)

def marked (name : Text) : Text := if isDevice name then 0x5f :: name else name

/-- The last dot and what follows it, when this is short. -/
def extension (name : Text) : Text :=
  let after := name.rtakeWhile (· ≠ 0x2e)
  if 0x2e ∈ name ∧ after.length + 1 < 32 then 0x2e :: after else []

/-- The loop after `resize`: bytes are taken off until the rest is UTF-8. -/
def utf8Prefix (name : Text) : Nat → Text
  | 0 => []
  | size + 1 => if isUtf8 (name.take (size + 1)) then name.take (size + 1) else utf8Prefix name size

def nameLimit : Nat := 240

def shortened (name : Text) : Text :=
  if name.length > nameLimit then
    utf8Prefix name (nameLimit - (extension name).length) ++ extension name
  else name

def safeFileName : Text :=
  let name := cleaned input
  if name.isEmpty then [] else shortened (marked name)

/-- A name that needs no change but for its length. -/
structure Tidy (name : Text) : Prop where
  utf8 : isUtf8 name = true
  plain : ∀ c ∈ name, isReserved c = false
  start : name.head? ≠ some 0x20
  last : ∀ c ∈ name.getLast?, isTrailing c = false
  device : isDevice name = false

structure SafeName (name : Text) : Prop extends Tidy name where
  length_le : name.length ≤ nameLimit

variable {name n : Text} {s : Nat}

theorem isTrailing_lt {c : UInt8} (hc : isTrailing c = true) : c < 0x80 := by
  rcases (Bool.or_eq_true _ _).mp hc with h | h
  · rw [of_decide_eq_true h]
    decide
  · rw [of_decide_eq_true h]
    decide

theorem isUtf8_rdropWhile (hv : isUtf8 n = true) : isUtf8 (n.rdropWhile isTrailing) = true := by
  induction n using List.reverseRecOn with
  | nil => rfl
  | append_singleton n c ih =>
    by_cases hc : isTrailing c = true
    · rw [rdropWhile_concat_pos _ _ _ hc]
      exact ih (isUtf8_left (isTrailing_lt hc) hv)
    · rwa [rdropWhile_concat_neg _ _ _ hc]

theorem isUtf8_dropWhile (hv : isUtf8 n = true) : isUtf8 (n.dropWhile (· = 0x20)) = true := by
  induction n with
  | nil => rfl
  | cons c r ih =>
    by_cases hc : c = 0x20
    · subst hc
      have ha := isUtf8_append (isUtf8_ascii (show (0x20 : UInt8) < 0x80 by decide)) r
      exact ih (ha ▸ hv)
    · rwa [dropWhile_cons_of_neg (by simpa using hc)]

theorem isReserved_latin1 (v : Text) (hv : ∀ c ∈ v, isReserved c = false) :
    ∀ c ∈ latin1ToUtf8 v, isReserved c = false := by
  have hb := forall_byte (p := fun c => isReserved c = false → (latin1Byte c).any isReserved = false)
    (by decide +kernel)
  intro d hd
  obtain ⟨c, hc, hm⟩ := mem_flatMap.mp hd
  exact Bool.eq_false_iff.mpr (any_eq_false.mp (hb c (hv c hc)) d hm)

theorem cleaned_utf8 : isUtf8 (cleaned input) = true := by
  refine isUtf8_dropWhile (isUtf8_rdropWhile ?_)
  rw [replaced]
  split
  · assumption
  · exact isUtf8_latin1 _

theorem cleaned_plain : ∀ c ∈ cleaned input, isReserved c = false := by
  have hm : ∀ c ∈ input.map fun c => if isReserved c then 0x5f else c, isReserved c = false := by
    intro c hc
    obtain ⟨b, _, rfl⟩ := mem_map.mp hc
    split_ifs with hr
    · rfl
    · exact (Bool.not_eq_true _).mp hr
  intro c hc
  replace hc := ( rdropWhile_prefix isTrailing _).subset ((dropWhile_sublist _).subset hc)
  rw [replaced] at hc
  split at hc
  · exact hm c hc
  · exact isReserved_latin1 _ hm c hc

theorem cleaned_start : (cleaned input).head? ≠ some 0x20 := by
  intro hs
  have hn := head?_dropWhile_not (fun c : UInt8 => c = 0x20)
    ((replaced input).rdropWhile isTrailing)
  rw [← cleaned, hs] at hn
  exact absurd hn (by decide)

theorem cleaned_last : ∀ c ∈ (cleaned input).getLast?, isTrailing c = false := by
  intro c hc
  obtain ⟨hn, rfl⟩ := mem_getLast?_eq_getLast hc
  have hl := (dropWhile_suffix _).getLast hn
  rw [← Bool.not_eq_true]
  exact hl ▸ rdropWhile_last_not _ _ _

theorem isDevice_mark (n : Text) : isDevice (0x5f :: n) = false := by
  have hs : stem (0x5f :: n) = 0x5f :: stem n := by
    rfl
  have hl : of "con" = [0x63, 0x6f, 0x6e] ∧ of "prn" = [0x70, 0x72, 0x6e] ∧
      of "aux" = [0x61, 0x75, 0x78] ∧ of "nul" = [0x6e, 0x75, 0x6c] ∧
      of "com" = [0x63, 0x6f, 0x6d] ∧ of "lpt" = [0x6c, 0x70, 0x74] := by decide +kernel
  simp [isDevice, hs, hl]

/-- A device name is short. -/
theorem length_stem (hd : isDevice n = true) : (stem n).length ≤ 4 := by
  have hl : (of "con").length = 3 ∧ (of "prn").length = 3 ∧ (of "aux").length = 3 ∧
      (of "nul").length = 3 := by decide +kernel
  simp only [isDevice, Bool.or_eq_true, Bool.and_eq_true, decide_eq_true_eq] at hd
  rcases hd with (((h | h) | h) | h) | ⟨⟨h, _⟩, _⟩
  case inr => omega
  all_goals
    rw [h]
    omega

theorem marked_tidy {i : Text} (hn : cleaned i ≠ []) : Tidy (marked (cleaned i)) := by
  rw [marked]
  split_ifs with hd
  · refine ⟨?_, ?_, by simp, ?_, isDevice_mark _⟩
    · exact (isUtf8_append (isUtf8_ascii (show (0x5f : UInt8) < 0x80 by decide)) _).trans
        (cleaned_utf8 i)
    · exact forall_mem_cons.mpr ⟨rfl, cleaned_plain i⟩
    · rw [getLast?_cons_of_ne_nil hn]
      exact cleaned_last i
  · exact ⟨cleaned_utf8 i, cleaned_plain i, cleaned_start i, cleaned_last i,
      (Bool.not_eq_true _).mp hd⟩

theorem extension_eq (n : Text) :
    extension n = [] ∨ ∃ b a, n = b ++ 0x2e :: a ∧ extension n = 0x2e :: a ∧ a.length + 1 < 32 := by
  rw [extension]
  split_ifs with he
  · right
    have hn : n.rdropWhile (· ≠ 0x2e) ≠ [] := by
      intro hn
      simpa using rdropWhile_eq_nil_iff.mp hn _ he.1
    have hl : (n.rdropWhile (· ≠ 0x2e)).getLast hn = 0x2e := by
      simpa using rdropWhile_last_not _ n hn
    refine ⟨(n.rdropWhile (· ≠ 0x2e)).dropLast, n.rtakeWhile (· ≠ 0x2e), ?_, rfl, he.2⟩
    have hd := dropLast_append_getLast hn
    rw [hl] at hd
    rw [← singleton_append, ← append_assoc, hd, rdropWhile_append_rtakeWhile]
  · exact .inl rfl

theorem utf8Prefix_spec (n : Text) (s : Nat) :
    utf8Prefix n s <+: n ∧ isUtf8 (utf8Prefix n s) = true ∧ (utf8Prefix n s).length ≤ s := by
  induction s with
  | zero => exact ⟨ nil_prefix, rfl, le_refl _⟩
  | succ s ih =>
    rw [utf8Prefix]
    split_ifs with hu
    · exact ⟨ take_prefix _ _, hu, length_take_le _ _⟩
    · exact ⟨ih.1, ih.2.1, ih.2.2.trans (Nat.le_succ _)⟩

theorem le_utf8Prefix {l : Nat} (hu : isUtf8 (n.take l) = true) (hs : l ≤ s) (hn : l ≤ n.length) :
    l ≤ (utf8Prefix n s).length := by
  induction s with
  | zero => omega
  | succ s ih =>
    rw [utf8Prefix]
    split_ifs with ht
    · rw [length_take]
      omega
    · refine ih (Nat.le_of_lt_succ (lt_of_le_of_ne hs ?_))
      rintro rfl
      exact ht hu

/-- Some character ends among any four bytes. -/
theorem exists_take_utf8 (hu : isUtf8 n = true) (hs : s ≤ n.length) :
    ∃ l ≤ s, s < l + 4 ∧ isUtf8 (n.take l) = true := by
  obtain ⟨cs, rfl⟩ := isUtf8_iff.mp hu
  clear hu
  induction cs generalizing s with
  | nil => exact ⟨0, Nat.zero_le _, by simpa using Nat.lt_of_le_of_lt hs (by simp), rfl⟩
  | cons ch rest ih =>
    rw [flatMap_cons, length_append] at hs
    obtain ⟨c, next, he, hw⟩ := encode_wellFormed ch
    have hl : (String.utf8EncodeChar ch).length ≤ 4 := by
      rw [he, length_cons, ← hw.1]
      exact (sequenceLength_iff c).2.2.2.2
    by_cases hc : s < (String.utf8EncodeChar ch).length
    · exact ⟨0, Nat.zero_le _, by omega, rfl⟩
    · obtain ⟨l, hl, hls, ht⟩ := @ih (s - (String.utf8EncodeChar ch).length) (by omega)
      refine ⟨(String.utf8EncodeChar ch).length + l, by omega, by omega, ?_⟩
      rwa [flatMap_cons, take_length_add_append, (encode_append ch _).1]

theorem stem_append {left : Text} (hd : 0x2e ∈ left) (right : Text) :
    stem (left ++ right) = stem left := by
  rw [stem, stem, takeWhile_append, if_neg]
  intro hl
  have ht := ( takeWhile_prefix (l := left) (· ≠ 0x2e)).eq_of_length hl
  simpa using takeWhile_eq_self_iff.mp ht _ hd

/-- What is left of a name is no device name when five bytes of it are left. -/
theorem isDevice_append {left : Text} (hd : isDevice n = false) (hl : left <+: n)
    (h4 : 4 < left.length) (right : Text) : isDevice (left ++ right) = false := by
  by_cases hm : 0x2e ∈ left
  · obtain ⟨r, rfl⟩ := hl
    rw [isDevice, stem_append hm] at hd ⊢
    exact hd
  · by_contra hv
    have hs := length_stem ((Bool.not_eq_false _).mp hv)
    have ha : ∀ c ∈ left, decide (c ≠ 0x2e) = true := by
      intro c hc
      exact decide_eq_true fun he => hm (he ▸ hc)
    rw [stem, takeWhile_append_of_pos ha, lower, length_map, length_append] at hs
    omega

/-- The cut ends in a blank or a dot. -/
def CutShort (name : Text) : Prop :=
  nameLimit < name.length ∧ extension name = [] ∧
    ∃ c ∈ (utf8Prefix name nameLimit).getLast?, isTrailing c = true

/-- The cut keeps all but the end of the name. -/
theorem Tidy.shortened (ht : Tidy n) (hc : ¬ CutShort n) : SafeName (shortened n) := by
  rw [Text.shortened]
  split_ifs with hl
  swap
  · exact ⟨ht, not_lt.mp hl⟩
  obtain ⟨hp, hu, hs⟩ := utf8Prefix_spec n (nameLimit - (extension n).length)
  have he : extension n <:+ n ∧ isUtf8 (extension n) = true ∧
      (extension n).length < 32 := by
    rcases extension_eq n with he | ⟨before, after, hn, he, ha⟩
    · rw [he]
      exact ⟨nil_suffix, rfl, by decide⟩
    · have hv := ht.utf8
      rw [hn] at hv
      rw [he]
      refine ⟨⟨before, hn.symm⟩, ?_, ha⟩
      rw [← isUtf8_append (isUtf8_left (by decide) hv), hv]
  have hm : 4 < (utf8Prefix n (nameLimit - (extension n).length)).length := by
    obtain ⟨least, hle, hlt, hlu⟩ := exists_take_utf8 ht.utf8
      (show nameLimit - (extension n).length ≤ _ by omega)
    have := le_utf8Prefix hlu hle (by omega)
    rw [nameLimit] at *
    omega
  have hn : utf8Prefix n (nameLimit - (extension n).length) ≠ [] :=
    ne_nil_of_length_pos (by omega)
  refine ⟨⟨?_, ?_, ?_, ?_, isDevice_append ht.device hp hm _⟩, ?_⟩
  · rw [isUtf8_append hu, he.2.1]
  · intro c hc
    rcases mem_append.mp hc with hc | hc
    · exact ht.plain c (hp.subset hc)
    · exact ht.plain c (he.1.subset hc)
  · rw [head?_append_of_ne_nil _ hn, head?_eq_some_head hn, hp.head hn, ← head?_eq_some_head]
    exact ht.start
  · intro c hlast
    by_cases hx : extension n = []
    · rw [hx, append_nil, length_nil, Nat.sub_zero] at hlast
      rw [← Bool.not_eq_true]
      intro hct
      exact hc ⟨hl, hx, c, hlast, hct⟩
    · rw [getLast?_append_of_ne_nil _ hx, getLast?_eq_some_getLast hx, he.1.getLast hx,
        ← getLast?_eq_some_getLast] at hlast
      exact ht.last c hlast
  · rw [length_append]
    rw [nameLimit] at *
    omega

/-- A safe name is left alone. -/
theorem SafeName.safeFileName_eq (hs : SafeName n) : safeFileName n = n := by
  have hr : replaced n = n := by
    have hm : n.map (fun c => if isReserved c then 0x5f else c) = n := by
      nth_rewrite 2 [← map_id n]
      exact map_congr_left fun c hc => if_neg (by simp [hs.plain c hc])
    rw [replaced, hm, if_pos hs.utf8]
  have hc : cleaned n = n := by
    have hd : n.rdropWhile isTrailing = n := by
      rw [rdropWhile_eq_self_iff]
      intro hn
      rw [hs.last _ (getLast?_eq_some_getLast hn)]
      decide
    rw [cleaned, hr, hd]
    cases n with
    | nil => rfl
    | cons c r => exact dropWhile_cons_of_neg (by simpa using hs.start)
  rw [safeFileName, hc]
  split_ifs with he
  · exact (isEmpty_iff.mp he).symm
  · rw [marked, if_neg (by simp [hs.device]), Text.shortened, if_neg (not_lt.mpr hs.length_le)]

end Aria2Next.Text
