/-
UTF-8 in `base/Text`: the test for well-formed text and its repair.  What is
well-formed is said by the encoding of the characters of Lean, which are the
Unicode scalar values.
-/
import Aria2Next.Text

namespace Aria2Next.Text

open List

open String (utf8EncodeChar)

/-- The length that a first byte announces. -/
def sequenceLength (c : UInt8) : Nat :=
  if c < 0x80 then 1
  else if c >>> 5 = 0x6 then 2
  else if c >>> 4 = 0xe then 3
  else if c >>> 3 = 0x1e then 4
  else 0

/-- The loop over the bytes behind the first: six bits from each. -/
def continued (code : Nat) : Nat → Text → Option Nat
  | 0, _ => some code
  | more + 1, next :: rest =>
    if next &&& 0xc0 ≠ 0x80 then none
    else continued (code <<< 6 ||| (next &&& 0x3f).toNat) more rest
  | _ + 1, [] => none

/-- Length of the well-formed sequence that the text starts with, or 0. -/
def utf8Sequence : Text → Nat
  | [] => 0
  | c :: rest =>
    let length := sequenceLength c
    if length = 0 ∨ 1 + rest.length < length ∨ (length = 2 ∧ c < 0xc2) ∨ (length = 4 ∧ c > 0xf4)
    then 0
    else
      let lead := if length = 1 then c else c &&& (0x7f >>> UInt8.ofNat length)
      match continued lead.toNat (length - 1) rest with
      | none => 0
      | some code =>
        if (length = 3 ∧ (code < 0x800 ∨ (code ≥ 0xd800 ∧ code ≤ 0xdfff))) ∨
            (length = 4 ∧ (code < 0x10000 ∨ code > 0x10ffff))
        then 0 else length

/-- The loop of `isUtf8`; `skip` bytes belong to the last sequence. -/
def isUtf8From : Nat → Text → Bool
  | _, [] => true
  | skip + 1, _ :: rest => isUtf8From skip rest
  | 0, byte :: rest =>
    match utf8Sequence (byte :: rest) with
    | 0 => false
    | length + 1 => isUtf8From length rest

def isUtf8 (value : Text) : Bool := isUtf8From 0 value

/-- The loop of `repairUtf8`; a byte that starts no sequence becomes U+FFFD. -/
def repairFrom : Nat → Text → Text
  | _, [] => []
  | skip + 1, byte :: rest => byte :: repairFrom skip rest
  | 0, byte :: rest =>
    match utf8Sequence (byte :: rest) with
    | 0 => 0xef :: 0xbf :: 0xbd :: repairFrom 0 rest
    | length + 1 => byte :: repairFrom length rest

def repairUtf8 (value : Text) : Text := repairFrom 0 value

/-- A byte as the character of its number. -/
def latin1Byte (c : UInt8) : Text :=
  if c < 0x80 then [c] else [(0xc0 : UInt8) ||| c >>> 6, (0x80 : UInt8) ||| (c &&& 0x3f)]

def latin1ToUtf8 (value : Text) : Text := value.flatMap latin1Byte

theorem sequenceLength_iff (c : UInt8) :
    (sequenceLength c = 1 ↔ c.toNat < 128) ∧
      (sequenceLength c = 2 ↔ 192 ≤ c.toNat ∧ c.toNat < 224) ∧
      (sequenceLength c = 3 ↔ 224 ≤ c.toNat ∧ c.toNat < 240) ∧
      (sequenceLength c = 4 ↔ 240 ≤ c.toNat ∧ c.toNat < 248) ∧ sequenceLength c ≤ 4 :=
  forall_byte (p := fun c => (sequenceLength c = 1 ↔ c.toNat < 128) ∧
      (sequenceLength c = 2 ↔ 192 ≤ c.toNat ∧ c.toNat < 224) ∧
      (sequenceLength c = 3 ↔ 224 ≤ c.toNat ∧ c.toNat < 240) ∧
      (sequenceLength c = 4 ↔ 240 ≤ c.toNat ∧ c.toNat < 248) ∧ sequenceLength c ≤ 4)
    (by decide +kernel) c

/-- What the masks take from a byte. -/
theorem masked (c : UInt8) :
    (c &&& 0xc0 = 0x80 ↔ 128 ≤ c.toNat ∧ c.toNat < 192) ∧ (c &&& 0x3f).toNat = c.toNat % 64 ∧
      (c &&& 0x1f).toNat = c.toNat % 32 ∧ (c &&& 0xf).toNat = c.toNat % 16 ∧
      (c &&& 0x7).toNat = c.toNat % 8 :=
  forall_byte (p := fun c =>
    (c &&& 0xc0 = 0x80 ↔ 128 ≤ c.toNat ∧ c.toNat < 192) ∧ (c &&& 0x3f).toNat = c.toNat % 64 ∧
      (c &&& 0x1f).toNat = c.toNat % 32 ∧ (c &&& 0xf).toNat = c.toNat % 16 ∧
      (c &&& 0x7).toNat = c.toNat % 8) (by decide +kernel) c

variable {c : UInt8} {more code cd : Nat} {text v : Text} {pieces p : List (Char ⊕ UInt8)}

/-- The number that a first byte starts with. -/
theorem lead_toNat (hl : sequenceLength c = more + 1) :
    (if more + 1 = 1 then c else c &&& (0x7f >>> UInt8.ofNat (more + 1))).toNat =
      c.toNat % (if more = 0 then 128 else 2 ^ (6 - more)) := by
  obtain ⟨_, _, h₂, h₃, h₄⟩ := masked c
  obtain ⟨h₁, _, _, _, hm⟩ := sequenceLength_iff c
  match more with
  | 0 => exact (Nat.mod_eq_of_lt (h₁.mp hl)).symm
  | 1 => exact h₂
  | 2 => exact h₃
  | 3 => exact h₄
  | more + 4 => omega

/-- The bytes behind the first are continuation bytes, and each brings six
bits. -/
theorem continued_eq_some {result : Nat} :
    continued cd more text = some result ↔ ∃ next rest, text = next ++ rest ∧
      next.length = more ∧ (∀ byte ∈ next, 128 ≤ byte.toNat ∧ byte.toNat < 192) ∧
      result = next.foldl (fun cd byte => cd * 64 + byte.toNat % 64) cd := by
  induction more generalizing cd text with
  | zero =>
    simp only [continued, Option.some.injEq, length_eq_zero_iff]
    constructor
    · rintro rfl
      exact ⟨[], text, rfl, rfl, by simp, rfl⟩
    · rintro ⟨_, _, _, rfl, _, rfl⟩
      rfl
  | succ more ih =>
    cases text with
    | nil =>
      simp only [continued, reduceCtorEq, false_iff]
      rintro ⟨next, rest, ht, hl, _⟩
      have := congrArg List.length ht
      simp only [length_nil, length_append] at this
      omega
    | cons byte text =>
      obtain ⟨hc, hm, _⟩ := masked byte
      rw [continued, hm, ← Nat.shiftLeft_add_eq_or_of_lt (Nat.mod_lt _ (by decide)),
        Nat.shiftLeft_eq]
      simp only [ne_eq, hc, ite_not]
      constructor
      · intro h
        split_ifs at h with hb
        obtain ⟨next, rest, rfl, rfl, hn, rfl⟩ := ih.mp h
        exact ⟨byte :: next, rest, rfl, rfl, forall_mem_cons.mpr ⟨hb, hn⟩, rfl⟩
      · rintro ⟨_ | ⟨head, next⟩, rest, ht, hl, hn, rfl⟩
        · exact absurd hl (by simp)
        · obtain ⟨rfl, rfl⟩ := List.cons.inj ht
          obtain ⟨hb, hn⟩ := forall_mem_cons.mp hn
          rw [if_pos hb]
          exact ih.mpr ⟨next, rest, rfl, Nat.succ.inj hl, hn, rfl⟩

/-- The code of a first byte and the bytes behind it. -/
def codeOf (c : UInt8) (next : Text) : Nat :=
  next.foldl (fun code byte => code * 64 + byte.toNat % 64)
    (c.toNat % (if next.length = 0 then 128 else 2 ^ (6 - next.length)))

theorem codeOf_nil (c : UInt8) : codeOf c [] = c.toNat % 128 := rfl

theorem codeOf_one (c a : UInt8) : codeOf c [a] = c.toNat % 32 * 64 + a.toNat % 64 := rfl

theorem codeOf_two (c a b : UInt8) :
    codeOf c [a, b] = (c.toNat % 16 * 64 + a.toNat % 64) * 64 + b.toNat % 64 := rfl

theorem codeOf_three (c a b d : UInt8) : codeOf c [a, b, d] =
    ((c.toNat % 8 * 64 + a.toNat % 64) * 64 + b.toNat % 64) * 64 + d.toNat % 64 := rfl

/-- A first byte with the continuation bytes it announces, for a code in the
range of this length. -/
def WellFormed (c : UInt8) (next : Text) : Prop :=
  sequenceLength c = next.length + 1 ∧
  (∀ byte ∈ next, 128 ≤ byte.toNat ∧ byte.toNat < 192) ∧
  (next.length = 1 → 0xc2 ≤ c.toNat) ∧
  (next.length = 2 → 0x800 ≤ codeOf c next ∧ (codeOf c next < 0xd800 ∨ 0xdfff < codeOf c next)) ∧
  (next.length = 3 → 0x10000 ≤ codeOf c next ∧ codeOf c next ≤ 0x10ffff)

theorem utf8Sequence_eq {length : Nat} :
    utf8Sequence (c :: text) = length + 1 ↔ ∃ next rest, text = next ++ rest ∧
      next.length = length ∧ WellFormed c next := by
  rw [utf8Sequence]
  cases hl : sequenceLength c with
  | zero =>
    simp only [true_or, ↓reduceIte, Nat.zero_ne_add_one, false_iff]
    rintro ⟨next, rest, _, _, hw⟩
    exact absurd (hl.symm.trans hw.1) (by simp)
  | succ more =>
    dsimp only
    rw [lead_toNat hl]
    constructor
    · intro h
      split at h
      · exact absurd h (by simp)
      rename_i hn
      simp only [not_or, not_and] at hn
      cases hc : continued (c.toNat % (if more = 0 then 128 else 2 ^ (6 - more))) (more + 1 - 1) text with
      | none =>
        rw [hc] at h
        exact absurd h (by simp)
      | some cd =>
        rw [hc] at h
        dsimp only at h
        split_ifs at h with hr
        obtain ⟨next, rest, rfl, hm, hb, rfl⟩ := continued_eq_some.mp hc
        subst hm
        refine ⟨next, rest, rfl, by omega, hl, hb, fun hlen => ?_, fun hlen => ?_, fun hlen => ?_⟩
        · have := hn.2.2.1 (by omega)
          exact not_lt.mp this
        · rw [← codeOf] at hr
          omega
        · rw [← codeOf] at hr
          omega
    · rintro ⟨next, rest, rfl, rfl, hw, hb, h2, h3, h4⟩
      obtain rfl := Nat.succ.inj (hl.symm.trans hw)
      have hc : continued (c.toNat % (if next.length = 0 then 128 else 2 ^ (6 - next.length)))
          (next.length + 1 - 1) (next ++ rest) = some (codeOf c next) :=
        continued_eq_some.mpr ⟨next, rest, rfl, rfl, hb, rfl⟩
      have hle : next.length = 3 → c.toNat ≤ 0xf4 := by
        intro hlen
        obtain ⟨a, b, d, rfl⟩ := length_eq_three.mp hlen
        have hlea := (sequenceLength_iff c).2.2.2.1.mp hl
        have hco := (h4 hlen).2
        rw [codeOf_three] at hco
        omega
      rw [if_neg, hc]
      · exact if_neg (by omega)
      · simp only [not_or, not_and, gt_iff_lt, not_lt, UInt8.le_iff_toNat_le, length_append]
        exact ⟨by omega, by omega, fun h => h2 (by omega), fun h => hle (by omega)⟩

theorem utf8EncodeChar_ofNat (hv : cd.isValidChar) :
    utf8EncodeChar (Char.ofNat cd) =
      if cd ≤ 127 then [UInt8.ofNat cd]
      else if cd ≤ 2047 then [UInt8.ofNat (cd / 64 % 32 + 192), UInt8.ofNat (cd % 64 + 128)]
      else if cd ≤ 65535 then [UInt8.ofNat (cd / 4096 % 16 + 224),
        UInt8.ofNat (cd / 64 % 64 + 128), UInt8.ofNat (cd % 64 + 128)]
      else [UInt8.ofNat (cd / 262144 % 8 + 240), UInt8.ofNat (cd / 4096 % 64 + 128),
        UInt8.ofNat (cd / 64 % 64 + 128), UInt8.ofNat (cd % 64 + 128)] := by
  have hc : (Char.ofNat cd).val.toNat = cd := by
    rw [Char.ofNat, dif_pos hv]
    rfl
  simp only [utf8EncodeChar, hc]

/-- A sequence encodes the character of its code. -/
theorem WellFormed.encode {next : Text} (hw : WellFormed c next) :
    ∃ ch, utf8EncodeChar ch = c :: next := by
  obtain ⟨hl, hb, h2, h3, h4⟩ := hw
  obtain ⟨l1, l2, l3, l4, hm⟩ := sequenceLength_iff c
  refine ⟨Char.ofNat (codeOf c next), ?_⟩
  match next with
  | [] =>
    have hc := l1.mp hl
    rw [codeOf_nil, utf8EncodeChar_ofNat (.inl (by omega)), if_pos (by omega),
      ofNat_eq c (by omega)]
  | [a] =>
    have hc := l2.mp hl
    have ha := hb a (by simp)
    have hr := h2 rfl
    rw [codeOf_one, utf8EncodeChar_ofNat (.inl (by omega)), if_neg (by omega), if_pos (by omega),
      ofNat_eq c (by omega), ofNat_eq a (by omega)]
  | [a, b] =>
    have hc := l3.mp hl
    have ha := hb a (by simp)
    have hb := hb b (by simp)
    have hr := h3 rfl
    rw [codeOf_two] at hr ⊢
    have hv : Nat.isValidChar ((c.toNat % 16 * 64 + a.toNat % 64) * 64 + b.toNat % 64) := by
      omega
    rw [utf8EncodeChar_ofNat hv, if_neg (by omega), if_neg (by omega), if_pos (by omega),
      ofNat_eq c (by omega), ofNat_eq a (by omega),
      ofNat_eq b (by omega)]
  | [a, b, d] =>
    have hc := l4.mp hl
    have ha := hb a (by simp)
    have hd := hb d (by simp)
    have hb := hb b (by simp)
    have hr := h4 rfl
    rw [codeOf_three] at hr ⊢
    rw [utf8EncodeChar_ofNat (.inr ⟨by omega, by omega⟩), if_neg (by omega), if_neg (by omega),
      if_neg (by omega), ofNat_eq c (by omega), ofNat_eq a (by omega),
      ofNat_eq b (by omega), ofNat_eq d (by omega)]
  | a :: b :: d :: e :: rest =>
    simp only [length_cons] at hl
    omega

/-- A character is encoded by a sequence. -/
theorem encode_wellFormed (ch : Char) :
    ∃ c next, utf8EncodeChar ch = c :: next ∧ WellFormed c next := by
  have hv : ch.toNat.isValidChar := ch.valid
  rw [← Char.ofNat_toNat ch, utf8EncodeChar_ofNat hv]
  generalize ch.toNat = cd at hv
  split_ifs with h₁ h₂ h₃
  · refine ⟨_, _, rfl, (sequenceLength_iff _).1.mpr ?_, by simp, by simp, by simp, by simp⟩
    rw [UInt8.toNat_ofNat']
    omega
  · refine ⟨_, _, rfl, (sequenceLength_iff _).2.1.mpr ?_, ?_, fun _ => ?_, by simp, by simp⟩
    · simp only [UInt8.toNat_ofNat']
      omega
    · simp only [mem_cons, not_mem_nil, or_false, forall_eq, UInt8.toNat_ofNat']
      omega
    · simp only [UInt8.toNat_ofNat']
      omega
  · refine ⟨_, _, rfl, (sequenceLength_iff _).2.2.1.mpr ?_, ?_, by simp, fun _ => ?_, by simp⟩
    · simp only [UInt8.toNat_ofNat']
      omega
    · simp only [mem_cons, not_mem_nil, or_false, forall_eq_or_imp, forall_eq, UInt8.toNat_ofNat']
      omega
    · simp only [codeOf_two, UInt8.toNat_ofNat']
      omega
  · refine ⟨_, _, rfl, (sequenceLength_iff _).2.2.2.1.mpr ?_, ?_, by simp, by simp, fun _ => ?_⟩
    · simp only [UInt8.toNat_ofNat']
      omega
    · simp only [mem_cons, not_mem_nil, or_false, forall_eq_or_imp, forall_eq, UInt8.toNat_ofNat']
      omega
    · simp only [codeOf_three, UInt8.toNat_ofNat']
      omega

/-- A sequence is met exactly where the encoding of a character stands. -/
theorem utf8Sequence_eq_zero :
    utf8Sequence (c :: text) = 0 ↔ ∀ character, ¬ utf8EncodeChar character <+: c :: text := by
  constructor
  · rintro hz character ⟨rest, hr⟩
    obtain ⟨first, next, he, hw⟩ := encode_wellFormed character
    rw [he, cons_append] at hr
    obtain ⟨rfl, rfl⟩ := List.cons.inj hr
    rw [utf8Sequence_eq.mpr ⟨next, rest, rfl, rfl, hw⟩] at hz
    exact absurd hz (by simp)
  · intro hn
    by_contra hz
    obtain ⟨length, hl⟩ := Nat.exists_eq_succ_of_ne_zero hz
    obtain ⟨next, rest, rfl, _, hw⟩ := utf8Sequence_eq.mp hl
    obtain ⟨character, he⟩ := hw.encode
    exact hn character ⟨rest, by rw [he, cons_append]⟩

theorem isUtf8From_append (next r : Text) : isUtf8From next.length (next ++ r) = isUtf8 r := by
  induction next with
  | nil => rfl
  | cons byte next ih => exact ih

theorem repairFrom_append (next rest : Text) :
    repairFrom next.length (next ++ rest) = next ++ repairUtf8 rest := by
  induction next with
  | nil => rfl
  | cons byte next ih => exact congrArg (byte :: ·) ih

/-- Both loops step over the encoding of a character. -/
theorem encode_append (character : Char) (rest : Text) :
    isUtf8 (utf8EncodeChar character ++ rest) = isUtf8 rest ∧
      repairUtf8 (utf8EncodeChar character ++ rest) =
        utf8EncodeChar character ++ repairUtf8 rest := by
  obtain ⟨c, next, he, hw⟩ := encode_wellFormed character
  have hs := utf8Sequence_eq.mpr ⟨next, rest, rfl, rfl, hw⟩
  rw [he, cons_append, isUtf8, isUtf8From, repairUtf8, repairFrom, hs]
  exact ⟨isUtf8From_append next rest, congrArg (c :: ·) (repairFrom_append next rest)⟩

/-- The scan from left to right: the characters it meets and the bytes that
start none. -/
inductive Scan : Text → List (Char ⊕ UInt8) → Prop
  | nil : Scan [] []
  | character (character : Char) {rest : Text} {pieces : List (Char ⊕ UInt8)}
      (later : Scan rest pieces) :
      Scan (utf8EncodeChar character ++ rest) (.inl character :: pieces)
  | stray (byte : UInt8) {rest : Text} {pieces : List (Char ⊕ UInt8)}
      (none : ∀ character, ¬ utf8EncodeChar character <+: byte :: rest)
      (later : Scan rest pieces) : Scan (byte :: rest) (.inr byte :: pieces)

theorem exists_scan (v : Text) : ∃ p, Scan v p := by
  induction hl : v.length using Nat.strong_induction_on generalizing v with
  | h size ih =>
    cases v with
    | nil => exact ⟨[], .nil⟩
    | cons byte r =>
      by_cases hs : ∃ ch, utf8EncodeChar ch <+: byte :: r
      · obtain ⟨ch, later, he⟩ := hs
        have hp : 0 < (utf8EncodeChar ch).length := by
          obtain ⟨c, next, hc, _⟩ := encode_wellFormed ch
          simp [hc]
        obtain ⟨p, hp⟩ := ih later.length (by
          rw [← hl, ← he, length_append]
          omega) later rfl
        exact ⟨_, he ▸ Scan.character ch hp⟩
      · obtain ⟨p, hp⟩ := ih r.length (by simp [← hl]) r rfl
        exact ⟨_, .stray byte (not_exists.mp hs) hp⟩

/-- A piece after the repair. -/
def repaired : Char ⊕ UInt8 → Text := Sum.elim utf8EncodeChar fun _ => [0xef, 0xbf, 0xbd]

theorem Scan.repairUtf8_eq (hs : Scan v p) : repairUtf8 v = p.flatMap repaired := by
  induction hs with
  | nil => rfl
  | character character later ih => rw [(encode_append character _).2, ih]; rfl
  | stray byte none later ih =>
    rw [repairUtf8, repairFrom, utf8Sequence_eq_zero.mpr none]
    exact congrArg (0xef :: 0xbf :: 0xbd :: ·) ih

theorem isUtf8_flatMap (cs : List Char) : isUtf8 (cs.flatMap utf8EncodeChar) = true := by
  induction cs with
  | nil => rfl
  | cons c r ih => rw [flatMap_cons, (encode_append c _).1, ih]

theorem Scan.characters (hs : Scan v p) (hv : isUtf8 v = true) :
    ∃ cs : List Char, v = cs.flatMap utf8EncodeChar := by
  induction hs with
  | nil => exact ⟨[], rfl⟩
  | character character later ih =>
    obtain ⟨cs, rfl⟩ := ih ((encode_append character _).1 ▸ hv)
    exact ⟨character :: cs, rfl⟩
  | stray byte none later ih =>
    rw [isUtf8, isUtf8From, utf8Sequence_eq_zero.mpr none] at hv
    exact absurd hv (by simp)

theorem isUtf8_iff : isUtf8 v = true ↔ ∃ cs : List Char, v = cs.flatMap utf8EncodeChar := by
  constructor
  · obtain ⟨ps, hs⟩ := exists_scan v
    exact hs.characters
  · rintro ⟨cs, rfl⟩
    exact isUtf8_flatMap cs

theorem isUtf8_append (hv : isUtf8 v = true) (right : Text) : isUtf8 (v ++ right) = isUtf8 right := by
  obtain ⟨cs, rfl⟩ := isUtf8_iff.mp hv
  clear hv
  induction cs with
  | nil => rfl
  | cons c r ih => rw [flatMap_cons, append_assoc, (encode_append c _).1, ih]

theorem isUtf8_ascii (hc : c < 0x80) : isUtf8 [c] = true := by
  have hs : utf8Sequence [c] = 1 := utf8Sequence_eq.mpr
    ⟨[], [], rfl, rfl, (sequenceLength_iff c).1.mpr hc, by simp, by simp, by simp, by simp⟩
  rw [isUtf8, isUtf8From, hs]
  rfl

/-- No sequence reaches over a character of one byte. -/
theorem isUtf8_left {left right : Text} (hc : c < 0x80) (hv : isUtf8 (left ++ c :: right) = true) :
    isUtf8 left = true := by
  obtain ⟨cs, he⟩ := isUtf8_iff.mp hv
  clear hv
  induction cs generalizing left with
  | nil => exact absurd he (by simp)
  | cons ch rest ih =>
    rcases append_eq_append_iff.mp he with ⟨middle, hm, hr⟩ | ⟨middle, rfl, hr⟩
    · obtain ⟨first, next, hf, hw⟩ := encode_wellFormed ch
      rw [hf] at hm
      cases left with
      | nil => rfl
      | cons byte left =>
        have hl := (List.cons.inj hm).2
        cases middle with
        | nil =>
          rw [append_nil] at hm
          rw [← hm, ← hf]
          simpa using isUtf8_flatMap [ch]
        | cons head middle =>
          -- The byte would be a continuation byte of the sequence.
          obtain ⟨rfl, _⟩ := List.cons.inj hr
          have := (hw.2.1 c (hl ▸ by simp)).1
          exact absurd hc (not_lt.mpr this)
    · rw [(encode_append ch _).1]
      exact ih hr.symm

theorem isUtf8_latin1 (v : Text) : isUtf8 (latin1ToUtf8 v) = true := by
  have hc : ∀ c : UInt8, latin1Byte c = utf8EncodeChar (Char.ofNat c.toNat) :=
    forall_byte (p := fun c => latin1Byte c = utf8EncodeChar (Char.ofNat c.toNat))
      (by decide +kernel)
  have hv : latin1ToUtf8 v = (v.map fun c => Char.ofNat c.toNat).flatMap utf8EncodeChar := by
    rw [flatMap_map]
    exact flatMap_congr fun c _ => hc c
  rw [hv]
  exact isUtf8_flatMap _

/-- Well-formed is what encodes scalar values.  The repair is well-formed,
leaves well-formed text alone and keeps the characters that the scan meets. -/
theorem utf8_exact (v : Text) :
    (isUtf8 v = true ↔
      ∃ characters : List Char, v = characters.flatMap utf8EncodeChar) ∧
    isUtf8 (repairUtf8 v) = true ∧ (isUtf8 v = true → repairUtf8 v = v) ∧
    ∃ pieces, Scan v pieces ∧ repairUtf8 v = pieces.flatMap repaired := by
  obtain ⟨pieces, hs⟩ := exists_scan v
  refine ⟨isUtf8_iff, ?_, fun hv => ?_, pieces, hs, hs.repairUtf8_eq⟩
  · rw [hs.repairUtf8_eq]
    have hr : utf8EncodeChar '\uFFFD' = [0xef, 0xbf, 0xbd] := by decide +kernel
    have hm : pieces.flatMap repaired =
        (pieces.map (Sum.elim id fun _ => '\uFFFD')).flatMap utf8EncodeChar := by
      rw [flatMap_map]
      refine flatMap_congr fun piece _ => ?_
      rcases piece with character | byte
      · rfl
      · exact hr.symm
    rw [hm]
    exact isUtf8_flatMap _
  · obtain ⟨characters, rfl⟩ := isUtf8_iff.mp hv
    clear hs hv
    induction characters with
    | nil => rfl
    | cons character rest ih => rw [flatMap_cons, (encode_append character _).2, ih]

end Aria2Next.Text
