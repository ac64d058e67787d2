/-
The codings of `base/Text`: hexadecimal digits and percent escapes, and the
plain numbers that options and links are written with.
-/
import Aria2Next.Options

namespace Aria2Next.Text

/-- The value of a hexadecimal digit; the source answers -1 for the others. -/
def hexValue (byte : UInt8) : Option UInt8 :=
  if 0x30 ≤ byte ∧ byte ≤ 0x39 then some (byte - 0x30)
  else if 0x61 ≤ byte ∧ byte ≤ 0x66 then some (byte - 0x61 + 10)
  else if 0x41 ≤ byte ∧ byte ≤ 0x46 then some (byte - 0x41 + 10)
  else none

/-- Escapes become bytes; a percent sign that starts none stays. -/
def percentDecode : Text → Text
  | 0x25 :: first :: second :: rest =>
    match hexValue first, hexValue second with
    | some high, some low => (high <<< 4 ||| low) :: percentDecode rest
    | _, _ => 0x25 :: percentDecode (first :: second :: rest)
  | byte :: rest => byte :: percentDecode rest
  | [] => []

def upperDigit (value : UInt8) : UInt8 :=
  if value < 10 then 0x30 + value else 0x41 + (value - 10)

def lowerDigit (value : UInt8) : UInt8 :=
  if value < 10 then 0x30 + value else 0x61 + (value - 10)

/-- Letters, digits and the four marks that are never escaped. -/
def unreserved (byte : UInt8) : Bool :=
  (0x41 ≤ byte && byte ≤ 0x5a) || (0x61 ≤ byte && byte ≤ 0x7a) ||
    (0x30 ≤ byte && byte ≤ 0x39) || byte = 0x2d || byte = 0x2e ||
    byte = 0x5f || byte = 0x7e

def percentEncode (value : Text) : Text := value.flatMap fun byte =>
    if unreserved byte then [byte]
    else [0x25, upperDigit (byte >>> 4), upperDigit (byte &&& 0xf)]

def toHex (bytes : Text) : Text := bytes.flatMap fun byte : UInt8 =>
    [lowerDigit (byte >>> 4), lowerDigit (byte &&& 0xf)]

def fromHex : Text → Option Text
  | [] => some []
  | [_] => none
  | first :: second :: rest =>
    match hexValue first, hexValue second with
    | some high, some low =>
      (fromHex rest).map fun bytes => (high <<< 4 ||| low) :: bytes
    | _, _ => none

/-- `toInt`: a whole 64-bit decimal that is not negative. -/
def toInt (value : Text) : Option Int := (parseInteger value).filter fun number => 0 ≤ number

/-- The loop of `replaceAll`; `skip` bytes belong to the last match. -/
def replaceFrom (pattern replacement : Text) : Nat → Text → Text
  | _, [] => []
  | skip + 1, _ :: rest => replaceFrom pattern replacement skip rest
  | 0, byte :: rest =>
    if pattern.isPrefixOf (byte :: rest) then
      replacement ++ replaceFrom pattern replacement (pattern.length - 1) rest
    else byte :: replaceFrom pattern replacement 0 rest

def replaceAll (value pattern replacement : Text) : Text :=
  if pattern = [] then value else replaceFrom pattern replacement 0 value

/-- Both digits of a byte in either case give the byte back. -/
theorem hexValue_digits (b : UInt8) : ∃ high low, hexValue (upperDigit (b >>> 4)) = some high ∧
      hexValue (upperDigit (b &&& 0xf)) = some low ∧ hexValue (lowerDigit (b >>> 4)) = some high ∧
      hexValue (lowerDigit (b &&& 0xf)) = some low ∧ high <<< 4 ||| low = b := by
  refine ⟨b >>> 4, b &&& 0xf, ?_⟩
  exact forall_byte (p := fun b =>
    hexValue (upperDigit (b >>> 4)) = some (b >>> 4) ∧
      hexValue (upperDigit (b &&& 0xf)) = some (b &&& 0xf) ∧
      hexValue (lowerDigit (b >>> 4)) = some (b >>> 4) ∧
      hexValue (lowerDigit (b &&& 0xf)) = some (b &&& 0xf) ∧
      (b >>> 4) <<< 4 ||| (b &&& 0xf) = b) (by decide +kernel) b

variable {b : UInt8} {value : Text} {n : Nat}

theorem percentDecode_cons_of_ne (hb : b ≠ 0x25) (r : Text) :
    percentDecode (b :: r) = b :: percentDecode r := by
  rw [percentDecode.eq_def]
  split
  · rename_i hc
    exact absurd (List.cons.inj hc).1 hb
  · rename_i hc
    obtain ⟨rfl, rfl⟩ := List.cons.inj hc
    rfl
  · contradiction

theorem percentDecode_of_notMem {v : Text} (hv : 0x25 ∉ v) : percentDecode v = v := by
  induction v with
  | nil => rfl
  | cons b r ih =>
    rw [List.mem_cons, not_or] at hv
    rw [percentDecode_cons_of_ne (Ne.symm hv.1), ih hv.2]

theorem percentDecode_percentEncode (v : Text) : percentDecode (percentEncode v) = v := by
  induction v with
  | nil => rfl
  | cons b r ih =>
    rw [percentEncode, List.flatMap_cons, ← percentEncode]
    by_cases hk : unreserved b = true
    · have hn : b ≠ 0x25 := by
        rintro rfl
        exact absurd hk (by decide)
      rw [if_pos hk, List.singleton_append, percentDecode_cons_of_ne hn, ih]
    · obtain ⟨high, low, hh, hl, _, _, hb⟩ := hexValue_digits b
      rw [if_neg hk]
      simp only [List.cons_append, List.nil_append, percentDecode, hh, hl, hb, ih]

theorem fromHex_toHex (bs : Text) : fromHex (toHex bs) = some bs := by
  induction bs with
  | nil => rfl
  | cons b r ih =>
    obtain ⟨high, low, _, _, hh, hl, hb⟩ := hexValue_digits b
    rw [toHex, List.flatMap_cons, ← toHex]
    simp only [List.cons_append, List.nil_append, fromHex, hh, hl, ih, Option.map_some, hb]

theorem length_toHex (bs : Text) : (toHex bs).length = 2 * bs.length := by
  induction bs with
  | nil => rfl
  | cons b r ih =>
    rw [toHex, List.flatMap_cons, ← toHex, List.length_append]
    simp only [List.length_cons, List.length_nil]
    omega

/-- Escaped text holds only unreserved bytes and percent signs. -/
theorem mem_percentEncode (hb : b ∈ percentEncode value) : unreserved b = true ∨ b = 0x25 := by
  obtain ⟨s, _, hs⟩ := List.mem_flatMap.mp hb
  split_ifs at hs with hk
  · rw [List.mem_singleton.mp hs]
    exact .inl hk
  · have hdi := forall_byte (p := fun b =>
      unreserved (upperDigit (b >>> 4)) = true ∧
        unreserved (upperDigit (b &&& 0xf)) = true) (by decide +kernel) s
    simp only [List.mem_cons, List.not_mem_nil, or_false] at hs
    rcases hs with rfl | rfl | rfl
    · exact .inr rfl
    · exact .inl hdi.1
    · exact .inl hdi.2

theorem mem_toHex {bs : Text} (hb : b ∈ toHex bs) : unreserved b = true := by
  obtain ⟨s, _, hs⟩ := List.mem_flatMap.mp hb
  have hdi := forall_byte (p := fun b =>
    unreserved (lowerDigit (b >>> 4)) = true ∧
      unreserved (lowerDigit (b &&& 0xf)) = true) (by decide +kernel) s
  simp only [List.mem_cons, List.not_mem_nil, or_false] at hs
  rcases hs with rfl | rfl
  · exact hdi.1
  · exact hdi.2

theorem percentEncode_ne_nil (hv : value ≠ []) : percentEncode value ≠ [] := by
  intro hn
  have hb := percentDecode_percentEncode value
  rw [hn] at hb
  exact hv hb.symm

theorem toInt_decimal (hn : (n : Int) ≤ int64Max) : toInt (decimal n) = some (n : Int) := by
  have ht : decimal n = integerText n := by
    rfl
  rw [toInt, ht, parseInteger_integerText ⟨by omega, hn⟩]
  exact Option.filter_some_pos (by simp)

theorem toInt_nonneg {n : Int} (hv : toInt value = some n) : 0 ≤ n := by
  simpa using (Option.filter_eq_some_iff.mp hv).2

theorem mem_decimal (hb : b ∈ decimal n) : unreserved b = true := by
  have hdi := decimal_digits n b hb
  rw [isDigit] at hdi
  simp only [unreserved, hdi, Bool.or_true, Bool.true_or]

end Aria2Next.Text
