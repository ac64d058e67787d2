/-
Base64 in `base/Text`.  The shifts and masks of the source are quotients and
remainders; the block of the decoder keeps its 32 bits.
-/
import Aria2Next.Text

namespace Aria2Next.Text

def base64Alphabet : Text :=
  of "ABCDEFGHIJKLMNOPQRSTUVWXYZabcdefghijklmnopqrstuvwxyz0123456789+/"

/-- `alphabet[bits & 63]`. -/
def base64Digit (bits : Nat) : UInt8 := base64Alphabet.getD (bits % 64) 0

def base64Encode : Text → Text
  | [] => []
  | [a] =>
    let block := a.toNat * 2 ^ 16
    [base64Digit (block / 2 ^ 18), base64Digit (block / 2 ^ 12), 0x3d, 0x3d]
  | [a, b] =>
    let block := a.toNat * 2 ^ 16 + b.toNat * 2 ^ 8
    [base64Digit (block / 2 ^ 18), base64Digit (block / 2 ^ 12), base64Digit (block / 2 ^ 6), 0x3d]
  | a :: b :: c :: rest =>
    let block := a.toNat * 2 ^ 16 + b.toNat * 2 ^ 8 + c.toNat
    base64Digit (block / 2 ^ 18) :: base64Digit (block / 2 ^ 12) ::
      base64Digit (block / 2 ^ 6) :: base64Digit block :: base64Encode rest

/-- The table of the decoder, with the two digits of the URL-safe alphabet. -/
def base64Value (byte : UInt8) : Option Nat :=
  if byte = 0x2d then some 62
  else if byte = 0x5f then some 63
  else base64Alphabet.idxOf? byte

/-- The loop of `base64Decode`, with the block and how many of its low bits
wait. -/
def base64DecodeFrom (block bits : Nat) : Text → Option Text
  | [] => some []
  | byte :: rest =>
    if byte = 0x3d ∨ byte = 0x0d ∨ byte = 0x0a ∨ byte = 0x20 then base64DecodeFrom block bits rest
    else
      match base64Value byte with
      | none => none
      | some value =>
        let block := (block * 64 + value) % 2 ^ 32
        let bits := bits + 6
        if bits ≥ 8 then
          (base64DecodeFrom block (bits - 8) rest).map
            (UInt8.ofNat (block / 2 ^ (bits - 8) % 256) :: ·)
        else base64DecodeFrom block bits rest

def base64Decode (text : Text) : Option Text := base64DecodeFrom 0 0 text

/-- A digit is plain text, has its own value and is a slash only for 63. -/
theorem base64Digit_spec (b : Nat) :
    (0x20 < base64Digit b ∧ base64Digit b ≠ 0x3d ∧ base64Digit b ≠ 0x25 ∧ base64Digit b ≠ 0x3f) ∧
      base64Value (base64Digit b) = some (b % 64) ∧ (b % 64 ≠ 63 → base64Digit b ≠ 0x2f) := by
  have hd : ∀ v < 64, (0x20 < base64Digit v ∧ base64Digit v ≠ 0x3d ∧ base64Digit v ≠ 0x25 ∧
        base64Digit v ≠ 0x3f) ∧
      base64Value (base64Digit v) = some v ∧ (v ≠ 63 → base64Digit v ≠ 0x2f) := by
    decide +kernel
  have hm := hd (b % 64) (Nat.mod_lt _ (by decide))
  rwa [show base64Digit (b % 64) = base64Digit b by simp [base64Digit]] at hm

theorem mem_base64Encode {byte : UInt8} :
    ∀ {bs : Text}, byte ∈ base64Encode bs → byte = 0x3d ∨ ∃ bi, byte = base64Digit bi
  | [], hb => absurd hb List.not_mem_nil
  | [a], hb => by
    simp only [base64Encode, List.mem_cons, List.not_mem_nil, or_false] at hb
    rcases hb with h | h | h | h
    · exact .inr ⟨_, h⟩
    · exact .inr ⟨_, h⟩
    · exact .inl h
    · exact .inl h
  | [a, b], hb => by
    simp only [base64Encode, List.mem_cons, List.not_mem_nil, or_false] at hb
    rcases hb with h | h | h | h
    · exact .inr ⟨_, h⟩
    · exact .inr ⟨_, h⟩
    · exact .inr ⟨_, h⟩
    · exact .inl h
  | a :: b :: c :: rest, hb => by
    simp only [base64Encode, List.mem_cons] at hb
    rcases hb with h | h | h | h | h
    · exact .inr ⟨_, h⟩
    · exact .inr ⟨_, h⟩
    · exact .inr ⟨_, h⟩
    · exact .inr ⟨_, h⟩
    · exact mem_base64Encode h

/-- Base64 text has no blank, control character, percent sign or question mark. -/
theorem base64Encode_plain {b : UInt8} {bytes : Text} (hb : b ∈ base64Encode bytes) :
    0x20 < b ∧ b ≠ 0x25 ∧ b ≠ 0x3f := by
  rcases mem_base64Encode hb with rfl | ⟨bits, rfl⟩
  · decide
  · obtain ⟨⟨hp, _, he⟩, _⟩ := base64Digit_spec bits
    exact ⟨hp, he⟩

theorem decodeFrom_nil (b bi : Nat) : base64DecodeFrom b bi [] = some [] := rfl

theorem decodeFrom_pad (b bi : Nat) (r : Text) :
    base64DecodeFrom b bi (0x3d :: r) = base64DecodeFrom b bi r := by
  rw [base64DecodeFrom, if_pos (.inl rfl)]

theorem decodeFrom_digit (b bi v : Nat) (rest : Text) :
    base64DecodeFrom b bi (base64Digit v :: rest) = if bi + 6 ≥ 8 then
        (base64DecodeFrom ((b * 64 + v % 64) % 2 ^ 32) (bi + 6 - 8) rest).map
          (UInt8.ofNat ((b * 64 + v % 64) % 2 ^ 32 / 2 ^ (bi + 6 - 8) % 256) :: ·)
      else base64DecodeFrom ((b * 64 + v % 64) % 2 ^ 32) (bi + 6) rest := by
  obtain ⟨⟨hp, he, _⟩, hv, _⟩ := base64Digit_spec v
  rw [base64DecodeFrom, hv, if_neg]
  rintro (h | h | h | h)
  · exact he h
  all_goals
    rw [h] at hp
    exact absurd hp (by decide)

/-- Padding is passed over wherever it stands. -/
theorem decodeFrom_filter (b bi : Nat) (t : Text) :
    base64DecodeFrom b bi (t.filter (· ≠ 0x3d)) = base64DecodeFrom b bi t := by
  induction t generalizing b bi with
  | nil => rfl
  | cons byte r ih =>
    by_cases hb : byte = 0x3d
    · rw [hb, decodeFrom_pad, List.filter_cons_of_neg (by simp), ih]
    · rw [List.filter_cons_of_pos (by simpa using hb), base64DecodeFrom, base64DecodeFrom]
      simp only [ih]

/-- What was encoded comes back, from any state in which no bits wait. -/
theorem decodeFrom_base64Encode :
    ∀ (bytes : Text) (bl : Nat), base64DecodeFrom bl 0 (base64Encode bytes) = some bytes
  | [], _ => rfl
  | [a], bl => by
    have ha := a.toNat_lt
    simp only [base64Encode, decodeFrom_digit, decodeFrom_pad, decodeFrom_nil, Nat.reduceAdd,
      Nat.reduceSub, ge_iff_le, Nat.reduceLeDiff, ↓reduceIte, Option.map_some]
    rw [ofNat_eq a (by omega)]
  | [a, b], bl => by
    have ha := a.toNat_lt
    have hb := b.toNat_lt
    simp only [base64Encode, decodeFrom_digit, decodeFrom_pad, decodeFrom_nil, Nat.reduceAdd,
      Nat.reduceSub, ge_iff_le, Nat.reduceLeDiff, ↓reduceIte, Option.map_some]
    rw [ofNat_eq a (by omega), ofNat_eq b (by omega)]
  | a :: b :: c :: rest, bl => by
    have ha := a.toNat_lt
    have hb := b.toNat_lt
    have hc := c.toNat_lt
    simp only [base64Encode, decodeFrom_digit, Nat.reduceAdd, Nat.reduceSub, ge_iff_le,
      Nat.reduceLeDiff, ↓reduceIte, decodeFrom_base64Encode rest, Option.map_some]
    rw [ofNat_eq a (by omega), ofNat_eq b (by omega), ofNat_eq c (by omega)]

theorem base64Decode_base64Encode (bs : Text) :
    base64Decode (base64Encode bs) = some bs := decodeFrom_base64Encode bs 0

end Aria2Next.Text
