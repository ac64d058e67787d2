/-
Thunder links in `base/Uri`: a link inside the Base64 of a link.
-/
import Aria2Next.Base64
import Aria2Next.TextCodes

namespace Aria2Next.Text

open List

def isThunder (link : Text) : Bool := istartsWith (trim link) (of "thunder://")

def unwrapThunder (link : Text) : Option Text :=
  if ¬ isThunder link then none
  else
    let payload := (trim link).drop 10
    let payload := if 0x25 ∈ payload then percentDecode payload else payload
    -- pages append slashes
    let payload := payload.rdropWhile (· = 0x2f)
    match base64Decode payload with
    | none => none
    | some decoded =>
      if decoded.length ≤ 4 ∨ ¬ (of "AA").isPrefixOf decoded ∨ ¬ (of "ZZ").isSuffixOf decoded
      then none
      else
        let result := (trim ((decoded.drop 2).take (decoded.length - 4))).flatMap fun c =>
          if c > 0x20 ∧ c < 0x7f then [c] else [0x25, upperDigit (c >>> 4), upperDigit (c &&& 0xf)]
        if result.isEmpty then none else some result

/-- Padding written as %3D. -/
def escapePadding (base64 : Text) : Text :=
  base64.flatMap fun byte => if byte = 0x3d then [0x25, 0x33, 0x44] else [byte]

/-- Base64 with its padding, without it, and with it escaped. -/
def paddings (base64 : Text) : List Text :=
  [base64, base64.filter (· ≠ 0x3d), escapePadding base64]

/-- Escaped padding is padding again. -/
theorem percentDecode_escapePadding {b : Text} (hb : 0x25 ∉ b) (r : Text) :
    percentDecode (escapePadding b ++ r) = b ++ percentDecode r := by
  induction b with
  | nil => rfl
  | cons byte b ih =>
    rw [mem_cons, not_or] at hb
    rw [escapePadding, flatMap_cons, ← escapePadding, append_assoc]
    split_ifs with hp
    · have hx : hexValue 0x33 = some 3 ∧ hexValue 0x44 = some 13 := by decide
      rw [cons_append, cons_append, cons_append, nil_append, percentDecode, ih hb.2, hp]
      rfl
    · rw [singleton_append, percentDecode_cons_of_ne (Ne.symm hb.1), ih hb.2, cons_append]

variable {byte : UInt8} {bytes form text : Text}

theorem paddings_plain (hf : form ∈ paddings (base64Encode bytes)) (hb : byte ∈ form) :
    0x20 < byte := by
  simp only [paddings, mem_cons, not_mem_nil, or_false] at hf
  rcases hf with rfl | rfl | rfl
  · exact (base64Encode_plain hb).1
  · exact (base64Encode_plain (mem_of_mem_filter hb)).1
  · obtain ⟨s, hs, hb⟩ := mem_flatMap.mp hb
    split_ifs at hb with hp
    · simp only [mem_cons, not_mem_nil, or_false] at hb
      rcases hb with rfl | rfl | rfl <;> decide
    · rw [mem_singleton.mp hb]
      exact (base64Encode_plain hs).1

/-- The text ends with another byte than a slash. -/
def Ends (text : Text) : Prop := ∃ byte, text.getLast? = some byte ∧ byte ≠ 0x2f

theorem Ends.cons (he : Ends text) (b : UInt8) : Ends (b :: text) := by
  obtain ⟨l, hl, hs⟩ := he
  exact ⟨l, by rw [List.getLast?_cons, hl, Option.getD_some], hs⟩

theorem filter_digit (bits : Nat) (rest : Text) :
    (base64Digit bits :: rest).filter (· ≠ 0x3d) = base64Digit bits :: rest.filter (· ≠ 0x3d) :=
  filter_cons_of_pos (by simpa using (base64Digit_spec bits).1.2.1)

theorem Ends.block (he : Ends (base64Encode bytes))
    (hf : Ends ((base64Encode bytes).filter (· ≠ 0x3d))) (a b c : UInt8) :
    Ends (base64Encode (a :: b :: c :: bytes)) ∧
      Ends ((base64Encode (a :: b :: c :: bytes)).filter (· ≠ 0x3d)) := by
  rw [base64Encode]
  rw [filter_digit, filter_digit, filter_digit, filter_digit]
  exact ⟨(((he.cons _).cons _).cons _).cons _, (((hf.cons _).cons _).cons _).cons _⟩

/-- An encoding that ends in ZZ never ends in a slash, with padding or
without. -/
theorem ends_base64Encode : ∀ bytes : Text, Ends (base64Encode (bytes ++ [0x5a, 0x5a])) ∧
    Ends ((base64Encode (bytes ++ [0x5a, 0x5a])).filter (· ≠ 0x3d))
  | [] => ⟨⟨0x3d, by decide +kernel, by decide⟩, ⟨0x6f, by decide +kernel, by decide⟩⟩
  | [a] => by
    -- the low six bits of Z are not all set
    have hl : (0x5a : UInt8).toNat = 90 := rfl
    have hd : Ends [base64Digit (a.toNat * 2 ^ 16 + (0x5a : UInt8).toNat * 2 ^ 8 +
        (0x5a : UInt8).toNat)] :=
      ⟨_, List.getLast?_singleton, (base64Digit_spec _).2.2 (by omega)⟩
    rw [singleton_append, base64Encode]
    rw [filter_digit, filter_digit, filter_digit, filter_digit]
    exact ⟨((hd.cons _).cons _).cons _, ((hd.cons _).cons _).cons _⟩
  | [a, b] => Ends.block ⟨0x3d, by decide +kernel, by decide⟩
      ⟨0x67, by decide +kernel, by decide⟩ a b 0x5a
  | a :: b :: c :: rest => (ends_base64Encode rest).1.block (ends_base64Encode rest).2 a b c

theorem Ends.rdropWhile (he : Ends text) (s : Nat) :
    (text ++ List.replicate s 0x2f).rdropWhile (· = 0x2f) = text := by
  induction s with
  | zero =>
    rw [replicate_zero, append_nil, rdropWhile_eq_self_iff]
    intro hn
    obtain ⟨b, hl, hs⟩ := he
    rw [List.getLast?_eq_some_getLast hn] at hl
    simpa [Option.some.inj hl] using hs
  | succ s ih =>
    rw [replicate_succ', ← append_assoc, rdropWhile_concat_pos _ _ _ (by simp), ih]

/-- What a form of the Base64 text with slashes behind it decodes to. -/
theorem base64Decode_payload (bs : Text)
    (hf : form ∈ paddings (base64Encode (bs ++ [0x5a, 0x5a]))) (s : Nat) :
    base64Decode ((percentDecode (form ++ List.replicate s 0x2f)).rdropWhile (· = 0x2f)) =
      some (bs ++ [0x5a, 0x5a]) := by
  obtain ⟨he, hb⟩ := ends_base64Encode bs
  have hd := base64Decode_base64Encode (bs ++ [0x5a, 0x5a])
  have hp : 0x25 ∉ base64Encode (bs ++ [0x5a, 0x5a]) := fun hm => (base64Encode_plain hm).2.1 rfl
  have hs : 0x25 ∉ List.replicate s (0x2f : UInt8) := fun hm =>
    absurd (eq_of_mem_replicate hm) (by decide)
  simp only [paddings, mem_cons, not_mem_nil, or_false] at hf
  rcases hf with rfl | rfl | rfl
  · rw [percentDecode_of_notMem (by simp [hp, hs]), he.rdropWhile, hd]
  · have hn : 0x25 ∉ (base64Encode (bs ++ [0x5a, 0x5a])).filter (· ≠ 0x3d) := fun hm =>
      hp (mem_of_mem_filter hm)
    rw [percentDecode_of_notMem (by simpa [hs] using hn), hb.rdropWhile, base64Decode,
      decodeFrom_filter]
    exact hd
  · rw [percentDecode_escapePadding hp, percentDecode_of_notMem hs, he.rdropWhile, hd]

/-- A wrapped link is found again in every form that pages write, and Base64
decodes what it encoded. -/
theorem unwrapThunder_wrapped :
    (∀ (inner scheme form left right : Text) (slashes : Nat), inner ≠ [] →
      (∀ byte ∈ inner, 0x20 < byte ∧ byte < 0x7f) → lower scheme = of "thunder://" →
      form ∈ paddings (base64Encode (of "AA" ++ inner ++ of "ZZ")) →
      (∀ byte ∈ left, isSpace byte = true) → (∀ byte ∈ right, isSpace byte = true) →
      unwrapThunder (left ++ (scheme ++ form ++ List.replicate slashes 0x2f) ++ right) =
        some inner) ∧
    ∀ bytes, base64Decode (base64Encode bytes) = some bytes := by
  refine ⟨fun inner scheme form left right slashes hn hi hs hf hl hr => ?_,
    base64Decode_base64Encode⟩
  have hz : of "ZZ" = [0x5a, 0x5a] ∧ of "AA" = [0x41, 0x41] ∧ (of "thunder://").length = 10 ∧
      ∀ byte ∈ of "thunder://", isSpace byte = false := by
    decide +kernel
  obtain ⟨hz, ha, hk, hc⟩ := hz
  have hlen : scheme.length = 10 := by
    rw [← hk, ← hs, lower, length_map]
  have hm : ∀ byte ∈ scheme ++ form ++ List.replicate slashes 0x2f, isSpace byte = false := by
    intro byte hb
    rcases mem_append.mp hb with hb | hb
    · rcases mem_append.mp hb with hb | hb
      · exact not_isSpace_lowerByte (hc _ (hs ▸ mem_map_of_mem hb))
      · exact not_space_of_lt (paddings_plain hf hb)
    · rw [eq_of_mem_replicate hb]
      rfl
  have ht : isThunder (left ++ (scheme ++ form ++ List.replicate slashes 0x2f) ++ right) = true := by
    rw [isThunder, trim_surrounded hl hm hr, append_assoc]
    exact istartsWith_append (hs.trans (by decide +kernel)) _
  rw [unwrapThunder, if_neg (not_not.mpr ht), trim_surrounded hl hm hr, append_assoc, ← hlen,
    drop_left]
  have hp : ∀ payload : Text, (if 0x25 ∈ payload then percentDecode payload else payload) =
      percentDecode payload := by
    intro payload
    split_ifs with h
    · rfl
    · exact (percentDecode_of_notMem h).symm
  simp only [hp]
  rw [hz] at hf
  rw [base64Decode_payload _ hf, ha]
  have hlong : 0 < inner.length := length_pos_iff.mpr hn
  have htake : (([0x41, 0x41] ++ inner ++ [0x5a, 0x5a]).drop 2).take
      (([0x41, 0x41] ++ inner ++ [0x5a, 0x5a]).length - 4) = inner := by
    simp
  have htrim : trim inner = inner := trim_of_not_space fun byte hb =>
    not_space_of_lt (hi byte hb).1
  have hplain : (inner.flatMap fun c => if c > 0x20 ∧ c < 0x7f then [c]
      else [0x25, upperDigit (c >>> 4), upperDigit (c &&& 0xf)]) = inner :=
    (flatMap_congr fun c hc => if_pos (hi c hc)).trans (flatMap_singleton' inner)
  dsimp only
  rw [htake, htrim, hplain, if_neg, if_neg (by simpa using hn)]
  have hpre : [0x41, 0x41].isPrefixOf ([0x41, 0x41] ++ inner ++ [0x5a, 0x5a]) = true := by
    rw [ isPrefixOf_iff_prefix]
    exact prefix_append _ _
  have hsuf : (of "ZZ").isSuffixOf ([0x41, 0x41] ++ inner ++ [0x5a, 0x5a]) = true := by
    rw [hz, isSuffixOf_iff_suffix]
    exact suffix_append _ _
  simp only [hpre, hsuf, length_append, length_cons, length_nil, not_true_eq_false, or_false]
  omega

end Aria2Next.Text
