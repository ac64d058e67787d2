/-
`parseContentRange` of `http/Request`: where the bytes of a 206 belong, from
text that the server wrote.
-/
import Aria2Next.HttpTask
import Aria2Next.TextCodes

namespace Aria2Next.HttpTask

open Text List

def parseContentRange (value : Text) : Option ContentRange :=
  if ¬ istartsWith value (of "bytes") then none
  else
    let value := trim (value.drop 5)
    -- a common misspelling of the unit
    let value := if value.head? = some 0x3d then trim (value.drop 1) else value
    match value.idxOf? 0x2d, value.idxOf? 0x2f with
    | some dash, some slash =>
      if dash > slash then none
      else
        match toInt (value.take dash), toInt ((value.drop (dash + 1)).take (slash - dash - 1)) with
        | some first, some last =>
          if first < 0 ∨ last < first then none
          else some ⟨first, last, (toInt (value.drop (slash + 1))).getD (-1)⟩
        | _, _ => none
    | _, _ => none

theorem length_unit : (of "bytes").length = 5 := by
  decide +kernel

/-- The text behind the first slash, where the total stands. -/
def totalText (value : Text) : Text :=
  ((value.dropWhile (· ≠ 0x2f)).drop 1).rdropWhile isSpace

theorem totalText_append {left : Text} (hl : 0x2f ∉ left) (right : Text) :
    totalText (left ++ right) = totalText right := by
  rw [totalText, dropWhile_append_of_pos fun b hb => by
    simpa using ne_of_mem_of_not_mem hb hl]
  rfl

theorem totalText_cons (right : Text) : totalText (0x2f :: right) = right.rdropWhile isSpace := by
  rfl

theorem totalText_trim (v : Text) : totalText (trim v) = totalText v := by
  have hd : totalText (v.dropWhile isSpace) = totalText v := by
    conv_rhs => rw [← takeWhile_append_dropWhile (p := isSpace) (l := v)]
    refine (totalText_append (fun hs => ?_) _).symm
    exact absurd (mem_takeWhile_imp hs) (by decide)
  rw [trim, ← hd]
  generalize v.dropWhile isSpace = rest
  by_cases hs : 0x2f ∈ rest
  · obtain ⟨left, right, rfl, hl⟩ := eq_append_cons_of_mem hs
    rw [rdropWhile_append_cons isSpace left (by decide) right, totalText_append hl,
      totalText_append hl, totalText_cons, totalText_cons, rdropWhile_idempotent]
  · have hn : 0x2f ∉ rest.rdropWhile isSpace := fun hm =>
      hs (( rdropWhile_prefix isSpace rest).subset hm)
    have h := totalText_append hs []
    have h' := totalText_append hn []
    rw [append_nil] at h h'
    rw [h, h']

/-- In trimmed text the total stands behind the slash that is found. -/
theorem drop_slash {v : Text} {slash : Nat} (hf : (trim v).idxOf? 0x2f = some slash) :
    (trim v).drop (slash + 1) = totalText v := by
  have hm : 0x2f ∈ trim v := by
    by_contra hn
    rw [List.idxOf?_eq_none_iff.mpr hn] at hf
    exact absurd hf nofun
  obtain ⟨left, right, he, hl⟩ := eq_append_cons_of_mem hm
  rw [he, idxOf?_append_cons hl] at hf
  obtain rfl := Option.some.inj hf
  have ht : (trim v).rdropWhile isSpace = trim v := rdropWhile_idempotent _ _
  rw [he, rdropWhile_append_cons isSpace left (by decide)] at ht
  obtain ⟨_, hr⟩ := List.cons.inj (append_cancel_left ht)
  rw [← totalText_trim, he, totalText_append hl, totalText_cons, hr]
  simp [drop_append]

/-- What is accepted is ordered, and its total is the number behind the
slash. -/
theorem parseContentRange_eq_some {v : Text} {r : ContentRange}
    (hp : parseContentRange v = some r) :
    0 ≤ r.first ∧ r.first ≤ r.last ∧ r.total = (toInt (totalText v)).getD (-1) := by
  rw [parseContentRange] at hp
  split_ifs at hp with hu
  have hk : totalText v = totalText (v.drop 5) := by
    conv_lhs => rw [← take_append_drop 5 v]
    refine totalText_append (fun hm => ?_) _
    have hl := lower_take_of_istartsWith hu
    rw [length_unit] at hl
    have hi := mem_map_of_mem (f := lowerByte) hm
    rw [← lower, hl] at hi
    exact absurd hi (by decide +kernel)
  generalize v.drop 5 = re at hp hk
  obtain ⟨body, hb, ht⟩ : ∃ body, (if (trim re).head? = some 0x3d then
      trim ((trim re).drop 1) else trim re) = trim body ∧
      totalText body = totalText re := by
    split_ifs with he
    · obtain ⟨tail, he⟩ := List.head?_eq_some_iff.mp he
      refine ⟨tail, by rw [he, drop_one, tail_cons], ?_⟩
      rw [← totalText_trim re, he]
      have hn : (0x2f : UInt8) ∉ [0x3d] := by decide
      exact (totalText_append hn tail).symm
    · exact ⟨re, rfl, rfl⟩
  simp only [hb] at hp
  rw [hk, ← ht]
  cases hd : (trim body).idxOf? 0x2d with
  | none => simp [hd] at hp
  | some dash =>
    cases hs : (trim body).idxOf? 0x2f with
    | none => simp [hd, hs] at hp
    | some s =>
      rw [hd, hs] at hp
      dsimp only at hp
      split_ifs at hp with hle
      split at hp
      · split_ifs at hp with ho
        obtain rfl := Option.some.inj hp
        rw [drop_slash hs]
        simp only [not_or, not_lt] at ho
        exact ⟨ho.1, ho.2, rfl⟩
      · cases hp

/-- A written range is read back, whatever number stands for its total. -/
theorem parseContentRange_written {unit : Text} (hu : lower unit = of "bytes") (s : Nat)
    {first last : Nat} (hfl : first ≤ last) (hm : (last : Int) ≤ int64Max) {n : Text}
    (ht : ∀ b ∈ n, isSpace b = false) :
    parseContentRange (unit ++ List.replicate s 0x20 ++
        (decimal first ++ 0x2d :: decimal last ++ 0x2f :: n)) =
      some ⟨first, last, (toInt n).getD (-1)⟩ := by
  have hl : unit.length = 5 := by
    have := congrArg List.length hu
    rwa [lower, length_map, length_unit] at this
  have hf := decimal_digits first
  have hla := decimal_digits last
  have hd : 0x2d ∉ decimal first := fun hm => absurd (hf _ hm) (by decide)
  have hsl : 0x2f ∉ decimal first ++ 0x2d :: decimal last := by
    intro hm
    rcases mem_append.mp hm with hm | hm
    · exact absurd (hf _ hm) (by decide)
    · rcases mem_cons.mp hm with hm | hm
      · exact absurd hm (by decide)
      · exact absurd (hla _ hm) (by decide)
  generalize hw : decimal first ++ 0x2d :: decimal last ++ 0x2f :: n = written
  have hb : trim (List.replicate s 0x20 ++ written) = written := by
    have hn : ∀ b ∈ written, isSpace b = false := by
      intro b hm
      simp only [← hw, mem_append, mem_cons] at hm
      rcases hm with (hm | rfl | hm) | rfl | hm
      · exact not_space_of_digit (hf b hm)
      · decide
      · exact not_space_of_digit (hla b hm)
      · decide
      · exact ht b hm
    induction s with
    | zero => exact trim_of_not_space hn
    | succ s ih => rw [replicate_succ, cons_append, trim_space_cons, ih]
  have he : written.head? ≠ some 0x3d := by
    intro he
    obtain ⟨b, rest, hc⟩ := exists_cons_of_ne_nil (decimal_ne_nil first)
    rw [← hw, hc] at he
    have := hf b (hc ▸ mem_cons_self)
    rw [Option.some.inj he] at this
    exact absurd this (by decide)
  have hst : lower unit = lower (of "bytes") := hu.trans (by decide +kernel)
  rw [parseContentRange, append_assoc, if_neg (not_not.mpr (istartsWith_append hst _)), ← hl,
    drop_left, hb]
  have hs : written = decimal first ++ 0x2d :: (decimal last ++ 0x2f :: n) := by
    rw [← hw, append_assoc, cons_append]
  have hle : (decimal first ++ 0x2d :: decimal last).length - (decimal first).length - 1 =
      (decimal last).length := by
    rw [length_append, length_cons]
    omega
  have hlas : (written.drop ((decimal first).length + 1)).take (decimal last).length =
      decimal last := by
    rw [hs, drop_length_add_append, drop_succ_cons, drop_zero, take_left]
  have hto : written.drop ((decimal first ++ 0x2d :: decimal last).length + 1) = n := by
    rw [← hw, drop_length_add_append, drop_succ_cons, drop_zero]
  have hda : written.idxOf? 0x2d = some (decimal first).length := by
    rw [hs, idxOf?_append_cons hd]
  have hsla : written.idxOf? 0x2f = some (decimal first ++ 0x2d :: decimal last).length := by
    rw [← hw, idxOf?_append_cons hsl]
  simp only [if_neg he, hda, hsla]
  rw [if_neg (by simp), hle, hlas, hto, hs, take_left, toInt_decimal hm,
    toInt_decimal (le_trans (by omega) hm)]
  exact if_neg (by omega)

end Aria2Next.HttpTask
