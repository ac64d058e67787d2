/-
Encoded words in the file name of a Content-Disposition header
(`base/ContentDisposition`).  The Q coding is read through `percentDecode`, which
also takes a percent sign that stands for itself.
-/
import Aria2Next.ContentDisposition

namespace Aria2Next.ContentDisposition

open List Text

/-- The bytes that stand for themselves in the Q coding. -/
def isLiteral (c : UInt8) : Bool :=
  0x20 < c && c < 0x7f && c ≠ 0x3f && c ≠ 0x3d && c ≠ 0x5f && c ≠ 0x22 && c ≠ 0x5c

/-- The first text is a Q encoding of the second. -/
inductive QCoded : Text → Text → Prop
  | nil : QCoded [] []
  | literal {c : UInt8} {q n : Text} (plain : isLiteral c = true) (rest : QCoded q n) :
      QCoded (c :: q) (c :: n)
  | blank {q n : Text} (rest : QCoded q n) : QCoded (0x5f :: q) (0x20 :: n)
  | byte {high low x y : UInt8} {q n : Text} (first : Text.hexValue high = some x)
      (second : Text.hexValue low = some y) (rest : QCoded q n) :
      QCoded (0x3d :: high :: low :: q) ((x <<< 4 ||| y) :: n)

/-- A percent sign that stands for itself is followed by two digits. -/
def Misread (q : Text) : Prop :=
  ∃ high low, [0x25, high, low] <:+: q ∧ (Text.hexValue high).isSome ∧ (Text.hexValue low).isSome

/-- Both replacements on one byte. -/
def substitute (c : UInt8) : UInt8 := if c = 0x5f then 0x20 else if c = 0x3d then 0x25 else c

def decodeQ (q : Text) : Text := percentDecode (q.map substitute)

theorem replaceAll_byte (v : Text) (a b : UInt8) :
    replaceAll v [a] [b] = v.map fun c => if c = a then b else c := by
  rw [replaceAll]
  induction v with
  | nil => rfl
  | cons c v ih =>
    rw [replaceFrom, map_cons, ← ih]
    by_cases hc : c = a
    · subst hc
      simp
    · simp [hc, Ne.symm hc]

theorem decodeWord_q (q : Text) : decodeWord (of "Q") q = some (decodeQ q) := by
  have hl : iequals (of "Q") (of "b") = false ∧ iequals (of "Q") (of "q") = true ∧
      of "_" = [0x5f] ∧ of " " = [0x20] ∧ of "=" = [0x3d] ∧ of "%" = [0x25] := by decide +kernel
  obtain ⟨hb, hq, h1, h2, h3, h4⟩ := hl
  rw [decodeWord, hb, if_neg (by simp), if_pos hq, h1, h2, h3, h4, replaceAll_byte, replaceAll_byte,
    map_map, decodeQ]
  congr 2
  refine map_congr_left fun c _ => ?_
  simp only [Function.comp_apply, substitute]
  split_ifs <;> simp_all

/-- Digits are neither replaced nor percent signs. -/
theorem hexValue_facts (c : UInt8) :
    ((Text.hexValue c).isSome → substitute c = c ∧ c ≠ 0x25 ∧ 0x20 < c ∧ c < 0x80 ∧ c ≠ 0x3f) ∧
      ((Text.hexValue (substitute c)).isSome → (Text.hexValue c).isSome) :=
  forall_byte (p := fun c =>
    ((Text.hexValue c).isSome → substitute c = c ∧ c ≠ 0x25 ∧ 0x20 < c ∧ c < 0x80 ∧ c ≠ 0x3f) ∧
      ((Text.hexValue (substitute c)).isSome → (Text.hexValue c).isSome)) (by decide +kernel) c

theorem isLiteral_facts (c : UInt8) :
    isLiteral c = true → substitute c = c ∧ 0x20 < c ∧ c < 0x80 ∧ c ≠ 0x3f :=
  forall_byte (p := fun c =>
    isLiteral c = true → substitute c = c ∧ 0x20 < c ∧ c < 0x80 ∧ c ≠ 0x3f) (by decide +kernel) c

variable {c high hg low : UInt8} {q n v : Text}

theorem percentDecode_escape {x y : UInt8} (hx : Text.hexValue hg = some x)
    (hy : Text.hexValue low = some y) (r : Text) :
    percentDecode (0x25 :: hg :: low :: r) = (x <<< 4 ||| y) :: percentDecode r := by
  rw [percentDecode, hx, hy]

/-- A percent sign without two digits behind it stays. -/
theorem percentDecode_percent
    (hv : ∀ high low r, v = high :: low :: r → ¬ ((Text.hexValue high).isSome ∧ (Text.hexValue low).isSome)) :
    percentDecode (0x25 :: v) = 0x25 :: percentDecode v := by
  match v with
  | [] => rfl
  | [_] => rfl
  | high :: low :: r =>
    have hn := hv high low r rfl
    rw [percentDecode]
    split
    · rename_i x y hx hy
      exact absurd ⟨hx ▸ rfl, hy ▸ rfl⟩ hn
    · rfl

theorem misread_cons_of_ne (hc : c ≠ 0x25) : Misread (c :: q) ↔ Misread q := by
  constructor
  · rintro ⟨hg, low, hi, hx⟩
    rcases infix_cons_iff.mp hi with hp | hi
    · exact absurd (cons_prefix_cons.mp hp).1 (Ne.symm hc)
    · exact ⟨hg, low, hi, hx⟩
  · rintro ⟨hg, low, hi, hx⟩
    exact ⟨hg, low, infix_cons hi, hx⟩

theorem misread_percent (hq : ∀ hg low r, q = hg :: low :: r →
    ¬ ((Text.hexValue hg).isSome ∧ (Text.hexValue low).isSome)) : Misread (0x25 :: q) ↔ Misread q := by
  constructor
  · rintro ⟨hg, low, hi, hx⟩
    rcases infix_cons_iff.mp hi with hp | hi
    · obtain ⟨r, hr⟩ := (cons_prefix_cons.mp hp).2
      exact absurd hx (hq hg low r hr.symm)
    · exact ⟨hg, low, hi, hx⟩
  · rintro ⟨hg, low, hi, hx⟩
    exact ⟨hg, low, infix_cons hi, hx⟩

/-- The decoder gives the text back, or less of it where a percent sign is
taken for an escape. -/
theorem QCoded.decodeQ_eq (hq : QCoded q n) :
    (¬ Misread q → decodeQ q = n) ∧ (Misread q → (decodeQ q).length < n.length) := by
  induction hq with
  | nil =>
    refine ⟨fun _ => rfl, ?_⟩
    rintro ⟨hg, low, hi, _⟩
    exact absurd (infix_nil.mp hi) (by simp)
  | @literal c q n hc r ih =>
    rw [decodeQ, map_cons, (isLiteral_facts c hc).1]
    by_cases hp : c = 0x25
    · subst hp
      by_cases hd : ∃ hg low later, q = hg :: low :: later ∧ (Text.hexValue hg).isSome ∧
          (Text.hexValue low).isSome
      · obtain ⟨hg, low, later, rfl, hh, hl⟩ := hd
        have hm : Misread (0x25 :: hg :: low :: later) := ⟨hg, low, ⟨[], later, rfl⟩, hh, hl⟩
        refine ⟨fun hn => absurd hm hn, fun _ => ?_⟩
        obtain ⟨hsh, hph, _⟩ := (hexValue_facts hg).1 hh
        obtain ⟨hsl, hpl, _⟩ := (hexValue_facts low).1 hl
        obtain ⟨x, hx⟩ := Option.isSome_iff_exists.mp hh
        obtain ⟨y, hy⟩ := Option.isSome_iff_exists.mp hl
        have hle : (decodeQ (hg :: low :: later)).length ≤ n.length := by
          by_cases hml : Misread (hg :: low :: later)
          · exact (ih.2 hml).le
          · rw [ih.1 hml]
        rw [decodeQ, map_cons, map_cons, hsh, hsl, percentDecode_cons_of_ne hph,
          percentDecode_cons_of_ne hpl] at hle
        rw [map_cons, map_cons, hsh, hsl, percentDecode_escape hx hy]
        simp only [length_cons] at hle ⊢
        omega
      · have hno : ∀ hg low later, q = hg :: low :: later →
            ¬ ((Text.hexValue hg).isSome ∧ (Text.hexValue low).isSome) :=
          fun hg low later hq hs => hd ⟨hg, low, later, hq, hs⟩
        rw [misread_percent hno, percentDecode_percent]
        · exact ⟨fun hm => congrArg _ (ih.1 hm), fun hm => Nat.succ_lt_succ (ih.2 hm)⟩
        · rintro hg low later hv ⟨hh, hl⟩
          obtain ⟨a, t, rfl, rfl, ht⟩ := map_eq_cons_iff.mp hv
          obtain ⟨b, t, rfl, rfl, _⟩ := map_eq_cons_iff.mp ht
          exact hno a b t rfl ⟨(hexValue_facts a).2 hh, (hexValue_facts b).2 hl⟩
    · rw [percentDecode_cons_of_ne hp, misread_cons_of_ne hp]
      exact ⟨fun hm => congrArg _ (ih.1 hm), fun hm => Nat.succ_lt_succ (ih.2 hm)⟩
  | @blank q n r ih =>
    have hs : decodeQ (0x5f :: q) = 0x20 :: decodeQ q := percentDecode_cons_of_ne (by decide) _
    rw [misread_cons_of_ne (by decide)]
    exact ⟨fun hm => congrArg _ (ih.1 hm), fun hm => Nat.succ_lt_succ (ih.2 hm)⟩
  | @byte hg low x y q n hx hy r ih =>
    obtain ⟨hsh, hph, _⟩ := (hexValue_facts hg).1 (by simp [hx])
    obtain ⟨hsl, hpl, _⟩ := (hexValue_facts low).1 (by simp [hy])
    have hs : decodeQ (0x3d :: hg :: low :: q) = (x <<< 4 ||| y) :: decodeQ q := by
      rw [decodeQ, map_cons, map_cons, map_cons, hsh, hsl]
      exact percentDecode_escape hx hy _
    rw [hs, misread_cons_of_ne (by decide), misread_cons_of_ne hph, misread_cons_of_ne hpl]
    exact ⟨fun hm => congrArg _ (ih.1 hm), fun hm => Nat.succ_lt_succ (ih.2 hm)⟩

/-- The bytes of a Q encoding. -/
theorem QCoded.plain (hq : QCoded q n) : ∀ c ∈ q, 0x20 < c ∧ c < 0x80 ∧ c ≠ 0x3f := by
  induction hq with
  | nil => simp
  | literal hc _ ih => exact forall_mem_cons.mpr ⟨(isLiteral_facts _ hc).2, ih⟩
  | blank _ ih => exact forall_mem_cons.mpr ⟨by decide, ih⟩
  | @byte hg low _ _ _ _ hx hy _ ih =>
    have hh := (hexValue_facts hg).1 (by simp [hx])
    have hl := (hexValue_facts low).1 (by simp [hy])
    exact forall_mem_cons.mpr ⟨by decide, forall_mem_cons.mpr ⟨hh.2.2, forall_mem_cons.mpr ⟨hl.2.2, ih⟩⟩⟩

/-- At most two digits of a text without percent signs are taken by an escape
that starts in front of it. -/
theorem percentDecode_end {t : Text} (ht : 0x25 ∉ t) : ∀ left : Text, ∃ ta rest,
    t = ta ++ rest ∧ ta.length ≤ 2 ∧ (∀ c ∈ ta, (Text.hexValue c).isSome) ∧
      rest <:+ percentDecode (left ++ t)
  | [] => ⟨[], t, rfl, by simp, by simp, (percentDecode_of_notMem ht).symm ▸ suffix_refl t⟩
  | c :: left => by
    by_cases hp : c = 0x25 ∧ ∃ high low rest, left ++ t = high :: low :: rest ∧
        (Text.hexValue high).isSome ∧ (Text.hexValue low).isSome
    · obtain ⟨rfl, high, low, rest, hr, hh, hl⟩ := hp
      obtain ⟨x, hx⟩ := Option.isSome_iff_exists.mp hh
      obtain ⟨y, hy⟩ := Option.isSome_iff_exists.mp hl
      rw [cons_append, hr, percentDecode_escape hx hy]
      match left with
      | [] =>
        obtain rfl : t = high :: low :: rest := hr
        rw [mem_cons, mem_cons, not_or, not_or] at ht
        refine ⟨[high, low], rest, rfl, le_refl _, by simp [hh, hl], ?_⟩
        rw [percentDecode_of_notMem ht.2.2]
        exact suffix_cons _ _
      | [_] =>
        obtain ⟨_, rfl⟩ := List.cons.inj hr
        rw [mem_cons, not_or] at ht
        refine ⟨[low], rest, rfl, by simp, by simp [hl], ?_⟩
        rw [percentDecode_of_notMem ht.2]
        exact suffix_cons _ _
      | _ :: _ :: left =>
        obtain ⟨_, hr⟩ := List.cons.inj hr
        obtain ⟨_, rfl⟩ := List.cons.inj hr
        obtain ⟨ta, rest, he, hle, hd, hs⟩ := percentDecode_end ht left
        exact ⟨ta, rest, he, hle, hd, hs.trans (suffix_cons _ _)⟩
    · have hd : percentDecode (c :: (left ++ t)) = c :: percentDecode (left ++ t) := by
        by_cases hc : c = 0x25
        · subst hc
          exact percentDecode_percent fun high low rest hr hs => hp ⟨rfl, high, low, rest, hr, hs⟩
        · exact percentDecode_cons_of_ne hc _
      obtain ⟨ta, rest, he, hle, hg, hs⟩ := percentDecode_end ht left
      rw [cons_append, hd]
      exact ⟨ta, rest, he, hle, hg, hs.trans (suffix_cons _ _)⟩

theorem drop_suffix_percentDecode {t : Text} (ht : 0x25 ∉ t) (left : Text) :
    t.drop 2 ++ [0x3f, 0x3d] <:+ percentDecode (left ++ (t ++ [0x3f, 0x3d])) := by
  obtain ⟨taken, rest, he, hl, hd, hs⟩ := percentDecode_end
    (t := t ++ [0x3f, 0x3d]) (by simp [ht]) left
  refine IsSuffix.trans ?_ hs
  rcases append_eq_append_iff.mp he with ⟨middle, rfl, hr⟩ | ⟨middle, rfl, rfl⟩
  · cases middle with
    | nil =>
      rw [append_nil] at hl
      rw [drop_eq_nil_of_le hl, hr]
      exact suffix_refl _
    | cons c middle =>
      -- The question mark is no digit.
      obtain ⟨rfl, _⟩ := List.cons.inj hr
      exact absurd (hd 0x3f (by simp)) (by decide)
  · rw [drop_append, drop_eq_nil_of_le hl, nil_append]
    obtain ⟨front, hf⟩ := drop_suffix (2 - taken.length) middle
    exact ⟨front, by rw [← append_assoc, hf]⟩

/-- The byte in front of a decoded end is no percent sign, if the text ends
with the encoded one. -/
theorem step_no_percent {t m X : Text} (ht : 0x25 ∉ t) (hl : m ≠ [] → m.length + 2 ≤ t.length)
    (hm : c :: m <:+ X) (hX : t.drop 2 ++ [0x3f, 0x3d] <:+ X) : c ≠ 0x25 ∧ (m = [] → c = 0x3d) := by
  by_cases hn : m = []
  · subst hn
    have hs := suffix_of_suffix_length_le hm ((suffix_append _ _).trans hX) (by simp)
    have hc : c = 0x3d := by
      obtain ⟨left, hs⟩ := hs
      have := congrArg List.getLast? hs
      simpa using this
    subst hc
    exact ⟨by decide, fun _ => rfl⟩
  · have hs := suffix_of_suffix_length_le hm hX (by
      have := hl hn
      simp only [length_cons, length_append, length_drop, length_nil]
      omega)
    refine ⟨?_, fun h => absurd h hn⟩
    rintro rfl
    rcases mem_append.mp (hs.subset mem_cons_self) with h | h
    · exact ht (mem_of_mem_drop h)
    · exact absurd h (by decide)

/-- A text with a percent sign does not end what starts with its own encoding:
the sign would have to be met nearer and nearer to the end. -/
theorem QCoded.no_percent {X : Text} (hq : QCoded q n) (hn : n <:+ X)
    (hX : ∀ t, t <:+ q → 0x25 ∉ t → t.drop 2 ++ [0x3f, 0x3d] <:+ X) :
    0x25 ∉ n ∧ 0x25 ∉ q ∧ (n ≠ [] → n.length + 2 ≤ q.length) := by
  induction hq with
  | nil => simp
  | @literal c q n hc r ih =>
    obtain ⟨hi, hiq, hl⟩ := ih ((suffix_cons _ _).trans hn) fun t ht => hX t (ht.trans (suffix_cons _ _))
    obtain ⟨hs, he⟩ := step_no_percent hiq hl hn (hX q (suffix_cons _ _) hiq)
    refine ⟨not_mem_cons_of_ne_of_not_mem hs.symm hi, not_mem_cons_of_ne_of_not_mem hs.symm hiq,
      fun _ => ?_⟩
    have hne : n ≠ [] := by
      intro h
      rw [he h] at hc
      exact absurd hc (by decide)
    exact Nat.succ_le_succ (hl hne)
  | @blank q n r ih =>
    obtain ⟨hi, hiq, hl⟩ := ih ((suffix_cons _ _).trans hn) fun t ht => hX t (ht.trans (suffix_cons _ _))
    obtain ⟨_, he⟩ := step_no_percent hiq hl hn (hX q (suffix_cons _ _) hiq)
    refine ⟨not_mem_cons_of_ne_of_not_mem (by decide) hi,
      not_mem_cons_of_ne_of_not_mem (by decide) hiq, fun _ => ?_⟩
    exact Nat.succ_le_succ (hl fun h => absurd (he h) (by decide))
  | @byte high low x y q n hx hy r ih =>
    have hsuf : q <:+ 0x3d :: high :: low :: q := ⟨[0x3d, high, low], rfl⟩
    obtain ⟨hi, hiq, hl⟩ := ih ((suffix_cons _ _).trans hn) fun t ht => hX t (ht.trans hsuf)
    obtain ⟨hs, _⟩ := step_no_percent hiq hl hn (hX q hsuf hiq)
    have hh := (hexValue_facts high).1 (by simp [hx])
    have hlo := (hexValue_facts low).1 (by simp [hy])
    refine ⟨not_mem_cons_of_ne_of_not_mem hs.symm hi, ?_, fun _ => ?_⟩
    · simp [hh.2.1.symm, hlo.2.1.symm, hiq]
    · by_cases hne : n = []
      · simp [hne]
      · have := hl hne
        simp only [length_cons]
        omega

/-- An encoded word in UTF-8. -/
def word (coding coded : Text) : Text := of "=?UTF-8?" ++ coding ++ 0x3f :: coded ++ [0x3f, 0x3d]

theorem encodedWord_word {coding co : Text} (hc : ∀ c ∈ coding, 0x20 < c ∧ c ≠ 0x3f)
    (hd : ∀ c ∈ co, 0x20 < c ∧ c ≠ 0x3f) :
    encodedWord (word coding co) = (decodeWord coding co).filter isUtf8 := by
  have hl : of "=?UTF-8?" = [0x3d, 0x3f] ++ of "UTF-8" ++ [0x3f] ∧ of "=?" = [0x3d, 0x3f] ∧
      of "?=" = [0x3f, 0x3d] ∧ lower (of "UTF-8") ≠ of "iso-8859-1" ∧
      lower (of "UTF-8") = of "utf-8" ∧ ∀ c ∈ of "UTF-8", 0x20 < c ∧ c ≠ 0x3f := by decide +kernel
  obtain ⟨hw, hp, hs, hi, hu, hv⟩ := hl
  have hb : word coding co =
      [0x3d, 0x3f] ++ [0x3f].intercalate [of "UTF-8", coding, co] ++ [0x3f, 0x3d] := by
    simp [word, hw]
  have hpre : (of "=?").isPrefixOf (word coding co) = true := by
    rw [ isPrefixOf_iff_prefix, hp, hb]
    exact prefix_append _ _
  have hsuf : (of "?=").isSuffixOf (word coding co) = true := by
    rw [isSuffixOf_iff_suffix, hs]
    exact suffix_append _ _
  have hbody : (if (word coding co).length < 4 then (word coding co).drop 2
      else ((word coding co).drop 2).take ((word coding co).length - 4)) =
      [0x3f].intercalate [of "UTF-8", coding, co] := by
    rw [hb]
    generalize [0x3f].intercalate [of "UTF-8", coding, co] = body
    have hlen : ([0x3d, 0x3f] ++ body ++ [0x3f, 0x3d]).length = body.length + 4 := by
      simp only [length_append, length_cons, length_nil]
      omega
    rw [hlen]
    exact take_left
  have hparts : ∀ p ∈ [of "UTF-8", coding, co], 0x3f ∉ p ∧ trim p = p := by
    have ht : ∀ p : Text, (∀ c ∈ p, 0x20 < c ∧ c ≠ 0x3f) → 0x3f ∉ p ∧ trim p = p :=
      fun p hp => ⟨fun h => (hp _ h).2 rfl, trim_of_not_space fun c h => not_space_of_lt (hp c h).1⟩
    simp only [forall_mem_cons, not_mem_nil, false_imp_iff, implies_true, and_true]
    exact ⟨ht _ hv, ht _ hc, ht _ hd⟩
  have hsplit : split ([0x3f].intercalate [of "UTF-8", coding, co]) 0x3f true =
      [of "UTF-8", coding, co] := by
    rw [split, splitOn_intercalate _ (fun p h => (hparts p h).1) (by simp),
      map_congr_left fun p h => (hparts p h).2]
    simp
  rw [encodedWord, hpre, hsuf, hbody]
  dsimp only
  rw [hsplit]
  dsimp only
  cases decodeWord coding co with
  | none => rfl
  | some d =>
    dsimp only
    rw [if_neg hi, hu]
    simp [Option.filter]

theorem isUtf8_of_ascii (hv : ∀ c ∈ v, c < 0x80) : isUtf8 v = true := by
  induction v with
  | nil => rfl
  | cons c v ih =>
    obtain ⟨hc, hv⟩ := forall_mem_cons.mp hv
    exact (isUtf8_append (isUtf8_ascii hc) v).trans (ih hv)

theorem baseName_suffix (n : Text) : baseName n <:+ n := by
  rw [baseName]
  split_ifs
  · exact nil_suffix
  · exact rtakeWhile_suffix _ _

theorem QCoded.mem_percent (hq : QCoded q n) (hm : Misread q) : 0x25 ∈ n := by
  obtain ⟨hg, low, hi, _⟩ := hm
  have hp : 0x25 ∈ q := hi.subset mem_cons_self
  clear hi
  induction hq with
  | nil => exact hp
  | literal _ _ ih =>
    rcases mem_cons.mp hp with rfl | hp
    · exact mem_cons_self
    · exact mem_cons_of_mem _ (ih hp)
  | blank _ ih =>
    rcases mem_cons.mp hp with hp | hp
    · exact absurd hp (by decide)
    · exact mem_cons_of_mem _ (ih hp)
  | @byte hg low _ _ _ _ hx hy _ ih =>
    have hh := (hexValue_facts hg).1 (by simp [hx])
    have hl := (hexValue_facts low).1 (by simp [hy])
    simp only [mem_cons, hh.2.1.symm, hl.2.1.symm, false_or] at hp
    rcases hp with hp | hp
    · exact absurd hp (by decide)
    · exact mem_cons_of_mem _ (ih hp)

/-- The name that a Q word gives. -/
theorem baseName_word (hq : QCoded q n) (hn : Whole n) :
    baseName (plainValue (word (of "Q") q)) = n ↔ ¬ Misread q := by
  have hpl := hq.plain
  have hw : encodedWord (word (of "Q") q) = (some (decodeQ q)).filter isUtf8 := by
    rw [encodedWord_word _ fun c h => ⟨(hpl c h).1, (hpl c h).2.2⟩, decodeWord_q]
    decide +kernel
  obtain ⟨hd, hm⟩ := hq.decodeQ_eq
  constructor
  · intro he hmis
    have hper := hq.mem_percent hmis
    by_cases hu : isUtf8 (decodeQ q) = true
    · rw [plainValue, hw, Option.filter_some_pos hu] at he
      have hle := (baseName_suffix (decodeQ q)).length_le
      have := hm hmis
      rw [he] at hle
      omega
    · -- The word itself or its percent decoding ends with the encoding.
      rw [plainValue, hw, Option.filter_some_neg ((Bool.not_eq_true _).mp hu)] at he
      dsimp only at he
      split_ifs at he
      · refine (hq.no_percent (he ▸ baseName_suffix _) fun t ⟨left, hl⟩ ht => ?_).1 hper
        have := drop_suffix_percentDecode ht (of "=?UTF-8?" ++ of "Q" ++ 0x3f :: left)
        simpa [word, ← hl] using this
      · rw [asUtf8, if_pos] at he
        · refine (hq.no_percent (he ▸ baseName_suffix _) fun t ht _ => ?_).1 hper
          obtain ⟨f, hf⟩ := (drop_suffix 2 t).trans ht
          exact ⟨of "=?UTF-8?" ++ of "Q" ++ 0x3f :: f, by simp [word, ← hf]⟩
        · refine isUtf8_of_ascii ?_
          have hl : (∀ c ∈ of "=?UTF-8?", c < 0x80) ∧ ∀ c ∈ of "Q", c < 0x80 := by decide +kernel
          simp only [word, forall_mem_append, forall_mem_cons]
          exact ⟨⟨hl, by decide, fun c h => (hpl c h).2.1⟩, by decide, by decide, by simp⟩
  · intro hmis
    rw [hd hmis, Option.filter_some_pos hn.2.1] at hw
    rw [plainValue, hw]
    exact hn.baseName_eq

/-- A file name in quotes. -/
def quotedName (v : Text) : Piece where
  before := 0
  after := 1
  name := of "filename"
  written := .quotedString (v.map fun c => (c = 0x22 || c = 0x5c, c))
  token := by decide +kernel
  valid := forall_mem_map.mpr fun c _ h => by simpa using h

/-- A header whose only name is a quoted encoded word: the B coding gives the
name, the Q coding unless a percent sign of its own is taken for an escape. -/
theorem contentDispositionFileName_word (disposition n : Text) (before after : List Piece)
    (piece : Piece) (bytes : List (Bool × UInt8)) (hd : 0x3b ∉ disposition)
    (hp : piece.Named "filename") (_hw : piece.written = .quotedString bytes) (hn : Whole n)
    (ho : ∀ other ∈ before ++ after, ¬ other.Named "filename*" ∧ ¬ other.Named "filename") :
    (piece.written.value = word (of "B") (base64Encode n) →
      contentDispositionFileName (header disposition (before ++ piece :: after)) = n) ∧
    ∀ q, QCoded q n → piece.written.value = word (of "Q") q →
      (contentDispositionFileName (header disposition (before ++ piece :: after)) = n ↔
        ¬ Misread q) := by
  have hf : contentDispositionFileName (header disposition (before ++ piece :: after)) =
      baseName (plainValue piece.written.value) := by
    rw [contentDispositionFileName, parameters_header hd, map_append]
    refine fileNameFrom_plain (p := piece.parameter) ?_ hp
    rw [← map_append]
    exact forall_mem_map.mpr ho
  rw [hf]
  refine ⟨fun hv => ?_, fun q hq hv => ?_⟩
  · have hb : decodeWord (of "B") (base64Encode n) = some n := by
      rw [decodeWord, if_pos (by decide +kernel), base64Decode_base64Encode]
    have he := @encodedWord_word (of "B") _ (by decide +kernel)
      fun c (h : c ∈ base64Encode n) => ⟨(base64Encode_plain h).1, (base64Encode_plain h).2.2⟩
    rw [hb, Option.filter_some_pos hn.2.1] at he
    rw [hv, plainValue, he]
    exact hn.baseName_eq
  · rw [hv]
    exact baseName_word hq hn

theorem contentDispositionFileName_word_blank :
    contentDispositionFileName (of "attachment; filename=\"=?UTF-8?Q?a_b?=\"") = of "a b" := by
  have hh : of "attachment; filename=\"=?UTF-8?Q?a_b?=\"" =
      header (of "attachment") ([] ++ quotedName (word (of "Q") (of "a_b")) :: []) := by
    decide +kernel
  have hq : QCoded (of "a_b") (of "a b") := by
    have hl : of "a_b" = [0x61, 0x5f, 0x62] ∧ of "a b" = [0x61, 0x20, 0x62] := by decide +kernel
    rw [hl.1, hl.2]
    exact .literal (by decide) (.blank (.literal (by decide) .nil))
  have hm : ¬ Misread (of "a_b") := by
    rintro ⟨high, low, hi, _⟩
    exact absurd (hi.subset mem_cons_self) (by decide +kernel)
  have hn : Whole (of "a b") := by
    unfold Whole
    decide +kernel
  rw [hh]
  exact ((contentDispositionFileName_word (of "attachment") (of "a b") [] [] _ _
    (by decide +kernel) (by unfold Piece.Named; decide +kernel) rfl hn (by simp)).2 _ hq
    (by decide +kernel)).mpr hm

/-- The percent sign of `%41` stands for itself, and the name is `A`. -/
theorem contentDispositionFileName_percent : QCoded (of "%41") (of "%41") ∧
    contentDispositionFileName (of "attachment; filename=\"=?UTF-8?Q?%41?=\"") = of "A" := by
  have hh : of "attachment; filename=\"=?UTF-8?Q?%41?=\"" =
      header (of "attachment") [quotedName (word (of "Q") (of "%41"))] := by decide +kernel
  constructor
  · have hl : of "%41" = [0x25, 0x34, 0x31] := by decide +kernel
    rw [hl]
    exact .literal (by decide) (.literal (by decide) (.literal (by decide) .nil))
  · decide +kernel

end Aria2Next.ContentDisposition
