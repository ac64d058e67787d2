/-
`http/Ranges`: byte ranges kept disjoint and coalesced in a map from begin to
end.  An interval list stands for the map in key order; an iterator is the
split of that list at its position.
-/
import Mathlib
import Aria2Next.Runs

namespace Aria2Next

open Runs List

/-- A half-open byte range `[begin, end)`. -/
abbrev Range := Int × Int

namespace Ranges

/-- Every interval is non-empty and ends before the next one begins, with at
least one missing offset between them. -/
def Separated (ranges : List Range) : Prop := (∀ range ∈ ranges, range.1 < range.2) ∧
    ranges.Pairwise (fun left right => left.2 < right.1)

instance (ranges : List Range) : Decidable (Separated ranges) := inferInstanceAs (Decidable (_ ∧ _))

/-- The offsets an interval list denotes. -/
def offsets (ranges : List Range) : Set Int :=
  { offset | ∃ range ∈ ranges, range.1 ≤ offset ∧ offset < range.2 }

/-- `ranges_.upper_bound(begin)`: the intervals before the iterator and those
from it on. -/
def upperBound (begin : Int) (ranges : List Range) : List Range × List Range :=
  (ranges.takeWhile (fun range => range.1 ≤ begin), ranges.dropWhile (fun range => range.1 ≤ begin))

/-- `ranges_.emplace(begin, end)`: nothing happens when the key is taken. -/
def emplace (begin stop : Int) : List Range → List Range
  | [] => [(begin, stop)]
  | next :: rest =>
    if begin < next.1 then (begin, stop) :: next :: rest
    else if next.1 < begin then next :: emplace begin stop rest
    else next :: rest

/-- Where `add` starts merging: `upper_bound(begin)`, moved back onto a
neighbour that reaches `begin`, whose begin is then taken over. -/
def addCursor (begin : Int) (ranges : List Range) : List Range × Int × List Range :=
  let (before, after) := upperBound begin ranges
  match before.getLast? with
  | some prev =>
    if begin ≤ prev.2 then (before.dropLast, prev.1, prev :: after)
    else (before, begin, after)
  | none => (before, begin, after)

/-- The loop of `add`: intervals that begin no later than `stop` are erased
and their ends taken in. -/
def absorb (stop : Int) : List Range → Int × List Range
  | [] => (stop, [])
  | next :: rest =>
    if next.1 ≤ stop then absorb (max stop next.2) rest
    else (stop, next :: rest)

def add (ranges : List Range) (begin stop : Int) : List Range :=
  if begin ≥ stop then ranges
  else
    let (before, first, after) := addCursor begin ranges
    let (last, rest) := absorb stop after
    emplace first last (before ++ rest)

/-- The loop of `remove`; `before` is what the iterator has passed. -/
def removeLoop (begin stop : Int) (before : List Range) : List Range → List Range
  | [] => before
  | (first, last) :: after =>
    if first < stop then
      if last ≤ begin then
        removeLoop begin stop (before ++ [(first, last)]) after
      else
        let kept := if first < begin then emplace first begin before
          else before
        if last > stop then kept ++ emplace stop last after
        else removeLoop begin stop kept after
    else before ++ (first, last) :: after

def remove (ranges : List Range) (begin stop : Int) : List Range :=
  if begin ≥ stop then ranges
  else
    let (before, after) := upperBound begin ranges
    match before.getLast? with
    | some prev => removeLoop begin stop before.dropLast (prev :: after)
    | none => removeLoop begin stop [] after

def contains (ranges : List Range) (begin stop : Int) : Bool :=
  if begin ≥ stop then true
  else
    match (upperBound begin ranges).1.getLast? with
    | some prev => stop ≤ prev.2
    | none => false

def total (ranges : List Range) : Int := (ranges.map (fun range => range.2 - range.1)).sum

/-- Bytes of `[begin, stop)` that are present. -/
def covered (ranges : List Range) (begin stop : Int) : Int :=
  let (before, after) := upperBound begin ranges
  let tail := before.getLast?.toList ++ after
  ((tail.takeWhile fun range => range.1 < stop).map fun range =>
    max 0 (min stop range.2 - max begin range.1)).sum

/-- Where the first gap from `start` on begins: `start`, or the end of the
interval that covers it. -/
def gapBegin (before : List Range) (start : Int) : Int :=
  match before.getLast? with
  | some prev => if prev.2 > start then prev.2 else start
  | none => start

def gapEnd (after : List Range) (limit : Int) : Int :=
  match after.head? with
  | some next => min limit next.1
  | none => limit

/-- First missing range inside `[start, limit)`, if any. -/
def firstGap (ranges : List Range) (start limit : Int) : Option Range :=
  let (before, after) := upperBound start ranges
  let cursor := gapBegin before start
  if cursor ≥ limit then none else some (cursor, gapEnd after limit)

@[simp] theorem separated_nil : Separated [] := by
  simp [Separated]

variable {r : Range} {left lf right rg b after a : List Range} {offset ot bound begin bg stop s start st : Int}

theorem separated_cons {rs : List Range} :
    Separated (r :: rs) ↔ r.1 < r.2 ∧ (∀ next ∈ rs, r.2 < next.1) ∧ Separated rs := by
  simp only [Separated, forall_mem_cons, pairwise_cons]
  constructor
  · rintro ⟨⟨hra, hr⟩, hn, hp⟩
    exact ⟨hra, hn, hr, hp⟩
  · rintro ⟨hra, hn, hr, hp⟩
    exact ⟨⟨hra, hr⟩, hn, hp⟩

theorem separated_append :
    Separated (lf ++ rg) ↔ Separated lf ∧ Separated rg ∧ ∀ l ∈ lf, ∀ r ∈ rg, l.2 < r.1 := by
  simp only [Separated, forall_mem_append, pairwise_append]
  constructor
  · rintro ⟨⟨hle, hri⟩, hl, hr, hlr⟩
    exact ⟨⟨hle, hl⟩, ⟨hri, hr⟩, hlr⟩
  · rintro ⟨⟨hle, hl⟩, ⟨hri, hr⟩, hlr⟩
    exact ⟨⟨hle, hri⟩, hl, hr, hlr⟩

theorem mem_offsets {rs : List Range} : ot ∈ offsets rs ↔ ∃ r ∈ rs, r.1 ≤ ot ∧ ot < r.2 := .rfl

@[simp] theorem mem_offsets_nil : ot ∉ offsets [] := by
  simp [mem_offsets]

@[simp] theorem mem_offsets_cons {rs : List Range} :
    ot ∈ offsets (r :: rs) ↔ (r.1 ≤ ot ∧ ot < r.2) ∨ ot ∈ offsets rs := by
  simp [mem_offsets]

@[simp] theorem mem_offsets_append :
    ot ∈ offsets (lf ++ rg) ↔ ot ∈ offsets lf ∨ ot ∈ offsets rg := by
  simp only [mem_offsets, mem_append, or_and_right, exists_or]

/-- The iterator splits the map at `begin`. -/
theorem upperBound_spec (bg : Int) {rs : List Range} (hs : Separated rs) :
    (upperBound bg rs).1 ++ (upperBound bg rs).2 = rs ∧ (∀ r ∈ (upperBound bg rs).1, r.1 ≤ bg) ∧
      ∀ r ∈ (upperBound bg rs).2, bg < r.1 := by
  refine ⟨takeWhile_append_dropWhile, ?_, ?_⟩
  · intro r hr
    simpa using mem_takeWhile_imp hr
  · induction rs with
    | nil => simp [upperBound]
    | cons head t ih =>
      obtain ⟨hh, hn, ht⟩ := separated_cons.mp hs
      by_cases hl : head.1 ≤ bg
      · simpa [upperBound, dropWhile_cons, hl] using ih ht
      · simp only [upperBound, dropWhile_cons, hl, decide_false, Bool.false_eq_true, ↓reduceIte]
        refine forall_mem_cons.mpr ⟨not_le.mp hl, ?_⟩
        intro r hr
        have := hn r hr
        omega

section

variable {before b : List Range}

variable {p : Range} {begin bg first f stop s : Int} {after a : List Range}

/-- The neighbour an iterator steps back onto is the last one it passed. -/
theorem append_of_getLast?_eq_some (hl : b.getLast? = some p) : b = b.dropLast ++ [p] :=
  (dropLast_append_getLast? p hl).symm

theorem emplace_between (s : Int) (b a : List Range) (hb : ∀ r ∈ b, r.1 < bg)
    (ha : ∀ r ∈ a, bg < r.1) : emplace bg s (b ++ a) = b ++ (bg, s) :: a := by
  induction b with
  | nil =>
    cases a with
    | nil => rfl
    | cons next rest =>
      have hn := ha next mem_cons_self
      simp [emplace, hn]
  | cons head tail ih =>
    have hh := hb head mem_cons_self
    have ht := ih (fun r hr =>
      hb r (mem_cons_of_mem head hr))
    simp [emplace, hh, not_lt.mpr hh.le, ht]

/-- Merging keeps the intervals separated and adds no offset that was neither
in `[first, stop)` nor in an absorbed interval. -/
theorem absorb_spec {rs : List Range} (hs : Separated rs) (hf : f < s) (hra : ∀ r ∈ rs, f ≤ r.1) :
    s ≤ (absorb s rs).1 ∧ Separated ((f, (absorb s rs).1) :: (absorb s rs).2) ∧
      ∀ x, x ∈ offsets ((f, (absorb s rs).1) :: (absorb s rs).2) ↔
        (f ≤ x ∧ x < s) ∨ x ∈ offsets rs := by
  induction rs generalizing s with
  | nil => simp [absorb, separated_cons, hf]
  | cons head tail ih =>
    obtain ⟨hhe, hn, hta⟩ := separated_cons.mp hs
    have hlo := hra head mem_cons_self
    by_cases hle : head.1 ≤ s
    · obtain ⟨hst, hs', hm⟩ := ih hta (lt_of_lt_of_le hf (le_max_left s head.2))
        (fun r hr => hra r (mem_cons_of_mem head hr))
      simp only [absorb, hle, ↓reduceIte]
      refine ⟨le_trans (le_max_left _ _) hst, hs', ?_⟩
      intro x
      rw [hm x, mem_offsets_cons]
      constructor
      · rintro (⟨hl, hh⟩ | ht)
        · by_cases hi : x < s
          · exact .inl ⟨hl, hi⟩
          · exact .inr (.inl ⟨by omega, by omega⟩)
        · exact .inr (.inr ht)
      · rintro (⟨hl, hh⟩ | ⟨hl, hh⟩ | ht)
        · exact .inl ⟨hl, by omega⟩
        · exact .inl ⟨by omega, by omega⟩
        · exact .inr ht
    · simp only [absorb, hle, ↓reduceIte]
      refine ⟨le_refl s, ?_, fun x => mem_offsets_cons⟩
      refine separated_cons.mpr ⟨hf, ?_, hs⟩
      intro r hr
      rcases mem_cons.mp hr with rfl | hr
      · exact not_le.mp hle
      · have := hn r hr
        omega

/-- What `addCursor` leaves to the merging loop: the intervals it passed end
before the one to insert, and taking over a neighbour adds no offset that is
not the neighbour's. -/
structure AddCursor (ranges : List Range) (begin stop : Int)
    (before : List Range) (first : Int) (after : List Range) : Prop where
  before_separated : Separated before
  after_separated : Separated after
  first_le : first ≤ begin
  before_ends : ∀ range ∈ before, range.2 < first
  after_begins : ∀ range ∈ after, first ≤ range.1
  mem_iff : ∀ offset, offset ∈ offsets before ∨ (first ≤ offset ∧ offset < stop) ∨
        offset ∈ offsets after ↔
      offset ∈ offsets ranges ∨ (begin ≤ offset ∧ offset < stop)

theorem addCursor_stay {rs b : List Range} (s : Int) (hsep : Separated (b ++ a))
    (ha : b ++ a = rs) (haf : ∀ r ∈ a, bg < r.1) (he : ∀ r ∈ b, r.2 < bg) :
    AddCursor rs bg s b bg a := by
  obtain ⟨hs, hse, _⟩ := separated_append.mp hsep
  refine ⟨hs, hse, le_refl bg, he, fun r hr => (haf r hr).le, ?_⟩
  intro x
  rw [← ha, mem_offsets_append, or_assoc, or_congr_right or_comm]

theorem addCursor_back {rs b : List Range} (hsep : Separated (b ++ p :: a))
    (ha : b ++ p :: a = rs) (hp : p.1 ≤ bg) (hre : bg ≤ p.2) (haf : ∀ r ∈ a, bg < r.1) :
    AddCursor rs bg s b p.1 (p :: a) := by
  obtain ⟨hs, hse, hc⟩ := separated_append.mp hsep
  refine ⟨hs, hse, hp, fun r hr => hc r hr p mem_cons_self, ?_, ?_⟩
  · intro r hr
    rcases mem_cons.mp hr with rfl | hr
    · exact le_refl _
    · exact le_trans hp (haf r hr).le
  · intro x
    rw [← ha, mem_offsets_append, mem_offsets_cons]
    constructor
    · rintro (h | ⟨hl, hh⟩ | h)
      · exact .inl (.inl h)
      · by_cases hi : x < p.2
        · exact .inl (.inr (.inl ⟨hl, hi⟩))
        · exact .inr ⟨by omega, hh⟩
      · exact .inl (.inr h)
    · rintro ((h | h) | ⟨hl, hh⟩)
      · exact .inl h
      · exact .inr (.inr h)
      · exact .inr (.inl ⟨by omega, hh⟩)

theorem addCursor_spec (bg s : Int) {rs : List Range} (hse : Separated rs) :
    AddCursor rs bg s (addCursor bg rs).1 (addCursor bg rs).2.1 (addCursor bg rs).2.2 := by
  obtain ⟨ha, hb, haf⟩ := upperBound_spec bg hse
  rw [addCursor]
  generalize upperBound bg rs = split at ha hb haf
  obtain ⟨b, a⟩ := split
  dsimp only at ha hb haf ⊢
  rw [← ha] at hse
  cases hl : b.getLast? with
  | none =>
    rw [List.getLast?_eq_none_iff] at hl
    exact addCursor_stay s hse ha haf (by simp [hl])
  | some p =>
    have hsp := append_of_getLast?_eq_some hl
    have hp : p ∈ b := mem_of_getLast? hl
    by_cases hre : bg ≤ p.2
    · have hc : b.dropLast ++ p :: a = b ++ a := by
        conv_rhs => rw [hsp]
        simp
      simp only [hre, ↓reduceIte]
      exact addCursor_back (hc ▸ hse) (hc.trans ha) (hb p hp) hre haf
    · simp only [hre, ↓reduceIte]
      refine addCursor_stay s hse ha haf ?_
      intro r hr
      have hs := (separated_append.mp hse).1
      rw [hsp] at hs hr
      obtain ⟨_, hsep, hi⟩ := separated_append.mp hs
      rcases mem_append.mp hr with hr | hr
      · have he := hi r hr p (mem_singleton.mpr rfl)
        have hpo := hsep.1 p (mem_singleton.mpr rfl)
        omega
      · rw [mem_singleton.mp hr]
        exact not_le.mp hre

/-- `add` is union with `[begin, stop)` and keeps the intervals separated. -/
theorem add_spec {rs : List Range} (hsep : Separated rs) (bg s : Int) :
    Separated (add rs bg s) ∧ ∀ x, x ∈ offsets (add rs bg s) ↔
        x ∈ offsets rs ∨ (bg ≤ x ∧ x < s) := by
  by_cases hg : bg ≥ s
  · simp only [add, hg, ↓reduceIte]
    refine ⟨hsep, fun x => ?_⟩
    constructor
    · exact .inl
    · rintro (h | ⟨hlo, hh⟩)
      · exact h
      · omega
  · have hlt : bg < s := not_le.mp hg
    have hc := addCursor_spec bg s hsep
    simp only [add, hg, ↓reduceIte]
    generalize addCursor bg rs = cursor at hc ⊢
    obtain ⟨b, first, a⟩ := cursor
    obtain ⟨hse, hsepA, hf, he, hlow, hme⟩ := hc
    obtain ⟨hst, hs, hm⟩ := absorb_spec hsepA (lt_of_le_of_lt hf hlt) hlow
    generalize absorb s a = merged at hst hs hm ⊢
    obtain ⟨l, rest⟩ := merged
    obtain ⟨hpo, hre, hsepR⟩ := separated_cons.mp hs
    have hp : emplace first l (b ++ rest) = b ++ (first, l) :: rest := by
      apply emplace_between l b rest
      · intro r hr
        exact lt_trans (hse.1 r hr) (he r hr)
      · intro r hr
        exact lt_trans hpo (hre r hr)
    rw [hp]
    refine ⟨separated_append.mpr ⟨hse, hs, ?_⟩, ?_⟩
    · intro lf hle rg hri
      have hl := he lf hle
      rcases mem_cons.mp hri with rfl | hri
      · exact hl
      · have hn := hre rg hri
        omega
    · intro x
      rw [mem_offsets_append, hm x, hme x]

/-- Cutting an interval at `begin` leaves its head, behind everything the
iterator has passed. -/
theorem keepHead_eq (bg : Int) (hb : ∀ r ∈ b, r.1 < f) : (if f < bg then emplace f bg b else b) =
      b ++ if f < bg then [(f, bg)] else [] := by
  by_cases hl : f < bg
  · have hp := emplace_between bg b [] hb (by simp)
    simpa [hl] using hp
  · simp [hl]

theorem separated_keepHead (bg : Int) (hs : Separated b) (he : ∀ r ∈ b, r.2 < f) :
    Separated (b ++ if f < bg then [(f, bg)] else []) := by
  by_cases hl : f < bg
  · simp only [hl, ↓reduceIte]
    refine separated_append.mpr ⟨hs, by simp [separated_cons, hl], ?_⟩
    intro lf hle rg hr
    rw [mem_singleton.mp hr]
    exact he lf hle
  · simpa [hl] using hs

theorem mem_offsets_keepHead {x : Int} : x ∈ offsets (b ++ if f < bg then [(f, bg)] else []) ↔
      x ∈ offsets b ∨ (f ≤ x ∧ x < bg) := by
  by_cases hl : f < bg
  · simp [hl]
  · simp only [hl, ↓reduceIte, append_nil]
    constructor
    · exact .inl
    · rintro (h | ⟨hlo, hh⟩)
      · exact h
      · omega

theorem ends_keepHead (f : Int) (he : ∀ r ∈ b, r.2 ≤ bg) :
    ∀ r ∈ b ++ (if f < bg then [(f, bg)] else []), r.2 ≤ bg := by
  intro r hr
  rcases mem_append.mp hr with hr | hr
  · exact he r hr
  · split at hr
    · rw [mem_singleton.mp hr]
    · simp at hr

end

variable {ranges rs : List Range}

theorem lt_of_mem_offsets (he : ∀ r ∈ rs, r.2 ≤ bound) (x : Int) (ho : x ∈ offsets rs) :
    x < bound := by
  obtain ⟨r, hr, _, hh⟩ := ho
  exact lt_of_lt_of_le hh (he r hr)

theorem le_of_mem_offsets (hb : ∀ r ∈ rs, bound ≤ r.1) (x : Int) (ho : x ∈ offsets rs) :
    bound ≤ x := by
  obtain ⟨r, hr, hl, _⟩ := ho
  exact le_trans (hb r hr) hl

/-- The loop invariant of `remove`: what the iterator has passed ends by
`begin`, so nothing of it is to be removed. -/
theorem removeLoop_spec (hlt : bg < s) (hse : Separated (b ++ a)) (he : ∀ r ∈ b, r.2 ≤ bg) :
    Separated (removeLoop bg s b a) ∧ ∀ x, x ∈ offsets (removeLoop bg s b a) ↔
        x ∈ offsets (b ++ a) ∧ ¬ (bg ≤ x ∧ x < s) := by
  induction a generalizing b with
  | nil =>
    rw [append_nil] at hse ⊢
    refine ⟨hse, fun x => ⟨fun ho => ⟨ho, ?_⟩, And.left⟩⟩
    have := lt_of_mem_offsets he x ho
    omega
  | cons r a ih =>
    obtain ⟨f, l⟩ := r
    obtain ⟨hs, hsepR, hc⟩ := separated_append.mp hse
    obtain ⟨hpo, hn, hsep⟩ := separated_cons.mp hsepR
    have hb : ∀ r ∈ b, r.2 < f := fun r hr =>
      hc r hr _ mem_cons_self
    have hkee := keepHead_eq bg (fun r hr =>
      lt_trans (hs.1 r hr) (hb r hr))
    have hke := separated_keepHead bg hs hb
    have hk := ends_keepHead f he
    by_cases hf : f < s
    · by_cases hl : l ≤ bg
      · simp only [removeLoop, hf, hl, ↓reduceIte]
        have hass : b ++ [(f, l)] ++ a = b ++ (f, l) :: a := by simp
        have hp : ∀ r ∈ b ++ [(f, l)], r.2 ≤ bg := by
          intro r hr
          rcases mem_append.mp hr with hr | hr
          · exact he r hr
          · rw [mem_singleton.mp hr]
            exact hl
        rw [← hass] at hse ⊢
        exact ih hse hp
      · by_cases hov : l > s
        · simp only [removeLoop, hf, hl, hov, ↓reduceIte, hkee]
          have hpl : emplace s l a = (s, l) :: a := emplace_between l [] a (by simp) (fun r hr =>
              lt_trans hov (hn r hr))
          rw [hpl]
          refine ⟨separated_append.mpr ⟨hke, separated_cons.mpr ⟨hov, hn, hsep⟩, ?_⟩, ?_⟩
          · intro lf hlef rg hri
            have hle := hk lf hlef
            rcases mem_cons.mp hri with rfl | hri
            · exact lt_of_le_of_lt hle hlt
            · have hne := hn rg hri
              omega
          · intro x
            rw [mem_offsets_append, mem_offsets_keepHead, mem_offsets_cons,
              mem_offsets_append, mem_offsets_cons]
            have hbe := lt_of_mem_offsets he x
            have ha := le_of_mem_offsets (fun r hr => (hn r hr).le) x
            constructor
            · rintro ((h | h) | h | h)
              · exact ⟨.inl h, by have := hbe h; omega⟩
              · exact ⟨.inr (.inl ⟨h.1, by omega⟩), by omega⟩
              · exact ⟨.inr (.inl ⟨by omega, h.2⟩), by omega⟩
              · exact ⟨.inr (.inr h), by have := ha h; omega⟩
            · rintro ⟨h | ⟨hlo, hh⟩ | h, hou⟩
              · exact .inl (.inl h)
              · by_cases hi : x < bg
                · exact .inl (.inr ⟨hlo, hi⟩)
                · exact .inr (.inl ⟨by omega, hh⟩)
              · exact .inr (.inr h)
        · simp only [removeLoop, hf, hl, hov, ↓reduceIte, hkee]
          have hsepK : Separated ((b ++ if f < bg then [(f, bg)] else []) ++ a) := by
            refine separated_append.mpr ⟨hke, hsep, ?_⟩
            intro lf hlef rg hri
            have hle := hk lf hlef
            have hne := hn rg hri
            omega
          obtain ⟨hsepS, hm⟩ := ih hsepK hk
          refine ⟨hsepS, fun x => ?_⟩
          rw [hm x, mem_offsets_append, mem_offsets_keepHead, mem_offsets_append, mem_offsets_cons]
          constructor
          · rintro ⟨(h | h) | h, hou⟩
            · exact ⟨.inl h, hou⟩
            · exact ⟨.inr (.inl ⟨h.1, by omega⟩), hou⟩
            · exact ⟨.inr (.inr h), hou⟩
          · rintro ⟨h | ⟨hlo, hh⟩ | h, hou⟩
            · exact ⟨.inl (.inl h), hou⟩
            · exact ⟨.inl (.inr ⟨hlo, by omega⟩), hou⟩
            · exact ⟨.inr h, hou⟩
    · simp only [removeLoop, hf, ↓reduceIte]
      refine ⟨hse, fun x => ⟨fun ho => ⟨ho, ?_⟩, And.left⟩⟩
      rw [mem_offsets_append, mem_offsets_cons] at ho
      rcases ho with h | h | h
      · have := lt_of_mem_offsets he x h
        omega
      · omega
      · have := le_of_mem_offsets (fun r hr => (hn r hr).le) x h
        omega

/-- `remove` is difference with `[begin, stop)` and keeps the intervals
separated. -/
theorem remove_spec (hs : Separated rs) (bg s : Int) :
    Separated (remove rs bg s) ∧ ∀ x, x ∈ offsets (remove rs bg s) ↔
        x ∈ offsets rs ∧ ¬ (bg ≤ x ∧ x < s) := by
  by_cases hg : bg ≥ s
  · simp only [remove, hg, ↓reduceIte]
    refine ⟨hs, fun x => ⟨fun ho => ⟨ho, ?_⟩, And.left⟩⟩
    omega
  · have hlt : bg < s := not_le.mp hg
    obtain ⟨ha, hb, haf⟩ := upperBound_spec bg hs
    simp only [remove, hg, ↓reduceIte]
    generalize upperBound bg rs = split at ha hb haf
    obtain ⟨b, a⟩ := split
    rw [← ha] at hs ⊢
    cases hl : b.getLast? with
    | none =>
      rw [List.getLast?_eq_none_iff] at hl
      subst hl
      exact removeLoop_spec hlt hs (by simp)
    | some p =>
      have hsp := append_of_getLast?_eq_some hl
      have hp : p ∈ b := mem_of_getLast? hl
      have hc : b ++ a = b.dropLast ++ p :: a := by
        conv_lhs => rw [hsp]
        simp
      rw [hc] at hs ⊢
      refine removeLoop_spec hlt hs ?_
      intro r hr
      have hcr := (separated_append.mp hs).2.2 r hr p mem_cons_self
      have := hb p hp
      omega

/-- A change of the set. -/
inductive Edit where
  | add (begin stop : Int)
  | remove (begin stop : Int)
deriving Repr

def edit (ranges : List Range) : Edit → List Range
  | .add begin stop => add ranges begin stop
  | .remove begin stop => remove ranges begin stop

/-- What a change means for the offsets themselves. -/
def editOffsets (set : Set Int) : Edit → Set Int
  | .add begin stop => set ∪ Set.Ico begin stop
  | .remove begin stop => set \ Set.Ico begin stop

theorem edit_spec (hs : Separated rs) (c : Edit) :
    Separated (edit rs c) ∧ offsets (edit rs c) = editOffsets (offsets rs) c := by
  cases c with
  | add bg s =>
    obtain ⟨ha, hm⟩ := add_spec hs bg s
    exact ⟨ha, Set.ext hm⟩
  | remove bg s =>
    obtain ⟨hr, hm⟩ := remove_spec hs bg s
    exact ⟨hr, Set.ext hm⟩

/-- From the empty set, any sequence of changes leaves non-empty intervals in
increasing order with a missing offset between any two, and they denote what
the same unions and differences denote. -/
theorem run_edit_separated_and_denotes (changes : List Edit) :
    (∀ range ∈ run edit [] changes, range.1 < range.2) ∧
      (run edit [] changes).Pairwise (fun left right => left.2 < right.1) ∧
      offsets (run edit [] changes) = run editOffsets ∅ changes := by
  have hrun : ∀ (ranges : List Range), Separated ranges → Separated (run edit ranges changes) ∧
        offsets (run edit ranges changes) = run editOffsets (offsets ranges) changes := by
    induction changes with
    | nil => exact fun ranges hsep => ⟨hsep, rfl⟩
    | cons change changes ih =>
      intro ranges hsep
      obtain ⟨hsep', hoffsets⟩ := edit_spec hsep change
      rw [run_cons, run_cons, ← hoffsets]
      exact ih (edit ranges change) hsep'
  have hempty : offsets [] = ∅ := Set.eq_empty_of_forall_notMem fun _ =>
    mem_offsets_nil
  obtain ⟨⟨hpos, hpair⟩, hoffsets⟩ := hrun [] separated_nil
  exact ⟨hpos, hpair, hempty ▸ hoffsets⟩

example : run edit [] [.add 0 10, .add 20 30, .add 10 20, .remove 5 8] = [(0, 5), (8, 30)] := by
  decide

/-- The last interval an iterator has passed is the only one that can reach
past `start`. -/
theorem mem_offsets_iff_of_le_prev {p : Range} (hs : Separated (b ++ p :: a)) (hp : p.1 ≤ st)
    (ho : st ≤ ot) (ha : ∀ r ∈ a, ot < r.1) : ot ∈ offsets (b ++ p :: a) ↔ ot < p.2 := by
  obtain ⟨_, _, hc⟩ := separated_append.mp hs
  rw [mem_offsets_append, mem_offsets_cons]
  constructor
  · rintro (⟨r, hr, _, hh⟩ | h | ⟨r, hr, hl, _⟩)
    · have := hc r hr p mem_cons_self
      omega
    · exact h.2
    · have := ha r hr
      omega
  · intro h
    exact .inr (.inl ⟨by omega, h⟩)

theorem contains_iff (hs : Separated rs) (bg s : Int) :
    contains rs bg s = true ↔ ∀ x, bg ≤ x → x < s → x ∈ offsets rs := by
  by_cases hg : bg ≥ s
  · simp only [contains, hg, ↓reduceIte, true_iff]
    intro x hlo hh
    omega
  obtain ⟨hap, hb, ha⟩ := upperBound_spec bg hs
  simp only [contains, hg, ↓reduceIte]
  generalize upperBound bg rs = split at hap hb ha
  obtain ⟨b, a⟩ := split
  subst hap
  cases hl : b.getLast? with
  | none =>
    rw [List.getLast?_eq_none_iff] at hl
    subst hl
    simp only [Bool.false_eq_true, nil_append, false_iff, not_forall]
    refine ⟨bg, le_refl bg, not_le.mp hg, fun hme => ?_⟩
    obtain ⟨r, hr, hlo, _⟩ := hme
    have := ha r hr
    omega
  | some p =>
    have hp := hb p (mem_of_getLast? hl)
    have hc : b ++ a = b.dropLast ++ p :: a := by
      conv_lhs => rw [append_of_getLast?_eq_some hl]
      simp
    rw [hc] at hs ⊢
    rw [decide_eq_true_iff]
    constructor
    · intro hst x hlo hh
      rw [mem_offsets_append, mem_offsets_cons]
      exact .inr (.inl ⟨by omega, by omega⟩)
    · -- the byte at the end of the neighbour, or `begin`, is missing
      intro hal
      by_contra hsh
      have hm := hal (max bg p.2) (le_max_left _ _) (by omega)
      obtain ⟨hsep, hse, hcr⟩ := separated_append.mp hs
      obtain ⟨hpo, hn, _⟩ := separated_cons.mp hse
      have hi := (mem_offsets_iff_of_le_prev hs hp (le_max_left bg p.2) (by
          intro r hr
          have := ha r hr
          have := hn r hr
          omega)).mp hm
      omega

theorem apart_of_mem (hs : Separated rs) {o : Range} (hr : r ∈ rs) (ho : o ∈ rs) (hne : r ≠ o) :
    r.2 < o.1 ∨ o.2 < r.1 := by
  induction rs with
  | nil => exact absurd hr not_mem_nil
  | cons head tail ih =>
    obtain ⟨_, hn, ht⟩ := separated_cons.mp hs
    rcases mem_cons.mp hr with rfl | hr'
    · rcases mem_cons.mp ho with rfl | ho'
      · exact absurd rfl hne
      · exact .inl (hn o ho')
    · rcases mem_cons.mp ho with rfl | ho'
      · exact .inr (hn r hr')
      · exact ih ht hr' ho'

/-- What is covered without a gap lies in one interval. -/
theorem exists_interval (hs : Separated rs) (hlt : bg < s)
    (ha : ∀ x, bg ≤ x → x < s → x ∈ offsets rs) : ∃ r ∈ rs, r.1 ≤ bg ∧ s ≤ r.2 := by
  obtain ⟨r, hr, hl, hh⟩ := ha bg (le_refl bg) hlt
  refine ⟨r, hr, hl, ?_⟩
  by_contra hsh
  obtain ⟨o, ho, hl', hh'⟩ := ha r.2 (by omega) (by omega)
  have hn : r ≠ o := by
    intro he
    rw [he] at hh'
    omega
  have hp := hs.1 o ho
  rcases apart_of_mem hs hr ho hn with h | h <;> omega

/-- What an interval has inside `[begin, stop)`. -/
def clip (begin stop : Int) (range : Range) : Range := (max begin range.1, min stop range.2)

/-- The number of offsets of an interval, none when its ends are crossed. -/
def length (range : Range) : Int := max 0 (range.2 - range.1)

/-- The lengths of intervals that do not overlap count what they denote. -/
theorem ncard_offsets (hd : rs.Pairwise fun lf rg => lf.2 ≤ rg.1) :
    (offsets rs).Finite ∧ ((offsets rs).ncard : Int) = (rs.map length).sum := by
  induction rs with
  | nil =>
    have he : offsets [] = ∅ := Set.eq_empty_of_forall_notMem fun _ => mem_offsets_nil
    simp [he]
  | cons head t ih =>
    obtain ⟨hh, ht⟩ := pairwise_cons.mp hd
    obtain ⟨hf, hc⟩ := ih ht
    have hu : offsets (head :: t) = (Finset.Ico head.1 head.2 : Set Int) ∪ offsets t := by
      ext x
      simp
    have hdi : Disjoint (Finset.Ico head.1 head.2 : Set Int) (offsets t) := by
      rw [Set.disjoint_left]
      rintro x hi ⟨r, hr, hl, _⟩
      have := hh r hr
      have := (Finset.mem_Ico.mp hi).2
      omega
    rw [hu, Set.ncard_union_eq hdi (Finset.finite_toSet _) hf, Set.ncard_coe_finset, Int.card_Ico]
    refine ⟨(Finset.finite_toSet _).union hf, ?_⟩
    rw [map_cons, sum_cons, length]
    omega

theorem total_eq_ncard (hs : Separated rs) : total rs = ((offsets rs).ncard : Int) := by
  rw [(ncard_offsets (hs.2.imp le_of_lt)).2, total]
  congr 1
  refine map_congr_left fun r hr => ?_
  have := hs.1 r hr
  rw [length]
  omega

theorem offsets_map_clip (bg s : Int) :
    offsets (rs.map (clip bg s)) = offsets rs ∩ Set.Ico bg s := by
  ext ot
  constructor
  · rintro ⟨_, hm, hl, hh⟩
    obtain ⟨r, hr, rfl⟩ := mem_map.mp hm
    simp only [clip] at hl hh
    exact ⟨⟨r, hr, by omega, by omega⟩, by omega, by omega⟩
  · rintro ⟨⟨r, hr, hl, hh⟩, hb, he⟩
    exact ⟨_, mem_map_of_mem hr, max_le hb hl, lt_min he hh⟩

/-- The count stops where the intervals have left the window. -/
theorem sum_takeWhile (hs : Separated rs) (bg s : Int) :
    ((rs.takeWhile fun r => r.1 < s).map fun r =>
        length (clip bg s r)).sum =
      (rs.map fun r => length (clip bg s r)).sum := by
  induction rs with
  | nil => rfl
  | cons head tail ih =>
    obtain ⟨_, hn, ht⟩ := separated_cons.mp hs
    by_cases hl : head.1 < s
    · rw [takeWhile_cons_of_pos (by simpa using hl), map_cons, sum_cons, ih ht, map_cons, sum_cons]
    · rw [takeWhile_cons_of_neg (by simpa using hl)]
      refine (sum_eq_zero fun term hm => ?_).symm
      obtain ⟨r, hr, rfl⟩ := mem_map.mp hm
      have hle : s ≤ r.1 := by
        rcases mem_cons.mp hr with rfl | hr
        · omega
        · have := hn r hr
          have := hs.1 head mem_cons_self
          omega
      simp only [length, clip]
      omega

/-- The bytes counted are those of the window that are present. -/
theorem covered_eq_ncard (hs : Separated rs) (bg s : Int) :
    covered rs bg s = ((offsets rs ∩ Set.Ico bg s).ncard : Int) := by
  have hd : (rs.map (clip bg s)).Pairwise fun lf rg => lf.2 ≤ rg.1 := by
    refine pairwise_map.mpr (hs.2.imp fun hlt => ?_)
    simp only [clip]
    omega
  rw [← offsets_map_clip, (ncard_offsets hd).2, map_map]
  obtain ⟨ha, hb, _⟩ := upperBound_spec bg hs
  rw [covered]
  generalize upperBound bg rs = split at ha hb
  obtain ⟨b, a⟩ := split
  dsimp only at ha hb ⊢
  subst ha
  -- the count begins at the last interval that begins no later
  rcases hba : b.getLast? with _ | back
  · rw [List.getLast?_eq_none_iff] at hba
    subst hba
    exact sum_takeWhile hs bg s
  · have hl := hb back (mem_of_getLast? hba)
    rw [append_of_getLast?_eq_some hba, append_assoc] at hs ⊢
    obtain ⟨_, ht, hc⟩ := separated_append.mp hs
    have hz : (b.dropLast.map (length ∘ clip bg s)).sum = 0 := by
      refine sum_eq_zero fun t hm => ?_
      obtain ⟨r, hr, rfl⟩ := mem_map.mp hm
      have := hc r hr back (mem_append_left _ (mem_singleton_self back))
      simp only [Function.comp, length, clip]
      omega
    rw [map_append, sum_append, hz, zero_add]
    exact sum_takeWhile ht bg s

/-- The gap `firstGap` reports: it begins at the first missing offset from
`start` on and ends at the limit or where the next interval begins. -/
structure IsFirstGap (ranges : List Range) (start limit : Int) (gap : Range) :
    Prop where
  start_le : start ≤ gap.1
  nonempty : gap.1 < gap.2
  le_limit : gap.2 ≤ limit
  missing : ∀ offset, gap.1 ≤ offset → offset < gap.2 → offset ∉ offsets ranges
  filled : ∀ offset, start ≤ offset → offset < gap.1 → offset ∈ offsets ranges
  stops : gap.2 = limit ∨ ∃ range ∈ ranges, range.1 = gap.2

section

variable {st l : Int} {gap o : Range}

theorem IsFirstGap.begin_le (h : IsFirstGap rs st l gap) (h' : IsFirstGap rs st l o) :
    gap.1 ≤ o.1 := by
  by_contra hl
  exact h'.missing o.1 le_rfl h'.nonempty (h.filled o.1 h'.start_le (not_le.mp hl))

theorem IsFirstGap.stop_le (hs : Separated rs) (h : IsFirstGap rs st l gap)
    (h' : IsFirstGap rs st l o) : gap.2 ≤ o.2 := by
  rcases h'.stops with he | ⟨r, hr, he⟩
  · exact he ▸ h.le_limit
  · by_contra hl
    have hb := h.begin_le h'
    have hn := h'.nonempty
    exact h.missing o.2 (by omega) (not_le.mp hl) ⟨r, hr, he.le, he ▸ hs.1 r hr⟩

theorem IsFirstGap.unique (hs : Separated rs) (h : IsFirstGap rs st l gap)
    (h' : IsFirstGap rs st l o) : gap = o := Prod.ext (le_antisymm (h.begin_le h') (h'.begin_le h))
    (le_antisymm (h.stop_le hs h') (h'.stop_le hs h))

end

theorem gapBegin_spec (hs : Separated (b ++ a)) (hb : ∀ r ∈ b, r.1 ≤ st) (ha : ∀ r ∈ a, st < r.1) :
    st ≤ gapBegin b st ∧ (∀ r ∈ a, gapBegin b st < r.1) ∧ ∀ x, st ≤ x → (∀ r ∈ a, x < r.1) →
        (x ∈ offsets (b ++ a) ↔ x < gapBegin b st) := by
  cases hl : b.getLast? with
  | none =>
    rw [List.getLast?_eq_none_iff] at hl
    subst hl
    refine ⟨le_refl st, ha, fun x hlo hn => ?_⟩
    change x ∈ offsets a ↔ x < st
    constructor
    · rintro ⟨r, hr, hbe, _⟩
      have := hn r hr
      omega
    · intro h
      omega
  | some p =>
    have hp := hb p (mem_of_getLast? hl)
    have hco : b ++ a = b.dropLast ++ p :: a := by
      conv_lhs => rw [append_of_getLast?_eq_some hl]
      simp
    have hc : gapBegin b st = max st p.2 := by
      simp only [gapBegin, hl]
      split <;> omega
    rw [hco] at hs ⊢
    rw [hc]
    obtain ⟨_, hse, _⟩ := separated_append.mp hs
    obtain ⟨_, hn, _⟩ := separated_cons.mp hse
    refine ⟨le_max_left _ _, fun r hr =>
      max_lt (ha r hr) (hn r hr), ?_⟩
    intro x hlo hbo
    rw [mem_offsets_iff_of_le_prev hs hp hlo hbo]
    omega

theorem firstGap_none_iff (hse : Separated rs) (s l : Int) :
    firstGap rs s l = none ↔ ∀ x, s ≤ x → x < l → x ∈ offsets rs := by
  obtain ⟨ha, hb, haf⟩ := upperBound_spec s hse
  rw [firstGap]
  generalize upperBound s rs = split at ha hb haf
  obtain ⟨b, a⟩ := split
  dsimp only at ha hb haf ⊢
  subst ha
  obtain ⟨hs, hn, hm⟩ := gapBegin_spec hse hb haf
  by_cases hg : gapBegin b s ≥ l
  · simp only [hg, ↓reduceIte, true_iff]
    intro x hl hh
    refine (hm x hl fun r hr => ?_).mpr (by omega)
    have := hn r hr
    omega
  · simp only [hg, ↓reduceIte, reduceCtorEq, false_iff, not_forall]
    refine ⟨gapBegin b s, hs, not_le.mp hg, fun hi => ?_⟩
    exact lt_irrefl _ ((hm _ hs hn).mp hi)

theorem firstGap_some (hse : Separated rs) {l : Int} {gap : Range}
    (hg : firstGap rs st l = some gap) : IsFirstGap rs st l gap := by
  obtain ⟨ha, hb, haf⟩ := upperBound_spec st hse
  rw [firstGap] at hg
  generalize upperBound st rs = split at ha hb haf hg
  obtain ⟨b, a⟩ := split
  dsimp only at ha hb haf hg
  subst ha
  obtain ⟨hst, hn, hm⟩ := gapBegin_spec hse hb haf
  by_cases hge : gapBegin b st ≥ l
  · simp [hge] at hg
  simp only [hge, ↓reduceIte, Option.some.injEq] at hg
  subst hg
  have hli : gapEnd a l ≤ l := by
    rw [gapEnd]
    split <;> omega
  have he : ∀ r ∈ a, gapEnd a l ≤ r.1 := by
    cases a with
    | nil => simp
    | cons next rest =>
      obtain ⟨_, hs, _⟩ := separated_append.mp hse
      obtain ⟨hp, hre, _⟩ := separated_cons.mp hs
      intro r hr
      simp only [gapEnd, List.head?_cons]
      rcases mem_cons.mp hr with rfl | hr
      · exact min_le_right _ _
      · have := hre r hr
        omega
  have hsto : gapEnd a l = l ∨ ∃ r ∈ b ++ a, r.1 = gapEnd a l := by
    cases a with
    | nil => exact .inl rfl
    | cons next rest =>
      rcases le_total l next.1 with hle | hle
      · exact .inl (min_eq_left hle)
      · exact .inr ⟨next, by simp, (min_eq_right hle).symm⟩
  refine ⟨hst, ?_, hli, ?_, ?_, hsto⟩
  · cases a with
    | nil => exact not_le.mp hge
    | cons next rest =>
      have := hn next mem_cons_self
      simp only [gapEnd, List.head?_cons]
      omega
  · intro x hl hh hi
    have hbo : ∀ r ∈ a, x < r.1 := fun r hr =>
      lt_of_lt_of_le hh (he r hr)
    have := (hm x (le_trans hst hl) hbo).mp hi
    omega
  · intro x hl hh
    refine (hm x hl fun r hr => ?_).mpr hh
    exact lt_trans hh (hn r hr)

end Ranges

/-- A range set: the interval list with the proof that it is separated. -/
structure RangeSet where
  ranges : List Range
  separated : Ranges.Separated ranges

namespace RangeSet

instance : EmptyCollection RangeSet := ⟨⟨[], Ranges.separated_nil⟩⟩

instance : Membership Int RangeSet := ⟨fun set offset => offset ∈ Ranges.offsets set.ranges⟩

def add (set : RangeSet) (begin stop : Int) : RangeSet := ⟨Ranges.add set.ranges begin stop,
    (Ranges.add_spec set.separated begin stop).1⟩

def remove (set : RangeSet) (begin stop : Int) : RangeSet := ⟨Ranges.remove set.ranges begin stop,
    (Ranges.remove_spec set.separated begin stop).1⟩

def contains (set : RangeSet) (begin stop : Int) : Bool := Ranges.contains set.ranges begin stop

def total (set : RangeSet) : Int := Ranges.total set.ranges

def covered (set : RangeSet) (begin stop : Int) : Int := Ranges.covered set.ranges begin stop

def firstGap (set : RangeSet) (start limit : Int) : Option Range :=
  Ranges.firstGap set.ranges start limit

@[simp] theorem not_mem_empty (x : Int) : x ∉ (∅ : RangeSet) := Ranges.mem_offsets_nil

variable {set : RangeSet} {begin bg stop s offset ot st l : Int}

@[simp] theorem mem_add : ot ∈ set.add bg s ↔ ot ∈ set ∨ (bg ≤ ot ∧ ot < s) :=
  (Ranges.add_spec set.separated bg s).2 ot

@[simp] theorem mem_remove : ot ∈ set.remove bg s ↔ ot ∈ set ∧ ¬ (bg ≤ ot ∧ ot < s) :=
  (Ranges.remove_spec set.separated bg s).2 ot

/-- Adding a range for every element of a list. -/
theorem mem_foldl_add {A : Type*} (f g : A → Int) (l : List A) (set : RangeSet) (x : Int) :
    x ∈ l.foldl (fun set a => set.add (f a) (g a)) set ↔ x ∈ set ∨ ∃ a ∈ l, f a ≤ x ∧ x < g a := by
  induction l generalizing set with
  | nil => simp
  | cons head t ih =>
    rw [foldl_cons, ih, mem_add]
    simp only [exists_mem_cons_iff, or_assoc]

theorem contains_iff : set.contains bg s = true ↔ ∀ x, bg ≤ x → x < s → x ∈ set :=
  Ranges.contains_iff set.separated bg s

theorem covered_pos (hl : bg ≤ ot) (hh : ot < s) (hm : ot ∈ set) : 0 < set.covered bg s := by
  rw [covered, Ranges.covered_eq_ncard set.separated, Int.natCast_pos]
  have hf := (Ranges.ncard_offsets (set.separated.2.imp le_of_lt)).1
  exact (Set.ncard_pos (hf.inter_of_left _)).mpr ⟨ot, hm, hl, hh⟩

theorem firstGap_none_iff : set.firstGap st l = none ↔ ∀ x, st ≤ x → x < l → x ∈ set :=
  Ranges.firstGap_none_iff set.separated st l

theorem firstGap_some {gap : Range} (hg : set.firstGap st l = some gap) :
    Ranges.IsFirstGap set.ranges st l gap := Ranges.firstGap_some set.separated hg

end RangeSet

end Aria2Next
