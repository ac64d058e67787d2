/-
How `allocate` divides the connections of an overloaded host.  One scan finds
the member with the most remaining bytes per connection; dealing one seat to
it keeps the division fair in the sense of D'Hondt, so the division at the
end of the loop is fair, within what each member wants, and leaves no seat
that somebody could use.
-/
import Aria2Next.HostPoolCache

namespace Aria2Next.HostPool

open List

universe u v w

variable {F : Type w} [Double F]

/-- What a member `(wanted, remaining)` weighs. -/
def weight (ask : Int × Int) : Int := max 1 ask.2

/-- The remaining bytes for each of `seats` connections. -/
def quotient (ask : Int × Int) (seats : Int) : ℚ := weight ask / seats

/-- The numbers of the program compare the quotients of these members as exact
rationals compare. -/
def ExactQuotients (F : Type w) [Double F] (asks : List (Int × Int)) : Prop :=
  ∀ left ∈ asks, ∀ right ∈ asks, ∀ few many : Int,
    1 ≤ few → few ≤ left.1 → 1 ≤ many → many ≤ right.1 →
    (Double.lt (Double.ofInt (weight left) / Double.ofInt few : F)
        (Double.ofInt (weight right) / Double.ofInt many) = true ↔
      quotient left few < quotient right many)

theorem exactQuotients_rat (a : List (Int × Int)) : ExactQuotients ℚ a := by
  intro left _ right _ few m _ _ _ _
  exact decide_eq_true_iff

/-- A member that holds a connection and wants another. -/
def Wants (ask : Int × Int) (given : Int) : Prop := given ≠ 0 ∧ given < ask.1

/-- More connections leave less for each. -/
theorem quotient_succ_le (ask : Int × Int) {ss : Int} (hs : 1 ≤ ss) :
    quotient ask (ss + 1) ≤ quotient ask ss := by
  have hw : (0 : ℚ) ≤ weight ask := by
    have hpo : (0 : Int) ≤ weight ask := le_trans (by decide) (le_max_left _ _)
    exact_mod_cast hpo
  have hp : (0 : ℚ) < ss := by exact_mod_cast hs
  rw [quotient, quotient]
  push_cast
  gcongr
  linarith

section Scan

/-- The best seat among the entries looked at: it belongs to an entry that
wants it, and none that wants one has a larger quotient. -/
def Best (entries : List (((Int × Int) × Int) × Nat)) (index : Nat) (value : F) : Prop :=
  ∃ entry ∈ entries, entry.2 = index ∧ Wants entry.1.1 entry.1.2 ∧
    value = Double.ofInt (weight entry.1.1) / Double.ofInt (entry.1.2 + 1) ∧
    ∀ other ∈ entries, Wants other.1.1 other.1.2 → quotient other.1.1 (other.1.2 + 1) ≤
        quotient entry.1.1 (entry.1.2 + 1)

/-- What the scan knows after some entries. -/
def Scanned (entries : List (((Int × Int) × Int) × Nat)) : Option (Nat × F) → Prop
  | none => ∀ entry ∈ entries, ¬ Wants entry.1.1 entry.1.2
  | some (index, value) => Best entries index value

variable {ask : Int × Int} {g : Int} {a : List (Int × Int)}

theorem betterSeat_of_not_wants (b : Option (Nat × F)) (i : Nat) (hn : ¬ Wants ask g) :
    betterSeat b i ask g = b := by
  have hs : g = 0 ∨ g ≥ ask.1 := by
    rw [Wants, not_and_or, not_not, not_lt] at hn
    exact hn
  rw [betterSeat, if_pos hs]

theorem betterSeat_of_wants (b : Option (Nat × F)) (i : Nat) (hw : Wants ask g) :
    betterSeat b i ask g = let value : F := Double.ofInt (weight ask) / Double.ofInt (g + 1)
      match b with
      | none => some (i, value)
      | some (_, bestValue) =>
        if Double.lt bestValue value then some (i, value) else b := by
  have hs : ¬ (g = 0 ∨ g ≥ ask.1) := by
    rw [not_or, not_le]
    exact hw
  rw [betterSeat, if_neg hs]
  rfl

/-- One more entry keeps what the scan knows. -/
theorem Scanned.betterSeat {es : List (((Int × Int) × Int) × Nat)} {b : Option (Nat × F)}
    {e : ((Int × Int) × Int) × Nat} (he : ExactQuotients F a)
    (hno : ∀ o ∈ es ++ [e], o.1.1 ∈ a ∧ 0 ≤ o.1.2) (hs : Scanned es b) :
    Scanned (es ++ [e]) (betterSeat b e.2 e.1.1 e.1.2) := by
  by_cases hwa : Wants e.1.1 e.1.2
  · rw [betterSeat_of_wants b e.2 hwa]
    cases b with
    | none =>
      refine ⟨e, by simp, rfl, hwa, rfl, ?_⟩
      intro o ho hw
      rcases mem_append.mp ho with hold | hn
      · exact absurd hw (hs o hold)
      · rw [mem_singleton.mp hn]
    | some found =>
      obtain ⟨f, hf, hi, hne, hv, hm⟩ := hs
      have hc : Double.lt found.2 (Double.ofInt (weight e.1.1) / Double.ofInt (e.1.2 + 1))
            = true ↔ quotient f.1.1 (f.1.2 + 1) < quotient e.1.1 (e.1.2 + 1) := by
        have hl := hno f (by simp [hf])
        have hr := hno e (by simp)
        have hfe := hne.2
        have hma := hwa.2
        rw [hv]
        exact he _ hl.1 _ hr.1 _ _ (by omega) (by omega) (by omega) (by omega)
      dsimp only
      by_cases hb : quotient f.1.1 (f.1.2 + 1) < quotient e.1.1 (e.1.2 + 1)
      · rw [if_pos (hc.mpr hb)]
        refine ⟨e, by simp, rfl, hwa, rfl, ?_⟩
        intro o ho hw
        rcases mem_append.mp ho with hold | hn
        · exact (hm o hold hw).trans hb.le
        · rw [mem_singleton.mp hn]
      · rw [if_neg (mt hc.mp hb)]
        refine ⟨f, by simp [hf], hi, hne, hv, ?_⟩
        intro o ho hw
        rcases mem_append.mp ho with hold | hn
        · exact hm o hold hw
        · rw [mem_singleton.mp hn]
          exact not_lt.mp hb
  · rw [betterSeat_of_not_wants b e.2 hwa]
    cases b with
    | none =>
      intro o ho
      rcases mem_append.mp ho with hold | hn
      · exact hs o hold
      · rw [mem_singleton.mp hn]
        exact hwa
    | some found =>
      obtain ⟨f, hf, hi, hne, hv, hm⟩ := hs
      refine ⟨f, by simp [hf], hi, hne, hv, ?_⟩
      intro o ho hw
      rcases mem_append.mp ho with hold | hn
      · exact hm o hold hw
      · rw [mem_singleton.mp hn] at hw
        exact absurd hw hwa

theorem scan_scanned (hexa : ExactQuotients F a) (es : List (((Int × Int) × Int) × Nat))
    (hn : ∀ e ∈ es, e.1.1 ∈ a ∧ 0 ≤ e.1.2) : Scanned es (es.foldl (fun b e =>
      betterSeat b e.2 e.1.1 e.1.2) (none : Option (Nat × F))) := by
  induction es using List.reverseRecOn with
  | nil =>
    intro e he
    simp at he
  | append_singleton es e ih =>
    rw [foldl_append]
    have hb := ih (fun o ho => hn o (by simp [ho]))
    exact hb.betterSeat hexa hn

end Scan

/-- The seats at a position; 0 past the end. -/
def seatsAt (given : List Int) (index : Nat) : Int := given.getD index 0

/-- The demand at a position. -/
def askAt (asks : List (Int × Int)) (index : Nat) : Int × Int := asks.getD index (0, 0)

section

variable {asks a : List (Int × Int)}

variable {g : List Int} {b first f : Nat}

theorem mem_scan (hl : g.length = a.length) {e : ((Int × Int) × Int) × Nat} :
    e ∈ (a.zip g).zipIdx ↔ e.2 < a.length ∧ e.1 = (askAt a e.2, seatsAt g e.2) := by
  obtain ⟨p, i⟩ := e
  rw [mem_zipIdx_iff_getElem?, askAt, seatsAt]
  by_cases hi : i < a.length
  · have hg : i < g.length := hl ▸ hi
    rw [List.getElem?_zip_eq_some]
    simp only [getD_eq_getElem?_getD, List.getElem?_eq_getElem hi,
      List.getElem?_eq_getElem hg, Option.getD_some, Option.some.injEq, hi, true_and]
    constructor
    · rintro ⟨ha, hs⟩
      rw [ha, hs]
    · rintro rfl
      exact ⟨rfl, rfl⟩
  · have hn : (a.zip g)[i]? = none := by
      rw [List.getElem?_eq_none_iff, length_zip]
      omega
    simp [hi]

/-- The seat a scan gives goes to a position that wants it and has the largest
quotient of all that do; no scan gives one only when nobody wants any. -/
theorem bestSeat_spec (hexa : ExactQuotients F a) (hl : g.length = a.length)
    (hno : ∀ i < a.length, 0 ≤ seatsAt g i) : match bestSeat F a g with
    | none => ∀ i < a.length, ¬ Wants (askAt a i) (seatsAt g i)
    | some b => b < a.length ∧ Wants (askAt a b) (seatsAt g b) ∧
        ∀ i < a.length, Wants (askAt a i) (seatsAt g i) →
          quotient (askAt a i) (seatsAt g i + 1) ≤
            quotient (askAt a b) (seatsAt g b + 1) := by
  have hs := scan_scanned hexa (a.zip g).zipIdx (by
    intro e he
    obtain ⟨hi, hp⟩ := (mem_scan hl).mp he
    rw [hp]
    refine ⟨?_, hno e.2 hi⟩
    rw [askAt, getD_eq_getElem _ _ hi]
    exact getElem_mem hi)
  rw [bestSeat]
  cases hf : (a.zip g).zipIdx.foldl (fun b e =>
      betterSeat b e.2 e.1.1 e.1.2) (none : Option (Nat × F)) with
  | none =>
    rw [hf] at hs
    intro i hi
    exact hs ((askAt a i, seatsAt g i), i) ((mem_scan hl).mpr ⟨hi, rfl⟩)
  | some f =>
    rw [hf] at hs
    obtain ⟨first, hfi, hsa, hn, _, hm⟩ := hs
    obtain ⟨hi, hp⟩ := (mem_scan hl).mp hfi
    rw [hp, hsa] at hn
    rw [hsa] at hi
    refine ⟨hi, hn, ?_⟩
    intro i hlt hw
    have hle := hm ((askAt a i, seatsAt g i), i) ((mem_scan hl).mpr ⟨hlt, rfl⟩) hw
    rw [hp, hsa] at hle
    exact hle

/-- A division of seats: everybody is within what they want, the first ones
hold a seat, and a seat beyond the first was never better placed with another
member. -/
structure Division (asks : List (Int × Int)) (first : Nat)
    (given : List Int) : Prop where
  length : given.length = asks.length
  nonneg : ∀ index < asks.length, 0 ≤ seatsAt given index
  wanted : ∀ index < asks.length, seatsAt given index ≤ (askAt asks index).1
  held : ∀ index < first, 1 ≤ seatsAt given index
  fair : ∀ left < asks.length, ∀ right < asks.length,
    1 ≤ seatsAt given left → seatsAt given left < (askAt asks left).1 →
    1 < seatsAt given right →
    quotient (askAt asks left) (seatsAt given left + 1) ≤
      quotient (askAt asks right) (seatsAt given right)

theorem seatsAt_modify (hb : b < g.length) (i : Nat) : seatsAt (g.modify b (· + 1)) i =
      if i = b then seatsAt g b + 1 else seatsAt g i := by
  simp only [seatsAt, getD_eq_getElem?_getD, List.getElem?_modify]
  by_cases hs : i = b
  · subst hs
    simp [List.getElem?_eq_getElem hb]
  · simp [hs, Ne.symm hs]

theorem sum_modify (hb : b < g.length) : (g.modify b (· + 1)).sum = g.sum + 1 := by
  induction g generalizing b with
  | nil => simp at hb
  | cons head t ih =>
    cases b with
    | zero =>
      simp only [modify_zero_cons, sum_cons]
      omega
    | succ b =>
      have ht : b < t.length := by simpa using hb
      simp only [modify_succ_cons, sum_cons, ih ht]
      omega

/-- Dealing the next seat to the largest quotient keeps the division fair. -/
theorem Division.deal (hdi : Division a f g) (hb : b < a.length)
    (hw : Wants (askAt a b) (seatsAt g b))
    (hmo : ∀ i < a.length, Wants (askAt a i) (seatsAt g i) →
      quotient (askAt a i) (seatsAt g i + 1) ≤ quotient (askAt a b) (seatsAt g b + 1)) :
    Division a f (g.modify b (· + 1)) := by
  have hs := seatsAt_modify (hdi.length ▸ hb : b < g.length)
  have ho : 1 ≤ seatsAt g b := by
    have hn := hdi.nonneg b hb
    have hhe := hw.1
    omega
  constructor
  · rw [length_modify, hdi.length]
  · intro i hi
    have hn := hdi.nonneg i hi
    rw [hs]
    split_ifs
    · omega
    · exact hn
  · intro i hi
    have hmor := hw.2
    rw [hs]
    split_ifs with hsa
    · rw [hsa]
      omega
    · exact hdi.wanted i hi
  · intro i hi
    have hhe := hdi.held i hi
    rw [hs]
    split_ifs
    · omega
    · exact hhe
  · intro left hle right hri hh hro hm
    rw [hs] at hh hro hm
    rw [hs, hs]
    -- the member that takes the seat on either side of the comparison
    by_cases hl : left = b
    · subst hl
      rw [if_pos rfl] at hro ⊢
      have hwo : quotient (askAt a left) (seatsAt g left + 1 + 1) ≤
          quotient (askAt a left) (seatsAt g left + 1) := quotient_succ_le _ (by omega)
      by_cases hr : right = left
      · rw [if_pos hr, hr]
        exact hwo
      · rw [if_neg hr] at hm ⊢
        exact hwo.trans (hdi.fair left hle right hri ho hw.2 hm)
    · rw [if_neg hl] at hh hro ⊢
      by_cases hr : right = b
      · rw [if_pos hr, hr]
        exact hmo left hle ⟨by omega, hro⟩
      · rw [if_neg hr] at hm ⊢
        exact hdi.fair left hle right hri hh hro hm

/-- The sum of what is wanted. -/
def wantedSum (asks : List (Int × Int)) : Int := (asks.map Prod.fst).sum

theorem sum_eq_of_getD {left right : List Int} (hl : left.length = right.length)
    (ha : ∀ i < right.length, left.getD i 0 = right.getD i 0) : left.sum = right.sum := by
  congr 1
  apply ext_getElem hl
  intro i hle hr
  have hs := ha i hr
  rw [getD_eq_getElem _ _ hle, getD_eq_getElem _ _ hr] at hs
  exact hs

theorem askAt_fst (a : List (Int × Int)) (i : Nat) : (askAt a i).1 = (a.map Prod.fst).getD i 0 := by
  rw [askAt, getD_eq_getElem?_getD, getD_eq_getElem?_getD, List.getElem?_map]
  cases a[i]? with
  | _ => rfl

theorem Division.sum_le (hdi : Division a f g) : g.sum ≤ wantedSum a := by
  apply List.Forall₂.sum_le_sum
  rw [forall₂_iff_get]
  refine ⟨by rw [hdi.length, length_map], ?_⟩
  intro i hg ha
  have hi : i < a.length := by simpa using ha
  have hl := hdi.wanted i hi
  rw [askAt_fst, seatsAt, getD_eq_getElem _ _ hg, getD_eq_getElem _ _ ha] at hl
  exact hl

/-- The loop: the division stays fair, and it stops for want of seats or of
members that want one. -/
theorem divideSeats_division {ss : Nat} (he : ExactQuotients F a) (hdi : Division a f g)
    (ha : ss = 0 ∨ a.length ≤ f) :
    Division a f (divideSeats F a ss g) ∧ (divideSeats F a ss g).sum =
        min (g.sum + ss) (wantedSum a) := by
  induction ss generalizing g with
  | zero =>
    have hle := hdi.sum_le
    refine ⟨hdi, ?_⟩
    rw [divideSeats, Nat.cast_zero, add_zero, min_eq_left hle]
  | succ ss ih =>
    have hf : a.length ≤ f := by
      rcases ha with hz | hf
      · simp at hz
      · exact hf
    have hs := bestSeat_spec he hdi.length hdi.nonneg
    rw [divideSeats]
    cases hb : bestSeat F a g with
    | none =>
      rw [hb] at hs
      refine ⟨hdi, ?_⟩
      have hsu : g.sum = wantedSum a := by
        apply sum_eq_of_getD
        · rw [hdi.length, length_map]
        · intro i hi
          have hl : i < a.length := by simpa using hi
          have hfu := hs i hl
          have hh := hdi.held i (by omega)
          have hwa := hdi.wanted i hl
          rw [Wants, not_and_or] at hfu
          rw [← askAt_fst]
          change seatsAt g i = _
          omega
      dsimp only
      omega
    | some b =>
      rw [hb] at hs
      obtain ⟨hl, hw, hm⟩ := hs
      have hn := ih (hdi.deal hl hw hm) (.inr hf)
      rw [sum_modify (hdi.length ▸ hl : b < g.length)] at hn
      refine ⟨hn.1, hn.2.trans ?_⟩
      push_cast
      congr 1
      omega

theorem firstSeats_eq (n ss : Nat) :
    firstSeats n ss = (List.replicate (min n ss) 1 ++ List.replicate (n - ss) 0, ss - n) := by
  induction n generalizing ss with
  | zero => simp [firstSeats]
  | succ n ih =>
    cases ss with
    | zero => simp [firstSeats, ih, replicate_succ]
    | succ ss =>
      rw [firstSeats, ih]
      simp [replicate_succ]

theorem seatsAt_firstSeats (n ss : Nat) {i : Nat} (hi : i < n) :
    seatsAt (firstSeats n ss).1 i = if i < ss then 1 else 0 := by
  rw [firstSeats_eq, seatsAt, getD_eq_getElem?_getD]
  by_cases hs : i < ss
  · rw [List.getElem?_append_left (by simp; omega), if_pos hs,
      List.getElem?_replicate, if_pos (by omega)]
    rfl
  · rw [List.getElem?_append_right (by simp; omega), if_neg hs,
      length_replicate, List.getElem?_replicate, if_pos (by omega)]
    rfl

/-- One seat each, in joining order, is a fair division. -/
theorem firstSeats_division (ss : Nat) (hw : ∀ ask ∈ a, 1 ≤ ask.1) :
    Division a (min ss a.length) (firstSeats a.length ss).1 := by
  have hs : ∀ i < a.length, seatsAt (firstSeats a.length ss).1 i = if i < ss then 1 else 0 :=
    fun i hi => seatsAt_firstSeats a.length ss hi
  have hl : ∀ i < a.length, 1 ≤ (askAt a i).1 := by
    intro i hi
    rw [askAt, getD_eq_getElem _ _ hi]
    exact hw _ (getElem_mem hi)
  constructor
  · exact firstSeats_length _ _
  · intro i hi
    rw [hs i hi]
    split_ifs <;> decide
  · intro i hi
    have hle := hl i hi
    rw [hs i hi]
    split_ifs <;> omega
  · intro i hi
    obtain ⟨hse, hc⟩ := lt_min_iff.mp hi
    rw [hs i hc, if_pos hse]
  · intro left hlef right hr _ _ hm
    rw [hs right hr] at hm
    split_ifs at hm <;> omega

end

theorem firstSeats_sum (n ss : Nat) :
    (firstSeats n ss).1.sum + ((firstSeats n ss).2 : Int) = ss := by
  rw [firstSeats_eq]
  simp only [sum_append, sum_replicate, nsmul_eq_mul, mul_one, mul_zero, add_zero]
  omega

variable {Member : Type u} {Host : Type v} [LinearOrder Member] [LinearOrder Host]

/-- The demands of a host's members in joining order. -/
def asksOf (pool : HostPool Member Host) (host : Host) : List (Int × Int) :=
  (pool.membersOf host).map fun entry => (entry.2.wanted, entry.2.remaining)

/-- What `allocate` stores for the members of a limited host. -/
theorem allocate_allowances (p : HostPool Member Host) (host : Host) (hli : 0 < p.limit host) :
    let ss := firstSeats (p.membersOf host).length (p.limit host).toNat
    (p.membersOf host).map (fun e =>
        (p.allocate F host).allowances.find? e.1) =
      (divideSeats F (p.asksOf host) ss.2 ss.1).map some := by
  intro ss
  have hs : p.shares F host = ((p.membersOf host).map Prod.fst).zip
      (divideSeats F (p.asksOf host) ss.2 ss.1) := by
    rw [shares, if_neg (not_le.mpr hli)]
    rfl
  have hl : (divideSeats F (p.asksOf host) ss.2 ss.1).length = (p.membersOf host).length := by
    rw [divideSeats_length, firstSeats_length]
  have hn := p.shares_nodup (F := F) host
  apply ext_getElem
  · rw [length_map, length_map, hl]
  · intro i hle hr
    have hi : i < (p.membersOf host).length := by simpa using hle
    rw [getElem_map, getElem_map]
    apply OrdMap.find?_insertAll_of_mem _ hn
    rw [hs, mem_iff_getElem]
    refine ⟨i, by simp [hl, hi], ?_⟩
    simp

/-- An overloaded host divides its limit: each member gets at most what it
wants, together they get the limit or all they want, the first to join get one
connection each, and the rest are D'Hondt seats by remaining bytes. -/
theorem allocate_divides_fairly (pool : HostPool Member Host) (host : Host)
    (hlimit : 0 < pool.limit host) (hwanted : ∀ entry ∈ pool.membersOf host, 1 ≤ entry.2.wanted)
    (hexact : ExactQuotients F (pool.asksOf host)) :
    let members := pool.membersOf host
    members.Pairwise (fun left right => left.2.order ≤ right.2.order) ∧
    ∃ given : List Int, members.map (fun entry =>
        (pool.allocate F host).allowances.find? entry.1) = given.map some ∧
      (∀ (i : Nat) (entry : Member × Demand Host) (seats : Int),
        members[i]? = some entry → given[i]? = some seats → 0 ≤ seats ∧ seats ≤ entry.2.wanted ∧
        (i < min (pool.limit host).toNat members.length → 1 ≤ seats)) ∧
      given.sum = min (pool.limit host) (members.map fun entry => entry.2.wanted).sum ∧
      ∀ (i j : Nat) (first second : Member × Demand Host) (few many : Int),
        members[i]? = some first → given[i]? = some few →
        members[j]? = some second → given[j]? = some many →
        1 ≤ few → few < first.2.wanted → 1 < many →
        ((max 1 first.2.remaining : Int) : ℚ) / (few + 1) ≤
          ((max 1 second.2.remaining : Int) : ℚ) / many := by
  intro members
  have hlength : (pool.asksOf host).length = members.length := length_map _
  have hsorted : members.Pairwise (fun left right => left.2.order ≤ right.2.order) := by
    have htotal : Std.Total (fun left right : Member × Demand Host =>
        left.2.order ≤ right.2.order) := ⟨fun _ _ => le_total _ _⟩
    have htrans : IsTrans (Member × Demand Host) (fun left right =>
        left.2.order ≤ right.2.order) := ⟨fun _ _ _ => le_trans⟩
    exact pairwise_insertionSort _ _
  have hasks : ∀ ask ∈ pool.asksOf host, 1 ≤ ask.1 := by
    intro ask hask
    obtain ⟨entry, hentry, rfl⟩ := mem_map.mp hask
    exact hwanted entry hentry
  have hask : ∀ {index : Nat} {entry : Member × Demand Host},
      members[index]? = some entry → index < (pool.asksOf host).length ∧
        askAt (pool.asksOf host) index = (entry.2.wanted, entry.2.remaining) := by
    intro index entry hentry
    obtain ⟨hlt, -⟩ := List.getElem?_eq_some_iff.mp hentry
    refine ⟨hlength ▸ hlt, ?_⟩
    have hmap : (pool.asksOf host)[index]? = some (entry.2.wanted, entry.2.remaining) := by
      rw [asksOf, List.getElem?_map, hentry]
      rfl
    rw [askAt, getD_eq_getElem?_getD, hmap]
    rfl
  have hstart := firstSeats_division (pool.limit host).toNat hasks
  have hremain : (firstSeats (pool.asksOf host).length
      (pool.limit host).toNat).2 = 0 ∨ (pool.asksOf host).length ≤
        min (pool.limit host).toNat (pool.asksOf host).length := by
    rw [firstSeats_eq]
    omega
  have hend := divideSeats_division hexact hstart hremain
  rw [hlength] at hend
  generalize hgiven : divideSeats F (pool.asksOf host)
    (firstSeats members.length (pool.limit host).toNat).2
    (firstSeats members.length (pool.limit host).toNat).1 = given at hend
  have hseats : ∀ {index : Nat} {seats : Int}, given[index]? = some seats →
      seatsAt given index = seats := by
    intro index seats hseats
    rw [seatsAt, getD_eq_getElem?_getD, hseats]
    rfl
  refine ⟨hsorted, given, ?_, ?_, ?_, ?_⟩
  · rw [← hgiven]
    exact pool.allocate_allowances host hlimit
  · intro i entry seats hentry hshare
    obtain ⟨hlt, hmember⟩ := hask hentry
    have hnonneg := hend.1.nonneg i hlt
    have hmost := hend.1.wanted i hlt
    rw [hseats hshare] at hnonneg hmost
    rw [hmember] at hmost
    refine ⟨hnonneg, hmost, fun hfirst => ?_⟩
    have hheld := hend.1.held i hfirst
    rwa [hseats hshare] at hheld
  · have hsum := firstSeats_sum members.length (pool.limit host).toNat
    have hwhole : wantedSum (pool.asksOf host) = (members.map fun entry => entry.2.wanted).sum := by
      rw [wantedSum, asksOf, map_map]
      rfl
    rw [hend.2, hsum, hwhole, Int.toNat_of_nonneg hlimit.le]
  · intro i j first second few many hfirst hfew hsecond hmany hone hroom htwo
    obtain ⟨hleft, hi⟩ := hask hfirst
    obtain ⟨hright, hj⟩ := hask hsecond
    have hfair := hend.1.fair i hleft j hright
    rw [hseats hfew, hseats hmany, hi, hj] at hfair
    have hle := hfair hone hroom htwo
    rw [quotient, quotient, weight, weight] at hle
    push_cast at hle ⊢
    exact hle

/-- Two downloads share five connections of a host: nine bytes against
three. -/
theorem allocate_divides_fairly_four_one :
    let pool : HostPool Nat Nat := Runs.run (step ℚ) {}
      [.update 0 7 8 9 5, .update 1 7 8 3 0, .overloaded 0 0 0 0]
    (pool.membersOf 7).map (fun entry =>
        (pool.allocate ℚ 7).allowances.find? entry.1) = [some 4, some 1] ∧
      ((max 1 3 : Int) : ℚ) / (1 + 1) ≤ ((max 1 9 : Int) : ℚ) / 4 := by
  intro pool
  have hshares : (pool.membersOf 7).map (fun entry =>
      (pool.allocate ℚ 7).allowances.find? entry.1) = [some 4, some 1] := by
    decide +kernel
  obtain ⟨_, given, hgiven, _, _, hfair⟩ := pool.allocate_divides_fairly 7
    (by decide +kernel) (by decide +kernel) (exactQuotients_rat _)
  have hseats : given = [4, 1] := by
    have hsame := hgiven.symm.trans hshares
    exact map_injective_iff.mpr (Option.some_injective Int) hsame
  rw [hseats] at hfair
  refine ⟨hshares, ?_⟩
  exact_mod_cast hfair 1 0 _ _ 1 4 rfl rfl rfl rfl (by decide) (by decide +kernel) (by decide)

end Aria2Next.HostPool
