/-
What `open` makes of a stored record: the verified parts, then the received
ranges one by one, and of the parts that are there and not verified those it
looks at.
-/
import Aria2Next.Ed2kParts
import Aria2Next.Ed2kStore

namespace Aria2Next.Ed2kTask

open List

universe u

variable {D : Type u}

/-- The rounds of `open` over the stored ranges. -/
def addStored (state : List Nat × Parts) (range : Range) : List Nat × Parts :=
  (state.1 ++ (state.2.add range.1 range.2).1.toList, (state.2.add range.1 range.2).2)

/-- The progress after the ranges `done`, on top of verified parts. -/
structure Loaded (base : Parts) (done : List Range) (state : List Nat × Parts) :
    Prop where
  size : state.2.size = base.size
  verified : state.2.verified = base.verified
  received : ∀ offset, offset ∈ state.2.received ↔ offset ∈ base.received ∨
    (offset ∈ Ranges.offsets done ∧ 0 ≤ offset ∧ offset < base.size)
  found : ∀ index < base.count, state.2.Pending index → index ∈ state.1

/-- Verified parts and nothing else. -/
def Clean (base : Parts) : Prop :=
  ∀ offset, offset ∈ base.received → ∃ index, base.isVerified index = true ∧ base.In index offset

namespace Loaded

variable {b : Parts} {size sz : Int} {d : List Range} {s : List Nat × Parts}

variable {i : Nat} {r : Range}

theorem in_iff (hl : Loaded b d s) {x : Int} : s.2.In i x ↔ b.In i x := by
  rw [Parts.in_iff, Parts.in_iff, hl.size]

theorem isVerified (hl : Loaded b d s) (i : Nat) : s.2.isVerified i = b.isVerified i := by
  rw [Parts.isVerified, hl.verified, Parts.isVerified]

/-- A pending part lies in one stored range. -/
theorem interval (hl : Loaded b d s) (hc : Clean b) (hs : b.Shaped sz) (hse : Ranges.Separated d)
    (hi : i < b.count) (hp : s.2.Pending i) : ∃ r ∈ d, r.1 ≤ (b.part i).1 ∧ (b.part i).2 ≤ r.2 := by
  obtain ⟨hf, ho⟩ := hp
  rw [hl.isVerified] at ho
  apply Ranges.exists_interval hse (hs.part_lt hi)
  intro x hlo hh
  have hin : b.In i x := ⟨hlo, hh⟩
  have hm := Parts.filled_iff.mp hf x (hl.in_iff.mpr hin)
  rcases (hl.received x).mp hm with hb | ⟨hdo, _⟩
  · obtain ⟨o, hv, hot⟩ := hc x hb
    rw [hot.unique hin, ho] at hv
    exact absurd hv (by decide)
  · exact hdo

/-- A part inside a range that was added is pending, unless it is
verified. -/
theorem pending (hl : Loaded b d s) (hr : r ∈ d) (hlo : r.1 ≤ (b.part i).1)
    (hh : (b.part i).2 ≤ r.2) (ho : b.isVerified i = false) : s.2.Pending i := by
  refine ⟨Parts.filled_iff.mpr fun x hi => ?_, ?_⟩
  · rw [hl.in_iff] at hi
    obtain ⟨hl', _, hh'⟩ := Parts.in_iff.mp hi
    rw [hl.received]
    refine .inr ⟨⟨r, hr, hlo.trans hi.1, ?_⟩, ?_, hh'⟩
    · have := hi.2
      omega
    · simp only [pieceLength] at hl'
      omega
  · rw [hl.isVerified]
    exact ho

/-- One more range, which holds one part at most. -/
theorem add (hl : Loaded b d s) (hc : Clean b) (hs : b.Shaped sz)
    (hse : Ranges.Separated (d ++ [r])) (hsi : ∀ left right : Nat, left < right → right < b.count →
      r.1 ≤ (b.part left).1 → ¬ (b.part right).2 ≤ r.2) : Loaded b (d ++ [r]) (addStored s r) := by
  have hr : ∀ x, x ∈ (addStored s r).2.received ↔ x ∈ b.received ∨ (x ∈ Ranges.offsets (d ++ [r]) ∧
        0 ≤ x ∧ x < b.size) := by
    intro x
    rw [addStored, Parts.mem_addBytes, hl.received, hl.size,
      Ranges.mem_offsets_append, Ranges.mem_offsets_cons, or_assoc]
    apply or_congr_right
    simp only [Ranges.mem_offsets_nil, or_false]
    constructor
    · rintro (⟨hdo, hlo, hh⟩ | ⟨hlo, hh⟩)
      · exact ⟨.inl hdo, hlo, hh⟩
      · exact ⟨.inr ⟨by omega, by omega⟩, by omega, by omega⟩
    · rintro ⟨hdo | ⟨hlo, hh⟩, hpo, hlt⟩
      · exact .inl ⟨hdo, hpo, hlt⟩
      · exact .inr ⟨by omega, by omega⟩
  have hb : ∀ g, (∀ i < b.count, (addStored s r).2.Pending i → i ∈ g) →
      Loaded b (d ++ [r]) (g, (addStored s r).2) := fun g hfo => ⟨(Parts.add_size ..).trans hl.size,
      (Parts.add_verified ..).trans hl.verified, hr, hfo⟩
  have ha := hb (List.range b.count) fun i hi _ => mem_range.mpr hi
  apply hb
  intro i hi hp
  obtain ⟨ho, hho, hlo, hh⟩ := ha.interval hc hs hse hi hp
  have hop : b.isVerified i = false := (ha.isVerified i).symm.trans hp.2
  rcases mem_append.mp hho with he | hla
  · exact mem_append_left _ (hl.found i hi (hl.pending he hlo hh hop))
  · rw [mem_singleton] at hla
    subst hla
    apply mem_append_right
    rw [Option.mem_toList]
    have hbe := hs.in_begin hi
    have hpo : 0 ≤ (b.part i).1 := by
      simp only [Parts.part, pieceLength]
      omega
    have hen : (b.part i).2 ≤ b.size := min_le_right _ _
    have hpa := hs.part_lt hi
    have hlt : max ho.1 0 < min ho.2 s.2.size := by
      rw [hl.size]
      omega
    rw [Parts.add_fst hlt]
    rcases hf : List.find? _ _ with _ | o
    · rw [List.find?_eq_none] at hf
      have hloo := Parts.mem_range_of_in (max ho.1 0) (min ho.2 s.2.size) hbe (by omega)
        (by rw [hl.size]; omega)
      have hn := hf i hloo
      rw [show (s.2.add ho.1 ho.2).2 = (addStored s ho).2 from rfl] at hn
      simp [hp.1, hp.2] at hn
    · have hot := List.find?_some hf
      simp only [Bool.and_eq_true, Bool.not_eq_true'] at hot
      have hp' : (addStored s ho).2.Pending o := ⟨hot.2, hot.1⟩
      obtain ⟨hin, hhi'⟩ := Parts.in_of_mem_range b (by omega) hlt (by rw [hl.size]; omega)
        (mem_of_find?_eq_some hf)
      have hco := hs.lt_count hin
      obtain ⟨ho', hh', hl', hh''⟩ := ha.interval hc hs hse hco hp'
      have hsa : ho' = ho := by
        by_contra hne
        have hi' := hin
        rcases Ranges.apart_of_mem hse hh' hho hne with h | h
        · have := hin.2
          omega
        · have := hin.1
          omega
      subst hsa
      rcases Nat.lt_trichotomy o i with h | rfl | h
      · exact absurd hh (hsi o i h hi hl')
      · rfl
      · exact absurd hh'' (hsi i o h hco hlo)

end Loaded

variable {size sz : Int} {parts p : Parts} {A : Type*} {i : Nat}

theorem foldl_addStored {b : Parts} (hc : Clean b) (hsh : b.Shaped sz) (ra d : List Range)
    (s : List Nat × Parts) (hl : Loaded b d s) (hse : Ranges.Separated (d ++ ra))
    (hs : ∀ r ∈ ra, ∀ left right : Nat, left < right → right < b.count → r.1 ≤ (b.part left).1 →
      ¬ (b.part right).2 ≤ r.2) : Loaded b (d ++ ra) (ra.foldl addStored s) := by
  induction ra generalizing d s with
  | nil =>
    rw [append_nil]
    exact hl
  | cons head t ih =>
    rw [append_cons] at hse ⊢
    apply ih
    · exact hl.add hc hsh (Ranges.separated_append.mp hse).1 (hs head mem_cons_self)
    · exact hse
    · exact fun r hr => hs r (mem_cons_of_mem _ hr)

theorem Clean.verify (hc : Clean p) (hs : p.Shaped sz) (i : Nat) : Clean (p.verify i) := by
  intro x hm
  rcases Parts.mem_verify.mp hm with hm | hi
  · obtain ⟨o, hv, ho⟩ := hc x hm
    refine ⟨o, ?_, ho⟩
    rw [Parts.verify_isVerified (hs.lt_count ho), hv, Bool.or_true]
  · refine ⟨i, ?_, hi⟩
    rw [Parts.verify_isVerified (hs.lt_count hi), beq_self_eq_true, Bool.true_or]

theorem foldl_verify_clean (i : A → Nat) (l : List A) (hc : Clean p) (hs : p.Shaped sz) :
    Clean (l.foldl (fun p a => p.verify (i a)) p) ∧
      (l.foldl (fun p a => p.verify (i a)) p).Shaped sz := by
  induction l generalizing p with
  | nil => exact ⟨hc, hs⟩
  | cons head t ih =>
    exact ih (hc.verify hs (i head)) (hs.of_eq rfl (Parts.verify_count p (i head)))

theorem Clean.not_pending (hc : Clean p) (hs : p.Shaped sz) (hi : i < p.count) : ¬ p.Pending i := by
  rintro ⟨hf, hop⟩
  have hb := hs.in_begin hi
  obtain ⟨o, hv, ho⟩ := hc _ (Parts.filled_iff.mp hf _ hb)
  rw [ho.unique hb, hop] at hv
  exact absurd hv (by decide)

theorem ofSize_clean (sz : Int) : Clean (.ofSize sz) :=
  fun x hm => absurd hm (RangeSet.not_mem_empty x)

/-- A stored record whose ranges hold one part each at most. -/
structure Legible (size : Int) (record : DownloadRecord D) : Prop where
  separated : Ranges.Separated record.received
  single : ∀ range ∈ record.received, ∀ left right : Nat, left < right →
    right * pieceLength < size → range.1 ≤ left * pieceLength →
    ¬ min (right * pieceLength + pieceLength) size ≤ range.2

/-- The parts a record marks as verified. -/
def storedParts (parts : Parts) (record : DownloadRecord D) : Parts :=
  (record.parts.zipIdx.filter fun entry =>
    entry.1 && entry.2 < parts.count).foldl (fun parts entry => parts.verify entry.2) parts

/-- What a record gives: the parts to look at, and the progress. -/
def storedProgress (parts : Parts) (record : DownloadRecord D) : List Nat × Parts :=
  record.received.foldl addStored ([], storedParts parts record)

/-- The progress of such a record: what is pending waits to be looked at. -/
theorem storedProgress_spec (sz : Int) (re : DownloadRecord D) (hle : Legible sz re) :
    (storedProgress (.ofSize sz) re).2.Shaped sz ∧ ∀ i < (storedProgress (.ofSize sz) re).2.count,
        (storedProgress (.ofSize sz) re).2.Pending i → i ∈ (storedProgress (.ofSize sz) re).1 := by
  obtain ⟨hc, hs⟩ : Clean (storedParts (.ofSize sz) re) ∧ (storedParts (.ofSize sz) re).Shaped sz :=
    foldl_verify_clean Prod.snd _ (ofSize_clean sz) (Parts.ofSize_shaped sz)
  have hl : Loaded (storedParts (.ofSize sz) re) re.received (storedProgress (.ofSize sz) re) := by
    apply foldl_addStored hc hs re.received [] ([], _)
    · exact ⟨rfl, rfl, by simp, fun i hi hp =>
        absurd hp (hc.not_pending hs hi)⟩
    · exact hle.separated
    · intro r hr left right hlt hri hlo hh
      have hsi := (Parts.in_iff.mp (hs.in_begin hri)).2.2
      simp only [Parts.part, hs.size_eq] at hlo hh hsi
      exact hle.single r hr left right hlt hsi hlo hh
  have hco : (storedProgress (.ofSize sz) re).2.count =
      (storedParts (.ofSize sz) re).count := congrArg List.length hl.verified
  refine ⟨hs.of_eq hl.size hco, ?_⟩
  intro i hi
  exact hl.found i (hco ▸ hi)

theorem ofSize_isVerified (sz : Int) (i : Nat) : (Parts.ofSize sz).isVerified i = false := by
  rw [Parts.isVerified, Parts.ofSize, getD_eq_getElem?_getD, List.getElem?_replicate]
  split <;> rfl

theorem foldl_verify_isVerified (p : A → Nat) (l : List A) (ps : Parts) (hi : i < ps.count) :
    (l.foldl (fun ps e => ps.verify (p e)) ps).isVerified i = true ↔
      ps.isVerified i = true ∨ ∃ e ∈ l, p e = i := by
  induction l generalizing ps with
  | nil => simp
  | cons head t ih =>
    rw [foldl_cons, ih (ps.verify (p head)) (by rw [Parts.verify_count]; exact hi),
      Parts.verify_isVerified hi, Bool.or_eq_true, beq_iff_eq]
    simp only [mem_cons, exists_eq_or_imp]
    tauto

theorem foldl_addStored_verified (l : List Range) (s : List Nat × Parts) :
    (l.foldl addStored s).2.verified = s.2.verified := by
  induction l generalizing s with
  | nil => rfl
  | cons head t ih =>
    rw [foldl_cons, ih]
    exact Parts.add_verified s.2 head.1 head.2

theorem foldl_addStored_size (l : List Range) (s : List Nat × Parts) :
    (l.foldl addStored s).2.size = s.2.size := by
  induction l generalizing s with
  | nil => rfl
  | cons head t ih =>
    rw [foldl_cons, ih]
    exact Parts.add_size s.2 head.1 head.2

/-- A record verifies the parts it marks. -/
theorem storedProgress_isVerified (sz : Int) (r : DownloadRecord D) :
    (storedProgress (.ofSize sz) r).2.Shaped sz ∧ ∀ i < (storedProgress (.ofSize sz) r).2.count,
        ((storedProgress (.ofSize sz) r).2.isVerified i = true ↔ r.parts.getD i false = true) := by
  obtain ⟨_, hs⟩ : Clean (storedParts (.ofSize sz) r) ∧ (storedParts (.ofSize sz) r).Shaped sz :=
    foldl_verify_clean Prod.snd _ (ofSize_clean sz) (Parts.ofSize_shaped sz)
  have hv : (storedProgress (.ofSize sz) r).2.verified = (storedParts (.ofSize sz) r).verified :=
    foldl_addStored_verified r.received ([], _)
  have hc : (storedProgress (.ofSize sz) r).2.count =
      (storedParts (.ofSize sz) r).count := congrArg List.length hv
  refine ⟨hs.of_eq (foldl_addStored_size r.received ([], _)) hc, fun i hi => ?_⟩
  have hc' : (storedParts (Parts.ofSize sz) r).count = (Parts.ofSize sz).count :=
    hs.count_eq.trans (Parts.ofSize_shaped sz).count_eq.symm
  rw [hc, hc'] at hi
  rw [Parts.isVerified, hv, ← Parts.isVerified, storedParts,
    foldl_verify_isVerified Prod.snd _ _ hi, ofSize_isVerified, getD_eq_getElem?_getD]
  constructor
  · rintro (h | ⟨⟨bit, p⟩, hm, rfl⟩)
    · exact absurd h (by decide)
    · obtain ⟨hm, hb⟩ := mem_filter.mp hm
      rw [mem_zipIdx_iff_getElem?] at hm
      rw [hm]
      exact (Bool.and_eq_true_iff.mp hb).1
  · intro hb
    rcases hg : r.parts[i]? with _ | bit
    · simp [hg] at hb
    · rw [hg] at hb
      subst hb
      refine .inr ⟨(true, i), mem_filter.mpr ⟨?_, ?_⟩, rfl⟩
      · exact mem_zipIdx_iff_getElem?.mpr hg
      · simpa using hi

end Aria2Next.Ed2kTask
