/-
The claims of `ed2k/Parts` over whole histories: which blocks overlap, where
they lie, and when a client gets none.

The two loops of `claimGaps` are told as relations, one constructor for each way
through the body; that the model computes them is that they end.  A claim that
is added meets `Fresh`, from which every invariant follows.
-/
import Aria2Next.Ed2kClaims

namespace Aria2Next

open List

universe u

variable {O : Type u}

namespace Parts

/-- The loop that looks for the first stretch of a gap. -/
inductive Stretching (blocking : Claim O → Bool) (claims : List (Claim O)) :
    Range → Range → Prop
  | empty {range : Range} (hempty : range.2 ≤ range.1) : Stretching blocking claims range range
  | stay {range free : Range} (hlt : range.1 < range.2)
      (hsweep : sweep blocking range.1 range.2 claims = (false, free)) :
      Stretching blocking claims range free
  | move {range next free : Range} (hlt : range.1 < range.2)
      (hsweep : sweep blocking range.1 range.2 claims = (true, next))
      (hrest : Stretching blocking claims next free) :
      Stretching blocking claims range free

/-- The claims that end behind an offset. -/
def ahead (claims : List (Claim O)) (begin : Int) : Nat :=
  claims.countP fun claim => begin < claim.stop

theorem countP_lt_of_mem {A : Type*} {f m : A → Bool} {l : List A} {e : A}
    (hmo : ∀ j ∈ l, f j → m j) (hm : e ∈ l) (hmor : m e = true) (hfe : f e = false) :
    l.countP f < l.countP m := by
  induction l with
  | nil => exact absurd hm not_mem_nil
  | cons head tail ih =>
    obtain ⟨hh, ht⟩ := forall_mem_cons.mp hmo
    have hl := countP_mono_left ht
    simp only [countP_cons]
    rcases mem_cons.mp hm with hs | hr
    · subst hs
      rw [hfe, hmor]
      simp only [Bool.false_eq_true, if_false, if_true]
      omega
    · have hlt := ih ht hr
      by_cases hf : f head = true
      · rw [if_pos hf, if_pos (hh hf)]
        omega
      · rw [if_neg hf]
        omega

section

variable {bl : Claim O → Bool} {cl : List (Claim O)}

variable {begin bg stop sp : Int} {n f r : Range}

/-- A pass that moves ends at a claim that holds the begin. -/
theorem sweep_moves (hs : sweep bl bg sp cl = (true, n)) :
    ∃ c ∈ cl, bg < c.stop ∧ n.1 = c.stop := by
  induction cl generalizing sp with
  | nil => simp [sweep] at hs
  | cons c r ih =>
    simp only [sweep] at hs
    have hl : ∀ {sp : Int}, sweep bl bg sp r = (true, n) →
        ∃ j ∈ c :: r, bg < j.stop ∧ n.1 = j.stop := by
      intro sp hr
      obtain ⟨j, ho, hf⟩ := ih hr
      exact ⟨j, mem_cons_of_mem c ho, hf⟩
    split at hs
    · exact hl hs
    · rename_i hb
      split at hs
      · simp only [Prod.mk.injEq, true_and] at hs
        refine ⟨c, mem_cons_self, by omega, ?_⟩
        rw [← hs]
      · exact hl hs

/-- Every pass that moves leaves a claim behind. -/
theorem sweep_ahead (hs : sweep bl bg sp cl = (true, n)) : ahead cl n.1 < ahead cl bg := by
  obtain ⟨c, hc, hb, hn⟩ := sweep_moves hs
  rw [hn]
  apply countP_lt_of_mem _ hc
  · exact decide_eq_true hb
  · exact decide_eq_false (lt_irrefl _)
  · intro j _ ho
    simp only [decide_eq_true_eq] at ho ⊢
    omega

theorem stretch_stretching (bl : Claim O → Bool) (cs : List (Claim O)) (p : Nat) (r : Range)
    (hp : ahead cs r.1 < p) : Stretching bl cs r (stretch bl cs p r) := by
  induction p generalizing r with
  | zero => omega
  | succ p ih =>
    obtain ⟨bg, sp⟩ := r
    simp only [stretch]
    by_cases hl : bg < sp
    · rw [if_pos hl]
      split
      · rename_i n hs
        have hle := sweep_ahead hs
        exact .move hl hs (ih n (by dsimp only at hp; omega))
      · rename_i f hs
        exact .stay hl hs
    · rw [if_neg hl]
      exact .empty (by dsimp only; omega)

/-- A pass that stays has no blocking claim between its ends. -/
theorem sweep_clear (hs : sweep bl bg sp cl = (false, f)) :
    f.1 = bg ∧ ∀ c ∈ cl, bl c = true → c.stop ≤ f.1 ∨ f.2 ≤ c.begin := by
  induction cl generalizing sp with
  | nil =>
    simp only [sweep, Prod.mk.injEq, true_and] at hs
    subst hs
    exact ⟨rfl, by simp⟩
  | cons c r ih =>
    have hst : (sweep bl bg c.begin r).2.2 ≤ c.begin := (sweep_within bl r bg c.begin).2
    have hw := (sweep_within bl r bg sp).2
    simp only [sweep] at hs
    split at hs
    · rename_i hp
      obtain ⟨hbe, hc⟩ := ih hs
      rw [hs] at hw
      refine ⟨hbe, fun j ho hb => ?_⟩
      rcases mem_cons.mp ho with hsa | hr
      · subst hsa
        rw [hb] at hp
        dsimp only at hw
        rcases hp with hbef | hbeh | hf
        · left
          omega
        · right
          omega
        · cases hf
      · exact hc j hr hb
    · split at hs
      · simp at hs
      · obtain ⟨hbe, hc⟩ := ih hs
        rw [hs] at hst
        refine ⟨hbe, fun j ho hb => ?_⟩
        rcases mem_cons.mp ho with hsa | hr
        · subst hsa
          exact .inr hst
        · exact hc j hr hb

/-- A stretch that is not empty meets no blocking claim. -/
theorem Stretching.clear (hst : Stretching bl cl r f) (hf : f.1 < f.2) :
    ∀ c ∈ cl, bl c = true → c.stop ≤ f.1 ∨ f.2 ≤ c.begin := by
  induction hst with
  | empty he => omega
  | stay hl hs => exact (sweep_clear hs).2
  | move hl hs hr ih => exact ih hf

theorem sweep_of_free (hn : ∀ c ∈ cl, bl c = false) (begin sp : Int) :
    sweep bl begin sp cl = (false, begin, sp) := by
  induction cl with
  | nil => rfl
  | cons c r ih =>
    obtain ⟨hf, hr⟩ := forall_mem_cons.mp hn
    rw [sweep, if_pos (.inr (.inr hf))]
    exact ih hr

/-- Without a blocking claim the stretch is the gap. -/
theorem Stretching.of_free (hn : ∀ c ∈ cl, bl c = false) (hs : Stretching bl cl r f) : f = r := by
  cases hs with
  | empty he => rfl
  | stay hl hf =>
    rw [sweep_of_free hn] at hf
    simpa using hf.symm
  | move hl hm hr =>
    rw [sweep_of_free hn] at hm
    simp at hm

end

variable [DecidableEq O]

/-- The claims that a request of `owner` keeps clear of. -/
def blocks (owner : O) (endgame : Bool) (now : Int) (claim : Claim O) : Bool :=
  claim.owner = owner || !endgame || now - claim.since < duplicateAfter

/-- The loop of `claimGaps`, from `start` on with what was claimed so far. -/
inductive Claiming (parts : Parts) (owner : O) (index wanted : Nat)
    (endgame : Bool) (now : Int) :
    Int → List (Claim O) × List Range → List (Claim O) × List Range → Prop
  | enough {start : Int} {state : List (Claim O) × List Range} (henough : wanted ≤ state.2.length) :
      Claiming parts owner index wanted endgame now start state state
  | noGap {start : Int} {state : List (Claim O) × List Range} (hwanted : state.2.length < wanted)
      (hgap : parts.received.firstGap start (parts.part index).2 = none) :
      Claiming parts owner index wanted endgame now start state state
  | skip {start : Int} {claims : List (Claim O)} {out : List Range}
      {gap free : Range} {result : List (Claim O) × List Range}
      (hwanted : out.length < wanted)
      (hgap : parts.received.firstGap start (parts.part index).2 = some gap)
      (hfree : Stretching (blocks owner endgame now) claims gap free)
      (hempty : free.2 ≤ free.1)
      (hrest : Claiming parts owner index wanted endgame now gap.2 (claims, out) result) :
      Claiming parts owner index wanted endgame now start (claims, out) result
  | take {start : Int} {claims : List (Claim O)} {out : List Range}
      {gap free : Range} {result : List (Claim O) × List Range}
      (hwanted : out.length < wanted)
      (hgap : parts.received.firstGap start (parts.part index).2 = some gap)
      (hfree : Stretching (blocks owner endgame now) claims gap free)
      (hlt : free.1 < free.2)
      (hrest : Claiming parts owner index wanted endgame now
        (min free.2 (grid (parts.part index).1 free.1))
        (emplace ⟨free.1, min free.2 (grid (parts.part index).1 free.1), owner, now⟩ claims,
          out ++ [(free.1, min free.2 (grid (parts.part index).1 free.1))])
        result) :
      Claiming parts owner index wanted endgame now start (claims, out) result

/-- What is left for the loop: the intervals that begin further on, the end of
the part and the blocks still wanted. -/
def remaining (parts : Parts) (index wanted : Nat) (start : Int) (out : List Range) : Nat :=
  parts.received.ranges.countP (fun range => start < range.1) +
    (wanted - out.length) + if start < (parts.part index).2 then 1 else 0

omit [DecidableEq O] in
theorem lt_grid (p bg : Int) : bg < grid p bg := by
  simp only [grid, blockLength]
  omega

section

variable (p : Parts) (o : O) (i w : Nat) (e : Bool) (now : Int)

theorem claimLoop_succ (r : Nat) (s : Int) (cs : List (Claim O)) (out : List Range) :
    p.claimLoop o i w e now (r + 1) s cs out = if w ≤ out.length then (cs, out)
      else
        match p.received.firstGap s (p.part i).2 with
        | none => (cs, out)
        | some gap =>
          let f := stretch (blocks o e now) cs (cs.length + 1) gap
          if f.2 ≤ f.1 then
            p.claimLoop o i w e now r gap.2 cs out
          else
            let b : Range := (f.1, min f.2 (grid (p.part i).1 f.1))
            p.claimLoop o i w e now r b.2 (emplace ⟨b.1, b.2, o, now⟩ cs) (out ++ [b]) := rfl

variable {st : Int} {out : List Range}

theorem remaining_take {ps : Parts} {i w : Nat} {n : Int} (b : Range) (hw : out.length < w)
    (hn : st ≤ n) : remaining ps i w n (out ++ [b]) < remaining ps i w st out := by
  have hp : ps.received.ranges.countP (fun r => n < r.1) ≤
      ps.received.ranges.countP fun r => st < r.1 := by
    apply countP_mono_left
    intro r _ hr
    simp only [decide_eq_true_eq] at hr ⊢
    omega
  simp only [remaining, length_append, length_cons, length_nil]
  split <;> split <;> omega

/-- A gap ends at the end of the part or where an interval begins. -/
theorem remaining_skip {ps : Parts} {i w : Nat} {gap : Range}
    (hg : ps.received.firstGap st (ps.part i).2 = some gap) :
    remaining ps i w gap.2 out < remaining ps i w st out := by
  have hf := RangeSet.firstGap_some hg
  have hlo := hf.start_le
  have hh := hf.le_limit
  have hn := hf.nonempty
  have hm : ∀ r ∈ ps.received.ranges, decide (gap.2 < r.1) = true → decide (st < r.1) = true := by
    intro r _ hr
    simp only [decide_eq_true_eq] at hr ⊢
    omega
  simp only [remaining]
  rcases hf.stops with hl | ⟨r, hr, hb⟩
  · have hp := countP_mono_left hm
    rw [if_neg (by omega), if_pos (by omega)]
    omega
  · have hp := countP_lt_of_mem hm hr (decide_eq_true (by omega)) (decide_eq_false (by omega))
    split <;> split <;> omega

/-- The model of the loop runs it to its end. -/
theorem claimLoop_claiming (r : Nat) (st : Int) (cl : List (Claim O)) (out : List Range)
    (hr : remaining p i w st out < r) :
    Claiming p o i w e now st (cl, out) (p.claimLoop o i w e now r st cl out) := by
  induction r generalizing st cl out with
  | zero => omega
  | succ r ih =>
    rw [claimLoop_succ]
    by_cases hw : w ≤ out.length
    · rw [if_pos hw]
      exact .enough hw
    rw [if_neg hw]
    have hb : out.length < w := by omega
    cases hg : p.received.firstGap st (p.part i).2 with
    | none => exact .noGap hb hg
    | some gap =>
      have hf := RangeSet.firstGap_some hg
      have hlo := hf.start_le
      have hs := stretch_stretching (blocks o e now) cl (cl.length + 1) gap
        (Nat.lt_succ_of_le countP_le_length)
      have hwi := (stretch_within (blocks o e now) cl (cl.length + 1) gap).1
      dsimp only
      generalize stretch (blocks o e now) cl (cl.length + 1) gap = f at hs hwi
      by_cases he : f.2 ≤ f.1
      · rw [if_pos he]
        have hl : remaining p i w gap.2 out < remaining p i w st out := remaining_skip hg
        exact .skip hb hg hs he (ih _ _ _ (by omega))
      · rw [if_neg he]
        have hgr := lt_grid (p.part i).1 f.1
        have hl : remaining p i w (min f.2 (grid (p.part i).1 f.1))
            (out ++ [(f.1, min f.2 (grid (p.part i).1 f.1))]) <
            remaining p i w st out := remaining_take _ hb (by omega)
        exact .take hb hg hs (by omega) (ih _ _ _ (by omega))

theorem claimGaps_claiming (cs : List (Claim O)) (out : List Range) :
    Claiming p o i w e now (p.part i).1 (cs, out) (p.claimGaps o i w e now cs out) := by
  apply claimLoop_claiming
  have hl : p.received.ranges.countP (fun r => (p.part i).1 < r.1) ≤
      p.received.ranges.length := countP_le_length
  simp only [remaining]
  split <;> omega

end

/-- A block that `owner` may claim in a part, besides the claims there are. -/
structure Fresh (parts : Parts) (owner : O) (endgame : Bool) (now : Int)
    (claims : List (Claim O)) (index : Nat) (block : Range) : Prop where
  nonempty : block.1 < block.2
  begins : (parts.part index).1 ≤ block.1
  ends : block.2 ≤ (parts.part index).2
  cell : block.2 ≤ grid (parts.part index).1 block.1
  missing : ∀ offset, block.1 ≤ offset → offset < block.2 → offset ∉ parts.received
  clear : ∀ claim ∈ claims, blocks owner endgame now claim = true →
    claim.stop ≤ block.1 ∨ block.2 ≤ claim.begin

/-- Fresh blocks of the parts in `among`, claimed one after the other. -/
inductive Grown (parts : Parts) (owner : O) (endgame : Bool) (now : Int)
    (among : Nat → Prop) (state : List (Claim O) × List Range) :
    List (Claim O) × List Range → Prop
  | refl : Grown parts owner endgame now among state state
  | take {claims : List (Claim O)} {out : List Range} {index : Nat} {block : Range}
      (hgrown : Grown parts owner endgame now among state (claims, out))
      (hindex : among index)
      (hfresh : Fresh parts owner endgame now claims index block) :
      Grown parts owner endgame now among state
        (emplace ⟨block.1, block.2, owner, now⟩ claims, out ++ [block])

section

variable {p : Parts} {o : O} {e : Bool} {now : Int}

variable {am : Nat → Prop} {first second rs : List (Claim O) × List Range}
  {cl : List (Claim O)}

theorem Grown.trans {t : List (Claim O) × List Range} (hf : Grown p o e now am first second)
    (hs : Grown p o e now am second t) : Grown p o e now am first t := by
  induction hs with
  | refl => exact hf
  | take hg hi hfr ih => exact .take ih hi hfr

omit [DecidableEq O] in
theorem Stretching.within {b : Claim O → Bool} {r f : Range} (hst : Stretching b cl r f) :
    r.1 ≤ f.1 ∧ f.2 ≤ r.2 := by
  induction hst with
  | empty he => exact ⟨le_refl _, le_refl _⟩
  | @stay r f hl hs =>
    have hw := sweep_within b cl r.1 r.2
    rw [hs] at hw
    exact hw
  | @move r n f hl hs hr ih =>
    have hw := sweep_within b cl r.1 r.2
    rw [hs] at hw
    exact ⟨hw.1.trans ih.1, ih.2.trans hw.2⟩

/-- The loop claims fresh blocks of its part. -/
theorem Claiming.grown {ps : Parts} {owner : O} {i w : Nat} {e : Bool} {now st : Int}
    {s : List (Claim O) × List Range} (hc : Claiming ps owner i w e now st s rs)
    (hs : (ps.part i).1 ≤ st) : Grown ps owner e now (· = i) s rs := by
  induction hc with
  | enough | noGap => exact .refl
  | skip hw hg hfr hem hre ih =>
    have hf := RangeSet.firstGap_some hg
    have hlo := hf.start_le
    have hn := hf.nonempty
    exact ih (by omega)
  | @take st cs out gap f rs hw hg hfr hlt hre ih =>
    have hf := RangeSet.firstGap_some hg
    have hlo := hf.start_le
    have hh := hf.le_limit
    obtain ⟨hbe, hen⟩ := hfr.within
    have hgr := lt_grid (ps.part i).1 f.1
    have hfre : Fresh ps owner e now cs i (f.1, min f.2 (grid (ps.part i).1 f.1)) := by
      refine ⟨?_, ?_, ?_, ?_, ?_, ?_⟩
      · omega
      · omega
      · omega
      · exact min_le_right _ _
      · intro x hfro ht
        apply hf.missing x
        · omega
        · omega
      · intro c hcl hb
        rcases hfr.clear hlt c hcl hb with hl | hr
        · exact .inl hl
        · exact .inr ((min_le_left _ _).trans hr)
    have ho : Grown ps owner e now (· = i) (cs, out)
        (emplace ⟨f.1, min f.2 (grid (ps.part i).1 f.1), owner, now⟩ cs,
          out ++ [(f.1, min f.2 (grid (ps.part i).1 f.1))]) :=
      @Grown.take _ _ ps owner e now (· = i) (cs, out) cs out i _ Grown.refl rfl hfre
    exact ho.trans (ih (by omega))

theorem Grown.mono {a : Nat → Prop} (hg : Grown p o e now am first second) (ha : ∀ i, am i → a i) :
    Grown p o e now a first second := by
  induction hg with
  | refl => exact .refl
  | take hg hi hf ih =>
    exact .take ih (ha _ hi) hf

theorem foldl_claimGaps_grown (ps : Parts) (o : O) (w : Nat) (e : Bool) (now : Int)
    (order : List Nat) (s : List (Claim O) × List Range) :
    Grown ps o e now (· ∈ order) s (order.foldl (fun (cs, out) i =>
        if out.length ≥ w then (cs, out)
        else ps.claimGaps o i w e now cs out)
        s) := by
  induction order generalizing s with
  | nil => exact .refl
  | cons i order ih =>
    obtain ⟨cs, out⟩ := s
    rw [foldl_cons]
    dsimp only
    have hr : ∀ s, Grown ps o e now (· ∈ i :: order) s _ := fun s =>
      (ih s).mono fun _ ho => mem_cons_of_mem i ho
    split
    · exact hr _
    · have hg := (claimGaps_claiming ps o i w e now cs out).grown (le_refl _)
      apply Grown.trans _ (hr _)
      apply hg.mono
      intro j hs
      rw [hs]
      exact mem_cons_self

theorem claimPass_grown (ps : Parts) (o : O) (w : Nat) (e : Bool) (now : Int) (order : List Nat)
    (cs : List (Claim O)) :
    Grown ps o e now (· ∈ order) (cs, []) (ps.claimPass o w e now order cs) :=
  foldl_claimGaps_grown ps o w e now order (cs, [])

/-- A pass without a block leaves the claims. -/
theorem Grown.claims_of_nil (hg : Grown p o e now am (cl, []) rs) (hn : rs.2 = []) : rs.1 = cl := by
  cases hg with
  | refl => rfl
  | take hg hi hf => simp at hn

end

/-- A request is one of the two passes. -/
theorem claim_grown (ps : Parts) (cs : List (Claim O)) (o : O) (a : List Bool) (w : Nat)
    (ask : Ask) :
    ∃ e, Grown ps o e ask.now (· ∈ ps.candidates cs o a ask) (cs, []) (ps.claim cs o a w ask) := by
  have hn := claimPass_grown ps o w false ask.now (ps.candidates cs o a ask) cs
  unfold claim
  dsimp only
  split
  · rename_i hno
    have hs := hn.claims_of_nil (isEmpty_iff.mp hno)
    rw [hs]
    exact ⟨true, claimPass_grown ps o w true ask.now _ cs⟩
  · exact ⟨false, hn⟩

omit [DecidableEq O] in
theorem emplace_perm (c : Claim O) (cs : List (Claim O)) : (emplace c cs).Perm (c :: cs) := by
  induction cs with
  | nil => exact List.Perm.refl _
  | cons head t ih =>
    simp only [emplace]
    split
    · exact List.Perm.refl _
    · exact (ih.cons head).trans (List.Perm.swap c head t)

end Parts

/-- Two claims that overlap are of different owners and apart in time. -/
def Claim.Apart (left right : Claim O) : Prop :=
  left.begin < right.stop → right.begin < left.stop →
    left.owner ≠ right.owner ∧ (duplicateAfter ≤ left.since - right.since ∨
      duplicateAfter ≤ right.since - left.since)

theorem Claim.Apart.symm {left right : Claim O} (ha : left.Apart right) : right.Apart left := by
  intro hl hr
  obtain ⟨ho, hs⟩ := ha hr hl
  exact ⟨ho.symm, hs.symm⟩

/-- A claim is not empty and lies inside one cell of the grid of one part. -/
def Claim.Celled (parts : Parts) (claim : Claim O) : Prop :=
  claim.begin < claim.stop ∧ ∃ index < parts.count, ∃ cell : Int,
    (parts.part index).1 + cell * blockLength ≤ claim.begin ∧
    claim.stop ≤ (parts.part index).1 + (cell + 1) * blockLength ∧
    (parts.part index).1 ≤ claim.begin ∧ claim.stop ≤ (parts.part index).2

namespace Parts

variable [DecidableEq O]

section Grown

variable {p : Parts} {o : O} {e : Bool} {now : Int}
variable {cl : List (Claim O)} {i : Nat} {b : Range}

theorem Fresh.apart (hf : Fresh p o e now cl i b) : ∀ c ∈ cl, Claim.Apart ⟨b.1, b.2, o, now⟩ c := by
  intro c hcl hl hr
  have hc : blocks o e now c = false := by
    by_contra hb
    have ha := hf.clear c hcl (by simpa using hb)
    dsimp only at hl hr
    omega
  simp only [blocks, Bool.or_eq_false_iff, decide_eq_false_iff_not, not_lt] at hc
  exact ⟨fun hs => hc.1.1 hs.symm, .inl hc.2⟩

theorem Fresh.celled (hi : i < p.count) (hf : Fresh p o e now cl i b) :
    Claim.Celled p ⟨b.1, b.2, o, now⟩ := by
  refine ⟨hf.nonempty, i, hi, (b.1 - (p.part i).1) / blockLength, ?_, hf.cell, hf.begins, hf.ends⟩
  dsimp only [blockLength]
  omega

/-- What holds of the claims holds after a request. -/
theorem Grown.kept {am : Nat → Prop} {s r : List (Claim O) × List Range}
    (hg : Grown p o e now am s r) (ha : ∀ i, am i → i < p.count) (hap : s.1.Pairwise Claim.Apart)
    (hc : ∀ c ∈ s.1, c.Celled p) : r.1.Pairwise Claim.Apart ∧ ∀ c ∈ r.1, c.Celled p := by
  induction hg with
  | refl => exact ⟨hap, hc⟩
  | @take cl out i b hg hi hf ih =>
    obtain ⟨hp, hce⟩ := ih
    constructor
    · rw [(emplace_perm _ cl).pairwise_iff fun h => h.symm]
      exact pairwise_cons.mpr ⟨hf.apart, hp⟩
    · intro c hcl
      rcases mem_emplace.mp hcl with hs | hold
      · rw [hs]
        exact hf.celled (ha i hi)
      · exact hce c hold

end Grown

section Results

variable {p : Parts} {o : O} {e : Bool} {now : Int}
variable {am : Nat → Prop} {s rs : List (Claim O) × List Range}

/-- The claims of a request are those before and its blocks, which lie in
missing bytes and clear of the claims that block. -/
theorem Grown.blocks (hg : Grown p o e now am s rs) :
    (∀ b ∈ rs.2, b ∈ s.2 ∨ (∀ x, b.1 ≤ x → x < b.2 → x ∉ p.received) ∧
      ∀ c ∈ s.1, Parts.blocks o e now c = true → c.stop ≤ b.1 ∨ b.2 ≤ c.begin) ∧ s.1 ⊆ rs.1 := by
  induction hg with
  | refl => exact ⟨fun _ hbl => .inl hbl, List.Subset.refl _⟩
  | @take cl out i b hg hi hf ih =>
    obtain ⟨hb, hs⟩ := ih
    constructor
    · intro j ho
      rcases mem_append.mp ho with hold | hn
      · exact hb j hold
      · rw [mem_singleton] at hn
        subst hn
        exact .inr ⟨hf.missing, fun c hc =>
          hf.clear c (hs hc)⟩
    · intro c hc
      exact mem_emplace.mpr (.inr (hs hc))

/-- The blocks of a request and its new claims are the same. -/
theorem Grown.perm (hg : Grown p o e now am s rs) :
    ∃ bl, rs.2 = s.2 ++ bl ∧ rs.1.Perm (s.1 ++ bl.map fun b =>
        ⟨b.1, b.2, o, now⟩) := by
  induction hg with
  | refl => exact ⟨[], by simp, by simp⟩
  | @take cs out i b hg hi hf ih =>
    obtain ⟨bl, ho, hp⟩ := ih
    dsimp only at ho hp ⊢
    refine ⟨bl ++ [b], by rw [ho, append_assoc], ?_⟩
    rw [map_append, ← append_assoc]
    apply (emplace_perm _ cs).trans
    apply ((hp.cons _).trans)
    exact (perm_append_singleton _ _).symm

variable {i w : Nat} {st : Int}

/-- With nobody in the way a part that is not filled gives a block. -/
theorem Claiming.ne_nil (hc : Claiming p o i w e now st s rs) (hw : s.2.length < w)
    (hfr : ∀ c ∈ s.1, Parts.blocks o e now c = false)
    (hg : p.received.firstGap st (p.part i).2 ≠ none) (hst : (p.part i).1 ≤ st) : rs.2 ≠ [] := by
  cases hc with
  | enough hen => omega
  | noGap _ hn => exact absurd hn hg
  | skip _ hf hs he _ =>
    have hno := (RangeSet.firstGap_some hf).nonempty
    rw [hs.of_free hfr] at he
    omega
  | @take _ cs out gap f _ _ hf hs hlt hr =>
    have hl := (RangeSet.firstGap_some hf).start_le
    have hb := hs.within.1
    have hgr := lt_grid (p.part i).1 f.1
    obtain ⟨b, ho, -⟩ := (hr.grown (by omega)).perm
    rw [ho]
    simp

/-- No more blocks than wanted. -/
theorem Claiming.length_le (hc : Claiming p o i w e now st s rs) (hs : s.2.length ≤ w) :
    rs.2.length ≤ w := by
  induction hc with
  | enough | noGap => exact hs
  | skip _ _ _ _ _ ih => exact ih hs
  | take hw _ _ _ _ ih =>
    apply ih
    rw [length_append]
    exact hw

end Results

theorem claimPass_length_le (ps : Parts) (o : O) (w : Nat) (e : Bool) (now : Int)
    (order : List Nat) (cs : List (Claim O)) : (ps.claimPass o w e now order cs).2.length ≤ w := by
  rw [claimPass]
  have hs : (cs, ([] : List Range)).2.length ≤ w := Nat.zero_le w
  generalize (cs, ([] : List Range)) = s at hs
  induction order generalizing s with
  | nil => exact hs
  | cons i order ih =>
    obtain ⟨cs, out⟩ := s
    apply ih
    dsimp only
    split
    · exact hs
    · exact (claimGaps_claiming ps o i w e now cs out).length_le hs

theorem claim_length_le (ps : Parts) (cs : List (Claim O)) (o : O) (a : List Bool) (w : Nat)
    (ask : Ask) : (ps.claim cs o a w ask).2.length ≤ w := by
  unfold claim
  dsimp only
  split <;> exact claimPass_length_le ps o w _ _ _ _

variable {p : Parts} {i w : Nat} {claims cl : List (Claim O)} {o : O}
  {a : List Bool} {ask : Ask}

omit [DecidableEq O] in
theorem firstGap_ne_none (ho : p.filled i = false) :
    p.received.firstGap (p.part i).1 (p.part i).2 ≠ none := by
  intro hn
  rw [RangeSet.firstGap_none_iff] at hn
  have hf : p.filled i = true := by
    rw [filled_iff]
    intro x hi
    exact hn x hi.1 hi.2
  rw [ho] at hf
  cases hf

theorem mem_candidates : i ∈ p.candidates cl o a ask ↔ i < p.count ∧ p.isVerified i = false ∧
        p.filled i = false ∧ offers a i = true := by
  simp only [candidates, mem_insertionSort, mem_filter,
    mem_range, Bool.and_eq_true, Bool.not_eq_true']
  constructor
  · rintro ⟨hi, ⟨hv, hf⟩, ho⟩
    exact ⟨hi, hv, hf, ho⟩
  · rintro ⟨hi, hv, hf, ho⟩
    exact ⟨hi, ⟨hv, hf⟩, ho⟩

/-- The endgame gives the owner a block of the first candidate, when the claims
of the others are old enough and the owner has none. -/
theorem claimPass_ne_nil {now : Int} {order : List Nat} (hw : 1 ≤ w) (ho : p.filled i = false)
    (hf : ∀ c ∈ cl, blocks o true now c = false) :
    (p.claimPass o w true now (i :: order) cl).2 ≠ [] := by
  have hc := claimGaps_claiming p o i w true now cl []
  have hs : (p.claimGaps o i w true now cl []).2 ≠ [] :=
    hc.ne_nil hw hf (firstGap_ne_none ho) (le_refl _)
  have hg := foldl_claimGaps_grown p o w true now order (p.claimGaps o i w true now cl [])
  obtain ⟨r, hou, -⟩ := hg.perm
  have hp : p.claimPass o w true now (i :: order) cl = order.foldl (fun (cl, out) i =>
        if out.length ≥ w then (cl, out)
        else p.claimGaps o i w true now cl out)
        (p.claimGaps o i w true now cl []) := by
    rw [claimPass, foldl_cons]
    dsimp only
    rw [length_nil, if_neg (by omega)]
  rw [hp, hou]
  intro hn
  exact hs (append_eq_nil_iff.mp hn).1

/-- A client without claims goes away empty-handed only if there is nothing it
could send, once the claims of the others are old enough. -/
theorem claim_eq_nil_iff (hw : 1 ≤ w)
    (hold : ∀ claim ∈ cl, claim.owner ≠ o ∧ duplicateAfter ≤ ask.now - claim.since) :
    (p.claim cl o a w ask).2 = [] ↔ ∀ i < p.count, offers a i = true →
        p.filled i = true ∨ p.isVerified i = true := by
  have hfr : ∀ claim ∈ cl, blocks o true ask.now claim = false := by
    intro claim hc
    obtain ⟨hown, hsi⟩ := hold claim hc
    simp only [blocks, hown, decide_false, Bool.not_true, Bool.or_false,
      Bool.false_or, decide_eq_false_iff_not, not_lt]
    exact hsi
  constructor
  · intro hn i hi ho
    by_contra hop
    simp only [not_or, Bool.not_eq_true] at hop
    have hm : i ∈ p.candidates cl o a ask := mem_candidates.mpr ⟨hi, hop.2, hop.1, ho⟩
    obtain ⟨first, order, hor⟩ := exists_cons_of_ne_nil (ne_nil_of_mem hm)
    have hfir := (mem_candidates.mp (hor ▸ mem_cons_self : first ∈ p.candidates cl o a ask)).2.2.1
    have hp : (p.claimPass o w true ask.now (first :: order) cl).2 ≠ [] :=
      claimPass_ne_nil hw hfir hfr
    rw [← hor] at hp
    have hnor := claimPass_grown p o w false ask.now (p.candidates cl o a ask) cl
    unfold claim at hn
    dsimp only at hn
    split at hn
    · rename_i hno
      rw [hnor.claims_of_nil (isEmpty_iff.mp hno)] at hn
      exact hp hn
    · rename_i hs
      rw [hn] at hs
      exact hs rfl
  · intro hnot
    have hno : p.candidates cl o a ask = [] := by
      apply eq_nil_iff_forall_not_mem.mpr
      intro i hi
      obtain ⟨hco, hv, hfi, ho⟩ := mem_candidates.mp hi
      rcases hnot i hco ho with hf | hdo
      · rw [hfi] at hf
        cases hf
      · rw [hv] at hdo
        cases hdo
    unfold claim
    rw [hno]
    rfl

end Parts

/-- The parts of a file with the claims on their blocks. -/
structure Board (O : Type u) where
  parts : Parts
  claims : List (Claim O) := []

namespace Board

variable [DecidableEq O]

inductive Input (O : Type u) where
  | add (begin stop : Int)
  | verify (index : Nat)
  | reject (index : Nat)
  | claim (owner : O) (available : List Bool) (wanted : Nat) (ask : Parts.Ask)
  | release (owner : O) (block : Range)
  | releaseAll (owner : O)

def step (board : Board O) : Input O → Board O
  | .add begin stop =>
    { board with parts := (board.parts.add begin stop).2 }
  | .verify index => { board with parts := board.parts.verify index }
  | .reject index => { board with parts := board.parts.reject index }
  | .claim owner available wanted ask =>
    { board with
      claims := (board.parts.claim board.claims owner available wanted
        ask).1 }
  | .release owner block =>
    { board with claims := Parts.release board.claims owner block }
  | .releaseAll owner =>
    { board with claims := Parts.releaseAll board.claims owner }

/-- What holds of the claims in every reachable state. -/
structure Sound (size : Int) (board : Board O) : Prop where
  shaped : board.parts.Shaped size
  apart : board.claims.Pairwise Claim.Apart
  celled : ∀ claim ∈ board.claims, claim.Celled board.parts
  verified : ∀ index, board.parts.isVerified index = true → board.parts.filled index = true

section

variable {size sz : Int} {br : Board O}

omit [DecidableEq O] in
theorem Sound.claims (hs : Sound sz br) {claims : List (Claim O)} (hk : claims.Sublist br.claims) :
    Sound sz { br with claims } where
  shaped := hs.shaped
  apart := hs.apart.sublist hk
  celled := fun c hc => hs.celled c (hk.subset hc)
  verified := hs.verified

omit [DecidableEq O] in
/-- The parts change, but neither their number nor the size of the file. -/
theorem Sound.parts (hs : Sound sz br) {parts : Parts} (hsi : parts.size = br.parts.size)
    (hc : parts.count = br.parts.count)
    (hv : ∀ index, parts.isVerified index = true → parts.filled index = true) :
    Sound sz { br with parts } where
  shaped := hs.shaped.of_eq hsi hc
  apart := hs.apart
  celled := by
    intro c hcl
    obtain ⟨hl, index, hi, cell, hce⟩ := hs.celled c hcl
    refine ⟨hl, index, ?_, cell, ?_⟩
    · dsimp only
      rw [hc]
      exact hi
    · simp only [Parts.part, hsi] at hce ⊢
      exact hce
  verified := hv

theorem add_sound (hs : Sound sz br) (bg sp : Int) : Sound sz (br.step (.add bg sp)) := by
  refine hs.parts (Parts.add_size _ _ _) (Parts.add_count _ _ _) ?_
  intro i hv
  rw [Parts.add_isVerified] at hv
  have hf := Parts.filled_iff.mp (hs.verified i hv)
  rw [Parts.filled_iff]
  intro x hi
  rw [Parts.mem_addBytes]
  exact .inl (hf x (Parts.add_in.mp hi))

theorem verify_sound (hs : Sound sz br) (i : Nat) : Sound sz (br.step (.verify i)) := by
  refine hs.parts (Parts.verify_size _ _) (Parts.verify_count _ _) ?_
  intro j hv
  rw [Parts.filled_iff]
  intro x hi
  have hc : j < br.parts.count := hs.shaped.lt_count (show br.parts.In j x from hi)
  rw [Parts.verify_isVerified hc, Bool.or_eq_true, beq_iff_eq] at hv
  rw [Parts.mem_verify]
  rcases hv with hsa | hb
  · right
    rw [hsa]
    exact hi
  · exact .inl (Parts.filled_iff.mp (hs.verified j hb) x hi)

theorem reject_sound (hso : Sound sz br) (i : Nat) : Sound sz (br.step (.reject i)) := by
  refine hso.parts (Parts.reject_size _ _) (Parts.reject_count _ _) ?_
  intro j hv
  have hk : i ≠ j ∧ br.parts.isVerified j = true := by
    simp only [Parts.isVerified, Parts.reject, getD_eq_getElem?_getD, List.getElem?_set] at hv ⊢
    by_cases hs : i = j
    · rw [if_pos hs] at hv
      split at hv <;> simp at hv
    · rw [if_neg hs] at hv
      exact ⟨hs, hv⟩
  rw [Parts.filled_iff]
  intro x hi
  rw [Parts.mem_reject]
  refine ⟨Parts.filled_iff.mp (hso.verified j hk.2) x hi, ?_⟩
  intro hr
  exact hk.1 (hr.unique hi)

theorem claim_sound (hs : Sound sz br) (o : O) (a : List Bool) (w : Nat) (ask : Parts.Ask) :
    Sound sz (br.step (.claim o a w ask)) := by
  obtain ⟨e, hg⟩ := Parts.claim_grown br.parts br.claims o a w ask
  obtain ⟨ha, hc⟩ := hg.kept (fun i hi => (Parts.mem_candidates.mp hi).1) hs.apart hs.celled
  exact ⟨hs.shaped, ha, hc, hs.verified⟩

theorem step_sound (hs : Sound sz br) (input : Input O) : Sound sz (br.step input) := by
  cases input with
  | add bg sp => exact add_sound hs bg sp
  | verify i => exact verify_sound hs i
  | reject i => exact reject_sound hs i
  | claim o a w ask =>
    exact claim_sound hs o a w ask
  | release o b => exact hs.claims eraseP_sublist
  | releaseAll o => exact hs.claims filter_sublist

end

omit [DecidableEq O] in
theorem ofSize_sound (sz : Int) : Sound sz ({ parts := .ofSize sz } : Board O) where
  shaped := Parts.ofSize_shaped sz
  apart := List.Pairwise.nil
  celled := by simp
  verified := by
    intro i hv
    simp [Parts.isVerified, Parts.ofSize, getD_eq_getElem?_getD, List.getElem?_replicate] at hv
    split at hv <;> simp at hv

/-- A request in any state: its claims are those before and its blocks, each
block lies in missing bytes; a block of the normal pass overlaps no claim; a
client without claims gets none only if it has nothing that is missing, once
the claims of the others are old. -/
structure Answers (board : Board O) (owner : O) (available : List Bool)
    (wanted : Nat) (ask : Parts.Ask) : Prop where
  claims : (board.parts.claim board.claims owner available wanted ask).1.Perm
    (board.claims ++ (board.parts.claim board.claims owner available wanted
      ask).2.map fun block => ⟨block.1, block.2, owner, ask.now⟩)
  missing : ∀ block ∈ (board.parts.claim board.claims owner available wanted
      ask).2, ∀ offset, block.1 ≤ offset → offset < block.2 →
    offset ∉ board.parts.received
  normal : ∀ block ∈ (board.parts.claimPass owner wanted false ask.now
      (board.parts.candidates board.claims owner available ask)
      board.claims).2, ∀ claim ∈ board.claims,
    claim.stop ≤ block.1 ∨ block.2 ≤ claim.begin
  empty : 1 ≤ wanted → (∀ claim ∈ board.claims, claim.owner ≠ owner ∧
      duplicateAfter ≤ ask.now - claim.since) →
    ((board.parts.claim board.claims owner available wanted ask).2 = [] ↔
      ∀ index < board.parts.count, Parts.offers available index = true →
        board.parts.filled index = true ∨ board.parts.isVerified index = true)

theorem answers (bo : Board O) (o : O) (a : List Bool) (w : Nat) (ask : Parts.Ask) :
    Answers bo o a w ask := by
  obtain ⟨e, hg⟩ := Parts.claim_grown bo.parts bo.claims o a w ask
  refine ⟨?_, ?_, ?_, Parts.claim_eq_nil_iff⟩
  · obtain ⟨bl, ho, hp⟩ := hg.perm
    rw [ho]
    exact hp
  · intro b hb
    rcases hg.blocks.1 b hb with hold | ⟨hm, -⟩
    · exact absurd hold not_mem_nil
    · exact hm
  · intro b hb c hc
    have hn := Parts.claimPass_grown bo.parts o w false
      ask.now (bo.parts.candidates bo.claims o a ask) bo.claims
    rcases hn.blocks.1 b hb with hold | ⟨-, hcl⟩
    · exact absurd hold not_mem_nil
    · exact hcl c hc (by simp [Parts.blocks])

/-- In every state that calls lead to: claims that overlap have different
owners and are five seconds apart; every claim is not empty and lies in one
part and one cell of its grid; every verified part is received; a request
answers as `Answers` says, from whatever is claimed when it is made; and the
loop of `claimGaps`, with the loop inside it, ends. -/
theorem run_claims_stay_apart (size : Int) (inputs : List (Input O)) :
    let board := Runs.run step ({ parts := Parts.ofSize size } : Board O) inputs
    board.claims.Pairwise (fun left right =>
      left.begin < right.stop → right.begin < left.stop →
        left.owner ≠ right.owner ∧ (duplicateAfter ≤ left.since - right.since ∨
            duplicateAfter ≤ right.since - left.since)) ∧
    (∀ claim ∈ board.claims, claim.begin < claim.stop ∧ ∃ index < board.parts.count, ∃ cell : Int,
        (board.parts.part index).1 + cell * blockLength ≤ claim.begin ∧
        claim.stop ≤ (board.parts.part index).1 + (cell + 1) * blockLength ∧
        (board.parts.part index).1 ≤ claim.begin ∧ claim.stop ≤ (board.parts.part index).2) ∧
    (∀ index, board.parts.isVerified index = true → ∀ offset, (board.parts.part index).1 ≤ offset →
        offset < (board.parts.part index).2 → offset ∈ board.parts.received) ∧
    (∀ owner available wanted ask, Answers board owner available wanted ask) ∧
    ∀ (owner : O) index wanted endgame now claims out,
      Parts.Claiming board.parts owner index wanted endgame now
        (board.parts.part index).1 (claims, out)
        (board.parts.claimGaps owner index wanted endgame now claims out) := by
  intro board
  have hstep : ∀ (before : Board O) (input : Input O), Sound size before →
      Sound size (before.step input) := fun _ input hsound => step_sound hsound input
  have hsound : Sound size board := Runs.run_preserves hstep inputs (ofSize_sound size)
  refine ⟨hsound.apart, hsound.celled, ?_, fun owner available wanted ask =>
    answers board owner available wanted ask, ?_⟩
  · intro index hverified offset hfrom hto
    exact Parts.filled_iff.mp (hsound.verified index hverified) offset ⟨hfrom, hto⟩
  · intro owner index wanted endgame now claims out
    exact Parts.claimGaps_claiming board.parts owner index wanted endgame now claims out

end Board

end Aria2Next
