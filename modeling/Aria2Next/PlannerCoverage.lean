/-
The planner loses no byte: once the length is known, a byte that is neither
received nor assigned makes the next `assign` hand out a free range, and a
planner without unfinished workers has nothing to hand out exactly when the
download is complete.
-/
import Aria2Next.SegmentPlanner

namespace Aria2Next.SegmentPlanner

open Runs

universe u

variable {F : Type u} [Double F]

/-- A byte that is received or inside the assignment of a worker. -/
def Covers (planner : SegmentPlanner F) (offset : Int) : Prop := offset ∈ planner.received ∨
    ∃ entry ∈ planner.workers.entries, entry.2.position ≤ offset ∧ offset < entry.2.stop

/-- A non-empty range inside the file of which no byte is covered. -/
structure FreeRange (planner : SegmentPlanner F) (range : Range) : Prop where
  nonempty : range.1 < range.2
  nonneg : 0 ≤ range.1
  le_length : range.2 ≤ planner.length
  free : ∀ offset, range.1 ≤ offset → offset < range.2 → ¬ planner.Covers offset

theorem mem_owned_iff_covers (p : SegmentPlanner F) {x : Int} (hl : x < p.length) :
    x ∈ p.owned ↔ p.Covers x := by
  rw [owned, RangeSet.mem_foldl_add (fun e : Int × Worker F =>
    e.2.position) (fun e => min e.2.stop p.length), Covers]
  simp only [lt_min_iff, hl, and_true]

variable {o : RangeSet} {l : Int}

/-- A gap the loop returns is the one it began with or a missing range. -/
theorem widestGap_missing (r : Nat) (s : Int) (b : Option Range) {gap : Range}
    (hg : widestGap o l r s b = some gap) :
    b = some gap ∨ (s ≤ gap.1 ∧ gap.1 < gap.2 ∧ gap.2 ≤ l ∧
      ∀ x, gap.1 ≤ x → x < gap.2 → x ∉ o) := by
  induction r generalizing s b with
  | zero => exact .inl hg
  | succ r ih =>
    rw [widestGap] at hg
    cases hf : o.firstGap s l with
    | none =>
      rw [hf] at hg
      exact .inl hg
    | some first =>
      have hs := RangeSet.firstGap_some hf
      simp only [hf] at hg
      rcases ih first.2 _ hg with hb | ⟨hst, hr⟩
      · split_ifs at hb
        · cases hb
          exact .inr ⟨hs.start_le, hs.nonempty, hs.le_limit, hs.missing⟩
        · exact .inl hb
      · exact .inr ⟨(hs.start_le.trans hs.nonempty.le).trans hst, hr⟩

theorem widestGap_isSome (o : RangeSet) (l : Int) (r : Nat) (s : Int) (b : Range) :
    (widestGap o l r s (some b)).isSome := by
  induction r generalizing s b with
  | zero => rfl
  | succ r ih =>
    rw [widestGap]
    cases o.firstGap s l with
    | none => rfl
    | some gap =>
      dsimp only
      split_ifs
      · exact ih gap.2 gap
      · exact ih gap.2 b

/-- The loop finds nothing only if nothing is missing. -/
theorem widestGap_eq_none {s : Int} {r : Nat} (hr : 0 < r) (hn : widestGap o l r s none = none) :
    ∀ x, s ≤ x → x < l → x ∈ o := by
  cases r with
  | zero => contradiction
  | succ r =>
    rw [widestGap] at hn
    cases hf : o.firstGap s l with
    | none => exact RangeSet.firstGap_none_iff.mp hf
    | some gap =>
      simp only [hf, ↓reduceIte] at hn
      have hs := widestGap_isSome o l r gap.2 gap
      rw [hn] at hs
      contradiction

section

variable {p : SegmentPlanner F}

variable {gap : Range} {ty : F} {t : Worker F}

theorem largestGap_free (hg : p.largestGap = some gap) : p.FreeRange gap := by
  rw [largestGap] at hg
  split_ifs at hg
  rcases widestGap_missing _ _ _ hg with hb | ⟨hs, hn, hl, hm⟩
  · contradiction
  · refine ⟨hn, hs, hl, fun offset hlo hh hc => ?_⟩
    exact hm offset hlo hh ((p.mem_owned_iff_covers (hh.trans_le hl)).mpr hc)

theorem largestGap_eq_none (hl : 0 ≤ p.length) (hn : p.largestGap = none) {x : Int} (hlo : 0 ≤ x)
    (hh : x < p.length) : p.Covers x := by
  rw [largestGap, if_neg (not_lt.mpr hl)] at hn
  rw [← p.mem_owned_iff_covers hh]
  exact widestGap_eq_none (Int.pos_iff_toNat_pos.mp (hlo.trans_lt hh)) hn x hlo hh

/-- A gap is what `assign` hands out first. -/
theorem assign_of_gap (hl : 0 ≤ p.length) (hg : p.largestGap = some gap) (id : Int) :
    (p.assign id).1 = some gap := by
  simp [assign, not_lt.mpr hl, hg]

theorem clampInt_bounds (v : Int) {low high : Int} (hl : low ≤ high) :
    low ≤ clampInt v low high ∧ clampInt v low high ≤ high := by
  rw [clampInt]
  split_ifs with hlo hh
  · exact ⟨le_rfl, hl⟩
  · exact ⟨hl, le_rfl⟩
  · exact ⟨not_lt.mp hlo, not_lt.mp hh⟩

theorem minSplitFor_pos (hm : 1 ≤ p.minSplit) (s : F) : 1 ≤ p.minSplitFor s := by
  rw [minSplitFor]
  split_ifs
  · exact hm
  · have hf : (1 : Int) ≤ minSplitFloor := by decide
    exact (le_min hf hm).trans (clampInt_bounds _ (min_le_right minSplitFloor p.minSplit)).1

/-- Finished workers leave nothing to split. -/
theorem split_eq_none (hm : 1 ≤ p.minSplit)
    (hi : ∀ e ∈ p.workers.entries, e.2.stop ≤ e.2.position) (id : Int) : p.split id = none := by
  have hn : p.workers.entries.foldl (p.laterVictim (p.typicalSpeed (-1))) none = none := by
    apply List.foldlRecOn (motive := fun v : Option (Int × Worker F) => v = none)
    · rfl
    · intro v hv e he
      have hs := hi e he
      have hl := p.minSplitFor_pos hm (expectedSpeed e.2 (p.typicalSpeed (-1)))
      have hno : p.splittable (p.typicalSpeed (-1)) e.2 = false := by
        rw [splittable, Bool.and_eq_false_iff]
        refine .inr (decide_eq_false ?_)
        omega
      simp [laterVictim, hno, hv]
  simp [split, hn]

/-- Finished workers leave nothing to race. -/
theorem race_eq_none (hi : ∀ e ∈ p.workers.entries, e.2.stop ≤ e.2.position) (id : Int) :
    p.race id = none := by
  have hn : p.workers.entries.foldl p.joinGroup ∅ = ∅ := by
    apply List.foldlRecOn (motive := fun g : OrdMap Int (Group F) => g = ∅)
    · rfl
    · intro g hg e he
      have hdo : e.2.stop - e.2.position ≤ 0 := Int.sub_nonpos_of_le (hi e he)
      simp [joinGroup, hdo, hg]
  simp [race, hn]

theorem complete_iff (hl : 0 ≤ p.length) :
    p.complete = true ↔ ∀ x, 0 ≤ x → x < p.length → x ∈ p.received := by
  simp [complete, hl, RangeSet.contains_iff]

theorem assign_eq_none_iff_complete (hm : 1 ≤ p.minSplit) (hl : 0 ≤ p.length)
    (hi : ∀ e ∈ p.workers.entries, e.2.stop ≤ e.2.position) (id : Int) :
    (p.assign id).1 = none ↔ p.complete = true := by
  have hc : ∀ x, p.Covers x ↔ x ∈ p.received := by
    intro x
    refine ⟨fun hc => ?_, .inl⟩
    rcases hc with hin | ⟨e, he, hlo, hh⟩
    · exact hin
    · exact absurd (hlo.trans_lt hh) (not_lt.mpr (hi e he))
  rw [complete_iff hl]
  cases hg : p.largestGap with
  | none =>
    have hn : (p.assign id).1 = none := by
      simp [assign, not_lt.mpr hl, hg, split_eq_none hm hi, race_eq_none hi]
    refine ⟨fun _ x hlo hh => ?_, fun _ => hn⟩
    exact (hc x).mp (largestGap_eq_none hl hg hlo hh)
  | some gap =>
    have hf := largestGap_free hg
    rw [assign_of_gap hl hg]
    refine ⟨fun h => by contradiction, fun ha => ?_⟩
    have hin := ha gap.1 hf.nonneg (hf.nonempty.trans_le hf.le_length)
    exact absurd (.inl hin) (hf.free gap.1 le_rfl hf.nonempty)

/-- The victim of a split is a registered worker whose range is long
enough. -/
theorem laterVictim_foldl {v : Int × Worker F}
    (hv : p.workers.entries.foldl (p.laterVictim ty) none = some v) :
    v ∈ p.workers.entries ∧ p.splittable ty v.2 = true := by
  have hfo : ∀ g, p.workers.entries.foldl
      (p.laterVictim ty) none = some g → g ∈ p.workers.entries ∧
          p.splittable ty g.2 = true := by
    apply List.foldlRecOn (motive := fun v : Option (Int × Worker F) =>
      ∀ g, v = some g → g ∈ p.workers.entries ∧ p.splittable ty g.2 = true)
    · intro g hf
      contradiction
    · intro v hb e he g hf
      by_cases hs : p.splittable ty e.2 = true
      · cases v with
        | none =>
          simp only [laterVictim, hs, ↓reduceIte] at hf
          cases hf
          exact ⟨he, hs⟩
        | some old =>
          simp only [laterVictim, hs, ↓reduceIte] at hf
          split_ifs at hf
          · cases hf
            exact ⟨he, hs⟩
          · exact hb g hf
      · simp only [laterVictim, hs] at hf
        exact hb g hf
  exact hfo v hv

/-- A split leaves both connections what made the range long enough. -/
theorem splitCut_least (hp : 0 ≤ t.position) (hm : 1 ≤ p.minSplit) (hs : p.splittable ty t = true) :
    let least := p.minSplitFor (expectedSpeed t ty)
    1 ≤ least ∧ t.position + least ≤ p.splitCut ty t ∧
      p.splitCut ty t + least ≤ t.stop := by
  have hl := p.minSplitFor_pos hm (expectedSpeed t ty)
  rw [splittable, Bool.and_eq_true, decide_eq_true_iff, decide_eq_true_iff] at hs
  rw [splitCut]
  generalize p.minSplitFor (expectedSpeed t ty) = least at hs hl ⊢
  generalize t.position + Double.toInt (_ : F) = wish
  have hle : t.position + least ≤ t.stop - least := by omega
  have hc := clampInt_bounds wish hle
  generalize clampInt wish _ _ = cut at hc ⊢
  have hmo : 0 ≤ cut.tmod alignment := Int.tmod_nonneg _ (by omega)
  split_ifs <;> omega

/-- A split leaves both connections something to do. -/
theorem splitCut_bounds (hm : 1 ≤ p.minSplit) (hp : 0 ≤ t.position)
    (hs : p.splittable ty t = true) : t.position < p.splitCut ty t ∧ p.splitCut ty t < t.stop := by
  obtain ⟨hl, hlo, hh⟩ := splitCut_least hp hm hs
  omega

end

theorem split_some {p next : SegmentPlanner F} {id : Int} {r : Range}
    (hs : p.split id = some (r, next)) : ∃ v ∈ p.workers.entries, let ty := p.typicalSpeed (-1)
      p.splittable ty v.2 = true ∧ r = (p.splitCut ty v.2, v.2.stop) ∧
      next = { p with workers := (p.workers.insert v.1
          { v.2 with stop := r.1 }).insert id (freshWorker r) } := by
  rw [split] at hs
  cases hv : p.workers.entries.foldl (p.laterVictim (p.typicalSpeed (-1))) none with
  | none => simp [hv] at hs
  | some v =>
    simp only [hv, Option.some.injEq, Prod.mk.injEq] at hs
    obtain ⟨hm, hl⟩ := laterVictim_foldl hv
    obtain ⟨rfl, rfl⟩ := hs
    exact ⟨v, hm, hl, rfl, rfl⟩

section

variable (planner p : SegmentPlanner F)

theorem addCopy_leader (g : Group F) (id : Int) (w : Worker F) :
    (p.addCopy g id w).leader = id ∨ (p.addCopy g id w).leader = g.leader ∧ 0 ≤ g.leader := by
  by_cases hf : g.leader < 0
  · exact .inl (by simp [addCopy, hf])
  · simp only [addCopy, hf, decide_false, Bool.false_or]
    generalize Double.lt _ g.time = earlier
    cases earlier with
    | true => exact .inl rfl
    | false => exact .inr ⟨rfl, not_lt.mp hf⟩

/-- Every group is led by an unfinished worker that ends where the group's
copies end. -/
theorem joinGroup_foldl {stop : Int} {g : Group F}
    (hg : (p.workers.entries.foldl p.joinGroup ∅).find? stop = some g) :
    ∃ l, (g.leader, l) ∈ p.workers.entries ∧ l.position < l.stop ∧ l.stop = stop := by
  have hfo : ∀ stop g, (p.workers.entries.foldl p.joinGroup ∅).find? stop = some g →
      ∃ l, (g.leader, l) ∈ p.workers.entries ∧ l.position < l.stop ∧ l.stop = stop := by
    apply List.foldlRecOn (motive := fun gr : OrdMap Int (Group F) =>
      ∀ stop g, gr.find? stop = some g → ∃ l, (g.leader, l) ∈ p.workers.entries ∧
          l.position < l.stop ∧ l.stop = stop)
    · intro stop g hf
      simp at hf
    · intro gr hb e hen stop g hf
      rw [joinGroup] at hf
      by_cases hs : e.2.stop - e.2.position ≤ 0 ∨ e.2.stop = unbounded
      · rw [if_pos hs] at hf
        exact hb stop g hf
      · rw [if_neg hs, OrdMap.find?_insert] at hf
        by_cases he : stop = e.2.stop
        · rw [if_pos he] at hf
          cases hf
          rcases addCopy_leader p ((gr.find? e.2.stop).getD emptyGroup) e.1 e.2
            with hse | ⟨hk, hold⟩
          · rw [hse]
            exact ⟨e.2, hen, by omega, he.symm⟩
          · cases hg : gr.find? e.2.stop with
            | none =>
              rw [hg] at hold
              exact absurd hold (show ¬ (0 : Int) ≤ -1 by decide)
            | some before =>
              rw [hg] at hk
              rw [hk, he]
              exact hb e.2.stop before hg
        · rw [if_neg he] at hf
          exact hb stop g hf
  exact hfo stop g hg

theorem slowerLeader_foldl (gr : OrdMap Int (Group F)) {s : Worker F}
    (hs : (gr.entries.foldl p.slowerLeader (none, Double.ofInt 0)).1 = some s) :
    ∃ e ∈ gr.entries, p.workers.find? e.2.leader = some s := by
  have hfo : ∀ g, (gr.entries.foldl p.slowerLeader
      (none, Double.ofInt 0)).1 = some g → ∃ e ∈ gr.entries,
        p.workers.find? e.2.leader = some g := by
    apply List.foldlRecOn (motive := fun s : Option (Worker F) × F =>
      ∀ g, s.1 = some g → ∃ e ∈ gr.entries, p.workers.find? e.2.leader = some g)
    · intro g hf
      contradiction
    · intro s hb e he g hf
      rw [slowerLeader] at hf
      split_ifs at hf
      · exact hb g hf
      · cases hl : p.workers.find? e.2.leader with
        | none =>
          rw [hl] at hf
          exact hb g hf
        | some l =>
          simp only [hl] at hf
          split_ifs at hf
          · cases hf
            exact ⟨e, he, hl⟩
          · exact hb g hf
  exact hfo s hs

variable {id : Int}

/-- A race copies the rest of an unfinished worker. -/
theorem race_some {p next : SegmentPlanner F} {r : Range} (hr : p.race id = some (r, next)) :
    ∃ e ∈ p.workers.entries, e.2.position < e.2.stop ∧
      r = (e.2.position, e.2.stop) ∧ next = { p with
        workers := p.workers.insert id (freshWorker r) } := by
  rw [race] at hr
  cases hs : ((p.workers.entries.foldl p.joinGroup
      ∅).entries.foldl p.slowerLeader (none, Double.ofInt 0)).1 with
  | none => simp [hs] at hr
  | some s =>
    simp only [hs, Option.some.injEq, Prod.mk.injEq] at hr
    obtain ⟨e, he, hf⟩ := slowerLeader_foldl p _ hs
    obtain ⟨l, hl, hlt, _⟩ := joinGroup_foldl p ((OrdMap.find?_eq_some_iff _ e.1 e.2).mpr he)
    have hsa := p.workers.eq_of_mem_entries hl ((OrdMap.find?_eq_some_iff _ _ _).mp hf)
    subst hsa
    obtain ⟨rfl, rfl⟩ := hr
    exact ⟨(e.2.leader, l), hl, hlt, rfl, rfl⟩

/-- The ways `assign` hands out a range. -/
inductive Assigned (planner : SegmentPlanner F) (id : Int) :
    Option Range × SegmentPlanner F → Prop
  | nothing : Assigned planner id (none, planner)
  | gap {range} (hfree : planner.FreeRange range) :
      Assigned planner id (some range, { planner with
        workers := planner.workers.insert id (freshWorker range) })
  | split {victim} (hvictim : victim ∈ planner.workers.entries)
      (hlong : planner.splittable (planner.typicalSpeed (-1)) victim.2 = true)
      {range} (hrange : range = (planner.splitCut (planner.typicalSpeed (-1)) victim.2,
          victim.2.stop)) :
      Assigned planner id (some range, { planner with
        workers := (planner.workers.insert victim.1
          { victim.2 with stop := range.1 }).insert id (freshWorker range) })
  | race {leader} (hleader : leader ∈ planner.workers.entries)
      (hunfinished : leader.2.position < leader.2.stop)
      {range} (hrange : range = (leader.2.position, leader.2.stop)) :
      Assigned planner id (some range, { planner with
        workers := planner.workers.insert id (freshWorker range) })

theorem assign_assigned (id : Int) : p.Assigned id (p.assign id) := by
  rw [assign]
  split_ifs
  · exact .nothing
  · cases hg : p.largestGap with
    | some gap => exact .gap (largestGap_free hg)
    | none =>
      cases hs : p.split id with
      | some r =>
        obtain ⟨v, hv, hlo, hr, hn⟩ := split_some hs
        dsimp only
        rw [hn]
        exact .split hv hlo hr
      | none =>
        cases hra : p.race id with
        | none => exact .nothing
        | some r =>
          obtain ⟨l, hl, hlt, hr, hn⟩ := race_some hra
          dsimp only
          rw [hn]
          exact .race hl hlt hr

theorem assign_minSplit (id : Int) : (p.assign id).2.minSplit = p.minSplit := by
  cases hass : p.assign id with
  | mk r next =>
    have ha := p.assign_assigned id
    rw [hass] at ha
    cases ha with
    | _ => rfl

/-- The ways `extend` ends for a registered worker. -/
inductive Extended (planner : SegmentPlanner F) (id : Int)
    (worker : Worker F) : Extension F → Prop
  | finished : Extended planner id worker { extended := false, cancelled := none, planner }
  | takeover {other next} (hother : (other, next) ∈ planner.workers.entries)
      (hne : other ≠ id) (hposition : next.position = worker.stop)
      (hsilent : next.receiving = false)
      (hmore : worker.stop < worker.requestEnd) :
      Extended planner id worker
        { extended := true
          cancelled := some other
          planner := { planner with
            workers := (planner.workers.insert id { worker with
              stop := min worker.requestEnd next.stop }).erase other } }
  | gap {stop : Int} (hlonger : worker.stop < stop) (hrequest : stop ≤ worker.requestEnd)
      (hlength : 0 ≤ planner.length → stop ≤ planner.length)
      (hfree : ∀ offset, worker.stop ≤ offset → offset < stop → offset ∉ planner.ownedByOthers id) :
      Extended planner id worker
        { extended := true
          cancelled := none
          planner := { planner with
            workers := planner.workers.insert id { worker with stop } } }

theorem extend_extended {p : SegmentPlanner F} {w : Worker F} (hf : p.workers.find? id = some w) :
    ∃ e, p.extend id = some e ∧ p.Extended id w e := by
  simp only [extend, hf, Option.map_some, Option.some.injEq, exists_eq_left']
  by_cases he : w.requestEnd ≤ w.stop ∨ p.length ≥ 0 ∧ w.stop ≥ p.length
  · rw [if_pos he]
    exact .finished
  rw [if_neg he]
  cases hs : p.silentNeighbour id w.stop with
  | some n =>
    have hp := List.find?_some hs
    simp only [Bool.and_eq_true, decide_eq_true_eq, Bool.not_eq_true'] at hp
    exact .takeover (List.mem_of_find?_eq_some hs) hp.1.1
      hp.1.2 hp.2 (not_le.mp fun hl => he (.inl hl))
  | none =>
    cases hg : (p.ownedByOthers id).firstGap w.stop (if p.length ≥ 0 then min w.requestEnd p.length
          else w.requestEnd) with
    | none => exact .finished
    | some gap =>
      have hsp := RangeSet.firstGap_some hg
      dsimp only
      by_cases ha : gap.1 = w.stop
      · rw [if_pos ha]
        have hl := hsp.le_limit
        refine .gap (ha ▸ hsp.nonempty) ?_ ?_ (ha ▸ hsp.missing)
        · split_ifs at hl
          · exact hl.trans (min_le_left _ _)
          · exact hl
        · intro hlen
          rw [if_pos hlen] at hl
          exact hl.trans (min_le_right _ _)
      · rw [if_neg ha]
        exact .finished

theorem extend_minSplit (id : Int) :
    (((p.extend id).map Extension.planner).getD p).minSplit = p.minSplit := by
  cases hf : p.workers.find? id with
  | none => simp [extend, hf]
  | some w =>
    obtain ⟨e, hext, he⟩ := extend_extended hf
    rw [hext]
    cases he with
    | _ => rfl

theorem step_minSplit (c : Call F) : (step p c).minSplit = p.minSplit := by
  cases c with
  | assign id => exact p.assign_minSplit id
  | extend id => exact p.extend_minSplit id
  | receive id bs =>
    rw [step, receive]
    cases p.workers.find? id with
    | _ => rfl
  | updateSpeed id b s =>
    rw [step, updateSpeed]
    cases p.workers.find? id with
    | _ => rfl
  | _ => rfl

end

/-- Whatever was placed, restored, received, split, raced, extended,
released or forgotten: once the length is known, a byte of the file that
nobody has is served by the next `assign`, and while no worker has work left
`assign` answers nothing exactly if the file is complete. -/
theorem run_assign_serves_missing {minSplit : Int} (hmin : 1 ≤ minSplit) (calls : List (Call F))
    (id : Int) :
    let planner := run step ({ minSplit } : SegmentPlanner F) calls
    0 ≤ planner.length → (∀ offset, 0 ≤ offset → offset < planner.length → planner.Covers offset ∨
          ∃ range, (planner.assign id).1 = some range ∧ planner.FreeRange range) ∧
      ((∀ entry ∈ planner.workers.entries, ¬ entry.2.position < entry.2.stop) →
        ((planner.assign id).1 = none ↔ planner.complete = true)) := by
  intro planner hlength
  have hkeep : ∀ (state : SegmentPlanner F) call,
      state.minSplit = minSplit → (step state call).minSplit = minSplit :=
    fun state call hstate => (step_minSplit state call).trans hstate
  have hsplit : planner.minSplit = minSplit := run_preserves hkeep calls rfl
  refine ⟨fun offset hlo hhi => ?_, fun hidle => ?_⟩
  · cases hgap : planner.largestGap with
    | none => exact .inl (largestGap_eq_none hlength hgap hlo hhi)
    | some gap =>
      exact .inr ⟨gap, assign_of_gap hlength hgap id, largestGap_free hgap⟩
  · exact assign_eq_none_iff_complete (hsplit ▸ hmin) hlength
      (fun entry hentry => not_lt.mp (hidle entry hentry)) id

/-- Four of ten bytes are there and their worker is done: more is handed
out. -/
theorem run_assign_serves_missing_six :
    let calls : List (Call ℚ) := [.setLength 10, .place 1 0 4, .receive 1 4]
    let planner := run step { minSplit := 1 } calls
    0 ≤ planner.length ∧ ((planner.assign 2).1 = none ↔ planner.complete = true) ∧
      planner.complete = false :=
  ⟨by decide, (run_assign_serves_missing (by decide) _ 2 (by decide)).2 (by decide), by decide⟩

end Aria2Next.SegmentPlanner
