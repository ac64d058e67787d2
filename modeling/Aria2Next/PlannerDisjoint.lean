/-
Without races the planner hands out each byte once.  The ranges of the workers
stay apart from each other and from what is received, a split leaves both
sides the size it was chosen by, and the loop that receives a chunk ends
because every extension makes the range longer or removes a worker.
-/
import Aria2Next.HttpChunk

namespace Aria2Next.SegmentPlanner

open Runs OrdMap

universe u

variable {F : Type u}

/-- A byte the worker has still to receive. -/
def Worker.Owns (worker : Worker F) (offset : Int) : Prop :=
  worker.position ≤ offset ∧ offset < worker.stop

/-- The range of a worker lies inside its request and the file. -/
structure Worker.Fits (worker : Worker F) (length : Int) : Prop where
  nonneg : 0 ≤ worker.position
  position_le : worker.position ≤ worker.stop
  stop_le : worker.stop ≤ worker.requestEnd
  inside : 0 ≤ length → worker.stop ≤ length

/-- Each byte is received, or at most one worker has still to receive it. -/
structure Layout (received : RangeSet) (length : Int)
    (workers : OrdMap Int (Worker F)) : Prop where
  fits : ∀ id worker, workers.find? id = some worker → worker.Fits length
  missing : ∀ id worker offset, workers.find? id = some worker →
    worker.Owns offset → offset ∉ received
  apart : ∀ id worker other next offset, workers.find? id = some worker →
    workers.find? other = some next → id ≠ other →
    worker.Owns offset → ¬ next.Owns offset

theorem Layout.empty (rs : RangeSet) (l : Int) : Layout rs l (∅ : OrdMap Int (Worker F)) := by
  constructor
  · intro id w hf
    simp at hf
  · intro id w x hf
    simp at hf
  · intro id w o next x hf
    simp at hf

section Changes

variable {r : RangeSet} {l : Int} {ws : OrdMap Int (Worker F)}

theorem Layout.erase (hl : Layout r l ws) (id : Int) : Layout r l (ws.erase id) := by
  have hf : ∀ {o next}, (ws.erase id).find? o = some next → ws.find? o = some next := by
    intro o next hfi
    rw [find?_erase] at hfi
    split_ifs at hfi
    exact hfi
  exact
    { fits := fun o next ho => hl.fits o next (hf ho)
      missing := fun o next x ho =>
        hl.missing o next x (hf ho)
      apart := fun left w right next x hle hr =>
        hl.apart left w right next x (hf hle) (hf hr) }

variable {id : Int} {w : Worker F}

/-- A worker whose bytes nobody else has may be registered. -/
theorem Layout.insert (hla : Layout r l (ws.erase id)) (hfi : w.Fits l) (hm : ∀ x, w.Owns x → x ∉ r)
    (ha : ∀ o next x, o ≠ id → ws.find? o = some next → w.Owns x → ¬ next.Owns x) :
    Layout r l (ws.insert id w) := by
  have he : ∀ {o}, o ≠ id → (ws.erase id).find? o = ws.find? o := fun hn => find?_erase_of_ne ws hn
  constructor
  · intro o next ho
    rw [find?_insert] at ho
    split_ifs at ho with hsa
    · cases ho
      exact hfi
    · exact hla.fits o next ((he hsa).trans ho)
  · intro o next x ho
    rw [find?_insert] at ho
    split_ifs at ho with hsa
    · cases ho
      exact hm x
    · exact hla.missing o next x ((he hsa).trans ho)
  · intro left first right s x hle hri hn hf hs
    rw [find?_insert] at hle hri
    split_ifs at hle hri with hl hr hr
    · exact hn (hl.trans hr.symm)
    · cases hle
      exact ha right s x hr hri hf hs
    · cases hri
      exact ha left first x hl hle hs hf
    · exact hla.apart left first right s x ((he hl).trans hle) ((he hr).trans hri) hn hf hs

/-- A worker that keeps a part of its range stays apart from the others. -/
theorem Layout.shrink {next : Worker F} (hl : Layout r l ws) (hf : ws.find? id = some w)
    (hfi : next.Fits l) (hp : ∀ x, next.Owns x → w.Owns x) : Layout r l (ws.insert id next) :=
  (hl.erase id).insert hfi (fun x ho => hl.missing id w x hf (hp x ho)) (fun o g x hn hot ho =>
      hl.apart id w o g x hf hot hn.symm (hp x ho))

/-- Bytes that a worker owned are received instead. -/
theorem Layout.receive {u : Int} (hl : Layout r l ws) (hf : ws.find? id = some w) (hn : 0 ≤ u)
    (hst : w.position + u ≤ w.stop) :
    Layout (r.add w.position (w.position + u)) l (ws.insert id { w with
        position := w.position + u, receiving := true }) := by
  have hfi := hl.fits id w hf
  have hoth : Layout (r.add w.position (w.position + u)) l (ws.erase id) := by
    refine { (hl.erase id) with missing := ?_ }
    intro o next x hot ho hm
    rw [find?_erase] at hot
    split_ifs at hot with hs
    rcases RangeSet.mem_add.mp hm with hold | ⟨hlo, hh⟩
    · exact hl.missing o next x hot ho hold
    · exact hl.apart id w o next x hf hot (Ne.symm hs) ⟨hlo, by omega⟩ ho
  refine hoth.insert ?_ ?_ ?_
  · exact
      { nonneg := by have hold := hfi.nonneg; dsimp only; omega
        position_le := hst
        stop_le := hfi.stop_le
        inside := hfi.inside }
  · intro x ho hm
    have hlo : w.position + u ≤ x := ho.1
    rcases RangeSet.mem_add.mp hm with hold | ⟨_, hh⟩
    · exact hl.missing id w x hf ⟨by omega, ho.2⟩ hold
    · omega
  · intro o next x hne hot ho
    have hlo : w.position + u ≤ x := ho.1
    exact hl.apart id w o next x hf hot hne.symm ⟨by omega, ho.2⟩

end Changes

variable [Double F]

/-- The range a byte belongs to, or that it is received. -/
theorem covers_iff (p : SegmentPlanner F) (x : Int) : p.Covers x ↔ x ∈ p.received ∨
      ∃ id worker, p.workers.find? id = some worker ∧ worker.Owns x := by
  apply or_congr Iff.rfl
  constructor
  · rintro ⟨⟨id, worker⟩, he, ho⟩
    exact ⟨id, worker, (find?_eq_some_iff _ _ _).mpr he, ho⟩
  · rintro ⟨id, worker, hf, ho⟩
    exact ⟨(id, worker), (find?_eq_some_iff _ _ _).mp hf, ho⟩

/-- The layout of a planner that may split. -/
structure Tidy (planner : SegmentPlanner F) : Prop where
  minSplit : 1 ≤ planner.minSplit
  layout : Layout planner.received planner.length planner.workers

section

variable {planner p : SegmentPlanner F}

variable {w : Worker F} {id : Int} {e : Extension F}

/-- A range that nobody covers may be given to a worker. -/
theorem Tidy.insertFree (ht : p.Tidy) (id : Int) (hfi : w.Fits p.length)
    (hf : ∀ x, w.Owns x → ¬ p.Covers x) : Layout p.received p.length (p.workers.insert id w) := by
  refine (ht.layout.erase id).insert hfi ?_ ?_
  · intro x ho hm
    exact hf x ho (.inl hm)
  · intro o next x _ hot ho hn
    exact hf x ho ((p.covers_iff x).mpr (.inr ⟨o, next, hot, hn⟩))

/-- The call is one of those that keep the ranges apart: a placed range is of
bytes nobody covers and inside a known length, the length is not below a
position, progress is restored before there are workers, and what is assigned
is a gap or a split. -/
def Permitted (planner : SegmentPlanner F) : Call F → Prop
  | .place _ begin requestEnd =>
    0 ≤ begin ∧ begin < requestEnd ∧ (0 ≤ planner.length → requestEnd ≤ planner.length) ∧
      ∀ offset, begin ≤ offset → offset < requestEnd → ¬ planner.Covers offset
  | .setLength length =>
    ∀ entry ∈ planner.workers.entries, entry.2.position ≤ length
  | .restore _ => planner.workers = ∅
  | .assign id => (planner.assign id).1 = none ∨
      planner.largestGap.isSome ∨ (planner.split id).isSome
  | .receive _ bytes => 0 ≤ bytes
  | _ => True

theorem place_tidy (ht : p.Tidy) {b r : Int} (hp : Permitted p (.place id b r)) :
    (p.place id b r).Tidy := by
  obtain ⟨hno, hn, hi, hf⟩ := hp
  have hs : (if p.length ≥ 0 then min r p.length
      else r) = r := by
    split_ifs with hk
    · exact min_eq_left (hi hk)
    · rfl
  refine ⟨ht.minSplit, ?_⟩
  rw [place, hs]
  exact ht.insertFree id { nonneg := hno, position_le := hn.le, stop_le := le_rfl, inside := hi }
    (fun x ho => hf x ho.1 ho.2)

theorem setLength_tidy (ht : p.Tidy) {l : Int} (hp : Permitted p (.setLength l)) :
    (p.setLength l).Tidy := by
  have hfo : ∀ {id w}, (p.setLength l).workers.find? id =
      some w → ∃ old, p.workers.find? id = some old ∧
        w = { old with
          stop := min old.stop l
          requestEnd := min old.requestEnd l } := by
    intro id w hf
    rw [setLength, find?_mapValues, Option.map_eq_some_iff] at hf
    obtain ⟨old, hold, he⟩ := hf
    exact ⟨old, hold, he.symm⟩
  refine ⟨ht.minSplit, ?_, ?_, ?_⟩
  · intro id w hf
    obtain ⟨old, hold, rfl⟩ := hfo hf
    have hfi := ht.layout.fits id old hold
    have hpo := hp (id, old) ((find?_eq_some_iff _ _ _).mp hold)
    exact
      { nonneg := hfi.nonneg
        position_le := le_min hfi.position_le hpo
        stop_le := min_le_min_right l hfi.stop_le
        inside := fun _ => min_le_right _ _ }
  · intro id w x hf ho
    obtain ⟨old, hold, rfl⟩ := hfo hf
    exact ht.layout.missing id old x hold ⟨ho.1, lt_of_lt_of_le ho.2 (min_le_left _ _)⟩
  · intro id w o next x hf hot hne ho hn
    obtain ⟨old, hold, rfl⟩ := hfo hf
    obtain ⟨s, hs, rfl⟩ := hfo hot
    exact ht.layout.apart id old o s x hold hs hne
      ⟨ho.1, lt_of_lt_of_le ho.2 (min_le_left _ _)⟩ ⟨hn.1, lt_of_lt_of_le hn.2 (min_le_left _ _)⟩

/-- Where a permitted `assign` takes a range from. -/
theorem assign_cases (hp : Permitted p (.assign id)) :
    (p.assign id).2 = p ∨ (∃ r, p.FreeRange r ∧ (p.assign id).2 = { p with
          workers := p.workers.insert id (freshWorker r) }) ∨
      ∃ r, p.split id = some (r, (p.assign id).2) := by
  by_cases hl : p.length < 0
  · exact .inl (by rw [assign, if_pos hl])
  · rw [assign, if_neg hl]
    cases hg : p.largestGap with
    | some gap => exact .inr (.inl ⟨gap, largestGap_free hg, rfl⟩)
    | none =>
      cases hsp : p.split id with
      | some re => exact .inr (.inr ⟨re.1, rfl⟩)
      | none =>
        rcases hp with hn | hs | hs
        · rw [assign, if_neg hl, hg, hsp] at hn
          cases hr : p.race id with
          | none => exact .inl rfl
          | some re => simp [hr] at hn
        · simp [hg] at hs
        · simp [hsp] at hs

/-- The cut of a split lies inside the range, so both parts fit. -/
theorem split_tidy {p next : SegmentPlanner F} (ht : p.Tidy) {r : Range}
    (hs : p.split id = some (r, next)) : next.Tidy := by
  obtain ⟨⟨v, t⟩, hv, hl, rfl, rfl⟩ := split_some hs
  have hfi := (find?_eq_some_iff _ _ _).mpr hv
  have hf := ht.layout.fits v t hfi
  obtain ⟨hle, hlo, hh⟩ := splitCut_least hf.nonneg ht.minSplit hl
  generalize p.splitCut (p.typicalSpeed (-1)) t = cut at hlo hh ⊢
  have hst := hf.stop_le
  have hb := hf.nonneg
  refine ⟨ht.minSplit, ?_⟩
  have hke : Layout p.received p.length
      (p.workers.insert v { t with stop := cut }) := by
    refine ht.layout.shrink hfi ?_ ?_
    · exact
        { nonneg := hb
          position_le := by dsimp only; omega
          stop_le := by dsimp only; omega
          inside := fun hk => by
            have hi := hf.inside hk
            dsimp only
            omega }
    · intro x ho
      have hbe : x < cut := ho.2
      exact ⟨ho.1, by omega⟩
  refine (hke.erase id).insert ?_ ?_ ?_
  · exact
      { nonneg := by dsimp only [freshWorker]; omega
        position_le := by dsimp only [freshWorker]; omega
        stop_le := le_rfl
        inside := hf.inside }
  · intro x ho
    have hb : cut ≤ x := ho.1
    exact ht.layout.missing v t x hfi ⟨by omega, ho.2⟩
  · intro o g x hn hot ho hfo
    have hb : cut ≤ x := ho.1
    have he : x < t.stop := ho.2
    rw [find?_insert] at hot
    split_ifs at hot with hsa
    · cases hot
      have hbe : x < cut := hfo.2
      omega
    · exact ht.layout.apart v t o g x hfi hot (Ne.symm hsa) ⟨by omega, he⟩ hfo

theorem assign_tidy (ht : p.Tidy) (hp : Permitted p (.assign id)) : (p.assign id).2.Tidy := by
  rcases assign_cases hp with hsa | ⟨r, hf, he⟩ | ⟨r, hs⟩
  · rw [hsa]
    exact ht
  · rw [he]
    refine ⟨ht.minSplit, ht.insertFree id ?_ ?_⟩
    · exact
        { nonneg := hf.nonneg
          position_le := hf.nonempty.le
          stop_le := le_rfl
          inside := fun _ => hf.le_length }
    · intro x ho
      exact hf.free x ho.1 ho.2
  · exact split_tidy ht hs

theorem receive_tidy (ht : p.Tidy) {bs : Int} (hb : 0 ≤ bs) :
    (((p.receive id bs).map Prod.snd).getD p).Tidy := by
  cases hf : p.workers.find? id with
  | none =>
    rw [receive, hf]
    exact ht
  | some w =>
    have hfi := ht.layout.fits id w hf
    have hp := hfi.position_le
    have hu : 0 ≤ clampInt (w.stop - w.position) 0 bs ∧
        w.position + clampInt (w.stop - w.position) 0 bs ≤ w.stop := by
      rw [clampInt]
      split_ifs <;> omega
    rw [receive_of_find hf]
    exact ⟨ht.minSplit, ht.layout.receive hf hu.1 hu.2⟩

/-- What others do not own is nobody else's. -/
theorem not_owns_of_notMem {x : Int} (hfr : x ∉ p.ownedByOthers id) :
    x ∉ p.received ∧ ∀ o next, o ≠ id → p.workers.find? o = some next → ¬ next.Owns x := by
  have hf : ∀ (es : List (Int × Worker F)) (set : RangeSet),
      (x ∈ set ∨ ∃ e ∈ es, e.1 ≠ id ∧ e.2.Owns x) → x ∈ es.foldl (fun set e =>
        if e.1 ≠ id then set.add e.2.position e.2.stop
        else set) set := by
    intro es
    induction es with
    | nil =>
      rintro set (hm | ⟨e, he, _⟩)
      · exact hm
      · simp at he
    | cons head t ih =>
      rintro set (hm | ⟨e, he, hn, ho⟩)
      · apply ih
        left
        dsimp only
        split_ifs
        · exact RangeSet.mem_add.mpr (.inl hm)
        · exact hm
      · apply ih
        rcases List.mem_cons.mp he with rfl | ht
        · left
          dsimp only
          rw [if_pos hn]
          exact RangeSet.mem_add.mpr (.inr ho)
        · exact .inr ⟨e, ht, hn, ho⟩
  constructor
  · intro hm
    exact hfr (hf _ _ (.inl hm))
  · intro o next hn hot ho
    exact hfr (hf _ _ (.inr ⟨(o, next), (find?_eq_some_iff _ _ _).mp hot, hn, ho⟩))

theorem extended_tidy (ht : p.Tidy) (hf : p.workers.find? id = some w) (he : p.Extended id w e) :
    e.planner.Tidy := by
  have hfi := ht.layout.fits id w hf
  have hp := hfi.position_le
  cases he with
  | finished => exact ht
  | @takeover o next hot hn hnex hsi hm =>
    have hfo := (find?_eq_some_iff _ _ _).mpr hot
    have hs := ht.layout.fits o next hfo
    have hor := hs.position_le
    refine ⟨ht.minSplit, ?_⟩
    rw [erase_insert_of_ne p.workers hn]
    -- the bytes are those of the two ranges, and the other one is gone
    have howne : ∀ x, w.position ≤ x → x < min w.requestEnd next.stop → w.Owns x ∨ next.Owns x := by
      intro x hlo hh
      have hen := lt_min_iff.mp hh
      by_cases hb : x < w.stop
      · exact .inl ⟨hlo, hb⟩
      · exact .inr ⟨by omega, hen.2⟩
    refine ((ht.layout.erase o).erase id).insert ?_ ?_ ?_
    · exact
        { nonneg := hfi.nonneg
          position_le := by
            dsimp only
            omega
          stop_le := min_le_left _ _
          inside := fun hk =>
            (min_le_right _ _).trans (hs.inside hk) }
    · intro x ho
      rcases howne x ho.1 ho.2 with hown | hown
      · exact ht.layout.missing id w x hf hown
      · exact ht.layout.missing o next x hfo hown
    · intro t g x hth hf' ho
      rw [find?_erase] at hf'
      split_ifs at hf' with hg
      rcases howne x ho.1 ho.2 with hown | hown
      · exact ht.layout.apart id w t g x hf hf' (Ne.symm hth) hown
      · exact ht.layout.apart o next t g x hfo hf' (Ne.symm hg) hown
  | @gap s hlon hr hl hfr =>
    refine ⟨ht.minSplit, ?_⟩
    refine (ht.layout.erase id).insert ?_ ?_ ?_
    · exact
        { nonneg := hfi.nonneg
          position_le := by dsimp only; omega
          stop_le := hr
          inside := hl }
    · intro x ho
      by_cases hb : x < w.stop
      · exact ht.layout.missing id w x hf ⟨ho.1, hb⟩
      · exact (not_owns_of_notMem (hfr x (not_lt.mp hb) ho.2)).1
    · intro o next x hn hot ho
      by_cases hb : x < w.stop
      · exact ht.layout.apart id w o next x hf hot hn.symm ⟨ho.1, hb⟩
      · exact (not_owns_of_notMem (hfr x (not_lt.mp hb) ho.2)).2 o next hn hot

theorem extend_tidy (ht : p.Tidy) (id : Int) :
    (((p.extend id).map Extension.planner).getD p).Tidy := by
  cases hf : p.workers.find? id with
  | none =>
    rw [extend, hf]
    exact ht
  | some w =>
    obtain ⟨e, hext, he⟩ := extend_extended hf
    rw [hext]
    exact extended_tidy ht hf he

theorem updateSpeed_tidy (ht : p.Tidy) (id : Int) (b s : F) : (p.updateSpeed id b s).Tidy := by
  rw [updateSpeed]
  cases hfi : p.workers.find? id with
  | none => exact ht
  | some w =>
    have hf := ht.layout.fits id w hfi
    exact ⟨ht.minSplit, ht.layout.shrink hfi ⟨hf.nonneg, hf.position_le, hf.stop_le, hf.inside⟩
      (fun x ho => ho)⟩

/-- Every permitted call keeps the layout. -/
theorem step_tidy (p : SegmentPlanner F) (c : Call F) (ht : p.Tidy) (hp : Permitted p c) :
    (step p c).Tidy := by
  cases c with
  | place id be r => exact place_tidy ht hp
  | setLength l => exact setLength_tidy ht hp
  | restore ra =>
    refine ⟨ht.minSplit, ?_⟩
    rw [step, restore, show p.workers = ∅ from hp]
    exact .empty _ _
  | reset => exact ⟨ht.minSplit, .empty _ _⟩
  | assign id => exact assign_tidy ht hp
  | receive id bs => exact receive_tidy ht hp
  | updateSpeed id b s =>
    exact updateSpeed_tidy ht id b s
  | noteSpeed | noteStartup => exact ⟨ht.minSplit, ht.layout⟩
  | extend id => exact extend_tidy ht id
  | release id => exact ⟨ht.minSplit, ht.layout.erase id⟩
  | forget be st =>
    refine ⟨ht.minSplit, { ht.layout with missing := ?_ }⟩
    intro id w x hf ho hm
    exact ht.layout.missing id w x hf ho (RangeSet.mem_remove.mp hm).1

/-- An extension that succeeds makes the range of its worker longer or
removes the worker whose range it takes. -/
theorem extend_progress (he : p.extend id = some e) (hs : e.extended = true) :
    (∃ w next, p.workers.find? id = some w ∧ e.planner.workers.find? id = some next ∧
        w.stop < next.stop) ∨ ∃ o next, o ≠ id ∧ e.cancelled = some o ∧
        p.workers.find? o = some next ∧ e.planner.workers.find? o = none := by
  cases hf : p.workers.find? id with
  | none => simp [extend, hf] at he
  | some w =>
    obtain ⟨g, hfo, hext⟩ := extend_extended hf
    cases hfo.symm.trans he
    cases hext with
    | finished => simp at hs
    | @takeover o next ho hn =>
      exact .inr ⟨o, next, hn, rfl, (find?_eq_some_iff _ _ _).mpr ho, by simp⟩
    | @gap stop hl =>
      exact .inl ⟨w, { w with stop }, rfl, find?_insert_self _ _ _, hl⟩

end

/-- What a split leaves to the worker it takes from, and what it gives to the
new one. -/
theorem split_least {p next : SegmentPlanner F} (ht : p.Tidy) {id : Int} {r : Range}
    (hs : p.split id = some (r, next)) : ∃ v target, p.workers.find? v = some target ∧
      (let typical := p.typicalSpeed (-1)
       let least := p.minSplitFor (expectedSpeed target typical)
       2 * least ≤ target.stop - target.position ∧ 1 ≤ least ∧
       r.2 = target.stop ∧ least ≤ r.1 - target.position ∧
       least ≤ r.2 - r.1) ∧
      next.workers = (p.workers.insert v
        { target with stop := r.1 }).insert id (freshWorker r) := by
  obtain ⟨⟨v, target⟩, hv, hl, rfl, rfl⟩ := split_some hs
  have hf := (find?_eq_some_iff _ _ _).mpr hv
  have hfi := ht.layout.fits v target hf
  obtain ⟨hle, hlo, hh⟩ := splitCut_least hfi.nonneg ht.minSplit hl
  refine ⟨v, target, hf, ⟨?_, hle, rfl, ?_, ?_⟩, rfl⟩
  · rw [splittable, Bool.and_eq_true, decide_eq_true_iff, decide_eq_true_iff] at hl
    exact hl.2
  · dsimp only at hlo ⊢
    omega
  · dsimp only at hh ⊢
    omega

/-- In every state of a run without races the ranges of the workers are apart
from each other and from what is received, and inside their request and the
file; a split leaves both sides at least the size it was chosen by; the loop
that receives a chunk ends, whatever its size, and an extension makes a range
longer or removes a worker. -/
theorem run_hands_out_bytes_once {minSplit : Int} (hmin : 1 ≤ minSplit) (calls : List (Call F))
    (hmeets : Meets step Permitted ({ minSplit } : SegmentPlanner F) calls) :
    let planner := run step ({ minSplit } : SegmentPlanner F) calls
    (∀ id worker, planner.workers.find? id = some worker →
      worker.position ≤ worker.stop ∧ worker.stop ≤ worker.requestEnd ∧
      (0 ≤ planner.length → worker.stop ≤ planner.length) ∧
      ∀ offset, worker.position ≤ offset → offset < worker.stop → offset ∉ planner.received ∧
        ∀ other next, planner.workers.find? other = some next → other ≠ id →
          ¬ (next.position ≤ offset ∧ offset < next.stop)) ∧
    (∀ id range next, planner.split id = some (range, next) →
      ∃ victim target, planner.workers.find? victim = some target ∧
        (let typical := planner.typicalSpeed (-1)
         let least := planner.minSplitFor (expectedSpeed target typical)
         2 * least ≤ target.stop - target.position ∧ 1 ≤ least ∧
         range.2 = target.stop ∧ least ≤ range.1 - target.position ∧
         least ≤ range.2 - range.1) ∧
        next.workers = (planner.workers.insert victim
          { target with stop := range.1 }).insert id (freshWorker range)) ∧
    (∀ (task : HttpTask F) (facts : HttpTask.Facts F) (id : Int)
      (chunk : List UInt8), task.planner = planner →
      (planner.workers.find? id).isSome → (HttpTask.consume facts id
          (2 * chunk.length + planner.workers.entries.length + 1) task chunk).isSome) ∧
    ∀ id extension, planner.extend id = some extension → extension.extended = true →
      (∃ worker next, planner.workers.find? id = some worker ∧
          extension.planner.workers.find? id = some next ∧ worker.stop < next.stop) ∨
        ∃ other next, other ≠ id ∧ extension.cancelled = some other ∧
          planner.workers.find? other = some next ∧
          extension.planner.workers.find? other = none := by
  intro planner
  have htidy : planner.Tidy := run_invariant (fun state call hstate => step_tidy state call hstate)
      ⟨hmin, .empty _ _⟩ hmeets
  refine ⟨?_, fun id range next => split_least htidy, ?_, fun id extension => extend_progress⟩
  · intro id worker hfind
    have hfits := htidy.layout.fits id worker hfind
    refine ⟨hfits.position_le, hfits.stop_le, hfits.inside, ?_⟩
    intro offset hlow hhigh
    refine ⟨htidy.layout.missing id worker offset hfind ⟨hlow, hhigh⟩, ?_⟩
    intro other next hother hne
    exact htidy.layout.apart id worker other next offset hfind hother (Ne.symm hne) ⟨hlow, hhigh⟩
  · intro task facts id chunk htask hknown
    obtain ⟨worker, hfind⟩ := Option.isSome_iff_exists.mp hknown
    have hordered : Ordered planner.workers := fun other next hother =>
      (htidy.layout.fits other next hother).position_le
    rw [← htask] at hfind hordered ⊢
    apply HttpTask.consume_isSome hfind hordered
    rw [HttpTask.roundsLeft]
    split_ifs <;> omega

/-- A file of two workers: the second takes the tail of the first and begins
to receive it, so the first has nothing to go on with. -/
theorem run_hands_out_bytes_once_halves : let calls : List (Call ℚ) :=
      [.setLength 20000, .assign 1, .assign 2, .receive 2 5, .receive 1 20000, .extend 1]
    let planner := run step ({ minSplit := 1 } : SegmentPlanner ℚ) calls
    (planner.workers.find? 2).map (fun worker =>
        (worker.position, worker.stop)) = some (8197, 20000) ∧
      ∀ offset, 8197 ≤ offset → offset < 20000 → offset ∉ planner.received := by
  intro calls planner
  have hmeets : Meets step Permitted ({ minSplit := 1 } : SegmentPlanner ℚ) calls := by
    refine ⟨?_, ?_, ?_, ?_, ?_, trivial, trivial⟩
    · intro entry hentry
      simp at hentry
    · exact .inr (.inl (by decide +kernel))
    · exact .inr (.inr (by decide +kernel))
    · show (0 : Int) ≤ 5
      decide
    · show (0 : Int) ≤ 20000
      decide
  have hrange : (planner.workers.find? 2).map (fun worker =>
      (worker.position, worker.stop)) = some (8197, 20000) := by
    decide +kernel
  obtain ⟨worker, hfind, hends⟩ := Option.map_eq_some_iff.mp hrange
  obtain ⟨hbegin, hstop⟩ := Prod.mk.inj hends
  refine ⟨hrange, fun offset hlow hhigh => ?_⟩
  exact (((run_hands_out_bytes_once (by decide) calls hmeets).1 2 worker
    hfind).2.2.2 offset (by omega) (by omega)).1

example : ((run step ({ minSplit := 1 } : SegmentPlanner ℚ)
    [.setLength 20000, .assign 1, .assign 2]).workers.find? 1).map (·.stop) = some 8192 := by
  decide +kernel

end Aria2Next.SegmentPlanner
