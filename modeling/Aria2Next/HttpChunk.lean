/-
The loop of `receive`, round by round: a round uses bytes, takes over the
range of a silent neighbour, continues into unowned bytes, or is the last.
The loop always answers for a connection the planner knows, and it reports an
overrun only for bytes past the end of the file.
-/
import Aria2Next.HttpTransfer
import Aria2Next.PlannerCoverage

namespace Aria2Next

open OrdMap

universe u

variable {F : Type u}

namespace SegmentPlanner

/-- No worker is past its assigned end. -/
def Ordered (workers : OrdMap Int (Worker F)) : Prop :=
  ∀ id worker, workers.find? id = some worker → worker.position ≤ worker.stop

variable {workers : OrdMap Int (Worker F)} {w : Worker F}

theorem Ordered.insert (ho : Ordered workers) (id : Int) (hw : w.position ≤ w.stop) :
    Ordered (workers.insert id w) := by
  intro o g hf
  rw [find?_insert] at hf
  split_ifs at hf
  · exact Option.some.inj hf ▸ hw
  · exact ho o g hf

theorem Ordered.erase (ho : Ordered workers) (id : Int) : Ordered (workers.erase id) := by
  intro o g hf
  rw [find?_erase] at hf
  split_ifs at hf
  exact ho o g hf

variable [Double F]

theorem receive_of_find {p : SegmentPlanner F} {id : Int} (hf : p.workers.find? id = some w)
    (bs : Int) : p.receive id bs = let usable := clampInt (w.stop - w.position) 0 bs
      some (usable, { p with
        received := p.received.add w.position (w.position + usable)
        workers := p.workers.insert id { w with
          position := w.position + usable, receiving := true } }) := by
  rw [receive, hf]
  rfl

end SegmentPlanner

variable [Double F]

namespace HttpTask

/-- A round of the loop that is followed by another one. -/
inductive Round (facts : Facts F) (id : Int) (task : HttpTask F)
    (rest : List UInt8) : HttpTask F → List UInt8 → Prop
  | bytes {planned : SegmentPlanner.Worker F} (received : RangeSet)
      {usable : Nat} (hfind : task.planner.workers.find? id = some planned)
      (hpositive : 0 < usable) (hle : usable ≤ rest.length)
      (hstop : planned.position + usable ≤ planned.stop) :
      Round facts id task rest
        ({ task with planner := { task.planner with
          received
          workers := task.planner.workers.insert id { planned with
            position := planned.position + usable, receiving := true }
          } }.keepBytes facts id planned.position (rest.take usable))
        (rest.drop usable)
  | takeover {planned next : SegmentPlanner.Worker F} (received : RangeSet)
      {other : Int} (hfind : task.planner.workers.find? id = some planned)
      (hdone : planned.stop ≤ planned.position)
      (hother : task.planner.workers.find? other = some next)
      (hne : other ≠ id) (hposition : next.position = planned.stop)
      (hmore : planned.stop < planned.requestEnd) :
      Round facts id task rest
        ({ task with planner := { task.planner with
          received
          workers := (task.planner.workers.insert id { planned with
            stop := min planned.requestEnd next.stop
            receiving := true }).erase other } }.cancelWorker facts.now other)
        rest
  | gap {planned : SegmentPlanner.Worker F} (received : RangeSet) {stop : Int}
      (hfind : task.planner.workers.find? id = some planned)
      (hdone : planned.stop ≤ planned.position) (hlonger : planned.stop < stop)
      (hrequest : stop ≤ planned.requestEnd)
      (hlength : 0 ≤ task.planner.length → stop ≤ task.planner.length) :
      Round facts id task rest
        { task with planner := { task.planner with
          received
          workers := task.planner.workers.insert id { planned with
            stop, receiving := true } } } rest

/-- The last round, with bytes left. -/
inductive LastRound (id : Int) (task : HttpTask F) :
    HttpTask F → ChunkEnd → Prop
  | overrun {planned : SegmentPlanner.Worker F} (received : RangeSet)
      (hfind : task.planner.workers.find? id = some planned)
      (hdone : planned.stop ≤ planned.position)
      (hlength : 0 ≤ task.planner.length)
      (hpast : task.planner.length ≤ planned.position) :
      LastRound id task { task with planner := { task.planner with
        received
        workers := task.planner.workers.insert id { planned with
          receiving := true } } } .overrun
  | ended {planned : SegmentPlanner.Worker F} (received : RangeSet)
      (hfind : task.planner.workers.find? id = some planned)
      (hdone : planned.stop ≤ planned.position) :
      LastRound id task ({ task with planner := { task.planner with
        received
        workers := task.planner.workers.insert id { planned with
          receiving := true } } }.updateWorker id fun worker =>
            { worker with done := true }) .ended

variable {t next n a : HttpTask F} {rest chunk left : List UInt8}
  {planned pl : SegmentPlanner.Worker F} {r : Nat} {w : Worker}

theorem consume_round (f : Facts F) {id : Int} (hf : t.planner.workers.find? id = some pl)
    (hre : rest ≠ []) : (∃ a left, Round f id t rest a left ∧
        ∀ r, consume f id (r + 1) t rest = consume f id r a left) ∨
      ∃ a how, LastRound id t a how ∧ ∀ r, consume f id (r + 1) t rest = some (a, rest, how) := by
  have hr := SegmentPlanner.receive_of_find hf rest.length
  have hby : 0 < rest.length := List.length_pos_iff.mpr hre
  dsimp only at hr
  generalize hu : clampInt (pl.stop - pl.position) 0 rest.length = usable at hr
  generalize t.planner.received.add pl.position (pl.position + usable) = received at hr
  by_cases hp : 0 < usable
  · obtain ⟨n, rfl⟩ := Int.eq_ofNat_of_zero_le hp.le
    have hb : n ≤ rest.length ∧ pl.position + n ≤ pl.stop := by
      rw [clampInt] at hu
      split_ifs at hu <;> omega
    refine .inl ⟨_, _, .bytes received hf (by omega) hb.1 hb.2, fun r => ?_⟩
    rw [consume, if_neg hre]
    simp only [hf, hr, hp, ↓reduceIte, Int.toNat_natCast]
  · have hz : usable = 0 ∧ pl.stop ≤ pl.position := by
      rw [clampInt] at hu
      split_ifs at hu <;> omega
    obtain ⟨rfl, hdo⟩ := hz
    rw [add_zero] at hr
    let p : SegmentPlanner F := { t.planner with
      received
      workers := t.planner.workers.insert id { pl with receiving := true } }
    have hpl : p.workers.find? id = some { pl with receiving := true } := find?_insert_self _ _ _
    obtain ⟨e, he, hext⟩ := SegmentPlanner.extend_extended hpl
    have hc : ∀ r, consume f id (r + 1) t rest = if e.extended then
          consume f id r (e.cancelled.elim { t with planner := e.planner } fun o =>
            { t with planner := e.planner }.cancelWorker f.now o) rest
        else if e.planner.length ≥ 0 ∧ pl.position ≥ e.planner.length then
          some ({ t with planner := e.planner }, rest, .overrun)
        else some ({ t with planner := e.planner }.updateWorker id
          fun w => { w with done := true }, rest, .ended) := by
      intro r
      rw [consume, if_neg hre]
      simp only [hf, hr, lt_irrefl, ↓reduceIte]
      rewrite [he]
      dsimp only
      cases e.cancelled <;> rfl
    cases hext with
    | finished =>
      refine .inr ?_
      by_cases hpa : t.planner.length ≥ 0 ∧ pl.position ≥ t.planner.length
      · refine ⟨_, _, .overrun received hf hdo hpa.1 hpa.2, fun r => ?_⟩
        rw [hc, if_neg (by simp), if_pos hpa]
      · refine ⟨_, _, .ended received hf hdo, fun r => ?_⟩
        rw [hc, if_neg (by simp), if_neg hpa]
    | takeover ho hne hpo hs hm =>
      have hn := (find?_eq_some_iff _ _ _).mpr ho
      rw [find?_insert_of_ne _ _ hne] at hn
      refine .inl ⟨_, _, .takeover received hf hdo hn hne hpo hm, fun r => ?_⟩
      rw [hc]
      simp [p]
    | gap hlo hreq hl hfr =>
      refine .inl ⟨_, _, .gap received hf hdo hlo hreq hl, fun r => ?_⟩
      rw [hc]
      simp [p]

variable {f : Facts F} {id : Int}

theorem consume_eq_none (hf : t.planner.workers.find? id = none) (hr : rest ≠ []) (r : Nat) :
    consume f id r t rest = none := by
  cases r with
  | zero => rfl
  | succ r =>
    rw [consume, if_neg hr]
    simp only [hf]

/-- What every round preserves holds when the loop ends. -/
theorem consume_end {motive : HttpTask F → List UInt8 → Prop} {f : Facts F} {id : Int}
    (hro : ∀ {t rest a left}, Round f id t rest a left → motive t rest → motive a left)
    {how : ChunkEnd} (hc : consume f id r t chunk = some (n, left, how)) (hs : motive t chunk) :
    motive n left ∧ left = [] ∧ how = .used ∨
      ∃ b, motive b left ∧ left ≠ [] ∧ LastRound id b n how := by
  induction r generalizing t chunk with
  | zero => simp [consume] at hc
  | succ r ih =>
    by_cases hr : chunk = []
    · subst hr
      rw [consume, if_pos rfl] at hc
      obtain ⟨rfl, rfl, rfl⟩ := hc
      exact .inl ⟨hs, rfl, rfl⟩
    · cases hf : t.planner.workers.find? id with
      | none =>
        rw [consume_eq_none hf hr] at hc
        contradiction
      | some pl =>
        rcases consume_round f hf hr with
          ⟨a, rest, hn, he⟩ | ⟨a, last, hl, he⟩
        · rw [he] at hc
          exact ih hc (hro hn hs)
        · rw [he] at hc
          obtain ⟨rfl, rfl, rfl⟩ := hc
          exact .inr ⟨t, hs, hr, hl⟩

/-- What the parts of the loop preserve, the loop preserves. -/
theorem consume_preserve {motive : HttpTask F → Prop} {f : Facts F} {id : Int}
    (hp : ∀ t planner, motive t → motive { t with planner })
    (hk : ∀ t b d, motive t → motive (t.keepBytes f id b d))
    (hca : ∀ t o, motive t → motive (t.cancelWorker f.now o))
    (hdo : ∀ t, motive t → motive (t.updateWorker id fun w => { w with done := true })) {r : Nat}
    {t n : HttpTask F} {c left : List UInt8} {how : ChunkEnd}
    (hc : consume f id r t c = some (n, left, how)) (ht : motive t) : motive n := by
  have he := consume_end (motive := fun t _ => motive t) (fun hr ht => by
      cases hr with
      | bytes => exact hk _ _ _ (hp _ _ ht)
      | takeover => exact hca _ _ (hp _ _ ht)
      | gap => exact hp _ _ ht) hc ht
  rcases he with ⟨hn, _⟩ | ⟨b, hb, _, hl⟩
  · exact hn
  · cases hl with
    | overrun => exact hp _ _ hb
    | ended => exact hdo _ (hp _ _ hb)

theorem keepBytes_planner (t : HttpTask F) (f : Facts F) (id b : Int) (d : List UInt8) :
    (t.keepBytes f id b d).planner = t.planner := by
  rw [keepBytes]
  cases t.workers.find? id with
  | _ => rfl

theorem flush_planner (t : HttpTask F) (id : Int) : (t.flush id).planner = t.planner := by
  rw [flush]
  cases t.workers.find? id with
  | none => rfl
  | some w =>
    dsimp only
    split_ifs <;> rfl

theorem noteRate_workers (p : SegmentPlanner F) (now : Int) (w : Worker) :
    (noteRate p now w).workers = p.workers := by
  rw [noteRate]
  split_ifs <;> rfl

theorem retireWorker_planned {id : Int} (now : Int) (hf : t.workers.find? id = some w) :
    (t.retireWorker now id).planner.workers = t.planner.workers.erase id := by
  rw [retireWorker, hf]
  exact congrArg (fun wo => erase wo id) (noteRate_workers t.planner now w)

theorem flush_find_self {id : Int} (hf : t.workers.find? id = some w) :
    ∃ f, (t.flush id).workers.find? id = some f := by
  rw [flush, hf]
  dsimp only
  split_ifs
  · exact ⟨w, hf⟩
  · exact ⟨_, find?_insert_self _ _ _⟩
  · exact ⟨_, find?_insert_self _ _ _⟩
  · exact ⟨_, find?_insert_self _ _ _⟩

theorem cancelWorker_planned (t : HttpTask F) (now id : Int) :
    (t.cancelWorker now id).planner.workers = t.planner.workers.erase id := by
  rw [cancelWorker]
  cases hfi : t.workers.find? id with
  | none => rfl
  | some w =>
    obtain ⟨f, hf⟩ := flush_find_self hfi
    rw [retireWorker_planned now hf, flush_planner]

theorem cancelWorker_length (t : HttpTask F) (now id : Int) :
    (t.cancelWorker now id).planner.length = t.planner.length := by
  rw [cancelWorker]
  cases hfi : t.workers.find? id with
  | none => rfl
  | some w =>
    obtain ⟨f, hf⟩ := flush_find_self hfi
    rw [retireWorker, hf]
    dsimp only [SegmentPlanner.release]
    rw [noteRate, flush_planner]
    split_ifs <;> rfl

/-- The rounds a chunk can take: two for each byte, one for each connection
and one for an assignment that is used up. -/
def roundsLeft (task : HttpTask F) (planned : SegmentPlanner.Worker F) (rest : List UInt8) : Nat :=
  2 * rest.length + task.planner.workers.entries.length +
    if planned.stop ≤ planned.position then 1 else 0

theorem Round.ordered (hr : Round f id t rest a left)
    (ho : SegmentPlanner.Ordered t.planner.workers) : SegmentPlanner.Ordered a.planner.workers := by
  cases hr with
  | bytes rs hf hpo hle hs =>
    rw [keepBytes_planner]
    exact ho.insert id hs
  | @takeover p n rs o hf hdo hot hne hp hm =>
      have hown := ho id p hf
      have hn := ho o n hot
      have hs : p.position ≤ min p.requestEnd n.stop := le_min (by omega) (by omega)
      rw [cancelWorker_planned]
      exact ((ho.insert id hs).erase o).erase o
  | gap rs hf hdo hlo hre hl =>
    have hown := ho id _ hf
    exact ho.insert id (by dsimp only; omega)

/-- Every round keeps the planner's entry and where the rest of the chunk
belongs, and leaves fewer rounds. -/
theorem Round.progress (hr : Round f id t rest a left) (hp : t.planner.workers.find? id = some pl)
    (hor : SegmentPlanner.Ordered t.planner.workers) : ∃ n, a.planner.workers.find? id = some n ∧
      n.position + left.length = pl.position + rest.length ∧ a.planner.length = t.planner.length ∧
      a.roundsLeft n left < t.roundsLeft pl rest := by
  have hown := hor id pl hp
  cases hr with
  | bytes received hf hpos hle hs =>
    cases hf.symm.trans hp
    rw [keepBytes_planner]
    refine ⟨_, find?_insert_self _ _ _, ?_, rfl, ?_⟩
    · simp only [List.length_drop]
      omega
    · rw [roundsLeft, roundsLeft, keepBytes_planner, length_insert_of_find hp, List.length_drop]
      split_ifs <;> omega
  | @takeover _ n received o hf hdo ho hn hpo hm =>
    cases hf.symm.trans hp
    generalize hw : t.planner.workers.insert id { pl with
      stop := min pl.requestEnd n.stop, receiving := true } = workers
    have hk : ({ t with planner := { t.planner with
        received, workers := workers.erase o } }.cancelWorker f.now
          o).planner.workers = (workers.erase o).erase o := cancelWorker_planned _ _ _
    have ho : workers.find? o = some n := by
      rw [← hw, find?_insert_of_ne _ _ hn, ho]
    have hc : workers.entries.length = t.planner.workers.entries.length := by
      rw [← hw, length_insert_of_find hp]
    have he := length_erase_of_find ho
    have hle := (workers.erase o).length_erase_le o
    refine ⟨{ pl with stop := min pl.requestEnd n.stop, receiving := true }, ?_, rfl,
      cancelWorker_length _ _ _, ?_⟩
    · rw [hk, find?_erase_of_ne _ hn.symm, find?_erase_of_ne _ hn.symm, ← hw, find?_insert_self]
    · rw [roundsLeft, roundsLeft, hk]
      split_ifs <;> omega
  | gap received hf hdo hlo hre hl =>
    cases hf.symm.trans hp
    refine ⟨_, find?_insert_self _ _ _, rfl, rfl, ?_⟩
    rw [roundsLeft, roundsLeft, length_insert_of_find hp, if_pos hdo, if_neg (by dsimp only; omega)]
    omega

/-- The loop answers for a connection the planner knows. -/
theorem consume_isSome (hp : t.planner.workers.find? id = some pl)
    (ho : SegmentPlanner.Ordered t.planner.workers) (hro : t.roundsLeft pl rest ≤ r) :
    (consume f id r t rest).isSome := by
  induction r generalizing t rest pl with
  | zero =>
    have hpo := List.length_pos_of_mem ((find?_eq_some_iff _ _ _).mp hp)
    rw [roundsLeft] at hro
    omega
  | succ r ih =>
    by_cases hre : rest = []
    · rw [consume, if_pos hre]
      rfl
    · rcases consume_round f hp hre with
        ⟨a, left, hr, he⟩ | ⟨a, how, hl, he⟩
      · obtain ⟨n, hn, _, _, hf⟩ := hr.progress hp ho
        rw [he]
        exact ih hn (hr.ordered ho) (by omega)
      · rw [he]
        rfl

/-- A chunk that ends inside the file is no overrun. -/
theorem consume_ne_overrun (hp : t.planner.workers.find? id = some planned)
    (ho : SegmentPlanner.Ordered t.planner.workers)
    (hfi : planned.position + chunk.length ≤ t.planner.length) :
    consume f id r t chunk ≠ some (next, left, .overrun) := by
  intro hc
  have he := consume_end (motive := fun t rest =>
    SegmentPlanner.Ordered t.planner.workers ∧ ∃ planned,
      t.planner.workers.find? id = some planned ∧
        planned.position + (rest.length : Int) ≤ t.planner.length)
    (fun hr hb => by
      obtain ⟨ho, planned, hf, hfi⟩ := hb
      obtain ⟨next, hn, hpo, hl, _⟩ := hr.progress hf ho
      exact ⟨hr.ordered ho, next, hn, by omega⟩)
    hc ⟨ho, planned, hp, hfi⟩
  rcases he with ⟨_, _, hu⟩ | ⟨before, ⟨_, planned, hf, hfi⟩, hle, hla⟩
  · contradiction
  · cases hla with
    | overrun received hf' hdo hl hpa =>
      cases hf.symm.trans hf'
      have hpos := List.length_pos_iff.mpr hle
      omega

end HttpTask

end Aria2Next
