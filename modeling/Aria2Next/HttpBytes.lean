/-
Where received bytes go.  Whatever the planner assigns, splits, races,
extends or releases, a byte that is handed to the disk at some offset is the
byte of the response body that the request placed there, and it lies inside
the range the connection asked for and inside the file.

The invariant is proved move by move.  The loop over a chunk is one move and
has its own invariant, in which the rest of the chunk is what the body still
holds beyond the planner's position.
-/
import Aria2Next.HttpLane

namespace Aria2Next.HttpTask

open Runs OrdMap Function

universe u

variable {F : Type u} [Double F] 

/-- What the planner hands out is inside the file, and only the end of one
other assignment may move, to an earlier offset. -/
structure Handed (planner next : SegmentPlanner F) (id begin requestEnd : Int) :
    Prop where
  length : next.length = planner.length
  minSplit : next.minSplit = planner.minSplit
  span : ∃ stop request, next.spans id = some (begin, stop, request) ∧
    0 ≤ begin ∧ begin ≤ stop ∧ stop ≤ request ∧
    (requestEnd = unbounded ∨ request ≤ requestEnd) ∧
    (0 ≤ planner.length → stop ≤ planner.length)
  others : ∀ other, other ≠ id → next.spans other = planner.spans other ∨
    ∃ span cut, planner.spans other = some span ∧
      next.spans other = some (span.1, cut, span.2.2) ∧ span.1 ≤ cut ∧ cut ≤ span.2.1

variable {p next n : SegmentPlanner F} {id requestEnd r : Int} {w : Worker}

theorem handed_insert (w : SegmentPlanner.Worker F) (hl : n.length = p.length)
    (hm : n.minSplit = p.minSplit) (hw : n.workers = p.workers.insert id w) (hn : 0 ≤ w.position)
    (hp : w.position ≤ w.stop) (hst : w.stop ≤ w.requestEnd)
    (hr : r = unbounded ∨ w.requestEnd ≤ r) (hi : 0 ≤ p.length → w.stop ≤ p.length) :
    Handed p n id w.position r := by
  have hs := p.spans_insert w hw
  refine ⟨hl, hm, ⟨w.stop, w.requestEnd, ?_, hn, hp, hst, hr, hi⟩, fun o ho => .inl ?_⟩
  · rw [hs, update_self]
  · rw [hs, update_of_ne ho]

theorem Planned.handed {b : Int} (hpl : Planned p id n b requestEnd) (hm : 1 ≤ p.minSplit)
    (hspa : ∀ o s, p.spans o = some s → 0 ≤ s.1 ∧ s.1 ≤ s.2.1 ∧ (0 ≤ p.length → s.2.1 ≤ p.length)) :
    Handed p n id b requestEnd := by
  cases hpl with
  | place r hre =>
    have hst : 0 ≤ (if p.length ≥ 0 then min r p.length
          else r) ∧
        (if p.length ≥ 0 then min r p.length
          else r) ≤ r ∧
        (0 ≤ p.length → (if p.length ≥ 0
          then min r p.length else r) ≤ p.length) := by
      have hun : 0 ≤ unbounded := by decide
      split_ifs with hl
      · exact ⟨le_min (by omega) hl, min_le_left _ _, fun _ => min_le_right _ _⟩
      · exact ⟨by omega, le_rfl, fun h => absurd h hl⟩
    exact handed_insert { SegmentPlanner.freshWorker (0, _) with
      requestEnd := r } rfl rfl rfl le_rfl hst.1 hst.2.1 (.inl rfl) hst.2.2
  | @assign ra n hass =>
    have ha := p.assign_assigned id
    rw [hass] at ha
    have hsp : ∀ e ∈ p.workers.entries, 0 ≤ e.2.position ∧ e.2.position ≤ e.2.stop ∧
          (0 ≤ p.length → e.2.stop ≤ p.length) := by
      intro e he
      have hf := (find?_eq_some_iff _ _ _).mpr he
      exact hspa e.1 _ (SegmentPlanner.spans_eq_some hf)
    cases ha with
    | gap hfr =>
      exact handed_insert (SegmentPlanner.freshWorker ra) rfl rfl rfl
        hfr.nonneg hfr.nonempty.le le_rfl (.inr le_rfl) fun _ => hfr.le_length
    | race hle hu hr =>
      obtain ⟨hn, hp, hi⟩ := hsp _ hle
      subst hr
      exact handed_insert (SegmentPlanner.freshWorker (_, _)) rfl rfl rfl
        hn hp le_rfl (.inr le_rfl) hi
    | @split v hv hlo _ hr =>
      obtain ⟨hn, hp, hi⟩ := hsp _ hv
      have hc := SegmentPlanner.splitCut_bounds hm hn hlo
      have hf := (find?_eq_some_iff _ _ _).mpr hv
      have hold := SegmentPlanner.spans_eq_some hf
      generalize p.splitCut _ v.2 = cut at hr hc
      subst hr
      let victims : SegmentPlanner F := { p with
        workers := p.workers.insert v.1 { v.2 with stop := cut } }
      have hvi : victims.spans = update p.spans v.1 (some (v.2.position, cut, v.2.requestEnd)) :=
        p.spans_insert { v.2 with stop := cut } rfl
      have hne : ({ p with
          workers := victims.workers.insert id (SegmentPlanner.freshWorker (cut, v.2.stop)) } :
              SegmentPlanner F).spans = update victims.spans id (some (cut, v.2.stop, v.2.stop)) :=
        victims.spans_insert (SegmentPlanner.freshWorker (cut, v.2.stop)) rfl
      rw [hvi] at hne
      refine ⟨rfl, rfl, ⟨v.2.stop, v.2.stop, ?_,
        hn.trans hc.1.le, hc.2.le, le_rfl, .inr le_rfl, hi⟩, fun o ho => ?_⟩
      · exact (congrFun hne id).trans (update_self _ _ _)
      · have hs := (congrFun hne o).trans (update_of_ne ho _ _)
        by_cases hv : o = v.1
        · refine .inr ⟨_, cut, hv ▸ hold, ?_, hc.1.le, hc.2.le⟩
          rw [hv, update_self] at hs
          rw [hv]
          exact hs
        · rw [update_of_ne hv] at hs
          exact .inl hs

/-- The invariant of the loop over a chunk: the rest of the chunk is what the
body holds beyond the position, unless the file ends there. -/
structure Looping (task : HttpTask F) (id : Int) (rest : List UInt8) :
    Prop where
  sound : task.frame.lane.Sound {id}
  phase : task.phase = .opening ∨ task.phase = .running
  rest : ∃ worker span, task.workers.find? id = some worker ∧ task.planner.spans id = some span ∧
      (worker.body.drop (span.1 - worker.begin).toNat = rest ∨
        0 ≤ task.planner.length ∧ task.planner.length ≤ span.1)

theorem keepBytes_eq (t : HttpTask F) (f : Facts F) (b : Int) (d : List UInt8)
    (hf : t.workers.find? id = some w) : ∃ n : Worker, (t.keepBytes f id b d).frame.lane =
        { t.frame.lane with workers := t.workers.insert id n } ∧
      n.begin = w.begin ∧ n.body = w.body ∧ n.requestEnd = w.requestEnd ∧
      n.bufferOffset = (if w.buffer = [] then b
        else w.bufferOffset) ∧
      n.buffer = w.buffer ++ d := by
  rw [keepBytes, hf]
  exact ⟨_, rfl, rfl, rfl, rfl, rfl, rfl⟩

theorem flush_with_planner (t : HttpTask F) (planner : SegmentPlanner F)
    (hl : planner.length = t.planner.length) (id : Int) :
    ({ t with planner } : HttpTask F).flush id = { t.flush id with planner } := by
  rw [flush, flush]
  rcases t.workers.find? id with _ | w
  · rfl
  · dsimp only
    split_ifs
    · rfl
    · rfl
    · rw [write, write]
      dsimp only [queue]
      rw [hl]
    · rfl

/-- The connection in the loop moves on, in the task and in the planner. -/
theorem Looping.advance {a : HttpTask F} {l : Lane} {left : List UInt8} {next : Worker}
    {s moved : Int × Int × Int} (hs : l.Sound {id})
    (hph : l.phase = .opening ∨ l.phase = .running) (hf : l.workers.find? id = some w)
    (hspa : l.spans id = some s) (hl : a.frame.lane = { l with
      workers := l.workers.insert id next
      spans := update l.spans id (some moved) })
    (hpl : next.Placed l.length moved) (hp : s.1 ≤ moved.1)
    (hb : next.begin = w.begin) (hbo : next.body = w.body)
    (hr : next.body.drop (moved.1 - next.begin).toNat = left ∨
      0 ≤ l.length ∧ l.length ≤ moved.1) : a.Looping id left := by
  have hw : a.workers = l.workers.insert id next := congrArg Lane.workers hl
  have hsp : a.planner.spans = update l.spans id (some moved) := congrArg Lane.spans hl
  have hle : a.planner.length = l.length := congrArg Lane.length hl
  refine ⟨?_, ?_, next, moved, ?_, ?_, ?_⟩
  · rw [hl]
    exact hs.advance hf hspa hpl hp hb hbo
  · have hsa : a.phase = l.phase := congrArg Lane.phase hl
    rw [hsa]
    exact hph
  · rw [hw, find?_insert_self]
  · rw [hsp, update_self]
  · rw [hle]
    exact hr

section

variable {t : HttpTask F}

variable {id begin b requestEnd r : Int} {w : Worker} {pl : SegmentPlanner.Worker F}
  {facts : Facts F} {rest left : List UInt8} {next n : HttpTask F} {p : SegmentPlanner F}
  {lane l : Lane} {i : Nat}

/-- The bytes' view of a round that takes over a neighbour's range. -/
theorem takeover_lane {now o : Int} {n : Worker} {received : RangeSet}
    (hn : t.workers.find? o = some n) (hne : o ≠ id)
    (hk : ((t.flush o).workers.erase o).find? id = some w) : ({ t with planner := { t.planner with
        received
        workers := (t.planner.workers.insert id pl).erase o
        } }.cancelWorker now o).frame.lane =
      { (t.flush o).frame.lane with
        workers := ((t.flush o).workers.erase o).insert id w
        spans := update (update
          (t.flush o).planner.spans o none) id (some (pl.position, pl.stop, pl.requestEnd)) } := by
  let joined : SegmentPlanner F := { t.planner with
    workers := t.planner.workers.insert id pl }
  let planner : SegmentPlanner F := { t.planner with
    received
    workers := (t.planner.workers.insert id pl).erase o }
  have hj : joined.spans = update t.planner.spans id (some (pl.position, pl.stop, pl.requestEnd)) :=
    t.planner.spans_insert pl rfl
  have hp : planner.spans = update joined.spans o none := joined.spans_erase rfl
  obtain ⟨f, hf⟩ := flush_find_self hn
  have hc : ({ t with planner } : HttpTask F).cancelWorker now o =
      ({ t.flush o with planner } : HttpTask F).retireWorker now o := by
    rw [cancelWorker]
    rw [hn]
    exact congrArg (fun t => HttpTask.retireWorker t now o) (flush_with_planner t planner rfl o)
  rw [hc, retireWorker_lane { t.flush o with planner } now hf]
  refine Lane.ext (insert_eq_self hk).symm rfl ?_ ?_ ?_ rfl rfl rfl
    rfl
  · rw [hp, hj, flush_planner, update_idem, update_comm hne]
  · exact congrArg SegmentPlanner.length (flush_planner t o).symm
  · exact congrArg SegmentPlanner.minSplit (flush_planner t o).symm

/-- A round keeps what is known of the loop. -/
theorem Round.looping {t after : HttpTask F} (hro : Round facts id t rest after left)
    (hlo : t.Looping id rest) : after.Looping id left := by
  obtain ⟨hs, hph, worker, span, hw, hsp, hr⟩ := hlo
  obtain ⟨span', hs', hp⟩ := hs.placed id worker hw
  cases hsp.symm.trans hs'
  cases hro with
  | @bytes p received u hf hpos hle hst =>
    cases hsp.symm.trans (SegmentPlanner.spans_eq_some hf)
    have hbe := hp.begin_le
    have hr : worker.body.drop (p.position - worker.begin).toNat = rest := by
      rcases hr with h | ⟨hl, hpa⟩
      · exact h
      · have hi : p.stop ≤ t.planner.length := hp.inside hl
        omega
    have hc : rest.length = worker.body.length - (p.position - worker.begin).toNat := by
      rw [← hr, List.length_drop]
    obtain ⟨next, hla, hfie⟩ := keepBytes_eq { t with
      planner := { t.planner with
        received
        workers := t.planner.workers.insert id { p with
          position := p.position + u, receiving := true } } } facts p.position (rest.take u) hw
    obtain ⟨hsa, hb, hre, hof, hbu⟩ := hfie
    refine .advance hs hph hw hsp ?_ (hp.keep ?_ hst ⟨hsa, hb, hre⟩ hof ?_) ?_ hsa hb ?_
    · rw [hla, Frame.lane, frame, SegmentPlanner.spans_insert t.planner { p with
          position := p.position + u, receiving := true } rfl]
      rfl
    · omega
    · rw [hbu, ← hr]
    · omega
    · refine .inl ?_
      rw [← hr, List.drop_drop]
      congr 1
      omega
  | @takeover p next received o hf hdo ho hne hpo hmo =>
      cases hsp.symm.trans (SegmentPlanner.spans_eq_some hf)
      -- the neighbour ends first; then the connection takes its range
      obtain ⟨n, hn⟩ := hs.known o _ (SegmentPlanner.spans_eq_some ho)
      obtain ⟨taken, ht, hfi⟩ := hs.placed o n hn
      cases ht.symm.trans (SegmentPlanner.spans_eq_some ho)
      have hown : p.position ≤ p.stop := hp.position_le
      have hnex : next.position ≤ next.stop := hfi.position_le
      have hm : worker.Placed t.planner.length (p.position,
          min p.requestEnd next.stop, p.requestEnd) := { hp with
          position_le := le_min (by omega) (by dsimp only; omega)
          stop_le := min_le_left _ _
          inside := fun h => (min_le_right _ _).trans (hfi.inside h) }
      have hq := (flush_sound hs (by
        rcases hph with h | h
        · simp [h]
        · simp [h]) o).erase o
      have hk : ((t.flush o).workers.erase o).find? id = some worker := by
        rw [find?_erase_of_ne _ hne.symm, flush_find_of_ne t hne.symm]
        exact hw
      have hspa : update (t.flush o).planner.spans o none
          id = some (p.position, p.stop, p.requestEnd) := by
        rw [update_of_ne hne.symm, flush_planner]
        exact hsp
      have hsa : (t.flush o).phase = t.phase := congrArg Title.phase (flush_title t o)
      have hl : (t.flush o).planner.length = t.planner.length :=
        congrArg SegmentPlanner.length (flush_planner t o)
      refine .advance hq (hsa.symm ▸ hph : (t.flush
        o).phase = .opening ∨ (t.flush o).phase = .running) hk
        hspa ?_ (hl.symm ▸ hm : worker.Placed (t.flush
          o).planner.length _) (le_refl p.position) rfl rfl
        (hl.symm ▸ hr : _ ∨ 0 ≤ (t.flush o).planner.length ∧ (t.flush o).planner.length ≤ _)
      exact takeover_lane hn hne hk
  | @gap p received stop hf hdo hlon hre hl =>
    cases hsp.symm.trans (SegmentPlanner.spans_eq_some hf)
    have hown : p.position ≤ p.stop := hp.position_le
    have hm : worker.Placed t.planner.length (p.position, stop, p.requestEnd) := { hp with
        position_le := by dsimp only; omega
        stop_le := hre
        inside := hl }
    refine Looping.advance hs hph hw hsp ?_ hm (le_refl p.position) rfl rfl hr
    exact Lane.ext (insert_eq_self hw).symm rfl
      (t.planner.spans_insert { p with stop, receiving := true } rfl)
      rfl rfl rfl rfl rfl rfl

/-- The planner's entry is touched, but nothing about its range. -/
theorem touched_lane (received : RangeSet) (hf : t.planner.workers.find? id = some pl) :
    ({ t with planner := { t.planner with
      received
      workers := t.planner.workers.insert id { pl with
        receiving := true } } } : HttpTask F).frame.lane = t.frame.lane := by
  refine Lane.ext rfl rfl ?_ rfl rfl rfl rfl rfl rfl
  refine (t.planner.spans_insert { pl with receiving := true }
    rfl).trans ?_
  rw [← SegmentPlanner.spans_eq_some hf, update_eq_self]
  rfl

theorem Looping.settled (hlo : t.Looping id rest)
    (hl : ∀ worker span, t.workers.find? id = some worker → t.planner.spans id = some span →
      (worker.body.drop (span.1 - worker.begin).toNat = rest ∨
        0 ≤ t.planner.length ∧ t.planner.length ≤ span.1) →
      worker.Placed t.planner.length span → worker.Level t.planner.length span) :
    t.frame.lane.Sound ∅ := by
  obtain ⟨hso, _, worker, span, hw, hs, hr⟩ := hlo
  refine hso.tighten fun g o hf ho => ?_
  cases hw.symm.trans hf
  cases hs.symm.trans ho
  obtain ⟨own, hown, hp⟩ := hso.placed id worker hw
  cases hs.symm.trans hown
  exact hl worker span hw hs hr hp

theorem consume_sound {r : Nat} {t : HttpTask F} {worker : Worker} {c : List UInt8}
    {how : ChunkEnd} (hs : t.frame.lane.Sound ∅) (hf : t.workers.find? id = some worker)
    (hdo : worker.done = false) (hph : t.phase = .opening ∨ t.phase = .running)
    (hc : consume facts id r { t with
      workers := t.workers.insert id { worker with body := worker.body ++ c } } c =
          some (n, left, how)) : n.frame.lane.Sound ∅ := by
  obtain ⟨span, hsp, hp⟩ := hs.placed id worker hf
  have hst : ({ t with
      workers := t.workers.insert id
        { worker with body := worker.body ++ c } } : HttpTask F).Looping id c := by
    refine ⟨?_, hph, _, span, find?_insert_self _ _ _, hsp, ?_⟩
    · refine (hs.loosen {id}).insert hf (fun _ h => h.extend c)
        (fun h => absurd rfl h) fun hpr => ?_
      rcases hph with h | h <;> cases hpr.symm.trans h
    · have hle := hs.level id worker span (Set.notMem_empty id) hf hsp hdo
      refine hle.imp_left fun hle => ?_
      dsimp only
      exact List.drop_left' (by omega)
  have he := consume_end (motive := fun t re => t.Looping id re)
    (fun hro hl => hro.looping hl) hc hst
  rcases he with ⟨hl, hn, _⟩ | ⟨before, hl, _, hla⟩
  · refine hl.settled fun worker span _ _ hr hp _ => ?_
    refine hr.imp_left fun hr => ?_
    have hre := hp.reached
    have hb := hp.begin_le
    rw [hn, List.drop_eq_nil_iff] at hr
    omega
  · cases hla with
    | overrun rs hf hdo hlen hpa =>
      rw [touched_lane rs hf]
      refine hl.settled fun worker span _ hsp _ _ _ => .inr ?_
      cases hsp.symm.trans (SegmentPlanner.spans_eq_some hf)
      exact ⟨hlen, hpa⟩
    | ended rs hf hdo =>
      obtain ⟨hs, _, worker, _, hw, _⟩ := hl
      have ht := touched_lane rs hf
      rw [updateWorker]
      rw [hw]
      have hi : ({ before.frame.lane with workers := before.workers.insert id { worker with
            done := true } } : Lane).Sound {id} :=
        hs.insert hw (fun _ h => h.congr rfl) (fun h => absurd rfl h) fun _ h => h
      rw [← ht] at hi
      refine hi.tighten fun g span hfo _ ho => ?_
      cases (find?_insert_self _ _ _).symm.trans hfo
      contradiction

section

variable (hs : t.frame.lane.Sound ∅)

include hs

/-- A launch or a refused launch takes nothing from the others. -/
theorem Handed.shrinks (hh : Handed t.planner p t.nextWorkerId b r) :
    ({ t.frame.lane with spans := update p.spans t.nextWorkerId none } : Lane).Sound ∅ := by
  refine hs.shrink fun o => ?_
  by_cases ho : o = t.nextWorkerId
  · subst ho
    rw [update_self]
    exact .inl hs.spans_fresh.symm
  · rw [update_of_ne ho]
    exact hh.others o ho

theorem planned_handed (hpl : Planned t.planner id p b r) :
    Handed t.planner p id b r := by
  refine hpl.handed hs.minSplit fun o s hsp => ?_
  obtain ⟨w, hf⟩ := hs.known o s hsp
  obtain ⟨own, ho, hp⟩ := hs.placed o w hf
  cases hsp.symm.trans ho
  exact ⟨hp.nonneg.trans hp.begin_le, hp.position_le, hp.inside⟩

theorem launch_sound {planner : SegmentPlanner F}
    (hpla : Planned t.planner t.nextWorkerId planner w.begin w.requestEnd) (hf : w.Fresh)
    (hph : t.phase = .probing ∧ w.begin = 0 ∨ t.phase = .running ∧
        (t.planner.length < 0 → t.workers = ∅)) (sources : List Source) : ({ t with
      nextWorkerId := t.nextWorkerId + 1
      planner
      sources
      workers := t.workers.insert t.nextWorkerId w } :
        HttpTask F).frame.lane.Sound ∅ := by
  have hh := planned_handed hs hpla
  obtain ⟨stop, request, hsp, hn, hp, hst, hr, hi⟩ := hh.span
  have hpl : w.Placed t.planner.length (w.begin, stop, request) :=
    { nonneg := hn
      begin_le := le_rfl
      reached := by
        omega
      position_le := hp
      stop_le := hst
      requested := hr
      inside := hi
      buffered := fun h => absurd hf.buffer h
      buffer_begin := fun h => absurd hf.buffer h
      buffer_slice := fun h => absurd hf.buffer h }
  have ha := (hh.shrinks hs).add hpl hf.body hph
  refine ha.of_eq (Lane.ext rfl rfl ?_ hh.length hh.minSplit rfl
    rfl rfl rfl)
  change planner.spans = update (update planner.spans t.nextWorkerId none) t.nextWorkerId _
  rw [update_idem]
  exact (update_eq_self_iff.mpr hsp.symm).symm

theorem decline_sound (hp : Planned t.planner t.nextWorkerId p b r) :
    ({ t with
      nextWorkerId := t.nextWorkerId + 1
      planner := p.release t.nextWorkerId } : HttpTask F).frame.lane.Sound ∅ := by
  have hh := planned_handed hs hp
  have hsh := hh.shrinks hs
  have hl : ({ t.frame.lane with
      nextWorkerId := t.nextWorkerId + 1
      spans := update p.spans t.nextWorkerId none } : Lane).Sound ∅ := { hsh with
      fresh := fun id w hf =>
        (hs.fresh id w hf).trans (Int.lt_succ _) }
  exact hl.of_eq (Lane.ext rfl rfl (p.spans_erase rfl) hh.length hh.minSplit rfl rfl rfl rfl)

end

/-- Before the first answer every connection is at the start of the file. -/
theorem Lane.Sound.start {l : Set Int} (hs : lane.Sound l) (hph : lane.phase = .probing)
    {s : Int × Int × Int} (hsp : lane.spans id = some s) : s.1 = 0 := by
  obtain ⟨w, hf⟩ := hs.known id s hsp
  obtain ⟨own, ho, hp⟩ := hs.placed id w hf
  cases hsp.symm.trans ho
  obtain ⟨hb, hbo⟩ := hs.virgin hph id w hf
  have hl := hp.begin_le
  have hr := hp.reached
  rw [hbo] at hr
  simp only [List.length_nil, Nat.cast_zero] at hr
  omega

theorem setLength_lane (t : HttpTask F) (length : Int) :
    ({ t with planner := t.planner.setLength length } : HttpTask F).frame.lane = { t.frame.lane with
        length
        spans := fun id => (t.planner.spans id).map fun s =>
          (s.1, min s.2.1 length, min s.2.2 length) } :=
  Lane.ext rfl rfl (funext (t.planner.spans_setLength length)) rfl rfl
    rfl rfl rfl rfl

section

variable (hs : t.frame.lane.Sound ∅)

include hs

theorem setLength_sound {l : Int} (hm : t.Measured l) :
    ({ t with planner := t.planner.setLength l } : HttpTask F).frame.lane.Sound ∅ := by
  rw [setLength_lane]
  cases hm with
  | quiet hno hw hh =>
    refine hs.setLength hno ?_ ?_ ?_
    · intro id s hsp
      rw [hs.spans_none hw] at hsp
      contradiction
    · intro id w s hf
      have hf : t.workers.find? id = some w := hf
      simp [hw] at hf
    · intro hop p hp
      rcases hh with h | h
      · have hp : p ∈ t.held := hp
        simp [h] at hp
      · cases hop.symm.trans h
  | @stream id st r hl hli hsp =>
    obtain ⟨w, hf⟩ := hs.known id _ hsp
    obtain ⟨own, hown, hpl⟩ := hs.placed id w hf
    cases hsp.symm.trans hown
    have hon : ∀ o s, t.planner.spans o = some s → s.1 = l := by
      intro o s ho
      rcases hli with hpr | hli
      · rw [hs.start hpr ho]
        exact (hs.start hpr hsp).symm
      · obtain ⟨n, hn⟩ := hs.known o s ho
        cases hs.single hl hli o id n w hn hf
        cases hsp.symm.trans ho
        rfl
    refine hs.setLength (hpl.nonneg.trans hpl.begin_le) ?_ ?_ ?_
    · exact fun o s ho => (hon o s ho).le
    · intro o n s hn ho hle hope
      exact (hle hope).imp_right fun h =>
        absurd h.1 (not_le.mpr hl)
    · exact fun hop p hp =>
        hs.held_stream hop hl p hp id _ hsp

theorem cancelAll_sound (hp : t.phase ≠ .finishing) (now : Int) :
    (t.cancelAll now).frame.lane.Sound ∅ := by
  have hf : (t.cancelAll now).frame.lane.Sound ∅ ∧ (t.cancelAll now).phase ≠ .finishing := by
    apply List.foldlRecOn (motive := fun t : HttpTask F =>
      t.frame.lane.Sound ∅ ∧ t.phase ≠ .finishing)
    · exact ⟨hs, hp⟩
    · rintro t ⟨hs, hp⟩ id _
      refine ⟨retireWorker_sound (flush_sound hs hp id) now id, ?_⟩
      have ht := (retireWorker_title (t.flush id) now id).trans (flush_title t id)
      have hsa : ((t.flush id).retireWorker now id).phase = t.phase := congrArg Title.phase ht
      rw [hsa]
      exact hp
  exact hf.1

theorem retireAll_sound (now : Int) :
    (t.retireAll now).frame.lane.Sound ∅ := by
  apply List.foldlRecOn (motive := fun t : HttpTask F =>
    t.frame.lane.Sound ∅)
  · exact hs
  · intro t hs id _
    exact retireWorker_sound hs now id

theorem settle_sound (hp : t.phase = .probing) (now id n : Int) :
    (t.settle now id n).frame.lane.Sound ∅ := by
  have hfo : ∀ k : List Int, (k.foldl (fun t o =>
      t.cancelWorker now o) t).frame.lane.Sound ∅ ∧
        (k.foldl (fun t o => t.cancelWorker now o) t).phase = .probing := by
    intro k
    apply List.foldlRecOn (motive := fun t : HttpTask F =>
      t.frame.lane.Sound ∅ ∧ t.phase = .probing)
    · exact ⟨hs, hp⟩
    · rintro t ⟨hs, hp⟩ o _
      exact ⟨cancelWorker_sound hs (by simp [hp]) now o, (cancelWorker_phase t now o).trans hp⟩
  rw [settle]
  obtain ⟨hs, hp⟩ := hfo (t.workers.keys.filter fun o => o ≠ id)
  generalize List.foldl _ t _ = t at *
  split_ifs with ht
  · rw [setLength_lane]
    refine hs.setLength ht ?_ ?_ ?_
    · intro o s hsp
      rw [hs.start hp hsp]
      exact ht
    · intro o w s hf hsp _ _
      obtain ⟨hb, hbo⟩ := hs.virgin hp o w hf
      refine .inl ?_
      rw [hb, hbo, hs.start hp hsp]
      rfl
    · intro ho
      cases hp.symm.trans ho
  · exact hs

end

theorem settle_title_phase (t : HttpTask F) (now id n : Int) :
    (t.settle now id n).phase = t.phase := congrArg Title.phase (settle_title t now id n)

/-- The first answer leaves one connection at the start of the file. -/
theorem define_sound (hso : t.frame.lane.Sound ∅) (hph : t.phase = .probing)
    (hfi : t.workers.find? id = some w) (now n : Int) : ({ ({ t with
        workers := t.workers.insert id { w with accepted := true } } :
          HttpTask F).settle now id n with
      phase := .opening } : HttpTask F).frame.lane.Sound ∅ := by
  have ha : ({ t with workers := t.workers.insert id { w with accepted := true } } :
        HttpTask F).frame.lane.Sound ∅ :=
    hso.insert hfi (fun _ h => { h with }) (fun _ _ h => h) (fun _ h => h)
  have hs := settle_sound ha hph now id n
  have hon := fun o => settle_find ({ t with
    workers := t.workers.insert id { w with accepted := true } } : HttpTask F) now id n o
  have hpr := (settle_title_phase ({ t with
    workers := t.workers.insert id { w with accepted := true } } : HttpTask F) now id n).trans hph
  generalize settle (F := F) _ now id n = t at *
  have hh : t.held = [] := hs.held_empty (.inl hpr)
  have hi : ∀ o next, t.workers.find? o = some next → o = id := by
    intro o next hn
    by_contra ho
    rw [hon, if_neg ho] at hn
    contradiction
  exact
    { hs with
      single := fun _ _ left right g next hf hn =>
        (hi left g hf).trans (hi right next hn).symm
      virgin := fun h => by contradiction
      held_known := fun _ _ p hp => by
        have hp : p ∈ t.held := hp
        simp [hh] at hp
      held_stream := fun _ _ p hp => by
        have hp : p ∈ t.held := hp
        simp [hh] at hp
      held_empty := fun _ => hh }

theorem opened_sound (hs : t.frame.lane.Sound ∅) (hp : t.phase = .opening) :
    (t.held.foldl write { t with phase := .running, held := [] }).frame.lane.Sound ∅ := by
  rw [foldl_write_frame]
  exact
    { hs with
      single := fun hl _ => hs.single hl (.inl hp)
      virgin := fun h => by contradiction
      held := fun _ h => by contradiction
      held_known := fun h => by contradiction
      held_stream := fun h => by contradiction
      held_empty := fun _ => rfl
      writes := by
        intro write hw
        rcases List.mem_append.mp hw with hw | hw
        · exact hs.writes write hw
        · obtain ⟨piece, hpi, rfl⟩ := List.mem_map.mp hw
          exact ⟨hs.held piece hpi, fun hl =>
            hs.held_known hp hl piece hpi⟩ }

theorem Lane.Sound.closeOutput {l : Set Int} (hs : lane.Sound l) :
    ({ lane with output := false } : Lane).Sound l :=
  { hs with
    held_empty := by
      rintro (h | h | ⟨_, h⟩)
      · exact hs.held_empty (.inl h)
      · exact hs.held_empty (.inr (.inl h))
      · contradiction }

theorem move_sound {st : Rule} {t : HttpTask F} (hmo : Move st t n) (hsta : t.frame.Staged)
    (hs : t.frame.lane.Sound ∅) : n.frame.lane.Sound ∅ := by
  cases hmo with
  | frame hfr =>
    rw [hfr]
    exact hs
  | @touch id w n hf hk hdo =>
    refine hs.insert hf (fun _ h => h.congr hk) (fun _ s hle hop => ?_) fun _ h => ?_
    · have hbo : n.body = w.body := congrArg (fun key => key.2.2.2.2.2.2.1) hk
      have hb : n.begin = w.begin := congrArg (fun key => key.2.1) hk
      rw [hbo, hb]
      refine hle ?_
      by_contra hno
      rw [hdo (by simpa using hno)] at hop
      contradiction
    · have hbo : n.body = w.body := congrArg (fun key => key.2.2.2.2.2.2.1) hk
      have hb : n.begin = w.begin := congrArg (fun key => key.2.1) hk
      rw [hbo, hb]
      exact h
  | accept hf hp =>
    exact hs.insert hf (fun _ h => { h with }) (fun _ _ h => h) fun _ h => h
  | flush id =>
    by_cases hp : t.phase = .finishing
    · have hw : t.workers = ∅ := hsta.workers_empty (by simp [frame, hp])
      rw [flush, hw]
      exact hs
    · exact flush_sound hs hp id
  | retire now id => exact retireWorker_sound hs now id
  | release hn => exact release_sound hs hn
  | launch hpl hfre hmi hor hp =>
    exact launch_sound hs hpl hfre hp _
  | decline hpl => exact decline_sound hs hpl
  | setLength hm => exact setLength_sound hs hm
  | consume hf hdo hp hc =>
    exact consume_sound hs hf hdo hp hc
  | define now total hp hf =>
    exact define_sound hs hp hf now total
  | opened hp => exact opened_sound hs hp
  | reset hp hr hst =>
    exact .of_quiet hs.minSplit rfl (fun _ => rfl) rfl hs.writes
  | @leave now phase hp =>
    have hq : phase ≠ .probing ∧ phase ≠ .opening ∧ phase ≠ .running ∧ phase ≠ .finishing := by
      rcases hp with rfl | rfl <;> decide
    have hl : ({ t with phase } : HttpTask F).frame.lane.Sound ∅ := hs.leave hq
    exact cancelAll_sound hl hq.2.2.2 now
  | @restart now hli hst =>
    have hl : ({ t with phase := .restarting } : HttpTask F).frame.lane.Sound ∅ :=
      hs.leave (by simp [frame])
    exact retireAll_sound hl now
  | closing | callback | source | forgetRecord | claim | adopt | own | rename | report => exact hs
  | idle hp => exact hs.closeOutput.leave (by simp [frame])
  | finishing hw hp ho =>
    exact .of_quiet hs.minSplit hw (hs.spans_none hw)
      (hs.held_empty (.inr (.inr ⟨hp, ho⟩))) hs.writes
  | leaveFinishing hp hne =>
    have hw := hsta.workers_empty (by simp [frame, hp])
    exact .of_quiet hs.minSplit hw (hs.spans_none hw) (hs.held_empty (.inr (.inl hp))) hs.writes
  | closeOutput => exact hs.closeOutput
  | openOutput hp hst =>
    exact
      { hs with
        held_empty := by
          rintro (h | h | ⟨h, _⟩)
          · cases hp.symm.trans h
          · cases hp.symm.trans h
          · cases hp.symm.trans h }
  | checkpoint complete =>
    rw [checkpoint_frame]
    exact hs
  | resume suffix hsto hpo hcon hdr hsu hp hw =>
    exact hs
  | succeed hp => exact hs.leave (by simp [frame])

theorem create_sound (os : Options) (uris : List String) (d : Int) (pt : String) (p : Int)
    (ps : Nat) : (create os uris d pt p ps : HttpTask F).frame.lane.Sound ∅ :=
  Lane.Sound.of_quiet os.minSplitSize_pos rfl (fun _ => rfl) rfl fun _ h => by contradiction

theorem step_sound (hst : t.frame.Staged) (hs : t.frame.lane.Sound ∅) (e : Event F) :
    (t.step e).frame.lane.Sound ∅ := by
  refine step_preserve (motive := fun t => t.frame.lane.Sound ∅) (fun hm => move_sound hm) hst
    ⟨reshape_staged hst e.input, ?_⟩
  rw [reshape.eq_def]
  split
  · exact hs
  · exact .of_quiet t.options.minSplitSize_pos rfl (fun _ => rfl)
      rfl hs.writes
  · exact hs

theorem run_sound (os : Options) (uris : List String) (d : Int) (pt : String) (p : Int)
    (ps : Nat) (events : List (Event F)) : (Runs.run step (create os uris d pt p ps)
      events).frame.Staged ∧ (Runs.run step (create os uris d pt p ps)
      events).frame.lane.Sound ∅ := by
  have hs : ∀ (t : HttpTask F) (e : Event F),
      t.frame.Staged ∧ t.frame.lane.Sound ∅ → (t.step e).frame.Staged ∧
          (t.step e).frame.lane.Sound ∅ := fun _ e h => ⟨step_staged h.1 e, step_sound h.1 h.2 e⟩
  exact Runs.run_preserves hs events ⟨create_staged os uris d pt p ps,
      create_sound os uris d pt p ps⟩

theorem Lane.Sound.ordered {l : Set Int} (hs : t.frame.lane.Sound l) :
    SegmentPlanner.Ordered t.planner.workers := by
  intro id p hp
  have hsp := t.planner.spans_eq_some hp
  obtain ⟨w, hf⟩ := hs.known id _ hsp
  obtain ⟨s, ho, hpl⟩ := hs.placed id w hf
  cases hsp.symm.trans ho
  exact hpl.position_le

/-- A slice of the body, byte by byte. -/
theorem getElem?_of_slice {bo d : List UInt8} {x : Int} (hbe : b ≤ x)
    (hs : (bo.drop (x - b).toNat).take d.length = d) (hi : i < d.length) :
    d[i]? = bo[(x + i - b).toNat]? := by
  have hsu : (x + i - b).toNat = (x - b).toNat + i := by omega
  have hb := List.getElem?_take_of_lt (l := bo.drop (x - b).toNat) hi
  rw [hs] at hb
  rw [hsu, hb, List.getElem?_drop]

/-- A byte of a sound piece is the byte of the response body that its request
places there, and its offset was requested. -/
theorem Piece.Sound.byte {p : Piece} (hs : p.Sound) (hi : i < p.data.length) :
    p.begin ≤ p.offset + i ∧ p.data[i]? = p.body[(p.offset + i - p.begin).toNat]? ∧
      (p.requestEnd = unbounded ∨ p.offset + i < p.requestEnd) := by
  have hb := hs.begin_le
  refine ⟨by omega, getElem?_of_slice hb hs.slice hi, ?_⟩
  refine hs.requested.imp_right fun hst => ?_
  have hst : p.offset + p.data.length ≤ p.requestEnd := hst
  omega

/-- Every chunk of a connection is taken apart to its end. -/
theorem consume_receive_isSome (hs : t.frame.lane.Sound ∅) (hf : t.workers.find? id = some w)
    (f : Facts F) (c : List UInt8) :
    (consume f id (2 * c.length + t.planner.workers.entries.length + 1) (t.updateWorker id fun w =>
        { w with body := w.body ++ c }) c).isSome := by
  obtain ⟨s, hsp, _⟩ := hs.placed id w hf
  obtain ⟨p, hp, _⟩ := Option.map_eq_some_iff.mp hsp
  rw [updateWorker, hf]
  refine consume_isSome hp hs.ordered ?_
  rw [roundsLeft]
  split_ifs
  · exact le_rfl
  · exact Nat.le_succ _

end

/-- Bytes of responses reach the disk where they belong, in every run: byte
`offset - begin` of the body at `offset`, inside the requested range and the
known length.  A buffer that is not empty ends at the planner's position, and
`receive` takes every chunk apart to its end. -/
theorem run_places_body_bytes (options : Options) (uris : List String) (declared : Int)
    (pieceType : String) (pieceLength : Int) (pieces : Nat) (events : List (Event F)) :
    let task := Runs.run step (create options uris declared pieceType pieceLength pieces) events
    (∀ write ∈ task.writes, ∀ index < write.piece.data.length,
      let offset := write.piece.offset + index
      write.piece.begin ≤ offset ∧
      write.piece.data[index]? = write.piece.body[(offset - write.piece.begin).toNat]? ∧
      (write.piece.requestEnd = unbounded ∨ offset < write.piece.requestEnd) ∧
      (0 ≤ write.length → offset < write.length)) ∧
    (∀ id worker, task.workers.find? id = some worker →
      ∃ planned, task.planner.workers.find? id = some planned ∧ (worker.buffer ≠ [] →
          worker.bufferOffset + worker.buffer.length = planned.position) ∧
        ∀ index < worker.buffer.length, worker.buffer[index]? =
          worker.body[(worker.bufferOffset + index - worker.begin).toNat]?) ∧
    ∀ id worker, task.workers.find? id = some worker → ∀ facts chunk, (consume facts id
        (2 * chunk.length + task.planner.workers.entries.length + 1)
        (task.updateWorker id fun worker =>
          { worker with body := worker.body ++ chunk }) chunk).isSome := by
  intro task
  have hsound : task.frame.lane.Sound ∅ := (run_sound options uris declared
    pieceType pieceLength pieces events).2
  refine ⟨?_, ?_, ?_⟩
  · intro write hwrite index hindex
    obtain ⟨hpiece, hlength⟩ := hsound.writes write hwrite
    obtain ⟨hbegin, hbyte, hrequested⟩ := hpiece.byte hindex
    refine ⟨hbegin, hbyte, hrequested, fun hknown => ?_⟩
    have hstop : write.piece.offset + write.piece.data.length ≤ write.length := hlength hknown
    omega
  · intro id worker hfind
    obtain ⟨span, hspan, hplaced⟩ := hsound.placed id worker hfind
    obtain ⟨planned, hplanned, rfl⟩ := Option.map_eq_some_iff.mp hspan
    refine ⟨planned, hplanned, hplaced.buffered, fun index hindex => ?_⟩
    have hbuffer : worker.buffer ≠ [] := by
      rintro hempty
      simp [hempty] at hindex
    exact getElem?_of_slice (hplaced.buffer_begin hbuffer) (hplaced.buffer_slice hbuffer) hindex
  · exact fun id worker hfind facts chunk =>
      consume_receive_isSome hsound hfind facts chunk

end Aria2Next.HttpTask
