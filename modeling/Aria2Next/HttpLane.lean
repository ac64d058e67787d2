/-
The part of an HTTP task that received bytes pass through: the connections,
the planner's positions, the buffers, what is held back and what was written.
`Lane.Sound` says that all of it fits together, and each change a move makes
to it keeps it so.
-/
import Aria2Next.HttpSteps

namespace Aria2Next

open OrdMap Function

universe u

variable {F : Type u} [Double F]

namespace SegmentPlanner

variable {id : Int}

theorem spans_eq_some {p : SegmentPlanner F} {w : Worker F} (hf : p.workers.find? id = some w) :
    p.spans id = some (w.position, w.stop, w.requestEnd) := by
  rw [spans, hf]
  rfl

theorem spans_insert (p : SegmentPlanner F) {n : SegmentPlanner F} (w : Worker F)
    (hw : n.workers = p.workers.insert id w) :
    n.spans = update p.spans id (some (w.position, w.stop, w.requestEnd)) := by
  funext o
  rw [spans, hw, find?_insert, update_apply]
  split_ifs <;> rfl

theorem spans_erase (p : SegmentPlanner F) {n : SegmentPlanner F}
    (hw : n.workers = p.workers.erase id) : n.spans = update p.spans id none := by
  funext o
  rw [spans, hw, find?_erase, update_apply]
  split_ifs <;> rfl

theorem spans_setLength (p : SegmentPlanner F) (l id : Int) :
    (p.setLength l).spans id = (p.spans id).map fun s =>
        (s.1, min s.2.1 l, min s.2.2 l) := by
  rw [spans, setLength, find?_mapValues, spans, Option.map_map, Option.map_map]
  rfl

end SegmentPlanner

namespace HttpTask

/-- The part of the state that bytes pass through. -/
@[ext] structure Lane where
  workers : OrdMap Int Worker
  nextWorkerId : Int
  spans : Int → Option (Int × Int × Int)
  length : Int
  minSplit : Int
  output : Bool
  held : List Piece
  phase : Phase
  writes : List Write

def Frame.lane (frame : Frame) : Lane :=
  { workers := frame.workers, nextWorkerId := frame.nextWorkerId,
    spans := frame.spans, length := frame.length, minSplit := frame.minSplit,
    output := frame.output, held := frame.held, phase := frame.phase,
    writes := frame.writes }

/-- The end of a piece in the file. -/
def Piece.stop (piece : Piece) : Int := piece.offset + piece.data.length

/-- The bytes of a piece are those of the response body that the request
placed there. -/
structure Piece.Sound (piece : Piece) : Prop where
  begin_le : piece.begin ≤ piece.offset
  slice : (piece.body.drop (piece.offset - piece.begin).toNat).take piece.data.length = piece.data
  requested : piece.requestEnd = unbounded ∨ piece.stop ≤ piece.requestEnd

/-- A connection agrees with the planner's position, end and requested end,
and its buffer holds the last bytes before the position. -/
structure Worker.Placed (worker : Worker) (length : Int)
    (span : Int × Int × Int) : Prop where
  nonneg : 0 ≤ worker.begin
  begin_le : worker.begin ≤ span.1
  reached : span.1 - worker.begin ≤ worker.body.length
  position_le : span.1 ≤ span.2.1
  stop_le : span.2.1 ≤ span.2.2
  requested : worker.requestEnd = unbounded ∨ span.2.2 ≤ worker.requestEnd
  inside : 0 ≤ length → span.2.1 ≤ length
  buffered : worker.buffer ≠ [] → worker.bufferOffset + worker.buffer.length = span.1
  buffer_begin : worker.buffer ≠ [] → worker.begin ≤ worker.bufferOffset
  buffer_slice : worker.buffer ≠ [] →
    (worker.body.drop (worker.bufferOffset - worker.begin).toNat).take
      worker.buffer.length = worker.buffer

/-- The whole body is used, unless the rest was given up. -/
def Worker.Level (worker : Worker) (length : Int) (span : Int × Int × Int) : Prop :=
  worker.done = false → (worker.body.length : Int) = span.1 - worker.begin ∨
    0 ≤ length ∧ length ≤ span.1

namespace Lane

/-- What holds of the bytes in every state.  The connections in `loose` need
not have used their whole body. -/
structure Sound (lane : Lane) (loose : Set Int) : Prop where
  minSplit : 1 ≤ lane.minSplit
  fresh : ∀ id worker, lane.workers.find? id = some worker → id < lane.nextWorkerId
  known : ∀ id span, lane.spans id = some span → ∃ worker, lane.workers.find? id = some worker
  placed : ∀ id worker, lane.workers.find? id = some worker →
    ∃ span, lane.spans id = some span ∧ worker.Placed lane.length span
  level : ∀ id worker span, id ∉ loose →
    lane.workers.find? id = some worker → lane.spans id = some span → worker.Level lane.length span
  single : lane.length < 0 → lane.phase = .opening ∨ lane.phase = .running →
    ∀ id other worker next, lane.workers.find? id = some worker →
      lane.workers.find? other = some next → id = other
  virgin : lane.phase = .probing → ∀ id worker,
    lane.workers.find? id = some worker → worker.begin = 0 ∧ worker.body = []
  held : ∀ piece ∈ lane.held, piece.Sound
  held_known : lane.phase = .opening → 0 ≤ lane.length →
    ∀ piece ∈ lane.held, piece.stop ≤ lane.length
  held_stream : lane.phase = .opening → lane.length < 0 →
    ∀ piece ∈ lane.held, ∀ id span, lane.spans id = some span → piece.stop ≤ span.1
  held_empty : lane.phase = .probing ∨ lane.phase = .finishing ∨
    lane.phase = .running ∧ lane.output = true → lane.held = []
  writes : ∀ write ∈ lane.writes, write.piece.Sound ∧
    (0 ≤ write.length → write.piece.stop ≤ write.length)

end Lane

variable {w next n : Worker} {length ln : Int} {s : Int × Int × Int}

theorem Worker.Placed.piece (hp : w.Placed ln s) (hb : w.buffer ≠ []) (id : Int) :
    (w.piece id).Sound ∧ (w.piece id).stop = s.1 := by
  have hs : (w.piece id).stop = s.1 := hp.buffered hb
  refine ⟨⟨hp.buffer_begin hb, hp.buffer_slice hb, ?_⟩, hs⟩
  rcases hp.requested with h | h
  · exact .inl h
  · refine .inr ?_
    have hpo := hp.position_le
    have he := hp.stop_le
    rw [hs]
    exact (hpo.trans he).trans h

/-- The fields of a worker that say where its bytes are. -/
theorem Worker.Placed.congr (hp : w.Placed ln s) (hk : n.key = w.key) : n.Placed ln s := by
  simp only [Worker.key, Prod.mk.injEq] at hk
  obtain ⟨_, hb, hr, _, hbu, ho, hbo, _⟩ := hk
  constructor
  · rw [hb]
    exact hp.nonneg
  · rw [hb]
    exact hp.begin_le
  · rw [hb, hbo]
    exact hp.reached
  · exact hp.position_le
  · exact hp.stop_le
  · rw [hr]
    exact hp.requested
  · exact hp.inside
  · rw [hbu, ho]
    exact hp.buffered
  · rw [hbu, ho, hb]
    exact hp.buffer_begin
  · rw [hbu, ho, hb, hbo]
    exact hp.buffer_slice

/-- An empty buffer says nothing. -/
theorem Worker.Placed.emptied (hp : w.Placed ln s) (x : Int) :
    ({ w with buffer := [], bufferOffset := x } : Worker).Placed ln s := { hp with
    buffered := fun h => absurd rfl h
    buffer_begin := fun h => absurd rfl h
    buffer_slice := fun h => absurd rfl h }

namespace Lane

variable {l : Lane} {ls : Set Int}

theorem Sound.insert (hs : l.Sound ls) {id : Int} {w n : Worker}
    (hfi : l.workers.find? id = some w) (hpl : ∀ s, w.Placed l.length s → n.Placed l.length s)
    (hlev : id ∉ ls → ∀ s, w.Level l.length s → n.Level l.length s)
    (hv : l.phase = .probing → w.begin = 0 ∧ w.body = [] → n.begin = 0 ∧ n.body = []) :
    ({ l with workers := l.workers.insert id n } : Lane).Sound ls := by
  have hc : ∀ o g, (l.workers.insert id n).find? o = some g →
        o = id ∧ g = n ∨ l.workers.find? o = some g := by
    intro o g hf
    rw [find?_insert] at hf
    split_ifs at hf with ho
    · exact .inl ⟨ho, (Option.some.inj hf).symm⟩
    · exact .inr hf
  have hw : ∀ o g, (l.workers.insert id n).find? o = some g →
        ∃ old, l.workers.find? o = some old := by
    intro o g hf
    rcases hc o g hf with ⟨rfl, _⟩ | h
    · exact ⟨w, hfi⟩
    · exact ⟨g, h⟩
  exact
    { hs with
      fresh := by
        intro o g hf
        obtain ⟨old, hold⟩ := hw o g hf
        exact hs.fresh o old hold
      known := by
        intro o s hsp
        obtain ⟨old, hold⟩ := hs.known o s hsp
        by_cases ho : o = id
        · exact ⟨n, by rw [ho]; exact find?_insert_self _ _ _⟩
        · exact ⟨old, by
            rw [find?_insert_of_ne _ _ ho]
            exact hold⟩
      placed := by
        intro o g hf
        rcases hc o g hf with ⟨rfl, rfl⟩ | h
        · obtain ⟨s, hsp, hold⟩ := hs.placed _ w hfi
          exact ⟨s, hsp, hpl s hold⟩
        · exact hs.placed o g h
      level := by
        intro o g s hl hf hsp
        rcases hc o g hf with ⟨rfl, rfl⟩ | h
        · exact hlev hl s (hs.level _ w s hl hfi hsp)
        · exact hs.level o g s hl h hsp
      single := by
        intro hle hp left right g f hlef hr
        obtain ⟨old, hold⟩ := hw left g hlef
        obtain ⟨ol, ho'⟩ := hw right f hr
        exact hs.single hle hp left right old ol hold ho'
      virgin := by
        intro hp o g hf
        rcases hc o g hf with ⟨rfl, rfl⟩ | h
        · exact hv hp (hs.virgin hp _ w hfi)
        · exact hs.virgin hp o g h }

/-- A connection ends, in the task and in the planner. -/
theorem Sound.erase (hso : l.Sound ls) (id : Int) : ({ l with
      workers := l.workers.erase id
      spans := update l.spans id none } : Lane).Sound ls := by
  have hw : ∀ o g, (l.workers.erase id).find? o = some g → o ≠ id ∧ l.workers.find? o = some g := by
    intro o g hf
    rw [find?_erase] at hf
    split_ifs at hf with ho
    exact ⟨ho, hf⟩
  have hsp : ∀ o s, update l.spans id none o = some s → o ≠ id ∧ l.spans o = some s := by
    intro o s hs
    rw [update_apply] at hs
    split_ifs at hs with ho
    exact ⟨ho, hs⟩
  exact
    { hso with
      fresh := fun o g hf =>
        hso.fresh o g (hw o g hf).2
      known := by
        intro o s hs
        obtain ⟨ho, hs⟩ := hsp o s hs
        obtain ⟨w, hfi⟩ := hso.known o s hs
        exact ⟨w, by
          rw [find?_erase_of_ne _ ho]
          exact hfi⟩
      placed := by
        intro o g hf
        obtain ⟨ho, hf⟩ := hw o g hf
        obtain ⟨s, hs, hpl⟩ := hso.placed o g hf
        exact ⟨s, (update_of_ne ho _ _).trans hs, hpl⟩
      level := fun o g s hlo hf hs =>
        hso.level o g s hlo (hw o g hf).2 (hsp o s hs).2
      single := fun hl hp left right g f hle hr =>
        hso.single hl hp left right g f (hw left g hle).2 (hw right f hr).2
      virgin := fun hp o g hf =>
        hso.virgin hp o g (hw o g hf).2
      held_stream := fun hp hl p hpi o s hs =>
        hso.held_stream hp hl p hpi o s (hsp o s hs).2 }

variable {p : Piece}

/-- A sound piece reaches the disk. -/
theorem Sound.write (hs : l.Sound ls) (hp : p.Sound) (hi : 0 ≤ l.length → p.stop ≤ l.length) :
    ({ l with writes := l.writes ++ [⟨p, l.length⟩] } : Lane).Sound ls := { hs with
    writes := by
      intro w hw
      rcases List.mem_append.mp hw with hw | hw
      · exact hs.writes w hw
      · rw [List.mem_singleton.mp hw]
        exact ⟨hp, hi⟩ }

/-- A sound piece is held back. -/
theorem Sound.hold (hs : l.Sound ls) (hpi : p.Sound)
    (hp : ¬ (l.phase = .probing ∨ l.phase = .finishing ∨ l.phase = .running ∧ l.output = true))
    (hi : 0 ≤ l.length → p.stop ≤ l.length)
    (hst : l.phase = .opening → l.length < 0 → ∀ id s, l.spans id = some s → p.stop ≤ s.1) :
    ({ l with held := l.held ++ [p] } : Lane).Sound ls := by
  have hc : ∀ g ∈ l.held ++ [p], g ∈ l.held ∨ g = p := by
    intro g hf
    simpa using hf
  exact
    { hs with
      held := by
        intro g hf
        rcases hc g hf with h | rfl
        · exact hs.held g h
        · exact hpi
      held_known := by
        intro ho hl g hf
        rcases hc g hf with h | rfl
        · exact hs.held_known ho hl g h
        · exact hi hl
      held_stream := by
        intro ho hl g hf
        rcases hc g hf with h | rfl
        · exact hs.held_stream ho hl g h
        · exact hst ho hl
      held_empty := fun h => absurd h hp }

end Lane

/-- How a buffer leaves a connection. -/
theorem flush_lane (t : HttpTask F) (id : Int) : (t.flush id).frame.lane = t.frame.lane ∨
      ∃ w, t.workers.find? id = some w ∧ w.buffer ≠ [] ∧
        ∃ x, let emptied : Lane := { t.frame.lane with workers := t.workers.insert id { w with
              buffer := [], bufferOffset := x } }
          (t.phase = .restarting ∧ (t.flush id).frame.lane = emptied ∨
            (t.flush id).frame.lane = { emptied with
              writes := t.writes ++ [⟨w.piece id, t.planner.length⟩] } ∨
            ¬ (t.output = true ∧ t.phase ≠ .probing ∧ t.phase ≠ .opening) ∧
              (t.flush id).frame.lane = { emptied with held := t.held ++ [w.piece id] }) := by
  rw [flush]
  rcases hf : t.workers.find? id with _ | w
  · exact .inl rfl
  · dsimp only
    split_ifs with he hp ho
    · exact .inl rfl
    · exact .inr ⟨w, rfl, he, w.bufferOffset, .inl ⟨hp, rfl⟩⟩
    · exact .inr ⟨w, rfl, he, _, .inr (.inl rfl)⟩
    · exact .inr ⟨w, rfl, he, _, .inr (.inr ⟨ho, rfl⟩)⟩

section

variable {t : HttpTask F} {ls : Set Int}

theorem flush_sound (hs : t.frame.lane.Sound ls) (hph : t.phase ≠ .finishing) (id : Int) :
    (t.flush id).frame.lane.Sound ls := by
  rcases flush_lane t id with hsa | ⟨w, hf, hb, offset, hc⟩
  · rw [hsa]
    exact hs
  obtain ⟨s, hsp, hp⟩ := hs.placed id w hf
  obtain ⟨hpi, hst⟩ := hp.piece hb id
  have hi : 0 ≤ t.planner.length → (w.piece id).stop ≤ t.planner.length := by
    intro hle
    rw [hst]
    exact hp.position_le.trans (hp.inside hle)
  have he : ({ t.frame.lane with workers := t.workers.insert id { w with
        buffer := [], bufferOffset := offset } } : Lane).Sound ls :=
    hs.insert hf (fun _ h => h.emptied offset) (fun _ _ h => h) (fun _ h => h)
  rcases hc with ⟨_, hl⟩ | hl | ⟨hou, hl⟩
  · rw [hl]
    exact he
  · rw [hl]
    exact he.write hpi hi
  · rw [hl]
    refine he.hold hpi ?_ hi ?_
    · rintro (hpr | hfi | ⟨hr, hop⟩)
      · obtain ⟨_, hbo⟩ := hs.virgin hpr id w hf
        have hsl := hp.buffer_slice hb
        rw [hbo] at hsl
        simp at hsl
        exact hb hsl
      · exact hph hfi
      · have hr : t.phase = .running := hr
        exact hou ⟨hop, by simp [hr], by simp [hr]⟩
    · intro ho hle o g hfo
      obtain ⟨n, hn⟩ := hs.known o g hfo
      have hsa := hs.single hle (.inl ho) o id n w hn hf
      rw [hsa] at hfo
      rw [hst, Option.some.inj (hsp.symm.trans hfo)]

theorem noteRate_frame (p : SegmentPlanner F) (now : Int) (w : Worker) :
    (noteRate p now w).length = p.length ∧ (noteRate p now w).minSplit = p.minSplit := by
  rw [noteRate]
  split_ifs <;> exact ⟨rfl, rfl⟩

variable {id : Int}

theorem retireWorker_lane (t : HttpTask F) {w : Worker} (now : Int)
    (hf : t.workers.find? id = some w) : (t.retireWorker now id).frame.lane = { t.frame.lane with
      workers := t.workers.erase id
      spans := update t.planner.spans id none } := by
  have hs := t.planner.spans_erase (retireWorker_planned now hf)
  obtain ⟨hl, hsp⟩ := noteRate_frame t.planner now w
  rw [frame, hs]
  rw [retireWorker, hf]
  dsimp only [SegmentPlanner.release]
  rw [hl, hsp]
  rfl

theorem retireWorker_sound (hs : t.frame.lane.Sound ls) (now id : Int) :
    (t.retireWorker now id).frame.lane.Sound ls := by
  rcases hf : t.workers.find? id with _ | w
  · rw [retireWorker, hf]
    exact hs
  · rw [retireWorker_lane t now hf]
    exact hs.erase id

theorem release_sound (hs : t.frame.lane.Sound ls) (hn : t.workers.find? id = none) :
    ({ t with planner := t.planner.release id } : HttpTask F).frame.lane.Sound ls := by
  have hsp : (t.planner.release id).spans = update t.planner.spans id none :=
    t.planner.spans_erase rfl
  have hsa : t.planner.spans id = none := by
    by_contra hso
    obtain ⟨s, hspa⟩ := Option.ne_none_iff_exists'.mp hso
    obtain ⟨w, hf⟩ := hs.known id s hspa
    have hf : t.workers.find? id = some w := hf
    rw [hn] at hf
    contradiction
  rw [← hsa, update_eq_self] at hsp
  rw [frame, hsp]
  exact hs

theorem cancelWorker_sound (hs : t.frame.lane.Sound ls) (hp : t.phase ≠ .finishing) (now id : Int) :
    (t.cancelWorker now id).frame.lane.Sound ls := by
  rw [cancelWorker]
  rcases hf : t.workers.find? id with _ | w
  · exact release_sound hs hf
  · exact retireWorker_sound (flush_sound hs hp id) now id

end

namespace Lane

variable {lane l : Lane} {ls : Set Int}

theorem Sound.of_eq {n : Lane} (hs : l.Sound ls) (he : n = l) : n.Sound ls := he ▸ hs

/-- Phases in which nothing is asked of the connections and the held
pieces. -/
theorem Sound.leave (hs : l.Sound ls) {phase : Phase}
    (hph : phase ≠ .probing ∧ phase ≠ .opening ∧ phase ≠ .running ∧ phase ≠ .finishing) :
    ({ l with phase } : Lane).Sound ls := by
  obtain ⟨hp, ho, hr, hf⟩ := hph
  exact
    { hs with
      single := fun _ h => h.elim (fun h => absurd h ho) (fun h => absurd h hr)
      virgin := fun h => absurd h hp
      held_known := fun h => absurd h ho
      held_stream := fun h => absurd h ho
      held_empty := by
        rintro (h | h | ⟨h, _⟩)
        · exact absurd h hp
        · exact absurd h hf
        · exact absurd h hr }

/-- Without connections and held pieces only what was written counts. -/
theorem Sound.of_quiet (hm : 1 ≤ l.minSplit) (hw : l.workers = ∅) (hs : ∀ id, l.spans id = none)
    (hh : l.held = [])
    (hwr : ∀ wr ∈ l.writes, wr.piece.Sound ∧ (0 ≤ wr.length → wr.piece.stop ≤ wr.length)) :
    l.Sound ls := by
  have hn : ∀ id w, l.workers.find? id ≠ some w := by
    intro id w hf
    simp [hw] at hf
  exact
    { minSplit := hm
      fresh := fun id w hf => absurd hf (hn id w)
      known := by
        intro id s hsp
        rw [hs] at hsp
        contradiction
      placed := fun id w hf => absurd hf (hn id w)
      level := fun id w _ _ hf => absurd hf (hn id w)
      single := fun _ _ id _ w _ hf => absurd hf (hn id w)
      virgin := fun _ id w hf => absurd hf (hn id w)
      held := by simp [hh]
      held_known := by simp [hh]
      held_stream := by simp [hh]
      held_empty := fun _ => hh
      writes := hwr }

theorem Sound.spans_none (hs : l.Sound ls) (hw : l.workers = ∅) (id : Int) : l.spans id = none := by
  by_contra hso
  obtain ⟨s, hsp⟩ := Option.ne_none_iff_exists'.mp hso
  obtain ⟨w, hf⟩ := hs.known id s hsp
  simp [hw] at hf

/-- Assignments may end earlier. -/
theorem Sound.shrink (hso : l.Sound ls) {spans : Int → Option (Int × Int × Int)}
    (hsp : ∀ id, spans id = l.spans id ∨ ∃ s cut,
      l.spans id = some s ∧ spans id = some (s.1, cut, s.2.2) ∧ s.1 ≤ cut ∧ cut ≤ s.2.1) :
    ({ l with spans } : Lane).Sound ls := by
  have hb : ∀ id s, spans id = some s → ∃ old, l.spans id = some old ∧ old.1 = s.1 := by
    intro id s hs
    rcases hsp id with hsa | ⟨old, cut, hold, hn, _⟩
    · exact ⟨s, hsa ▸ hs, rfl⟩
    · refine ⟨old, hold, ?_⟩
      rw [hn] at hs
      obtain rfl := Option.some.inj hs
      rfl
  exact
    { hso with
      known := by
        intro id s hs
        obtain ⟨old, hold, _⟩ := hb id s hs
        exact hso.known id old hold
      placed := by
        intro id w hf
        obtain ⟨s, hs, hpl⟩ := hso.placed id w hf
        rcases hsp id with hsa | ⟨old, cut, hold, hn, hlow, hh⟩
        · exact ⟨s, hsa.trans hs, hpl⟩
        · cases hs.symm.trans hold
          exact ⟨_, hn,
            { hpl with
              position_le := hlow
              stop_le := hh.trans hpl.stop_le
              inside := fun h => hh.trans (hpl.inside h) }⟩
      level := by
        intro id w s hlo hf hs
        obtain ⟨old, hold, hp⟩ := hb id s hs
        have hl := hso.level id w old hlo hf hold
        rw [Worker.Level, hp] at hl
        exact hl
      held_stream := by
        intro hph hle p hpi id s hs
        obtain ⟨old, hold, hp⟩ := hb id s hs
        rw [← hp]
        exact hso.held_stream hph hle p hpi id old hold }

theorem Sound.spans_fresh (hs : l.Sound ls) : l.spans l.nextWorkerId = none := by
  by_contra hso
  obtain ⟨s, hsp⟩ := Option.ne_none_iff_exists'.mp hso
  obtain ⟨w, hf⟩ := hs.known _ s hsp
  exact absurd (hs.fresh _ w hf) (lt_irrefl _)

variable {w : Worker} {s : Int × Int × Int} {id : Int}

/-- A connection is launched. -/
theorem Sound.add (hs : l.Sound ls) (hpl : w.Placed l.length s) (hbo : w.body = [])
    (hph : l.phase = .probing ∧ w.begin = 0 ∨ l.phase = .running ∧ (l.length < 0 → l.workers = ∅)) :
    ({ l with
      workers := l.workers.insert l.nextWorkerId w
      nextWorkerId := l.nextWorkerId + 1
      spans := update l.spans l.nextWorkerId (some s) } : Lane).Sound ls := by
  have hc : ∀ o g, (l.workers.insert l.nextWorkerId w).find? o =
        some g → o = l.nextWorkerId ∧ g = w ∨ l.workers.find? o = some g := by
    intro o g hf
    rw [find?_insert] at hf
    split_ifs at hf with ho
    · exact .inl ⟨ho, (Option.some.inj hf).symm⟩
    · exact .inr hf
  have hsp : ∀ o old, update l.spans l.nextWorkerId (some s) o =
        some old → o = l.nextWorkerId ∧ old = s ∨ o ≠ l.nextWorkerId ∧ l.spans o = some old := by
    intro o old hold
    rw [update_apply] at hold
    split_ifs at hold with ho
    · exact .inl ⟨ho, (Option.some.inj hold).symm⟩
    · exact .inr ⟨ho, hold⟩
  have hop : l.phase ≠ .opening := by
    rcases hph with ⟨h, _⟩ | ⟨h, _⟩ <;> simp [h]
  exact
    { hs with
      fresh := by
        intro o g hf
        rcases hc o g hf with ⟨rfl, _⟩ | h
        · exact Int.lt_succ _
        · exact (hs.fresh o g h).trans (Int.lt_succ _)
      known := by
        intro o old hold
        rcases hsp o old hold with ⟨rfl, _⟩ | ⟨ho, hold⟩
        · exact ⟨w, find?_insert_self _ _ _⟩
        · obtain ⟨g, hf⟩ := hs.known o old hold
          exact ⟨g, (find?_insert_of_ne _ _ ho).trans hf⟩
      placed := by
        intro o g hf
        rcases hc o g hf with ⟨rfl, rfl⟩ | h
        · exact ⟨s, update_self _ _ _, hpl⟩
        · have ho := (hs.fresh o g h).ne
          obtain ⟨old, hold, hfi⟩ := hs.placed o g h
          exact ⟨old, (update_of_ne ho _ _).trans hold, hfi⟩
      level := by
        intro o g old hlo hf hold
        rcases hsp o old hold with ⟨rfl, rfl⟩ | ⟨ho, hold⟩
        · rcases hc _ g hf with ⟨_, rfl⟩ | h
          · intro _
            have hb := hpl.begin_le
            have hr := hpl.reached
            rw [hbo] at hr ⊢
            simp only [List.length_nil, Nat.cast_zero] at hr ⊢
            exact .inl (by omega)
          · exact absurd (hs.fresh _ g h) (lt_irrefl _)
        · rcases hc o g hf with ⟨h, _⟩ | h
          · exact absurd h ho
          · exact hs.level o g old hlo h hold
      single := by
        intro hl hli left right g f hle hri
        rcases hph with ⟨hp, _⟩ | ⟨_, he⟩
        · rcases hli with h | h
          · exact absurd h hop
          · cases hp.symm.trans h
        · have hn := he hl
          rcases hc left g hle with ⟨rfl, _⟩ | h
          · rcases hc right f hri with ⟨rfl, _⟩ | h
            · rfl
            · simp [hn] at h
          · simp [hn] at h
      virgin := by
        intro hp o g hf
        rcases hc o g hf with ⟨rfl, rfl⟩ | h
        · rcases hph with ⟨_, hb⟩ | ⟨hru, _⟩
          · exact ⟨hb, hbo⟩
          · cases hp.symm.trans hru
        · exact hs.virgin hp o g h
      held_stream := fun h => absurd h hop }

/-- The length becomes known. -/
theorem Sound.setLength (hso : l.Sound ls) {length : Int} (hl : 0 ≤ length)
    (hpo : ∀ id s, l.spans id = some s → s.1 ≤ length)
    (hle : ∀ id w s, l.workers.find? id = some w →
      l.spans id = some s → w.Level l.length s → w.Level length s)
    (hh : l.phase = .opening → ∀ p ∈ l.held, p.stop ≤ length) :
    ({ l with
      length
      spans := fun id => (l.spans id).map fun s =>
        (s.1, min s.2.1 length, min s.2.2 length) } : Lane).Sound ls := by
  have hb : ∀ id s, ((l.spans id).map fun s =>
      (s.1, min s.2.1 length, min s.2.2 length)) = some s →
        ∃ old, l.spans id = some old ∧ old.1 = s.1 := by
    intro id s hs
    obtain ⟨old, hold, rfl⟩ := Option.map_eq_some_iff.mp hs
    exact ⟨old, hold, rfl⟩
  exact
    { hso with
      known := by
        intro id s hs
        obtain ⟨old, hold, _⟩ := hb id s hs
        exact hso.known id old hold
      placed := by
        intro id w hf
        obtain ⟨s, hs, hp⟩ := hso.placed id w hf
        have hn : ((l.spans id).map fun s =>
            (s.1, min s.2.1 length, min s.2.2 length)) =
              some (s.1, min s.2.1 length, min s.2.2 length) := by
          rw [hs, Option.map_some]
        refine ⟨_, hn, { hp with
          position_le := ?_
          stop_le := ?_
          requested := ?_
          inside := fun _ => min_le_right _ _ }⟩
        · exact le_min hp.position_le (hpo id s hs)
        · exact min_le_min_right _ hp.stop_le
        · exact hp.requested.imp_right (min_le_left _ _).trans
      level := by
        intro id w s hlo hf hs
        obtain ⟨old, hold, he⟩ := hb id s hs
        have hbe := hso.level id w old hlo hf hold
        have ha := hle id w old hf hold hbe
        rw [Worker.Level, he] at ha
        exact ha
      single := fun h => absurd hl (not_le.mpr h)
      held_known := fun hph _ => hh hph
      held_stream := fun _ h => absurd hl (not_le.mpr h) }

/-- The connection whose chunk is being used moves on. -/
theorem Sound.advance (hs : l.Sound {id}) {n : Worker} {a : Int × Int × Int}
    (hfi : l.workers.find? id = some w) (hsp : l.spans id = some s) (hpl : n.Placed l.length a)
    (hpo : s.1 ≤ a.1) (hb : n.begin = w.begin) (hbo : n.body = w.body) : ({ l with
      workers := l.workers.insert id n
      spans := update l.spans id (some a) } : Lane).Sound {id} := by
  have hc : ∀ o g, (l.workers.insert id n).find? o = some g →
        o = id ∧ g = n ∨ o ≠ id ∧ l.workers.find? o = some g := by
    intro o g hf
    rw [find?_insert] at hf
    split_ifs at hf with ho
    · exact .inl ⟨ho, (Option.some.inj hf).symm⟩
    · exact .inr ⟨ho, hf⟩
  have hw : ∀ o g, (l.workers.insert id n).find? o = some g →
        ∃ old, l.workers.find? o = some old := by
    intro o g hf
    rcases hc o g hf with ⟨rfl, _⟩ | ⟨_, h⟩
    · exact ⟨w, hfi⟩
    · exact ⟨g, h⟩
  exact
    { hs with
      fresh := by
        intro o g hf
        obtain ⟨old, hold⟩ := hw o g hf
        exact hs.fresh o old hold
      known := by
        intro o old hold
        by_cases ho : o = id
        · exact ⟨n, by rw [ho]; exact find?_insert_self _ _ _⟩
        · have hold := (update_of_ne ho _ _).symm.trans hold
          obtain ⟨g, hf⟩ := hs.known o old hold
          exact ⟨g, (find?_insert_of_ne _ _ ho).trans hf⟩
      placed := by
        intro o g hf
        rcases hc o g hf with ⟨rfl, rfl⟩ | ⟨ho, h⟩
        · exact ⟨a, update_self _ _ _, hpl⟩
        · obtain ⟨old, hold, hfit⟩ := hs.placed o g h
          exact ⟨old, (update_of_ne ho _ _).trans hold, hfit⟩
      level := by
        intro o g old hlo hf hold
        have ho : o ≠ id := hlo
        have hold := (update_of_ne ho _ _).symm.trans hold
        rcases hc o g hf with ⟨h, _⟩ | ⟨_, h⟩
        · exact absurd h ho
        · exact hs.level o g old hlo h hold
      single := by
        intro hl hp left right g f hle hr
        obtain ⟨old, hold⟩ := hw left g hle
        obtain ⟨ol, ho'⟩ := hw right f hr
        exact hs.single hl hp left right old ol hold ho'
      virgin := by
        intro hp o g hf
        rcases hc o g hf with ⟨rfl, rfl⟩ | ⟨_, h⟩
        · rw [hb, hbo]
          exact hs.virgin hp _ w hfi
        · exact hs.virgin hp o g h
      held_stream := by
        intro hp hl p hpi o old hold
        by_cases ho : o = id
        · rw [ho] at hold
          have hold := (update_self _ _ _).symm.trans hold
          cases hold
          exact (hs.held_stream hp hl p hpi id s hsp).trans hpo
        · have hold := (update_of_ne ho _ _).symm.trans hold
          exact hs.held_stream hp hl p hpi o old hold }

theorem Sound.loosen (hs : lane.Sound ∅) (l : Set Int) : lane.Sound l := { hs with
    level := fun id w s _ =>
      hs.level id w s (Set.notMem_empty id) }

/-- The connection has used its whole body, or gives up the rest. -/
theorem Sound.tighten (hs : l.Sound {id})
    (hl : ∀ w s, l.workers.find? id = some w → l.spans id = some s → w.Level l.length s) :
    l.Sound ∅ :=
  { hs with
    level := by
      intro o w s _ hf hsp
      by_cases ho : o = id
      · subst ho
        exact hl w s hf hsp
      · exact hs.level o w s ho hf hsp }

end Lane

/-- More of the body arrives. -/
theorem Worker.Placed.extend (hp : w.Placed ln s) (c : List UInt8) :
    ({ w with body := w.body ++ c } : Worker).Placed ln s := by
  refine { hp with reached := ?_, buffer_slice := fun hb => ?_ }
  · have hr := hp.reached
    simp only [List.length_append, Nat.cast_add]
    omega
  · have hbe := hp.buffer_begin hb
    have he := hp.buffered hb
    have hr := hp.reached
    have hs := hp.buffer_slice hb
    dsimp only
    rw [List.drop_append_of_le_length (by omega), List.take_append_of_le_length (by
        rw [List.length_drop]
        omega)]
    exact hs

/-- Bytes of the body join the buffer. -/
theorem Worker.Placed.keep (hp : w.Placed ln s) {n : Nat}
    (hbou : s.1 - w.begin + n ≤ w.body.length) (hst : s.1 + n ≤ s.2.1)
    (hf : next.begin = w.begin ∧ next.body = w.body ∧ next.requestEnd = w.requestEnd)
    (ho : next.bufferOffset = if w.buffer = [] then s.1 else w.bufferOffset)
    (hbu : next.buffer = w.buffer ++ (w.body.drop (s.1 - w.begin).toNat).take n) :
    next.Placed ln (s.1 + n, s.2) := by
  obtain ⟨hb, hbod, hr⟩ := hf
  have hl := hp.begin_le
  have hc : ((w.body.drop (s.1 - w.begin).toNat).take n).length = n := by
    rw [List.length_take, List.length_drop]
    omega
  have hbo : w.begin ≤ next.bufferOffset ∧ next.bufferOffset + next.buffer.length = s.1 + n ∧
      (w.body.drop (next.bufferOffset - w.begin).toNat).take
        next.buffer.length = next.buffer := by
    rw [ho, hbu, List.length_append, hc]
    by_cases he : w.buffer = []
    · rw [if_pos he, he]
      refine ⟨hl, by simp, ?_⟩
      simp only [List.length_nil, Nat.zero_add, List.nil_append]
    · rw [if_neg he]
      have hen := hp.buffered he
      have hfi := hp.buffer_begin he
      have hs := hp.buffer_slice he
      refine ⟨hfi, by push_cast; omega, ?_⟩
      rw [List.take_add, List.drop_drop]
      congr 3
      omega
  exact
    { nonneg := hb ▸ hp.nonneg
      begin_le := by
        omega
      reached := by
        rw [hbod]
        omega
      position_le := hst
      stop_le := hp.stop_le
      requested := by
        rw [hr]
        exact hp.requested
      inside := hp.inside
      buffered := fun _ => hbo.2.1
      buffer_begin := fun _ => hb ▸ hbo.1
      buffer_slice := fun _ => by
        rw [hb, hbod]
        exact hbo.2.2 }

end HttpTask

end Aria2Next
