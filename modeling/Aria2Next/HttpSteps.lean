/-
From callbacks to steps: bytes, disk jobs, ends of requests and the timer are
sequences of moves as well.  A callback of a connection relies on the phase
the task is in, so the phases a task has connections in come first.
-/
import Aria2Next.HttpCallbacks
import Aria2Next.HttpChunk

namespace Aria2Next

universe u

variable {F : Type u} [Double F]

namespace SegmentPlanner

theorem updateSpeed_spans (p : SegmentPlanner F) (id : Int) (b s : F) :
    (p.updateSpeed id b s).spans = p.spans := by
  funext other
  rw [updateSpeed]
  cases hf : p.workers.find? id with
  | none => rfl
  | some w =>
    dsimp only [spans]
    generalize (if positive w.speed then
      w.speed * Double.ofRat (6 / 10) + b * Double.ofRat (4 / 10) else b) = speed
    rw [OrdMap.find?_insert]
    split_ifs with ho
    · rw [ho, hf]
      rfl
    · rfl

end SegmentPlanner

namespace HttpTask

/-- Where a task has connections: before the first answer none is accepted,
and a stop is answered only once all are gone. -/
structure Frame.Staged (frame : Frame) : Prop where
  live : ∀ id worker, frame.workers.find? id = some worker →
    frame.phase = .probing ∨ frame.phase = .opening ∨ frame.phase = .running
  fresh : frame.phase = .probing → ∀ id worker,
    frame.workers.find? id = some worker → worker.accepted = false
  resting : frame.closing = true →
    frame.phase = .stopping ∨ frame.phase = .idle ∨ frame.phase = .done

/-- No connection is new or newly accepted. -/
structure Frame.Narrows (frame next : Frame) : Prop where
  phase : next.phase = frame.phase
  closing : next.closing = frame.closing
  nextWorkerId : next.nextWorkerId = frame.nextWorkerId
  workers : ∀ id worker, next.workers.find? id = some worker →
    ∃ old, frame.workers.find? id = some old ∧ worker.accepted = old.accepted

namespace Frame

variable {fr n last : Frame}

theorem Narrows.refl (f : Frame) : f.Narrows f := ⟨rfl, rfl, rfl, fun _ w hf => ⟨w, hf, rfl⟩⟩

theorem Narrows.trans (hf : fr.Narrows n) (hl : n.Narrows last) : fr.Narrows last := by
  refine ⟨hl.phase.trans hf.phase, hl.closing.trans hf.closing,
    hl.nextWorkerId.trans hf.nextWorkerId, fun id w hfi => ?_⟩
  obtain ⟨m, hm, ha⟩ := hl.workers id w hfi
  obtain ⟨old, hold, hs⟩ := hf.workers id m hm
  exact ⟨old, hold, ha.trans hs⟩

theorem Staged.narrow (hs : fr.Staged) (hn : fr.Narrows n) : n.Staged := by
  constructor
  · intro id w hf
    obtain ⟨old, hold, _⟩ := hn.workers id w hf
    rw [hn.phase]
    exact hs.live id old hold
  · intro hp id w hf
    obtain ⟨old, hold, ha⟩ := hn.workers id w hf
    rw [hn.phase] at hp
    rw [ha]
    exact hs.fresh hp id old hold
  · intro hc
    rw [hn.closing] at hc
    rw [hn.phase]
    exact hs.resting hc

/-- Replacing a connection by one that is accepted alike. -/
theorem Narrows.insert {id : Int} {w old : Worker} (hfi : fr.workers.find? id = some old)
    (ha : w.accepted = old.accepted) :
    fr.Narrows { fr with workers := fr.workers.insert id w } := by
  refine ⟨rfl, rfl, rfl, fun o g hf => ?_⟩
  change (fr.workers.insert id w).find? o = some g at hf
  rw [OrdMap.find?_insert] at hf
  split_ifs at hf with ho
  · cases hf
    exact ⟨old, ho ▸ hfi, ha⟩
  · exact ⟨g, hf, rfl⟩

end Frame

section

variable (t : HttpTask F)

theorem flush_narrows (id : Int) : t.frame.Narrows (t.flush id).frame := by
  rw [flush]
  cases hf : t.workers.find? id with
  | none => exact .refl _
  | some w =>
    have hi : ∀ next : Worker, next.accepted = w.accepted → t.frame.Narrows { t.frame with
          workers := t.workers.insert id next } := fun next ha => .insert hf ha
    dsimp only
    split_ifs
    · exact .refl _
    · exact hi _ rfl
    · obtain ⟨hp, _, hn, hw⟩ := hi { w with
        buffer := []
        bufferOffset := w.bufferOffset + w.buffer.length } rfl
      exact ⟨hp, by simp [frame, write, queue], hn, hw⟩
    · obtain ⟨hp, hc, hn, hw⟩ := hi { w with
        buffer := []
        bufferOffset := w.bufferOffset + w.buffer.length } rfl
      exact ⟨hp, hc, hn, hw⟩

theorem retireWorker_narrows (now id : Int) : t.frame.Narrows (t.retireWorker now id).frame := by
  refine ⟨congrArg Title.phase (retireWorker_title t now id), ?_, ?_, fun o w hf => ?_⟩
  · rw [retireWorker]
    rcases t.workers.find? id with _ | w <;> rfl
  · rw [retireWorker]
    rcases t.workers.find? id with _ | w <;> rfl
  · change (t.retireWorker now id).workers.find? o = _ at hf
    rw [retireWorker_find] at hf
    split_ifs at hf
    exact ⟨w, hf, rfl⟩

theorem cancelWorker_narrows (now id : Int) : t.frame.Narrows (t.cancelWorker now id).frame := by
  rw [cancelWorker]
  cases hf : t.workers.find? id with
  | none => exact ⟨rfl, rfl, rfl, fun _ w hf => ⟨w, hf, rfl⟩⟩
  | some w =>
    exact (flush_narrows t id).trans (retireWorker_narrows _ now id)

theorem updateWorker_narrows (id : Int) {f : Worker → Worker}
    (hk : ∀ w, (f w).accepted = w.accepted) : t.frame.Narrows (t.updateWorker id f).frame := by
  rw [updateWorker]
  cases hf : t.workers.find? id with
  | none => exact .refl _
  | some w => exact .insert hf (hk w)

theorem keepBytes_narrows (f : Facts F) (id b : Int) (d : List UInt8) :
    t.frame.Narrows (t.keepBytes f id b d).frame := by
  rw [keepBytes]
  cases hf : t.workers.find? id with
  | none => exact .refl _
  | some w =>
    exact .insert hf rfl

theorem keepBytes_title (f : Facts F) (id b : Int) (d : List UInt8) :
    (t.keepBytes f id b d).title = t.title := by
  rw [keepBytes]
  cases t.workers.find? id with
  | _ => rfl

theorem updateWorker_title (id : Int) (f : Worker → Worker) :
    (t.updateWorker id f).title = t.title := by
  rw [updateWorker]
  cases t.workers.find? id with
  | _ => rfl

variable {f : Facts F} {id : Int} {r : Nat} {n : HttpTask F} {c rest : List UInt8}
  {how : ChunkEnd} {frame fr : Frame}

theorem consume_title {t : HttpTask F} (hc : consume f id r t c = some (n, rest, how)) :
    n.title = t.title := by
  refine consume_preserve (motive := fun n => n.title = t.title)
    (fun _ _ h => h) (fun _ _ _ h => ?_) (fun _ _ h => ?_) (fun _ h => ?_) hc rfl
  · exact (keepBytes_title _ _ _ _ _).trans h
  · exact (cancelWorker_title _ _ _).trans h
  · exact (updateWorker_title _ _ _).trans h

theorem consume_narrows {t : HttpTask F} (hc : consume f id r t c = some (n, rest, how)) :
    t.frame.Narrows n.frame := by
  refine consume_preserve (motive := fun n => t.frame.Narrows n.frame)
    (fun _ _ h => ⟨h.phase, h.closing, h.nextWorkerId, h.workers⟩) (fun _ _ _ h => ?_)
    (fun _ _ h => ?_) (fun _ h => ?_) hc (.refl _)
  · exact h.trans (keepBytes_narrows _ _ _ _ _)
  · exact h.trans (cancelWorker_narrows _ _ _)
  · exact h.trans (updateWorker_narrows _ _ fun _ => rfl)

theorem Frame.Staged.of_idle (hw : fr.workers = ∅) (hc : fr.closing = true →
      fr.phase = .stopping ∨ fr.phase = .idle ∨ fr.phase = .done) : fr.Staged := by
  refine ⟨fun id w hf => ?_, fun _ id w hf => ?_, hc⟩
  · simp [hw] at hf
  · simp [hw] at hf

/-- Outside the phases with connections there is none. -/
theorem Frame.Staged.workers_empty (hs : fr.Staged)
    (hp : fr.phase ≠ .probing ∧ fr.phase ≠ .opening ∧ fr.phase ≠ .running) : fr.workers = ∅ := by
  apply OrdMap.ext_find?
  intro id
  cases hf : fr.workers.find? id with
  | none => rfl
  | some w =>
    rcases hs.live id w hf with h | h | h
    · exact absurd h hp.1
    · exact absurd h hp.2.1
    · exact absurd h hp.2.2

theorem foldl_narrows {A : Type*} {f : HttpTask F → A → HttpTask F}
    (hs : ∀ (t : HttpTask F) i, t.frame.Narrows (f t i).frame) (l : List A) (t : HttpTask F) :
    t.frame.Narrows (l.foldl f t).frame := by
  induction l generalizing t with
  | nil => exact .refl _
  | cons i r ih => exact (hs t i).trans (ih (f t i))

theorem settle_narrows (now id n : Int) : t.frame.Narrows (t.settle now id n).frame := by
  have hf := foldl_narrows (fun t o => cancelWorker_narrows t now
    o) (t.workers.keys.filter fun o => o ≠ id) t
  rw [settle]
  split_ifs
  · exact ⟨hf.phase, hf.closing, hf.nextWorkerId, hf.workers⟩
  · exact hf

theorem cancelAll_title (now : Int) : (t.cancelAll now).title = t.title :=
  foldl_title (fun t id => (retireWorker_title _ now id).trans (flush_title t id)) _ t

theorem foldl_write_frame (ps : List Piece) (t : HttpTask F) :
    (ps.foldl write t).frame = { t.frame with writes := t.writes ++ ps.map fun p =>
        ⟨p, t.planner.length⟩ } := by
  induction ps generalizing t with
  | nil => simp [frame]
  | cons p r ih =>
    rw [List.foldl_cons, ih]
    simp [frame, write, queue]

theorem checkpoint_frame (c : Bool) : (t.checkpoint c).frame = { t.frame with
      stored := (t.checkpoint c).stored } := by
  rw [checkpoint]
  split_ifs <;> rfl

theorem abort_phase (f : Facts F) (c : Failure) (m : String)
    (hl : t.phase = .probing ∨ t.phase = .opening ∨ t.phase = .running) :
    (t.abort f c m).phase = .done := by
  have hp : ¬ (t.phase = .done ∨ t.phase = .stopping) := by
    rcases hl with h | h | h <;> simp [h]
  rw [abort, if_neg hp]
  have hca := congrArg Title.phase (cancelAll_title { t with phase := .done } f.now)
  have hc := congrArg Frame.phase
    (checkpoint_frame (cancelAll { t with phase := .done } f.now) false)
  exact hc.trans hca

end

variable {frame fr : Frame} {strict st s : Rule} {t : HttpTask F}

theorem Frame.Staged.congr {n : Frame} (hs : fr.Staged) (hp : n.phase = fr.phase)
    (hc : n.closing = fr.closing) (hw : n.workers = fr.workers) : n.Staged := by
  constructor
  · rw [hp, hw]
    exact hs.live
  · rw [hp, hw]
    exact hs.fresh
  · rw [hp, hc]
    exact hs.resting

/-- A task with connections is not about to answer a stop. -/
theorem Frame.Staged.not_closing (hs : fr.Staged)
    (hp : fr.phase ≠ .stopping ∧ fr.phase ≠ .idle ∧ fr.phase ≠ .done) : fr.closing = false := by
  by_contra hc
  rcases hs.resting (Bool.not_eq_false _ ▸ hc) with h | h | h
  · exact hp.1 h
  · exact hp.2.1 h
  · exact hp.2.2 h

theorem move_staged {next : HttpTask F} (hm : Move s t next) (hs : t.frame.Staged) :
    next.frame.Staged := by
  cases hm with
  | frame hfr =>
    rw [hfr]
    exact hs
  | touch hf hk hdo =>
    have ha := congrArg (fun key => key.2.2.2.1) hk
    exact hs.narrow (.insert hf ha)
  | accept hf hp =>
    refine ⟨fun _ _ _ => .inr hp, fun hpr => ?_, hs.resting⟩
    rcases hp with h | h <;> cases hpr.symm.trans h
  | flush id => exact hs.narrow (flush_narrows t id)
  | retire now id => exact hs.narrow (retireWorker_narrows t now id)
  | release | decline | setLength | closeOutput | source | forgetRecord | claim | adopt | own
  | rename | report => exact hs.congr rfl rfl rfl
  | launch hpl hfre hmi ho hp =>
    refine ⟨fun _ _ _ => ?_, fun hpr id g hfo => ?_, hs.resting⟩
    · rcases hp with ⟨h, _⟩ | ⟨h, _⟩
      · exact .inl h
      · exact .inr (.inr h)
    · rw [frame, OrdMap.find?_insert] at hfo
      split_ifs at hfo
      · exact Option.some.inj hfo ▸ hfre.accepted
      · exact hs.fresh hpr id g hfo
  | consume hf hdo hp hco =>
    refine hs.narrow (.trans ?_ (consume_narrows hco))
    exact .insert hf rfl
  | @define now id w n hp hf =>
    have hse := settle_narrows { t with workers := t.workers.insert id { w with accepted := true } }
      now id n
    have hc := hs.not_closing (by simp [frame, hp])
    refine ⟨fun _ _ _ => .inr (.inl rfl), fun h => by contradiction, fun h => ?_⟩
    exact absurd (hc.symm.trans (hse.closing.symm.trans h)) Bool.false_ne_true
  | opened hp =>
    rw [foldl_write_frame]
    have hc := hs.not_closing (by simp [frame, hp])
    exact ⟨fun _ _ _ => .inr (.inr rfl), fun h => by contradiction,
      fun h => absurd (hc.symm.trans h) Bool.false_ne_true⟩
  | reset hp hr hst =>
    refine .of_idle rfl fun hc => ?_
    have hj : .stopClosed ∈ t.jobs := by
      simpa [frame, HttpTask.reset] using hc
    rcases hr with hr | hr
    · have hn := hs.not_closing (by simp [frame, hr])
      simp [frame, hj] at hn
    · exact absurd hj hr
  | @leave now phase hp =>
    refine .of_idle (cancelAll_workers _ now) fun _ => ?_
    have ht : (({ t with phase } : HttpTask F).cancelAll now).phase =
        phase := congrArg Title.phase (cancelAll_title _ now)
    rcases hp with rfl | rfl
    · exact .inr (.inr ht)
    · exact .inl ht
  | @restart now hl hst =>
    refine .of_idle (retireAll_workers _ now) fun hc => ?_
    have hna := foldl_narrows (fun t id =>
      retireWorker_narrows t now id) t.workers.keys
      { t with phase := .restarting }
    have hn : t.frame.closing = false := hs.not_closing (by
      rcases hl with h | h | h
      · simp [frame, h]
      · simp [frame, h]
      · simp [frame, h])
    exact absurd (hn.symm.trans (hna.closing.symm.trans hc)) Bool.false_ne_true
  | closing hp =>
    have hw := hs.workers_empty (by simp [frame, hp])
    exact .of_idle hw fun _ => .inl hp
  | callback job =>
    refine ⟨hs.live, hs.fresh, fun hc => ?_⟩
    refine hs.resting ?_
    have hmem : .stopClosed ∈ t.jobs.erase job := by
      simpa [frame] using hc
    simpa [frame] using List.mem_of_mem_erase hmem
  | idle hp =>
    have hw := hs.workers_empty (by
      rcases hp with h | h | h
      · simp [frame, h]
      · simp [frame, h]
      · simp [frame, h])
    exact .of_idle hw fun _ => .inr (.inl rfl)
  | finishing hw hp hou =>
    have hc := hs.not_closing (by simp [frame, hp])
    exact .of_idle hw fun h =>
      absurd (hc.symm.trans h) Bool.false_ne_true
  | leaveFinishing hp hne =>
    have hw := hs.workers_empty (by simp [frame, hp])
    have hc := hs.not_closing (by simp [frame, hp])
    exact .of_idle hw fun h =>
      absurd (hc.symm.trans h) Bool.false_ne_true
  | openOutput hp hst =>
    exact hs.congr rfl (by simp [frame, HttpTask.openOutput, queue]) rfl
  | checkpoint c =>
    rw [checkpoint_frame]
    exact hs.congr rfl rfl rfl
  | resume su hsto hpo hcon hdr hsu hp =>
    exact hs.congr rfl rfl rfl
  | succeed hp =>
    have hw := hs.workers_empty (by simp [frame, hp])
    exact .of_idle hw fun _ => .inr (.inr rfl)

section Callbacks

variable {strict st s : Rule}

variable (t : HttpTask F) (f : Facts F)

theorem onHeader_moves (id : Int) (response : Response) (hs : t.frame.Staged)
    (hk : s → t.title.Kept f) (he : s → t.title.Exposed → t.phase ≠ .probing ∧
      (200 ≤ response.status ∧ response.status < 300 →
        ∀ w, t.workers.find? id = some w → w.accepted = false →
            t.Continues { w with response } (-1))) : Moves s t (t.onHeader f id response) := by
  have hu : Moves s t (t.updateWorker id fun w =>
      { w with response }) :=
    updateWorker_moves t id (fun _ => rfl) fun _ h => h
  rw [onHeader]
  split_ifs with hg
  · refine hu.trans ?_
    rw [updateWorker]
    cases hf : t.workers.find? id with
    | none =>
      rw [accept, hf]
      exact .refl _
    | some w =>
      refine accept_moves _ f id (-1) (fun _ _ =>
        hs.live id w hf) hk fun h hexp => ?_
      obtain ⟨hp, ha⟩ := he h hexp
      refine ⟨hp, fun g hfo hn => ?_⟩
      rw [OrdMap.find?_insert_self] at hfo
      cases hfo
      exact ha hg w hf hn
  · exact hu

theorem tryFinish_moves : Moves s t (t.tryFinish f) := by
  rw [tryFinish]
  split_ifs with hp hop
  · exact .refl t
  · exact .refl t
  · have hc : Moves s t (t.workers.keys.foldl (fun t id => t.cancelWorker f.now id) t) :=
      Moves.foldl (fun t id => cancelWorker_moves t f.now id) _ t
    have hw := foldl_keys_workers (fun (t : HttpTask F) id other =>
      cancelWorker_find t f.now id other) t
    have ht := foldl_title (fun (t : HttpTask F) id =>
      cancelWorker_title t f.now id) t.workers.keys t
    have hr : t.phase = .running := by
      by_contra hn
      exact hp (.inl hn)
    generalize List.foldl _ t t.workers.keys = quiet at *
    dsimp only
    split_ifs with hb ho
    · exact hc
    · have hf : Move s quiet { quiet with phase := .finishing } := .finishing hw
          ((congrArg Title.phase ht).trans hr) ho
      exact (hc.trans (.one hf)).trans (queue_moves { quiet with phase := .finishing } (by simp))
    · exact hc

theorem countBytes_moves (id : Int) (w : Worker) (a : Int) : Moves s t (t.countBytes f id w a) := by
  refine .after (updateWorker_moves _ id (fun _ => rfl) fun _ h => h) ?_
  cases w.receiving with
  | _ => rfl

theorem endCopies_moves (id : Int) : Moves s t (t.endCopies f id) := by
  refine .foldl (fun t o => ?_) _ t
  split_ifs
  · exact updateWorker_moves t id (fun _ => rfl) fun _ _ => rfl
  · exact cancelWorker_moves t f.now o

theorem flush_moves (t : HttpTask F) (id : Int) : Moves s t (t.flush id) := Moves.one (.flush t id)

theorem received_moves (id : Int) (w : Worker) (a : Int) : Moves s t (t.received f id w a) := by
  have he : Moves s t ((t.countBytes f id w a).endCopies f id) :=
    (countBytes_moves t f id w a).trans (endCopies_moves _ f id)
  rw [received]
  cases ((t.countBytes f id w a).endCopies f id).workers.find? id with
  | none => exact he
  | some w =>
    dsimp only
    split_ifs
    · exact (he.trans (flush_moves _ id)).trans (tryFinish_moves _ f)
    · exact he.trans (flush_moves _ id)
    · exact he

theorem pause_moves (t : HttpTask F) (id : Int) : Moves s t ((if t.unflushed > writeBudget
      then t.workers.keys.foldl flush t else t).updateWorker id
        fun w => { w with paused := true }) := by
  refine .trans ?_ (updateWorker_moves _ id (fun _ => rfl) fun _ h => h)
  split_ifs
  · exact .foldl (fun t id => flush_moves t id) _ t
  · exact .refl t

theorem receive_moves (id : Int) (c : List UInt8) (hp : t.phase = .opening ∨ t.phase = .running)
    (hov : s → t.title.Exposed → ∀ r n rest, consume f id r (t.updateWorker id fun w =>
        { w with body := w.body ++ c }) c ≠ some (n, rest, .overrun)) :
    Moves s t (t.receive f id c) := by
  rw [receive]
  cases hf : t.workers.find? id with
  | none => exact .refl t
  | some w =>
    dsimp only
    by_cases ho : t.phase = .stopping ∨ t.phase = .done ∨ t.phase = .restarting ∨ w.done = true
    · rw [if_pos ho]
      exact .refl t
    rw [if_neg ho]
    by_cases hpa : t.unflushed > writeBudget ∨ !f.available
    · rw [if_pos hpa]
      exact pause_moves t id
    rw [if_neg hpa]
    cases hc : consume f id (2 * c.length + t.planner.workers.entries.length + 1)
        (t.updateWorker id fun w =>
          { w with body := w.body ++ c }) c with
    | none => exact .refl t
    | some re =>
      obtain ⟨n, rest, how⟩ := re
      have hdo : w.done = false := by
        by_contra hdo
        exact ho (.inr (.inr (.inr (by simpa using hdo))))
      have hm : Moves s t n := by
        rw [updateWorker, hf] at hc
        exact .one (.consume hf hdo hp hc)
      have ht : n.title = t.title := (consume_title hc).trans (updateWorker_title _ _ _)
      cases how with
      | used | ended => exact hm.trans (received_moves n f id w _)
      | overrun =>
        refine hm.trans (.after (changed_moves { n with
          rangesDistrusted := true } f _ ?_ fun h he => ?_) rfl)
        · have hs := congrArg Title.phase ht
          rcases hp with hp | hp
          · exact .inr (.inl (hs.trans hp))
          · exact .inr (.inr (hs.trans hp))
        · exact hov h (ht ▸ he) _ _ _ hc

theorem moves_staged {t n : HttpTask F} (hm : Moves s t n) (hs : t.frame.Staged) : n.frame.Staged :=
  Moves.preserve (motive := fun t => t.frame.Staged) (fun hmo h => move_staged hmo h) hm hs

theorem onData_moves (id : Int) (c : List UInt8) (left : Int) (hs : t.frame.Staged)
    (hk : s → t.title.Kept f) (he : s → t.title.Exposed → t.phase ≠ .probing ∧
      ∀ w, t.workers.find? id = some w → w.accepted = false → t.Continues w left)
    (ho : s → (t.accept f id left).title.Exposed → ∀ r n rest, consume f id r
        ((t.accept f id left).updateWorker id fun w =>
          { w with body := w.body ++ c }) c ≠ some (n, rest, .overrun)) :
    Moves s t (t.onData f id c left) := by
  have ha : Moves s t (t.accept f id left) := accept_moves t f id left (fun w hf =>
      hs.live id w hf) hk he
  have hn := moves_staged ha hs
  rw [onData]
  generalize t.accept f id left = n at *
  split_ifs with han
  · rcases hf : n.workers.find? id with _ | w
    · simp [hf] at han
    · have hac : w.accepted = true := by simpa [hf] using han
      have hp : n.phase = .opening ∨ n.phase = .running := by
        rcases hn.live id w hf with h | h
        · rw [hn.fresh h id w hf] at hac
          contradiction
        · exact h
      exact ha.trans (receive_moves n f id c hp ho)
  · exact ha

theorem checkpoint_running {t : HttpTask F} (hp : t.phase = .opening) (c : Bool) :
    ({ t with phase := .running } : HttpTask F).checkpoint c =
      { t.checkpoint c with phase := .running } := by
  rw [checkpoint, checkpoint]
  rw [hp]
  split_ifs <;> rfl

theorem outputReady_moves (e : Option String) : Moves s t (t.outputReady f e) := by
  rw [outputReady.eq_def]
  by_cases hp : t.phase = .opening
  · rw [if_neg (not_not.mpr hp)]
    rcases e with _ | reason
    · rw [checkpoint_running hp]
      have hs : Moves s t (t.checkpoint false) := .one (.checkpoint t false)
      have ho : Move s (t.checkpoint false) _ := Move.opened ((checkpoint_phase t false).trans hp)
      refine .trans ?_ (launch_moves _ f)
      refine .trans ?_ (tryFinish_moves _ f)
      refine .trans ?_ (.foldl (fun t id => flush_moves t id)
        _ _)
      exact hs.trans (.one ho)
    · exact abort_moves t f _ _
  · rw [if_pos hp]
    exact quiesce_moves t

theorem written_moves (x si : Int) (e : Option String) : Moves s t (t.written f x si e) := by
  rw [written.eq_def]
  by_cases hr : t.phase = .restarting
  · rw [if_pos hr]
    exact .after (restartWhenQuiet_moves _) rfl
  · rw [if_neg hr]
    rcases e with _ | reason
    · dsimp only
      split_ifs
      · exact .after (quiesce_moves _) rfl
      · exact .after (tryFinish_moves _ f) rfl
    · exact .after (abort_moves _ f _ _) rfl

theorem restart_moves (he : s → t.phase = .restarting → ¬ t.title.Exposed) :
    Moves s t (t.restart f) := by
  rw [restart]
  split_ifs with hp
  · exact quiesce_moves t
  · have hp : t.phase = .restarting := not_not.mp hp
    have hr : Move s t { t.reset with phase := .probing } :=
      Move.reset (.inl rfl) (.inl hp) fun h _ => he h hp
    refine (Moves.one hr).trans (Moves.after (launch_moves _ f) ?_)
    rfl

theorem abort_of_finishing_moves (c : Failure) (m : String) (hp : t.phase = .finishing) :
    Moves s t ({ t with phase := .running }.abort f c m) :=
  (Moves.one (Move.leaveFinishing hp (.inl rfl))).trans (abort_moves _ f c m)

theorem publish_moves (hp : t.phase = .finishing) (hs : t.suffix ≠ "")
    (hk : s → t.title.Kept f ∧ (t.suffix = "" ∨ t.suffix = t.options.incompleteSuffix)) :
    ((t.publish f).1 = false → Moves s t (t.publish f).2) ∧
    ((t.publish f).1 = true → ∃ path, Moves s t { t with path } ∧
        (t.publish f).2 = { t with path, suffix := "" }) := by
  rw [publish]
  generalize ht : (if f.fileExists t.path ∧ !t.options.allowOverwrite then
        (if t.options.autoFileRenaming then f.numbered t.path
          else none)
    else some t.path) = ta
  rcases ta with _ | path
  · exact ⟨fun _ => abort_moves t f _ _, fun h => by simp at h⟩
  · have hr : Moves s t { t with path } := by
      refine .one (.rename hp fun h hn a ha => ?_)
      obtain ⟨hf, ho⟩ := hk h
      rw [ho.resolve_left hs]
      split_ifs at ht
      · exact (hf.numbered a ha _ _ ht).2
      · exact absurd (Option.some.inj ht).symm hn
    rcases f.renameError with _ | reason
    · exact ⟨fun h => by simp at h, fun _ => ⟨path, hr, rfl⟩⟩
    · exact ⟨fun _ => hr.trans (abort_moves _ f _ _), fun h => by simp at h⟩

theorem succeed_moves (hp : t.phase = .finishing)
    (hk : s → t.title.Kept f ∧ (t.suffix = "" ∨ t.suffix = t.options.incompleteSuffix)) :
    Moves s t (t.succeed f) := by
  rw [succeed]
  split_ifs with hsu
  · have hs : Moves s t _ := .one (.succeed hp)
    rw [← hsu] at hs
    exact hs
  · obtain ⟨hf, hdo⟩ := publish_moves t f hp hsu hk
    rcases hpu : t.publish f with ⟨g, after⟩
    rw [hpu] at hf hdo
    rcases g with _ | _
    · exact hf rfl
    · obtain ⟨p, hm, ha⟩ := hdo rfl
      dsimp only at ha ⊢
      rw [ha]
      exact hm.trans (.one (.succeed hp))

theorem finishClosed_moves
    (hk : s → t.title.Kept f ∧ (t.suffix = "" ∨ t.suffix = t.options.incompleteSuffix)) :
    Moves s t (t.finishClosed f) := by
  have hc : Moves s t { t with output := false } := .one (.closeOutput t)
  rw [finishClosed]
  split_ifs with hp
  · exact hc.trans (quiesce_moves _)
  · exact hc.trans (queue_moves _ (by simp))
  · exact hc.trans (succeed_moves _ f (not_not.mp hp) fun h =>
      ⟨(hk h).1.of_eq rfl rfl, (hk h).2⟩)
  · exact hc.trans (queue_moves _ (by simp))

theorem verified_moves (fa : Option String)
    (hk : s → t.title.Kept f ∧ (t.suffix = "" ∨ t.suffix = t.options.incompleteSuffix)) :
    Moves s t (t.verified f fa) := by
  rw [verified.eq_def]
  by_cases hp : t.phase = .finishing
  · rw [if_neg (not_not.mpr hp)]
    rcases fa with _ | fa
    · exact succeed_moves t f hp hk
    · split_ifs
      · exact abort_of_finishing_moves t f _ _ hp
      · exact queue_moves t (by simp)
  · rw [if_pos hp]
    exact quiesce_moves t

theorem forgetPiece_moves (t : HttpTask F) (p : Nat) : Moves s t (t.forgetPiece p) := by
  rw [forgetPiece]
  split
  · split_ifs with hm
    · exact .after (.one (.source _ (fun _ => ⟨rfl, rfl, rfl⟩) fun _ => .inr (.inr hm))) rfl
    · exact .frame rfl
  · exact .frame rfl

theorem forgetPiece_title (t : HttpTask F) (p : Nat) : (t.forgetPiece p).title = t.title := by
  rw [forgetPiece]
  split
  · split_ifs <;> rfl
  · rfl

theorem repair_moves (t : HttpTask F) (bad : List Nat) (hp : t.phase = .finishing) :
    Moves s t (t.repair bad) := by
  rw [repair]
  have hf : Moves s t (bad.foldl forgetPiece { t with repairs := t.repairs + 1 }) :=
    Moves.after (.foldl (fun t p => forgetPiece_moves t p) bad _) rfl
  have ht := foldl_title (fun (t : HttpTask F) p =>
    forgetPiece_title t p) bad { t with repairs := t.repairs + 1 }
  generalize bad.foldl forgetPiece { t with repairs := t.repairs + 1 } = forgotten at *
  have hl : Move s forgotten { forgotten with phase := .opening } :=
    Move.leaveFinishing ((congrArg Title.phase ht).trans hp) (.inr rfl)
  exact (hf.trans (.one hl)).trans (openOutput_moves _ rfl fun _ h => by contradiction)

theorem piecesChecked_moves (fa : String) (bad : Option (List Nat))
    (hk : s → t.title.Kept f ∧ (t.suffix = "" ∨ t.suffix = t.options.incompleteSuffix)) :
    Moves s t (t.piecesChecked f fa bad) := by
  rw [piecesChecked.eq_def]
  by_cases hp : t.phase = .finishing
  · rw [if_neg (not_not.mpr hp)]
    rcases bad with _ | bad
    · exact abort_of_finishing_moves t f _ _ hp
    · rcases bad with _ | ⟨piece, rest⟩
      · dsimp only
        split_ifs
        · exact succeed_moves t f hp hk
        · exact abort_of_finishing_moves t f _ _ hp
      · dsimp only
        split_ifs
        · exact repair_moves t _ hp
        · exact abort_of_finishing_moves t f _ _ hp
  · rw [if_pos hp]
    exact quiesce_moves t

theorem updateSource_moves (t : HttpTask F) (i : Nat) {f : Source → Source}
    (hk : ∀ s, (f s).uid = s.uid ∧ (f s).uri = s.uri ∧ (f s).active = s.active)
    (hs : st.spares → t.Spared i f) : Moves st t (t.updateSource i f) := Moves.one (.source i hk hs)

theorem updateSlot_moves (t : HttpTask F) (i : Nat) (f : Slot → Slot) :
    Moves s t (t.updateSlot i f) := .frame rfl

theorem overloaded_moves (w : Worker) (st r : Int) : Moves strict t (t.overloaded f w st r) := by
  rw [overloaded]
  generalize t.overloadWait f w = wait
  have hs : Moves strict t (t.updateSource w.source fun s => { s with readyAt := f.now + wait }) :=
    updateSource_moves t _ (fun _ => ⟨rfl, rfl, rfl⟩) fun _ => .inl fun _ => rfl
  generalize t.updateSource w.source _ = waiting at *
  generalize (if waiting.pooled = true then max r f.transferring
    else r) = transferring
  split_ifs
  · exact hs.trans (abort_moves _ f _ _)
  · exact hs.trans (slotFailed_moves _ f _ _ _ _)
  · exact hs
  · exact hs.trans (.frame rfl)

theorem missing_moves (hb : ¬ strict.spares) (w : Worker) (st : Int) :
    Moves strict t (t.missing f w st) := by
  have hs : Moves strict t (t.updateSource w.source fun s =>
        { s with
          notFound := s.notFound + 1
          dead := s.dead || s.notFound + 1 ≥
            max t.options.maxFileNotFound 1 || t.sources.length > 1 }) :=
    updateSource_moves t _ (fun _ => ⟨rfl, rfl, rfl⟩) (absurd · hb)
  rw [missing]
  split_ifs
  · exact hs.trans (abort_moves _ f _ _)
  · exact hs.trans (abort_moves _ f _ _)
  · exact hs.trans (slotFailed_moves _ f _ _ _ _)
  · exact hs.trans (slotFailed_moves _ f _ _ _ _)

theorem failedStatus_moves (hb : ¬ st.spares) (w : Worker) (s : Int) (hl : t.Live)
    (he : st → t.title.Exposed → s ≠ 412 ∧ s ≠ 416) : Moves st t (t.failedStatus f w s) := by
  rw [failedStatus]
  split_ifs with ho hr hm
  · exact overloaded_moves t f w s _
  · exact changed_moves t f _ hl fun h hexp =>
      (he h hexp).2 hr.1
  · exact changed_moves t f _ hl fun h hexp =>
      (he h hexp).1 hm.1
  · exact missing_moves t f hb w s
  · exact abort_moves t f _ _
  · exact slotFailed_moves t f _ _ _ _
  · exact slotFailed_moves t f _ _ _ _

theorem blameSource_moves (hb : ¬ st.spares) (i : Nat) : Moves st t (t.blameSource f i) := by
  refine updateSource_moves t i (fun s => ?_) (absurd · hb)
  split_ifs <;> exact ⟨rfl, rfl, rfl⟩

theorem retireWorker_moves (t : HttpTask F) (now id : Int) :
    Moves s t (t.retireWorker now id) := .one (.retire t now id)

theorem failedResponse_moves (hbl : ¬ strict.spares) (id : Int) (w : Worker) (c : CurlCode)
    (st : Int) (d : Option (Option String)) (hl : t.Live)
    (hexpo : strict → t.title.Exposed → c = .httpReturnedError → st ≠ 412 ∧ st ≠ 416) :
    Moves strict t (t.failedResponse f id w c st d) := by
  rw [failedResponse.eq_def]
  rcases d with _ | pinned
  · dsimp only
    have hr : Moves strict t (t.retireWorker f.now id) := retireWorker_moves t f.now id
    have ht := retireWorker_title t f.now id
    generalize t.retireWorker f.now id = retired at *
    have hb := hr.trans (blameSource_moves retired f hbl w.source)
    by_cases hem : c = .httpReturnedError ∧ st = 416 ∧
        t.ranged = true ∧ t.planner.length < 0 ∧ w.response.unsatisfied = some 0
    · rw [if_pos hem]
      exact hr.trans (.after (launch_moves _ f) rfl)
    rw [if_neg hem]
    by_cases he : c = .httpReturnedError ∧ w.redirected = true ∧
        (st = 401 ∨ st = 403 ∨ st = 404 ∨ st = 410)
    · rw [if_pos he]
      refine .trans ?_ (launch_moves _ f)
      exact hr.trans (updateSource_moves _ _ (fun _ => ⟨rfl, rfl, rfl⟩) fun _ => .inl fun _ => rfl)
    rw [if_neg he]
    by_cases hc : c = .httpReturnedError
    · rw [if_pos hc]
      refine hb.trans (failedStatus_moves _ f hbl w st ?_ fun h hexp => ?_)
      · have hs := congrArg Title.phase ht
        change retired.phase = _ ∨ retired.phase = _ ∨ retired.phase = _
        rw [show retired.phase = t.phase from hs]
        exact hl
      · refine hexpo h ?_ hc
        rw [← ht]
        exact hexp
    · rw [if_neg hc]
      by_cases hp : permanent c = true
      · have hde := hb.trans (updateSource_moves (retired.blameSource f w.source) w.source
          (f := fun s => { s with dead := true }) (fun _ => ⟨rfl, rfl, rfl⟩) (absurd · hbl))
        split_ifs
        · exact hde.trans (abort_moves _ f _ _)
        · exact hde.trans (slotFailed_moves _ f _ _ _ _)
      · rw [if_neg hp, if_neg fun h => hp h.1]
        exact hb.trans (slotFailed_moves _ f _ _ _ _)
  · refine .trans ?_ (launch_moves _ f)
    refine .trans ?_ (updateSlot_moves _ _ _)
    refine .trans ?_ (retireWorker_moves _ f.now id)
    exact updateSource_moves t _ (fun _ => ⟨rfl, rfl, rfl⟩) fun _ => .inl fun _ => rfl

theorem flush_live {t : HttpTask F} (hl : t.Live) (id : Int) : (t.flush id).Live := by
  have hp := congrArg Title.phase (flush_title t id)
  change t.title.phase = _ ∨ t.title.phase = _ ∨ t.title.phase = _ at hl
  rw [← hp] at hl
  exact hl

/-- The end of a stream sets the length. -/
theorem endStream_moves (t : HttpTask F) (id : Int) (hli : t.Live) :
    Moves s t (t.endStream id) := by
  rw [endStream]
  rcases hf : t.planner.workers.find? id with _ | planned
  · exact .refl t
  · split_ifs with hl
    · have hs : t.planner.spans id = some (planned.position, planned.stop, planned.requestEnd) := by
        rw [SegmentPlanner.spans, hf]
        rfl
      exact .one (.setLength (.stream hl hli hs))
    · exact .refl t

theorem finished_moves (hb : ¬ st.spares) (id : Int) (c : CurlCode) (s : Int)
    (d : Option (Option String)) (hs : t.frame.Staged)
    (hexpo : st → t.title.Exposed → c = .httpReturnedError → s ≠ 412 ∧ s ≠ 416) :
    Moves st t (t.finished f id c s d) := by
  rw [finished]
  rcases hfi : t.workers.find? id with _ | w
  · exact .refl t
  have hf : Moves st t (t.flush id) := flush_moves t id
  have hl := flush_live (hs.live id w hfi) id
  have ht := flush_title t id
  dsimp only
  generalize t.flush id = flushed at *
  by_cases ho : flushed.phase = .stopping ∨ flushed.phase = .done ∨ flushed.phase = .restarting
  · rw [if_pos ho]
    exact (hf.trans (retireWorker_moves _ f.now id)).trans (quiesce_moves _)
  rw [if_neg ho]
  by_cases hfa : c ≠ .ok ∧ ¬ (w.done = true ∧ c = .writeError)
  · rw [if_pos hfa]
    refine hf.trans (failedResponse_moves flushed f hb id w c s d hl fun h hexp => ?_)
    rw [ht] at hexp
    exact hexpo h hexp
  have he := hf.trans ((endStream_moves flushed id hl).trans (retireWorker_moves _ f.now id))
  split_ifs
  · exact he.trans (slotFailed_moves _ f _ _ _ _)
  · exact (he.trans (tryFinish_moves _ f)).trans (launch_moves _ f)

theorem replaceWorkers_moves (ids : List Int) : Moves s t (t.replaceWorkers f ids) := by
  rw [replaceWorkers]
  split_ifs
  · exact .refl t
  · refine .foldl (fun t id => ?_) ids t
    rcases t.workers.find? id with _ | w
    · exact .refl t
    · exact (cancelWorker_moves t f.now id).trans (updateSlot_moves _ _ _)

theorem shed_moves (now a : Int) (r : Nat) (t : HttpTask F) : Moves s t (shed now a r t) := by
  induction r generalizing t with
  | zero => exact .refl t
  | succ r ih =>
    rw [shed]
    split_ifs
    · rcases t.shedVictim with _ | victim
      · exact .refl t
      · exact (cancelWorker_moves t now victim).trans (ih _)
    · exact .refl t

theorem shedConnections_moves : Moves s t (t.shedConnections f) := by
  rw [shedConnections]
  split_ifs
  · exact .refl t
  · exact shed_moves _ _ _ t

theorem updateSpeed_frame (t : HttpTask F) (id : Int) (b s : F) : ({ t with
      planner := t.planner.updateSpeed id b s } : HttpTask F).frame = t.frame := by
  have hs := t.planner.updateSpeed_spans id b s
  have hr : (t.planner.updateSpeed id b s).length = t.planner.length ∧ (t.planner.updateSpeed id b
        s).minSplit = t.planner.minSplit := by
    rw [SegmentPlanner.updateSpeed]
    rcases t.planner.workers.find? id with _ | w <;> exact ⟨rfl, rfl⟩
  rw [frame, hs, hr.1, hr.2, frame]

theorem tickWorker_moves (f : Facts F) (t : HttpTask F) (e : Int × Worker) :
    Moves s t (tickWorker f t e) := by
  obtain ⟨id, w⟩ := e
  have hs : Moves s t (t.sampleSpeed id w) :=
    Moves.after (updateWorker_moves _ id (fun _ => rfl) fun _ h => h) (updateSpeed_frame t id _ _)
  have hf : Moves s t ((t.sampleSpeed id w).flushOld f id w) := by
    refine hs.trans ?_
    rw [flushOld]
    split_ifs
    · exact flush_moves _ id
    · exact .refl _
  rw [tickWorker]
  generalize (t.sampleSpeed id w).flushOld f id w = sampled at *
  have hc : Moves s t (sampled.noteConnected f id w) := by
    refine hf.trans ?_
    rw [noteConnected]
    split_ifs
    · exact updateWorker_moves sampled id (fun _ => rfl) fun _ h => h
    · exact .refl sampled
  split_ifs
  · exact hf.trans (updateWorker_moves sampled id (fun _ => rfl) fun _ h => h)
  · exact hf
  · exact (hc.trans (cancelWorker_moves _ f.now id)).trans (slotFailed_moves _ f _ _ _ _)
  · exact hc

theorem tick_moves (m r : List Int) : Moves s t (t.tick f m r) := by
  rw [tick]
  split_ifs
  · exact .refl t
  · refine .trans ?_ (launch_moves _ f)
    refine .trans ?_ (shedConnections_moves _ f)
    refine .trans ?_ (replaceWorkers_moves _ f r)
    refine .trans ?_ (.foldl (fun t e =>
      tickWorker_moves f t e) _ _)
    exact replaceWorkers_moves t f m

end Callbacks

/-- The inputs that rebuild the list of sources do so first. -/
def reshape (task : HttpTask F) : Input → HttpTask F
  | .changeUris remove add position _ => task.editUris remove add position
  | .recreate => task.recreate
  | _ => task

/-- The server carries on with the file the task has. -/
def CarriesOn (task : HttpTask F) (event : Event F) : Prop :=
  match event.input with
  | .header id response => 200 ≤ response.status ∧ response.status < 300 →
      ∀ worker, task.workers.find? id = some worker →
        worker.accepted = false → task.Continues { worker with response } (-1)
  | .data id chunk remaining =>
    (∀ worker, task.workers.find? id = some worker →
      worker.accepted = false → task.Continues worker remaining) ∧
    ∀ planned, task.planner.workers.find? id = some planned →
      planned.position + chunk.length ≤ task.planner.length
  | .done _ code status _ => code = .httpReturnedError → status ≠ 412 ∧ status ≠ 416
  | _ => True

/-- What makes a step safe for an adopted file. -/
structure Guarded (task : HttpTask F) (event : Event F) : Prop where
  kept : task.title.Kept event.facts
  suffix : task.suffix = "" ∨ task.suffix = task.options.incompleteSuffix
  phase : task.title.Exposed → task.phase ≠ .probing ∧ task.phase ≠ .restarting
  resumes : task.title.Exposed → event.input = .start →
    task.phase = .idle ∨ task.phase = .done → task.Resumes event.facts
  carriesOn : task.title.Exposed → task.CarriesOn event
  overrun : ∀ id chunk remaining, event.input = .data id chunk remaining →
    (task.accept event.facts id remaining).title.Exposed →
      ∀ rounds next rest, consume event.facts id rounds
        ((task.accept event.facts id remaining).updateWorker id fun worker =>
          { worker with body := worker.body ++ chunk }) chunk ≠ some (next, rest, .overrun)
  discard : event.input = .discardState → task.adopted = []

theorem jobDone_moves (t : HttpTask F) (f : Facts F) (r : JobResult) {job : Job}
    (hj : job ∈ t.jobs) (hs : t.frame.Staged)
    (hk : s → t.title.Kept f ∧ (t.suffix = "" ∨ t.suffix = t.options.incompleteSuffix))
    (hp : s → t.phase = .restarting → ¬ t.title.Exposed) :
    Moves s t ({ t with jobs := t.jobs.erase job }.jobDone f r job) := by
  have hc : Moves s t { t with jobs := t.jobs.erase job } := .one (.callback t job)
  refine hc.trans ?_
  have hk : s → ({ t with jobs := t.jobs.erase job } :
      HttpTask F).title.Kept f ∧ (t.suffix = "" ∨ t.suffix = t.options.incompleteSuffix) := hk
  rcases job with _ | ⟨offset, size⟩ | _ | _ | _ | _ | failure
  · exact outputReady_moves _ f _
  · exact written_moves _ f offset size _
  · exact restart_moves _ f hp
  · exact finishClosed_moves _ f hk
  · refine stopClosed_moves _ (hs.resting ?_)
    simpa [frame] using hj
  · exact verified_moves _ f _ hk
  · exact piecesChecked_moves _ f failure _ hk

/-- Every step is a sequence of moves. -/
theorem step_moves (t : HttpTask F) (e : Event F) (hs : t.frame.Staged) (hg : s → t.Guarded e)
    (hb : s.spares → ∀ id code status d, e.input ≠ .done id code status d) :
    Moves s (t.reshape e.input) (t.step e) := by
  obtain ⟨i, f⟩ := e
  rcases i with _ | _ | ⟨id, response⟩ | ⟨id, chunk, remaining⟩ |
    ⟨id, code, status, d⟩ | ⟨job, result⟩ | ⟨moved, replaced⟩ |
    ⟨remove, add, position, active⟩ | complete | _ | _ | _
  · rw [step]
    dsimp only [reshape]
    split_ifs with hr
    · exact start_moves t f hr.2 (fun h => (hg h).kept) fun h he => (hg h).resumes he rfl hr.1
    · exact .refl t
  · exact stop_moves t f
  · exact onHeader_moves t f id response hs (fun h => (hg h).kept) fun h he =>
        ⟨((hg h).phase he).1, (hg h).carriesOn he⟩
  · exact onData_moves t f id chunk remaining hs (fun h => (hg h).kept)
      (fun h he => ⟨((hg h).phase he).1, ((hg h).carriesOn he).1⟩)
      fun h => (hg h).overrun id chunk remaining rfl
  · exact finished_moves t f (fun h => hb h _ _ _ _ rfl) id code status d hs
      fun h he => (hg h).carriesOn he
  · rw [step]
    dsimp only [reshape]
    split_ifs with hj
    · exact jobDone_moves t f result hj hs (fun h => ⟨(hg h).kept, (hg h).suffix⟩)
        fun h hp he => ((hg h).phase he).2 hp
    · exact .refl t
  · exact tick_moves t f moved replaced
  · change Moves s (t.editUris remove add position)
      (if active then (t.editUris remove add position).launch f
        else t.editUris remove add position)
    split_ifs
    · exact launch_moves _ f
    · exact .refl _
  · exact .one (.checkpoint t complete)
  · rw [step]
    dsimp only [reshape]
    split_ifs with hp
    · refine loadProgress_moves t f hp ?_ fun h => (hg h).kept
      exact hs.workers_empty (by simp [frame, hp])
    · exact .refl t
  · exact .one (.forgetRecord fun h => (hg h).discard rfl)
  · exact .refl _

/-- What the moves and the two reshapings preserve, every step preserves. -/
theorem step_preserve {motive : HttpTask F → Prop}
    (hmo : ∀ {t n : HttpTask F}, Move {} t n → t.frame.Staged → motive t → motive n) {e : Event F}
    (hst : t.frame.Staged) (hsta : (t.reshape e.input).frame.Staged ∧ motive (t.reshape e.input)) :
    motive (t.step e) := by
  have hm : Moves {} (t.reshape e.input) (t.step e) := step_moves t e hst False.elim False.elim
  have hb := Moves.preserve (motive := fun t => t.frame.Staged ∧ motive t)
    (fun hs h => ⟨move_staged hs h.1, hmo hs h.1 h.2⟩) hm hsta
  exact hb.2

theorem create_staged (os : Options) (uris : List String) (d : Int) (pt : String) (p : Int)
    (ps : Nat) : (create os uris d pt p ps : HttpTask F).frame.Staged :=
  Frame.Staged.of_idle rfl fun h => by contradiction

theorem reshape_staged (hs : t.frame.Staged) (i : Input) : (t.reshape i).frame.Staged := by
  rw [reshape.eq_def]
  split
  · exact hs.congr rfl rfl rfl
  · exact .of_idle rfl fun h => by contradiction
  · exact hs

theorem step_staged (hs : t.frame.Staged) (e : Event F) : (t.step e).frame.Staged :=
  step_preserve (motive := fun t => t.frame.Staged) (fun hm h _ => move_staged hm h) hs
    ⟨reshape_staged hs e.input, reshape_staged hs e.input⟩

end HttpTask

end Aria2Next
