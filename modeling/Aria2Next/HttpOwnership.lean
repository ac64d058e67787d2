/-
Adopted files.  A task that adopts an existing file does not own it, but a
resume from the stored record makes it the owner: the record does not tell.
From then on the file is exposed, and what keeps it is that the server carries
on with the same file.
-/
import Aria2Next.HttpBytes

namespace Aria2Next

universe u

variable {F : Type u} [Double F]

namespace HttpTask

namespace Title

/-- The record a start of the task resumes from. -/
def Recorded (title : Title) : Prop :=
  title.options.removeControlFile = false ∧ title.options.dryRun = false ∧
    ∃ record, title.stored = some record ∧ 0 < record.totalLength ∧ record.path = title.path

/-- No adopted file was truncated, and an exposed one is out of the ways
that lead there. -/
structure Safe (title : Title) : Prop where
  opens : ∀ entry ∈ title.opens, entry.truncate = true → entry.foreign = false
  continued : title.adopted ≠ [] → title.options.continue_ = true
  suffix : title.suffix = "" ∨ title.suffix = title.options.incompleteSuffix
  phase : title.Exposed → title.phase ≠ .probing ∧ title.phase ≠ .restarting
  recorded : title.Exposed → .complete ∈ title.reports ∨ title.Recorded

variable {tt n : Title}

theorem Safe.of_eq (hs : tt.Safe) (he : n = tt) : n.Safe := he ▸ hs

/-- Without adopted files nothing is exposed. -/
theorem hidden_of_nil (hn : tt.adopted = []) : ¬ tt.Exposed := by
  rintro ⟨_, hc⟩
  apply hc
  intro p hp
  rw [hn] at hp
  contradiction

/-- A title that is not exposed. -/
theorem Safe.of_hidden (hsa : tt.Safe) (ho : n.opens = tt.opens)
    (hc : n.adopted ≠ [] → n.options.continue_ = true)
    (hs : n.suffix = "" ∨ n.suffix = n.options.incompleteSuffix) (hh : ¬ n.Exposed) : n.Safe :=
  { opens := ho ▸ hsa.opens
    continued := hc
    suffix := hs
    phase := fun h => absurd h hh
    recorded := fun h => absurd h hh }

/-- Another phase that does not lead to a new start of the file. -/
theorem Safe.go (hs : tt.Safe) {phase : Phase}
    (hp : phase ≠ .probing ∧ phase ≠ .restarting ∨ ¬ tt.Exposed) :
    ({ tt with phase } : Title).Safe :=
  { hs with
    phase := by
      intro he
      rcases hp with h | h
      · exact h
      · exact absurd he h }

end Title

theorem foldl_write_title (ps : List Piece) (t : HttpTask F) :
    (ps.foldl write t).title = t.title := foldl_title (f := write) (fun _ _ => rfl) ps t

variable {t next n : HttpTask F} {strict : Rule} {id : Int}

theorem frame_title (hf : n.frame = t.frame) : n.title = t.title := by
  have ht : ∀ t : HttpTask F, t.title =
      { options := t.frame.options, phase := t.frame.phase,
        path := t.frame.path, suffix := t.frame.suffix,
        owned := t.frame.owned, stored := t.frame.stored,
        opens := t.frame.opens, adopted := t.frame.adopted,
        reports := t.frame.reports } := fun _ => rfl
  rw [ht, ht, hf]

/-- What the task stores is where its file is. -/
theorem checkpoint_title (t : HttpTask F) (c : Bool) : (t.checkpoint c).title = t.title ∨
      t.options.dryRun = false ∧ ∃ r, 0 < r.totalLength ∧ r.path = t.path ∧
        (t.checkpoint c).title = { t.title with stored := some r } := by
  rw [checkpoint]
  split_ifs with hs
  · exact .inl rfl
  · refine .inr ⟨?_, _, ?_, ?_, rfl⟩
    · simp only [not_or] at hs
      simpa using hs.2.2.1
    · simp only [not_or] at hs
      exact lt_of_not_ge hs.2.1
    · rfl

theorem move_safe (hm : Move { safe := True } t n) (hs : t.title.Safe) : n.title.Safe := by
  cases hm with
  | frame hfr =>
    rw [frame_title hfr]
    exact hs
  | flush id =>
    rw [flush_title]
    exact hs
  | retire now id =>
    rw [retireWorker_title]
    exact hs
  | consume hfi hdo hp hcon =>
    rw [consume_title hcon]
    exact hs
  | @define now id w total hp hfi =>
    have hse := settle_title { t with workers := t.workers.insert id { w with accepted := true } }
      now id total
    have ho := congrArg (fun title : Title =>
      ({ title with phase := .opening } : Title)) hse
    refine .of_eq ?_ ho
    exact hs.go (.inl ⟨nofun, nofun⟩)
  | opened hp =>
    rw [foldl_write_title]
    exact hs.go (.inl ⟨nofun, nofun⟩)
  | @reset phase hp hre hst =>
    refine hs.go ?_
    rcases hp with rfl | rfl
    · exact .inr (hst trivial rfl)
    · exact .inl ⟨nofun, nofun⟩
  | @leave now phase hp =>
    rw [cancelAll_title]
    refine hs.go (.inl ?_)
    rcases hp with rfl | rfl <;> exact ⟨nofun, nofun⟩
  | @restart now hl hst =>
    have hh := hst trivial
    have hti := foldl_title (fun t id =>
      retireWorker_title t now id) t.workers.keys
      { t with phase := .restarting }
    have hfo := congrArg (fun title : Title =>
      ({ title with stored := none } : Title)) hti
    refine .of_eq ?_ hfo
    exact hs.of_hidden rfl hs.continued hs.suffix hh
  | idle hp => exact hs.go (.inl ⟨nofun, nofun⟩)
  | finishing hw hp hou =>
    exact hs.go (.inl ⟨nofun, nofun⟩)
  | leaveFinishing hp hn =>
    refine hs.go (.inl ?_)
    rcases hn with rfl | rfl <;> exact ⟨nofun, nofun⟩
  | @openOutput truncate hp hst =>
    refine { hs with opens := ?_ }
    intro entry he ht
    rcases List.mem_append.mp he with he | he
    · exact hs.opens entry he ht
    · cases List.mem_singleton.mp he
      have hc := hst trivial ht
      by_contra hf
      have hme : t.diskPath ∈ t.adopted := by simpa using hf
      exact hc _ hme rfl
  | checkpoint c =>
    rcases checkpoint_title t c with
      hsa | ⟨hdr, record, hpo, hpa, hsto⟩
    · rw [hsa]
      exact hs
    · rw [hsto]
      exact { hs with
        recorded := fun hexp => (hs.recorded hexp).imp_right
          fun hr => ⟨hr.1, hdr, record, rfl, hpo, hpa⟩ }
  | forgetRecord hst | claim _ hst =>
    refine hs.of_hidden rfl hs.continued hs.suffix ?_
    exact Title.hidden_of_nil (hst trivial)
  | @resume record suffix hsto hpo hcont hdr hsu hp hw =>
      refine
        { opens := hs.opens
          continued := hs.continued
          suffix := hsu
          phase := fun _ => ?_
          recorded := fun _ => .inr ⟨hcont, hdr, record, hsto, hpo, rfl⟩ }
      rcases hp with h | h <;> simp [title, h]
  | adopt path hpa hco hp =>
    refine hs.of_hidden rfl (fun _ => hco) (.inl rfl) ?_
    rintro ⟨hown, _⟩
    contradiction
  | own hp hsu hst =>
    refine hs.of_hidden rfl hs.continued hsu ?_
    rintro ⟨_, hc⟩
    exact hc (hst trivial)
  | @rename path hp hst =>
    by_cases hpa : path = t.path
    · rw [hpa]
      exact hs
    · refine hs.of_hidden rfl hs.continued hs.suffix ?_
      rintro ⟨_, hc⟩
      exact hc (hst trivial hpa)
  | succeed hp =>
    exact
      { opens := hs.opens
        continued := hs.continued
        suffix := .inl rfl
        phase := fun _ => ⟨nofun, nofun⟩
        recorded := fun _ => .inl (by simp [title]) }
  | report report =>
    exact { hs with recorded := fun hexp => (hs.recorded hexp).imp_left fun h =>
        List.mem_append_left _ h }
  | _ => exact hs

/-- A file becomes exposed only while there is no connection. -/
theorem move_exposed (hm : Move { safe := True } t n) (hsta : t.frame.Staged)
    (he : n.title.Exposed) : t.title.Exposed ∨ n.workers = ∅ := by
  cases hm with
  | frame hf =>
    rw [frame_title hf] at he
    exact .inl he
  | flush id =>
    rw [flush_title] at he
    exact .inl he
  | retire now id =>
    rw [retireWorker_title] at he
    exact .inl he
  | consume hfi hdo hp hc =>
    rw [consume_title hc] at he
    exact .inl he
  | @define now id w tl hp hfi =>
    have hse := settle_title { t with workers := t.workers.insert id { w with accepted := true } }
      now id tl
    refine .inl ?_
    have hb : ({ (settle (F := F) { t with
        workers := t.workers.insert id { w with accepted := true } }
          now id tl).title with phase := .opening } : Title).Exposed := he
    rw [hse] at hb
    exact hb
  | opened hp =>
    rw [foldl_write_title] at he
    exact .inl he
  | @leave now phase hp =>
    rw [cancelAll_title] at he
    exact .inl he
  | @restart now hl hs => exact .inr (retireAll_workers _ now)
  | resume suffix hst hpo hcon hdr hsu hp hw =>
    exact .inr hw
  | checkpoint c =>
    rcases checkpoint_title t c with
      hsa | ⟨_, record, _, _, hst⟩
    · rw [hsa] at he
      exact .inl he
    · rw [hst] at he
      exact .inl he
  | adopt path hpa hco hp =>
    obtain ⟨ho, _⟩ := he
    contradiction
  | own hp hsu hs =>
    exact absurd (hs trivial) he.2
  | @rename path hp hs =>
    by_cases hpa : path = t.path
    · rw [hpa] at he
      exact .inl he
    · exact absurd (hs trivial hpa) he.2
  | succeed hp =>
    exact .inr (hsta.workers_empty (by simp [frame, hp]))
  | _ => exact .inl he

/-- Connections that have ended do not come back, and ids are not used
again. -/
structure Frame.Ages (frame next : Frame) : Prop where
  nextWorkerId : frame.nextWorkerId ≤ next.nextWorkerId
  gone : ∀ id < frame.nextWorkerId, frame.workers.find? id = none →
    next.workers.find? id = none

namespace Frame

variable {fr n last : Frame}

theorem Ages.trans (hf : fr.Ages n) (hl : n.Ages last) : fr.Ages last :=
  ⟨hf.nextWorkerId.trans hl.nextWorkerId, fun id hi hn =>
    hl.gone id (hi.trans_le hf.nextWorkerId) (hf.gone id hi hn)⟩

theorem Ages.of_workers (hn : n.nextWorkerId = fr.nextWorkerId)
    (hw : ∀ id w, n.workers.find? id = some w → ∃ old, fr.workers.find? id = some old) :
    fr.Ages n := by
  refine ⟨hn.ge, fun id _ hno => ?_⟩
  by_contra hs
  obtain ⟨w, hf⟩ := Option.ne_none_iff_exists'.mp hs
  obtain ⟨old, hold⟩ := hw id w hf
  cases hno.symm.trans hold

theorem Narrows.ages (hn : fr.Narrows n) : fr.Ages n := by
  refine .of_workers hn.nextWorkerId fun id w hf => ?_
  obtain ⟨old, hold, _⟩ := hn.workers id w hf
  exact ⟨old, hold⟩

theorem Ages.insert {id : Int} {old : Worker} (w : Worker) (hfi : fr.workers.find? id = some old) :
    fr.Ages { fr with workers := fr.workers.insert id w } := by
  refine .of_workers rfl fun o g hf => ?_
  by_cases ho : o = id
  · exact ⟨old, ho ▸ hfi⟩
  · have hs := OrdMap.find?_insert_of_ne fr.workers w ho
    exact ⟨g, hs.symm.trans hf⟩

end Frame

theorem move_ages (hm : Move strict t n) : t.frame.Ages n.frame := by
  have hs : ∀ frame : Frame, frame.nextWorkerId = t.nextWorkerId →
      frame.workers = t.workers → t.frame.Ages frame := by
    intro frame hne hw
    refine .of_workers hne fun id w hf => ?_
    rw [hw] at hf
    exact ⟨w, hf⟩
  cases hm with
  | frame hfr =>
    rw [hfr]
    exact hs _ rfl rfl
  | touch hf | accept hf => exact .insert _ hf
  | flush o => exact (flush_narrows t o).ages
  | retire now o => exact (retireWorker_narrows t now o).ages
  | launch hpl hfre hmi ho hp =>
    refine ⟨(Int.lt_succ _).le, fun id hi hn => ?_⟩
    exact (OrdMap.find?_insert_of_ne _ _ hi.ne).trans hn
  | decline hpl => exact ⟨(Int.lt_succ _).le, fun _ _ hn => hn⟩
  | consume hf hdo hp hc =>
    refine .trans ?_ (consume_narrows hc).ages
    exact .insert _ hf
  | @define now o w tl hp hf =>
    have hse := (settle_narrows { t with
      workers := t.workers.insert o { w with accepted := true } } now o tl).ages
    have ha : t.frame.Ages ({ t with
        workers := t.workers.insert o { w with accepted := true } } : HttpTask F).frame :=
      Frame.Ages.insert _ hf
    have hb := ha.trans hse
    exact ⟨hb.nextWorkerId, hb.gone⟩
  | opened hp =>
    rw [foldl_write_frame]
    exact hs _ rfl rfl
  | reset hp hr hst => exact ⟨le_rfl, fun _ _ _ => rfl⟩
  | @leave now phase hp =>
    have hl := foldl_narrows (fun t id =>
      (flush_narrows t id).trans (retireWorker_narrows _ now id))
      t.workers.keys { t with phase }
    exact ⟨hl.ages.nextWorkerId, hl.ages.gone⟩
  | @restart now hli hst =>
    have hl := foldl_narrows (fun t id =>
      retireWorker_narrows t now id) t.workers.keys
      { t with phase := .restarting }
    exact ⟨hl.ages.nextWorkerId, hl.ages.gone⟩
  | checkpoint complete =>
    rw [checkpoint_frame]
    exact hs _ rfl rfl
  | _ => exact hs _ rfl rfl

theorem moves_ages (hm : Moves strict t n) : t.frame.Ages n.frame :=
  Moves.preserve (motive := fun n => t.frame.Ages n.frame)
    (fun hmo h => h.trans (move_ages hmo)) hm ⟨le_rfl, fun _ _ hn => hn⟩

/-- A connection that was there before the file was exposed is not there
after. -/
theorem moves_apart (hmo : Moves { safe := True } t n) (hs : t.frame.Staged)
    (hi : id < t.nextWorkerId) (hh : ¬ t.title.Exposed) (he : n.title.Exposed) :
    n.workers.find? id = none := by
  have hap : n.frame.Staged ∧ id < n.nextWorkerId ∧
      (n.title.Exposed → n.workers.find? id = none) := by
    refine Moves.preserve (motive := fun t => t.frame.Staged ∧ id < t.nextWorkerId ∧
        (t.title.Exposed → t.workers.find? id = none)) ?_ hmo ⟨hs, hi, fun h => absurd h hh⟩
    rintro t n hm ⟨hs, hi, hg⟩
    have ha := move_ages hm
    refine ⟨move_staged hm hs, hi.trans_le ha.nextWorkerId, ?_⟩
    intro hn
    rcases move_exposed hm hs hn with hb | hem
    · exact ha.gone id hi (hg hb)
    · rw [hem]
      rfl
  exact hap.2.2 he

/-- What an answer does to a connection of a download that goes on: the
planner keeps it as it is, or it is gone. -/
def Steady (task : HttpTask F) (id : Int) (next : HttpTask F) : Prop :=
  next.workers.find? id = none ∨ next.planner = task.planner

section Answers

variable {t : HttpTask F} {id : Int} (f : Facts F)

theorem abort_steady (c : Failure) (m : String) : t.Steady id (t.abort f c m) := by
  rw [abort]
  split_ifs
  · exact .inr rfl
  · refine .inl ?_
    have hw := cancelAll_workers { t with phase := .done } f.now
    have hf := checkpoint_frame (cancelAll { t with phase := .done } f.now) false
    have hs := congrArg Frame.workers hf
    exact (congrArg (OrdMap.find? · id) (hs.trans hw)).trans rfl

theorem dropMirror_steady (hi : id < t.nextWorkerId) (w : Worker) (why : String) :
    t.Steady id (t.dropMirror f id w why) := by
  rw [dropMirror]
  generalize hde : t.updateSource w.source _ = dead
  have hne : dead.nextWorkerId = t.nextWorkerId := by
    rw [← hde]
    rfl
  have hn := cancelWorker_narrows dead f.now id
  have hf : Moves {} (dead.cancelWorker f.now id) _ :=
    slotFailed_moves _ f w.slot .httpProtocol why 0
  have ha := moves_ages hf
  refine .inl (ha.gone id ?_ ?_)
  · rw [hn.nextWorkerId]
    exact hi.trans_eq hne.symm
  · exact (cancelWorker_find dead f.now id id).trans (if_pos rfl)

theorem welcome_steady (hp : t.phase ≠ .probing) (w : Worker) (n : Int) :
    t.Steady id (t.welcome f id w n) := by
  rw [welcome, updateWorker]
  generalize hm : t.updateSource w.source _ = m
  have hs : m.phase = t.phase ∧ m.planner = t.planner := by
    rw [← hm]
    exact ⟨rfl, rfl⟩
  have hr : m.phase ≠ .probing := hs.1 ▸ hp
  rcases m.workers.find? id with _ | found
  · rw [if_pos hr]
    exact .inr hs.2
  · rw [if_pos hr]
    exact .inr hs.2

variable {w : Worker} {tl : Int}

section

variable (hi : id < t.nextWorkerId)

include hi

theorem weigh_steady (hp : t.phase ≠ .probing)
    (hl : t.lengthChanged tl = false) (ht : t.timeChanged w = false) :
    t.Steady id (t.weigh f id w tl false) := by
  rw [weigh]
  split_ifs with hdr hc
  · exact dropMirror_steady f hi w _
  · simp [hl, ht] at hc
  · simp [hl, ht] at hc
  · exact welcome_steady f hp w tl

theorem validate_steady (hp : t.phase ≠ .probing) (ha : t.Agrees w tl) :
    t.Steady id (t.validate f id w tl) := by
  obtain ⟨hl, hta, ht⟩ := ha.unchanged
  rw [validate, hta]
  exact weigh_steady f hi hp hl ht

theorem judge_steady (hp : t.phase ≠ .probing) (ha : t.Agrees w tl) :
    t.Steady id (t.judge f id w tl) := by
  rw [judge]
  split_ifs
  · exact dropMirror_steady f hi w _
  · exact abort_steady f _ _
  · exact .inl ((cancelWorker_find _ f.now id id).trans (if_pos rfl))
  · exact validate_steady f hi hp ⟨.inl (by decide), ha.2⟩
  · exact validate_steady f hi hp ha

theorem accept_steady (hp : t.phase ≠ .probing) {left : Int}
    (hc : ∀ w, t.workers.find? id = some w → w.accepted = false → t.Continues w left) :
    t.Steady id (t.accept f id left) := by
  rcases hf : t.workers.find? id with _ | w
  · rw [accept, hf]
    exact .inr rfl
  · by_cases hn : w.accepted = false
    · obtain ⟨n, hs, ha⟩ := hc w hf hn
      rw [accept_eq t f left hf hn, hs]
      exact judge_steady f hi hp ha
    · rw [accept, hf]
      dsimp only
      rw [if_pos (by simpa using hn)]
      exact .inr rfl

end

end Answers

/-- What surrounds the task leaves adopted files alone: they stay where they
are, no other download has a record of a file, no free name is theirs, the
record of the task is not discarded, and a finished task is not started. -/
structure Undisturbed (task : HttpTask F) (event : Event F) : Prop where
  exists_ : ∀ path ∈ task.adopted, event.facts.fileExists path = true
  unclaimed : task.adopted ≠ [] → ∀ path, event.facts.claimTransfer path = none
  numbered : ∀ adopted ∈ task.adopted, ∀ path free, event.facts.numbered path = some free →
      free ≠ adopted ∧ free ++ task.options.incompleteSuffix ≠ adopted
  named : ∀ adopted ∈ task.adopted, task.options.incompleteSuffix ≠ "" →
    event.facts.named ++ task.options.incompleteSuffix ≠ adopted
  discard : event.input = .discardState → task.adopted = []
  unfinished : event.input = .start → .complete ∉ task.reports

/-- The condition on a step: the surroundings are undisturbed, and while an
adopted file is exposed the server carries on with it. -/
structure Spares (task : HttpTask F) (event : Event F) : Prop where
  undisturbed : task.Undisturbed event
  carriesOn : task.title.Exposed → task.CarriesOn event

/-- A connection the planner does not know overruns nothing. -/
theorem consume_unplanned {f : Facts F} {r : Nat} {c rest : List UInt8}
    (hn : t.planner.workers.find? id = none) : consume f id r t c ≠ some (n, rest, .overrun) := by
  by_cases hc : c = []
  · rcases r with _ | r
    · simp [consume]
    · simp [consume, hc]
  · rw [consume_eq_none hn hc]
    simp

theorem updateWorker_planner (t : HttpTask F) (id : Int) (f : Worker → Worker) :
    (t.updateWorker id f).planner = t.planner := by
  rw [updateWorker]
  rcases t.workers.find? id with _ | w <;> rfl

theorem moves_sound (hmo : Moves strict t n) (hs : t.frame.Staged) (hso : t.frame.lane.Sound ∅) :
    n.frame.lane.Sound ∅ := by
  have hb := Moves.preserve (motive := fun t => t.frame.Staged ∧ t.frame.lane.Sound ∅)
    (fun hm h => ⟨move_staged hm h.1, move_sound hm h.1 h.2⟩) hmo ⟨hs, hso⟩
  exact hb.2

theorem Lane.Sound.unplanned (hs : t.frame.lane.Sound ∅) (hn : t.workers.find? id = none) :
    t.planner.workers.find? id = none := by
  by_contra hso
  obtain ⟨p, hp⟩ := Option.ne_none_iff_exists'.mp hso
  obtain ⟨w, hf⟩ := hs.known id _ (t.planner.spans_eq_some hp)
  cases hn.symm.trans hf

section Guard

variable {t : HttpTask F} {e : Event F}

theorem Spares.kept (hs : t.Spares e) (hsa : t.title.Safe) : t.title.Kept e.facts :=
  { exists_ := hs.undisturbed.exists_
    unclaimed := hs.undisturbed.unclaimed
    continued := hsa.continued
    numbered := hs.undisturbed.numbered
    named := hs.undisturbed.named }

/-- An exposed file is resumed: it is there and the record tells where. -/
theorem Spares.resumes (hsp : t.Spares e) (hsa : t.title.Safe) (hexp : t.title.Exposed)
    (hsta : e.input = .start) : t.Resumes e.facts := by
  obtain ⟨hc, hdr, record, hst, hp, hpa⟩ :=
    (hsa.recorded hexp).resolve_left (hsp.undisturbed.unfinished hsta)
  refine ⟨hc, hdr, record, hst, hp, ?_⟩
  have hf := hexp.2
  simp only [Title.Clear, not_forall, not_not] at hf
  obtain ⟨p, hm, hdi⟩ := hf
  have he := hsp.undisturbed.exists_ p hm
  rw [← hdi, ← hpa] at he
  rw [storedSuffix]
  by_cases hem : t.options.incompleteSuffix = ""
  · have hs : t.title.suffix = "" := hsa.suffix.elim id fun h => h.trans hem
    rw [hs, String.append_empty] at he
    simp [hem, he]
  · rcases hsa.suffix with hs | hs
    · rw [hs, String.append_empty] at he
      split_ifs <;> simp
    · rw [hs] at he
      have hi : e.facts.fileExists (record.path ++ t.options.incompleteSuffix) = true := he
      simp [hem, hi]

theorem Spares.overrun (hsp : t.Spares e) (hst : t.frame.Staged) (hs : t.frame.lane.Sound ∅)
    (hsaf : t.title.Safe) {id left : Int} {c : List UInt8} (hi : e.input = .data id c left)
    (he : (t.accept e.facts id left).title.Exposed) {r : Nat} {n : HttpTask F} {rest : List UInt8} :
    consume e.facts id r ((t.accept e.facts id left).updateWorker id fun w =>
        { w with body := w.body ++ c }) c ≠ some (n, rest, .overrun) := by
  have hc : t.title.Exposed → t.phase ≠ .probing ∧
      (∀ w, t.workers.find? id = some w → w.accepted = false → t.Continues w left) ∧
      ∀ p, t.planner.workers.find? id = some p → p.position + c.length ≤ t.planner.length := by
    intro hb
    have hc := hsp.carriesOn hb
    rw [CarriesOn, hi] at hc
    exact ⟨(hsaf.phase hb).1, hc⟩
  have hm : Moves { safe := True } t (t.accept e.facts id left) :=
    accept_moves t e.facts id left (fun w hf => hst.live id w hf) (fun _ => hsp.kept hsaf)
      fun _ hb => ⟨(hc hb).1, (hc hb).2.1⟩
  have ha := moves_sound hm hst hs
  have hg : (t.accept e.facts id left).workers.find? id = none → consume e.facts id r
        ((t.accept e.facts id left).updateWorker id fun w =>
          { w with body := w.body ++ c }) c ≠ some (n, rest, .overrun) := by
    intro hn
    apply consume_unplanned
    rw [updateWorker_planner]
    exact ha.unplanned hn
  rcases hf : t.workers.find? id with _ | w
  · refine hg ?_
    rw [accept, hf]
    exact hf
  have hid : id < t.nextWorkerId := hs.fresh id w hf
  by_cases hb : t.title.Exposed
  · obtain ⟨hph, hco, hfi⟩ := hc hb
    rcases accept_steady e.facts hid hph hco with
      hn | hpl
    · exact hg hn
    · obtain ⟨span, hspa, _⟩ := hs.placed id w hf
      obtain ⟨p, hp, _⟩ := Option.map_eq_some_iff.mp hspa
      have hsa : ((t.accept e.facts id left).updateWorker id
          fun w => { w with body := w.body ++ c }).planner =
            t.planner := (updateWorker_planner _ id _).trans hpl
      apply consume_ne_overrun
      · rw [hsa]
        exact hp
      · rw [hsa]
        exact hs.ordered
      · rw [hsa]
        exact hfi p hp
  · exact hg (moves_apart hm hst hid hb he)

theorem Spares.guarded (hs : t.Spares e) (hst : t.frame.Staged) (hso : t.frame.lane.Sound ∅)
    (hsa : t.title.Safe) : t.Guarded e :=
  { kept := hs.kept hsa
    suffix := hsa.suffix
    phase := hsa.phase
    resumes := fun he hsta _ => hs.resumes hsa he hsta
    carriesOn := hs.carriesOn
    overrun := fun _ _ _ hi he _ _ _ =>
      hs.overrun hst hso hsa hi he
    discard := hs.undisturbed.discard }

end Guard

theorem reshape_safe (hs : t.title.Safe) (i : Input) : (t.reshape i).title.Safe := by
  rw [reshape.eq_def]
  split
  · exact hs
  · refine hs.of_hidden rfl hs.continued (.inl rfl) ?_
    rintro ⟨ho, _⟩
    contradiction
  · exact hs

theorem step_safe {e : Event F} (hs : t.frame.Staged) (hso : t.frame.lane.Sound ∅)
    (hsa : t.title.Safe) (hsp : t.Spares e) : (t.step e).title.Safe := by
  have hm : Moves { safe := True } (t.reshape e.input) (t.step e) :=
    step_moves t e hs (fun _ => hsp.guarded hs hso hsa) False.elim
  exact Moves.preserve (motive := fun t => t.title.Safe)
    (fun hmo h => move_safe hmo h) hm (reshape_safe hsa e.input)

theorem create_safe (os : Options) (uris : List String) (d : Int) (pt : String) (p : Int)
    (ps : Nat) : (create os uris d pt p ps : HttpTask F).title.Safe :=
  { opens := fun _ h => by contradiction
    continued := fun h => absurd rfl h
    suffix := .inl rfl
    phase := fun h => by
      obtain ⟨ho, _⟩ := h
      contradiction
    recorded := fun h => by
      obtain ⟨ho, _⟩ := h
      contradiction }

/-- A file of ten bytes with the name of the download. -/
def tenBytes : Facts ℚ where
  fileExists := fun path => path = "file"
  fileSize := fun _ => 10

/-- The answer of a server: where its body is placed and how long the file
is. -/
def partialAnswer (first last total : Int) (etag : String) : Response where
  status := 206
  contentRange := some (some ⟨first, last, total⟩)
  etag

/-- The file is adopted and the download paused and resumed; then the server
has another file. -/
def pausedEvents : List (Event ℚ) :=
  [⟨.start, tenBytes⟩, ⟨.header 0 (partialAnswer 0 99 100 "\"x\""), tenBytes⟩,
    ⟨.jobDone .opened {}, tenBytes⟩, ⟨.stop, tenBytes⟩,
    ⟨.jobDone .stopClosed {}, tenBytes⟩, ⟨.start, tenBytes⟩,
    ⟨.jobDone .opened {}, tenBytes⟩]

/-- A file the task does not own is left as it is when the server has another
one. -/
theorem changed_unowned (hl : t.Live) (ho : t.owned = false) (hpa : t.path ≠ "") (f : Facts F)
    (why : String) : (t.changed f why).phase = .done ∧
      .failed .cannotResume ("The remote file changed (" ++ why ++ "); " ++
        t.path ++ " was left unchanged") ∈ (t.changed f why).reports := by
  rw [changed, if_pos (by simp [ho, hpa])]
  refine ⟨abort_phase t f _ _ hl, ?_⟩
  have hp : ¬ (t.phase = .done ∨ t.phase = .stopping) := by
    rcases hl with h | h | h <;> simp [h]
  rw [abort, if_neg hp]
  exact List.mem_append_right _ (List.mem_singleton_self _)

/-- Adopted files are never truncated in a run in which nothing else touches
them and, from the moment a resume has made the task the owner of one, the
server carries on with it.  Until then another file ends the task. -/
theorem run_never_truncates_adopted (options : Options) (uris : List String)
    (declared : Int) (pieceType : String) (pieceLength : Int) (pieces : Nat)
    (events : List (Event F))
    (hspares : Runs.Meets step Spares
      (create options uris declared pieceType pieceLength pieces) events) :
    let task := Runs.run step (create options uris declared pieceType pieceLength pieces) events
    (∀ entry ∈ task.opens, entry.truncate = true → entry.foreign = false) ∧
    (task.Live → task.owned = false → task.path ≠ "" → ∀ facts why,
      (task.changed facts why).phase = .done ∧
        .failed .cannotResume ("The remote file changed (" ++ why ++ "); " ++
          task.path ++ " was left unchanged") ∈ (task.changed facts why).reports) := by
  have hstep : ∀ (task : HttpTask F) (event : Event F),
      task.frame.Staged ∧ task.frame.lane.Sound ∅ ∧ task.title.Safe →
        task.Spares event → (task.step event).frame.Staged ∧ (task.step event).frame.lane.Sound ∅ ∧
            (task.step event).title.Safe := by
    rintro task event ⟨hstaged, hsound, hsafe⟩ hspares
    exact ⟨step_staged hstaged event, step_sound hstaged hsound event,
      step_safe hstaged hsound hsafe hspares⟩
  obtain ⟨_, _, hsafe⟩ := Runs.run_invariant hstep
    ⟨create_staged options uris declared pieceType pieceLength pieces,
      create_sound options uris declared pieceType pieceLength pieces,
      create_safe options uris declared pieceType pieceLength pieces⟩ hspares
  exact ⟨hsafe.opens, changed_unowned⟩

theorem tenBytes_spares {t : HttpTask ℚ} {i : Input} (hp : (∀ p ∈ t.adopted, p = "file") ∧
      t.options.incompleteSuffix = "" ∧ .complete ∉ t.reports) (hi : i ≠ .discardState)
    (hc : t.title.Exposed → t.CarriesOn ⟨i, tenBytes⟩) : t.Spares ⟨i, tenBytes⟩ :=
  { undisturbed :=
      { exists_ := fun p hpa => decide_eq_true (hp.1 p hpa)
        unclaimed := fun _ _ => rfl
        numbered := fun _ _ _ _ h => by contradiction
        named := fun _ _ h => absurd hp.2.1 h
        discard := fun h => absurd h hi
        unfinished := fun _ => hp.2.2 }
    carriesOn := hc }

/-- A paused download of an adopted file goes on where it was. -/
theorem run_never_truncates_adopted_paused :
    let events := pausedEvents ++ [⟨.header 2 (partialAnswer 10 99 100 "\"x\""), tenBytes⟩]
    let task := Runs.run step (create { continue_ := true } ["a"] (-1) "" 0 0) events
    task.adopted = ["file"] ∧ task.owned = true ∧
      ∀ entry ∈ task.opens, entry.truncate = true → entry.foreign = false := by
  refine ⟨by decide +kernel, by decide +kernel, (run_never_truncates_adopted
    { continue_ := true } ["a"] (-1) "" 0 0 _ ?_).1⟩
  refine ⟨?_, ?_, ?_, ?_, ?_, ?_, ?_, ?_, trivial⟩
  · exact tenBytes_spares (by decide +kernel) nofun fun _ => trivial
  · exact tenBytes_spares (by decide +kernel) nofun fun h =>
      absurd h.1 (by decide +kernel)
  · exact tenBytes_spares (by decide +kernel) nofun fun _ => trivial
  · exact tenBytes_spares (by decide +kernel) nofun fun _ => trivial
  · exact tenBytes_spares (by decide +kernel) nofun fun _ => trivial
  · exact tenBytes_spares (by decide +kernel) nofun fun _ => trivial
  · exact tenBytes_spares (by decide +kernel) nofun fun _ => trivial
  · -- the answer after the pause continues the file
    have hanswer : ∀ worker ∈ (Runs.run step (create { continue_ := true } ["a"] (-1) "" 0 0)
          pausedEvents).workers.find? 2, ({ worker with
            response := partialAnswer 10 99 100 "\"x\"" } : Worker).stated
              (-1) = some 100 ∧ (Runs.run step (create { continue_ := true } ["a"] (-1) "" 0 0)
                  pausedEvents).Agrees { worker with
                    response := partialAnswer 10 99 100 "\"x\"" } 100 := by
      decide +kernel
    exact tenBytes_spares (by decide +kernel) nofun fun _ _ worker hfind _ =>
      ⟨100, hanswer worker hfind⟩

/-- After a pause the record makes the task the owner of the adopted file, so
a file of another length is downloaded over it. -/
theorem resumed_adopted_file_is_truncated : ⟨"file", true, true⟩ ∈ (Runs.run step
      (create { continue_ := true } ["a"] (-1) "" 0 0) (pausedEvents ++
        [⟨.header 2 (partialAnswer 10 99 200 ""), tenBytes⟩, ⟨.jobDone .restart {}, tenBytes⟩,
          ⟨.header 3 (partialAnswer 0 199 200 ""), tenBytes⟩])).opens := by
  decide +kernel

end HttpTask

end Aria2Next
