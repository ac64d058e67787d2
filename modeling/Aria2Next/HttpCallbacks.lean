/-
Every callback of an HTTP task is a sequence of moves.  One lemma per
function, in the order of the model; nothing here depends on an invariant, so
every invariant can be proved move by move.
-/
import Aria2Next.HttpMoves

namespace Aria2Next.HttpTask

open OrdMap

universe u

variable {F : Type u} [Double F] {st s : Rule}

section

variable (t : HttpTask F)

theorem queue_moves {job : Job} (hj : job ≠ .stopClosed) : Moves s t (t.queue job) := by
  apply Moves.frame
  simp [frame, queue, hj.symm]

theorem updateWorker_moves (id : Int) {f : Worker → Worker} (hk : ∀ w, (f w).key = w.key)
    (hdo : ∀ w, w.done = true → (f w).done = true) : Moves s t (t.updateWorker id f) := by
  rw [updateWorker]
  cases hf : t.workers.find? id with
  | none => exact .refl t
  | some w =>
    exact .one (.touch hf (hk w) (hdo w))

theorem cancelWorker_moves (now id : Int) : Moves s t (t.cancelWorker now id) := by
  rw [cancelWorker]
  cases hf : t.workers.find? id with
  | none => exact .one (.release hf)
  | some w =>
    exact (Moves.one (Move.flush t id)).trans (Moves.one (Move.retire _ now id))

theorem abort_moves (f : Facts F) (c : Failure) (m : String) : Moves s t (t.abort f c m) := by
  rw [abort]
  split_ifs
  · exact .refl t
  · have hl : Move s t ({ t with phase := .done }.cancelAll f.now) := Move.leave t f.now (.inl rfl)
    exact ((Moves.one hl).trans (Moves.one (Move.checkpoint _ false))).trans (.one (.report _ _))

theorem slotFailed_moves (f : Facts F) (sl : Nat) (c : Failure) (m : String) (w : Int) :
    Moves s t (t.slotFailed f sl c m w) := by
  have hc : Moves s t (t.countFailure f sl c m w) := .frame rfl
  rw [slotFailed]
  split_ifs
  · exact hc
  · exact hc.trans (abort_moves _ f _ _)
  · exact hc

theorem dropMirror_moves (f : Facts F) (id : Int) (w : Worker) (why : String)
    (ha : t.otherAlive w.source = true) : Moves st t (t.dropMirror f id w why) := by
  have hde : Move st t (t.updateSource w.source fun s =>
      { s with dead := true }) :=
    Move.source w.source (fun _ => ⟨rfl, rfl, rfl⟩) fun _ => .inr (.inl ha)
  exact ((Moves.one hde).trans (cancelWorker_moves _ f.now id)).trans (slotFailed_moves _ f _ _ _ _)

theorem restartWhenQuiet_moves : Moves s t t.restartWhenQuiet := by
  rw [restartWhenQuiet]
  split_ifs
  · exact .refl t
  · exact queue_moves t (by simp)

theorem changed_moves (f : Facts F) (why : String) (hl : t.Live) (hs : s → ¬ t.title.Exposed) :
    Moves s t (t.changed f why) := by
  rw [changed]
  dsimp only
  split_ifs
  · exact abort_moves t f _ _
  · have hf : Moves s t { t with restarts := t.restarts + 1 } := .frame rfl
    exact hf.trans (abort_moves _ f _ _)
  · generalize hsi : (t.single || decide (t.restarts + 1 > 1) ||
      t.rangesDistrusted) = single
    have hf : Moves s t { t with restarts := t.restarts + 1, single } := .frame rfl
    exact (hf.trans (.one (.restart hl hs))).trans (restartWhenQuiet_moves _)

theorem checkpoint_phase (c : Bool) : (t.checkpoint c).phase = t.phase := by
  rw [checkpoint]
  split_ifs <;> rfl

theorem stopClosed_moves (hp : t.phase = .stopping ∨ t.phase = .idle ∨ t.phase = .done) :
    Moves s t t.stopClosed := (Moves.one (Move.idle hp)).trans (Moves.one (Move.report _ _))

theorem quiesce_moves : Moves s t t.quiesce := by
  rw [quiesce]
  by_cases hb : t.phase ≠ .stopping ∨ t.pendingWrites > 0 ∨ !t.stopped
  · rw [if_pos hb]
    exact .refl t
  · have hp : t.phase = .stopping := by
      by_contra hn
      exact hb (.inl hn)
    have hsa : Moves s t { t.checkpoint false with stopped := false } :=
      (Moves.one (Move.checkpoint t false)).trans (Moves.frame rfl)
    have hs : (t.checkpoint false).phase = .stopping := (checkpoint_phase t false).trans hp
    dsimp only
    split_ifs
    · exact hsa.trans (.one (.closing hs))
    · exact hsa.trans (stopClosed_moves _ (.inl hs))

theorem stop_moves (f : Facts F) : Moves s t (t.stop f) := by
  have hf : Moves s t { t with stopped := true } := .frame rfl
  have hl : Move s { t with stopped := true }
      ({ t with stopped := true, phase := .stopping }.cancelAll f.now) :=
    Move.leave _ f.now (.inr rfl)
  exact (hf.trans (.one hl)).trans (quiesce_moves _)

variable {planner : SegmentPlanner F} {id : Int}

theorem startWorker_moves (f : Facts F) (slot : Nat) {source : Nat} {begin requestEnd : Int}
    (hp : Planned t.planner t.nextWorkerId planner begin requestEnd)
    (hs : source < t.sources.length)
    (hph : f.configureError = none → t.phase = .probing ∧ begin = 0 ∨
        t.phase = .running ∧ (t.planner.length < 0 → t.workers = ∅)) : Moves s t ({ t with
      nextWorkerId := t.nextWorkerId + 1, planner }.startWorker f
        t.nextWorkerId slot source begin requestEnd) := by
  have hm := List.getElem?_eq_getElem hs
  rw [startWorker, hm]
  cases hc : f.configureError with
  | some e =>
    exact (Moves.one (Move.decline hp)).trans (abort_moves _ f _ _)
  | none =>
    let w : Worker :=
      { slot, source, begin, requestEnd
        redirected := t.sources[source].redirect ≠ ""
        ifRange := if t.ranged then
            (if (t.validators t.sources[source]).1 = ""
              then (t.validators t.sources[source]).2
              else (t.validators t.sources[source]).1) else ""
        bufferOffset := begin
        started := f.now
        lastData := f.now
        origin := (t.sources[source].uid, t.sources[source].uri) }
    have hf : w.Fresh := ⟨rfl, rfl, rfl, rfl⟩
    have hl : Move s t _ :=
      Move.launch (hp : Planned _ _ planner w.begin w.requestEnd) hf hm rfl (hph hc)
    exact (Moves.one hl).trans (Moves.frame rfl)

theorem pickSource_lt {now : Int} {s : Nat} (hp : t.pickSource now = some s) :
    s < t.sources.length := by
  have ha : ∀ i, t.pickSource now = some i → i < t.sources.length := by
    apply List.foldlRecOn (motive := fun b : Option Nat =>
      ∀ i, b = some i → i < t.sources.length)
    · intro i hn
      contradiction
    · intro b hb e he i hi
      have hl : e.2 < t.sources.length := by
        have := List.mem_zipIdx_iff_getElem?.mp he
        exact (List.getElem?_eq_some_iff.mp this).1
      dsimp only at hi
      split_ifs at hi
      · exact hb i hi
      · exact hb i hi
      · split at hi
        · exact Option.some.inj hi ▸ hl
        · split_ifs at hi
          · exact Option.some.inj hi ▸ hl
          · exact hb i hi
  exact ha s hp

theorem sendProbe_moves (f : Facts F) (hp : t.phase = .probing) : Moves st t (t.sendProbe f) := by
  rw [sendProbe]
  cases hpi : t.pickSource f.now with
  | none => exact .refl t
  | some s =>
    generalize (if (t.slots.getD 0 freshSlot).worker.isSome then 1
      else 0) = slot
    split_ifs
    · exact .refl t
    · exact startWorker_moves t f slot (.place _ (.inl rfl))
        (pickSource_lt t hpi) fun _ => .inl ⟨hp, rfl⟩

theorem widenSlots_moves (si : Nat) : Moves s t (t.widenSlots si) := .frame rfl

theorem probe_moves (f : Facts F) (hp : t.phase = .probing) : Moves s t (t.probe f) := by
  rw [probe]
  split_ifs
  · exact .refl t
  · exact (widenSlots_moves t 2).trans (sendProbe_moves _ f hp)

theorem startWorker_phase (f : Facts F) (id : Int) (sl s : Nat) (b r : Int)
    (hc : f.configureError = none) : (t.startWorker f id sl s b r).phase = t.phase := by
  rw [startWorker]
  cases t.sources[s]? with
  | none => rfl
  | some m =>
    rw [hc]

theorem length_nonneg_of_assign {n : SegmentPlanner F} {r : Range}
    (ha : planner.assign id = (some r, n)) : 0 ≤ planner.length := by
  by_contra hn
  rw [SegmentPlanner.assign, if_pos (not_le.mp hn)] at ha
  simp at ha

theorem launchSlots_moves (f : Facts F) (l : List Nat) (t : HttpTask F)
    (hp : f.configureError = none → t.phase = .running) : Moves st t (launchSlots f l t) := by
  induction l generalizing t with
  | nil => exact .refl t
  | cons sl re ih =>
    rw [launchSlots]
    by_cases hsk : ((t.slots.getD sl freshSlot).worker.isSome ||
        f.now < (t.slots.getD sl freshSlot).readyAt ||
        t.spent (t.slots.getD sl freshSlot)) = true
    · rw [if_pos hsk]
      exact ih t hp
    rw [if_neg hsk]
    cases hpi : t.pickSource f.now with
    | none => exact .refl t
    | some s =>
      have hs := pickSource_lt t hpi
      dsimp only
      by_cases hr : t.ranged = true
      · rw [if_pos hr]
        cases ha : t.planner.assign t.nextWorkerId with
        | mk g p =>
          cases g with
          | none => exact .refl t
          | some r =>
            refine (startWorker_moves t f sl (.assign ha) hs fun hn =>
                .inr ⟨hp hn, fun hne => ?_⟩).trans
              (ih _ fun hn => ?_)
            · exact absurd hne (not_lt.mpr (length_nonneg_of_assign ha))
            · rw [startWorker_phase _ f _ _ _ _ _ hn]
              exact hp hn
      · split_ifs with he hl
        · refine startWorker_moves t f sl (.place _ (.inr ⟨hl, rfl⟩)) hs fun hn =>
              .inr ⟨hp hn, fun _ => ?_⟩
          exact eq_empty_of_entries (List.isEmpty_iff.mp he)
        · refine startWorker_moves t f sl (.place _ (.inl rfl)) hs fun hn =>
              .inr ⟨hp hn, fun _ => ?_⟩
          exact eq_empty_of_entries (List.isEmpty_iff.mp he)
        · exact .refl t

theorem launch_moves (f : Facts F) : Moves s t (t.launch f) := by
  rw [launch]
  split_ifs with hph hc hpo hp
  · exact .refl t
  · exact .refl t
  · exact .refl t
  · exact probe_moves t f hp
  · have hr : t.phase = .running := by
      by_contra hn
      exact hph ⟨hp, hn⟩
    exact (widenSlots_moves t _).trans (launchSlots_moves f _ _ fun _ => hr)

theorem flush_title (id : Int) : (t.flush id).title = t.title := by
  rw [flush]
  cases t.workers.find? id with
  | none => rfl
  | some w =>
    dsimp only
    split_ifs <;> rfl

theorem retireWorker_title (now id : Int) : (t.retireWorker now id).title = t.title := by
  rw [retireWorker]
  cases t.workers.find? id with
  | _ => rfl

theorem cancelWorker_title (now id : Int) : (t.cancelWorker now id).title = t.title := by
  rw [cancelWorker]
  cases t.workers.find? id with
  | none => rfl
  | some w =>
    exact (retireWorker_title _ now id).trans (flush_title t id)

theorem foldl_title {A : Type*} {f : HttpTask F → A → HttpTask F}
    (hs : ∀ t i, (f t i).title = t.title) (l : List A) (t : HttpTask F) :
    (l.foldl f t).title = t.title := by
  induction l generalizing t with
  | nil => rfl
  | cons i r ih => exact (ih (f t i)).trans (hs t i)

theorem flush_find_of_ne {o : Int} (ho : o ≠ id) :
    (t.flush id).workers.find? o = t.workers.find? o := by
  rw [flush]
  cases t.workers.find? id with
  | none => rfl
  | some w =>
    dsimp only
    split_ifs
    · rfl
    · exact find?_insert_of_ne _ _ ho
    · exact find?_insert_of_ne _ _ ho
    · exact find?_insert_of_ne _ _ ho

theorem retireWorker_find (now id o : Int) : (t.retireWorker now id).workers.find? o =
      if o = id then none else t.workers.find? o := by
  rw [retireWorker]
  cases hf : t.workers.find? id with
  | none =>
    split_ifs with ho
    · rw [ho, hf]
    · rfl
  | some w => exact find?_erase _ _ _

theorem cancel_find (now id o : Int) : ((t.flush id).retireWorker now id).workers.find? o =
      if o = id then none else t.workers.find? o := by
  rw [retireWorker_find]
  split_ifs with ho
  · rfl
  · exact flush_find_of_ne t ho

theorem cancelWorker_find (now id o : Int) : (t.cancelWorker now id).workers.find? o =
      if o = id then none else t.workers.find? o := by
  rw [cancelWorker]
  cases hf : t.workers.find? id with
  | none =>
    split_ifs with ho
    · rw [ho, hf]
    · rfl
  | some w => exact cancel_find t now id o

/-- Ending connections one after the other ends those of the list. -/
theorem foldl_find {f : HttpTask F → Int → HttpTask F} (hs : ∀ t id o, (f t id).workers.find? o =
      if o = id then none else t.workers.find? o)
    (l : List Int) (t : HttpTask F) (o : Int) :
    (l.foldl f t).workers.find? o = if o ∈ l then none else t.workers.find? o := by
  induction l generalizing t with
  | nil => simp
  | cons id r ih =>
    rw [List.foldl_cons, ih, hs]
    by_cases hi : o = id <;> simp [hi]

theorem foldl_keys_workers {f : HttpTask F → Int → HttpTask F}
    (hs : ∀ t id o, (f t id).workers.find? o = if o = id then none else t.workers.find? o)
    (t : HttpTask F) : (t.workers.keys.foldl f t).workers = ∅ := by
  apply ext_find?
  intro o
  rw [foldl_find hs]
  split_ifs with hm
  · rfl
  · simpa [mem_keys_iff] using hm

theorem cancelAll_workers (now : Int) : (t.cancelAll now).workers = ∅ :=
  foldl_keys_workers (fun t id o => cancel_find t now id o) t

theorem retireAll_workers (now : Int) : (t.retireAll now).workers = ∅ :=
  foldl_keys_workers (fun t id o => retireWorker_find t now id o) t

theorem settle_find (now id n o : Int) : (t.settle now id n).workers.find? o =
      if o = id then t.workers.find? id else none := by
  have hf := foldl_find (fun t id o => cancelWorker_find t now id
    o) (t.workers.keys.filter fun o => o ≠ id) t o
  have hs : (t.settle now id n).workers.find? o =
      if o ∈ t.workers.keys.filter fun o => o ≠ id then none
      else t.workers.find? o := by
    rw [settle, ← hf]
    split_ifs <;> rfl
  rw [hs]
  by_cases ho : o = id
  · simp [ho]
  · split_ifs with hm
    · rfl
    · simpa [ho, mem_keys_iff] using hm

/-- Cancelling the only connection cancels all. -/
theorem cancelAll_of_single {w : Worker} (now : Int) (hf : t.workers.find? id = some w)
    (ho : ∀ o, o ≠ id → t.workers.find? o = none) : t.cancelAll now = t.cancelWorker now id := by
  rw [cancelAll, keys_eq_singleton hf ho, cancelWorker, hf]
  rfl

theorem settle_title (now id n : Int) : (t.settle now id n).title = t.title := by
  rw [settle]
  split_ifs <;> exact foldl_title (fun t o => cancelWorker_title t now o) _ _

/-- The surroundings leave adopted files alone: the file stays where it is,
no other download left a record for it, and no free name on disk is its. -/
structure Title.Kept (title : Title) (facts : Facts F) : Prop where
  exists_ : ∀ path ∈ title.adopted, facts.fileExists path = true
  unclaimed : title.adopted ≠ [] → ∀ path, facts.claimTransfer path = none
  continued : title.adopted ≠ [] → title.options.continue_ = true
  numbered : ∀ adopted ∈ title.adopted, ∀ path free, facts.numbered path = some free →
      free ≠ adopted ∧ free ++ title.options.incompleteSuffix ≠ adopted
  named : ∀ adopted ∈ title.adopted, title.options.incompleteSuffix ≠ "" →
      facts.named ++ title.options.incompleteSuffix ≠ adopted

theorem Title.Kept.of_eq {t n : Title} {f : Facts F} (hk : t.Kept f) (ho : n.options = t.options)
    (ha : n.adopted = t.adopted) : n.Kept f := by
  constructor
  · rw [ha]
    exact hk.exists_
  · rw [ha]
    exact hk.unclaimed
  · rw [ha, ho]
    exact hk.continued
  · rw [ha, ho]
    exact hk.numbered
  · rw [ha, ho]
    exact hk.named

theorem openOutput_moves {tr : Bool} (hp : t.phase = .opening)
    (hs : s → tr = true → t.title.Clear) : Moves s t (t.openOutput tr) :=
  Moves.one (.openOutput hp hs)

theorem claimRecord_stored (f : Facts F) (p : String) :
    (t.claimRecord f p).2 = t ∨ ∃ r, f.claimTransfer p = some r ∧
        (t.claimRecord f p).2 = { t with stored := some r } := by
  rw [claimRecord]
  split_ifs
  · exact .inl rfl
  · cases hc : f.claimTransfer p with
    | none => exact .inl rfl
    | some r => exact .inr ⟨r, rfl, rfl⟩

end

section

variable {task t n : HttpTask F} {facts f : Facts F}

variable {p sf : String} {record r : TransferRecord}

theorem claimRecord_some (hc : t.claimRecord f p = (some r, n)) :
    f.claimTransfer p = some r ∧ n = { t with stored := some r } := by
  rw [claimRecord] at hc
  split_ifs at hc
  · simp at hc
  · cases hf : f.claimTransfer p with
    | none => simp [hf] at hc
    | some g =>
      rw [hf] at hc
      simp only [Prod.mk.injEq] at hc
      split_ifs at hc
      · simp at hc
      · obtain ⟨hs, rfl⟩ := hc
        simp only [Option.some.injEq] at hs
        exact ⟨congrArg some hs, by rw [hs]⟩

/-- A record is kept as it is, or claimed. -/
theorem storedRecord_claimed (t : HttpTask F) (f : Facts F) :
    (t.storedRecord f).2 = t ∨ ∃ p record, f.claimTransfer p = some record ∧
        (t.storedRecord f).2 = { t with stored := some record } := by
  rw [storedRecord]
  cases hst : t.stored with
  | some record => exact .inl rfl
  | none =>
    split_ifs
    · exact .inl rfl
    · rcases claimRecord_stored t f t.options.outPath with
        hs | ⟨record, hc, hn⟩
      · exact .inl hs
      · exact .inr ⟨_, record, hc, hn⟩

theorem storedRecord_some (hr : t.storedRecord f = (some r, n)) :
    n = { t with stored := some r } ∧ (t.stored = some r ∨ ∃ p, f.claimTransfer p = some r) := by
  rw [storedRecord] at hr
  cases hs : t.stored with
  | some g =>
    rw [hs] at hr
    obtain ⟨rfl, rfl⟩ := hr
    exact ⟨by rw [← hs], .inl rfl⟩
  | none =>
    rw [hs] at hr
    split_ifs at hr
    · simp at hr
    · obtain ⟨hc, hn⟩ := claimRecord_some hr
      exact ⟨hn, .inr ⟨_, hc⟩⟩

theorem resumable_some (hr : t.resumable f = (some (r, sf), n)) :
    0 < r.totalLength ∧ n = { t with stored := some r } ∧
      (t.stored = some r ∨ ∃ p, f.claimTransfer p = some r) := by
  rw [resumable] at hr
  cases hre : t.storedRecord f with
  | mk g a =>
    rw [hre] at hr
    cases g with
    | none => simp at hr
    | some g =>
      dsimp only at hr
      split_ifs at hr with hp
      · simp only [Prod.mk.injEq, Option.map_eq_some_iff] at hr
        obtain ⟨⟨_, _, rfl, rfl⟩, rfl⟩ := hr
        exact ⟨hp, storedRecord_some hre⟩
      · simp at hr

theorem resumable_none (hr : t.resumable f = (none, n)) :
    (n = t ∨ ∃ p r, f.claimTransfer p = some r ∧ n = { t with stored := some r }) ∧
      ∀ r, t.stored = some r → 0 < r.totalLength → t.storedSuffix f r.path = none := by
  have hc := storedRecord_claimed t f
  rw [resumable] at hr
  cases hre : t.storedRecord f with
  | mk g a =>
    rw [hre] at hr hc
    have hn : n = a := by
      cases g with
      | none => simpa using hr.symm
      | some g =>
        dsimp only at hr
        split_ifs at hr
        · simp only [Prod.mk.injEq] at hr
          exact hr.2.symm
        · simpa using hr.symm
    subst hn
    refine ⟨hc, fun r hs hp => ?_⟩
    rw [storedRecord, hs] at hre
    obtain ⟨rfl, rfl⟩ := hre
    simpa [hp] using hr

/-- The record a start goes by is the task's own, or one it may claim. -/
theorem claim_moves (t : HttpTask F) {f : Facts F}
    (hc : t.stored = some r ∨ ∃ p, f.claimTransfer p = some r) (hk : s → t.title.Kept f) :
    Moves s t { t with stored := some r } := by
  rcases hc with hs | ⟨p, hc⟩
  · rw [← hs]
    exact .refl t
  · refine .one (.claim r fun h => ?_)
    by_contra ha
    have hn := (hk h).unclaimed ha p
    rw [hc] at hn
    contradiction

/-- A start resumes from the task's own record. -/
def Resumes (task : HttpTask F) (facts : Facts F) : Prop :=
  task.options.removeControlFile = false ∧ task.options.dryRun = false ∧
    ∃ record, task.stored = some record ∧ 0 < record.totalLength ∧
      task.storedSuffix facts record.path ≠ none

theorem storedSuffix_eq {t : HttpTask F} {f : Facts F} (hs : t.storedSuffix f p = some sf) :
    sf = "" ∨ sf = t.options.incompleteSuffix := by
  rw [storedSuffix] at hs
  split_ifs at hs
  · exact .inr (Option.some.inj hs).symm
  · exact .inl (Option.some.inj hs).symm

theorem resumable_suffix (hr : t.resumable f = (some (r, sf), n)) :
    sf = "" ∨ sf = t.options.incompleteSuffix := by
  rw [resumable] at hr
  cases hre : t.storedRecord f with
  | mk g a =>
    rw [hre] at hr
    cases g with
    | none => simp at hr
    | some g =>
      obtain ⟨ha, _⟩ := storedRecord_some hre
      dsimp only at hr
      split_ifs at hr
      · simp only [Prod.mk.injEq, Option.map_eq_some_iff] at hr
        obtain ⟨⟨_, hf, rfl, rfl⟩, rfl⟩ := hr
        have hs := storedSuffix_eq hf
        rw [ha] at hs
        exact hs
      · simp at hr

end

/-- The task takes over what a record describes. -/
theorem resume_moves (t : HttpTask F) {r : TransferRecord} {suffix : String}
    (hs : t.stored = some r) (hp : 0 < r.totalLength) (hc : t.options.removeControlFile = false)
    (hdr : t.options.dryRun = false) (hsu : suffix = "" ∨ suffix = t.options.incompleteSuffix)
    (hph : t.phase = .opening ∨ t.phase = .idle) (hw : t.workers = ∅)
    (hh : t.held = [] ∨ t.phase = .idle) :
    Moves s t { t with
      path := r.path
      suffix
      owned := true
      planner := (t.planner.setLength r.totalLength).restore
        r.completed } := by
  have hl : Move s t { t with planner := t.planner.setLength r.totalLength } :=
    Move.setLength (.quiet hp.le hw hh)
  have hr : Move s { t with planner := t.planner.setLength r.totalLength } { t with
        planner := t.planner.setLength r.totalLength
        path := r.path
        suffix
        owned := true } := .resume suffix hs hp hc hdr hsu hph hw
  exact ((Moves.one hl).trans (Moves.one hr)).trans (Moves.frame rfl)

/-- A start without a record probes. -/
theorem probeAgain_moves (t : HttpTask F) {f : Facts F} {a : HttpTask F}
    (ha : a = { t.reset with phase := .probing } ∨ ∃ p record, f.claimTransfer p = some record ∧
        a = { { t.reset with phase := .probing } with
          stored := some record }) (hj : .stopClosed ∉ t.jobs) (hk : s → t.title.Kept f)
    (he : s → ¬ t.title.Exposed) : Moves s t (a.launch f) := by
  have hr : Moves s t { t.reset with phase := .probing } :=
    Moves.one (.reset (.inl rfl) (.inr hj) fun h _ => he h)
  rcases ha with rfl | ⟨p, record, hc, rfl⟩
  · exact hr.trans (launch_moves _ f)
  · exact (hr.trans (claim_moves _ (.inr ⟨p, hc⟩) fun h =>
      (hk h).of_eq rfl rfl)).trans (launch_moves _ f)

variable (task t : HttpTask F) (f : Facts F)

theorem start_moves (hj : .stopClosed ∉ t.jobs) (hk : s → t.title.Kept f)
    (he : s → t.title.Exposed → t.Resumes f) : Moves s t (t.start f) := by
  rw [start]
  split_ifs with hf
  · refine probeAgain_moves t (.inl rfl) hj hk fun h hexp => ?_
    obtain ⟨hco, hdr, _⟩ := he h hexp
    rcases hf with hf | hf
    · exact Bool.false_ne_true (hco.symm.trans hf)
    · exact Bool.false_ne_true (hdr.symm.trans hf)
  · cases hr : ({ t.reset with phase := .probing } : HttpTask F).resumable f with
    | mk g after =>
      cases g with
      | none =>
        obtain ⟨ha, hn⟩ := resumable_none hr
        refine probeAgain_moves t ha hj hk fun h hexp => ?_
        obtain ⟨_, _, record, hst, hp, hs⟩ := he h hexp
        exact hs (hn record hst hp)
      | some g =>
        obtain ⟨record, su⟩ := g
        obtain ⟨hp, rfl, hcl⟩ := resumable_some hr
        have hs := resumable_suffix hr
        have hres : Moves s t { t.reset with phase := .opening } :=
          Moves.one (.reset (.inr rfl) (.inr hj) fun _ h => by
            contradiction)
        have hc : Moves s ({ t.reset with phase := .opening } : HttpTask F)
            { { t.reset with phase := .opening } with
              stored := some record } := claim_moves _ hcl fun h => (hk h).of_eq rfl rfl
        have hfl : t.options.removeControlFile = false ∧ t.options.dryRun = false := by
          simpa [reset] using hf
        have hre : Moves s _ _ := resume_moves { { t.reset with phase := .opening } with
            stored := some record } rfl hp hfl.1 hfl.2 hs (.inl rfl) rfl (.inl rfl)
        refine .trans ?_ (openOutput_moves _ rfl fun _ h => by
          contradiction)
        exact ((hres.trans hc).trans hre).trans (.frame rfl)

theorem loadProgress_moves (hp : t.phase = .idle) (hw : t.workers = ∅) (hk : s → t.title.Kept f) :
    Moves s t (t.loadProgress f) := by
  rw [loadProgress]
  split_ifs with hfr
  · exact .refl t
  · cases hr : t.resumable f with
    | mk g after =>
      cases g with
      | none =>
        obtain ⟨ha, _⟩ := resumable_none hr
        rcases ha with rfl | ⟨p, record, hc, rfl⟩
        · exact .refl _
        · exact claim_moves t (.inr ⟨p, hc⟩) hk
      | some g =>
        obtain ⟨record, su⟩ := g
        obtain ⟨hpo, rfl, hc⟩ := resumable_some hr
        have hs := resumable_suffix hr
        have hf : t.options.removeControlFile = false ∧ t.options.dryRun = false := by
          simpa using hfr
        exact (claim_moves t hc hk).trans (resume_moves
          { t with stored := some record } rfl hpo hf.1 hf.2 hs (.inr hp) hw (.inr hp))

theorem distrustTags_moves (t : HttpTask F) (w : Worker) : Moves st t (t.distrustTags w) := by
  have hs : Move st t (t.updateSource w.source fun s =>
      { s with etag := "" }) :=
    Move.source w.source (fun _ => ⟨rfl, rfl, rfl⟩) fun _ => .inl fun _ => rfl
  exact (Moves.one hs).trans (Moves.frame rfl)

theorem rangesIgnored_moves (id : Int) (w : Worker) (hl : t.Live) (hs : s → ¬ t.title.Exposed) :
    Moves s t (t.rangesIgnored f id w) := by
  rw [rangesIgnored]
  generalize (if t.carriesValidators w = true
    then "it ignores byte ranges" else "its file changed") = why
  split_ifs with _ _ ha
  · exact (distrustTags_moves t w).trans (cancelWorker_moves _ _ id)
  · exact cancelWorker_moves t _ id
  · exact dropMirror_moves t f id w why ha
  · exact changed_moves t f _ hl hs
  · exact abort_moves t f _ _
  · exact .after (cancelWorker_moves _ _ id) rfl

theorem cancelWorker_phase (t : HttpTask F) (now id : Int) :
    (t.cancelWorker now id).phase = t.phase := congrArg Title.phase (cancelWorker_title t now id)

theorem continueRecord_moves (id : Int) (r : TransferRecord) (hph : t.phase = .opening)
    (ha : s → t.adopted = []) : Moves s t (t.continueRecord f id r) := by
  have hc : s → ∀ p ∈ t.adopted, False := fun h p hp => by simp [ha h] at hp
  have hs : ((t.storedSuffix f r.path).getD "") = "" ∨
      ((t.storedSuffix f r.path).getD "") = t.options.incompleteSuffix := by
    cases hf : t.storedSuffix f r.path with
    | none => exact .inl rfl
    | some suffix => exact storedSuffix_eq hf
  have ho : Moves s t { t with
      path := r.path
      suffix := (t.storedSuffix f r.path).getD ""
      owned := true } := .one (.own hph hs fun h p hp =>
      (hc h p hp).elim)
  rw [continueRecord]
  split_ifs
  · refine .trans ?_ (openOutput_moves _ ?_ fun _ h => by contradiction)
    · exact ho.trans (.after (cancelWorker_moves _ _ id) rfl)
    · exact (cancelWorker_phase _ _ id).trans hph
  · exact ho.trans (openOutput_moves _ hph fun h _ p hp =>
      (hc h p hp).elim)

theorem adopt_moves (id : Int) (path : String) (hp : t.phase = .opening) (hpa : t.path = "")
    (hc : t.options.continue_ = true) : Moves s t (t.adopt f id path) := by
  have ha : Moves s t { t with
      path
      suffix := ""
      owned := false
      adopted := path :: t.adopted } := .one (.adopt path hpa hc hp)
  rw [adopt]
  dsimp only
  split_ifs
  · exact abort_moves t f _ _
  · exact abort_moves t f _ _
  · refine .trans ?_ (openOutput_moves _ ?_ fun _ h => by contradiction)
    · exact ha.trans (.after (cancelWorker_moves _ _ id) rfl)
    · exact (cancelWorker_phase _ _ id).trans hp
  · exact ha.trans (openOutput_moves _ hp fun _ h => by contradiction)

theorem createFile_moves (t : HttpTask F) (p : String) (hp : t.phase = .opening)
    (hf : s → ∀ a ∈ t.adopted, p ++ t.options.incompleteSuffix ≠ a) : Moves s t (t.createFile p) :=
  (Moves.one (Move.own hp (.inr rfl) hf)).trans (openOutput_moves _ hp fun h _ => hf h)

theorem choosePath_moves (id : Int) (hp : t.phase = .opening) (hpa : t.path = "")
    (hk : s → t.title.Kept f) : Moves s t (t.choosePath f id f.named) := by
  have hn : (f.fileExists f.named = false ∨ t.leftover f f.named = true ∨
        t.options.continue_ = false) → s → ∀ a ∈ t.adopted,
        f.named ++ t.options.incompleteSuffix ≠ a := by
    intro hw h a ha heq
    by_cases hs : t.options.incompleteSuffix = ""
    · rw [hs, String.append_empty] at heq
      rcases hw with hg | hl | hc
      · rw [heq, (hk h).exists_ a ha] at hg
        contradiction
      · simp [leftover, hs] at hl
      · have hke : t.options.continue_ = true := by
          refine (hk h).continued ?_
          exact List.ne_nil_of_mem ha
        rw [hke] at hc
        contradiction
    · exact (hk h).named a ha hs heq
  rw [choosePath]
  split_ifs with ht hc hsh
  · exact adopt_moves t f id _ hp hpa hc.2.2
  · exact abort_moves t f _ _
  · exact abort_moves t f _ _
  · cases hf : f.numbered f.named with
    | none => exact abort_moves t f _ _
    | some fr =>
      exact createFile_moves t fr hp fun h a ha =>
        ((hk h).numbered a ha _ _ hf).2
  · refine createFile_moves t _ hp (hn ?_)
    by_contra hno
    simp_all
  · refine createFile_moves t _ hp (hn (.inl ?_))
    by_contra he
    exact ht (.inr (.inr (Bool.not_eq_false _ ▸ he)))

theorem decidePath_moves (id : Int) (hp : t.phase = .opening) (hpa : t.path = "")
    (hk : s → t.title.Kept f) : Moves s t (t.decidePath f id) := by
  rw [decidePath]
  split_ifs
  · exact choosePath_moves t f id hp hpa hk
  · cases hc : t.claimRecord f f.named with
    | mk g a =>
      cases g with
      | some r =>
        obtain ⟨hf, rfl⟩ := claimRecord_some hc
        have ha : s → t.adopted = [] := by
          intro h
          by_contra ha
          have hn := (hk h).unclaimed ha f.named
          rw [hf] at hn
          contradiction
        exact (Moves.one (Move.claim r ha)).trans (continueRecord_moves _ f id r hp ha)
      | none =>
        have haf := claimRecord_stored t f f.named
        rw [hc] at haf
        rcases haf with rfl | ⟨r, hf, rfl⟩
        · exact choosePath_moves _ f id hp hpa hk
        · exact (claim_moves t (.inr ⟨_, hf⟩) hk).trans (choosePath_moves _ f id hp hpa fun h =>
              (hk h).of_eq rfl rfl)

variable {id : Int} {found w : Worker}

theorem prepare_moves (w : Worker) (hf : t.workers.find? id = some found)
    (ho : ∀ o, o ≠ id → t.workers.find? o = none) (hk : s → t.title.Kept f)
    (he : s → ¬ t.title.Exposed) : Moves s { t with phase := .opening } (t.prepare f id w) := by
  rw [prepare]
  generalize (t.ranged && !(w.response.status = 200 && (w.response.contentLength < 0 ||
      !w.response.acceptsBytes))) = ranged
  dsimp only
  generalize (if t.tagsRotate = true then "" else
    strongTag w.response.etag) = etag
  generalize strongDate f.getdate w.response.lastModified w.response.date = lastModified
  have hl : Moves s { t with phase := .opening }
      ({ t with ranged, phase := .done }.cancelAll f.now) :=
    Moves.after (.one (.leave { t with ranged, phase := .opening } f.now (.inl rfl))) rfl
  split_ifs with hm hdr hp
  · exact hl.trans (.one (.report _ _))
  · have hl : Moves s { t with phase := .opening }
        ({ t with ranged, etag, lastModified, phase := .done }.cancelAll f.now) :=
      Moves.after (.one (.leave { t with
        ranged, etag, lastModified, phase := .opening } f.now (.inl rfl))) rfl
    rw [cancelAll_of_single { t with ranged, etag, lastModified, phase := .done } f.now hf ho]
      at hl
    exact hl.trans (.one (.report _ _))
  · exact .after (decidePath_moves _ f id rfl hp fun h =>
      (hk h).of_eq rfl rfl) rfl
  · refine .after (openOutput_moves _ rfl fun h ht => ?_) rfl
    have hown : t.owned = true := (Bool.and_eq_true_iff.mp ht).1
    by_contra hc
    exact he h ⟨hown, hc⟩

/-- The first response of a worker, which is accepted at the same time. -/
theorem define_moves (w : Worker) (n : Int) (hp : t.phase = .probing)
    (hfi : t.workers.find? id = some found) (hk : s → t.title.Kept f) (he : s → ¬ t.title.Exposed) :
    Moves s t ({ t with workers := t.workers.insert id { found with accepted := true }
      }.define f id w n) := by
  let accepted : HttpTask F := { t with
    workers := t.workers.insert id { found with accepted := true } }
  have hde : Moves s t { accepted.settle f.now id n with phase := .opening } :=
    Moves.one (.define f.now n hp hfi)
  have ht : (accepted.settle f.now id n).title = t.title := settle_title accepted f.now id n
  have hs := settle_find accepted f.now id n
  have hf : (accepted.settle f.now id n).workers.find? id =
      some { found with accepted := true } := by
    rw [hs, if_pos rfl]
    exact find?_insert_self _ _ _
  refine hde.trans (prepare_moves _ f w hf ?_ ?_ ?_)
  · intro o ho
    rw [hs, if_neg ho]
  · rw [ht]
    exact hk
  · rw [ht]
    exact he

/-- A connection's response is what the download expects. -/
def Agrees (task : HttpTask F) (worker : Worker) (total : Int) : Prop :=
  (total < 0 ∨ total = task.planner.length) ∧
    (task.etag = "" ∨ strongTag worker.response.etag = "" ∨
      strongTag worker.response.etag = task.etag) ∧
    (task.lastModified = "" ∨ worker.response.lastModified = "" ∨
      worker.response.lastModified = task.lastModified)

instance decidableAgrees (task : HttpTask F) (worker : Worker) (total : Int) :
    Decidable (task.Agrees worker total) :=
  inferInstanceAs (Decidable (_ ∧ _))

theorem answered_moves (t : HttpTask F) (g : String → Int) (w : Worker) :
    Moves st t (t.updateSource w.source fun s =>
      s.answered g t.tagsRotate w) :=
  Moves.one (.source w.source (fun _ => ⟨rfl, rfl, rfl⟩) fun _ => .inl fun _ => rfl)

theorem welcome_moves (n : Int) (hl : t.Live) (hf : t.workers.find? id = some w)
    (hk : s → t.title.Kept f) (he : s → t.phase = .probing → ¬ t.title.Exposed) :
    Moves s t (t.welcome f id w n) := by
  refine (answered_moves t f.getdate w).trans ?_
  rw [welcome, updateWorker]
  generalize hm : t.updateSource w.source _ = mirrors
  have hfr : mirrors.workers = t.workers ∧ mirrors.phase = t.phase ∧ mirrors.title = t.title := by
    rw [← hm]
    exact ⟨rfl, rfl, rfl⟩
  obtain ⟨hw, hph, ht⟩ := hfr
  rw [← ht, ← hph] at he
  rw [← ht] at hk
  rw [← hw] at hf
  have hl : mirrors.Live := by
    rw [Live, hph]
    exact hl
  rw [hf]
  split_ifs with hp
  · refine .one (.accept hf ?_)
    exact hl.resolve_left hp
  · have hp : mirrors.phase = .probing := not_not.mp hp
    exact define_moves mirrors f w n hp hf hk fun h =>
      he h hp

theorem weigh_moves (n : Int) (tc : Bool) (hl : t.Live)
    (hf : t.workers.find? id = some w) (hk : s → t.title.Kept f)
    (he : s → t.title.Exposed → t.phase ≠ .probing ∧
      t.lengthChanged n = false ∧ tc = false ∧ t.timeChanged w = false) :
    Moves s t (t.weigh f id w n tc) := by
  rw [weigh]
  generalize (if t.lengthChanged n = true then "length changed"
    else "validator changed") = why
  split_ifs with hdr hc
  · exact dropMirror_moves t f id w _ hdr.2
  · refine changed_moves t f why hl fun h hexp => ?_
    obtain ⟨_, hle, hta, ht⟩ := he h hexp
    simp [hle, hta, ht] at hc
  · exact welcome_moves t f n hl hf hk fun h hp hexp => (he h hexp).1 hp

theorem Agrees.unchanged {t : HttpTask F} {n : Int} (ha : t.Agrees w n) :
    t.lengthChanged n = false ∧ t.tagDiffers w = false ∧ t.timeChanged w = false := by
  obtain ⟨hl, hta, ht⟩ := ha
  refine ⟨?_, ?_, ?_⟩
  · simp only [lengthChanged, Bool.and_eq_false_iff, decide_eq_false_iff_not]
    omega
  · rcases hta with hta | hta | hta <;> simp [tagDiffers, hta]
  · rcases ht with ht | ht | ht <;> simp [timeChanged, ht]

theorem validate_moves (n : Int) (hl : t.Live) (hf : t.workers.find? id = some w)
    (hk : s → t.title.Kept f) (he : s → t.title.Exposed → t.phase ≠ .probing ∧ t.Agrees w n) :
    Moves s t (t.validate f id w n) := by
  rw [validate]
  split_ifs with hr
  · refine (distrustTags_moves t w).trans (weigh_moves _ f n false hl hf hk fun h hexp => ?_)
    obtain ⟨_, hdi, _⟩ := (he h hexp).2.unchanged
    simp [hdi] at hr
  · refine weigh_moves t f n _ hl hf hk fun h hexp => ?_
    obtain ⟨hp, ha⟩ := he h hexp
    exact ⟨hp, ha.unchanged⟩

theorem judge_moves (n : Int) (hl : t.Live) (hf : t.workers.find? id = some w)
    (hk : s → t.title.Kept f) (he : s → t.title.Exposed → t.phase ≠ .probing ∧ t.Agrees w n) :
    Moves s t (t.judge f id w n) := by
  rw [judge]
  split_ifs with _ ha
  · exact dropMirror_moves t f id w _ ha
  · exact abort_moves t f _ _
  · exact .after (cancelWorker_moves _ _ id) rfl
  · exact validate_moves t f (-1) hl hf hk fun h hexp =>
      ⟨(he h hexp).1, .inl (by decide), (he h hexp).2.2⟩
  · exact validate_moves t f n hl hf hk he

/-- The length a response states, if its body is where the request began. -/
def Worker.stated (worker : Worker) (remaining : Int) : Option Int :=
  if worker.response.status = 206 then
    worker.placedRange.bind fun range =>
      if range.first = worker.begin then some range.total else none
  else if worker.response.status = 0 then
    some (if remaining ≥ 0 then worker.begin + remaining else -1)
  else if worker.begin > 0 then none
  else some worker.response.contentLength

theorem accept_eq (left : Int) (hf : t.workers.find? id = some w) (hn : w.accepted = false) :
    t.accept f id left = match w.stated left with
      | some n => t.judge f id w n
      | none => t.rangesIgnored f id w := by
  rw [accept, hf]
  dsimp only
  rw [if_neg (by simp [hn]), Worker.stated]
  split_ifs
  · cases w.placedRange with
    | none => rfl
    | some r =>
      dsimp only [Option.bind_some]
      split_ifs <;> rfl
  · rfl
  · rfl
  · rfl
  · rfl

/-- A response continues the download: its body is where the request began
and it states nothing that differs. -/
def Continues (task : HttpTask F) (worker : Worker) (remaining : Int) : Prop :=
  ∃ total, worker.stated remaining = some total ∧ task.Agrees worker total

theorem accept_moves (id left : Int) (hl : ∀ w, t.workers.find? id = some w → t.Live)
    (hk : st → t.title.Kept f) (he : st → t.title.Exposed → t.phase ≠ .probing ∧
      ∀ w, t.workers.find? id = some w → w.accepted = false → t.Continues w left) :
    Moves st t (t.accept f id left) := by
  cases hf : t.workers.find? id with
  | none =>
    rw [accept, hf]
    exact .refl t
  | some w =>
    have hl := hl w hf
    by_cases hn : w.accepted = false
    · rw [accept_eq t f left hf hn]
      cases hs : w.stated left with
      | some n =>
        refine judge_moves t f n hl hf hk fun h hexp => ?_
        obtain ⟨hp, hal⟩ := he h hexp
        obtain ⟨s, hsa, ha⟩ := hal w hf hn
        cases hs.symm.trans hsa
        exact ⟨hp, ha⟩
      | none =>
        refine rangesIgnored_moves t f id w hl fun h hexp => ?_
        obtain ⟨_, hsa, _⟩ := (he h hexp).2 w hf hn
        cases hs.symm.trans hsa
    · rw [accept, hf]
      dsimp only
      rw [if_pos (by simpa using hn)]
      exact .refl t

end Aria2Next.HttpTask
