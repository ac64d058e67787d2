/-
Which mirrors an HTTP task has given up.

Almost nothing a task does gives up a mirror: the slate of the mirrors that are
dead stays as it is.  A mirror that disagrees with the download, or delivered a
bad piece, is dropped only while another is alive.  What is left are the
failures of a request; they may take the last mirror, and then the task has to
be aborted.
-/
import Aria2Next.HttpSources

namespace Aria2Next

open List

universe u

variable {F : Type u} [Double F]

namespace HttpTask

variable (task : HttpTask F)

/-- The options, and for every mirror whether it is given up. -/
def slate : Options × List Bool := (task.options, task.sources.map Source.dead)

/-- Some mirror is not given up. -/
def Living : Prop := ∃ source ∈ task.sources, source.dead = false

instance (task : HttpTask F) : Decidable task.Living :=
  inferInstanceAs (Decidable (∃ source ∈ task.sources, source.dead = false))

theorem living_iff (t : HttpTask F) : t.Living ↔ false ∈ t.slate.2 := by
  simp [Living, slate]

variable {t next n : HttpTask F} {strict : Rule} {id : Int} {e : Event F}

theorem Living.of_slate (hl : t.Living) (hs : n.slate = t.slate) : n.Living := by
  rw [living_iff, hs]
  exact (living_iff t).mp hl

theorem length_of_slate (hs : n.slate = t.slate) : n.sources.length = t.sources.length := by
  have hm := congrArg (List.length ∘ Prod.snd) hs
  simpa [slate] using hm

theorem options_of_slate (hs : n.slate = t.slate) : n.options = t.options := congrArg Prod.fst hs

theorem allDead_iff (t : HttpTask F) : t.allDead = true ↔ ¬ t.Living := by
  simp [allDead, Living]

section Slate

variable (t : HttpTask F) (f : Facts F)

theorem updateSource_slate (i : Nat) {f : Source → Source} (hde : ∀ s, (f s).dead = s.dead) :
    (t.updateSource i f).slate = t.slate := by
  have hm : (t.sources.modify i f).map Source.dead = t.sources.map Source.dead := by
    apply ext_getElem?
    intro o
    rw [List.getElem?_map, List.getElem?_map, List.getElem?_modify]
    cases t.sources[o]? with
    | none => rfl
    | some s => by_cases ho : i = o <;> simp [ho, hde]
  exact congrArg (Prod.mk t.options) hm

section

variable (id : Int)

theorem updateWorker_slate (f : Worker → Worker) : (t.updateWorker id f).slate = t.slate := by
  unfold updateWorker
  split <;> rfl

theorem foldl_slate {A : Type*} {f : HttpTask F → A → HttpTask F}
    (hs : ∀ (t : HttpTask F) i, (f t i).slate = t.slate) (l : List A) (t : HttpTask F) :
    (l.foldl f t).slate = t.slate := by
  induction l generalizing t with
  | nil => rfl
  | cons i r ih => exact (ih (f t i)).trans (hs t i)

theorem reset_slate : t.reset.slate = t.slate := by
  simp [slate, reset]

theorem flush_slate : (t.flush id).slate = t.slate := by
  unfold flush
  split
  · rfl
  · dsimp only
    split
    · rfl
    · split
      · rfl
      · split <;> rfl

theorem retireWorker_slate (now id : Int) : (t.retireWorker now id).slate = t.slate := by
  unfold retireWorker
  split
  · rfl
  · next w _ =>
    exact t.updateSource_slate w.source (f := fun s => { s with active := max 0 (s.active - 1) })
      fun _ => rfl

theorem cancelWorker_slate (now id : Int) : (t.cancelWorker now id).slate = t.slate := by
  unfold cancelWorker
  split
  · rfl
  · exact (retireWorker_slate _ now id).trans (flush_slate t id)

theorem cancelAll_slate (now : Int) : (t.cancelAll now).slate = t.slate :=
  foldl_slate (fun t id => (retireWorker_slate _ now id).trans (flush_slate t id)) t.workers.keys t

theorem retireAll_slate (now : Int) : (t.retireAll now).slate = t.slate :=
  foldl_slate (fun t id => retireWorker_slate t now id) t.workers.keys t

theorem checkpoint_slate (c : Bool) : (t.checkpoint c).slate = t.slate := by
  unfold checkpoint
  split <;> rfl

theorem settle_slate (now id n : Int) : (t.settle now id n).slate = t.slate := by
  have hc := foldl_slate (fun (t : HttpTask F) o =>
    cancelWorker_slate t now o)
    (t.workers.keys.filter fun o => o ≠ id) t
  unfold settle
  split <;> exact hc

theorem keepBytes_slate (id b : Int) (d : List UInt8) : (t.keepBytes f id b d).slate = t.slate := by
  unfold keepBytes
  split <;> rfl

theorem consume_slate {f : Facts F} {id : Int} {r : Nat} {t n : HttpTask F} {c rest : List UInt8}
    {how : ChunkEnd} (hc : consume f id r t c = some (n, rest, how)) : n.slate = t.slate := by
  refine consume_preserve (motive := fun n => n.slate = t.slate)
    (fun _ _ h => h) (fun m b d h => ?_) (fun m o h => ?_) (fun m h => ?_) hc rfl
  · exact (keepBytes_slate m f id b d).trans h
  · exact (cancelWorker_slate m f.now o).trans h
  · exact (updateWorker_slate m id _).trans h

end

end Slate

theorem otherAlive_iff (t : HttpTask F) (i : Nat) :
    t.otherAlive i = true ↔ ∃ o ≠ i, t.slate.2[o]? = some false := by
  rw [otherAlive, any_eq_true]
  constructor
  · rintro ⟨⟨s, o⟩, hm, ha⟩
    rw [mem_zipIdx_iff_getElem?] at hm
    simp only [Bool.and_eq_true, decide_eq_true_eq, Bool.not_eq_eq_eq_not, Bool.not_true] at ha
    exact ⟨o, ha.1, by simp [slate, hm, ha.2]⟩
  · rintro ⟨o, hn, ha⟩
    simp only [slate, List.getElem?_map, Option.map_eq_some_iff] at ha
    obtain ⟨s, hs, hde⟩ := ha
    refine ⟨(s, o), mem_zipIdx_iff_getElem?.mpr hs, ?_⟩
    simp [hn, hde]

/-- Of several mirrors that are alive, one is another. -/
theorem otherAlive_of_many (t : HttpTask F) {i : Nat}
    (hm : (t.sources.filter fun s => !s.dead).length > 1) : t.otherAlive i = true := by
  by_contra hn
  have hde : ∀ o ≠ i, ∀ s, t.sources[o]? = some s → s.dead = true := by
    intro o hne s hs
    by_contra hl
    apply hn
    exact (t.otherAlive_iff i).mpr ⟨o, hne, by simp [slate, hs, hl]⟩
  have hb : ((t.sources.take i).filter fun s =>
      !s.dead) = [] := by
    rw [filter_eq_nil_iff]
    intro s hme
    obtain ⟨o, ho⟩ := mem_iff_getElem?.mp hme
    rw [List.getElem?_take] at ho
    split_ifs at ho with hlt
    simp [hde o hlt.ne s ho]
  have ha : ((t.sources.drop (i + 1)).filter fun s =>
      !s.dead) = [] := by
    rw [filter_eq_nil_iff]
    intro s hme
    obtain ⟨o, ho⟩ := mem_iff_getElem?.mp hme
    rw [List.getElem?_drop] at ho
    simp [hde (i + 1 + o) (by omega) s ho]
  rw [← take_append_drop i t.sources, filter_append, hb] at hm
  cases hr : t.sources.drop i with
  | nil => simp [hr] at hm
  | cons s r =>
    have ht : r = t.sources.drop (i + 1) := by
      rw [← tail_drop, hr]
      rfl
    rw [hr, filter_cons, ht, ha] at hm
    split_ifs at hm <;> exact absurd hm (by simp)

theorem Spared.living {index : Nat} {f : Source → Source} (hs : t.Spared index f) (hl : t.Living) :
    (t.updateSource index f).Living := by
  by_cases hde : ∀ s, (f s).dead = s.dead
  · exact hl.of_slate (t.updateSource_slate index hde)
  have ha : t.otherAlive index = true := by
    rcases hs with h | h | h
    · exact absurd h hde
    · exact h
    · exact t.otherAlive_of_many h
  obtain ⟨o, hn, hm⟩ := (t.otherAlive_iff index).mp ha
  rw [living_iff]
  apply mem_of_getElem? (i := o)
  simp only [slate, List.getElem?_map] at hm ⊢
  change (t.sources.modify index f)[o]?.map Source.dead = some false
  simpa [hn.symm] using hm

/-- Only the change of a mirror can give it up. -/
theorem move_slate (hm : Move strict t n) :
    n.slate = t.slate ∨ ∃ i f, (strict.spares → t.Spared i f) ∧ n = t.updateSource i f := by
  cases hm with
  | frame hf =>
    have ho : n.options = t.options := congrArg Frame.options hf
    have hs : n.sources = t.sources := congrArg Frame.sources hf
    exact .inl (by rw [slate, slate, ho, hs])
  | flush id => exact .inl (flush_slate t id)
  | retire now id => exact .inl (retireWorker_slate t now id)
  | @launch p w m =>
    exact .inl (t.updateSource_slate w.source (f := fun m =>
      { m with active := m.active + 1, used := true }) fun _ => rfl)
  | source i _ hsp => exact .inr ⟨i, _, hsp, rfl⟩
  | consume _ _ _ hc => exact .inl ((consume_slate hc).trans rfl)
  | define now tt _ _ => exact .inl (settle_slate _ now _ tt)
  | opened => exact .inl (foldl_slate (f := write) (fun _ _ => rfl) _ _)
  | reset => exact .inl (reset_slate t)
  | leave now _ => exact .inl (cancelAll_slate _ now)
  | restart => exact .inl (retireAll_slate _ _)
  | checkpoint c => exact .inl (checkpoint_slate t c)
  | _ => exact .inl rfl

/-- Moves that spare the last mirror. -/
abbrev Lively : HttpTask F → HttpTask F → Prop := Moves { spares := True }

theorem Living.moves (hl : t.Living) (hm : t.Lively n) : n.Living := by
  refine Moves.preserve (motive := Living) (fun hmo hl => ?_) hm hl
  rcases move_slate hmo with hsl | ⟨i, f, hs, rfl⟩
  · exact hl.of_slate hsl
  · exact (hs trivial).living hl

/-- A mirror is left, or the task is aborted. -/
def Over : Prop := task.Living ∨ task.phase = .done

section Failing

variable {t : HttpTask F} (f : Facts F) (w : Worker)

theorem abort_over (hlive : t.Live) (c : Failure) (m : String) :
    (t.abort f c m).Over := .inr (abort_phase t f c m hlive)

theorem Living.slotFailed (hl : t.Living) (s : Nat) (c : Failure) (m : String) (w : Int) :
    (t.slotFailed f s c m w).Over := .inl (hl.moves (slotFailed_moves t f s c m w))

/-- With no mirror left and nothing running, a failure ends the task. -/
theorem slotFailed_over (hlive : t.Live) (hmirrors : 1 < t.sources.length)
    (htries : 0 < t.options.maxTries) (hla : ¬ t.Living → t.workers = ∅) (s : Nat) (c : Failure)
    (m : String) (w : Int) : (t.slotFailed f s c m w).Over := by
  by_cases hl : t.Living
  · exact hl.slotFailed f s c m w
  · have ho : (t.countFailure f s c m w).outOfTries = true := by
      have hde := (t.allDead_iff).mpr hl
      have he : t.workers.entries.isEmpty = true := by
        rw [hla hl]
        rfl
      unfold outOfTries
      rw [if_pos (by exact hmirrors)]
      exact Bool.and_eq_true_iff.mpr ⟨he, hde⟩
    rw [slotFailed, if_neg (by exact not_le.mpr htries), if_pos ho]
    exact abort_over f (by exact hlive) _ _

theorem overloaded_over (hlive : t.Live) (st r : Int) : (t.overloaded f w st r).Over := by
  unfold overloaded
  dsimp only
  have hn : (t.updateSource w.source fun s => { s with
    readyAt := f.now + t.overloadWait f w }).Live := hlive
  generalize t.updateSource w.source _ = n at hn ⊢
  generalize (if n.pooled then max r f.transferring
    else r) = transferring
  split
  · exact abort_over f hn _ _
  · next hde =>
    rw [allDead_iff, not_not] at hde
    split
    · exact hde.slotFailed f _ _ _ _
    · split <;> exact .inl hde

theorem missing_over (hlive : t.Live) (s : Int) : (t.missing f w s).Over := by
  unfold missing
  dsimp only
  split
  · exact abort_over f (by exact hlive) _ _
  · next hde =>
    rw [allDead_iff, not_not] at hde
    exact hde.slotFailed f _ _ _ _

variable (hlive : t.Live) (hmirrors : 1 < t.sources.length)
  (htries : 0 < t.options.maxTries)

include hlive hmirrors htries

theorem failedStatus_over (s : Int)
    (hl : ¬ t.Living → t.workers = ∅ ∧ ¬ ((s = 412 ∨ s = 416) ∧ 0 ≤ t.planner.length)) :
    (t.failedStatus f w s).Over := by
  have hc : (s = 412 ∨ s = 416) ∧ 0 ≤ t.planner.length → ∀ why, (t.changed f why).Over := by
    intro hs why
    have hli : t.Living := by
      by_contra hde
      exact (hl hde).2 hs
    exact .inl (hli.moves (changed_moves t f why hlive False.elim))
  unfold failedStatus
  dsimp only
  split
  · exact overloaded_over f w hlive s _
  · split
    · next hr => exact hc ⟨.inr hr.1, hr.2⟩ _
    · split
      · next hp => exact hc ⟨.inl hp.1, hp.2⟩ _
      · split
        · exact missing_over f w hlive s
        · split
          · exact abort_over f hlive _ _
          · exact slotFailed_over f hlive hmirrors htries (fun hde => (hl hde).1) _ _ _ _

/-- A connection failed, and its mirror is blamed for it. -/
theorem failed_over (c : CurlCode) (hl : ¬ t.Living → t.workers = ∅) :
    (let t := if permanent c then
        t.updateSource w.source fun s =>
          { s with dead := true }
      else t
    if permanent c ∧ t.allDead then
      t.abort f (curlError c) f.errorText
    else
      t.slotFailed f w.slot (curlError c) f.errorText 0).Over := by
  by_cases hp : permanent c = true
  · simp only [hp, if_true, true_and]
    split
    · exact abort_over f (by exact hlive) _ _
    · next hde =>
      rw [allDead_iff, not_not] at hde
      exact hde.slotFailed f _ _ _ _
  · simp only [hp, if_false, false_and, Bool.false_eq_true]
    exact slotFailed_over f hlive hmirrors htries hl _ _ _ _

end Failing

/-- A failure blames the last mirror, which has no tries left after it. -/
def lastTry (worker : Worker) : Bool := !task.otherAlive worker.source &&
    (task.sources[worker.source]?).any fun source =>
      task.options.maxTries ≤ source.failures + 1

section Blaming

variable {t : HttpTask F} (f : Facts F) {w : Worker}

/-- Blame takes the last mirror only with its last try. -/
theorem blameSource_living (hl : t.Living) (hla : t.lastTry w = false) :
    (t.blameSource f w.source).Living := by
  by_cases ha : t.otherAlive w.source = true
  · exact Spared.living (.inr (.inl ha)) hl
  · obtain ⟨o, hm⟩ := mem_iff_getElem?.mp ((living_iff t).mp hl)
    have ho : o = w.source := by
      by_contra hn
      exact ha ((t.otherAlive_iff _).mpr ⟨o, hn, hm⟩)
    rw [ho] at hm
    simp only [slate, List.getElem?_map, Option.map_eq_some_iff] at hm
    obtain ⟨s, hs, hde⟩ := hm
    have hle : s.failures + 1 < t.options.maxTries := by
      simpa [lastTry, ha, hs] using hla
    rw [living_iff]
    apply mem_of_getElem? (i := w.source)
    simp only [slate, blameSource, updateSource, List.getElem?_map, List.getElem?_modify_eq, hs]
    split
    · simp [hde, hle]
    · simp [hde]

theorem lastTry_congr {n : HttpTask F} (hs : n.slate = t.slate)
    (hf : ∀ i : Nat, (n.sources[i]?).map Source.failures = (t.sources[i]?).map Source.failures) :
    n.lastTry w = t.lastTry w := by
  have ha : n.otherAlive w.source = t.otherAlive w.source := by
    rw [Bool.eq_iff_iff, otherAlive_iff, otherAlive_iff, hs]
  have ho := options_of_slate hs
  have ht : ∀ s : Option Source, (s.any fun s => t.options.maxTries ≤ s.failures + 1) =
        (s.map Source.failures).any fun f =>
          t.options.maxTries ≤ f + 1 := by
    rintro (_ | so) <;> rfl
  rw [lastTry, lastTry, ha, ho, ht, ht, hf]

theorem retireWorker_failures (now id : Int) (i : Nat) :
    ((t.retireWorker now id).sources[i]?).map Source.failures =
      (t.sources[i]?).map Source.failures := by
  unfold retireWorker
  split
  · rfl
  · rw [List.getElem?_modify]
    cases t.sources[i]? with
    | none => rfl
    | some s => simp only [Option.map_eq_map, Option.map_some]; split <;> rfl

theorem retireWorker_length (now id : Int) :
    (t.retireWorker now id).planner.length = t.planner.length := by
  unfold retireWorker
  split
  · rfl
  · next w _ =>
    change (noteRate t.planner now w).length = t.planner.length
    unfold noteRate
    split <;> rfl

theorem flush_sources (id : Int) : (t.flush id).sources = t.sources := by
  unfold flush
  split
  · rfl
  · dsimp only
    split
    · rfl
    · split
      · rfl
      · split <;> rfl

end Blaming

/-- A request failed. -/
def fails (worker : Worker) (code : CurlCode) : Bool :=
  code ≠ .ok && !(worker.done && code = .writeError)

/-- A failure that takes the last mirror comes from the last connection, and
is not an answer that makes the download start over. -/
def Lonely (id : Int) (code : CurlCode) (status : Int) : Prop :=
  (∀ entry ∈ task.workers.entries, entry.1 = id) ∧
    ¬ (code = .httpReturnedError ∧ (status = 412 ∨ status = 416) ∧ 0 ≤ task.planner.length)

instance (task : HttpTask F) (id : Int) (code : CurlCode) (status : Int) :
    Decidable (task.Lonely id code status) :=
  inferInstanceAs (Decidable (_ ∧ _))

theorem Lonely.retired {c : CurlCode} {s : Int} (hl : t.Lonely id c s) (now : Int) :
    (t.retireWorker now id).workers = ∅ := by
  apply OrdMap.ext_find?
  intro o
  rw [retireWorker_find]
  split_ifs with ho
  · rfl
  · cases hf : t.workers.find? o with
    | none => rfl
    | some w =>
      exact absurd (hl.1 _ ((OrdMap.find?_eq_some_iff t.workers o w).mp hf)) ho

theorem failedResponse_over (f : Facts F) {w : Worker} (hlive : t.Live) (hl : t.Living)
    (hmirrors : 1 < t.sources.length) (htries : 0 < t.options.maxTries) (c : CurlCode) (s : Int)
    (d : Option (Option String)) (hla : t.lastTry w = true → t.Lonely id c s) :
    (t.failedResponse f id w c s d).Over := by
  have hr := retireWorker_slate t f.now id
  unfold failedResponse
  split
  · refine .inl (hl.moves ?_)
    refine .trans ?_ (launch_moves _ f)
    refine .trans ?_ (updateSlot_moves _ _ _)
    refine .trans ?_ (retireWorker_moves _ f.now id)
    exact updateSource_moves t _ (fun _ => ⟨rfl, rfl, rfl⟩) fun _ => .inl fun _ => rfl
  · dsimp only
    have hli' : (t.retireWorker f.now id).Live := by
      have hp : (t.retireWorker f.now id).phase = t.phase :=
        congrArg Title.phase (retireWorker_title t f.now id)
      rw [Live, hp]
      exact hlive
    have hl' := hl.of_slate hr
    have hs : 1 < (t.retireWorker f.now id).sources.length := by
      rw [length_of_slate hr]
      exact hmirrors
    have ht' : 0 < (t.retireWorker f.now id).options.maxTries := by
      rw [options_of_slate hr]
      exact htries
    have hla' : (t.retireWorker f.now id).lastTry w = true → (t.retireWorker f.now id).workers = ∅ ∧
          ¬ (c = .httpReturnedError ∧ (s = 412 ∨ s = 416) ∧
            0 ≤ (t.retireWorker f.now id).planner.length) := by
      intro ht
      rw [lastTry_congr hr (retireWorker_failures f.now id)] at ht
      rw [retireWorker_length]
      exact ⟨(hla ht).retired f.now, (hla ht).2⟩
    generalize t.retireWorker f.now id = n at *
    split
    · exact .inl (hl'.moves (.after (launch_moves _ f) rfl))
    · split
      · refine .inl (hl'.moves (.trans ?_ (launch_moves _ f)))
        exact updateSource_moves n _ (fun _ => ⟨rfl, rfl, rfl⟩) fun _ => .inl fun _ => rfl
      · have hb : ¬ (n.blameSource f w.source).Living →
            n.workers = ∅ ∧ ¬ (c = .httpReturnedError ∧ (s = 412 ∨ s = 416) ∧
                0 ≤ n.planner.length) := by
          intro hde
          apply hla'
          by_contra hn
          rw [Bool.not_eq_true] at hn
          exact hde (blameSource_living f hl' hn)
        have hm' : 1 < (n.blameSource f w.source).sources.length := by
          rw [blameSource, updateSource, length_modify]
          exact hs
        split
        · next hh =>
          exact failedStatus_over f w (by exact hli') hm' (by exact ht') s fun hde =>
              ⟨(hb hde).1, fun h => (hb hde).2 ⟨hh, h⟩⟩
        · exact failed_over f w (by exact hli') hm' (by exact ht') c fun hde => (hb hde).1

/-- A request ends: the last mirror goes only with the task. -/
theorem finished_over (f : Facts F) (hs : t.frame.Staged) (hl : t.Living)
    (hmirrors : 1 < t.sources.length) (htries : 0 < t.options.maxTries)
    (c : CurlCode) (s : Int) (d : Option (Option String)) (hla : ∀ w, t.workers.find? id = some w →
      fails w c = true → t.lastTry w = true → t.Lonely id c s) : (t.finished f id c s d).Over := by
  have hf := flush_slate t id
  unfold finished
  split
  · exact .inl hl
  · next w hfi =>
    have hlive := flush_live (hs.live id w hfi) id
    dsimp only
    split
    · exact .inl (hl.moves ((Moves.trans (flush_moves t id)
        (retireWorker_moves _ f.now id)).trans (quiesce_moves _)))
    · split
      · next hc =>
        have hfa : fails w c = true := by
          cases hdo : w.done <;> simpa [fails, hdo] using hc
        apply failedResponse_over f hlive (hl.of_slate hf)
        · rw [length_of_slate hf]
          exact hmirrors
        · rw [options_of_slate hf]
          exact htries
        · intro ht
          rw [lastTry_congr hf (fun i => by rw [flush_sources])] at ht
          obtain ⟨hso, hst⟩ := hla w hfi hfa ht
          refine ⟨?_, by rwa [flush_planner]⟩
          rintro ⟨o, g⟩ he
          obtain ⟨old, hold, -⟩ := (flush_narrows t id).workers o g
            ((OrdMap.find?_eq_some_iff _ o g).mpr he)
          exact hso (o, old) ((OrdMap.find?_eq_some_iff t.workers o old).mp hold)
      · have hr : t.Lively (((t.flush id).endStream id).retireWorker f.now id) :=
          (Moves.trans (flush_moves t id) (endStream_moves _ id hlive)).trans
            (retireWorker_moves _ f.now id)
        split
        · exact .inl (hl.moves (hr.trans (slotFailed_moves _ f _ _ _ _)))
        · exact .inl (hl.moves ((hr.trans (tryFinish_moves _ f)).trans (launch_moves _ f)))

/-- The task is not under way. -/
def Resting : Prop :=
  task.phase = .idle ∨ task.phase = .done ∨ task.phase = .stopping

section Rest

variable {t : HttpTask F} (f : Facts F)

theorem Resting.not_live (hr : t.Resting) :
    t.phase ≠ .probing ∧ t.phase ≠ .opening ∧ t.phase ≠ .running := by
  rcases hr with h | h | h <;> rw [h] <;> decide

theorem Resting.quiesce (hr : t.Resting) : t.quiesce.Resting := by
  unfold HttpTask.quiesce
  split
  · exact hr
  · dsimp only
    split
    · change (t.checkpoint false).phase = _ ∨
        (t.checkpoint false).phase = _ ∨ (t.checkpoint false).phase = _
      rw [checkpoint_phase]
      exact hr
    · exact .inl rfl

theorem stop_resting : (t.stop f).Resting := by
  apply Resting.quiesce
  exact .inr (.inr (congrArg Title.phase (cancelAll_title _ f.now)))

theorem Resting.abort (hr : t.Resting) (c : Failure) (m : String) : (t.abort f c m).Resting := by
  unfold HttpTask.abort
  split
  · exact hr
  · refine .inr (.inl ?_)
    exact (checkpoint_phase _ false).trans (congrArg Title.phase (cancelAll_title _ f.now))

theorem Resting.jobDone (hr : t.Resting) (r : JobResult) (job : Job) :
    (t.jobDone f r job).Resting := by
  have hn : ∀ p : Phase, p ≠ .idle → p ≠ .done → p ≠ .stopping → t.phase ≠ p := by
    intro p hi hdo hs hp
    rw [Resting, hp] at hr
    rcases hr with h | h | h
    · exact hi h
    · exact hdo h
    · exact hs h
  cases job with
  | opened =>
    rw [HttpTask.jobDone, outputReady.eq_def,
      if_pos (hn .opening (by decide) (by decide) (by decide))]
    exact hr.quiesce
  | written x s =>
    rw [HttpTask.jobDone, written.eq_def]
    dsimp only
    rw [if_neg (hn .restarting (by decide) (by decide) (by decide))]
    split
    · exact .abort f (by exact hr) _ _
    · split
      · exact .quiesce (by exact hr)
      · rw [tryFinish, if_pos (.inl (hn .running (by decide) (by decide) (by decide)))]
        exact hr
  | restart =>
    rw [HttpTask.jobDone, restart.eq_def,
      if_pos (hn .restarting (by decide) (by decide) (by decide))]
    exact hr.quiesce
  | finishClosed =>
    rw [HttpTask.jobDone, finishClosed]
    rw [if_pos (hn .finishing (by decide) (by decide) (by decide))]
    exact .quiesce (by exact hr)
  | stopClosed => exact .inl rfl
  | verified =>
    rw [HttpTask.jobDone, verified.eq_def,
      if_pos (hn .finishing (by decide) (by decide) (by decide))]
    exact hr.quiesce
  | piecesChecked fa =>
    rw [HttpTask.jobDone, piecesChecked.eq_def,
      if_pos (hn .finishing (by decide) (by decide) (by decide))]
    exact hr.quiesce

theorem claimRecord_phase (p : String) : (t.claimRecord f p).2.phase = t.phase := by
  unfold claimRecord
  split
  · rfl
  · split <;> rfl

theorem loadProgress_phase : (t.loadProgress f).phase = t.phase := by
  have hre : (t.resumable f).2.phase = t.phase := by
    have hs : (t.storedRecord f).2.phase = t.phase := by
      unfold storedRecord
      split
      · rfl
      · split
        · rfl
        · exact claimRecord_phase f _
    unfold resumable
    split
    · next hr =>
      rw [hr] at hs
      exact hs
    · next hr =>
      rw [hr] at hs
      split <;> exact hs
  unfold loadProgress
  split
  · rfl
  · split
    · next hr =>
      rw [hr] at hre
      exact hre
    · next hr =>
      rw [hr] at hre
      exact hre

end Rest

/-- The mirrors that an edit does not name. -/
def unnamed (remove : List String) : List Source :=
  task.sources.filter fun source => source.uri ∉ remove

theorem filter_removeUri (ss : List Source) (uri : String) (r : List String) :
    (ss.filter fun source => source.uri ∉ uri :: r).Sublist
      ((removeUri ss uri).filter fun source => source.uri ∉ r) := by
  have hw : (ss.filter fun source => source.uri ∉ uri :: r) =
      (ss.filter fun source => source.uri ≠ uri).filter fun source => source.uri ∉ r := by
    rw [filter_filter]
    apply filter_congr
    intro source _
    simp [Bool.and_comm]
  rw [hw]
  apply List.Sublist.filter
  rcases removeUri_cases ss uri with hsa | ⟨i, source, hs, hu, -, he⟩
  · rw [hsa]
    exact filter_sublist
  · rw [he, eraseIdx_eq_take_drop_succ]
    have hl : i < ss.length := by
      by_contra hg
      rw [List.getElem?_eq_none (not_lt.mp hg)] at hs
      cases hs
    have hsp : ss = ss.take i ++ source :: ss.drop (i + 1) := by
      rw [List.getElem?_eq_getElem hl, Option.some.injEq] at hs
      rw [← hs, cons_getElem_drop_succ, take_append_drop]
    have hf : (ss.filter fun source => source.uri ≠ uri) =
        (ss.take i ++ ss.drop (i + 1)).filter fun source => source.uri ≠ uri := by
      conv_lhs => rw [hsp]
      rw [filter_append, filter_append, filter_cons_of_neg (by simp [hu])]
    rw [hf]
    exact filter_sublist

/-- An edit keeps the mirrors it does not name. -/
theorem unnamed_sublist (t : HttpTask F) (r add : List String) (p : Int) :
    (t.unnamed r).Sublist (t.editUris r add p).sources := by
  have hr : ∀ ss : List Source, (ss.filter fun s => s.uri ∉ r).Sublist (r.foldl removeUri ss) := by
    induction r with
    | nil => exact fun ss => filter_sublist
    | cons uri re ih =>
      exact fun ss => (filter_removeUri ss uri re).trans (ih (removeUri ss uri))
  refine (hr t.sources).trans ?_
  unfold editUris
  dsimp only
  generalize r.foldl removeUri t.sources = ss
  generalize (clampInt _ 0 _).toNat = place
  conv_lhs => rw [← take_append_drop place ss]
  rw [append_assoc]
  exact List.Sublist.append_left (sublist_append_right _ _) _

/-- A task is started while a mirror is alive, no edit of the list leaves
fewer than two of the old mirrors or only dead ones, and a failure that takes
the last mirror comes from the last connection and is no answer that makes the
download start over. -/
def Sparing (event : Event F) : Prop :=
  match event.input with
  | .start => task.Living
  | .done id code status _ => ∀ worker ∈ task.workers.find? id,
      fails worker code = true → task.lastTry worker = true → task.Lonely id code status
  | .changeUris remove _ _ _ => 2 ≤ (task.unnamed remove).length ∧
      ∃ source ∈ task.unnamed remove, source.dead = false
  | _ => True

instance (task : HttpTask F) (event : Event F) : Decidable (task.Sparing event) := by
  unfold Sparing
  split <;> infer_instance

/-- The options and the number of mirrors. -/
def shape : Options × Nat := (task.options, task.sources.length)

theorem shape_of_slate (hs : n.slate = t.slate) : n.shape = t.shape := by
  rw [shape, shape, options_of_slate hs, length_of_slate hs]

theorem move_shape (hm : Move strict t n) : n.shape = t.shape := by
  rcases move_slate hm with hs | ⟨i, f, -, rfl⟩
  · exact shape_of_slate hs
  · exact congrArg (Prod.mk _) (length_modify ..)

theorem step_shape (hs : t.frame.Staged) (e : Event F) :
    (t.step e).shape = (t.reshape e.input).shape :=
  step_preserve (motive := fun n => n.shape = (t.reshape e.input).shape)
    (fun hm _ hn => (move_shape hm).trans hn) hs ⟨reshape_staged hs e.input, rfl⟩

/-- What holds of a download with several mirrors. -/
structure Mirrored (task : HttpTask F) : Prop where
  staged : task.frame.Staged
  mirrors : 2 ≤ task.sources.length
  tries : 0 < task.options.maxTries
  outcome : task.Living ∨ task.Resting

theorem Mirrored.reshape (hm : t.Mirrored) (hs : t.Sparing e) :
    2 ≤ (t.reshape e.input).sources.length ∧ 0 < (t.reshape e.input).options.maxTries := by
  obtain ⟨i, f⟩ := e
  cases i with
  | changeUris r add p a =>
    refine ⟨?_, hm.tries⟩
    exact le_trans hs.1 (t.unnamed_sublist r add p).length_le
  | recreate =>
    refine ⟨?_, hm.tries⟩
    change 2 ≤ ((t.sources.map Source.uri).zipIdx.map _).length
    rw [length_map, length_zipIdx, length_map]
    exact hm.mirrors
  | _ => exact ⟨hm.mirrors, hm.tries⟩

/-- A task at rest has no connections. -/
theorem Mirrored.find_none (hm : t.Mirrored) (hr : t.Resting) (id : Int) :
    t.workers.find? id = none := by
  have he : t.workers = ∅ := hm.staged.workers_empty hr.not_live
  rw [he]
  rfl

theorem step_outcome (hm : t.Mirrored) (hsp : t.Sparing e) :
    (t.step e).Living ∨ (t.step e).Resting := by
  obtain ⟨input, f⟩ := e
  have ho := hm.outcome
  have hs : (∀ id c status detour, input ≠ .done id c status detour) →
      (t.reshape input).Living → (t.step ⟨input, f⟩).Living := fun hi hl =>
    hl.moves (step_moves t ⟨input, f⟩ hm.staged False.elim fun _ => hi)
  cases input with
  | start => exact .inl (hs (by simp) hsp)
  | stop => exact .inr (stop_resting f)
  | header id r =>
    rcases ho with hl | hr
    · exact .inl (hs (by simp) hl)
    · have hsa : t.onHeader f id r = t := by
        simp [onHeader, updateWorker, accept, hm.find_none hr id]
      rw [step]
      dsimp only
      rw [hsa]
      exact .inr hr
  | data id chunk left =>
    rcases ho with hl | hr
    · exact .inl (hs (by simp) hl)
    · have hsa : t.onData f id chunk left = t := by
        simp [onData, accept, hm.find_none hr id]
      rw [step]
      dsimp only
      rw [hsa]
      exact .inr hr
  | done id c status detour =>
    rcases ho with hl | hr
    · rcases finished_over f hm.staged hl hm.mirrors hm.tries c status detour (fun w hf =>
          hsp w hf) with hl | hdo
      · exact .inl hl
      · exact .inr (.inr (.inl hdo))
    · have hsa : t.finished f id c status detour = t := by
        simp [finished, hm.find_none hr id]
      rw [step]
      dsimp only
      rw [hsa]
      exact .inr hr
  | jobDone job result =>
    rcases ho with hl | hr
    · exact .inl (hs (by simp) hl)
    · rw [step]
      dsimp only
      split
      · exact .inr (.jobDone f (by exact hr) result job)
      · exact .inr hr
  | tick moved replaced =>
    rcases ho with hl | hr
    · exact .inl (hs (by simp) hl)
    · rw [step]
      dsimp only
      rw [tick, if_pos hr.not_live]
      exact .inr hr
  | changeUris remove add p active =>
    obtain ⟨-, source, hso, hde⟩ := hsp
    exact .inl (hs (by simp) ⟨source, (t.unnamed_sublist remove add p).subset hso, hde⟩)
  | checkpoint complete =>
    rcases ho with hl | hr
    · exact .inl (hs (by simp) hl)
    · refine .inr ?_
      rw [step, Resting]
      rw [checkpoint_phase]
      exact hr
  | loadProgress =>
    rw [step]
    dsimp only
    split
    · next hid =>
      exact .inr (.inl ((loadProgress_phase f).trans hid))
    · exact ho
  | discardState => exact ho
  | recreate => exact .inr (.inl rfl)

theorem step_mirrored (hm : t.Mirrored) (hs : t.Sparing e) : (t.step e).Mirrored := by
  have hsh := step_shape hm.staged e
  obtain ⟨hmirrors, htries⟩ := hm.reshape hs
  have hsi : (t.step e).sources.length = (t.reshape e.input).sources.length := congrArg Prod.snd hsh
  have ho : (t.step e).options = (t.reshape e.input).options := congrArg Prod.fst hsh
  exact
    { staged := step_staged hm.staged e
      mirrors := by rw [hsi]; exact hmirrors
      tries := by rw [ho]; exact htries
      outcome := step_outcome hm hs }

/-- A download with several mirrors and a limit on tries never idles without a
mirror, as long as the last mirror goes only with the last connection and not
by an answer that makes the download start over. -/
theorem run_never_idles_without_mirror (options : Options)
    (uris : List String) (declared : Int) (pieceType : String)
    (pieceLength : Int) (pieces : Nat) (events : List (Event F))
    (hmirrors : 2 ≤ uris.length) (htries : 0 < options.maxTries)
    (hsparing : Runs.Meets step Sparing
      (create options uris declared pieceType pieceLength pieces) events) :
    let task := Runs.run step (create options uris declared pieceType pieceLength pieces) events
    task.phase = .probing ∨ task.phase = .running → task.workers = ∅ →
      .restart ∉ task.jobs → .opened ∉ task.jobs →
      (∃ source ∈ task.sources, source.dead = false) ∨ task.planner.complete = true := by
  intro task hphase _ _ _
  have hstep : ∀ (task : HttpTask F) (event : Event F),
      task.Mirrored → task.Sparing event → (task.step event).Mirrored :=
    fun _ _ hmirrored hevent => step_mirrored hmirrored hevent
  have hcreated : (create options uris declared pieceType pieceLength pieces :
      HttpTask F).Mirrored :=
    { staged := create_staged options uris declared pieceType pieceLength pieces
      mirrors := by
        change 2 ≤ (uris.zipIdx.map _).length
        rw [length_map, length_zipIdx]
        exact hmirrors
      tries := htries
      outcome := .inr (.inl rfl) }
  have hmirrored : task.Mirrored := Runs.run_invariant hstep hcreated hsparing
  rcases hmirrored.outcome with hliving | hresting
  · exact .inl hliving
  · rcases hphase with h | h
    · exact absurd h hresting.not_live.1
    · exact absurd h hresting.not_live.2.2

/-- The probe of the first mirror fails, and the second is left. -/
theorem run_never_idles_without_mirror_second :
    let task := Runs.run step (create { maxTries := 1 } ["a", "b"] (-1) "" 0 0 : HttpTask ℚ)
      [⟨.start, {}⟩, ⟨.done 0 .httpReturnedError 500 none, {}⟩]
    (∃ source ∈ task.sources, source.dead = false) ∨ task.planner.complete = true :=
  run_never_idles_without_mirror { maxTries := 1 } ["a", "b"] (-1) "" 0 0
    [⟨.start, {}⟩, ⟨.done 0 .httpReturnedError 500 none, {}⟩] (by decide)
    (by decide) (by decide +kernel) (.inl (by decide +kernel))
    (OrdMap.eq_empty_of_entries (by decide +kernel)) (by decide +kernel) (by decide +kernel)

/-- The first mirror fails.  The second answers the request for the rest with
412, and the download starts over with no mirror; or one of its requests fails
while another runs, which then ends with its range. -/
theorem last_mirror_goes_unnoticed : let probed : List (Event ℚ) :=
      [⟨.start, {}⟩, ⟨.done 0 .httpReturnedError 500 none, {}⟩, ⟨.tick [] [], {}⟩,
        ⟨.header 1 { status := 206, contentRange := some (some ⟨0, 9, 10⟩) }, {}⟩,
        ⟨.jobDone .opened {}, {}⟩]
    let restarted := Runs.run step (create { maxTries := 1 } ["a", "b"] (-1) "" 0 0 : HttpTask ℚ)
      (probed ++ [⟨.done 1 .ok 206 none, {}⟩, ⟨.tick [] [], {}⟩,
        ⟨.done 2 .httpReturnedError 412 none, {}⟩, ⟨.jobDone .restart {}, {}⟩])
    let deserted := Runs.run step
      (create { maxTries := 1, minSplitSize := 5 } ["a", "b"] (-1) "" 0 0 : HttpTask ℚ)
      (probed ++ [⟨.header 2 { status := 206, contentRange := some (some ⟨5, 9, 10⟩) }, {}⟩,
        ⟨.done 1 .other 0 none, {}⟩, ⟨.data 2 [1, 2, 3, 4, 5] (-1), {}⟩,
        ⟨.done 2 .ok 206 none, {}⟩, ⟨.jobDone (.written 5 5) {}, {}⟩])
    (restarted.phase = .probing ∧ restarted.workers.entries = [] ∧ restarted.jobs = [] ∧
      restarted.sources.map Source.dead = [true, true] ∧
      restarted.planner.complete = false ∧ restarted.reports = []) ∧
    deserted.phase = .running ∧ deserted.workers.entries = [] ∧ deserted.jobs = [] ∧
      deserted.sources.map Source.dead = [true, true] ∧
      deserted.planner.complete = false ∧ deserted.reports = [] := by
  decide +kernel

end HttpTask

end Aria2Next
