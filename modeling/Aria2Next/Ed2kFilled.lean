/-
No filled part is forgotten: a part that is there and not verified is hashed,
or waits for the hash set.  Data of a client fills at most one part, which is
then looked at; a stored download is read back as ranges that cross the
borders of parts, and of the parts in one range only the first is looked at.
-/
import Aria2Next.Ed2kClaims
import Aria2Next.Ed2kProgress
import Aria2Next.Ed2kDownload
import Aria2Next.Ed2kOutcome

namespace Aria2Next

namespace Ed2kTask

universe u

variable {D : Type u} {total tt : Int}

/-- A part is hashed, or waits for the hash set. -/
def Watched (task : Ed2kTask D) (index : Nat) : Prop :=
  (∃ expected, Job.hash index (.verify expected) ∈ task.jobs) ∨
    (index ∈ task.waitingForHashSet ∧ task.needsHashSet = true)

/-- What keeps track of the filled parts in every phase. -/
structure Kept (task : Ed2kTask D) (total : Int) : Prop where
  size_eq : task.link.size = total
  shaped : task.parts.Shaped total
  /-- A file that is checked has no progress but what verified. -/
  checking : task.phase = .checking ∨ (task.phase = .opening ∧ .open true ∈ task.jobs) →
    ∀ index < task.parts.count, ¬ task.parts.Pending index
  opening : task.phase = .opening → ∀ index < task.parts.count, task.parts.Pending index →
      index ∈ task.waitingForHashSet
  downloading : task.phase = .downloading →
    ∀ index < task.parts.count, task.parts.Pending index → task.Watched index

/-- A step that leaves the progress alone; it may leave the download. -/
structure Carries (task next : Ed2kTask D) : Prop where
  parts : next.parts = task.parts
  size : next.link.size = task.link.size
  waiting : next.waitingForHashSet = task.waitingForHashSet
  needs : next.needsHashSet = task.needsHashSet
  phase : next.phase = task.phase ∨ next.phase = .sharing ∨
    next.phase = .closing ∨ next.phase = .idle
  hashes : ∀ index use, .hash index use ∈ task.jobs → .hash index use ∈ next.jobs
  opens : ∀ check, .open check ∈ next.jobs → .open check ∈ task.jobs

namespace Carries

theorem refl (t : Ed2kTask D) : Carries t t :=
  ⟨rfl, rfl, rfl, rfl, .inl rfl, fun _ _ h => h, fun _ h => h⟩

theorem trans {t next l : Ed2kTask D} (hf : Carries t next) (hl : Carries next l) :
    Carries t l where
  parts := hl.parts.trans hf.parts
  size := hl.size.trans hf.size
  waiting := hl.waiting.trans hf.waiting
  needs := hl.needs.trans hf.needs
  phase := by
    rcases hl.phase with he | hle
    · rw [he]
      exact hf.phase
    · exact .inr hle
  hashes i use hj := hl.hashes i use (hf.hashes i use hj)
  opens check hj := hf.opens check (hl.opens check hj)

theorem watched {t next : Ed2kTask D} (hc : Carries t next) {i : Nat} (hw : t.Watched i) :
    next.Watched i := by
  rcases hw with ⟨expected, hj⟩ | ⟨hwa, hn⟩
  · exact .inl ⟨expected, hc.hashes _ _ hj⟩
  · exact .inr ⟨hc.waiting ▸ hwa, hc.needs.trans hn⟩

theorem kept {t next : Ed2kTask D} (hc : Carries t next) (hk : t.Kept tt) : next.Kept tt := by
  have hp : ∀ {p : Phase}, p = .opening ∨ p = .checking ∨
      p = .downloading → next.phase = p → t.phase = p := by
    intro p hp he
    rcases hc.phase with hs | hl
    · exact hs.symm.trans he
    · rw [he] at hl
      rcases hp with rfl | rfl | rfl <;> simp at hl
  constructor
  · exact hc.size.trans hk.size_eq
  · rw [hc.parts]
    exact hk.shaped
  · rw [hc.parts]
    rintro (hch | ⟨ho, hop⟩)
    · exact hk.checking (.inl (hp (by simp) hch))
    · exact hk.checking (.inr ⟨hp (by simp) ho, hc.opens true hop⟩)
  · intro ho
    rw [hc.parts, hc.waiting]
    exact hk.opening (hp (by simp) ho)
  · intro hdo i hi hpe
    rw [hc.parts] at hi hpe
    exact hc.watched (hk.downloading (hp (by simp) hdo) i hi hpe)

end Carries

section

variable (task t : Ed2kTask D)

theorem queue_carries (job : Job D) (hj : ∀ c, job ≠ .open c) : Carries t (t.queue job) where
  parts := rfl
  size := rfl
  waiting := rfl
  needs := rfl
  phase := .inl rfl
  hashes _ _ hm := List.mem_append_left _ hm
  opens c hm := by
    rcases List.mem_append.mp hm with hm | hm
    · exact hm
    · exact absurd (List.mem_singleton.mp hm).symm (hj c)

theorem quiesce_carries : Carries t t.quiesce := by
  rw [quiesce]
  split
  · exact .refl t
  · exact { queue_carries t .close (by simp) with }

theorem finish_carries (outcome : Outcome) : Carries t (t.finish outcome) := by
  rw [finish.eq_def]
  split
  · exact .refl t
  split
  · cases outcome with
    | fail c m => exact { Carries.refl t with }
    | _ => exact .refl t
  · have hc : Carries t { t with outcome, phase := .closing, ending := true } :=
      { Carries.refl t with phase := by simp }
    split
    · exact hc
    · exact hc.trans (quiesce_carries _)

theorem evaluateSharing_carries (b : Bool) : Carries t (t.evaluateSharing b) := by
  rw [evaluateSharing]
  split
  · exact finish_carries t .complete
  · exact .refl t

theorem downloaded_carries (b : Bool) : Carries t (t.downloaded b) := by
  have hs : Carries t
      { t.queue .sync with
        phase := .sharing
        pendingWrites := t.pendingWrites + 1
        announced := t.announced ||
          decide (t.parts.completed = t.link.size) } :=
    { queue_carries t .sync (by simp) with phase := by simp }
  exact hs.trans (evaluateSharing_carries _ b)

/-- A shared file has left the download. -/
theorem downloaded_phase (b : Bool) :
    (t.downloaded b).phase = .sharing ∨ (t.downloaded b).phase = .closing := by
  have hp : ∀ s : Ed2kTask D, s.phase = .sharing → (s.evaluateSharing b).phase = .sharing ∨
        (s.evaluateSharing b).phase = .closing := by
    intro s hs
    rw [evaluateSharing]
    split
    · right
      simp only [finish, hs, reduceCtorEq, ↓reduceIte, quiesce]
      split <;> rfl
    · exact .inl hs
  exact hp _ rfl

theorem Kept.left {t : Ed2kTask D} (hsi : t.link.size = tt) (hs : t.parts.Shaped tt)
    (hp : t.phase = .sharing ∨ t.phase = .closing ∨ t.phase = .idle) : t.Kept tt := by
  constructor
  · exact hsi
  · exact hs
  all_goals
    intro h
    rcases hp with hp | hp | hp <;> simp [hp] at h

theorem Kept.of_downloading {t : Ed2kTask D} (hsi : t.link.size = tt) (hs : t.parts.Shaped tt)
    (hp : t.phase = .downloading) (hw : ∀ i < t.parts.count, t.parts.Pending i → t.Watched i) :
    t.Kept tt := by
  constructor
  · exact hsi
  · exact hs
  · rintro (h | ⟨h, _⟩) <;> simp [hp] at h
  · intro h
    simp [hp] at h
  · intro _
    exact hw

theorem needsHashSet_eq {t next : Ed2kTask D} (hs : next.link.size = t.link.size)
    (hh : next.pieceHashes = t.pieceHashes) : next.needsHashSet = t.needsHashSet := by
  rw [needsHashSet, hs, hh, needsHashSet]

theorem digestPart_carries (i : Nat) (use : HashUse D) : Carries t (t.digestPart i use) :=
  { queue_carries t (.hash i use) (by simp) with }

/-- Looking at a part keeps what is watched, and watches the part. -/
structure Looks (task next : Ed2kTask D) : Prop where
  parts : next.parts = task.parts
  link : next.link = task.link
  hashes : next.pieceHashes = task.pieceHashes
  phase : next.phase = task.phase
  unchecked : next.unchecked = task.unchecked
  localHashes : next.localHashes = task.localHashes
  watched : ∀ index, task.Watched index → next.Watched index

theorem verifyFilled_looks (i : Nat) : Looks t (t.verifyFilled i) := by
  rw [verifyFilled]
  split
  · split
    · exact ⟨rfl, rfl, rfl, rfl, rfl, rfl, fun _ h => h⟩
    · refine ⟨rfl, rfl, rfl, rfl, rfl, rfl, fun o hw => ?_⟩
      rcases hw with hj | ⟨hwa, hn⟩
      · exact .inl hj
      · exact .inr ⟨List.mem_append_left _ hwa, hn⟩
  · have hc := digestPart_carries t i (.verify (t.expected i))
    exact ⟨rfl, rfl, rfl, rfl, rfl, rfl, fun _ h => hc.watched h⟩

theorem verifyFilled_watched (i : Nat) : (t.verifyFilled i).Watched i := by
  rw [verifyFilled]
  split
  · rename_i hn
    split
    · rename_i hw
      exact .inr ⟨hw, hn⟩
    · exact .inr ⟨List.mem_append_right _ (List.mem_singleton_self i), hn⟩
  · exact .inl ⟨t.expected i, List.mem_append_right _ (List.mem_singleton_self _)⟩

end

theorem foldl_verifyFilled (l : List Nat) (t : Ed2kTask D) :
    Looks t (l.foldl verifyFilled t) ∧ ∀ i ∈ l, (l.foldl verifyFilled t).Watched i := by
  induction l generalizing t with
  | nil =>
    exact ⟨⟨rfl, rfl, rfl, rfl, rfl, rfl, fun _ h => h⟩, fun i hi => absurd hi List.not_mem_nil⟩
  | cons head ta ih =>
    obtain ⟨hl, hw⟩ := ih (t.verifyFilled head)
    have hh := verifyFilled_looks t head
    refine ⟨⟨hl.parts.trans hh.parts, hl.link.trans hh.link,
      hl.hashes.trans hh.hashes, hl.phase.trans hh.phase, hl.unchecked.trans hh.unchecked,
      hl.localHashes.trans hh.localHashes, fun i h => hl.watched i (hh.watched i h)⟩, ?_⟩
    intro i hi
    rcases List.mem_cons.mp hi with rfl | hi
    · exact hl.watched i (verifyFilled_watched t i)
    · exact hw i hi

/-- Parts change so that only parts pending before are pending. -/
structure Settles (parts next : Parts) : Prop where
  size : next.size = parts.size
  count : next.count = parts.count
  pending : ∀ {size : Int}, parts.Shaped size → ∀ index < parts.count,
    next.Pending index → parts.Pending index

namespace Settles

theorem refl (ps : Parts) : Settles ps ps := ⟨rfl, rfl, fun _ _ _ h => h⟩

theorem trans {ps next l : Parts} (hf : Settles ps next) (hl : Settles next l) : Settles ps l where
  size := hl.size.trans hf.size
  count := hl.count.trans hf.count
  pending hs i hi hp := by
    apply hf.pending hs i hi
    apply hl.pending (hs.of_eq hf.size hf.count) i
    · rw [hf.count]
      exact hi
    · exact hp

theorem verify (ps : Parts) (i : Nat) : Settles ps (ps.verify i) :=
  ⟨rfl, Parts.verify_count ps i, fun _ _ ho hp =>
    (hp.of_verify ho).1⟩

theorem foldl {A : Type*} {f : Parts → A → Parts} (hs : ∀ ps a, Settles ps (f ps a)) (l : List A)
    (ps : Parts) : Settles ps (l.foldl f ps) := by
  induction l generalizing ps with
  | nil => exact refl ps
  | cons head t ih => exact (hs ps head).trans (ih (f ps head))

end Settles

/-- Parts change in one phase: what is pending was so before and is watched
still. -/
theorem Kept.update {t next : Ed2kTask D} (hk : t.Kept tt) (hp : next.parts.size = t.parts.size ∧
      next.parts.count = t.parts.count)
    (hs : next.link.size = t.link.size)
    (hph : next.phase = t.phase)
    (hope : .open true ∈ next.jobs → .open true ∈ t.jobs)
    (hw : next.waitingForHashSet = t.waitingForHashSet)
    (hpe : ∀ i < t.parts.count, next.parts.Pending i → t.parts.Pending i)
    (hwa : t.phase = .downloading → ∀ i < t.parts.count,
      next.parts.Pending i → t.Watched i → next.Watched i) :
    next.Kept tt := by
  constructor
  · exact hs.trans hk.size_eq
  · exact hk.shaped.of_eq hp.1 hp.2
  · rw [hph, hp.2]
    intro hc i hi ho
    apply hk.checking _ i hi (hpe i hi ho)
    rcases hc with h | ⟨h, ho'⟩
    · exact .inl h
    · exact .inr ⟨h, hope ho'⟩
  · rw [hph, hw, hp.2]
    intro hop i hi ho
    exact hk.opening hop i hi (hpe i hi ho)
  · rw [hph, hp.2]
    intro hdo i hi ho
    exact hwa hdo i hi ho (hk.downloading hdo i hi (hpe i hi ho))

section

variable (task t : Ed2kTask D)

/-- A run begins with nothing pending that is not watched. -/
theorem run_kept (b : Bool) (hsi : t.link.size = tt) (hs : t.parts.Shaped tt)
    (hw : ∀ i < t.parts.count, t.parts.Pending i → t.Watched i) : (t.run b).Kept tt := by
  rw [run]
  split
  · have hc := downloaded_carries { t with announced := true } b
    apply Kept.left
    · exact hc.size.trans hsi
    · rw [hc.parts]
      exact hs
    · rcases downloaded_phase { t with announced := true } b with h | h
      · exact .inl h
      · exact .inr (.inl h)
  · exact .of_downloading hsi hs rfl hw

theorem run_cases (b : Bool) : (t.run b).parts = t.parts ∧ (t.run b).link.size = t.link.size ∧
      (((t.run b).phase = .sharing ∨ (t.run b).phase = .closing) ∨
        (t.run b).phase = .downloading) := by
  rw [run]
  split
  · have hc := downloaded_carries { t with announced := true } b
    exact ⟨hc.parts, hc.size, .inl (downloaded_phase _ b)⟩
  · exact ⟨rfl, rfl, .inr rfl⟩

theorem checkAll_kept (hsi : t.link.size = tt) (hs : t.parts.Shaped tt)
    (hp : ∀ i < t.parts.count, ¬ t.parts.Pending i) : t.checkAll.Kept tt := by
  have hk : ∀ l : List (Option D), Kept { t with phase := .checking, localHashes := l } tt := by
    intro l
    constructor
    · exact hsi
    · exact hs
    · intro _
      exact hp
    · intro h
      simp at h
    · intro h
      simp at h
  have hf : ∀ (use : Ed2kTask D → Nat → HashUse D) (li : List Nat) (t : Ed2kTask D), t.Kept tt →
      (li.foldl (fun t i => t.digestPart i (use t i)) t).Kept tt := by
    intro use li
    induction li with
    | nil => exact fun t h => h
    | cons head ta ih =>
      intro t h
      exact ih _ ((digestPart_carries t head _).kept h)
  rw [checkAll]
  split
  · exact hf (fun _ _ => .collect) _ _ (hk _)
  · exact hf (fun t i => .check (t.expected i)) _ _ (hk t.localHashes)

/-- The file is open. -/
theorem openDone_kept (e : Option DiskError) (c b : Bool) (hk : t.Kept tt)
    (hch : t.phase = .opening → c = true → ∀ i < t.parts.count, ¬ t.parts.Pending i) :
    (t.openDone e c b).Kept tt := by
  have ho : Kept { t with opening := false } tt := { hk with }
  rw [openDone.eq_def]
  dsimp only
  split
  · exact (quiesce_carries _).kept ho
  rename_i hph
  rw [not_not] at hph
  cases e with
  | some e => exact (finish_carries _ _).kept ho
  | none =>
    dsimp only
    split
    · rename_i hc
      exact checkAll_kept _ hk.size_eq hk.shaped (hch hph hc)
    · obtain ⟨hl, hw⟩ := foldl_verifyFilled t.waitingForHashSet
        ({ t with
            opening := false
            opened := true
            waitingForHashSet := [] }.run b)
      generalize t.waitingForHashSet.foldl verifyFilled _ = next at hl hw ⊢
      obtain ⟨hpa, hsi, hca⟩ := run_cases { t with
        opening := false, opened := true, waitingForHashSet := [] } b
      have hs' : next.link.size = tt := by
        rw [hl.link, hsi]
        exact hk.size_eq
      have hs : next.parts.Shaped tt := by
        rw [hl.parts, hpa]
        exact hk.shaped
      rcases hca with hle | hdo
      · apply Kept.left hs' hs
        rw [hl.phase]
        rcases hle with h | h
        · exact .inl h
        · exact .inr (.inl h)
      · apply Kept.of_downloading hs' hs (hl.phase.trans hdo)
        intro i hi hp
        rw [hl.parts, hpa] at hi hp
        exact hw i (hk.opening hph i hi hp)

theorem finish_phase (o : Outcome) :
    (t.finish o).phase = .closing ∨ (t.finish o).phase = .idle := by
  rw [finish.eq_def]
  split
  · exact .inl ‹_›
  split
  · right
    cases o <;> assumption
  · left
    split
    · rfl
    · rw [quiesce]
      split <;> rfl

/-- Any failure ends the run. -/
theorem finish_kept (o : Outcome) (hsi : t.link.size = tt) (hs : t.parts.Shaped tt) :
    (t.finish o).Kept tt := by
  have hc := finish_carries t o
  apply Kept.left
  · exact hc.size.trans hsi
  · rw [hc.parts]
    exact hs
  · exact .inr (finish_phase t o)

/-- The hash set is accepted or not: what was watched stays so. -/
structure Accepts (task next : Ed2kTask D) : Prop where
  settles : Settles task.parts next.parts
  size : next.link.size = task.link.size
  phase : next.phase = task.phase ∨ (task.phase = .downloading ∧
    (next.phase = .sharing ∨ next.phase = .closing))
  watched : ∀ index, task.Watched index → next.Watched index

theorem Accepts.kept {t next : Ed2kTask D} (ha : Accepts t next)
    (hph : t.phase = .checking ∨ t.phase = .downloading) (hk : t.Kept tt) : next.Kept tt := by
  have hsi := ha.size.trans hk.size_eq
  have hsh := hk.shaped.of_eq ha.settles.size ha.settles.count
  have hp : ∀ i < next.parts.count, next.parts.Pending i →
      i < t.parts.count ∧ t.parts.Pending i := by
    intro i hi hp
    rw [ha.settles.count] at hi
    exact ⟨hi, ha.settles.pending hk.shaped i hi hp⟩
  rcases ha.phase with hs | ⟨_, hl⟩
  · constructor
    · exact hsi
    · exact hsh
    · rintro (hc | ⟨ho, _⟩) i hi hop
      · obtain ⟨hi, hop⟩ := hp i hi hop
        exact hk.checking (.inl (hs.symm.trans hc)) i hi hop
      · rw [hs] at ho
        rcases hph with h | h <;> simp [h] at ho
    · intro ho
      rw [hs] at ho
      rcases hph with h | h <;> simp [h] at ho
    · intro hdo i hi hop
      obtain ⟨hi, hop⟩ := hp i hi hop
      exact ha.watched i (hk.downloading (hs.symm.trans hdo) i hi hop)
  · apply Kept.left hsi hsh
    rcases hl with h | h
    · exact .inl h
    · exact .inr (.inl h)

theorem compared_kept (i : Nat) (ok b : Bool) (hk : t.Kept tt) : (t.compared i ok b).Kept tt := by
  have hn : Kept (if ok then
      { t with parts := t.parts.verify i } else t) tt := by
    split
    · have hs := Settles.verify t.parts i
      exact hk.update ⟨hs.size, hs.count⟩ rfl rfl id rfl (hs.pending hk.shaped) (fun _ _ _ _ h => h)
    · exact hk
  rw [compared]
  generalize (if ok then { t with parts := t.parts.verify i }
    else t) = next at hn ⊢
  split
  · rename_i hdo
    apply run_kept next b hn.size_eq hn.shaped
    intro o ho hp
    exact absurd hp (hn.checking (.inl hdo.2) o ho)
  · exact hn

/-- Data inside one part. -/
theorem receive_kept (b s : Int) (hk : t.Kept tt)
    (hw : ∃ i : Nat, i * pieceLength ≤ b ∧ b + s ≤ min (i * pieceLength + pieceLength) tt) :
    (t.receive b s).Kept tt := by
  rw [receive]
  split
  · exact hk
  rename_i ha
  simp only [not_or, not_not, not_le, not_lt] at ha
  obtain ⟨hph, hpo, hb, hlt⟩ := ha
  obtain ⟨i, hlo, hh⟩ := hw
  have hsi := hk.shaped.size_eq
  rw [hk.size_eq] at hlt ⊢
  obtain ⟨ho, hn⟩ := Parts.add_within t.parts hlo hlt (by rw [hsi]; omega)
  have hq : ∀ o, t.Watched o → Watched { t.queue (.write b (min (b + s) tt)) with
        parts := (t.parts.add b (min (b + s) tt)).2
        pendingWrites := t.pendingWrites + 1 } o :=
    fun o h => (queue_carries t (.write _ _) (by simp)).watched h
  have hc := Parts.add_count t.parts b (min (b + s) tt)
  have hs := hk.shaped.of_eq (Parts.add_size t.parts b (min (b + s) tt)) hc
  generalize t.parts.add b _ = answer at ho hn hq hc hs ⊢
  obtain ⟨f, parts⟩ := answer
  cases f with
  | some g =>
    have hl := verifyFilled_looks
      { t.queue (.write b (min (b + s) tt)) with
        parts
        pendingWrites := t.pendingWrites + 1 } g
    apply Kept.of_downloading
    · rw [hl.link]
      exact hk.size_eq
    · rw [hl.parts]
      exact hs
    · exact hl.phase.trans hph
    · intro o hot hp
      rw [hl.parts] at hot hp
      by_cases he : o = i
      · subst he
        cases hn hp
        exact verifyFilled_watched _ _
      · exact hl.watched o (hq o (hk.downloading hph o (hc ▸ hot) (ho o he hp)))
  | none =>
    refine .of_downloading hk.size_eq hs hph fun o hot hp => ?_
    by_cases he : o = i
    · subst he
      exact absurd (hn hp) (by simp)
    · exact hq o (hk.downloading hph o (hc ▸ hot) (ho o he hp))

theorem stop_kept (hk : t.Kept tt) : t.stop.Kept tt := by
  rw [stop]
  split
  · exact hk
  · exact finish_kept _ _ hk.size_eq hk.shaped

end

variable [DecidableEq D]

section

variable (t : Ed2kTask D)

theorem keepLocal_settles : Settles t.parts t.keepLocal.parts := by
  apply Settles.foldl
  intro ps i
  split
  · exact .verify ps i
  · exact .refl ps

theorem acceptHashSet_accepts (hashes : List D) (b : Bool) :
    Accepts t (t.acceptHashSet hashes b).2 := by
  rw [acceptHashSet]
  split
  · exact ⟨.refl _, rfl, .inl rfl, fun _ h => h⟩
  split
  · exact ⟨.refl _, rfl, .inl rfl, fun _ h => h⟩
  obtain ⟨hl, hw⟩ := foldl_verifyFilled t.waitingForHashSet
    { t with
      pieceHashes := hashes
      link := { t.link with pieceHashes := hashes }
      waitingForHashSet := [] }
  dsimp only
  generalize t.waitingForHashSet.foldl verifyFilled _ = next at hl hw ⊢
  have hk : ∀ i, t.Watched i → next.Watched i := by
    rintro i (hj | ⟨hwa, _⟩)
    · exact hl.watched i (.inl hj)
    · exact hw i hwa
  have hlo := keepLocal_settles { next with unchecked := false }
  replace hlo : Settles t.parts { next with unchecked := false }.keepLocal.parts := by
    rw [← hl.parts]
    exact hlo
  have hsi : next.link.size = t.link.size := by
    rw [hl.link]
  split
  · split
    · rename_i hdo
      have hs := downloaded_carries { next with unchecked := false }.keepLocal b
      refine ⟨?_, hs.size.trans hsi, .inr ⟨?_, downloaded_phase _ _⟩,
        fun i h => hs.watched (hk i h)⟩
      · rw [hs.parts]
        exact hlo
      · exact hl.phase.symm.trans hdo.2
    · exact ⟨hlo, hsi, .inl hl.phase, hk⟩
  · refine ⟨?_, hsi, .inl hl.phase, hk⟩
    rw [hl.parts]
    exact .refl _

theorem Watched.erase {t : Ed2kTask D} {i : Nat} {job : Job D} (hw : t.Watched i)
    (ho : ∀ e, job ≠ .hash i (.verify e)) : Watched { t with jobs := t.jobs.erase job } i := by
  rcases hw with ⟨e, hj⟩ | hwa
  · exact .inl ⟨e, (List.mem_erase_of_ne (ho e).symm).mpr hj⟩
  · exact .inr hwa

/-- A job other than the hash of a filled part has called back. -/
theorem Kept.erase {t : Ed2kTask D} (hk : t.Kept tt) (job : Job D)
    (ho : ∀ i e, job ≠ .hash i (.verify e)) : Kept { t with jobs := t.jobs.erase job } tt :=
  hk.update ⟨rfl, rfl⟩ rfl rfl List.mem_of_mem_erase rfl (fun _ _ h => h)
    (fun _ i _ _ hw => hw.erase (ho i))

theorem allCollected_kept (b : Bool) (hk : t.Kept tt) (hph : t.phase = .checking) :
    (t.allCollected b).Kept tt := by
  have hn := hk.checking (.inl hph)
  have ha := acceptHashSet_accepts t
    (if (t.localHashes.filterMap id).length < hashSetPartCount t.link.size
      then t.localHashes.filterMap id ++ [t.hashing.nothing]
      else t.localHashes.filterMap id) b
  rw [allCollected]
  generalize t.acceptHashSet _ b = an at ha ⊢
  obtain ⟨a, next⟩ := an
  have hsi := ha.size.trans hk.size_eq
  have hs := hk.shaped.of_eq ha.settles.size ha.settles.count
  have hn' : ∀ i < next.parts.count, ¬ next.parts.Pending i := by
    intro i hi hp
    rw [ha.settles.count] at hi
    exact hn i hi (ha.settles.pending hk.shaped i hi hp)
  cases a with
  | true =>
    have hal := Settles.foldl Settles.verify (List.range next.parts.count)
      next.parts
    apply run_kept
    · exact hsi
    · exact hs.of_eq hal.size hal.count
    · intro i hi hp
      rw [show _ = next.parts.count from hal.count] at hi
      exact absurd (hal.pending hs i hi hp) (hn' i hi)
  | false =>
    apply run_kept
    · exact hsi
    · exact hs
    · intro i hi hp
      exact absurd hp (hn' i hi)

theorem collected_kept (i : Nat) (d : D) (b : Bool) (hk : t.Kept tt) :
    (t.collected i d b).Kept tt := by
  have hl : Kept { t with localHashes := t.localHashes.set i (some d) } tt := { hk with }
  rw [collected]
  split
  · rename_i hdo
    exact allCollected_kept _ b hl hdo.2
  · exact hl

/-- The hash of a filled part: it is verified or given up. -/
theorem partVerified_kept (i : Nat) (use : HashUse D) (p : Int) (ok b : Bool) (hk : t.Kept tt) :
    ({ t with
        jobs := t.jobs.erase (.hash i use)
        pendingHashes := p }.partVerified i ok b).Kept tt := by
  have hu : ∀ {parts : Parts} {c : Nat},
      parts.size = t.parts.size → parts.count = t.parts.count →
      (∀ o < t.parts.count, parts.Pending o → t.parts.Pending o ∧
          (t.phase = .downloading → i ≠ o)) →
      Kept { t with
        jobs := t.jobs.erase (.hash i use)
        pendingHashes := p
        parts
        corruptParts := c } tt := by
    intro parts c hs hc hp
    refine hk.update ⟨hs, hc⟩ rfl rfl List.mem_of_mem_erase rfl (fun o ho hop => (hp o ho hop).1) ?_
    intro hph o ho hop hw
    apply hw.erase
    intro e he
    exact (hp o ho hop).2 hph (Job.hash.inj he).1
  rw [partVerified]
  split
  · rename_i hsk
    apply hu rfl rfl
    intro o ho hp
    refine ⟨hp, ?_⟩
    rintro hph rfl
    rcases hsk with hn | hv
    · exact hn hph
    · exact absurd (hp.2.symm.trans hv) (by decide)
  · rename_i hop
    obtain ⟨_, hv⟩ := not_or.mp hop
    rw [Bool.not_eq_true] at hv
    split
    · apply hu (Parts.reject_size _ _) (Parts.reject_count _ _)
      intro o ho hp
      obtain ⟨hp, hn⟩ := hp.of_reject hk.shaped hv ho
      exact ⟨hp, fun _ => hn.symm⟩
    · have hnex : Kept { t with
          jobs := t.jobs.erase (.hash i use)
          pendingHashes := p
          parts := t.parts.verify i } tt := by
        apply hu (Parts.verify_size _ _) (Parts.verify_count _ _)
        intro o ho hp
        obtain ⟨hp, hn⟩ := hp.of_verify ho
        exact ⟨hp, fun _ => hn⟩
      dsimp only
      split
      · exact (downloaded_carries _ b).kept hnex
      · exact hnex

theorem hashDone_kept (i : Nat) (use : HashUse D) (d : Except DiskError D) (b : Bool)
    (hk : t.Kept tt) :
    ({ t with jobs := t.jobs.erase (.hash i use) }.hashDone i use d b).Kept tt := by
  rw [hashDone.eq_def]
  dsimp only
  split
  · rename_i hp
    exact (quiesce_carries _).kept (.left hk.size_eq hk.shaped (.inr (.inl hp)))
  · cases d with
    | error error => exact finish_kept _ _ hk.size_eq hk.shaped
    | ok d =>
      cases use with
      | collect =>
        apply collected_kept
        exact { hk.erase (.hash i .collect) (by simp) with }
      | check e =>
        apply compared_kept
        exact { hk.erase (.hash i (.check e)) (by simp) with }
      | verify e =>
        exact partVerified_kept t i (.verify e) _ _ _ hk

theorem loadRecord_fields (r : DownloadRecord D) :
    (t.loadRecord r).parts = (storedProgress t.parts r).2 ∧
      (t.loadRecord r).waitingForHashSet = (storedProgress t.parts r).1 ∧
      (t.loadRecord r).link.size = t.link.size ∧ (t.loadRecord r).phase = t.phase ∧
      (t.loadRecord r).jobs = t.jobs := by
  rw [loadRecord]
  cases r.pieceHashes with
  | none => exact ⟨rfl, rfl, rfl, rfl, rfl⟩
  | some s =>
    dsimp only
    split <;> exact ⟨rfl, rfl, rfl, rfl, rfl⟩

/-- `open` on new parts, with a legible record. -/
theorem open_kept (f : OpenFacts D) (hs : t.link.size = tt) (hj : t.jobs = [])
    (hl : ∀ r, f.record = some r → Legible tt r) : (t.open_ f).Kept tt := by
  subst hs
  have hn : ∀ {next : Ed2kTask D}, next.link.size = t.link.size →
      next.parts = Parts.ofSize t.link.size →
      (next.phase = .opening ∨ next.phase = .idle) → next.Kept t.link.size := by
    intro next hs hpa hp
    have hno : ∀ i < next.parts.count, ¬ next.parts.Pending i := by
      rw [hpa]
      exact fun i hi => (ofSize_clean _).not_pending (Parts.ofSize_shaped t.link.size) hi
    constructor
    · exact hs
    · rw [hpa]
      exact Parts.ofSize_shaped t.link.size
    · exact fun _ => hno
    · exact fun _ i hi hpe =>
        absurd hpe (hno i hi)
    · intro h
      rcases hp with hp | hp <;> simp [hp] at h
  have hlo : ∀ {next : Ed2kTask D} {r : DownloadRecord D},
      f.record = some r → next.link.size = t.link.size →
      next.parts = Parts.ofSize t.link.size → next.phase = .opening →
      next.jobs = [] →
      Kept { (next.loadRecord r).queue (.open false) with opening := true } t.link.size := by
    intro next r hr hs hpa hp hj
    obtain ⟨hp', hw, hs', hph', hj'⟩ := loadRecord_fields next r
    obtain ⟨hsh, hf⟩ := storedProgress_spec t.link.size r (hl r hr)
    rw [hpa] at hp' hw
    rw [← hp'] at hsh hf
    rw [← hw] at hf
    have hp'' := hph'.trans hp
    constructor
    · exact hs'.trans hs
    · exact hsh
    · rintro (h | ⟨_, ho⟩)
      · exact absurd (hp''.symm.trans h) (by decide)
      · simp [queue, hj', hj] at ho
    · exact fun _ => hf
    · intro h
      exact absurd (hp''.symm.trans h) (by decide)
  rw [open_]
  split
  · rename_i r hr
    exact hlo (Option.filter_eq_some_iff.mp hr).1 rfl rfl rfl hj
  · split_ifs
    · split
      · exact hn rfl rfl (.inr rfl)
      · exact hn rfl rfl (.inl rfl)
    · exact hn rfl rfl (.inl rfl)

/-- The condition on a step of the task: data lies inside one part, and a
record is legible. -/
def Fits (total : Int) : Input D → Prop
  | .receive begin size => ∃ index : Nat, index * pieceLength ≤ begin ∧
      begin + size ≤ min (index * pieceLength + pieceLength) total
  | .start _ facts => ∀ record, facts.record = some record → Legible total record
  | _ => True

theorem start_kept (d : Bool) (f : OpenFacts D) (hk : t.Kept tt) (hf : t.Followed)
    (hl : ∀ r, f.record = some r → Legible tt r) : (t.start d f).Kept tt := by
  rw [start.eq_def]
  split
  · exact hk
  · rename_i hp
    rw [not_not] at hp
    split
    · exact .left hk.size_eq hk.shaped (.inr (.inr hp))
    · exact open_kept _ f hk.size_eq (hf.idle hp) hl

theorem jobDone_kept (job : Job D) (r : JobResult D) (hk : t.Kept tt) (hm : job ∈ t.jobs) :
    ({ t with jobs := t.jobs.erase job }.jobDone r job).Kept tt := by
  have he := hk.erase job
  cases job with
  | «open» check =>
    apply openDone_kept _ _ _ _ (he (by simp))
    rintro hp rfl
    exact hk.checking (.inr ⟨hp, hm⟩)
  | write b s =>
    have hn : Kept { t with
        jobs := t.jobs.erase (.write b s)
        pendingWrites := t.pendingWrites - 1 } tt := { he (by simp) with }
    rw [jobDone, writeDone.eq_def]
    dsimp only
    split
    · split
      · exact (quiesce_carries _).kept hn
      · exact finish_kept _ _ hn.size_eq hn.shaped
    · exact (quiesce_carries _).kept hn
  | hash i use =>
    exact hashDone_kept t i use r.digest r.enough hk
  | sync =>
    have hn : Kept { t with
        jobs := t.jobs.erase .sync
        pendingWrites := t.pendingWrites - 1 } tt :=
      { he (by simp) with }
    exact (quiesce_carries _).kept hn
  | close =>
    rw [jobDone, closeDone]
    split
    · exact .left hk.size_eq hk.shaped (.inr (.inr rfl))
    · split <;>
        exact .left hk.size_eq hk.shaped (.inr (.inr rfl))

theorem step_kept (i : Input D) (hk : t.Kept tt) (hf : t.Followed) (hfi : Fits tt i) :
    (t.step i).Kept tt := by
  cases i with
  | start d f =>
    exact start_kept t d f hk hf hfi
  | stop => exact stop_kept t hk
  | receive be s => exact receive_kept t be s hk hfi
  | hashSet hashes b =>
    rw [step]
    split
    · rename_i hp
      exact (acceptHashSet_accepts t hashes b).kept (.inr hp) hk
    · exact hk
  | tick b => exact (evaluateSharing_carries t b).kept hk
  | jobDone job r =>
    rw [step]
    split
    · exact jobDone_kept t job r hk ‹_›
    · exact hk

end

theorem create_kept (hashing : Hashing D) (l : Ed2kLink D) : (create hashing l).Kept l.size := by
  rw [create]
  split <;> exact Kept.left rfl (Parts.ofSize_shaped l.size) (.inr (.inr rfl))

end Ed2kTask

namespace Ed2kDownload

open Ed2kTask Runs

universe u v w

variable {D : Type u} {B : Type v} {O : Type w}

/-- The condition on a step: the download does not start from a row in which
two neighbouring parts are both there and not verified. -/
def StartsApart (download : Ed2kDownload D B O) : Event D B O → Prop
  | .start _ _ => ∀ row ∈ download.stored, Ed2kStore.Apart row.pieces
  | _ => True

instance (download : Ed2kDownload D B O) :
    ∀ event : Event D B O, Decidable (download.StartsApart event) := fun event => by
  unfold StartsApart
  split <;> infer_instance

/-- The claims and the row fit the file. -/
structure Backed (total : Int) (download : Ed2kDownload D B O) : Prop where
  seated : Seated total download.swarm.claims
  stored : ∀ row ∈ download.stored, row.size = total ∧ Ed2kStore.Ordered total row.pieces

/-- The bookkeeping of the whole download. -/
structure Good (total : Int) (download : Ed2kDownload D B O) : Prop
    extends Backed total download where
  kept : download.task.Kept total
  followed : download.task.Followed

variable {tt : Int} {d : Ed2kDownload D B O}

theorem Backed.become (hb : Backed tt d) {t : Ed2kTask D} (hk : t.Kept tt) (hf : t.Followed) :
    Good tt (d.become t) := by
  refine ⟨⟨?_, hb.stored⟩, hk, hf⟩
  simp only [Ed2kDownload.become]
  split
  · exact hb.seated
  · exact fun c hc => absurd hc List.not_mem_nil

theorem Good.save (hg : Good tt d) (m : Int) (p : Bool) : Good tt (d.save m p) := by
  refine ⟨⟨hg.seated, ?_⟩, hg.kept, hg.followed⟩
  rintro row ⟨rfl⟩
  rw [hg.kept.size_eq]
  exact ⟨rfl, Ed2kStore.saveDownload_ordered tt _⟩

theorem Backed.becomeSaved (hb : Backed tt d) {t : Ed2kTask D} (hk : t.Kept tt) (hf : t.Followed)
    (m : Int) (p : Bool) : Good tt (d.becomeSaved t m p) := by
  rw [Ed2kDownload.becomeSaved]
  split
  · exact (hb.become hk hf).save m p
  · exact hb.become hk hf

namespace Good

/-- A row without neighbours gives a legible record. -/
theorem legible (hg : Good tt d) (ha : ∀ row ∈ d.stored, Ed2kStore.Apart row.pieces)
    {r : DownloadRecord D} (hr : d.stored.map Ed2kStore.loadDownload = some r) : Legible tt r := by
  obtain ⟨row, hro, rfl⟩ := Option.map_eq_some_iff.mp hr
  obtain ⟨rfl, ho⟩ := hg.stored row hro
  constructor
  · exact Ed2kStore.loadDownload_separated ho
  · intro ra hra left right hlt hs hl hh
    exact Ed2kStore.loadDownload_single ho (ha row hro) hra hlt hs hl hh

theorem work (hg : Good tt d) (p : PartHash B D) (e : Option DiskError) (f : Option (Int → B)) :
    Good tt (d.work p e f) := by
  rw [Ed2kDownload.work]
  split
  · exact hg
  · split <;> exact { hg with }

variable [DecidableEq D]

theorem callBack (hg : Good tt d) (enough : Bool) (m : Int) (p : Bool) :
    Good tt (d.callBack enough m p) := by
  rw [Ed2kDownload.callBack]
  split
  · rename_i job re r ran hj hr
    have hm : job ∈ d.task.jobs := hj ▸ List.mem_cons_self
    have hs : d.task.step (.jobDone job { r with enough }) =
        { d.task with jobs := re }.jobDone { r with enough } job := by
      rw [Ed2kTask.step, if_pos hm, hj, List.erase_cons_head]
    have hk := step_kept d.task (.jobDone job { r with enough }) hg.kept hg.followed trivial
    have hf := step_followed d.task (.jobDone job { r with enough }) hg.followed
    rw [hs] at hk hf
    apply Backed.becomeSaved _ hk hf
    exact ⟨hg.seated, hg.stored⟩
  · exact hg

variable [DecidableEq O]

theorem receiveBlock (hg : Good tt d) (o : O) (b st : Int) (s : Nat) (da : Int → B)
    (ask : Parts.Ask) : Good tt (d.receiveBlock o b st s da ask) := by
  rw [Ed2kDownload.receiveBlock]
  split
  · exact hg
  split
  · exact { hg with seated := Swarm.stopDownloading_seated d.swarm o hg.seated }
  split
  · exact hg
  rename_i hsi hc
  rw [Bool.not_eq_false] at hc
  obtain ⟨i, hl, hh⟩ := Parts.claimed_within hg.seated hc
  have hk := receive_kept d.task b s hg.kept ⟨i, hl, by omega⟩
  have hf := step_followed d.task (.receive b s) hg.followed
  have hn := hg.toBacked.become hk hf
  refine ⟨⟨?_, hg.stored⟩, hk, hf⟩
  have hp := hk.shaped.size_eq
  have hs := hn.seated
  rw [← hp] at hs ⊢
  exact Swarm.noteReceived_seated _ _ o b st ask hs

end Good

variable [DecidableEq D] [DecidableEq O]

theorem step_good (ph : PartHash B D) (e : Event D B O) (hg : Good tt d) (ha : d.StartsApart e) :
    Good tt (d.step ph e) := by
  cases e with
  | start du fa =>
    apply hg.toBacked.become
    · exact step_kept d.task (.start du _) hg.kept hg.followed fun r hr => hg.legible ha hr
    · exact step_followed d.task (.start du _) hg.followed
  | stop =>
    exact hg.toBacked.become (stop_kept d.task hg.kept) (step_followed d.task .stop hg.followed)
  | accept o ps ask =>
    rw [step]
    split
    · refine { hg with seated := ?_ }
      have hs := hg.seated
      rw [← hg.kept.shaped.size_eq] at hs ⊢
      exact Swarm.accept_seated d.swarm d.task.parts o ps ask hs
    · exact hg
  | leave o =>
    exact { hg with seated := Swarm.stopDownloading_seated d.swarm o hg.seated }
  | block o be stop size data ask =>
    exact hg.receiveBlock o be stop size data ask
  | hashSet hashes b m p =>
    exact hg.toBacked.becomeSaved (step_kept d.task (.hashSet hashes b) hg.kept
        hg.followed trivial) (step_followed d.task (.hashSet hashes b) hg.followed) m p
  | tick b =>
    exact hg.toBacked.become (step_kept d.task (.tick b) hg.kept hg.followed trivial)
      (step_followed d.task (.tick b) hg.followed)
  | checkpoint m p =>
    rw [step, checkpoint]
    split
    · exact hg.save m p
    · exact hg
  | work er f => exact hg.work ph er f
  | callBack b m p =>
    exact hg.callBack b m p

/-- In every run that never starts from a row with two neighbouring parts that
are there and not verified, every filled part of a download that is not
verified is hashed, or waits for the hash set. -/
theorem run_filled_parts_watched (partHash : PartHash B D) (hashing : Hashing D)
    (link : Ed2kLink D) (file : Int → B) (events : List (Event D B O))
    (hmeets : Meets (step partHash) StartsApart (create hashing link file) events) :
    let task := (Runs.run (step partHash) (create hashing link file) events).task
    task.phase = .downloading → ∀ index < task.parts.count,
      task.parts.filled index = true → task.parts.isVerified index = false →
      (∃ expected, .hash index (.verify expected) ∈ task.jobs) ∨
        (index ∈ task.waitingForHashSet ∧ task.needsHashSet = true) := by
  intro task hphase index hindex hfilled hopen
  have hcreate : Good link.size (create hashing link file : Ed2kDownload D B O) :=
    ⟨⟨fun claim hclaim => absurd hclaim List.not_mem_nil,
      fun row hrow => absurd hrow (by simp [create])⟩,
      create_kept hashing link, create_followed hashing link⟩
  have hgood := run_invariant (fun _ event hgood hapart => step_good partHash event hgood hapart)
    hcreate hmeets
  exact hgood.kept.downloading hphase index hindex ⟨hfilled, hopen⟩

/-- A part hash and the other digests of the runs below. -/
def plainHash : PartHash Unit Nat := fun _ => 0

def plainHashing : Hashing Nat := ⟨fun _ => 7, 0, fun _ => ""⟩

/-- A file that is not there yet. -/
def newFile : OpenFacts Nat :=
  ⟨none, "f", fun _ => false, fun _ => 0, fun _ => 0, false, false, none⟩

/-- The strand runs the next `count` jobs, and each calls back. -/
def drain (count : Nat) (modified : Int) : List (Event Nat Unit Unit) :=
  (List.range count).flatMap fun _ =>
    [.work none none, .callBack false modified true]

/-- A client sends `[begin, stop)`. -/
def send (begin stop : Int) : Event Nat Unit Unit :=
  .block () begin stop (stop - begin).toNat (fun _ => ()) {}

/-- A file of five bytes is complete and its hash under way. -/
theorem run_filled_parts_watched_five :
    let events := [.start false newFile] ++ drain 1 0 ++ [.accept () [] {}, send 0 5]
    let task := (run (step plainHash) (create plainHashing ⟨7, 5, []⟩ fun _ => ()) events).task
    task.parts.filled 0 = true ∧ task.waitingForHashSet = [] ∧
      ∃ expected, .hash 0 (.verify expected) ∈ task.jobs := by
  intro events task
  have hwaits : task.waitingForHashSet = [] := by decide +kernel
  have hfilled : task.parts.filled 0 = true := by decide +kernel
  refine ⟨hfilled, hwaits, ?_⟩
  rcases run_filled_parts_watched plainHash plainHashing ⟨7, 5, []⟩
    (fun _ => ()) events (by decide +kernel) (by decide +kernel) 0
    (by decide +kernel) hfilled (by decide +kernel) with hjob | ⟨hmem, _⟩
  · exact hjob
  · exact absurd hmem (by rw [hwaits]; exact List.not_mem_nil)

/-- Both parts of a file arrive, and the download is paused before their
hashes call back; nothing of the file changes.  Resumed, the second part is
there, not verified, not hashed and not waiting. -/
theorem resumed_second_part_is_forgotten :
    let blocks := (List.range 53).map fun (block : Nat) =>
      send (block * blockLength) (min ((block + 1) * blockLength) pieceLength)
    let unchanged := { newFile with
      fileExists := fun _ => true
      fileSize := fun _ => pieceLength + 1
      modificationTime := fun _ => 5 }
    let events := [.start false newFile] ++ drain 1 0 ++ [.accept () [] {}] ++
      blocks ++ [send pieceLength (pieceLength + 1), .stop] ++ drain 57 5 ++
      [.start false unchanged] ++ drain 1 5
    let task := (run (step plainHash)
      (create plainHashing ⟨7, pieceLength + 1, [1, 2]⟩ fun _ => ()) events).task
    task.phase = .downloading ∧ 1 < task.parts.count ∧
      task.parts.filled 1 = true ∧ task.parts.isVerified 1 = false ∧
      task.jobs = [.hash 0 (.verify 1)] ∧ task.waitingForHashSet = [] := by
  decide +kernel

end Ed2kDownload

end Aria2Next
