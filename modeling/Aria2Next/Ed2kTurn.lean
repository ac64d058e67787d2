/-
What one turn of an ED2K task may do to its parts and its jobs: a callback
queues no write, hashes a part only against the digest it must have, and
verifies only parts that were proven.
-/
import Aria2Next.Ed2kFilled

namespace Aria2Next.Ed2kTask

open List

universe u

variable {D : Type u}

/-- A job a turn may queue: never a write, and a hash only for its check. -/
def Job.Plain (task : Ed2kTask D) : Job D → Prop
  | .open _ | .write _ _ => False
  | .hash index use => task.needsHashSet = false ∧ (use = .check (task.expected index) ∨
        use = .verify (task.expected index))
  | .sync | .close => True

/-- The digests of an existing file are being collected, or wait for the hash
set. -/
def Local (task : Ed2kTask D) : Prop := task.needsHashSet = true ∧
    (task.unchecked = true ∨ task.phase = .checking)

/-- A turn that verifies only parts that are `proven`. -/
structure Turn (proven : Nat → Prop) (task next : Ed2kTask D) : Prop where
  size : next.link.size = task.link.size
  hash : next.link.hash = task.link.hash
  partsSize : next.parts.size = task.parts.size
  count : next.parts.count = task.parts.count
  jobs : ∃ queued, next.jobs = task.jobs ++ queued ∧ ∀ job ∈ queued, job.Plain next
  grows : ∀ index < task.parts.count, task.parts.isVerified index = true →
    next.parts.isVerified index = true
  verified : ∀ index < task.parts.count, next.parts.isVerified index = true →
    task.parts.isVerified index = true ∨ proven index
  hashes : next.pieceHashes = task.pieceHashes ∨
    (task.needsHashSet = true ∧ next.needsHashSet = false)
  /-- Digests that wait do so from before, and bytes only arrive. -/
  carried : next.Local → task.Local ∧ next.localHashes = task.localHashes ∧
    ∀ offset ∈ task.parts.received, offset ∈ next.parts.received

/-- A check goes on as it was. -/
def GoesOn (task next : Ed2kTask D) : Prop :=
  next.phase = .checking → task.phase = .checking ∧
    next.pieceHashes = task.pieceHashes ∧
    next.localHashes = task.localHashes ∧
    (next.needsHashSet = true → next.parts = task.parts)

variable {t next n : Ed2kTask D} {proven p : Nat → Prop}

theorem expected_eq (hha : n.link.hash = t.link.hash) (hh : n.pieceHashes = t.pieceHashes)
    (i : Nat) : n.expected i = t.expected i := by
  rw [expected, hha, hh, expected]

theorem Job.Plain.of_eq {job : Job D} (hp : job.Plain t)
    (hn : t.needsHashSet = false → n.needsHashSet = false)
    (he : t.needsHashSet = false → ∀ i, n.expected i = t.expected i) : job.Plain n := by
  cases job with
  | hash i use =>
    obtain ⟨hk, hu⟩ := hp
    refine ⟨hn hk, ?_⟩
    rw [he hk]
    exact hu
  | _ => exact hp

namespace Turn

variable {p : Nat → Prop} {t n l : Ed2kTask D}

theorem needs (ht : Turn p t n) (hk : t.needsHashSet = false) : n.needsHashSet = false := by
  rcases ht.hashes with he | ⟨hn, _⟩
  · rw [needsHashSet_eq ht.size he]
    exact hk
  · exact absurd (hn.symm.trans hk) (by decide)

theorem pieceHashes_eq (ht : Turn p t n) (hk : t.needsHashSet = false) :
    n.pieceHashes = t.pieceHashes := by
  rcases ht.hashes with he | ⟨hn, _⟩
  · exact he
  · exact absurd (hn.symm.trans hk) (by decide)

theorem expected (ht : Turn p t n) (hk : t.needsHashSet = false) (i : Nat) :
    n.expected i = t.expected i := expected_eq ht.hash (ht.pieceHashes_eq hk) i

theorem trans (hf : Turn p t n) (hl : Turn p n l) : Turn p t l where
  size := hl.size.trans hf.size
  hash := hl.hash.trans hf.hash
  partsSize := hl.partsSize.trans hf.partsSize
  count := hl.count.trans hf.count
  jobs := by
    obtain ⟨qu, hjo, hp⟩ := hf.jobs
    obtain ⟨q, hj', hp'⟩ := hl.jobs
    refine ⟨qu ++ q, ?_, ?_⟩
    · rw [hj', hjo, append_assoc]
    · intro job hj
      rcases mem_append.mp hj with hj | hj
      · exact (hp job hj).of_eq hl.needs hl.expected
      · exact hp' job hj
  grows i hi hv := hl.grows i (hf.count ▸ hi) (hf.grows i hi hv)
  verified i hi hv := by
    rcases hl.verified i (hf.count ▸ hi) hv with h | h
    · exact hf.verified i hi h
    · exact .inr h
  hashes := by
    rcases hf.hashes with he | ⟨hn, hk⟩
    · rcases hl.hashes with he' | ⟨hn', hk'⟩
      · exact .inl (he'.trans he)
      · rw [needsHashSet_eq hf.size he] at hn'
        exact .inr ⟨hn', hk'⟩
    · exact .inr ⟨hn, hl.needs hk⟩
  carried hlo := by
    obtain ⟨hl', hh, hr⟩ := hl.carried hlo
    obtain ⟨hl'', hh', hr'⟩ := hf.carried hl'
    exact ⟨hl'', hh.trans hh', fun x h => hr x (hr' x h)⟩

theorem mono {o : Nat → Prop} (ht : Turn p t n) (him : ∀ i, p i → o i) :
    Turn o t n := { ht with verified := fun i hi hv =>
      (ht.verified i hi hv).imp_right (him i) }

end Turn

/-- A turn that only queues plain jobs and may leave the phase. -/
theorem Turn.of_frame (hp : n.parts = t.parts) (hl : n.link = t.link)
    (hh : n.pieceHashes = t.pieceHashes) (hu : n.unchecked = t.unchecked)
    (hlo : n.localHashes = t.localHashes) (hph : n.phase = t.phase ∨ n.phase ≠ .checking)
    (hj : ∃ q, n.jobs = t.jobs ++ q ∧ ∀ job ∈ q, job.Plain n) : Turn p t n := by
  have hn : n.needsHashSet = t.needsHashSet := by
    rw [needsHashSet, hl, hh, needsHashSet]
  have hc : n.phase = .checking → t.phase = .checking := by
    intro h
    rcases hph with he | hne
    · exact he.symm.trans h
    · exact absurd h hne
  constructor
  · rw [hl]
  · rw [hl]
  · rw [hp]
  · rw [hp]
  · exact hj
  · rw [hp]
    exact fun _ _ h => h
  · rw [hp]
    exact fun _ _ h => .inl h
  · exact .inl hh
  · rintro ⟨hn', h⟩
    refine ⟨⟨hn.symm.trans hn', ?_⟩, hlo, fun x hm => hp ▸ hm⟩
    rcases h with h | h
    · exact .inl (hu.symm.trans h)
    · exact .inr (hc h)

/-- A turn that queues nothing. -/
theorem Turn.of_still (hp : n.parts = t.parts) (hli : n.link = t.link)
    (hh : n.pieceHashes = t.pieceHashes) (hu : n.unchecked = t.unchecked)
    (hl : n.localHashes = t.localHashes) (hph : n.phase = t.phase ∨ n.phase ≠ .checking)
    (hj : n.jobs = t.jobs) : Turn p t n := .of_frame hp hli hh hu hl hph
    ⟨[], hj.trans (append_nil _).symm, fun _ h => absurd h not_mem_nil⟩

theorem Turn.refl (t : Ed2kTask D) : Turn p t t := Turn.of_still rfl rfl rfl rfl rfl (.inl rfl) rfl

/-- Parts change: only proven parts become verified, and bytes only arrive. -/
structure Proves (proven : Nat → Prop) (parts next : Parts) : Prop where
  size : next.size = parts.size
  count : next.count = parts.count
  grows : ∀ index < parts.count, parts.isVerified index = true →
    next.isVerified index = true
  verified : ∀ index < parts.count, next.isVerified index = true →
    parts.isVerified index = true ∨ proven index
  received : ∀ offset ∈ parts.received, offset ∈ next.received

namespace Proves

variable {p : Nat → Prop}

theorem refl (ps : Parts) : Proves p ps ps :=
  ⟨rfl, rfl, fun _ _ h => h, fun _ _ h => .inl h, fun _ h => h⟩

theorem trans {ps n l : Parts} (hf : Proves p ps n) (hl : Proves p n l) : Proves p ps l where
  size := hl.size.trans hf.size
  count := hl.count.trans hf.count
  grows i hi h := hl.grows i (hf.count ▸ hi) (hf.grows i hi h)
  verified i hi h := by
    rcases hl.verified i (hf.count ▸ hi) h with h | h
    · exact hf.verified i hi h
    · exact .inr h
  received offset h := hl.received offset (hf.received offset h)

theorem verify (ps : Parts) {i : Nat} (hp : p i) : Proves p ps (ps.verify i) where
  size := rfl
  count := Parts.verify_count ps i
  grows other ho h := by
    rw [Parts.verify_isVerified ho, h, Bool.or_true]
  verified other ho h := by
    rw [Parts.verify_isVerified ho, Bool.or_eq_true, beq_iff_eq] at h
    rcases h with rfl | h
    · exact .inr hp
    · exact .inl h
  received _ h := Parts.mem_verify.mpr (.inl h)

theorem foldl {f : Parts → Nat → Parts} (l : List Nat) (ps : Parts)
    (hs : ∀ n : Parts, Proves p ps n → ∀ i ∈ l, Proves p n (f n i)) :
    Proves p ps (l.foldl f ps) := by
  induction l generalizing ps with
  | nil => exact refl ps
  | cons head t ih =>
    have hh := hs ps (refl ps) head mem_cons_self
    apply hh.trans
    apply ih
    intro n hn i hi
    exact hs n (hh.trans hn) i (mem_cons_of_mem _ hi)

end Proves

/-- A turn that changes parts once the hash set is there. -/
theorem Turn.of_parts (hs : n.parts.size = t.parts.size) (hc : n.parts.count = t.parts.count)
    (hg : ∀ i < t.parts.count, t.parts.isVerified i = true → n.parts.isVerified i = true)
    (hv : ∀ i < t.parts.count, n.parts.isVerified i = true → t.parts.isVerified i = true ∨ p i)
    (hl : n.link = t.link) (hh : n.pieceHashes = t.pieceHashes) (hj : n.jobs = t.jobs)
    (hk : t.needsHashSet = false) : Turn p t n := by
  have hn : n.needsHashSet = false := by
    rw [needsHashSet, hl, hh]
    exact hk
  constructor
  · rw [hl]
  · rw [hl]
  · exact hs
  · exact hc
  · exact ⟨[], hj.trans (append_nil _).symm, fun _ h => absurd h not_mem_nil⟩
  · exact hg
  · exact hv
  · exact .inl hh
  · intro hlo
    exact absurd (hlo.1.symm.trans hn) (by decide)

theorem Proves.turn (hp : Proves p t.parts n.parts) (hl : n.link = t.link)
    (hh : n.pieceHashes = t.pieceHashes) (hj : n.jobs = t.jobs) (hk : t.needsHashSet = false) :
    Turn p t n := Turn.of_parts hp.size hp.count hp.grows hp.verified hl hh hj hk

theorem foldl_digestPart (use : Ed2kTask D → Nat → HashUse D)
    (hu : ∀ t i u, use (digestPart t i u) = use t) (l : List Nat) (t : Ed2kTask D) :
    l.foldl (fun t i => t.digestPart i (use t i)) t = { t with
        jobs := t.jobs ++ l.map fun i => .hash i (use t i)
        pendingHashes := t.pendingHashes + l.length } := by
  induction l generalizing t with
  | nil => simp
  | cons head ta ih =>
    rw [foldl_cons, ih, hu]
    simp only [digestPart, queue, append_assoc, singleton_append, map_cons, length_cons]
    congr 1
    omega

/-- A check of the whole file hashes every part. -/
theorem checkAll_eq (t : Ed2kTask D) : t.checkAll =
      { t with
        phase := .checking
        localHashes := if t.needsHashSet
          then List.replicate t.parts.count none else t.localHashes
        jobs := t.jobs ++ (List.range t.parts.count).map fun i =>
          .hash i (if t.needsHashSet then .collect
            else .check (t.expected i))
        pendingHashes := t.pendingHashes + t.parts.count } := by
  have hn : needsHashSet { t with phase := .checking } = t.needsHashSet := rfl
  rw [checkAll]
  rw [hn]
  split
  · rw [foldl_digestPart (fun _ _ => .collect) (fun _ _ _ => rfl), length_range]
  · rw [foldl_digestPart (fun t i => .check (t.expected i)) (fun _ _ _ => rfl), length_range]
    rfl

section Functions

variable {p : Nat → Prop}

variable (t : Ed2kTask D)

theorem quiesce_turn : Turn p t t.quiesce := by
  rw [quiesce]
  split
  · exact .refl t
  · refine .of_frame rfl rfl rfl rfl rfl (.inl rfl) ⟨[.close], rfl, fun job hj => ?_⟩
    rw [mem_singleton.mp hj]
    trivial

theorem closing_turn (outcome : Outcome) :
    Turn p t { t with outcome, phase := .closing, ending := true } :=
  Turn.of_still rfl rfl rfl rfl rfl (.inr (by simp)) rfl

theorem finish_turn (o : Outcome) : Turn p t (t.finish o) := by
  rw [finish.eq_def]
  split
  · exact .refl t
  split
  · cases o with
    | fail c m =>
      exact .of_still rfl rfl rfl rfl rfl (.inl rfl) rfl
    | _ => exact .refl t
  · split
    · exact closing_turn t o
    · exact (closing_turn t o).trans (quiesce_turn _)

theorem evaluateSharing_turn (b : Bool) : Turn p t (t.evaluateSharing b) := by
  rw [evaluateSharing]
  split
  · exact finish_turn t .complete
  · exact .refl t

theorem downloaded_turn (b : Bool) : Turn p t (t.downloaded b) := by
  refine .trans ?_ (evaluateSharing_turn _ b)
  refine .of_frame rfl rfl rfl rfl rfl (.inr (by simp)) ⟨[.sync], rfl, fun job hj => ?_⟩
  rw [mem_singleton.mp hj]
  trivial

theorem run_turn (b : Bool) : Turn p t (t.run b) := by
  rw [run]
  split
  · refine .trans ?_ (downloaded_turn _ b)
    exact .of_still rfl rfl rfl rfl rfl (.inl rfl) rfl
  · exact .of_still rfl rfl rfl rfl rfl (.inr (by simp)) rfl

theorem verifyFilled_turn (i : Nat) : Turn p t (t.verifyFilled i) := by
  rw [verifyFilled]
  split
  · split
    · exact .refl t
    · exact .of_still rfl rfl rfl rfl rfl (.inl rfl) rfl
  · rename_i hk
    rw [Bool.not_eq_true] at hk
    refine .of_frame rfl rfl rfl rfl rfl (.inl rfl)
      ⟨[.hash i (.verify (t.expected i))], rfl, fun job hj => ?_⟩
    rw [mem_singleton.mp hj]
    exact ⟨hk, .inr rfl⟩

theorem foldl_verifyFilled_turn (l : List Nat) (t : Ed2kTask D) :
    Turn p t (l.foldl verifyFilled t) := by
  induction l generalizing t with
  | nil => exact .refl t
  | cons head ta ih =>
    exact (verifyFilled_turn t head).trans (ih (t.verifyFilled head))

theorem partVerified_turn (i : Nat) (ok b : Bool) (hk : t.needsHashSet = false) :
    Turn (fun o => o = i ∧ ok = true) t (t.partVerified i ok b) := by
  rw [partVerified]
  split
  · exact .refl t
  rename_i ho
  obtain ⟨_, hv⟩ := not_or.mp ho
  rw [Bool.not_eq_true] at hv
  split
  · refine Turn.of_parts (Parts.reject_size _ _) (Parts.reject_count _ _) ?_ ?_
      rfl rfl rfl hk
    · intro o _ h
      rw [Parts.reject_isVerified hv]
      exact h
    · intro o _ h
      rw [Parts.reject_isVerified hv] at h
      exact .inl h
  · rename_i hok
    rw [Bool.not_eq_false] at hok
    have ht : Turn (fun o => o = i ∧ ok = true) t { t with parts := t.parts.verify i } :=
      (Proves.verify t.parts ⟨rfl, hok⟩).turn rfl rfl rfl hk
    dsimp only
    split
    · exact ht.trans (downloaded_turn _ b)
    · exact ht

theorem compared_turn (i : Nat) (ok b : Bool) (hk : t.needsHashSet = false) :
    Turn (fun o => o = i ∧ ok = true) t (t.compared i ok b) := by
  have ht : Turn (fun o => o = i ∧ ok = true) t
      (if ok then { t with parts := t.parts.verify i } else t) := by
    split
    · rename_i ho
      exact (Proves.verify t.parts ⟨rfl, ho⟩).turn rfl rfl rfl hk
    · exact .refl t
  rw [compared]
  generalize (if ok then { t with parts := t.parts.verify i }
    else t) = n at ht ⊢
  split
  · exact ht.trans (run_turn n b)
  · exact ht

end Functions

variable [DecidableEq D]

/-- The digest of a part of an existing file is what it must be, by the hash
set that came, and nobody wrote to the part since. -/
def KeptLocal (task next : Ed2kTask D) (index : Nat) : Prop :=
  next.needsHashSet = false ∧ task.localHashes.getD index none = some (next.expected index) ∧
    ∀ offset, task.parts.In index offset → offset ∉ task.parts.received

theorem keepLocal_proves (t : Ed2kTask D) (hk : t.needsHashSet = false) :
    Proves (KeptLocal t t) t.parts t.keepLocal.parts := by
  apply Proves.foldl
  intro n hn i _
  split
  · rename_i hke
    obtain ⟨_, hc, hl⟩ := hke
    apply Proves.verify
    refine ⟨hk, hl, fun x hi hm => ?_⟩
    have hp : n.part i = t.parts.part i := by
      rw [Parts.part, hn.size, Parts.part]
    rw [hp] at hc
    have hpo := RangeSet.covered_pos hi.1 hi.2 (hn.received x hm)
    omega
  · exact .refl n

theorem keepLocal_turn (t : Ed2kTask D) (hk : t.needsHashSet = false) :
    Turn (KeptLocal t t) t t.keepLocal := (keepLocal_proves t hk).turn rfl rfl rfl hk

/-- The hash set arrives: only parts of an existing file are verified. -/
theorem acceptHashSet_turn (t : Ed2kTask D) (hashes : List D) (b : Bool) :
    Turn (fun i => t.Local ∧ KeptLocal t (t.acceptHashSet hashes b).2 i) t
      (t.acceptHashSet hashes b).2 ∧
    (t.needsHashSet = true → (t.acceptHashSet hashes b).1 = true →
      (t.acceptHashSet hashes b).2.pieceHashes = hashes ∧
        (t.acceptHashSet hashes b).2.needsHashSet = false) := by
  rw [acceptHashSet]
  split
  · rename_i hk
    exact ⟨.refl t, fun hn => absurd (hn.symm.trans hk) (by decide)⟩
  rename_i hn
  rw [Bool.not_eq_false] at hn
  split
  · exact ⟨.refl t, fun _ h => absurd h (by simp)⟩
  rename_i hfi
  obtain ⟨hle, _⟩ := not_or.mp hfi
  rw [not_not] at hle
  have hk : needsHashSet { t with
      pieceHashes := hashes
      link := { t.link with pieceHashes := hashes }
      waitingForHashSet := [] } = false := by
    have hc : 0 < hashes.length := by
      rw [hle]
      simpa [needsHashSet] using (Bool.and_eq_true_iff.mp hn).1
    simp [needsHashSet, ne_nil_of_length_pos hc]
  have hse : ∀ p : Nat → Prop, Turn p t { t with
      pieceHashes := hashes
      link := { t.link with pieceHashes := hashes }
      waitingForHashSet := [] } := fun p =>
    ⟨rfl, rfl, rfl, rfl, ⟨[], (append_nil _).symm, fun _ h => absurd h not_mem_nil⟩, fun _ _ h => h,
      fun _ _ h => .inl h, .inr ⟨hn, hk⟩,
      fun hlo => absurd (hlo.1.symm.trans hk) (by decide)⟩
  have hf : ∀ p : Nat → Prop, Turn p _ _ := fun _ =>
    foldl_verifyFilled_turn t.waitingForHashSet
      { t with
        pieceHashes := hashes
        link := { t.link with pieceHashes := hashes }
        waitingForHashSet := [] }
  obtain ⟨hl, _⟩ := foldl_verifyFilled t.waitingForHashSet
    { t with
      pieceHashes := hashes
      link := { t.link with pieceHashes := hashes }
      waitingForHashSet := [] }
  dsimp only
  generalize t.waitingForHashSet.foldl verifyFilled _ = n at hf hl ⊢
  split
  · rename_i hu
    have hk' : needsHashSet { n with unchecked := false } = false := (hf fun _ => True).needs hk
    have hlo : t.Local := ⟨hn, .inl (hl.unchecked.symm.trans hu)⟩
    have hkep : ∀ l : Ed2kTask D, l.needsHashSet = false → (∀ i, l.expected i = n.expected i) →
        ∀ i, KeptLocal { n with unchecked := false } { n with unchecked := false } i →
        t.Local ∧ KeptLocal t l i := by
      rintro l hla he i ⟨_, hha, hr⟩
      refine ⟨hlo, hla, ?_, ?_⟩
      · rw [he, ← hl.localHashes]
        exact hha
      · rw [← hl.parts]
        exact hr
    have hst := fun p => (hse p).trans (hf p)
    have hsti : ∀ p, Turn p n { n with unchecked := false } :=
      fun p => Proves.turn (Proves.refl n.parts) rfl rfl rfl hk'
    have hke := keepLocal_turn { n with unchecked := false } hk'
    have hh : n.pieceHashes = hashes := hl.hashes
    split
    · have hs : ∀ p, Turn p _ _ := fun _ => downloaded_turn
        { n with unchecked := false }.keepLocal b
      have hk'' := hke.needs hk'
      refine ⟨?_, fun _ _ => ⟨?_, (hs fun _ => True).needs hk''⟩⟩
      · refine ((hst _).trans ((hsti _).trans (hke.mono ?_))).trans (hs _)
        apply hkep _ ((hs fun _ => True).needs hk'')
        intro i
        exact (hs fun _ => True).expected hk'' i
      · exact ((hs fun _ => True).pieceHashes_eq hk'').trans hh
    · exact ⟨(hst _).trans ((hsti _).trans (hke.mono (hkep _ (hke.needs hk') fun _ => rfl))),
        fun _ _ => ⟨hh, hke.needs hk'⟩⟩
  · exact ⟨(hse _).trans (hf _), fun _ _ => ⟨hl.hashes, (hf fun _ => True).needs hk⟩⟩

theorem acceptHashSet_rejects (t : Ed2kTask D) (hashes : List D) (b : Bool)
    (hr : (t.acceptHashSet hashes b).1 = false) : (t.acceptHashSet hashes b).2 = t := by
  rw [acceptHashSet] at hr ⊢
  split at hr
  · simp at hr
  split at hr
  · rename_i hk hb
    rw [if_neg hk, if_pos hb]
  · dsimp only at hr
    split at hr
    · split at hr <;> simp at hr
    · simp at hr

omit [DecidableEq D] in
/-- Digests that are all there keep their place. -/
theorem getD_filterMap_id {l : List (Option D)} (ha : ∀ e ∈ l, e ≠ none) {i : Nat} {d : D}
    (hg : l.getD i none = some d) (m : List D) (f : D) : (l.filterMap id ++ m).getD i f = d := by
  induction l generalizing i with
  | nil => simp at hg
  | cons head t ih =>
    obtain ⟨v, rfl⟩ := Option.ne_none_iff_exists'.mp (ha head mem_cons_self)
    rw [filterMap_cons_some (by rfl), cons_append]
    cases i with
    | zero => simpa using hg
    | succ i =>
      rw [getD_cons_succ] at hg ⊢
      exact ih (fun e h => ha e (mem_cons_of_mem _ h)) hg

/-- All digests of an existing file are there: when they prove the file hash,
every part is what it must be. -/
theorem allCollected_turn (t : Ed2kTask D) (b : Bool) (hn : t.needsHashSet = true)
    (hph : t.phase = .checking) (hle : t.localHashes.length = t.parts.count)
    (hal : ∀ e ∈ t.localHashes, e ≠ none) (hem : ∀ x, x ∉ t.parts.received) :
    Turn (KeptLocal t (t.allCollected b)) t (t.allCollected b) := by
  obtain ⟨ht, ha⟩ := acceptHashSet_turn t
    (if (t.localHashes.filterMap id).length < hashSetPartCount t.link.size
      then t.localHashes.filterMap id ++ [t.hashing.nothing]
      else t.localHashes.filterMap id) b
  have hr := acceptHashSet_rejects t
    (if (t.localHashes.filterMap id).length < hashSetPartCount t.link.size
      then t.localHashes.filterMap id ++ [t.hashing.nothing]
      else t.localHashes.filterMap id) b
  have hg : ∀ i < t.parts.count, ∀ d f : D, t.localHashes.getD i none = some d →
      (if (t.localHashes.filterMap id).length < hashSetPartCount t.link.size
        then t.localHashes.filterMap id ++ [t.hashing.nothing]
        else t.localHashes.filterMap id).getD i f = d := by
    intro i _ d f hdi
    split
    · exact getD_filterMap_id hal hdi [t.hashing.nothing] f
    · rw [← append_nil (t.localHashes.filterMap id)]
      exact getD_filterMap_id hal hdi [] f
  rw [allCollected]
  generalize (if (t.localHashes.filterMap id).length < hashSetPartCount t.link.size
    then t.localHashes.filterMap id ++ [t.hashing.nothing]
    else t.localHashes.filterMap id) = hashes
    at ht ha hr hg ⊢
  generalize t.acceptHashSet hashes b = answer at ht ha hr ⊢
  obtain ⟨a, n⟩ := answer
  cases a with
  | true =>
    obtain ⟨hh, hk⟩ := ha hn rfl
    have hru : ∀ p, Turn p _ _ := fun _ => run_turn { n with
        parts := (List.range n.parts.count).foldl Parts.verify n.parts } b
    have he : ∀ i, expected ({ n with parts := (List.range n.parts.count).foldl Parts.verify n.parts
          }.run b) i = n.expected i :=
      (hru fun _ => True).expected hk
    have hv : ∀ p : Nat → Prop, (∀ i < n.parts.count, p i) → Turn p n { n with
            parts := (List.range n.parts.count).foldl Parts.verify
              n.parts } := by
      intro p hp
      refine Proves.turn ?_ rfl rfl rfl hk
      apply Proves.foldl
      intro parts _ i hi
      exact .verify parts (hp i (mem_range.mp hi))
    apply Turn.trans _ (hru _)
    apply (ht.mono _).trans (hv _ _)
    · rintro i ⟨_, _, hl, hre⟩
      exact ⟨(hru fun _ => True).needs hk, hl.trans (congrArg some (he i).symm), hre⟩
    · intro i hi
      refine ⟨(hru fun _ => True).needs hk, ?_, fun x _ => hem x⟩
      rw [ht.count] at hi
      have hlt : i < t.localHashes.length := by omega
      obtain ⟨d, hdi⟩ := Option.ne_none_iff_exists'.mp (hal _ (getElem_mem hlt))
      have hl : t.localHashes.getD i none = some d := by
        rw [getD_eq_getElem?_getD, List.getElem?_eq_getElem hlt, hdi, Option.getD_some]
      have hno : n.pieceHashes.isEmpty = false := by
        have hc : 0 < hashSetPartCount n.link.size := by
          rw [ht.size]
          simpa [needsHashSet] using (Bool.and_eq_true_iff.mp hn).1
        simpa [needsHashSet, hc] using hk
      rw [hl, he, Ed2kTask.expected, hno, hh, if_neg (by simp), hg i hi d _ hl]
  | false =>
    have hs : n = t := hr rfl
    subst hs
    refine .trans ?_ (run_turn _ b)
    refine ⟨rfl, rfl, rfl, rfl, ⟨[], (append_nil _).symm,
      fun _ h => absurd h not_mem_nil⟩, fun _ _ h => h, fun _ _ h => .inl h, .inl rfl, fun _ => ?_⟩
    exact ⟨⟨hn, .inr hph⟩, rfl, fun _ h => h⟩

end Aria2Next.Ed2kTask
