/-
A verified part stays verified on disk, as long as no data is taken for a part
that is verified or being hashed: then nothing is written to the part behind
the hash job that verified it, and its bytes keep that digest.  Data for such
a part is taken when another client claimed the same block in the endgame.
-/
import Aria2Next.Ed2kTurn

namespace Aria2Next

open List

namespace Ed2kTask

universe u

variable {D : Type u}

variable {t n : Ed2kTask D}

/-- Nothing is queued beside the job that opens the file. -/
theorem Followed.open_alone (hf : t.Followed) {c : Bool} (hm : .open c ∈ t.jobs) :
    t.jobs = [.open c] := by
  have ho : ∀ {o : Bool}, t.jobs = [.open o] → t.jobs = [.open c] := by
    intro o hj
    rw [hj] at hm ⊢
    rw [mem_singleton.mp hm]
  rcases hf with ht | ⟨_, hj⟩
  · cases ht with
    | idle _ hj =>
      exact absurd ((show t.jobs = [] from hj) ▸ hm) not_mem_nil
    | opening _ hj | aborted _ hj => exact ho hj
    | busy hb => exact absurd (hb.work _ hm) id
    | close _ hj =>
      rw [show t.jobs = [.close] from hj] at hm
      simp at hm
  · exact absurd (hj ▸ hm) not_mem_nil

theorem Followed.downloading (hf : t.Followed) (hp : t.phase = .downloading) (c : Bool) :
    .open c ∉ t.jobs := by
  have hn : ∀ {p : Phase}, t.phase = p → p = .downloading := fun he => he.symm.trans hp
  intro hm
  rcases hf with ht | ⟨hc, _⟩
  · cases ht with
    | idle hi => exact absurd (hn hi) (by decide)
    | opening ho => exact absurd (hn ho) (by decide)
    | aborted hc | close hc => exact absurd (hn hc) (by decide)
    | busy hb => exact hb.work _ hm
  · exact absurd (hn hc) (by decide)

/-- The part a job hashes. -/
def Job.hashes : Job D → Option Nat
  | .hash index _ => some index
  | .open _ | .write _ _ | .sync | .close => none

theorem Followed.hashes_counted (hf : t.Followed) (hp : t.phase = .checking) :
    t.pendingHashes = t.jobs.countP Job.isHash := by
  rcases hf with ht | ⟨hcl, _⟩
  · cases ht with
    | idle _ _ hc | opening _ _ hc | aborted _ _ hc | close _ _ hc => exact hc.hashes
    | busy hb => exact hb.counted.hashes
  · exact absurd (hcl.symm.trans hp) (by decide)

/-- A record brings a hash set only to a task that has none. -/
theorem loadRecord_hashes [DecidableEq D] (t : Ed2kTask D) (r : DownloadRecord D) :
    (t.loadRecord r).link.hash = t.link.hash ∧ (t.loadRecord r).unchecked = t.unchecked ∧
      (t.needsHashSet = false → (t.loadRecord r).pieceHashes = t.pieceHashes) := by
  rw [loadRecord]
  rcases r.pieceHashes with _ | ⟨hash, hashes⟩
  · exact ⟨rfl, rfl, fun _ => rfl⟩
  dsimp only
  split
  · rename_i hf
    obtain ⟨he, _, hl, _⟩ := hf
    refine ⟨rfl, rfl, fun hk => ?_⟩
    have hz : hashSetPartCount t.link.size = 0 := by
      simpa [needsHashSet, he] using hk
    rw [isEmpty_iff.mp he]
    exact eq_nil_of_length_eq_zero (hl.trans hz)
  · exact ⟨rfl, rfl, fun _ => rfl⟩

theorem GoesOn.of_ne (hp : n.phase ≠ .checking) : GoesOn t n := fun h => absurd h hp

section

variable (t : Ed2kTask D)

theorem GoesOn.refl : GoesOn t t := fun h => ⟨h, rfl, rfl, fun _ => rfl⟩

theorem quiesce_goesOn : GoesOn t t.quiesce := by
  rw [quiesce]
  split
  · exact .refl t
  · exact fun h => ⟨h, rfl, rfl, fun _ => rfl⟩

theorem finish_ne_checking (o : Outcome) : (t.finish o).phase ≠ .checking := by
  rcases finish_phase t o with h | h <;> simp [h]

theorem finish_goesOn (o : Outcome) : GoesOn t (t.finish o) := GoesOn.of_ne (finish_ne_checking t o)

theorem downloaded_ne_checking (b : Bool) : (t.downloaded b).phase ≠ .checking := by
  rcases downloaded_phase t b with h | h <;> simp [h]

theorem run_ne_checking (b : Bool) : (t.run b).phase ≠ .checking := by
  rcases (run_cases t b).2.2 with (h | h) | h <;> simp [h]

theorem evaluateSharing_goesOn (b : Bool) : GoesOn t (t.evaluateSharing b) := by
  rw [evaluateSharing]
  split
  · exact finish_goesOn t .complete
  · exact .refl t

theorem partVerified_goesOn (i : Nat) (ok b : Bool) : GoesOn t (t.partVerified i ok b) := by
  rw [partVerified]
  split
  · exact .refl t
  rename_i ho
  have hp : t.phase = .downloading := not_not.mp (not_or.mp ho).1
  split
  · apply GoesOn.of_ne
    simp [hp]
  · dsimp only
    split
    · exact .of_ne (downloaded_ne_checking _ b)
    · apply GoesOn.of_ne
      simp [hp]

theorem compared_goesOn (i : Nat) (ok b : Bool) (hk : t.needsHashSet = false) :
    GoesOn t (t.compared i ok b) := by
  have hs : ∀ parts : Parts, GoesOn t { t with parts } := fun _ h => ⟨h, rfl, rfl, fun hn =>
      absurd (hn.symm.trans hk) (by decide)⟩
  rw [compared]
  split
  · split
    · exact .of_ne (run_ne_checking _ b)
    · exact hs _
  · split
    · exact .of_ne (run_ne_checking _ b)
    · exact .refl t

end

theorem allCollected_phase [DecidableEq D] (t : Ed2kTask D) (b : Bool) :
    (t.allCollected b).phase ≠ .checking := by
  rw [allCollected.eq_def]
  dsimp only
  split <;> exact run_ne_checking _ b

theorem Looks.goesOn (hl : Looks t n) : GoesOn t n :=
  fun h => ⟨hl.phase.symm.trans h, hl.hashes, hl.localHashes, fun _ => hl.parts⟩

end Ed2kTask

namespace Ed2kDownload

open Ed2kTask Runs

universe u v w

variable {D : Type u} {B : Type v} {O : Type w}

/-- A part of a file of this size. -/
def partRange (total : Int) (index : Nat) : Range :=
  (index * pieceLength, min (index * pieceLength + pieceLength) total)

/-- A job writes to a part. -/
def Touches (total : Int) (index : Nat) : Job D → Prop
  | .write begin stop => begin < (partRange total index).2 ∧ (partRange total index).1 < stop
  | .open _ | .hash _ _ | .sync | .close => False

instance (total : Int) (index : Nat) : ∀ job : Job D, Decidable (Touches total index job) := fun job => by
  unfold Touches
  split <;> infer_instance

/-- The digest of a part as it is on disk. -/
def digestOf (partHash : PartHash B D) (total : Int) (file : Int → B) (index : Nat) : D :=
  partHash (bytes file (partRange total index))

/-- The hash job of a part has called back, and nothing behind it writes to
the part. -/
def Settled (total : Int) (download : Ed2kDownload D B O) (index : Nat) : Prop :=
  ∃ left use right, download.log = left ++ Job.hash index use :: right ∧
    download.hashed index = some left.length ∧
    download.task.jobs <:+ right ∧ ∀ job ∈ right, ¬ Touches total index job

/-- The strand: no write to a part stands behind its hash, and what has run are
the first jobs. -/
structure Orderly (partHash : PartHash B D) (total : Int)
    (download : Ed2kDownload D B O) : Prop where
  suffix : download.task.jobs <:+ download.log
  ordered : download.task.jobs.Pairwise fun earlier later =>
    ∀ index use, earlier = Job.hash index use → ¬ Touches total index later
  ranLength : download.ran.length ≤ download.task.jobs.length
  ran : ∀ (place index : Nat) (use : HashUse D) (result : JobResult D),
    download.task.jobs[place]? = some (.hash index use) →
    download.ran[place]? = some result →
    result.digest = .ok (digestOf partHash total download.file index)

structure Sound (partHash : PartHash B D) (total : Int) (download : Ed2kDownload D B O) : Prop
    extends Orderly partHash total download where
  size_eq : download.task.link.size = total
  shaped : download.task.parts.Shaped total
  uses : ∀ index use, Job.hash index use ∈ download.task.jobs →
    use = .collect ∨ (download.task.needsHashSet = false ∧
      (use = .check (download.task.expected index) ∨
        use = .verify (download.task.expected index)))
  verified : ∀ index < download.task.parts.count, download.task.parts.isVerified index = true →
    download.task.needsHashSet = false ∧ Settled total download index ∧
      digestOf partHash total download.file index = download.task.expected index
  /-- The digests of an existing file hold for parts nobody wrote to. -/
  kept : download.task.Local → ∀ index < download.task.parts.count,
    ∀ digest, download.task.localHashes.getD index none = some digest →
    (∀ offset, download.task.parts.In index offset → offset ∉ download.task.parts.received) →
    Settled total download index ∧ digestOf partHash total download.file index = digest
  checking : download.task.phase = .checking → download.task.needsHashSet = true →
    (∀ offset, offset ∉ download.task.parts.received) ∧
    download.task.localHashes.length = download.task.parts.count ∧
    ∀ index < download.task.parts.count, download.task.localHashes.getD index none ≠ none ∨
        Job.hash index .collect ∈ download.task.jobs
  collecting : download.task.phase = .checking → ∀ index,
    Job.hash index .collect ∈ download.task.jobs →
    download.task.needsHashSet = true
  stored : ∀ row ∈ download.stored, row.size = total ∧
    ∀ index, (Ed2kStore.loadDownload row).parts.getD index false = true →
      download.task.parts.isVerified index = true
  opening : ∀ check, Job.open check ∈ download.task.jobs → ¬ download.task.Local ∧
    (download.stored = none → ∀ index < download.task.parts.count,
      download.task.parts.isVerified index = false) ∧
    (check = true → ∀ offset, offset ∉ download.task.parts.received)

variable {t next n : Ed2kTask D} {i : Nat} {q : List (Job D)}

theorem not_touches_of_plain {job : Job D} (hp : job.Plain t) (n : Int) (i : Nat) :
    ¬ Touches n i job := by
  cases job with
  | write b s => exact absurd hp id
  | _ => exact id

/-- What is queued behind keeps a part settled, unless it writes to it. -/
theorem Settled.become {n : Int} {d : Ed2kDownload D B O} (hs : Settled n d i)
    (hjo : next.jobs = d.task.jobs ++ q) (hq : ∀ job ∈ q, ¬ Touches n i job) :
    Settled n (d.become next) i := by
  obtain ⟨left, use, right, hsp, hn, hsu, hc⟩ := hs
  refine ⟨left, use, right ++ q, ?_, hn, ?_, ?_⟩
  · rw [Ed2kDownload.become, hjo, drop_left, hsp, append_assoc, cons_append]
  · rw [Ed2kDownload.become, hjo]
    exact (suffix_append_inj_of_length_eq rfl).mpr ⟨hsu, rfl⟩
  · intro job hj
    rcases mem_append.mp hj with hj | hj
    · exact hc job hj
    · exact hq job hj

variable {partHash p : PartHash B D} {tt : Int} {download d : Ed2kDownload D B O}

theorem lt_count_of_isVerified {ps : Parts} (hv : ps.isVerified i = true) : i < ps.count := by
  by_contra ho
  rw [Parts.isVerified, getD_eq_getElem?_getD, List.getElem?_eq_none (not_lt.mp ho)] at hv
  simp at hv

theorem bytes_congr {f o : Int → B} {r : Range} (hs : ∀ x, r.1 ≤ x → x < r.2 → o x = f x) :
    bytes o r = bytes f r := by
  apply map_congr_left
  intro x ho
  rw [mem_range] at ho
  apply hs <;> omega

/-- Bytes written elsewhere leave the digest of a part. -/
theorem digestOf_overwrite (f d : Int → B) {b s : Int} (hc : ¬ Touches tt i (.write b s : Job D)) :
    digestOf p tt (overwrite f b s d) i = digestOf p tt f i := by
  rw [digestOf, digestOf]
  congr 1
  apply bytes_congr
  intro x hl hh
  rw [overwrite, if_neg]
  rintro ⟨hb, hs⟩
  exact hc ⟨by exact lt_of_le_of_lt hb hh, by exact lt_of_le_of_lt hl hs⟩

/-- Jobs are queued, none of which writes to a part that is hashed. -/
theorem Orderly.become (ho : Orderly p tt d) (hj : n.jobs = d.task.jobs ++ q)
    (hq : q.Pairwise fun e l => ∀ i use, e = Job.hash i use → ¬ Touches tt i l)
    (hc : ∀ job ∈ d.task.jobs, ∀ l ∈ q, ∀ i use, job = Job.hash i use → ¬ Touches tt i l) :
    Orderly p tt (d.become n) := by
  constructor <;> dsimp only [Ed2kDownload.become]
  · rw [hj, drop_left]
    exact (suffix_append_inj_of_length_eq rfl).mpr ⟨ho.suffix, rfl⟩
  · rw [hj]
    exact pairwise_append.mpr ⟨ho.ordered, hq, hc⟩
  · rw [hj, length_append]
    exact Nat.le_add_right_of_le ho.ranLength
  · intro pl i use r hjo hr
    have hp : pl < d.task.jobs.length :=
      lt_of_lt_of_le (List.getElem?_eq_some_iff.mp hr).1 ho.ranLength
    rw [hj, List.getElem?_append_left hp] at hjo
    exact ho.ran pl i use r hjo hr

/-- Jobs that write nothing are queued. -/
theorem Orderly.become_of_clear (ho : Orderly p tt d) (hj : n.jobs = d.task.jobs ++ q)
    (hc : ∀ i, ∀ job ∈ q, ¬ Touches tt i job) : Orderly p tt (d.become n) := by
  apply ho.become hj
  · apply pairwise_of_forall_mem_list
    intro _ _ l hl i _ _
    exact hc i l hl
  · intro _ _ l hl i _ _
    exact hc i l hl

/-- The task takes a turn in which it verifies only what is settled. -/
theorem Sound.become (hs : Sound p tt d) {pr : Nat → Prop} (ht : Turn pr d.task n)
    (hg : GoesOn d.task n) (hpr : ∀ i < d.task.parts.count, pr i →
      n.parts.isVerified i = true → n.needsHashSet = false ∧ Settled tt d i ∧
      digestOf p tt d.file i = n.expected i)
    (ho : ∀ c, .open c ∈ d.task.jobs → n.parts = d.task.parts) : Sound p tt (d.become n) := by
  obtain ⟨q, hjo, hpl⟩ := ht.jobs
  have hc : ∀ i, ∀ job ∈ q, ¬ Touches tt i job :=
    fun i job hj => not_touches_of_plain (hpl job hj) tt i
  have hse : ∀ i, Settled tt d i → Settled tt (d.become n) i := fun i h => h.become hjo (hc i)
  have hold : ∀ job ∈ n.jobs, ¬ job.Plain n → job ∈ d.task.jobs := by
    intro job hj hnot
    rw [hjo] at hj
    rcases mem_append.mp hj with h | h
    · exact h
    · exact absurd (hpl job h) hnot
  constructor <;> dsimp only [Ed2kDownload.become]
  · exact hs.become_of_clear hjo hc
  · exact ht.size.trans hs.size_eq
  · exact hs.shaped.of_eq ht.partsSize ht.count
  · intro i use hj
    rw [hjo] at hj
    rcases mem_append.mp hj with hj | hj
    · rcases hs.uses i use hj with h | ⟨hk, hu⟩
      · exact .inl h
      · refine .inr ⟨ht.needs hk, ?_⟩
        rw [ht.expected hk]
        exact hu
    · exact .inr (hpl _ hj)
  · intro i hi hv
    rw [ht.count] at hi
    rcases ht.verified i hi hv with h | h
    · obtain ⟨hk, hdo, hdi⟩ := hs.verified i hi h
      exact ⟨ht.needs hk, hse i hdo, hdi.trans (ht.expected hk i).symm⟩
    · obtain ⟨hk, hdo, hdi⟩ := hpr i hi h hv
      exact ⟨hk, hse i hdo, hdi⟩
  · intro hl i hi digest hdi he
    obtain ⟨hl', hh, hr⟩ := ht.carried hl
    rw [hh] at hdi
    rw [ht.count] at hi
    obtain ⟨hdo, hf⟩ := hs.kept hl' i hi digest hdi
      fun x hin hm => he x (by rw [Parts.In, Parts.part, ht.partsSize]; exact hin) (hr x hm)
    exact ⟨hse i hdo, hf⟩
  · intro hp hn
    obtain ⟨hp', hh, hlo, hpa⟩ := hg hp
    rw [hpa hn, hlo]
    rw [needsHashSet_eq ht.size hh] at hn
    obtain ⟨he, hle, ha⟩ := hs.checking hp' hn
    refine ⟨he, hle, fun i hi => ?_⟩
    rw [hjo]
    exact (ha i hi).imp_right (mem_append_left _)
  · intro hp i hj
    obtain ⟨hp', hh, _⟩ := hg hp
    rw [needsHashSet_eq ht.size hh]
    refine hs.collecting hp' i (hold _ hj ?_)
    rintro ⟨_, hu | hu⟩ <;> simp at hu
  · intro row hro
    obtain ⟨hsi, hb⟩ := hs.stored row hro
    refine ⟨hsi, fun i hbi => ?_⟩
    have hv := hb i hbi
    exact ht.grows i (lt_count_of_isVerified hv) hv
  · intro c hj
    have hj' := hold _ hj id
    obtain ⟨hl, hno, he⟩ := hs.opening c hj'
    refine ⟨fun h => hl (ht.carried h).1, ?_⟩
    rw [ho c hj']
    exact ⟨hno, he⟩

/-- The mark of `callBack`: which hash job was the last for a part. -/
def hashedAfter (download : Ed2kDownload D B O) (job : Job D) : Nat → Option Nat :=
  match job with
  | .hash index _ =>
    if download.task.parts.isVerified index then download.hashed
    else Function.update download.hashed index
      (some (download.log.length - download.task.jobs.length))
  | _ => download.hashed

theorem hashedAfter_of_verified (hv : d.task.parts.isVerified i = true) (job : Job D) :
    d.hashedAfter job i = d.hashed i := by
  cases job with
  | hash o use =>
    rw [hashedAfter]
    split
    · rfl
    · rename_i ho
      apply Function.update_of_ne
      rintro rfl
      exact ho hv
  | _ => rfl

/-- Two steps of the task in one call. -/
theorem become_become {m : List (Job D)} (hm : n.jobs = t.jobs ++ m)
    (hj : t.jobs = d.task.jobs ++ q) (hp : t.phase = .downloading) :
    (d.become t).become n = d.become n := by
  have hl : d.log ++ t.jobs.drop d.task.jobs.length ++ n.jobs.drop t.jobs.length =
      d.log ++ n.jobs.drop d.task.jobs.length := by
    rw [hm, drop_left, hj, drop_left, append_assoc d.task.jobs, drop_left, append_assoc]
  simp only [become, hp, if_true, hl]

/-- The first job has called back; `next` is the task without it. -/
abbrev popped (d : Ed2kDownload D B O) (job : Job D) (ran : List (JobResult D))
    (next : Ed2kTask D) : Ed2kDownload D B O :=
  { d with task := next, ran, hashed := d.hashedAfter job }

namespace Sound

variable {job : Job D} {rest r : List (Job D)} {rs : JobResult D}
  {ran : List (JobResult D)} {n : Ed2kTask D}

variable {i : Nat} {use : HashUse D}

/-- The hash job that calls back settles its part. -/
theorem settled_hash (hs : Sound p tt d) (hj : d.task.jobs = .hash i use :: rest)
    (hop : d.task.parts.isVerified i = false) (hn : n.jobs = rest) :
    Settled tt (d.popped (.hash i use) ran n) i := by
  obtain ⟨left, hl⟩ := hs.suffix
  have ho := hs.ordered
  rw [hj] at hl ho
  refine ⟨left, use, rest, hl.symm, ?_, hn ▸ suffix_refl _, ?_⟩
  · simp only [hashedAfter, hop, Bool.false_eq_true, if_false,
      Function.update_self, hj, ← hl, length_append, Option.some.injEq]
    omega
  · intro l hla
    exact (pairwise_cons.mp ho).1 l hla i use rfl

theorem settled_pop (hso : Sound p tt d) (hj : d.task.jobs = job :: r) (hn : n.jobs = r)
    (hse : Settled tt d i) : Settled tt (d.popped job ran n) i := by
  obtain ⟨left, use, right, hl, hnu, hsu, hc⟩ := hse
  have hr : r <:+ right := (suffix_cons job r).trans (hj ▸ hsu)
  have hs : d.hashedAfter job i = d.hashed i → Settled tt (d.popped job ran n) i :=
    fun he => ⟨left, use, right, hl, he.trans hnu, hn ▸ hr, hc⟩
  cases job with
  | hash o u =>
    by_cases he : i = o
    · subst he
      rcases hv : d.task.parts.isVerified i with _ | _
      · exact hso.settled_hash hj hv hn
      · exact hs (hashedAfter_of_verified hv _)
    · apply hs
      rw [hashedAfter]
      split
      · rfl
      · exact Function.update_of_ne he _ _
  | _ => exact hs rfl

theorem pop (hs : Sound p tt d) (hj : d.task.jobs = job :: r) (hr : d.ran = rs :: ran)
    (hp : n.parts = d.task.parts) (hli : n.link = d.task.link)
    (hh : n.pieceHashes = d.task.pieceHashes) (hph : n.phase = d.task.phase)
    (hu : n.unchecked = d.task.unchecked) (hn : n.jobs = r)
    (hlo : (n.localHashes = d.task.localHashes ∧ ∀ i, job = .hash i .collect →
          d.task.phase ≠ .checking) ∨ ∃ i digest, job = .hash i .collect ∧ rs.digest = .ok digest ∧
        n.localHashes = d.task.localHashes.set i (some digest)) :
    Sound p tt (d.popped job ran n) := by
  have hne : n.needsHashSet = d.task.needsHashSet := by
    rw [needsHashSet, hli, hh, needsHashSet]
  have hexp : ∀ i, n.expected i = d.task.expected i := expected_eq (by rw [hli]) hh
  have hm : ∀ {o : Job D}, o ∈ n.jobs → o ∈ d.task.jobs := by
    intro o h
    rw [hj]
    exact mem_cons_of_mem _ (hn ▸ h)
  have hLocal : n.Local → d.task.Local := by
    rintro ⟨h, h'⟩
    rw [hne] at h
    rw [hu, hph] at h'
    exact ⟨h, h'⟩
  constructor
  · obtain ⟨hsu, ho, hl, hdig⟩ := hs.toOrderly
    rw [hj] at hsu ho hl hdig
    rw [hr] at hl hdig
    subst hn
    exact ⟨(suffix_cons job _).trans hsu, (pairwise_cons.mp ho).2,
      Nat.le_of_succ_le_succ hl, fun place => hdig (place + 1)⟩
  all_goals dsimp only
  · rw [hli]
    exact hs.size_eq
  · rw [hp]
    exact hs.shaped
  · intro i use h
    rw [hne, hexp]
    exact hs.uses i use (hm h)
  · intro i hi hv
    rw [hp] at hi hv
    rw [hne, hexp]
    obtain ⟨hk, hdo, hdi⟩ := hs.verified i hi hv
    exact ⟨hk, hs.settled_pop hj hn hdo, hdi⟩
  · intro hw i hi digest hdi he
    rw [hp] at hi he
    have hke := hs.kept (hLocal hw) i hi digest
    have hold : d.task.localHashes.getD i none = some digest →
        Settled tt (d.popped job ran n) i ∧ digestOf p tt d.file i = digest := fun h =>
      ⟨hs.settled_pop hj hn (hke h he).1, (hke h he).2⟩
    rcases hlo with ⟨heq, _⟩ | ⟨o, found, rfl, hf, heq⟩
    · exact hold (heq ▸ hdi)
    · by_cases hsa : o = i
      · subst hsa
        have hop : d.task.parts.isVerified o = false := by
          by_contra hv
          rw [Bool.not_eq_false] at hv
          have hk := (hs.verified o hi hv).1
          exact absurd ((hLocal hw).1.symm.trans hk) (by decide)
        refine ⟨hs.settled_hash hj hop hn, ?_⟩
        have hdo := hs.ran 0 o .collect rs (by rw [hj]; rfl) (by rw [hr]; rfl)
        rw [hf, Except.ok.injEq] at hdo
        rw [heq, getD_eq_getElem?_getD, List.getElem?_set_self'] at hdi
        cases hg : d.task.localHashes[o]? with
        | none => simp [hg] at hdi
        | some value =>
          simp only [hg, Option.map_eq_map, Option.map_some,
            Function.const_apply, Option.getD_some, Option.some.injEq]
            at hdi
          exact hdo.symm.trans hdi
      · apply hold
        rw [heq, getD_eq_getElem?_getD, List.getElem?_set_ne hsa, ← getD_eq_getElem?_getD] at hdi
        exact hdi
  · intro hc hwa
    rw [hph] at hc
    rw [hne] at hwa
    obtain ⟨he, hl, ha⟩ := hs.checking hc hwa
    rw [hp]
    rw [hj] at ha
    rcases hlo with ⟨heq, hot⟩ | ⟨o, found, rfl, hf, heq⟩
    · rw [heq]
      refine ⟨he, hl, fun i hi => ?_⟩
      rcases ha i hi with h | h
      · exact .inl h
      · rcases mem_cons.mp h with h | h
        · exact absurd hc (hot i h.symm)
        · exact .inr (hn ▸ h)
    · rw [heq]
      refine ⟨he, by rw [length_set]; exact hl, fun i hi => ?_⟩
      rw [getD_eq_getElem?_getD]
      by_cases hsa : o = i
      · subst hsa
        left
        rw [List.getElem?_set_self (hl ▸ hi)]
        simp
      · rw [List.getElem?_set_ne hsa, ← getD_eq_getElem?_getD, hn]
        rcases ha i hi with h | h
        · exact .inl h
        · rcases mem_cons.mp h with h | h
          · exact absurd (Job.hash.inj h).1.symm hsa
          · exact .inr h
  · intro hc i h
    rw [hne]
    exact hs.collecting (hph ▸ hc) i (hm h)
  · intro row hro
    obtain ⟨hsi, hb⟩ := hs.stored row hro
    refine ⟨hsi, fun i hbi => ?_⟩
    rw [hp]
    exact hb i hbi
  · intro c h
    obtain ⟨hnot, hno, he⟩ := hs.opening c (hm h)
    refine ⟨fun h => hnot (hLocal h), ?_⟩
    rw [hp]
    exact ⟨hno, he⟩

/-- The file is checked from the beginning. -/
theorem checkAll (hs : Sound p tt d) (hjo : d.task.jobs = [])
    (hem : ∀ x, x ∉ d.task.parts.received) : Sound p tt (d.become d.task.checkAll) := by
  have hq : ∀ job ∈ d.task.checkAll.jobs, ∃ i, job = .hash i (if d.task.needsHashSet then .collect
        else .check (d.task.expected i)) := by
    intro job hj
    rw [checkAll_eq, hjo, nil_append] at hj
    obtain ⟨i, _, rfl⟩ := mem_map.mp hj
    exact ⟨i, rfl⟩
  have hne : d.task.checkAll.jobs = d.task.jobs ++ d.task.checkAll.jobs := by
    rw [hjo, nil_append]
  have hn : d.task.checkAll.needsHashSet = d.task.needsHashSet := by
    rw [checkAll_eq]
    rfl
  have hp : d.task.checkAll.parts = d.task.parts := by
    rw [checkAll_eq]
  have he : ∀ i, d.task.checkAll.expected i = d.task.expected i := by
    rw [checkAll_eq]
    exact fun _ => rfl
  have hc : ∀ i, ∀ job ∈ d.task.checkAll.jobs, ¬ Touches tt i job := by
    intro i job hj
    obtain ⟨o, rfl⟩ := hq job hj
    exact id
  constructor <;> dsimp only [Ed2kDownload.become]
  · exact hs.become_of_clear hne hc
  · rw [checkAll_eq]
    exact hs.size_eq
  · rw [hp]
    exact hs.shaped
  · intro i use hj
    obtain ⟨o, heq⟩ := hq _ hj
    obtain ⟨rfl, rfl⟩ := Job.hash.inj heq
    rw [hn, he]
    split
    · exact .inl rfl
    · rename_i hk
      exact .inr ⟨Bool.not_eq_true _ ▸ hk, .inl rfl⟩
  · intro i hi hv
    rw [hp] at hi hv
    rw [hn, he]
    obtain ⟨hk, hdo, hdi⟩ := hs.verified i hi hv
    exact ⟨hk, hdo.become hne (hc i), hdi⟩
  · rintro ⟨hw, _⟩ i _ di hdi
    rw [hn] at hw
    rw [checkAll_eq] at hdi
    simp only [hw, if_true, getD_eq_getElem?_getD, List.getElem?_replicate] at hdi
    split at hdi <;> simp at hdi
  · intro _ hw
    rw [hn] at hw
    rw [hp, checkAll_eq]
    refine ⟨hem, ?_, fun i hi => .inr ?_⟩
    · simp [hw]
    · simp only [hw, if_true]
      exact mem_append_right _ (mem_map.mpr ⟨i, mem_range.mpr hi, rfl⟩)
  · intro _ i hj
    obtain ⟨o, heq⟩ := hq _ hj
    obtain ⟨_, hu⟩ := Job.hash.inj heq
    rw [hn]
    by_contra hk
    simp [hk] at hu
  · intro row hr
    obtain ⟨hsi, hb⟩ := hs.stored row hr
    refine ⟨hsi, fun i hbi => ?_⟩
    rw [hp]
    exact hb i hbi
  · intro c hj
    obtain ⟨o, heq⟩ := hq _ hj
    simp at heq

theorem save (hs : Sound p tt d) (m : Int) (pa : Bool) : Sound p tt (d.save m pa) := by
  refine { hs with stored := ?_, opening := ?_ }
  · rintro row ⟨rfl⟩
    refine ⟨hs.size_eq, fun i hb => ?_⟩
    have hc : ((d.task.link.size + pieceLength - 1) /
        pieceLength).toNat = d.task.parts.verified.length := by
      rw [hs.size_eq]
      exact hs.shaped.count_eq.symm
    simp only [Ed2kStore.loadDownload, Ed2kStore.saveDownload, record] at hb
    rw [hc, Ed2kStore.unpackBits_packBits] at hb
    exact hb
  · intro c hj
    obtain ⟨hl, _, he⟩ := hs.opening c hj
    exact ⟨hl, fun h => absurd h (by simp [Ed2kDownload.save]), he⟩

/-- A write is queued that touches no part that is verified or hashed, and its
bytes count as received. -/
theorem write (hs : Sound p tt d) (hp : d.task.phase = .downloading)
    (ho : ∀ c, .open c ∉ d.task.jobs) {begin s : Int} (hlt : begin < s) (hst : s ≤ tt)
    (hcl : ∀ i < d.task.parts.count, Touches tt i (.write begin s : Job D) →
      d.task.parts.isVerified i = false ∧ ∀ use, .hash i use ∉ d.task.jobs)
    {parts : Parts} (hv : parts.verified = d.task.parts.verified)
    (hsi : parts.size = d.task.parts.size)
    (hr : ∀ x, x ∈ parts.received ↔ x ∈ d.task.parts.received ∨
        (begin ≤ x ∧ x < s)) (pe : Int) : Sound p tt (d.become
      { d.task.queue (.write begin s) with parts, pendingWrites := pe }) := by
  have hc : parts.count = d.task.parts.count := congrArg List.length hv
  have hb : ∀ i, parts.isVerified i = d.task.parts.isVerified i := by
    intro i
    rw [Parts.isVerified, hv, Parts.isVerified]
  have hse : ∀ i, ¬ Touches tt i (.write begin s : Job D) → Settled tt d i →
      Settled tt (d.become { d.task.queue (.write begin s) with
          parts, pendingWrites := pe }) i := by
    intro i hn hdo
    apply hdo.become rfl
    intro job hj
    rw [mem_singleton.mp hj]
    exact hn
  have hj : ∀ job, job ∈ d.task.jobs ++ [.write begin s] →
      (∀ first last, job ≠ .write first last) → job ∈ d.task.jobs := by
    intro job h hne
    rcases mem_append.mp h with h | h
    · exact h
    · exact absurd (mem_singleton.mp h) (hne begin s)
  constructor <;> dsimp only [Ed2kDownload.become]
  · refine hs.toOrderly.become rfl (pairwise_singleton _ _) ?_
    rintro earlier hea later hl i use rfl
    rw [mem_singleton.mp hl]
    intro ht
    by_cases hi : i < d.task.parts.count
    · exact (hcl i hi ht).2 use hea
    · -- the write ends inside the file, in front of such a part
      have hou := hs.shaped.count_eq
      have hbe : (partRange tt i).1 < s := ht.2
      simp only [partRange, pieceLength] at hbe hou
      omega
  · exact hs.size_eq
  · exact hs.shaped.of_eq hsi hc
  · intro i use h
    exact hs.uses i use (hj _ h (by simp))
  · intro i hi h
    rw [hc] at hi
    rw [hb] at h
    obtain ⟨hk, hdo, hdi⟩ := hs.verified i hi h
    refine ⟨hk, hse i (fun ht => ?_) hdo, hdi⟩
    exact absurd ((hcl i hi ht).1.symm.trans h) (by decide)
  · intro hloc i hi di hdi he
    rw [hc] at hi
    have hin : ∀ x, d.task.parts.In i x → parts.In i x := by
      intro x h
      rw [Parts.In, Parts.part, hsi]
      exact h
    obtain ⟨hdo, hf⟩ := hs.kept hloc i hi di hdi fun x h hm =>
        he x (hin x h) ((hr x).mpr (.inl hm))
    refine ⟨hse i (fun ht => ?_) hdo, hf⟩
    -- the first byte of the write in the part is there now
    have hpa := hs.shaped.part_lt hi
    obtain ⟨hlo, hh⟩ := ht
    have heq : d.task.parts.part i = partRange tt i := by
      rw [Parts.part, hs.shaped.size_eq, partRange]
    refine he (max begin (partRange tt i).1) (hin _ ?_) ((hr _).mpr (.inr ?_))
    · rw [Parts.In, heq]
      rw [heq] at hpa
      omega
    · omega
  · intro h
    exact absurd (hp.symm.trans h) (by decide)
  · intro h
    exact absurd (hp.symm.trans h) (by decide)
  · intro row hrow
    obtain ⟨hrowS, hro⟩ := hs.stored row hrow
    refine ⟨hrowS, fun i hbi => ?_⟩
    rw [hb]
    exact hro i hbi
  · intro c h
    exact absurd (hj _ h (by simp)) (ho c)

/-- Data that touches no part that is verified or hashed. -/
theorem receive (hs : Sound p tt d) (hf : d.task.Followed) (b s : Int)
    (hc : ∀ i < d.task.parts.count, Touches tt i (.write b (b + s) : Job D) →
      d.task.parts.isVerified i = false ∧ ∀ use, .hash i use ∉ d.task.jobs) :
    Sound p tt (d.become (d.task.receive b s)) := by
  have hst : Sound p tt (d.become d.task) := by
    have ht : Turn (fun _ => False) d.task d.task := .refl _
    exact hs.become ht (fun h => ⟨h, rfl, rfl, fun _ => rfl⟩)
      (fun _ _ h => absurd h id) fun _ _ => rfl
  rw [Ed2kTask.receive]
  dsimp only
  split
  · exact hst
  rename_i ha
  simp only [not_or, not_not, not_le, not_lt] at ha
  obtain ⟨hp, _, hb, hlt⟩ := ha
  rw [hs.size_eq] at hlt ⊢
  have hsi := Parts.add_size d.task.parts b (min (b + s) tt)
  have hv := Parts.add_verified d.task.parts b (min (b + s) tt)
  have hr : ∀ x, x ∈ (d.task.parts.add b (min (b + s) tt)).2.received ↔
      x ∈ d.task.parts.received ∨ (b ≤ x ∧ x < min (b + s) tt) := by
    intro x
    rw [Parts.mem_addBytes, hs.shaped.size_eq, max_eq_left hb, min_eq_left (min_le_right _ _)]
  generalize d.task.parts.add b _ = answer at hsi hv hr ⊢
  obtain ⟨f, parts⟩ := answer
  dsimp only at hsi hv hr ⊢
  have hw := hs.write hp (hf.downloading hp) hlt (min_le_right _ _)
    (fun i hi hto => hc i hi ⟨hto.1, lt_of_lt_of_le hto.2 (min_le_left _ _)⟩)
    hv hsi hr (d.task.pendingWrites + 1)
  cases f with
  | none => exact hw
  | some i =>
    have ht : Turn (fun _ => False) _ _ := verifyFilled_turn
      { d.task.queue (.write b (min (b + s) tt)) with
        parts, pendingWrites := d.task.pendingWrites + 1 } i
    have hl := verifyFilled_looks { d.task.queue (.write b (min (b + s) tt)) with
        parts, pendingWrites := d.task.pendingWrites + 1 } i
    obtain ⟨q, hj, _⟩ := ht.jobs
    have hn := hw.become ht hl.goesOn (fun _ _ h => absurd h id) fun _ _ => hl.parts
    rw [become_become hj rfl hp] at hn
    exact hn

/-- A job ran and left `file`: what was settled or hashed is as it was. -/
theorem done (hs : Sound p tt d) {job : Job D} (hj : d.task.jobs[d.ran.length]? = some job)
    {file : Int → B} {payloads : List (Int → B)} {r : JobResult D}
    (hre : ∀ i use, job = .hash i use → r.digest = .ok (digestOf p tt file i))
    (hf : (∀ i, ¬ Touches tt i job → digestOf p tt file i = digestOf p tt d.file i) ∨
      (d.ran = [] ∧ ¬ d.task.Local ∧ ∀ i < d.task.parts.count, d.task.parts.isVerified i = false)) :
    Sound p tt { d with ran := d.ran ++ [r], file, payloads } := by
  have hpl := (List.getElem?_eq_some_iff.mp hj).1
  have hse : ∀ i, Settled tt d i → ¬ Touches tt i job := by
    rintro i ⟨_, _, right, _, _, hsu, hc⟩
    exact hc job (hsu.mem (mem_of_getElem? hj))
  refine { hs with ranLength := ?_, ran := ?_, verified := ?_, kept := ?_ }
  · rw [length_append]
    exact hpl
  · intro pl i use o hh hr
    rcases lt_trichotomy pl d.ran.length with hlt | rfl | hg
    · rw [List.getElem?_append_left hlt] at hr
      rw [hs.ran pl i use o hh hr]
      rcases hf with hsa | ⟨hn, _⟩
      · obtain ⟨hp, hh'⟩ := List.getElem?_eq_some_iff.mp hh
        obtain ⟨_, hj'⟩ := List.getElem?_eq_some_iff.mp hj
        have ho := pairwise_iff_getElem.mp hs.ordered pl d.ran.length hp hpl hlt i use hh'
        rw [hj'] at ho
        rw [hsa i ho]
      · rw [hn] at hlt
        exact absurd hlt (Nat.not_lt_zero _)
    · rw [List.getElem?_concat_length] at hr
      cases hr
      rw [hj] at hh
      cases hh
      exact hre i use rfl
    · rw [List.getElem?_eq_none (by simp; omega)] at hr
      simp at hr
  · intro i hi hv
    obtain ⟨hk, hdo, hdi⟩ := hs.verified i hi hv
    refine ⟨hk, hdo, ?_⟩
    rcases hf with hsa | ⟨_, _, hn⟩
    · exact (hsa i (hse i hdo)).trans hdi
    · exact absurd ((hn i hi).symm.trans hv) (by decide)
  · intro hl i hi digest hdi he
    obtain ⟨hdo, hold⟩ := hs.kept hl i hi digest hdi he
    refine ⟨hdo, ?_⟩
    rcases hf with hsa | ⟨_, hno, _⟩
    · exact (hsa i (hse i hdo)).trans hold
    · exact absurd hl hno

/-- The strand runs a job without an error; the file is another one only when
nothing of it is stored. -/
theorem work (hs : Sound p tt d) (hf : d.task.Followed) (f : Option (Int → B))
    (hfr : d.stored.isSome = true → f.isNone = true) : Sound p tt (d.work p none f) := by
  rw [Ed2kDownload.work]
  rcases hj : d.task.jobs[d.ran.length]? with _ | job
  · exact hs
  dsimp only
  cases job with
  | «open» c =>
    have hm := mem_of_getElem? hj
    have ha := hf.open_alone hm
    have hr : d.ran = [] := by
      have hlt := (List.getElem?_eq_some_iff.mp hj).1
      rw [ha, length_singleton] at hlt
      exact eq_nil_of_length_eq_zero (Nat.lt_one_iff.mp hlt)
    apply hs.done hj (by simp)
    rcases hst : d.stored with _ | row
    · obtain ⟨hl, hn, _⟩ := hs.opening c hm
      exact .inr ⟨hr, hl, hn hst⟩
    · left
      rw [hst] at hfr
      rw [Option.isNone_iff_eq_none.mp (hfr rfl)]
      exact fun _ _ => rfl
  | write b s =>
    apply hs.done hj (by simp)
    left
    intro i hc
    rcases d.payloads.head? with _ | data
    · rfl
    · exact digestOf_overwrite d.file data hc
  | hash i use =>
    refine hs.done hj ?_ (.inl fun _ _ => rfl)
    rintro index' u ⟨rfl, rfl⟩
    dsimp only
    rw [digestOf, Parts.part, hs.shaped.size_eq, partRange]
  | _ => exact hs.done hj (by simp) (.inl fun _ _ => rfl)

/-- A run opens the file: the parts are those of the row, if there is one. -/
theorem opened (hs : Sound p tt d) (hjo : d.task.jobs = []) {n : Ed2kTask D}
    (hsi : n.link.size = d.task.link.size) (hha : n.link.hash = d.task.link.hash)
    (hh : d.task.needsHashSet = false → n.pieceHashes = d.task.pieceHashes)
    (hp : n.phase ≠ .checking) (hu : n.unchecked = false) (hsh : n.parts.Shaped tt)
    (hbi : ∀ i < n.parts.count, n.parts.isVerified i = true ↔
      ∃ row ∈ d.stored, (Ed2kStore.loadDownload row).parts.getD i false = true)
    (hnex : n.jobs = [] ∨ ∃ c, n.jobs = [.open c] ∧
      (c = true → ∀ x, x ∉ n.parts.received)) : Sound p tt (d.become n) := by
  have hne : n.jobs = d.task.jobs ++ n.jobs := by rw [hjo, nil_append]
  have hl : ¬ n.Local := by
    rintro ⟨_, h | h⟩
    · exact absurd (h.symm.trans hu) (by decide)
    · exact hp h
  have hj : ∀ job ∈ n.jobs, ∃ c, job = .open c ∧ (c = true → ∀ x, x ∉ n.parts.received) := by
    intro job h
    rcases hnex with hn | ⟨c, hop, he⟩
    · rw [hn] at h
      exact absurd h not_mem_nil
    · rw [hop] at h
      exact ⟨c, mem_singleton.mp h, he⟩
  have hc : ∀ i, ∀ job ∈ n.jobs, ¬ Touches tt i job := by
    intro i job h
    obtain ⟨c, rfl, _⟩ := hj job h
    exact id
  constructor <;> dsimp only [Ed2kDownload.become]
  · exact hs.become_of_clear hne hc
  · exact hsi.trans hs.size_eq
  · exact hsh
  · intro i use h
    obtain ⟨c, heq, _⟩ := hj _ h
    simp at heq
  · intro i hi hv
    obtain ⟨row, hr, hb⟩ := (hbi i hi).mp hv
    have hbe := (hs.stored row hr).2 i hb
    obtain ⟨hk, hdo, hdi⟩ := hs.verified i (lt_count_of_isVerified hbe) hbe
    exact ⟨(needsHashSet_eq hsi (hh hk)).trans hk, hdo.become hne (hc i),
      hdi.trans (expected_eq hha (hh hk) i).symm⟩
  · exact fun h => absurd h hl
  · exact fun h => absurd h hp
  · exact fun h => absurd h hp
  · intro row hr
    obtain ⟨hro, _⟩ := hs.stored row hr
    refine ⟨hro, fun i hb => ?_⟩
    refine (hbi i ?_).mpr ⟨row, hr, hb⟩
    by_contra ho
    rw [hsh.count_eq, ← hro] at ho
    rw [getD_eq_getElem?_getD, List.getElem?_eq_none] at hb
    · exact absurd hb (by decide)
    · rw [Ed2kStore.loadDownload, Ed2kStore.unpackBits, length_map, length_range]
      exact not_lt.mp ho
  · intro c h
    obtain ⟨o, heq, he⟩ := hj _ h
    obtain rfl := Job.open.inj heq
    refine ⟨hl, fun hn i hi => ?_, he⟩
    by_contra hv
    rw [Bool.not_eq_false] at hv
    obtain ⟨row, hr, _⟩ := (hbi i hi).mp hv
    rw [show d.stored = none from hn] at hr
    exact absurd hr (by simp)

theorem still (hs : Sound p tt d) {n : Ed2kTask D} (hp : n.parts = d.task.parts)
    (hli : n.link = d.task.link) (hh : n.pieceHashes = d.task.pieceHashes)
    (hu : n.unchecked = d.task.unchecked) (hl : n.localHashes = d.task.localHashes)
    (hph : n.phase = d.task.phase) (hj : n.jobs = d.task.jobs) : Sound p tt (d.become n) := by
  have ht : Turn (fun _ => False) d.task n := .of_still hp hli hh hu hl (.inl hph) hj
  apply hs.become ht
  · exact fun h => ⟨hph.symm.trans h, hh, hl, fun _ => hp⟩
  · exact fun _ _ h => absurd h id
  · exact fun _ _ => hp

/-- The task after a callback, from the state without the job. -/
theorem becomeSaved {n : Ed2kTask D} (hs : Sound p tt (d.become n)) (m : Int) (pa : Bool) :
    Sound p tt (d.becomeSaved n m pa) := by
  rw [Ed2kDownload.becomeSaved]
  split
  · exact hs.save m pa
  · exact hs

/-- A callback that verifies nothing. -/
theorem pass {po : Ed2kDownload D B O} (hs : Sound p tt po) {n : Ed2kTask D}
    (ht : Turn (fun _ => False) po.task n) (hg : GoesOn po.task n)
    (ho : ∀ c, .open c ∉ po.task.jobs) : Sound p tt (po.become n) :=
  hs.become ht hg (fun _ _ h => absurd h id) fun c h => absurd h (ho c)

/-- The file is open, or could not be opened. -/
theorem openDone (hs : Sound p tt d) {c : Bool} (hj : d.task.jobs = [.open c])
    (hr : d.ran = rs :: ran) (e : Option DiskError) (b : Bool) :
    Sound p tt ((d.popped (.open c) ran { d.task with jobs := [] }).become
        ({ d.task with jobs := [] }.openDone e c b)) := by
  have hp : ∀ opened, Sound p tt (d.popped (.open c) ran
      { d.task with jobs := [], opening := false, opened }) := fun opened =>
    hs.pop hj hr rfl rfl rfl rfl rfl rfl (.inl ⟨rfl, by simp⟩)
  have hm : Job.open c ∈ d.task.jobs := hj ▸ mem_cons_self
  obtain ⟨_, _, he⟩ := hs.opening c hm
  rw [openDone.eq_def]
  dsimp only
  split
  · exact (hp d.task.opened).pass (quiesce_turn _) (quiesce_goesOn _) (by simp)
  cases e with
  | some e =>
    exact (hp d.task.opened).pass (finish_turn _ _) (finish_goesOn _ _) (by simp)
  | none =>
    dsimp only
    split
    · rename_i hc
      exact (hp true).checkAll rfl (he hc)
    · refine (hp true).pass (.trans ?_ (foldl_verifyFilled_turn _ _)) ?_ (by simp)
      · refine .trans ?_ (run_turn _ b)
        exact .of_still rfl rfl rfl rfl rfl (.inl rfl) rfl
      · apply GoesOn.of_ne
        rw [(foldl_verifyFilled _ _).1.phase]
        exact run_ne_checking _ b

/-- The part whose hash calls back is settled, and has the digest that came. -/
theorem hash_settled (hs : Sound p tt d) (hj : d.task.jobs = .hash i use :: r) (hn : n.jobs = r)
    (hi : i < d.task.parts.count) : Settled tt (d.popped (.hash i use) ran n) i := by
  rcases hv : d.task.parts.isVerified i with _ | _
  · exact hs.settled_hash hj hv hn
  · exact hs.settled_pop hj hn (hs.verified i hi hv).2.1

variable [DecidableEq D]

/-- A run starts, with the row of the store if it describes the file. -/
theorem start (hso : Sound p tt d) (hf : d.task.Followed) (du : Bool)
    (f : OpenFacts D) (hm : ∀ row ∈ d.stored, d.task.recordMatches f
      (if (Ed2kStore.loadDownload row).path = "" then f.defaultPath
        else (Ed2kStore.loadDownload row).path)
      (Ed2kStore.loadDownload row) = true) :
    Sound p tt (d.become (d.task.start du
      { f with record := d.stored.map Ed2kStore.loadDownload })) := by
  rw [start.eq_def]
  split
  · exact hso.still rfl rfl rfl rfl rfl rfl rfl
  rename_i hi
  rw [not_not] at hi
  have hj := hf.idle hi
  split
  · exact hso.still rfl rfl rfl rfl rfl rfl rfl
  have hne : ∀ {n : Ed2kTask D}, d.stored = none → n.link = d.task.link →
      n.pieceHashes = d.task.pieceHashes → n.phase ≠ .checking → n.unchecked = false →
      n.parts = Parts.ofSize d.task.link.size →
      (n.jobs = [] ∨ ∃ c, n.jobs = d.task.jobs ++ [.open c]) → Sound p tt (d.become n) := by
    intro n hs hl hh hph hu hp hn
    rw [hso.size_eq] at hp
    apply hso.opened hj (by rw [hl]) (by rw [hl]) (fun _ => hh) hph hu
    · rw [hp]
      exact Parts.ofSize_shaped tt
    · intro i _
      rw [hp, ofSize_isVerified, hs]
      simp
    · apply hn.imp_right
      rintro ⟨c, ho⟩
      rw [hj] at ho
      refine ⟨c, ho, fun _ x => ?_⟩
      rw [hp]
      exact RangeSet.not_mem_empty x
  have hlo : ∀ {n : Ed2kTask D} {row : Ed2kStore.DownloadRow D},
      d.stored = some row → n.link = d.task.link → n.pieceHashes = d.task.pieceHashes →
      n.phase = .opening → n.unchecked = false → n.parts = Parts.ofSize d.task.link.size →
      n.jobs = d.task.jobs →
      Sound p tt (d.become { (n.loadRecord (Ed2kStore.loadDownload row)).queue (.open false)
          with opening := true }) := by
    intro n row hs hl hh hph hu hp hn
    obtain ⟨hp', _, hs', hph', hj'⟩ := loadRecord_fields n (Ed2kStore.loadDownload row)
    obtain ⟨hha, hu', hh'⟩ := loadRecord_hashes n (Ed2kStore.loadDownload row)
    obtain ⟨hsh, hb⟩ := storedProgress_isVerified tt (Ed2kStore.loadDownload row)
    rw [hp, hso.size_eq] at hp'
    rw [← hp'] at hsh hb
    apply hso.opened hj
    · exact hs'.trans (by rw [hl])
    · exact hha.trans (by rw [hl])
    · intro hk
      refine (hh' ?_).trans hh
      rw [needsHashSet, hl, hh]
      exact hk
    · change (n.loadRecord _).phase ≠ _
      rw [hph', hph]
      decide
    · exact hu'.trans hu
    · exact hsh
    · intro i hin
      refine (hb i hin).trans ?_
      simp [hs]
    · refine .inr ⟨false, ?_, fun h => absurd h (by decide)⟩
      change (n.loadRecord _).jobs ++ _ = _
      rw [hj', hn, hj]
      rfl
  rw [open_]
  dsimp only
  rcases hs : d.stored with _ | row
  · simp only [Option.map_none, Option.filter_none]
    split_ifs
    · split
      · exact hne hs rfl rfl (by simp) rfl rfl (.inl hj)
      · exact hne hs rfl rfl (by simp [queue]) rfl rfl (.inr ⟨_, rfl⟩)
    · exact hne hs rfl rfl (by simp [queue]) rfl rfl (.inr ⟨_, rfl⟩)
  · have hma := hm row hs
    simp only [Option.map_some]
    rw [Option.filter_some, if_pos (by exact hma)]
    exact hlo hs rfl rfl rfl rfl rfl rfl

/-- All digests are there once no hash is outstanding. -/
theorem collected (hs : Sound p tt d) (hj : d.task.jobs = .hash i .collect :: r)
    (hr : d.ran = rs :: ran) {digest : D} (hdi : rs.digest = .ok digest) (hop : ∀ c, .open c ∉ r)
    (pe : Int) (hpe : d.task.phase = .checking → pe = 0 → ∀ i use, .hash i use ∉ r) (b : Bool) :
    Sound p tt ((d.popped (.hash i .collect) ran { d.task with jobs := r }).become
        ({ d.task with jobs := r, pendingHashes := pe }.collected i digest b)) := by
  have hpo : Sound p tt (d.popped (.hash i .collect) ran { d.task with
      jobs := r, pendingHashes := pe
      localHashes := d.task.localHashes.set i (some digest) }) :=
    hs.pop hj hr rfl rfl rfl rfl rfl rfl (.inr ⟨i, digest, rfl, hdi, rfl⟩)
  rw [Ed2kTask.collected]
  dsimp only
  split
  · rename_i hdo
    obtain ⟨hz, hp⟩ := hdo
    have hn := hs.collecting hp i (hj ▸ mem_cons_self)
    obtain ⟨he, hl, ha⟩ := hpo.checking hp hn
    have hf : ∀ e ∈ d.task.localHashes.set i (some digest), e ≠ none := by
      intro e hen hno
      obtain ⟨pl, hpl, rfl⟩ := mem_iff_getElem.mp hen
      rcases ha pl (hl ▸ hpl) with h | h
      · apply h
        rw [getD_eq_getElem?_getD, List.getElem?_eq_getElem hpl, hno]
        rfl
      · exact hpe hp hz pl .collect h
    refine hpo.become (allCollected_turn _ b hn hp hl hf he)
      (.of_ne (allCollected_phase _ b)) ?_ fun c h => absurd h (hop c)
    rintro o ho ⟨hk, hlo, hc⟩ _
    exact ⟨hk, hpo.kept ⟨hn, .inr hp⟩ o ho _ hlo hc⟩
  · exact hpo.still rfl rfl rfl rfl rfl rfl rfl

theorem hashDone (hs : Sound p tt d) (hf : d.task.Followed) (hj : d.task.jobs = .hash i use :: r)
    (hr : d.ran = rs :: ran) (hop : ∀ c, .open c ∉ r) (b : Bool) :
    Sound p tt ((d.popped (.hash i use) ran { d.task with jobs := r }).become
        ({ d.task with jobs := r }.hashDone i use rs.digest b)) := by
  have hdi := hs.ran 0 i use rs (by rw [hj]; rfl) (by rw [hr]; rfl)
  have hp : ∀ _ : (∀ o, .hash i use = Job.hash o .collect →
      d.task.phase ≠ .checking), Sound p tt (d.popped (.hash i use) ran
        { d.task with jobs := r, pendingHashes := d.task.pendingHashes - 1 }) := fun ho =>
    hs.pop hj hr rfl rfl rfl rfl rfl rfl (.inl ⟨rfl, ho⟩)
  have hse : i < d.task.parts.count → Settled tt (d.popped (.hash i use) ran
        { d.task with jobs := r, pendingHashes := d.task.pendingHashes - 1 }) i :=
    hs.hash_settled hj rfl
  rw [hashDone.eq_def, hdi]
  dsimp only
  split
  · rename_i hc
    refine (hp fun _ _ h => ?_).pass (quiesce_turn _) (quiesce_goesOn _) hop
    exact absurd (hc.symm.trans h) (by decide)
  rcases hs.uses i use (hj ▸ mem_cons_self) with
    rfl | ⟨hk, rfl | rfl⟩
  · refine hs.collected hj hr hdi hop _ ?_ b
    intro hph hz o use' hm
    have hco := hf.hashes_counted hph
    rw [hj, countP_cons_of_pos (by rfl)] at hco
    have hn : r.countP Job.isHash = 0 := by omega
    exact absurd (countP_eq_zero.mp hn _ hm) (by simp [Job.isHash])
  · refine (hp (by simp)).become (compared_turn _ i _ b hk)
      (compared_goesOn _ i _ b hk) ?_ fun c h => absurd h (hop c)
    rintro o ho ⟨rfl, hsa⟩ _
    have ht := compared_turn { d.task with
      jobs := r
      pendingHashes := d.task.pendingHashes - 1 } o
      (digestOf p tt d.file o = d.task.expected o) b hk
    refine ⟨ht.needs hk, hse ho, ?_⟩
    rw [ht.expected hk]
    exact of_decide_eq_true hsa
  · refine (hp (by simp)).become (partVerified_turn _ i _ b hk)
      (partVerified_goesOn _ i _ b) ?_ fun c h => absurd h (hop c)
    rintro o ho ⟨rfl, hsa⟩ _
    have ht := partVerified_turn { d.task with
      jobs := r
      pendingHashes := d.task.pendingHashes - 1 } o
      (digestOf p tt d.file o = d.task.expected o) b hk
    refine ⟨ht.needs hk, hse ho, ?_⟩
    rw [ht.expected hk]
    exact of_decide_eq_true hsa

theorem callBack (hs : Sound p tt d) (hf : d.task.Followed) (b : Bool) (m : Int) (pa : Bool) :
    Sound p tt (d.callBack b m pa) := by
  rw [Ed2kDownload.callBack]
  split
  case h_2 => exact hs
  rename_i job re r ran hj hr
  have ho : ∀ c, .open c ∉ re := by
    intro c hm
    have ha := hf.open_alone (hj ▸ mem_cons_of_mem job hm)
    rw [hj] at ha
    rw [(List.cons.inj ha).2] at hm
    exact absurd hm not_mem_nil
  have hp : (∀ i use, job ≠ .hash i use) → Sound p tt (d.popped job ran
        { d.task with jobs := re, pendingWrites := d.task.pendingWrites - 1 }) := fun hot =>
    hs.pop hj hr rfl rfl rfl rfl rfl rfl (.inl ⟨rfl, fun i h => absurd h (hot i _)⟩)
  dsimp only
  apply becomeSaved
  cases job with
  | «open» c =>
    have ha := hf.open_alone (hj ▸ mem_cons_self)
    obtain rfl : re = [] := by
      rw [hj] at ha
      exact (List.cons.inj ha).2
    exact hs.openDone hj hr r.error b
  | write be s =>
    rw [jobDone, writeDone.eq_def]
    dsimp only
    split
    · split
      · exact (hp (by simp)).pass (quiesce_turn _) (quiesce_goesOn _) ho
      · exact (hp (by simp)).pass (finish_turn _ _) (finish_goesOn _ _) ho
    · exact (hp (by simp)).pass (quiesce_turn _) (quiesce_goesOn _) ho
  | hash i use =>
    exact hs.hashDone hf hj hr ho b
  | sync =>
    exact (hp (by simp)).pass (quiesce_turn _) (quiesce_goesOn _) ho
  | close =>
    have hi : ∀ {n : Ed2kTask D}, n.parts = d.task.parts → n.link = d.task.link →
        n.pieceHashes = d.task.pieceHashes → n.unchecked = d.task.unchecked →
        n.localHashes = d.task.localHashes → n.phase = .idle → n.jobs = re →
        Sound p tt ((d.popped .close ran
          { d.task with jobs := re, pendingWrites := d.task.pendingWrites - 1 }).become n) := by
      intro n hpa hli hh hu hl hph hn
      have hne : n.phase ≠ .checking := by simp [hph]
      exact (hp (by simp)).pass (.of_still hpa hli hh hu hl (.inr hne) hn) (.of_ne hne) ho
    rw [jobDone, closeDone]
    dsimp only
    split
    · exact hi rfl rfl rfl rfl rfl rfl rfl
    · split <;> exact hi rfl rfl rfl rfl rfl rfl rfl

end Sound

variable [DecidableEq D] [DecidableEq O]

/-- The condition on a step: data that is taken touches no part that is
verified or has a hash outstanding, disk jobs succeed, and the file of a stored
row is the one the row describes. -/
def Undisturbed (download : Ed2kDownload D B O) : Event D B O → Prop
  | .start _ facts => ∀ row ∈ download.stored, download.task.recordMatches facts
        (if (Ed2kStore.loadDownload row).path = "" then facts.defaultPath
          else (Ed2kStore.loadDownload row).path)
        (Ed2kStore.loadDownload row) = true
  | .block owner begin stop _ _ _ =>
    (download.swarm.clients owner).downloading = true →
    Parts.claimed download.swarm.claims owner begin stop = true →
    ∀ index < download.task.parts.count,
      Touches download.task.link.size index (.write begin stop : Job D) →
      download.task.parts.isVerified index = false ∧
        ∀ job ∈ download.task.jobs, job.hashes ≠ some index
  | .work error fresh => error = none ∧ (download.stored.isSome = true → fresh.isNone = true)
  | _ => True

instance (download : Ed2kDownload D B O) :
    ∀ event : Event D B O, Decidable (download.Undisturbed event) := fun event => by
  unfold Undisturbed
  induction event using Event.casesOn <;> infer_instance

theorem step_sound (e : Event D B O) (hs : Sound p tt d) (hf : d.task.Followed)
    (hu : d.Undisturbed e) : Sound p tt (d.step p e) := by
  cases e with
  | start du facts =>
    exact hs.start hf du facts hu
  | stop =>
    rw [step, stop]
    split
    · exact hs.still rfl rfl rfl rfl rfl rfl rfl
    · have htu : Turn (fun _ => False) d.task ({ d.task with
              stopped := true, stopCalled := true, ending := true }.finish .stop) := by
        refine .trans ?_ (finish_turn _ _)
        exact .of_still rfl rfl rfl rfl rfl (.inl rfl) rfl
      exact hs.become htu (.of_ne (finish_ne_checking _ _))
        (fun _ _ h => absurd h id) fun _ _ => (finish_carries _ _).parts
  | accept owner partStatus ask =>
    rw [step]
    split
    · exact { hs with }
    · exact hs
  | leave owner => exact { hs with }
  | block owner begin stop size data ask =>
    rw [step, receiveBlock]
    split
    · exact hs
    rename_i hdo
    rw [Bool.not_eq_false] at hdo
    split
    · exact { hs with }
    split
    · exact hs
    rename_i hsi hc
    rw [Bool.not_eq_false] at hc
    have hn := hs.receive hf begin size
    have hst : begin + (size : Int) = stop := by omega
    rw [hst] at hn
    refine { hn ?_ with }
    intro i hi ht
    rw [← hs.size_eq] at ht
    obtain ⟨ho, hcl⟩ := hu hdo hc i hi ht
    exact ⟨ho, fun use hj => hcl _ hj rfl⟩
  | hashSet hashes enough modified pa =>
    apply Sound.becomeSaved
    rw [Ed2kTask.step]
    split
    · rename_i hp
      obtain ⟨htu, _⟩ := acceptHashSet_turn d.task hashes enough
      apply hs.become htu
      · apply GoesOn.of_ne
        rcases (acceptHashSet_accepts d.task hashes enough).phase with
          h | ⟨_, h | h⟩ <;> simp [h, hp]
      · rintro i hi ⟨hl, hk, hh, hcl⟩ _
        exact ⟨hk, hs.kept hl i hi _ hh hcl⟩
      · intro c hj
        exact absurd hj (hf.downloading hp c)
    · exact hs.still rfl rfl rfl rfl rfl rfl rfl
  | tick enough =>
    exact hs.become (evaluateSharing_turn d.task enough) (evaluateSharing_goesOn d.task enough)
      (fun _ _ h => absurd h id) fun _ _ => (evaluateSharing_carries d.task enough).parts
  | checkpoint modified pa =>
    rw [step, checkpoint]
    split
    · exact hs.save modified pa
    · exact hs
  | work error fresh =>
    obtain ⟨rfl, hfr⟩ := hu
    exact hs.work hf fresh hfr
  | callBack enough modified pa =>
    exact hs.callBack hf enough modified pa

omit [DecidableEq O] in
theorem create_sound (hashing : Hashing D) (l : Ed2kLink D) (file : Int → B) :
    Sound p l.size (create hashing l file : Ed2kDownload D B O) := by
  have hf : (Ed2kTask.create hashing l).parts = Parts.ofSize l.size ∧
      (Ed2kTask.create hashing l).link.size = l.size ∧
      (Ed2kTask.create hashing l).jobs = [] ∧ (Ed2kTask.create hashing l).phase = .idle ∧
      (Ed2kTask.create hashing l).unchecked = false := by
    rw [Ed2kTask.create]
    split <;> exact ⟨rfl, rfl, rfl, rfl, rfl⟩
  obtain ⟨hpa, hs, hj, hp, hu⟩ := hf
  have hn : ∀ job : Job D, job ∉ (Ed2kTask.create hashing l).jobs := by
    rw [hj]
    exact fun job => not_mem_nil
  constructor
  · exact ⟨suffix_nil.mpr hj, (pairwise_iff_forall_sublist.mpr fun h =>
      absurd (h.subset mem_cons_self) (hn _)), Nat.zero_le _, by simp [create]⟩
  all_goals dsimp only [create]
  · exact hs
  · rw [hpa]
    exact Parts.ofSize_shaped l.size
  · exact fun i use h => absurd h (hn _)
  · intro i _ h
    rw [hpa, ofSize_isVerified] at h
    exact absurd h (by decide)
  · rintro ⟨_, h | h⟩
    · exact absurd (hu.symm.trans h) (by decide)
    · exact absurd (hp.symm.trans h) (by decide)
  · exact fun h => absurd (hp.symm.trans h) (by decide)
  · exact fun h => absurd (hp.symm.trans h) (by decide)
  · intro row h
    simp at h
  · exact fun c h => absurd h (hn _)

theorem step_task_followed (e : Event D B O) (hf : d.task.Followed) :
    (d.step p e).task.Followed := by
  rcases step_task p d e with he | ⟨input, he⟩
  · rw [he]
    exact hf
  · rw [he]
    exact step_followed d.task input hf

/-- In every run in which no data is taken for a part that is verified or being
hashed, nothing is written to a verified part behind the hash job that verified
it, and the bytes of the part have the digest they must have. -/
theorem run_verified_parts_stay (partHash : PartHash B D) (hashing : Hashing D)
    (link : Ed2kLink D) (file : Int → B) (events : List (Event D B O))
    (hmeets : Meets (step partHash) Undisturbed (create hashing link file) events) :
    let download := Runs.run (step partHash) (create hashing link file) events
    let task := download.task
    ∀ index < task.parts.count, task.parts.isVerified index = true →
      (∃ left use right, download.log = left ++ .hash index use :: right ∧
        download.hashed index = some left.length ∧
        ∀ begin stop, .write begin stop ∈ right → stop ≤ (task.parts.part index).1 ∨
            (task.parts.part index).2 ≤ begin) ∧
      partHash (bytes download.file (task.parts.part index)) = task.expected index := by
  intro download task index hindex hverified
  have hstep : ∀ (download : Ed2kDownload D B O) (event : Event D B O),
      Sound partHash link.size download ∧ download.task.Followed → download.Undisturbed event →
      Sound partHash link.size (download.step partHash event) ∧
        (download.step partHash event).task.Followed :=
    fun _ event h hundisturbed => ⟨step_sound event h.1 h.2 hundisturbed,
      step_task_followed event h.2⟩
  obtain ⟨hsound, _⟩ := run_invariant hstep
    ⟨create_sound hashing link file, create_followed hashing link⟩ hmeets
  obtain ⟨_, ⟨left, use, right, hlog, hhashed, _, hclear⟩, hdigest⟩ :=
    hsound.verified index hindex hverified
  have hpart : task.parts.part index = partRange link.size index := by
    rw [Parts.part, hsound.shaped.size_eq, partRange]
  rw [hpart]
  refine ⟨⟨left, use, right, hlog, hhashed, fun begin stop hmem => ?_⟩, hdigest⟩
  have hout := hclear _ hmem
  rw [Touches] at hout
  omega

/-- A part hash for the runs below: the first byte. -/
def firstByte : PartHash Nat Nat := fun bytes => bytes.headD 0

/-- The strand runs the next `count` jobs, and each calls back. -/
def runJobs (count : Nat) : List (Event Nat Nat Bool) := (List.range count).flatMap fun _ =>
    [.work none none, .callBack false 0 true]

/-- Client `owner` sends the second part, which is one byte long. -/
def sendLast (owner : Bool) (byte : Nat) : Event Nat Nat Bool :=
  .block owner pieceLength (pieceLength + 1) 1 (fun _ => byte) {}

/-- Two clients claim the second part, the other one five seconds later, and
the first sends it. -/
def endgame : List (Event Nat Nat Bool) := [.start false newFile] ++ runJobs 1 ++
    [.accept true [false, true] {},
      .accept false [false, true] { now := 6000 }, sendLast true 1] ++ runJobs 2

/-- The first client alone: the part is verified, and its byte is on disk. -/
theorem run_verified_parts_stay_endgame :
    let download := Runs.run (step firstByte)
      (create plainHashing ⟨7, pieceLength + 1, [3, 1]⟩ fun _ => 0) endgame
    download.task.parts.isVerified 1 = true ∧
      firstByte (bytes download.file (download.task.parts.part 1)) = download.task.expected 1 := by
  intro download
  have hverified : download.task.parts.isVerified 1 = true := by
    decide +kernel
  exact ⟨hverified, (run_verified_parts_stay firstByte plainHashing
    ⟨7, pieceLength + 1, [3, 1]⟩ (fun _ => 0) endgame (by decide +kernel) 1
    (by decide +kernel) hverified).2⟩

/-- The other client still has its claim, and what it sends is written to the
verified part: no job is left, and the digest is wrong. -/
theorem verified_part_is_overwritten :
    let download := Runs.run (step firstByte)
      (create plainHashing ⟨7, pieceLength + 1, [3, 1]⟩ fun _ => 0)
      (endgame ++ [sendLast false 2] ++ runJobs 1)
    download.task.phase = .downloading ∧
      download.task.parts.isVerified 1 = true ∧ download.task.jobs = [] ∧
      download.hashed 1 = some 2 ∧
      download.log = [.open false, .write pieceLength (pieceLength + 1),
        .hash 1 (.verify 1), .write pieceLength (pieceLength + 1)] ∧ download.task.expected 1 = 1 ∧
      firstByte (bytes download.file (download.task.parts.part 1)) = 2 := by
  decide +kernel

end Ed2kDownload

end Aria2Next
