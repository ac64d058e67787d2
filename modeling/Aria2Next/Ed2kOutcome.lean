/-
How a run of an ED2K task ends.  While the task closes, a disk job is
outstanding whose callback goes on closing, so a run that is asked to end
does end and is reported once; an error while the file opens is the
exception, after which nothing is outstanding and nothing is reported.
-/
import Aria2Next.Ed2kTask

namespace Aria2Next.Ed2kTask

open Runs List

universe u

variable {D : Type u}

/-- A job the task counts in `pendingWrites_`. -/
def Job.isWrite : Job D → Bool
  | .write _ _ | .sync | .close => true
  | .open _ | .hash _ _ => false

def Job.isHash : Job D → Bool
  | .hash _ _ => true
  | .open _ | .write _ _ | .sync | .close => false

/-- A job other than opening and closing the file. -/
def Job.IsWork : Job D → Prop
  | .write _ _ | .hash _ _ | .sync => True
  | .open _ | .close => False

/-- The fields that decide how a run ends. -/
structure Control (D : Type u) where
  phase : Phase
  outcome : Outcome
  stopped : Bool
  pendingWrites : Int
  pendingHashes : Int
  jobs : List (Job D)
  reports : List Report
  stopCalled : Bool
  ending : Bool

def control (task : Ed2kTask D) : Control D :=
  { phase := task.phase, outcome := task.outcome, stopped := task.stopped,
    pendingWrites := task.pendingWrites, pendingHashes := task.pendingHashes,
    jobs := task.jobs, reports := task.reports, stopCalled := task.stopCalled,
    ending := task.ending }

namespace Control

/-- Nobody asked the run to end. -/
structure Running (control : Control D) : Prop where
  stopped : control.stopped = false
  stopCalled : control.stopCalled = false
  reports : control.reports = []
  ending : control.ending = false

/-- The run was asked to end and is not reported yet; without a stop call the
outcome tells what to report. -/
structure Ending (control : Control D) : Prop where
  reports : control.reports = []
  ending : control.ending = true
  stopped : control.stopped = control.stopCalled
  outcome : control.stopCalled = false → control.outcome ≠ .stop

/-- The run was reported once: by the callback of `stop` if it was called,
otherwise by `complete()` or `failed()`. -/
def Reported (control : Control D) : Prop := ∃ report, control.reports = [report] ∧
    (report = .stopped ↔ control.stopCalled = true)

/-- Every outstanding job is counted. -/
structure Counted (control : Control D) : Prop where
  writes : control.pendingWrites = control.jobs.countP Job.isWrite
  hashes : control.pendingHashes = control.jobs.countP Job.isHash

/-- The file is open and its jobs are work on it. -/
structure Work (control : Control D) : Prop where
  open_ : control.phase ≠ .idle ∧ control.phase ≠ .opening
  work : ∀ job ∈ control.jobs, job.IsWork
  counted : control.Counted
  running : control.phase ≠ .closing → control.Running
  ending : control.phase = .closing → control.Ending

/-- Work is left while the task closes. -/
structure Busy (control : Control D) : Prop extends Work control where
  jobs_ne_nil : control.phase = .closing → control.jobs ≠ []

/-- The states of a run. -/
inductive Tracked (control : Control D) : Prop
  | idle (hphase : control.phase = .idle) (hjobs : control.jobs = [])
      (hcounted : control.Counted) (hstopped : control.stopped = false)
      (hreported : control.ending = true → control.Reported)
  | opening {check : Bool} (hphase : control.phase = .opening)
      (hjobs : control.jobs = [.open check]) (hcounted : control.Counted)
      (hrunning : control.Running)
  | aborted {check : Bool} (hphase : control.phase = .closing)
      (hjobs : control.jobs = [.open check]) (hcounted : control.Counted)
      (hending : control.Ending)
  | busy (hbusy : control.Busy)
  | close (hphase : control.phase = .closing)
      (hjobs : control.jobs = [.close]) (hcounted : control.Counted)
      (hending : control.Ending)

variable {c : Control D}

theorem Work.busy (hw : c.Work) (hp : c.phase ≠ .closing) : c.Busy :=
  { hw with jobs_ne_nil := fun h => absurd h hp }

/-- Without counted jobs no work is left. -/
theorem Work.jobs_eq_nil (hwo : c.Work) (hw : ¬ c.pendingWrites > 0) (hh : ¬ c.pendingHashes > 0) :
    c.jobs = [] := by
  rw [hwo.counted.writes] at hw
  rw [hwo.counted.hashes] at hh
  cases hj : c.jobs with
  | nil => rfl
  | cons job r =>
    have hjo := hwo.work job (hj ▸ mem_cons_self)
    rw [hj] at hw hh
    cases job with
    | write | sync => simp [Job.isWrite] at hw
    | hash i use => simp [Job.isHash] at hh
    | _ => exact absurd hjo id

end Control

open Control

section

variable (t : Ed2kTask D)

/-- Closing waits for work that is left. -/
theorem quiesce_eq_self (hw : t.control.Work) (hj : t.jobs ≠ []) : t.quiesce = t := by
  rw [quiesce, if_pos]
  by_contra hi
  simp only [not_or] at hi
  exact hj (hw.jobs_eq_nil hi.2.1 hi.2.2)

theorem quiesce_tracked (hw : t.control.Work) : t.quiesce.control.Tracked := by
  by_cases hj : t.jobs = []
  · have hwr := hw.counted.writes
    have hh := hw.counted.hashes
    simp only [control, hj, countP_nil] at hwr hh
    by_cases hp : t.phase = .closing
    · have he := hw.ending hp
      have hc : t.quiesce = { t.queue .close with pendingWrites := t.pendingWrites + 1 } := by
        simp [quiesce, hp, hwr, hh]
      rw [hc]
      refine .close hp ?_ ⟨?_, ?_⟩ ⟨he.reports, he.ending, he.stopped, he.outcome⟩
      · simp [control, queue, hj]
      · simp [control, queue, hj, Job.isWrite, hwr]
      · simp [control, queue, hj, Job.isHash, hh]
    · have hs : t.quiesce = t := by simp [quiesce, hp]
      rw [hs]
      exact .busy (hw.busy hp)
  · rw [quiesce_eq_self t hw hj]
    exact .busy { hw with jobs_ne_nil := fun _ => hj }

/-- A run that is under way is asked to end. -/
theorem ended_work {outcome : Outcome} (hw : t.control.Work) (hp : t.phase ≠ .closing)
    (hs : outcome ≠ .stop) :
    { t with outcome, phase := .closing, ending := true }.control.Work := by
  have hr := hw.running hp
  refine ⟨by simp [control], hw.work, ⟨hw.counted.writes, hw.counted.hashes⟩, fun h => absurd rfl h,
    fun _ => ⟨hr.reports, rfl, ?_, fun _ => hs⟩⟩
  exact hr.stopped.trans hr.stopCalled.symm

theorem finish_eq (outcome : Outcome) (hw : t.control.Work) (hp : t.phase ≠ .closing) :
    t.finish outcome = { t with outcome, phase := .closing, ending := true }.quiesce := by
  have hi : t.phase ≠ .idle := hw.open_.1
  have ho : t.phase ≠ .opening := hw.open_.2
  simp only [finish, hp, hi, ho, ↓reduceIte]

theorem finish_tracked (o : Outcome) (hw : t.control.Work) (hp : t.phase ≠ .closing)
    (hs : o ≠ .stop) : (t.finish o).control.Tracked := by
  rw [finish_eq t o hw hp]
  exact quiesce_tracked _ (ended_work t hw hp hs)

/-- A run that ends with work left goes on with that work. -/
theorem finish_busy (o : Outcome) (hw : t.control.Work) (hp : t.phase ≠ .closing) (hs : o ≠ .stop)
    (hj : t.jobs ≠ []) : (t.finish o).control.Busy := by
  have he := ended_work t hw hp hs
  rw [finish_eq t o hw hp, quiesce_eq_self _ he hj]
  exact { he with jobs_ne_nil := fun _ => hj }

/-- Queueing a job of work. -/
theorem Control.Work.queued {c : Control D} (hw : c.Work) {job : Job D} (hj : job.IsWork)
    {phase : Phase} (hop : phase ≠ .idle ∧ phase ≠ .opening)
    (hp : phase = .closing ↔ c.phase = .closing) {w hashes : Int}
    (hwr : w = c.pendingWrites + [job].countP Job.isWrite)
    (hh : hashes = c.pendingHashes + [job].countP Job.isHash) :
    Work { c with
      phase
      jobs := c.jobs ++ [job]
      pendingWrites := w
      pendingHashes := hashes } := by
  refine ⟨hop, ?_, ⟨?_, ?_⟩, fun hne => ?_, fun heq => ?_⟩
  · intro o ho
    rcases mem_append.mp ho with hold | hn
    · exact hw.work o hold
    · rw [mem_singleton.mp hn]
      exact hj
  · rw [hwr, hw.counted.writes, countP_append, Int.natCast_add]
  · rw [hh, hw.counted.hashes, countP_append, Int.natCast_add]
  · have hr := hw.running (fun h => hne (hp.mpr h))
    exact ⟨hr.stopped, hr.stopCalled, hr.reports, hr.ending⟩
  · have he := hw.ending (hp.mp heq)
    exact ⟨he.reports, he.ending, he.stopped, he.outcome⟩

theorem digestPart_busy (i : Nat) (use : HashUse D) (hw : t.control.Work) :
    (t.digestPart i use).control.Busy := by
  have hjo : (Job.hash i use).IsWork := trivial
  have hq := hw.queued hjo hw.open_ Iff.rfl (Int.add_zero _).symm rfl
  have hj : t.jobs ++ [.hash i use] ≠ [] := by simp
  exact { hq with jobs_ne_nil := fun _ => hj }

theorem verifyFilled_busy (i : Nat) (hb : t.control.Busy) :
    (t.verifyFilled i).control.Busy ∧ (t.verifyFilled i).phase = t.phase := by
  rw [verifyFilled]
  split_ifs
  · exact ⟨hb, rfl⟩
  · exact ⟨hb, rfl⟩
  · exact ⟨digestPart_busy t i _ hb.toWork, rfl⟩

theorem foldl_verifyFilled_busy (l : List Nat) (t : Ed2kTask D) (hb : t.control.Busy) :
    (l.foldl verifyFilled t).control.Busy ∧ (l.foldl verifyFilled t).phase = t.phase := by
  induction l generalizing t with
  | nil => exact ⟨hb, rfl⟩
  | cons i r ih =>
    obtain ⟨hf, hs⟩ := verifyFilled_busy t i hb
    obtain ⟨hr, hp⟩ := ih (t.verifyFilled i) hf
    exact ⟨hr, hp.trans hs⟩

/-- A complete download is synced and shared, or ends at once. -/
theorem downloaded_busy (b : Bool) (hw : t.control.Work) (hp : t.phase ≠ .closing) :
    (t.downloaded b).control.Busy := by
  have hs : (.sync : Job D).IsWork := trivial
  have ho : Phase.sharing ≠ .idle ∧ Phase.sharing ≠ .opening := by decide
  have hc : Phase.sharing = .closing ↔ t.control.phase = .closing :=
    ⟨fun h => by contradiction, fun h => absurd h hp⟩
  have hq := hw.queued hs ho hc rfl (Int.add_zero _).symm
  have hj : t.jobs ++ [.sync] ≠ [] := by simp
  rw [downloaded, evaluateSharing]
  split_ifs
  · exact finish_busy _ .complete hq (by simp) (by simp) hj
  · exact hq.busy (by simp)

theorem run_busy (b : Bool) (hw : t.control.Work) (hp : t.phase ≠ .closing) :
    (t.run b).control.Busy := by
  rw [run]
  split_ifs
  · exact downloaded_busy { t with announced := true } b hw hp
  · have hr := hw.running hp
    refine Work.busy ⟨by simp [control], hw.work, ⟨hw.counted.writes, hw.counted.hashes⟩, fun _ =>
        ⟨hr.stopped, hr.stopCalled, hr.reports, hr.ending⟩, fun h => ?_⟩ ?_
    · simp [control] at h
    · simp [control]

end

section Digests

variable [DecidableEq D]

theorem acceptHashSet_busy (t : Ed2kTask D) (hashes : List D) (b : Bool) (hb : t.control.Busy) :
    (t.acceptHashSet hashes b).2.control.Busy ∧ (t.phase ≠ .downloading →
        (t.acceptHashSet hashes b).2.phase = t.phase) := by
  rw [acceptHashSet]
  by_cases hn : t.needsHashSet = false
  · rw [if_pos hn]
    exact ⟨hb, fun _ => rfl⟩
  rw [if_neg hn]
  by_cases hba : hashes.length ≠ hashSetPartCount t.link.size ∨
      t.hashing.rootHash hashes ≠ t.link.hash
  · rw [if_pos hba]
    exact ⟨hb, fun _ => rfl⟩
  obtain ⟨hf, hp⟩ := foldl_verifyFilled_busy t.waitingForHashSet
    { t with
      pieceHashes := hashes
      link := { t.link with pieceHashes := hashes }
      waitingForHashSet := [] } hb
  dsimp only
  split_ifs with hu hc
  · refine ⟨downloaded_busy _ b hf.toWork ?_, fun hne => ?_⟩
    · rw [hc.2]
      decide
    · exact absurd (hp.symm.trans hc.2) hne
  · exact ⟨hf, fun _ => hp⟩
  · exact ⟨hf, fun _ => hp⟩

/-- The last digest of an existing file starts the download. -/
theorem allCollected_busy (t : Ed2kTask D) (b : Bool) (hb : t.control.Busy)
    (hp : t.phase = .checking) : (t.allCollected b).control.Busy := by
  rw [allCollected]
  generalize (if (t.localHashes.filterMap id).length <
    hashSetPartCount t.link.size then _ else _ : List D) = hashes
  obtain ⟨ha, hs⟩ := acceptHashSet_busy t hashes b hb
  have ho : (t.acceptHashSet hashes b).2.phase ≠ .closing := by
    rw [hs (by rw [hp]; decide), hp]
    decide
  generalize t.acceptHashSet hashes b = r at ha ho ⊢
  obtain ⟨a, next⟩ := r
  cases a with
  | true => exact run_busy { next with parts := _ } b ha.toWork ho
  | false =>
    exact run_busy { next with unchecked := true } b ha.toWork ho

theorem collected_busy (t : Ed2kTask D) (i : Nat) (d : D) (b : Bool) (hb : t.control.Busy) :
    (t.collected i d b).control.Busy := by
  rw [collected]
  split_ifs with hl
  · exact allCollected_busy { t with localHashes := _ } b hb hl.2
  · exact hb

end Digests

section

variable (t : Ed2kTask D)

theorem partVerified_busy (i : Nat) (ok b : Bool) (hb : t.control.Busy) :
    (t.partVerified i ok b).control.Busy := by
  rw [partVerified]
  split_ifs with hs
  · exact hb
  · exact hb
  · simp only [not_or, ne_eq, Decidable.not_not] at hs
    dsimp only
    split_ifs
    · refine downloaded_busy { t with parts := t.parts.verify i } b hb.toWork ?_
      rw [hs.1]
      decide
    · exact hb

theorem compared_busy (i : Nat) (ok b : Bool) (hb : t.control.Busy) :
    (t.compared i ok b).control.Busy := by
  have hk : ∀ t : Ed2kTask D, t.control.Busy → (if t.pendingHashes = 0 ∧ t.phase = .checking
        then t.run b else t).control.Busy := by
    intro t hb
    split_ifs with hl
    · refine run_busy t b hb.toWork ?_
      rw [hl.2]
      decide
    · exact hb
  cases ok with
  | true => exact hk { t with parts := t.parts.verify i } hb
  | false => exact hk t hb

variable {control c : Control D} {job : Job D}

/-- A job of work calls back and is no longer outstanding. -/
theorem Control.Work.erased [DecidableEq D] (hw : c.Work) (hm : job ∈ c.jobs)
    {w hashes : Int} (hwr : w = c.pendingWrites - [job].countP Job.isWrite)
    (hh : hashes = c.pendingHashes - [job].countP Job.isHash) : Work { c with
      jobs := c.jobs.erase job
      pendingWrites := w
      pendingHashes := hashes } := by
  have hp := perm_cons_erase hm
  refine ⟨hw.open_, fun o ho =>
    hw.work o (mem_of_mem_erase ho), ⟨?_, ?_⟩,
    fun hn => ?_, fun heq => ?_⟩
  · have hc := hp.countP_eq Job.isWrite
    rw [countP_cons] at hc
    rw [hwr, hw.counted.writes, countP_singleton]
    dsimp only
    omega
  · have hc := hp.countP_eq Job.isHash
    rw [countP_cons] at hc
    rw [hh, hw.counted.hashes, countP_singleton]
    dsimp only
    omega
  · have hr := hw.running hn
    exact ⟨hr.stopped, hr.stopCalled, hr.reports, hr.ending⟩
  · have he := hw.ending heq
    exact ⟨he.reports, he.ending, he.stopped, he.outcome⟩

/-- Only a busy task has work outstanding. -/
theorem Control.Tracked.busy_of_mem (ht : c.Tracked) (hm : job ∈ c.jobs) (hjo : job.IsWork) :
    c.Busy := by
  cases ht with
  | idle _ hj =>
    rw [hj] at hm
    contradiction
  | opening _ hj | aborted _ hj | close _ hj =>
    rw [hj, mem_singleton] at hm
    subst hm
    exact hjo.elim
  | busy hb => exact hb

theorem writeDone_tracked (e : Option DiskError) (hw : Work { t.control with
      pendingWrites := t.pendingWrites - 1 }) : (t.writeDone e).control.Tracked := by
  cases e with
  | none => exact quiesce_tracked { t with pendingWrites := _ } hw
  | some e =>
    rw [writeDone]
    by_cases hp : t.phase = .closing
    · rw [if_pos hp]
      exact quiesce_tracked { t with pendingWrites := _ } hw
    · rw [if_neg hp]
      exact finish_tracked { t with pendingWrites := _ } _ hw hp (by simp)

theorem hashDone_tracked [DecidableEq D] (t : Ed2kTask D) (i : Nat)
    (use : HashUse D) (d : Except DiskError D) (b : Bool) (hw : Work { t.control with
      pendingHashes := t.pendingHashes - 1 }) : (t.hashDone i use d b).control.Tracked := by
  rw [hashDone.eq_def]
  by_cases hp : t.phase = .closing
  · rw [if_pos hp]
    exact quiesce_tracked { t with pendingHashes := _ } hw
  · rw [if_neg hp]
    have hb := hw.busy hp
    cases d with
    | error error =>
      exact finish_tracked { t with pendingHashes := _ } _ hw hp (by simp)
    | ok d =>
      cases use with
      | collect =>
        exact .busy (collected_busy { t with pendingHashes := _ } i d b hb)
      | check e =>
        exact .busy (compared_busy { t with pendingHashes := _ } i _ b hb)
      | verify e =>
        exact .busy (partVerified_busy { t with pendingHashes := _ } i _ b hb)

/-- The run is reported when the file is closed. -/
theorem closeDone_tracked (hj : t.jobs = []) (hw : t.pendingWrites = 1) (hh : t.pendingHashes = 0)
    (he : t.control.Ending) : t.closeDone.control.Tracked := by
  have hre : t.reports = [] := he.reports
  have hc : t.stopped = t.stopCalled := he.stopped
  have hr : ∀ report, (report = .stopped ↔ t.stopCalled = true) → Tracked { t.control with
        pendingWrites := t.pendingWrites - 1
        phase := .idle
        stopped := false
        reports := t.reports ++ [report] } := by
    intro report hrep
    refine .idle rfl hj ⟨?_, ?_⟩ rfl fun _ => ⟨report, ?_, hrep⟩
    · simp [control, hj, hw]
    · simp [control, hj, hh]
    · simp [hre]
  rw [closeDone]
  dsimp only
  split_ifs with hs
  · exact hr .stopped (by simp [← hc, hs])
  · have hn : t.stopCalled = false := by
      rw [← hc]
      simpa using hs
    have hf : t.stopped = false := hc.trans hn
    cases ho : t.outcome with
    | stop => exact absurd ho (he.outcome hn)
    | complete =>
      have hdo := hr .complete (by simp [hn])
      rw [← hf] at hdo
      simpa [control, report, ho] using hdo
    | fail c m =>
      have hdo := hr (.failed c m) (by simp [hn])
      rw [← hf] at hdo
      simpa [control, report, ho] using hdo

theorem run_phase (phase : Phase) (b : Bool) : { t with phase }.run b = t.run b := by
  simp only [run, downloaded, queue]

theorem foldl_digestPart_busy (use : Ed2kTask D → Nat → HashUse D) (l : List Nat) (t : Ed2kTask D)
    (hb : t.control.Busy) : (l.foldl (fun t i => t.digestPart i (use t i)) t).control.Busy := by
  induction l generalizing t with
  | nil => exact hb
  | cons i r ih => exact ih _ (digestPart_busy t i _ hb.toWork)

theorem checkAll_busy (hw : { t with phase := .checking }.control.Work) :
    t.checkAll.control.Busy := by
  have hb := hw.busy (by simp [control])
  rw [checkAll]
  split_ifs
  · exact foldl_digestPart_busy (fun _ _ => .collect) _ { t with
      phase := .checking
      localHashes := List.replicate t.parts.count none } hb
  · exact foldl_digestPart_busy (fun t i =>
      .check (t.expected i)) _ { t with phase := .checking } hb

/-- A file that opens without an error is checked or downloaded. -/
theorem openDone_busy (c b : Bool) (hp : t.phase = .opening)
    (hw : { t with phase := .checking }.control.Work) : (t.openDone none c b).control.Busy := by
  rw [openDone, if_neg (fun h => h hp)]
  split_ifs
  · exact checkAll_busy { t with opening := false, opened := true } hw
  · refine (foldl_verifyFilled_busy _ _ ?_).1
    rw [← run_phase _ .checking]
    exact run_busy _ b hw (by simp)

theorem loadRecord_control [DecidableEq D] (t : Ed2kTask D) (r : DownloadRecord D) :
    (t.loadRecord r).control = t.control := by
  rw [loadRecord]
  cases r.pieceHashes with
  | none => rfl
  | some g =>
    dsimp only
    split_ifs <;> rfl

theorem open_tracked [DecidableEq D] (t : Ed2kTask D) (f : OpenFacts D) (hj : t.jobs = [])
    (hc : t.control.Counted) (hr : t.control.Running) : (t.open_ f).control.Tracked := by
  have hq : ∀ (next : Ed2kTask D) (c : Bool), next.control = { t.control with phase := .opening } →
      Tracked { next.queue (.open c) with opening := true }.control := by
    intro next c hn
    have ho : { next.queue (.open c) with opening := true }.control =
        { next.control with jobs := next.control.jobs ++ [.open c] } := rfl
    rw [ho, hn]
    have hqu : t.jobs ++ [.open c] = [.open c] := by simp [hj]
    refine .opening rfl hqu ⟨?_, ?_⟩ ⟨hr.stopped, hr.stopCalled, hr.reports, hr.ending⟩
    · simpa [control, hj, Job.isWrite] using hc.writes
    · simpa [control, hj, Job.isHash] using hc.hashes
  rw [open_]
  split
  · exact hq _ false (loadRecord_control _ _)
  · split_ifs
    · split
      next co m _ =>
        have hre : t.reports ++ [.failed co m] = [.failed co m] := by
          rw [show t.reports = [] from hr.reports, nil_append]
        have hno : t.stopCalled = false := hr.stopCalled
        refine .idle rfl hj ⟨hc.writes, hc.hashes⟩ hr.stopped fun _ => ⟨_, hre, ?_⟩
        simp [control, report, hno]
      next => exact hq _ _ rfl
    · exact hq _ _ rfl

theorem start_tracked [DecidableEq D] (t : Ed2kTask D) (d : Bool) (f : OpenFacts D)
    (ht : t.control.Tracked) : (t.start d f).control.Tracked := by
  rw [start]
  by_cases hp : t.phase ≠ .idle
  · rw [if_pos hp]
    exact ht
  cases ht with
  | idle _ hj hc hs _ =>
    split_ifs
    · refine .idle (not_not.mp hp) hj ⟨hc.writes, hc.hashes⟩ hs fun _ =>
          ⟨_, nil_append _, ?_⟩
      simp [control, report]
    · exact open_tracked _ f hj ⟨hc.writes, hc.hashes⟩ ⟨hs, rfl, rfl, rfl⟩
  | opening | aborted | close => exact absurd (fun h => by simp_all [control]) hp
  | busy hb => exact absurd hb.open_.1 hp

theorem stopped_ending (hr : c.reports = []) {outcome : Outcome} {phase : Phase} :
    Ending { c with outcome, phase, stopped := true, stopCalled := true, ending := true } :=
  ⟨hr, rfl, rfl, fun h => absurd h (by simp)⟩

/-- A stop while the run ends only joins in. -/
theorem stop_closing (hp : t.phase = .closing) :
    t.stop = { t with stopped := true, stopCalled := true, ending := true } := by
  simp [stop, finish, hp]

theorem stop_tracked (ht : t.control.Tracked) : t.stop.control.Tracked := by
  cases ht with
  | idle hp hj hc hst hr =>
    have hi : t.phase = .idle := hp
    rw [stop, if_pos hi]
    exact .idle hp hj hc hst hr
  | opening hp hj hc hru =>
    have ho : t.phase = .opening := hp
    have hs : t.stop = { t with
        stopped := true
        stopCalled := true
        ending := true
        outcome := .stop
        phase := .closing } := by
      simp [stop, finish, ho]
    rw [hs]
    exact .aborted rfl hj ⟨hc.writes, hc.hashes⟩ (stopped_ending hru.reports)
  | aborted hp hj hc he =>
    rw [stop_closing t hp]
    exact .aborted hp hj ⟨hc.writes, hc.hashes⟩ (stopped_ending he.reports)
  | close hp hj hc he =>
    rw [stop_closing t hp]
    exact .close hp hj ⟨hc.writes, hc.hashes⟩ (stopped_ending he.reports)
  | busy hb =>
    by_cases hp : t.phase = .closing
    · rw [stop_closing t hp]
      exact .busy ⟨⟨hb.open_, hb.work, ⟨hb.counted.writes, hb.counted.hashes⟩,
        fun hn => absurd hp hn, fun heq =>
          stopped_ending (hb.ending heq).reports⟩, hb.jobs_ne_nil⟩
    · have hi : t.phase ≠ .idle := hb.open_.1
      have ho : t.phase ≠ .opening := hb.open_.2
      have hs : t.stop = { t with
          stopped := true
          stopCalled := true
          ending := true
          outcome := .stop
          phase := .closing }.quiesce := by
        simp [stop, finish, hi, ho, hp]
      rw [hs]
      exact quiesce_tracked _ ⟨by simp [control], hb.work, ⟨hb.counted.writes, hb.counted.hashes⟩,
        fun hn => absurd rfl hn, fun _ =>
          stopped_ending (hb.running hp).reports⟩

theorem Control.Tracked.busy_of_phase (ht : c.Tracked) (hi : c.phase ≠ .idle)
    (ho : c.phase ≠ .opening) (hc : c.phase ≠ .closing) : c.Busy := by
  cases ht with
  | idle hp => exact absurd hp hi
  | opening hp => exact absurd hp ho
  | aborted hp | close hp => exact absurd hp hc
  | busy hb => exact hb

theorem Control.Tracked.busy_of_downloading (ht : c.Tracked) (hp : c.phase = .downloading) :
    c.Busy := by
  apply ht.busy_of_phase <;> simp [hp]

theorem receive_tracked (b s : Int) (ht : t.control.Tracked) : (t.receive b s).control.Tracked := by
  rw [receive]
  by_cases hs : t.phase ≠ .downloading ∨ s ≤ 0 ∨ b < 0 ∨ b ≥ min (b + s) t.link.size
  · rw [if_pos hs]
    exact ht
  rw [if_neg hs]
  have hp : t.phase = .downloading := by
    by_contra hn
    exact hs (.inl hn)
  have hb := ht.busy_of_downloading hp
  have hw : (.write b (min (b + s) t.link.size) : Job D).IsWork := trivial
  have hq := (hb.queued hw hb.open_ Iff.rfl rfl (Int.add_zero _).symm).busy (by simp [control, hp])
  cases ha : t.parts.add b (min (b + s) t.link.size) with
  | mk f ps =>
    cases f with
    | none => exact .busy hq
    | some i =>
      exact .busy (verifyFilled_busy _ i hq).1

theorem evaluateSharing_tracked (b : Bool) (ht : t.control.Tracked) :
    (t.evaluateSharing b).control.Tracked := by
  rw [evaluateSharing]
  split_ifs with hs
  · have hp : t.control.phase = .sharing := hs.1
    have hb : t.control.Busy := by
      apply ht.busy_of_phase <;> simp [hp]
    exact finish_tracked t .complete hb.toWork (by simp [hs.1]) (by simp)
  · exact ht

end

variable {control c : Control D}

theorem Control.Tracked.jobs_ne_nil (ht : c.Tracked) (hp : c.phase = .closing) : c.jobs ≠ [] := by
  cases ht with
  | idle hi => simp [hi] at hp
  | opening ho => simp [ho] at hp
  | aborted _ hj | close _ hj => simp [hj]
  | busy hb => exact hb.jobs_ne_nil hp

/-- A run that was asked to end and has no job left is over. -/
theorem Control.Tracked.over (ht : c.Tracked) (hj : c.jobs = []) (he : c.ending = true) :
    c.phase = .idle ∧ c.Reported := by
  cases ht with
  | idle hp _ _ _ hr => exact ⟨hp, hr he⟩
  | opening _ ho | aborted _ ho => simp [ho] at hj
  | busy hb =>
    by_cases hp : c.phase = .closing
    · exact absurd hj (hb.jobs_ne_nil hp)
    · simp [(hb.running hp).ending] at he
  | close _ hc => simp [hc] at hj

variable [DecidableEq D]

/-- The condition on a step: a file whose opening nobody stopped opens
without an error. -/
def OpensCleanly (task : Ed2kTask D) : Input D → Prop
  | .jobDone (.open _) result => task.phase = .opening → result.error = none
  | _ => True

instance (task : Ed2kTask D) : ∀ input : Input D, Decidable (task.OpensCleanly input) := fun input => by
  unfold OpensCleanly
  split <;> infer_instance

section

variable (task t : Ed2kTask D)

/-- The job that opens the file calls back. -/
theorem open_jobDone_tracked (c : Bool) (r : JobResult D) (ht : t.control.Tracked)
    (hm : .open c ∈ t.jobs) (hcle : t.phase = .opening → r.error = none) :
    ({ t with jobs := t.jobs.erase (.open c) }.openDone r.error c r.enough).control.Tracked := by
  cases ht with
  | idle _ hj =>
    rw [show t.jobs = [] from hj] at hm
    contradiction
  | opening hp hj hc hr =>
    have hl : t.jobs = [.open _] := hj
    have hw : t.pendingWrites = _ := hc.writes
    have hh : t.pendingHashes = _ := hc.hashes
    simp only [hl, mem_singleton, control] at hm hw hh
    rw [hcle hp, hl, hm, erase_cons_head]
    refine .busy (openDone_busy _ c r.enough hp
      ⟨by simp [control], fun job hjo => absurd hjo not_mem_nil,
        ⟨hw, hh⟩, fun _ => ⟨hr.stopped, hr.stopCalled, hr.reports, hr.ending⟩, fun h => ?_⟩)
    simp [control] at h
  | aborted hp hj hc he =>
    have hcl : t.phase = .closing := hp
    have hl : t.jobs = [.open _] := hj
    have hw : t.pendingWrites = _ := hc.writes
    have hh : t.pendingHashes = _ := hc.hashes
    simp only [hl, mem_singleton, control] at hm hw hh
    rw [hl, hm, erase_cons_head, openDone.eq_def, if_pos (by simp [hcl])]
    exact quiesce_tracked _ ⟨by simp [control, hcl],
      fun job hjo => absurd hjo not_mem_nil, ⟨hw, hh⟩,
      fun hn => absurd hcl hn, fun _ => ⟨he.reports, he.ending, he.stopped, he.outcome⟩⟩
  | busy hb => exact (hb.work _ hm).elim
  | close _ hj =>
    rw [show t.jobs = [.close] from hj] at hm
    contradiction

theorem close_jobDone_tracked (ht : t.control.Tracked) (hm : .close ∈ t.jobs) :
    { t with jobs := t.jobs.erase .close }.closeDone.control.Tracked := by
  have ho : ∀ c, t.jobs ≠ [.open c] := by
    intro c hj
    rw [hj] at hm
    contradiction
  cases ht with
  | idle _ hj =>
    rw [show t.jobs = [] from hj] at hm
    contradiction
  | opening _ hj | aborted _ hj => exact absurd hj (ho _)
  | busy hb => exact (hb.work _ hm).elim
  | close _ hj hc he =>
    have hl : t.jobs = [.close] := hj
    have hw : t.pendingWrites = _ := hc.writes
    have hh : t.pendingHashes = _ := hc.hashes
    simp only [control, hl] at hw hh
    rw [hl]
    exact closeDone_tracked _ rfl hw hh ⟨he.reports, he.ending, he.stopped, he.outcome⟩

theorem jobDone_tracked (job : Job D) (r : JobResult D) (ht : t.control.Tracked)
    (hm : job ∈ t.jobs) (hc : t.OpensCleanly (.jobDone job r)) :
    ({ t with jobs := t.jobs.erase job }.jobDone r job).control.Tracked := by
  have hw : job.IsWork → ∀ {w hashes : Int}, w = t.pendingWrites - [job].countP Job.isWrite →
      hashes = t.pendingHashes - [job].countP Job.isHash → Work { t.control with
        jobs := t.jobs.erase job
        pendingWrites := w
        pendingHashes := hashes } := fun hj w hashes =>
    (ht.busy_of_mem hm hj).erased hm
  cases job with
  | «open» c =>
    exact open_jobDone_tracked t c r ht hm hc
  | write b s =>
    exact writeDone_tracked _ r.error (hw trivial rfl (Int.sub_zero _).symm)
  | hash i use =>
    exact hashDone_tracked _ i use r.digest r.enough (hw trivial (Int.sub_zero _).symm rfl)
  | sync =>
    exact quiesce_tracked _ (hw trivial rfl (Int.sub_zero _).symm)
  | close => exact close_jobDone_tracked t ht hm

theorem step_tracked (i : Input D) (ht : t.control.Tracked) (hc : t.OpensCleanly i) :
    (t.step i).control.Tracked := by
  cases i with
  | start d f => exact start_tracked t d f ht
  | stop => exact stop_tracked t ht
  | receive be s => exact receive_tracked t be s ht
  | hashSet hashes b =>
    rw [step]
    split_ifs with hp
    · have hb := ht.busy_of_downloading hp
      exact .busy (acceptHashSet_busy t hashes b hb).1
    · exact ht
  | tick b => exact evaluateSharing_tracked t b ht
  | jobDone job r =>
    rw [step]
    split_ifs with hm
    · exact jobDone_tracked t job r ht hm hc
    · exact ht

theorem create_tracked (hashing : Hashing D) (l : Ed2kLink D) :
    (create hashing l).control.Tracked := by
  rw [create]
  split_ifs <;> exact .idle rfl rfl ⟨rfl, rfl⟩ rfl (by simp [control])

/-- A task followed through every run: an error while the file opens leaves it
closing for good. -/
def Followed (task : Ed2kTask D) : Prop :=
  task.control.Tracked ∨ (task.phase = .closing ∧ task.jobs = [])

theorem stuck_step (i : Input D) (hp : t.phase = .closing) (hj : t.jobs = []) :
    (t.step i).phase = .closing ∧ (t.step i).jobs = [] := by
  cases i with
  | start d f =>
    rw [step, start.eq_def, if_pos (by simp [hp])]
    exact ⟨hp, hj⟩
  | stop =>
    rw [step, stop_closing t hp]
    exact ⟨hp, hj⟩
  | receive be s =>
    rw [step, receive, if_pos (.inl (by simp [hp]))]
    exact ⟨hp, hj⟩
  | hashSet hashes b =>
    rw [step, if_neg (by simp [hp])]
    exact ⟨hp, hj⟩
  | tick b =>
    rw [step, evaluateSharing, if_neg (by simp [hp])]
    exact ⟨hp, hj⟩
  | jobDone job r =>
    rw [step, if_neg (by simp [hj])]
    exact ⟨hp, hj⟩

omit [DecidableEq D] in
theorem Followed.opening {t : Ed2kTask D} (hf : t.Followed) (hp : t.phase = .opening) :
    ∃ c, t.jobs = [.open c] := by
  have hn : ∀ {p : Phase}, t.phase = p → p = .opening := fun he => he.symm.trans hp
  rcases hf with ht | ⟨hc, _⟩
  · cases ht with
    | idle hi => exact absurd (hn hi) (by decide)
    | opening _ hj => exact ⟨_, hj⟩
    | aborted hc | close hc => exact absurd (hn hc) (by decide)
    | busy hb => exact absurd hp hb.open_.2
  · exact absurd (hn hc) (by decide)

omit [DecidableEq D] in
theorem Followed.idle {t : Ed2kTask D} (hf : t.Followed) (hp : t.phase = .idle) : t.jobs = [] := by
  have hn : ∀ {p : Phase}, t.phase = p → p = .idle := fun he => he.symm.trans hp
  rcases hf with ht | ⟨hc, _⟩
  · cases ht with
    | idle _ hj => exact hj
    | opening ho => exact absurd (hn ho) (by decide)
    | aborted hc | close hc => exact absurd (hn hc) (by decide)
    | busy hb => exact absurd hp hb.open_.1
  · exact absurd (hn hc) (by decide)

omit [DecidableEq D] in
/-- An error while the file opens ends the work of the task. -/
theorem openDone_stuck (e : DiskError) (c b : Bool) (hp : t.phase = .opening) :
    (t.openDone (some e) c b).phase = .closing ∧ (t.openDone (some e) c b).jobs = t.jobs := by
  simp [openDone, finish, hp]

theorem step_followed (i : Input D) (hf : t.Followed) : (t.step i).Followed := by
  have hjo := hf.opening
  rcases hf with ht | ⟨hp, hj⟩
  · by_cases hc : t.OpensCleanly i
    · exact .inl (step_tracked t i ht hc)
    · rcases i with _ | _ | _ | _ | _ | ⟨job, result⟩
      case jobDone =>
        cases job with
        | «open» c =>
          simp only [OpensCleanly, not_forall] at hc
          obtain ⟨hp, he⟩ := hc
          obtain ⟨e, he⟩ := Option.ne_none_iff_exists'.mp he
          obtain ⟨ch, hj⟩ := hjo hp
          rw [step]
          split
          · rename_i hm
            rw [hj, mem_singleton] at hm
            rw [hm, hj, erase_cons_head, jobDone, he]
            exact .inr (openDone_stuck _ e ch result.enough hp)
          · exact .inl ht
        | _ => exact absurd trivial hc
      all_goals exact absurd trivial hc
  · exact .inr (stuck_step t i hp hj)

end

theorem create_followed (hashing : Hashing D) (l : Ed2kLink D) :
    (create hashing l).Followed := .inl (create_tracked hashing l)

/-- In every run whose files open cleanly a closing task has a disk job
outstanding, and when no job is outstanding a run that was asked to end is
idle and reported exactly once. -/
theorem run_reports_outcome_once (hashing : Hashing D) (link : Ed2kLink D)
    (inputs : List (Input D)) (hmeets : Meets step OpensCleanly (create hashing link) inputs) :
    let task := Runs.run step (create hashing link) inputs
    (task.phase = .closing → task.jobs ≠ []) ∧
      (task.jobs = [] → task.ending = true → task.phase = .idle ∧
        ∃ report, task.reports = [report] ∧ (report = .stopped ↔ task.stopCalled = true)) := by
  intro task
  have htracked : task.control.Tracked :=
    run_invariant step_tracked (create_tracked hashing link) hmeets
  exact ⟨htracked.jobs_ne_nil, htracked.over⟩

/-- A download of five bytes that completes and is not shared. -/
theorem run_reports_outcome_once_five :
    let hashing : Hashing Nat := ⟨List.sum, 0, fun _ => ""⟩
    let link : Ed2kLink Nat := ⟨7, 5, []⟩
    let facts : OpenFacts Nat := ⟨none, "f", fun _ => false, fun _ => 0,
      fun _ => 0, false, false, none⟩
    let inputs : List (Input Nat) := [.start false facts,
      .jobDone (.open false) {}, .receive 0 5, .jobDone (.write 0 5) {},
      .jobDone (.hash 0 (.verify 7)) { digest := .ok 7, enough := true },
      .jobDone .sync {}, .jobDone .close {}]
    let task := Runs.run step (create hashing link) inputs
    task.reports = [.complete] ∧ task.phase = .idle := by
  intro hashing link facts inputs task
  have hjobs : task.jobs = [] := by decide +kernel
  have hending : task.ending = true := by decide +kernel
  have hmeets : Meets step OpensCleanly (create hashing link) inputs := by
    decide +kernel
  exact ⟨by decide +kernel,
    ((run_reports_outcome_once hashing link inputs hmeets).2 hjobs hending).1⟩

/-- The file cannot be opened: the task stays in `Closing` with no job
outstanding and no report, and a later stop is not answered. -/
theorem open_error_never_reported :
    let hashing : Hashing Nat := ⟨List.sum, 0, fun _ => ""⟩
    let link : Ed2kLink Nat := ⟨7, 5, []⟩
    let facts : OpenFacts Nat := ⟨none, "f", fun _ => false, fun _ => 0,
      fun _ => 0, false, false, none⟩
    let inputs : List (Input Nat) := [.start false facts,
      .jobDone (.open false) { error := some ⟨false, "denied"⟩ }]
    let task := Runs.run step (create hashing link) inputs
    task.phase = .closing ∧ task.jobs = [] ∧ task.ending = true ∧
      task.reports = [] ∧ task.stop.phase = .closing ∧ task.stop.jobs = [] ∧
      task.stop.reports = [] := by
  decide +kernel

end Aria2Next.Ed2kTask
