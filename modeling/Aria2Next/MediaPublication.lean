/-
`media/MediaPublication`: how the finished file of a media job gets to its
output path, and how a job that starts again finds out how far that went.

The file system is the two names the job uses, each with the inode it stands
for: a hard link gives the output the inode of the staging file, and what is
written to one name is then seen under the other.  Size and digest of a content
are any functions.  A crash may come before or after every step; what is left
then are the disk and the record in the database.  The output path is the same
in all starts, so that the check of the recorded paths passes.
-/
import Aria2Next.Runs
import Mathlib.Logic.Function.Basic

namespace Aria2Next

universe u v

/-- `Publication`, without the paths. -/
structure Publication (G : Type v) where
  bytes : Nat
  digest : G
deriving DecidableEq

namespace MediaJob

/-- Where the job stands: the next step it takes. -/
inductive Place (G : Type v) where
  /-- No job runs. -/
  | down
  /-- `recoverPublication` -/
  | recover
  /-- The output is there: the staging file goes. -/
  | removeStaging (publication : Publication G)
  /-- Neither file is as recorded: the staging file goes, -/
  | dropStaging
  /-- and then the record. -/
  | clearPublication
  /-- The segments are fetched. -/
  | transfer
  /-- `Muxer::stage` -/
  | stage
  /-- `preparePublication` -/
  | prepare
  /-- The record is written; a cancel is seen here. -/
  | prepared (publication : Publication G)
  /-- `Muxer::publish` -/
  | publish (publication : Publication G)
  /-- The output is linked: the staging name goes. -/
  | unlink (publication : Publication G)
  /-- `complete` -/
  | complete (publication : Publication G)
  /-- The recovery data and the record go. -/
  | cleanup
deriving DecidableEq

/-- `Snapshot::state`, as far as it matters here. -/
inductive State where
  /-- No job has been started in this process. -/
  | waiting
  | probing | finalizing | paused | complete | error
deriving DecidableEq, Repr

end MediaJob

open MediaJob

structure MediaJob (C : Type u) (G : Type v) where
  /-- The inodes of the two names. -/
  output : Option Nat := none
  staging : Option Nat := none
  data : Nat → C
  /-- The inodes from here on are unused. -/
  unused : Nat := 0
  /-- The row of `media_publication`. -/
  record : Option (Publication G) := none
  place : Place G := .down
  state : State := .waiting
  /-- The option `allow-overwrite` of this start. -/
  overwrite : Bool := false
  /-- Ghost data: what `complete` was last called with. -/
  published : Option (Publication G) := none

namespace MediaJob

variable {C : Type u} {G : Type v}

variable (job : MediaJob C G)

def outputData : Option C := job.output.map job.data

def stagingData : Option C := job.staging.map job.data

/-- The size and the digest of a content. -/
structure Measure (C : Type u) (G : Type v) where
  size : C → Nat
  digest : C → G

def Measure.publication (measure : Measure C G) (content : C) : Publication G :=
  ⟨measure.size content, measure.digest content⟩

/-- The job leaves `run` with an exception. -/
def fails : MediaJob C G := { job with place := .down, state := .error }

/-- The job leaves `run` because of a cancel. -/
def pauses : MediaJob C G := { job with place := .down, state := .paused }

/-- The staging file is opened, which makes or truncates it, and written. -/
def write (content : C) : MediaJob C G :=
  match job.staging with
  | some inode => { job with data := Function.update job.data inode content }
  | none =>
    { job with
      staging := some job.unused
      data := Function.update job.data job.unused content
      unused := job.unused + 1 }

section Steps

variable [DecidableEq G] (measure : Measure C G)

/-- A name stands for a file as recorded. -/
def isAsRecorded (publication : Publication G) : Option C → Bool
  | some content => measure.publication content = publication
  | none => false

def recoverPublication (job : MediaJob C G) : MediaJob C G :=
  match job.record with
  | none => { job with place := .transfer }
  | some publication =>
    if isAsRecorded measure publication job.outputData then
      { job with place := .removeStaging publication }
    else if isAsRecorded measure publication job.stagingData then
      { job with place := .publish publication }
    else { job with place := .dropStaging }

/-- `Muxer::publish`: a rename, or a hard link that fails if the output is
there.  A rename onto another name of the same file does nothing. -/
def publish (job : MediaJob C G) (publication : Publication G) : MediaJob C G :=
  match job.staging with
  | none => job.fails
  | some inode =>
    if job.overwrite then
      if job.output = some inode then
        { job with place := .complete publication }
      else
        { job with
          output := some inode
          staging := none
          place := .complete publication }
    else if job.output.isSome then job.fails
    else
      { job with output := some inode, place := .unlink publication }

/-- The step that the job takes where it stands. -/
def proceed (job : MediaJob C G) : MediaJob C G :=
  match job.place with
  | .down => job
  | .recover => job.recoverPublication measure
  | .removeStaging publication =>
    { job with staging := none, place := .complete publication }
  | .dropStaging => { job with staging := none, place := .clearPublication }
  | .clearPublication => { job with record := none, place := .transfer }
  | .transfer => { job with place := .stage, state := .finalizing }
  | .stage =>
    if job.staging.isSome then { job with place := .prepare } else job.fails
  | .prepare =>
    match job.stagingData with
    | none => job.fails
    | some content =>
      { job with
        record := some (measure.publication content)
        place := .prepared (measure.publication content) }
  | .prepared publication => { job with place := .publish publication }
  | .publish publication => job.publish publication
  | .unlink publication =>
    { job with staging := none, place := .complete publication }
  | .complete publication =>
    { job with
      state := .complete
      place := .cleanup
      published := some publication }
  | .cleanup => { job with record := none, place := .down }

end Steps

/-- An operation fails where the job stands.  `stage` removes its file, if it
can; a failed cleanup is only logged. -/
def throws (removed : Bool) : MediaJob C G :=
  match job.place with
  | .down => job
  | .stage =>
    if removed then { job with staging := none }.fails else job.fails
  | .cleanup => { job with place := .down }
  | _ => job.fails

/-- The job sees a cancel. -/
def cancel (removed : Bool) : MediaJob C G :=
  match job.place with
  | .transfer | .prepared _ => job.pauses
  | .stage =>
    if removed then { job with staging := none }.pauses else job.pauses
  | _ => job

inductive Input (C : Type u) where
  | start (overwrite : Bool)
  | crash
  | proceed
  /-- The muxer writes; `content` is what the file holds then. -/
  | write (content : C)
  | throws (removed : Bool)
  | cancel (removed : Bool)

def step [DecidableEq G] (measure : Measure C G) (job : MediaJob C G) : Input C → MediaJob C G
  | .start overwrite =>
    if job.place = .down then
      { job with place := .recover, state := .probing, overwrite }
    else job
  | .crash => { job with place := .down, state := .waiting }
  | .proceed => job.proceed measure
  | .write content => if job.place = .stage then job.write content else job
  | .throws removed => job.throws removed
  | .cancel removed => job.cancel removed

section Invariant

variable [DecidableEq G] (measure m : Measure C G)

/-- What is known where the job stands. -/
def Placed (job : MediaJob C G) : Place G → Prop
  | .down | .recover | .dropStaging => True
  | .transfer | .stage | .prepare => job.record = none
  | .clearPublication | .cleanup => job.staging = none
  | .removeStaging publication | .unlink publication =>
    job.record = some publication ∧ isAsRecorded measure publication job.outputData = true
  | .prepared publication | .publish publication =>
    job.record = some publication ∧ isAsRecorded measure publication job.stagingData = true ∧
      job.output ≠ job.staging
  | .complete publication =>
    job.record = some publication ∧ isAsRecorded measure publication job.outputData = true ∧
      job.staging = none

structure Consistent (job : MediaJob C G) : Prop where
  output_used : ∀ inode, job.output = some inode → inode < job.unused
  staging_used : ∀ inode, job.staging = some inode → inode < job.unused
  /-- Both names stand for one file only while the record is there, and the
  file is as recorded. -/
  linked : ∀ inode, job.output = some inode → job.staging = some inode →
    ∃ publication, job.record = some publication ∧
      measure.publication (job.data inode) = publication
  placed : Placed measure job job.place
  complete : job.state = .complete →
    (job.place = .cleanup ∨ job.place = .down) ∧ job.staging = none ∧
      ∃ publication, job.published = some publication ∧
        (job.record = some publication ∨ job.record = none) ∧
        isAsRecorded measure publication job.outputData = true

variable {measure m} {job : MediaJob C G}

variable {place : Place G} {state : State} {publication p : Publication G}

section

variable (hj : Consistent m job)

include hj

/-- The job stands elsewhere, and its state is not complete. -/
theorem Consistent.moved (hp : Placed m job place)
    (hs : state ≠ .complete) : Consistent m { job with place, state } where
  output_used := hj.output_used
  staging_used := hj.staging_used
  linked := hj.linked
  placed := by
    cases place <;> exact hp
  complete := fun hc => absurd hc hs

/-- The staging name goes. -/
theorem Consistent.unstaged
    (hp : Placed m { job with staging := none } place) (hs : state ≠ .complete) :
    Consistent m { job with staging := none, place, state } where
  output_used := hj.output_used
  staging_used := by simp
  linked := by simp
  placed := by
    cases place <;> exact hp
  complete := fun hc => absurd hc hs

theorem Consistent.unfinished (hcl : job.place ≠ .cleanup)
    (hdo : job.place ≠ .down) : job.state ≠ .complete := by
  intro hc
  rcases (hj.complete hc).1 with hp | hp
  · exact hcl hp
  · exact hdo hp

theorem Consistent.fails : Consistent m job.fails :=
  hj.moved trivial (by decide)

/-- Without a record the names stand for different files. -/
theorem Consistent.apart (hr : job.record = none) {i : Nat}
    (hs : job.staging = some i) : job.output ≠ some i := by
  intro ho
  obtain ⟨p, hso, -⟩ := hj.linked i ho hs
  rw [hr] at hso
  cases hso

end

theorem isAsRecorded_some {g : Option C} (hf : isAsRecorded m p g = true) :
    ∃ c, g = some c ∧ m.publication c = p := by
  cases g with
  | none => cases hf
  | some c => exact ⟨c, rfl, of_decide_eq_true hf⟩

section

variable (hj : Consistent m job)

include hj

theorem recoverPublication_consistent (hp : job.place = .recover) :
    Consistent m (job.recoverPublication m) := by
  have hs : job.state ≠ .complete := by
    apply hj.unfinished <;> rw [hp] <;> simp
  unfold recoverPublication
  split
  · next hr => exact hj.moved hr hs
  · next p hr =>
    split_ifs with ho hst
    · exact hj.moved ⟨hr, ho⟩ hs
    · refine hj.moved ⟨hr, hst, ?_⟩ hs
      intro hsa
      apply ho
      rw [outputData, hsa]
      exact hst
    · exact hj.moved trivial hs

theorem publish_consistent (hpl : job.place = .publish p) :
    Consistent m (job.publish p) := by
  have hst : job.state ≠ .complete := by
    apply hj.unfinished <;> rw [hpl] <;> simp
  have hp := hj.placed
  rw [hpl] at hp
  obtain ⟨hr, hs, ha⟩ := hp
  unfold publish
  split
  · exact hj.fails
  · next i hi =>
    rw [stagingData, hi] at hs
    have hu := hj.staging_used i hi
    split_ifs with hov hsa he
    · rw [hsa, hi] at ha
      exact absurd rfl ha
    · refine ⟨?_, ?_, ?_, ?_, fun hc => absurd hc hst⟩
      · intro o ho
        cases ho
        exact hu
      · intro o ho
        cases ho
      · intro o _ ho
        cases ho
      · exact ⟨hr, hs, rfl⟩
    · exact hj.fails
    · refine ⟨?_, hj.staging_used, ?_, ?_, fun hc => absurd hc hst⟩
      · intro o ho
        cases ho
        exact hu
      · intro o ho _
        cases ho
        exact ⟨p, hr, of_decide_eq_true hs⟩
      · exact ⟨hr, hs⟩

theorem write_consistent (hp : job.place = .stage) (c : C) :
    Consistent m (job.write c) ∧ (job.write c).outputData = job.outputData := by
  have hst : job.state ≠ .complete := by
    apply hj.unfinished <;> rw [hp] <;> simp
  have hpl := hj.placed
  rw [hp] at hpl
  have hr : job.record = none := hpl
  unfold write
  split
  · next i hi =>
    refine ⟨⟨hj.output_used, hj.staging_used, ?_, ?_, fun hc => absurd hc hst⟩, ?_⟩
    · intro o ho hs
      exact absurd ho (hj.apart hr hs)
    · rw [hp]
      exact hr
    · unfold outputData
      cases ho : job.output with
      | none => rfl
      | some o =>
        have hn : o ≠ i := by
          rintro rfl
          exact hj.apart hr hi ho
        simp only [Option.map_some, Function.update_of_ne hn]
  · refine ⟨⟨?_, ?_, ?_, ?_, fun hc => absurd hc hst⟩, ?_⟩
    · intro o hot
      exact Nat.lt_succ_of_lt (hj.output_used o hot)
    · intro o hot
      cases hot
      exact Nat.lt_succ_self job.unused
    · intro o ho hs
      cases hs
      exact absurd (hj.output_used _ ho) (Nat.lt_irrefl _)
    · rw [hp]
      exact hr
    · unfold outputData
      cases ho : job.output with
      | none => rfl
      | some o =>
        have hn : o ≠ job.unused := Nat.ne_of_lt (hj.output_used o ho)
        simp only [Option.map_some, Function.update_of_ne hn]

theorem proceed_consistent : Consistent m (job.proceed m) := by
  have hp := hj.placed
  have hst : job.place ≠ .cleanup → job.place ≠ .down → job.state ≠ .complete := hj.unfinished
  unfold proceed
  cases hpl : job.place with
  | down => exact hj
  | recover => exact recoverPublication_consistent hj hpl
  | publish publication => exact publish_consistent hj hpl
  | cleanup =>
    rw [hpl] at hp
    refine ⟨hj.output_used, hj.staging_used, ?_, trivial, ?_⟩
    · intro i _ hs
      rw [show job.staging = none from hp] at hs
      cases hs
    · intro hc
      obtain ⟨-, hs, publication, hpu, -, ho⟩ := hj.complete hc
      exact ⟨.inr rfl, hs, publication, hpu, .inr rfl, ho⟩
  | complete publication =>
    rw [hpl] at hp
    obtain ⟨hr, ho, hs⟩ := hp
    exact ⟨hj.output_used, hj.staging_used, hj.linked, hs,
      fun _ => ⟨.inl rfl, hs, publication, rfl, .inl hr, ho⟩⟩
  | clearPublication =>
    rw [hpl] at hp hst
    refine ⟨hj.output_used, hj.staging_used, ?_, rfl, fun hc => absurd hc (hst (by simp) (by simp))⟩
    intro i _ hs
    rw [show job.staging = none from hp] at hs
    cases hs
  | removeStaging | unlink =>
    rw [hpl] at hp hst
    exact hj.unstaged ⟨hp.1, hp.2, rfl⟩ (hst (by simp) (by simp))
  | dropStaging =>
    rw [hpl] at hst
    exact hj.unstaged rfl (hst (by simp) (by simp))
  | transfer =>
    rw [hpl] at hp
    exact hj.moved hp (by decide)
  | stage =>
    rw [hpl] at hp hst
    split_ifs
    · exact hj.moved hp (hst (by simp) (by simp))
    · exact hj.fails
  | prepare =>
    rw [hpl] at hp hst
    dsimp only
    split
    · exact hj.fails
    · next c hco =>
      refine ⟨hj.output_used, hj.staging_used, ?_, ?_,
        fun hc => absurd hc (hst (by simp) (by simp))⟩
      · intro i ho hs
        exact absurd ho (hj.apart hp hs)
      · refine ⟨rfl, ?_, ?_⟩
        · change isAsRecorded m _ job.stagingData = true
          rw [hco]
          exact decide_eq_true rfl
        · change job.output ≠ job.staging
          rw [stagingData, Option.map_eq_some_iff] at hco
          obtain ⟨i, hi, -⟩ := hco
          rw [hi]
          exact hj.apart hp hi
  | prepared publication =>
    rw [hpl] at hp hst
    exact hj.moved hp (hst (by simp) (by simp))

theorem throws_consistent (r : Bool) : Consistent m (job.throws r) := by
  unfold throws
  split
  · exact hj
  · split
    · exact hj.unstaged trivial (by decide)
    · exact hj.fails
  · exact ⟨hj.output_used, hj.staging_used, hj.linked, trivial,
      fun hc => ⟨.inr rfl, (hj.complete hc).2⟩⟩
  · exact hj.fails

theorem cancel_consistent (r : Bool) : Consistent m (job.cancel r) := by
  unfold cancel
  split
  · exact hj.moved trivial (by decide)
  · exact hj.moved trivial (by decide)
  · split
    · exact hj.unstaged trivial (by decide)
    · exact hj.moved trivial (by decide)
  · exact hj

theorem step_consistent (input : Input C) :
    Consistent m (job.step m input) := by
  cases input with
  | start overwrite =>
    rw [step]
    split
    · exact ⟨hj.output_used, hj.staging_used, hj.linked, trivial, fun hc => by cases hc⟩
    · exact hj
  | crash => exact hj.moved trivial (by decide)
  | proceed => exact proceed_consistent hj
  | write content =>
    rw [step]
    split
    · next hp => exact (write_consistent hj hp content).1
    · exact hj
  | throws removed => exact throws_consistent hj removed
  | cancel removed => exact cancel_consistent hj removed

/-- Without `allow-overwrite` a file at the output path stays what it is. -/
theorem step_keeps_output (ho : job.overwrite = false) (i : Input C)
    {c : C} (hc : job.outputData = some c) : (job.step m i).outputData = some c := by
  cases i with
  | start o =>
    rw [step]
    split <;> exact hc
  | crash => exact hc
  | proceed =>
    rw [step, proceed]
    cases job.place with
    | recover =>
      dsimp only [recoverPublication]
      split
      · exact hc
      · split_ifs <;> exact hc
    | stage | prepare =>
      dsimp only
      split <;> exact hc
    | publish p =>
      have he : job.output.isSome = true := by
        rw [outputData, Option.map_eq_some_iff] at hc
        obtain ⟨inode, hi, -⟩ := hc
        rw [hi]
        rfl
      dsimp only [publish]
      split
      · exact hc
      · rw [ho, if_pos he]
        exact hc
    | _ => exact hc
  | write w =>
    rw [step]
    split
    · next hp =>
      rw [(write_consistent hj hp w).2]
      exact hc
    · exact hc
  | throws r =>
    rw [step, throws]
    split
    · exact hc
    · split <;> exact hc
    · exact hc
    · exact hc
  | cancel r =>
    rw [step, cancel]
    split
    · exact hc
    · exact hc
    · split <;> exact hc
    · exact hc

end

end Invariant

/-- A disk with or without a file at the output path, and no job yet. -/
def initial (existing : Option Nat) (data : Nat → C) : MediaJob C G :=
  { output := existing, data, unused := existing.elim 0 (· + 1) }

/-- In every state that starts, crashes and steps lead to: a complete job has
its output as recorded and no staging file, and without `allow-overwrite` no
step changes or removes what stands at the output path. -/
theorem run_publication_survives_crashes [DecidableEq G] (measure : Measure C G)
    (existing : Option Nat) (data : Nat → C) (inputs : List (Input C)) :
    let job := Runs.run (step measure) (initial existing data : MediaJob C G) inputs
    (job.state = .complete → ∃ content publication, job.outputData = some content ∧
        job.published = some publication ∧
        (job.record = some publication ∨ job.record = none) ∧
        measure.size content = publication.bytes ∧
        measure.digest content = publication.digest) ∧
    (job.overwrite = false → ∀ input content, job.outputData = some content →
        (job.step measure input).outputData = some content) ∧
    (job.state = .complete → job.stagingData = none) := by
  intro job
  have hstep : ∀ (before : MediaJob C G) (input : Input C), Consistent measure before →
      Consistent measure (before.step measure input) :=
    fun _ input hjob => step_consistent hjob input
  have hinitial : Consistent measure (initial existing data : MediaJob C G) := by
    refine ⟨?_, by simp [initial], by simp [initial], trivial, ?_⟩
    · intro inode hinode
      change existing = some inode at hinode
      rw [hinode]
      exact Nat.lt_succ_self inode
    · intro hcomplete
      cases hcomplete
  have hjob : Consistent measure job := Runs.run_preserves hstep inputs hinitial
  refine ⟨?_, ?_, ?_⟩
  · intro hcomplete
    obtain ⟨-, -, publication, hpublished, hrecord, houtput⟩ := hjob.complete hcomplete
    obtain ⟨content, hcontent, hsame⟩ := isAsRecorded_some houtput
    refine ⟨content, publication, hcontent, hpublished, hrecord, ?_, ?_⟩
    · rw [← hsame]
      rfl
    · rw [← hsame]
      rfl
  · intro hoverwrite input content
    exact step_keeps_output hjob hoverwrite input
  · intro hcomplete
    rw [stagingData, (hjob.complete hcomplete).2.1]
    rfl

-- a crash between the link and the removal of the staging name
example :
    let job := Runs.run (step ⟨id, id⟩)
      (initial none (fun _ => 0) : MediaJob Nat Nat)
      [.start false, .proceed, .proceed, .write 7, .proceed, .proceed, .proceed,
        .proceed, .crash, .start false, .proceed, .proceed, .proceed, .proceed]
    job.outputData = some 7 ∧ job.stagingData = none ∧ job.state = .complete := by
  decide

end MediaJob

end Aria2Next
