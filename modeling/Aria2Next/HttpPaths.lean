/-
The files of all HTTP downloads of an engine: which path each one has, and what
the store keeps of it.

A download gets its path from the row in the store that is its own, from a row
that it claims, or by the choice it makes at its first answer.  The last two ask
the engine whether another task writes to the path; a row of its own, a task
that is queued again and a relocation do not.

What two paths are the same file is decided by the key of a path.  The file
system and the names that servers give are inputs.
-/
import Aria2Next.Engine

namespace Aria2Next

universe u

/-- The functions on paths. -/
structure Naming (K : Type u) where
  /-- What `samePath` compares. -/
  key : String → K
  joinPath : String → String → String
  /-- `lexically_relative`, unless it is empty or leads upwards. -/
  relative : String → String → Option String
  filename : String → String

structure PathOptions where
  dir : String := ""
  out : String := ""
  incompleteSuffix : String := ""
  continue_ : Bool := false
  removeControlFile : Bool := false
  dryRun : Bool := false
  allowOverwrite : Bool := false
  autoFileRenaming : Bool := true
deriving DecidableEq, Repr

structure PathTask where
  state : TaskState
  options : PathOptions
  path : String := ""
  suffix : String := ""
deriving DecidableEq, Repr

/-- A row of the store; `positive` tells that the total length is. -/
structure PathRow where
  path : String
  positive : Bool
deriving DecidableEq, Repr

/-- The tasks of the engine and the rows of the store, by GID. -/
structure Library where
  tasks : OrdMap Nat PathTask := ∅
  rows : OrdMap Nat PathRow := ∅

namespace Library

variable {K : Type u} [DecidableEq K] (naming n : Naming K)

/-- What the surroundings answer during one step. -/
structure Facts where
  fileExists : String → Bool := fun _ => false
  /-- The name without the option `out`. -/
  named : String := "index.html"
  /-- The candidates of `numberedPath`. -/
  numbers : String → List String := fun _ => []
  /-- The row that the query of `claimTransfer` comes to first. -/
  owner : Nat := 0
  /-- The existing file is a prefix of the remote one, and ranges work. -/
  continues : Bool := true
  renames : Bool := true
  /-- The length of the download is known and positive. -/
  positive : Bool := true

def unfinished (task : PathTask) : Bool :=
  match task.state with
  | .active | .waiting | .paused => true
  | .complete | .error | .removed => false

/-- The path of the file in `files`. -/
def filePath (task : PathTask) : String :=
  if task.path = "" ∧ task.options.out ≠ "" then
    naming.joinPath task.options.dir task.options.out
  else task.path

/-- `Engine::writing` -/
def writing (library : Library) (path : String) (except : Nat) : Bool :=
  library.tasks.entries.any fun entry =>
    entry.1 ≠ except && unfinished entry.2 && filePath naming entry.2 ≠ "" &&
      naming.key (filePath naming entry.2) = naming.key path

/-- `StateStore::claimTransfer` -/
def claimTransfer (library : Library) (facts : Facts) (path : String)
    (gid : Nat) : Option PathRow × Library :=
  let owners := library.rows.entries.filter fun entry =>
    entry.1 ≠ gid ∧ naming.key entry.2.path = naming.key path
  match (owners.find? fun entry => entry.1 = facts.owner).or owners.head? with
  | none => (none, library)
  | some (owner, row) =>
    (some row, { library with
      rows := (library.rows.erase owner).insert gid row })

/-- The suffix a row's file carries, or nothing when it is gone. -/
def storedSuffix (facts : Facts) (options : PathOptions) (path : String) : Option String :=
  let suffix := options.incompleteSuffix
  if suffix ≠ "" ∧ facts.fileExists (path ++ suffix) then some suffix
  else if facts.fileExists path then some "" else none

def claimRecord (library : Library) (facts : Facts) (gid : Nat)
    (options : PathOptions) (path : String) : Option PathRow × Library :=
  if !options.continue_ ∨ options.removeControlFile ∨ options.dryRun ∨
      library.writing naming path gid then (none, library)
  else
    match library.claimTransfer naming facts path gid with
    | (none, library) => (none, library)
    | (some row, library) =>
      (if row.positive = false ∨ storedSuffix facts options row.path = none
        then none else some row, library)

def storedRecord (library : Library) (facts : Facts) (gid : Nat)
    (options : PathOptions) : Option PathRow × Library :=
  match library.rows.find? gid with
  | some row => (some row, library)
  | none =>
    if options.out = "" then (none, library)
    else library.claimRecord naming facts gid options (naming.joinPath options.dir options.out)

def setTask (library : Library) (gid : Nat) (task : PathTask) : Library :=
  { library with tasks := library.tasks.insert gid task }

/-- What `start` and `loadProgress` do with the stored record. -/
def resume (library : Library) (facts : Facts) (gid : Nat) (task : PathTask) : Library :=
  if task.options.removeControlFile ∨ task.options.dryRun then library
  else
    match library.storedRecord naming facts gid task.options with
    | (none, library) => library
    | (some row, library) =>
      if row.positive then
        match storedSuffix facts task.options row.path with
        | none => library
        | some suffix =>
          library.setTask gid { task with path := row.path, suffix }
      else library

/-- `Engine::add` -/
def add (library : Library) (facts : Facts) (gid : Nat)
    (options : PathOptions) (paused : Bool) : Library :=
  let task : PathTask :=
    { state := if paused then .paused else .waiting, options }
  (library.setTask gid task).resume naming facts gid task

/-- A function of a task that is there. -/
def withTask (library : Library) (gid : Nat) (f : PathTask → Library) : Library :=
  match library.tasks.find? gid with
  | none => library
  | some task => f task

/-- `Engine::startTask` of a waiting task -/
def start (library : Library) (facts : Facts) (gid : Nat) : Library :=
  library.withTask gid fun task =>
    if task.state = .waiting then
      let task := { task with state := .active }
      (library.setTask gid task).resume naming facts gid task
    else library

/-- The first candidate that is free. -/
def numberedPath (facts : Facts) (taken : String → Bool) (path : String) : Option String :=
  (facts.numbers path).find? fun candidate =>
    !facts.fileExists candidate && !taken candidate

/-- A leftover unfinished file holds the name like a finished one. -/
def leftover (facts : Facts) (options : PathOptions) (path : String) : Bool :=
  options.incompleteSuffix ≠ "" && facts.fileExists (path ++ options.incompleteSuffix)

/-- The part of `decidePath` after no record was claimed; nothing if the task
is aborted. -/
def choosePath (library : Library) (facts : Facts) (gid : Nat)
    (task : PathTask) (path : String) : Library :=
  let shared := library.writing naming path gid
  let left := leftover facts task.options path
  let create := fun path => library.setTask gid
    { task with path, suffix := task.options.incompleteSuffix }
  if shared ∨ left ∨ facts.fileExists path then
    if !shared ∧ !left ∧ task.options.continue_ then
      if facts.continues then
        library.setTask gid { task with path, suffix := "" }
      else library
    else if shared ∨ !task.options.allowOverwrite then
      if !task.options.autoFileRenaming then library
      else
        match numberedPath facts (fun candidate =>
          library.writing naming candidate gid || leftover facts task.options candidate) path with
        | none => library
        | some path => create path
    else create path
  else create path

/-- `decidePath`, at the first answer of a task without a path -/
def decidePath (library : Library) (facts : Facts) (gid : Nat) : Library :=
  library.withTask gid fun task =>
    if task.state = .active ∧ task.path = "" then
      let path := naming.joinPath task.options.dir
        (if task.options.out = "" then facts.named else task.options.out)
      match (if library.writing naming path gid then (none, library)
        else library.claimRecord naming facts gid task.options path) with
      | (some row, library) => library.setTask gid { task with
          path := row.path
          suffix := (storedSuffix facts task.options row.path).getD "" }
      | (none, library) => library.choosePath naming facts gid task path
    else library

/-- `publish`: a finished file gets its final name. -/
def publish (library : Library) (facts : Facts) (gid : Nat) : Library :=
  library.withTask gid fun task =>
    if task.state = .active ∧ task.suffix ≠ "" then
      match (if facts.fileExists task.path ∧ !task.options.allowOverwrite then
          (if task.options.autoFileRenaming then
            numberedPath facts (fun candidate =>
              library.writing naming candidate gid) task.path
          else none)
        else some task.path) with
      | none => library
      | some path =>
        if facts.renames then
          library.setTask gid { task with path, suffix := "" }
        else library.setTask gid { task with path }
    else library

/-- The engine gives an unfinished task another state. -/
def become (library : Library) (gid : Nat) (state : TaskState) : Library :=
  library.withTask gid fun task =>
    if unfinished task then library.setTask gid { task with state }
    else library

/-- `Engine::requeue` of a stopped task -/
def requeue (library : Library) (gid : Nat) : Library := library.withTask gid fun task =>
    if unfinished task then library
    else library.setTask gid { task with state := .waiting }

def relocatedPath (task : PathTask) (dir : String) : String :=
  match naming.relative task.path task.options.dir with
  | none => naming.joinPath dir (naming.filename task.path)
  | some relative => naming.joinPath dir relative

def checkpoint (library : Library) (facts : Facts) (gid : Nat) : Library :=
  library.withTask gid fun task =>
    if task.path = "" ∨ facts.positive = false ∨ task.options.dryRun then
      library
    else { library with rows := library.rows.insert gid ⟨task.path, true⟩ }

/-- `relocated`, once the files of a paused task have been moved -/
def relocated (library : Library) (facts : Facts) (gid : Nat) (dir : String) : Library :=
  library.withTask gid fun task =>
    if task.state = .paused then
      (library.setTask gid
        { task with
          path := if task.path = "" then "" else relocatedPath naming task dir
          options := { task.options with dir } }).checkpoint facts gid
    else library

/-- A result is removed. -/
def removeResult (library : Library) (gid : Nat) : Library := library.withTask gid fun task =>
    if unfinished task then library
    else
      { library with
        tasks := library.tasks.erase gid
        rows := library.rows.erase gid }

inductive Input where
  | add (gid : Nat) (options : PathOptions) (paused : Bool)
  | start (gid : Nat)
  | decidePath (gid : Nat)
  | publish (gid : Nat)
  /-- A pause, an unpause, the end of a stop, a completion, a failure or a
  removal. -/
  | become (gid : Nat) (state : TaskState)
  | requeue (gid : Nat)
  | relocated (gid : Nat) (dir : String)
  | checkpoint (gid : Nat)
  | discardState (gid : Nat)
  | removeResult (gid : Nat)
  /-- The engine starts anew; the session adds its tasks again. -/
  | restart

/-- An input together with what the surroundings answer. -/
structure Event where
  input : Input
  facts : Facts := {}

def step (library : Library) (event : Event) : Library :=
  let facts := event.facts
  match event.input with
  | .add gid options paused => library.add naming facts gid options paused
  | .start gid => library.start naming facts gid
  | .decidePath gid => library.decidePath naming facts gid
  | .publish gid => library.publish naming facts gid
  | .become gid state => library.become gid state
  | .requeue gid => library.requeue gid
  | .relocated gid dir => library.relocated naming facts gid dir
  | .checkpoint gid => library.checkpoint facts gid
  | .discardState gid => { library with rows := library.rows.erase gid }
  | .removeResult gid => library.removeResult gid
  | .restart => { library with tasks := ∅ }

/-- The task has a path, and no other unfinished task has it. -/
def Unshared (library : Library) (path : String) (gid : Nat) : Prop :=
  ∀ other task, library.tasks.find? other = some task → other ≠ gid →
    unfinished task = true → task.path ≠ "" → naming.key task.path ≠ naming.key path

/-- No two unfinished tasks have the same path. -/
def Apart (library : Library) : Prop := ∀ gid task, library.tasks.find? gid = some task →
    unfinished task = true → task.path ≠ "" → library.Unshared naming task.path gid

variable {naming n} {library l : Library} {f : Facts} {gid : Nat}

variable {p : String} {next nx : Library}

theorem unshared_of_writing (hfr : l.writing n p gid = false) : l.Unshared n p gid := by
  intro o t hfi hn hu hp hk
  have hf : filePath n t = t.path := by
    simp [filePath, hp]
  have hm := (OrdMap.find?_eq_some_iff l.tasks o t).mp hfi
  have ht := List.any_eq_false.mp hfr (o, t) hm
  simp [hf, hn, hu, hp, hk] at ht

omit [DecidableEq K] in
theorem Unshared.congr {o : String} (hun : l.Unshared n p gid) (hk : n.key o = n.key p) :
    l.Unshared n o gid := by
  intro g t hf hn hu hp
  rw [hk]
  exact hun g t hf hn hu hp

omit [DecidableEq K] in
/-- A task may be set if its path is its own. -/
theorem Apart.setTask (hapart : l.Apart n) {t : PathTask}
    (hfr : unfinished t = true → t.path ≠ "" → l.Unshared n t.path gid) :
    (l.setTask gid t).Apart n := by
  intro first one ho hf hp s two ht hn hs hot
  change (l.tasks.insert gid t).find? first = some one at ho
  change (l.tasks.insert gid t).find? s = some two at ht
  rw [OrdMap.find?_insert] at ho ht
  split_ifs at ho ht with hsa hl hl
  · exact absurd (hl.trans hsa.symm) hn
  · cases ho
    exact hfr hf hp s two ht (fun h => hn (h.trans hsa.symm)) hs hot
  · cases ht
    intro hk
    exact hfr hs hot first one ho hsa hf hp hk.symm
  · exact hapart first one ho hf hp s two ht hn hs hot

omit [DecidableEq K] in
/-- The rows of the store do not matter. -/
theorem Apart.of_tasks (hapart : l.Apart n) (ht : nx.tasks = l.tasks) : nx.Apart n := by
  intro first one ho hf hp s two htw
  rw [ht] at ho htw
  exact hapart first one ho hf hp s two htw

omit [DecidableEq K] in
theorem Unshared.of_tasks (hu : l.Unshared n p gid) (ht : nx.tasks = l.tasks) :
    nx.Unshared n p gid := by
  intro o t hf
  rw [ht] at hf
  exact hu o t hf

omit [DecidableEq K] in
/-- The task itself does not count. -/
theorem Unshared.setTask (t : PathTask) (hu : l.Unshared n p gid) :
    (l.setTask gid t).Unshared n p gid := by
  intro o g hf hn
  change (l.tasks.insert gid t).find? o = some g at hf
  rw [OrdMap.find?_insert, if_neg hn] at hf
  exact hu o g hf hn

section Claim

variable {p : String} {os : PathOptions}

theorem claimTransfer_tasks : (l.claimTransfer n f p gid).2.tasks = l.tasks := by
  unfold claimTransfer
  dsimp only
  split <;> rfl

variable {row : PathRow}

theorem claimTransfer_key (hc : (l.claimTransfer n f p gid).1 = some row) :
    n.key row.path = n.key p := by
  unfold claimTransfer at hc
  dsimp only at hc
  split at hc
  · cases hc
  · next o g ho =>
    cases hc
    rw [Option.or_eq_some_iff] at ho
    have hm : (o, row) ∈ l.rows.entries.filter fun e =>
        e.1 ≠ gid ∧ n.key e.2.path = n.key p := by
      rcases ho with hf | ⟨-, hh⟩
      · exact List.mem_of_find?_eq_some hf
      · exact List.mem_of_mem_head? hh
    have ht := (List.mem_filter.mp hm).2
    rw [decide_eq_true_eq] at ht
    exact ht.2

theorem claimRecord_tasks : (l.claimRecord n f gid os p).2.tasks = l.tasks := by
  have ht : (l.claimTransfer n f p gid).2.tasks = l.tasks := claimTransfer_tasks
  unfold claimRecord
  split
  · rfl
  · split
    · next hc =>
      rw [hc] at ht
      exact ht
    · next hc =>
      rw [hc] at ht
      exact ht

/-- A row is claimed only for a path that no other task writes to. -/
theorem claimRecord_unshared (hc : (l.claimRecord n f gid os p).1 = some row) :
    l.Unshared n row.path gid := by
  unfold claimRecord at hc
  split at hc
  · cases hc
  · next hg =>
    have hf : l.writing n p gid = false := by
      simp only [not_or, Bool.not_eq_true] at hg
      exact hg.2.2.2
    split at hc
    · cases hc
    · next g _ ht =>
      split at hc
      · cases hc
      · cases hc
        have hr : (l.claimTransfer n f p gid).1 = some row := by
          rw [ht]
        exact (unshared_of_writing hf).congr (claimTransfer_key hr)

theorem storedRecord_tasks : (l.storedRecord n f gid os).2.tasks = l.tasks := by
  unfold storedRecord
  split
  · rfl
  · split
    · rfl
    · exact claimRecord_tasks

/-- The stored record is the task's own row, or one that it may claim. -/
theorem storedRecord_unshared (ho : ∀ row, l.rows.find? gid = some row →
      row.positive = true → (storedSuffix f os row.path).isSome →
        l.Unshared n row.path gid)
    (hs : (l.storedRecord n f gid os).1 = some row) (hp : row.positive = true)
    (hsu : (storedSuffix f os row.path).isSome) : l.Unshared n row.path gid := by
  unfold storedRecord at hs
  split at hs
  · next g hf =>
    cases hs
    exact ho row hf hp hsu
  · split at hs
    · cases hs
    · exact claimRecord_unshared hs

end Claim

section Steps

variable (hapart : library.Apart naming)

include hapart

variable {t : PathTask}

theorem resume_apart (ho : ∀ row, library.rows.find? gid = some row → row.positive = true →
      (storedSuffix f t.options row.path).isSome → library.Unshared naming row.path gid) :
    (library.resume naming f gid t).Apart naming := by
  have ht : (library.storedRecord naming f gid t.options).2.tasks =
      library.tasks := storedRecord_tasks
  have hu : ∀ row, (library.storedRecord naming f gid t.options).1 = some row →
      row.positive = true →
      (storedSuffix f t.options row.path).isSome → library.Unshared naming row.path gid :=
    fun _ hr => storedRecord_unshared ho hr
  unfold resume
  split
  · exact hapart
  · split
    · next hs =>
      rw [hs] at ht
      exact hapart.of_tasks ht
    · next row next hs =>
      rw [hs] at ht hu
      have hn := hapart.of_tasks ht
      split
      · next hp =>
        split
        · exact hn
        · next s hsu =>
          apply hn.setTask
          intro _ _
          apply Unshared.of_tasks _ ht
          exact hu row rfl hp (by rw [hsu]; rfl)
      · exact hn

omit [DecidableEq K] in
theorem Apart.withTask {f : PathTask → Library} (hf : ∀ t, library.tasks.find? gid = some t →
      (f t).Apart naming) : (library.withTask gid f).Apart naming := by
  unfold Library.withTask
  split
  · exact hapart
  · next t hfi => exact hf t hfi

theorem add_apart {os : PathOptions} {p : Bool}
    (ho : ∀ row, library.rows.find? gid = some row →
      row.positive = true → (storedSuffix f os row.path).isSome →
        library.writing naming row.path gid = false) :
    (library.add naming f gid os p).Apart naming := by
  unfold add
  apply resume_apart
  · exact hapart.setTask fun _ hpa => absurd rfl hpa
  · intro row hr hp hs
    exact (unshared_of_writing (ho row hr hp hs)).setTask _

theorem start_apart (ho : ∀ t, library.tasks.find? gid = some t → ∀ row,
      library.rows.find? gid = some row → row.positive = true →
      (storedSuffix f t.options row.path).isSome → library.writing naming row.path gid = false) :
    (library.start naming f gid).Apart naming := by
  apply hapart.withTask
  intro t hf
  split
  · next hw =>
    apply resume_apart
    · apply hapart.setTask
      intro _ hpa
      exact hapart gid t hf (by rw [unfinished, hw]) hpa
    · intro row hr hp hs
      have hfr := ho t hf row hr hp hs
      exact (unshared_of_writing hfr).setTask _
  · exact hapart

theorem choosePath_apart (p : String) : (library.choosePath naming f gid t p).Apart naming := by
  unfold choosePath
  dsimp only
  split
  · split
    · next ha =>
      split
      · apply hapart.setTask
        intro _ _
        exact unshared_of_writing (by simpa using ha.1)
      · exact hapart
    · split
      · split
        · exact hapart
        · split
          · exact hapart
          · next c hn =>
            apply hapart.setTask
            intro _ _
            have ht := List.find?_some hn
            simp only [Bool.and_eq_true, Bool.not_eq_eq_eq_not, Bool.not_true,
              Bool.or_eq_false_iff] at ht
            exact unshared_of_writing ht.2.1
      · next hk =>
        apply hapart.setTask
        intro _ _
        rw [not_or, Bool.not_eq_true] at hk
        exact unshared_of_writing hk.1
  · next hf =>
    apply hapart.setTask
    intro _ _
    rw [not_or, Bool.not_eq_true] at hf
    exact unshared_of_writing hf.1

theorem decidePath_apart : (library.decidePath naming f gid).Apart naming := by
  apply hapart.withTask
  intro t hf
  split
  · generalize naming.joinPath t.options.dir _ = p
    dsimp only
    by_cases hs : library.writing naming p gid = true
    · rw [if_pos hs]
      exact choosePath_apart hapart p
    · rw [if_neg hs]
      have ht : (library.claimRecord naming f gid t.options p).2.tasks =
            library.tasks := claimRecord_tasks
      have hu : ∀ row, (library.claimRecord naming f gid t.options p).1 =
            some row → library.Unshared naming row.path gid := fun _ hr => claimRecord_unshared hr
      split
      · next row next hc =>
        rw [hc] at ht hu
        apply (hapart.of_tasks ht).setTask
        intro _ _
        exact (hu row rfl).of_tasks ht
      · next hc =>
        rw [hc] at ht
        exact choosePath_apart (hapart.of_tasks ht) p
  · exact hapart

theorem publish_apart : (library.publish naming f gid).Apart naming := by
  apply hapart.withTask
  intro t hf
  split
  · next ha =>
    have hs : t.path ≠ "" → library.Unshared naming t.path gid :=
      hapart gid t hf (by rw [unfinished, ha.1])
    split
    · exact hapart
    · next p hp =>
      have hfr : p ≠ "" → library.Unshared naming p gid := by
        intro hn
        split at hp
        · split at hp
          · have ht := List.find?_some hp
            simp only [Bool.and_eq_true, Bool.not_eq_eq_eq_not, Bool.not_true] at ht
            exact unshared_of_writing ht.2
          · cases hp
        · cases hp
          exact hs hn
      split <;> exact hapart.setTask fun _ hn => hfr hn
  · exact hapart

omit [DecidableEq K] in
theorem become_apart (s : TaskState) : (library.become gid s).Apart naming := by
  apply hapart.withTask
  intro t hf
  split
  · next hu =>
    exact hapart.setTask fun _ hp => hapart gid t hf hu hp
  · exact hapart

theorem requeue_apart (hfr : ∀ t, library.tasks.find? gid = some t → t.path ≠ "" →
      library.writing naming t.path gid = false) : (library.requeue gid).Apart naming := by
  apply hapart.withTask
  intro t hf
  split
  · exact hapart
  · exact hapart.setTask fun _ hp =>
      unshared_of_writing (hfr t hf hp)

omit [DecidableEq K] in
theorem checkpoint_apart : (library.checkpoint f gid).Apart naming := by
  apply hapart.withTask
  intro t _
  split
  · exact hapart
  · exact hapart.of_tasks rfl

theorem relocated_apart {dir : String} (hfr : ∀ t, library.tasks.find? gid = some t → t.path ≠ "" →
      library.writing naming (relocatedPath naming t dir) gid = false) :
    (library.relocated naming f gid dir).Apart naming := by
  apply hapart.withTask
  intro t hf
  split
  · apply checkpoint_apart
    apply hapart.setTask
    intro _ hp
    split at hp
    · exact absurd rfl hp
    · next hold =>
      rw [if_neg hold]
      exact unshared_of_writing (hfr t hf hold)
  · exact hapart

omit [DecidableEq K] in
theorem removeResult_apart : (library.removeResult gid).Apart naming := by
  apply hapart.withTask
  intro t _
  split
  · exact hapart
  · intro first one ho hf hp s two ht
    change (library.tasks.erase gid).find? first = some one at ho
    change (library.tasks.erase gid).find? s = some two at ht
    rw [OrdMap.find?_erase] at ho ht
    split_ifs at ho ht
    exact hapart first one ho hf hp s two ht

end Steps

/-- Where the code takes a path without asking the engine, no other task
writes to it: a row of the task's own, the path of a task that is queued again
and the new path of a relocated one. -/
def Checked (naming : Naming K) (library : Library) (event : Event) : Prop :=
  match event.input with
  | .add gid options _ => ∀ row ∈ library.rows.find? gid, row.positive = true →
      (storedSuffix event.facts options row.path).isSome →
        library.writing naming row.path gid = false
  | .start gid => ∀ task ∈ library.tasks.find? gid,
      ∀ row ∈ library.rows.find? gid, row.positive = true →
      (storedSuffix event.facts task.options row.path).isSome →
        library.writing naming row.path gid = false
  | .requeue gid => ∀ task ∈ library.tasks.find? gid, task.path ≠ "" →
      library.writing naming task.path gid = false
  | .relocated gid dir => ∀ task ∈ library.tasks.find? gid, task.path ≠ "" →
      library.writing naming (relocatedPath naming task dir) gid = false
  | _ => True

instance (naming : Naming K) (library : Library) (event : Event) :
    Decidable (Checked naming library event) := by
  unfold Checked
  split <;> infer_instance

theorem step_apart (hapart : l.Apart n) {e : Event} (hc : Checked n l e) :
    (l.step n e).Apart n := by
  obtain ⟨i, f⟩ := e
  cases i with
  | add gid os p => exact add_apart hapart hc
  | start gid => exact start_apart hapart hc
  | decidePath gid => exact decidePath_apart hapart
  | publish gid => exact publish_apart hapart
  | become gid s => exact become_apart hapart s
  | requeue gid => exact requeue_apart hapart hc
  | relocated gid dir => exact relocated_apart hapart hc
  | checkpoint gid => exact checkpoint_apart hapart
  | discardState gid => exact hapart.of_tasks rfl
  | removeResult gid => exact removeResult_apart hapart
  | restart =>
    intro first one ho
    cases ho

/-- Paths are compared as they are, and every file is called `f`. -/
def plainNaming : Naming String where
  key path := path
  joinPath dir name := dir ++ "/" ++ name
  relative _ _ := none
  filename _ := "f"

/-- Two downloads of the same name in two directories. -/
def twoDirectories : List Event := [⟨.add 1 { dir := "a", out := "f" } false, {}⟩,
    ⟨.add 2 { dir := "b", out := "f" } false, {}⟩,
    ⟨.start 1, {}⟩, ⟨.decidePath 1, {}⟩,
    ⟨.start 2, {}⟩, ⟨.decidePath 2, {}⟩]

end Library

end Aria2Next
