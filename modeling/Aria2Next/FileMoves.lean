/-
Moving a set of files to another place, all of them or none.

The file system is what its operations leave behind: the contents of the
files and the set of directories.  Which operation fails, and how far it got,
is the environment's choice, one `Fault` for each call of `moveFile`; the
calls that move files on and those that move them back have their own.
Paths stand for the files they resolve to, and what the path library says
about them is a parameter.
-/
import Aria2Next.Text

namespace Aria2Next.Files

open Function List

universe u

variable {P : Type u}

/-- What the path library says about a path. -/
structure Paths (P : Type u) where
  /-- The directories above a path, the outermost first. -/
  parents : P → List P
  hasRelativePath : P → Bool
  startsWith : P → P → Bool
  shown : P → Text

structure FileSystem (P : Type u) where
  files : P → Option Text
  directories : P → Bool

/-- `fs::exists`. -/
def FileSystem.fileExists (disk : FileSystem P) (path : P) : Bool :=
  (disk.files path).isSome || disk.directories path

/-- Every file lies in directories, and no directory is a file. -/
structure FileSystem.Tree (paths : Paths P) (disk : FileSystem P) : Prop where
  isFile : ∀ path, (disk.files path).isSome = true → disk.directories path = false
  parents : ∀ path, (disk.files path).isSome = true →
    ∀ dir ∈ paths.parents path, disk.directories dir = true

/-- What `fs::rename` reports. -/
inductive Rename where
  | done
  | crossDevice
  | error (message : Text)
deriving DecidableEq

/-- The failures of one call of `moveFile`. -/
structure Fault where
  /-- `create_directories` fails after making that many of the directories. -/
  directories : Option (Nat × Text) := none
  rename : Rename := .done
  /-- `copy_file` fails: without a destination, or after that many bytes. -/
  copy : Option (Option Nat × Text) := none
  remove : Option Text := none

namespace Fault

/-- The call reports an error. -/
def fails (fault : Fault) : Bool := fault.directories.isSome ||
    match fault.rename with
    | .done => false
    | .error _ => true
    | .crossDevice => fault.copy.isSome || fault.remove.isSome

/-- The call reports an error with something at its destination: `copy_file`
stopped half way, or the copied file could not be removed. -/
def leaves (fault : Fault) : Bool := fault.directories.isNone && fault.rename == .crossDevice &&
    match fault.copy with
    | some (written, _) => written.isSome
    | none => fault.remove.isSome

/-- The directories that exist once the call is over. -/
def made (fault : Fault) (parents : List P) : List P :=
  match fault.directories with
  | some (count, _) => parents.take count
  | none => parents

end Fault

variable {d : FileSystem P} {moves mv : List (P × P)}

theorem missing_file {p : P} (hm : d.fileExists p = false) :
    d.files p = none ∧ d.directories p = false := by
  simpa [FileSystem.fileExists] using hm

theorem missing_iff (p : P) :
    d.fileExists p = false ↔ (d.files p).isSome = false ∧ ¬ d.directories p = true := by
  simp [FileSystem.fileExists]

theorem find?_eq_none_of_missing (hm : ∀ m ∈ mv, d.fileExists m.2 = false) :
    mv.find? (fun m => d.fileExists m.2) = none := by
  rw [List.find?_eq_none]
  intro m hmo
  simp [hm m hmo]

/-- No path of the two pairs is the same. -/
def Apart (left right : P × P) : Prop :=
  left.1 ≠ right.1 ∧ left.1 ≠ right.2 ∧ left.2 ≠ right.1 ∧ left.2 ≠ right.2

theorem Apart.symm {left right : P × P} (ha : Apart left right) : Apart right left :=
  ⟨ha.1.symm, ha.2.2.1.symm, ha.2.1.symm, ha.2.2.2.symm⟩

/-- Pairwise distinct paths, as the inductions use them. -/
structure Distinct (moves : List (P × P)) : Prop where
  pairs : moves.Pairwise Apart
  sides : ∀ move ∈ moves, ∀ other ∈ moves, move.1 ≠ other.2

theorem distinct_of_nodup (hno : (mv.map Prod.fst ++ mv.map Prod.snd).Nodup) : Distinct mv := by
  obtain ⟨hs, ht, hc⟩ := nodup_append.mp hno
  have hn : ∀ left ∈ mv, ∀ right ∈ mv, left.1 ≠ right.2 := by
    intro left hl right hr
    exact hc left.1 (mem_map_of_mem hl) right.2 (mem_map_of_mem hr)
  have hp := (pairwise_map.mp hs).and (pairwise_map.mp ht)
  constructor
  · apply hp.imp_of_mem
    intro left right hl hr hb
    exact ⟨hb.1, hn left hl right hr, (hn right hr left hl).symm, hb.2⟩
  · exact hn

theorem Distinct.tail {m : P × P} (hdi : Distinct (m :: mv)) : Distinct mv := by
  constructor
  · exact hdi.pairs.of_cons
  · intro left hl right hr
    exact hdi.sides left (mem_cons_of_mem m hl) right (mem_cons_of_mem m hr)

theorem Distinct.reverse (hdi : Distinct mv) : Distinct mv.reverse := by
  constructor
  · rw [pairwise_reverse]
    exact hdi.pairs.imp Apart.symm
  · intro left hl right hr
    exact hdi.sides left (mem_reverse.mp hl) right (mem_reverse.mp hr)

section Operations

variable [DecidableEq P]

def FileSystem.createDirectories (disk : FileSystem P) (made : List P) : FileSystem P :=
  { disk with
    directories := fun path => disk.directories path || decide (path ∈ made) }

def FileSystem.write (disk : FileSystem P) (path : P) (content : Option Text) : FileSystem P :=
  { disk with files := update disk.files path content }

def FileSystem.removeDirectory (disk : FileSystem P) (dir : P) : FileSystem P :=
  { disk with directories := update disk.directories dir false }

/-- `rename()`, or a copy where rename cannot cross volumes. -/
def moveFile (paths : Paths P) (disk : FileSystem P) (source target : P)
    (fault : Fault) : Option Text × FileSystem P :=
  let disk := disk.createDirectories (fault.made (paths.parents target))
  match fault.directories with
  | some (_, message) => (some message, disk)
  | none =>
    match fault.rename with
    | .done =>
      (none, (disk.write target (disk.files source)).write source none)
    | .error message => (some message, disk)
    | .crossDevice =>
      match fault.copy with
      | some (none, message) => (some message, disk)
      | some (some written, message) =>
        (some message, disk.write target ((disk.files source).map (List.take written)))
      | none =>
        let disk := disk.write target (disk.files source)
        match fault.remove with
        | some message => (some message, disk)
        | none => (none, disk.write source none)

/-- What the file system answers during one call of `moveFiles`. -/
structure Environment (paths : Paths P) where
  /-- The failures of the call that moves the pair of that number. -/
  faults : Nat → Fault
  /-- The failures of the call that moves the pair of that number back. -/
  back : Nat → Fault
  isEmpty : FileSystem P → P → Bool
  isEmpty_files : ∀ disk dir, isEmpty disk dir = true →
    ∀ path, (disk.files path).isSome = true → dir ∉ paths.parents path

structure Outcome (P : Type u) where
  /-- Empty where the files were moved. -/
  message : Text
  disk : FileSystem P
  /-- What the calls that move files back returned, which the source drops. -/
  rollback : List (Option Text)

variable {paths pt : Paths P}

/-- The inner loop over `j`: the moved pairs go back, the last one first. -/
def moveBack (env : Environment paths) :
    FileSystem P → List (P × P) → FileSystem P × List (Option Text)
  | disk, [] => (disk, [])
  | disk, (source, target) :: before =>
    let (error, disk) :=
      moveFile paths disk target source (env.back before.length)
    let (disk, errors) := moveBack env disk before
    (disk, error :: errors)

/-- Removes the directories below the root that a moved file leaves empty, the
innermost first. -/
def tidyAbove (env : Environment paths) (root : P) : FileSystem P → List P → FileSystem P
  | disk, [] => disk
  | disk, dir :: outer =>
    if dir ≠ root ∧ paths.hasRelativePath dir ∧ paths.startsWith dir root ∧
        env.isEmpty disk dir then
      tidyAbove env root (disk.removeDirectory dir) outer
    else disk

variable (env : Environment paths)

def tidy (root : P) (disk : FileSystem P) (moves : List (P × P)) : FileSystem P :=
  moves.foldl (fun disk move =>
    tidyAbove env root disk (paths.parents move.1).reverse) disk

/-- The loop over `i`, with the pairs it has moved, the last one first. -/
def moveEach (env : Environment paths) (root : P) :
    FileSystem P → List (P × P) → List (P × P) → Outcome P
  | disk, moved, [] =>
    { message := [], disk := tidy env root disk moved.reverse, rollback := [] }
  | disk, moved, (source, target) :: rest =>
    match moveFile paths disk source target (env.faults moved.length) with
    | (none, disk) => moveEach env root disk ((source, target) :: moved) rest
    | (some error, disk) =>
      let (disk, errors) := moveBack env disk moved
      { message := Text.of "Cannot move " ++ paths.shown source ++
          Text.of " to " ++ paths.shown target ++ Text.of ": " ++ error
        disk := disk
        rollback := errors }

def moveFiles (root : P) (disk : FileSystem P) (moves : List (P × P)) : Outcome P :=
  match moves.find? (fun move => disk.fileExists move.2) with
  | some move =>
    { message := paths.shown move.2 ++ Text.of " already exists"
      disk := disk
      rollback := [] }
  | none => moveEach env root disk [] moves

/-- Everything moved, or, where the files could be moved back, nothing. -/
def AllOrNothing (root : P) (disk : FileSystem P) (moves : List (P × P)) : Prop :=
  let outcome := moveFiles env root disk moves
  (outcome.message = [] → ∀ move ∈ moves, outcome.disk.files move.2 = disk.files move.1 ∧
      outcome.disk.fileExists move.1 = false) ∧
  (outcome.message ≠ [] → (∀ error ∈ outcome.rollback, error = none) → ∀ move ∈ moves,
      outcome.disk.files move.1 = disk.files move.1 ∧ (disk.fileExists move.2 = false →
          outcome.disk.fileExists move.2 = false))

/-- The failing pair leaves nothing at its target, and no directory made for
a target is one of the paths: of the targets where the move failed, of the
sources where it succeeded. -/
def LeavesNothing (moves : List (P × P)) : Prop :=
  ((∀ index < moves.length, (env.faults index).fails = false) →
    ∀ move ∈ moves, ∀ other ∈ moves, move.1 ∉ paths.parents other.2) ∧
  ∀ moved failed rest, moves = moved ++ failed :: rest →
    (∀ index < moved.length, (env.faults index).fails = false) →
    (env.faults moved.length).fails = true →
    (∀ index < moved.length, (env.back index).fails = false) →
    (env.faults moved.length).leaves = false ∧
      ∀ move ∈ moves, (∀ other ∈ moved, move.2 ∉ paths.parents other.2) ∧
        move.2 ∉ (env.faults moved.length).made (paths.parents failed.2)

/-- A file moved, by whichever operations. -/
def FileSystem.moved (paths : Paths P) (disk : FileSystem P) (move : P × P) : FileSystem P :=
  let disk := disk.createDirectories (paths.parents move.2)
  (disk.write move.2 (disk.files move.1)).write move.1 none

section

variable (disk d : FileSystem P)

variable {fl : Fault} {moved m : List (P × P)}

theorem moveFile_done (mo : P × P) (hf : fl.fails = false) :
    moveFile pt d mo.1 mo.2 fl = (none, d.moved pt mo) := by
  rcases fl with ⟨directories, rename, copy, remove⟩
  simp only [Fault.fails, Bool.or_eq_false_iff, Option.isSome_eq_false_iff,
    Option.isNone_iff_eq_none] at hf
  rcases hf with ⟨rfl, hr⟩
  cases rename with
  | done => rfl
  | error m => simp at hr
  | crossDevice =>
    simp only [Bool.or_eq_false_iff, Option.isSome_eq_false_iff, Option.isNone_iff_eq_none] at hr
    rcases hr with ⟨rfl, rfl⟩
    rfl

theorem moveFile_failed (move : P × P) (hf : fl.fails = true) :
    ∃ error, (moveFile pt d move.1 move.2 fl).1 = some error := by
  rcases fl with ⟨di, rename, copy, remove⟩
  cases di with
  | some di => exact ⟨_, rfl⟩
  | none =>
    cases rename with
    | done => simp [Fault.fails] at hf
    | error m => exact ⟨_, rfl⟩
    | crossDevice =>
      rcases copy with _ | ⟨_ | written, m⟩
      · cases remove with
        | none => simp [Fault.fails] at hf
        | some m => exact ⟨_, rfl⟩
      · exact ⟨_, rfl⟩
      · exact ⟨_, rfl⟩

theorem moveFile_failed_directories (s t : P) (f : Fault) (p : P) :
    (moveFile pt d s t f).2.directories p = (d.directories p ||
        decide (p ∈ f.made (pt.parents t))) := by
  rcases f with ⟨_ | directories, _ | _ | message, _ | ⟨_ | written, message⟩, _ | message⟩ <;> rfl

/-- A failing call changes no file but its target, and that one exactly when
it leaves something behind. -/
theorem moveFile_failed_files (m : P × P) (hf : fl.fails = true)
    (hs : (d.files m.1).isSome = true) :
    (∀ p, p ≠ m.2 → (moveFile pt d m.1 m.2 fl).2.files p = d.files p) ∧
    ((moveFile pt d m.1 m.2 fl).2.files m.2).isSome = (fl.leaves || (d.files m.2).isSome) := by
  rcases fl with ⟨_ | directories, _ | _ | message, _ | ⟨_ | written, message⟩, _ | message⟩ <;>
  simp_all [Fault.fails, Fault.leaves, moveFile, FileSystem.write, FileSystem.createDirectories]

/-- The pairs moved, the last one first. -/
def FileSystem.movedAll (paths : Paths P) (disk : FileSystem P)
    (moved : List (P × P)) : FileSystem P :=
  moved.foldr (fun move disk => disk.moved paths move) disk

/-- The pairs moved back, the first of the list first. -/
def FileSystem.returned (paths : Paths P) (disk : FileSystem P)
    (moved : List (P × P)) : FileSystem P :=
  moved.foldl (fun disk move => disk.moved paths move.swap) disk

variable (env : Environment paths)

/-- As long as no call fails the loop moves one pair after the other. -/
theorem moveEach_append (ro : P) (d : FileSystem P) (mo : List (P × P)) : ∀ m r : List (P × P),
      (∀ i, m.length ≤ i → i < m.length + mo.length → (env.faults i).fails = false) →
      moveEach env ro (d.movedAll paths m) m (mo ++ r) =
        moveEach env ro (d.movedAll paths (mo.reverse ++ m)) (mo.reverse ++ m) r := by
  induction mo with
  | nil => intro m r _; rfl
  | cons mv mo ih =>
    intro m r hf
    have hfi : (env.faults m.length).fails = false := by
      apply hf
      · exact Nat.le_refl _
      · simp
    have hn := ih (mv :: m) r (by
      intro i hl hh
      simp only [length_cons] at hl hh
      apply hf
      · omega
      · simp only [length_cons]
        omega)
    simp only [reverse_cons, append_assoc, cons_append, nil_append]
    rw [← hn, moveEach, moveFile_done _ mv hfi]
    rfl

theorem moveBack_done (m : List (P × P)) : ∀ d : FileSystem P,
      (∀ i < m.length, (env.back i).fails = false) →
      moveBack env d m = (d.returned paths m, List.replicate m.length none) := by
  induction m with
  | nil => intro d _; rfl
  | cons mo b ih =>
    intro d hb
    have hl : moveFile paths d mo.2 mo.1 (env.back b.length) = (none, d.moved paths mo.swap) :=
      moveFile_done d mo.swap (hb b.length (by simp))
    have hr := ih (d.moved paths mo.swap) (by
      intro i hi
      apply hb
      simp only [length_cons]
      omega)
    rw [moveBack, hl]
    simp only [hr]
    rfl

/-- The calls report no error exactly where none of their faults does. -/
theorem moveBack_errors (m : List (P × P)) : ∀ d : FileSystem P,
      (∀ e ∈ (moveBack env d m).2, e = none) → ∀ i < m.length, (env.back i).fails = false := by
  induction m with
  | nil => intro d _ i hi; simp at hi
  | cons mo b ih =>
    intro d he i hi
    simp only [moveBack, mem_cons, forall_eq_or_imp] at he
    rcases Nat.lt_succ_iff_lt_or_eq.mp hi with hl | rfl
    · exact ih _ he.2 i hl
    · by_contra hf
      rw [Bool.not_eq_false] at hf
      have her : ∃ e, (moveFile paths d mo.2 mo.1
          (env.back b.length)).1 = some e := moveFile_failed d mo.swap hf
      rw [he.1] at her
      simp at her

theorem movedAll_files_other {p : P} (ho : ∀ mo ∈ m, p ≠ mo.1 ∧ p ≠ mo.2) :
    (d.movedAll pt m).files p = d.files p := by
  induction m with
  | nil => rfl
  | cons mo b ih =>
    rw [forall_mem_cons] at ho
    have hb := ih ho.2
    change update (update _ _ _) _ _ p = _
    rw [update_of_ne ho.1.1, update_of_ne ho.1.2]
    exact hb

theorem movedAll_files (hdi : Distinct m) : ∀ mo ∈ m, (d.movedAll pt m).files mo.1 = none ∧
        (d.movedAll pt m).files mo.2 = d.files mo.1 := by
  induction m with
  | nil => intro mo hm; simp at hm
  | cons l before ih =>
    have hl := (pairwise_cons.mp hdi.pairs).1
    have hsi := hdi.sides l mem_cons_self l mem_cons_self
    intro mo hm
    change update (update _ _ _) _ _ mo.1 = _ ∧ update (update _ _ _) _ _ mo.2 = _
    rcases mem_cons.mp hm with rfl | hm
    · rw [update_self, update_of_ne hsi.symm, update_self]
      constructor
      · rfl
      · apply movedAll_files_other
        intro o ho
        exact ⟨(hl o ho).1, (hl o ho).2.1⟩
    · obtain ⟨hsa, hs, ht, hb⟩ := hl mo hm
      rw [update_of_ne hsa.symm, update_of_ne ht.symm, update_of_ne hs.symm, update_of_ne hb.symm]
      exact ih hdi.tail mo hm

theorem movedAll_directories (m : List (P × P)) (p : P) :
    (d.movedAll pt m).directories p = true ↔ d.directories p = true ∨
        ∃ mo ∈ m, p ∈ pt.parents mo.2 := by
  induction m with
  | nil => simp [FileSystem.movedAll]
  | cons mo b ih =>
    change ((d.movedAll pt b).directories p || _) = true ↔ _
    rw [Bool.or_eq_true, ih, decide_eq_true_eq, exists_mem_cons_iff, or_assoc]
    exact or_congr_right or_comm

/-- Moving back undoes the moves, whatever has happened at a path that none
of them touches. -/
theorem returned_files {s : P} (hdi : Distinct m) (hs : ∀ mo ∈ m, s ≠ mo.1 ∧ s ≠ mo.2)
    (ht : ∀ mo ∈ m, d.files mo.2 = none) :
    ∀ now : FileSystem P, (∀ p, p ≠ s → now.files p = (d.movedAll pt m).files p) →
      (now.returned pt m).files s = now.files s ∧ ∀ p, p ≠ s →
          (now.returned pt m).files p = d.files p := by
  induction m with
  | nil =>
    intro now hn
    exact ⟨rfl, hn⟩
  | cons l b ih =>
    intro now hn
    have hl := (pairwise_cons.mp hdi.pairs).1
    rw [forall_mem_cons] at hs ht
    obtain ⟨hk, hr⟩ := ih hdi.tail hs.2 ht.2 (now.moved pt l.swap) (by
        intro p hp
        change update (update now.files l.1 (now.files l.2)) l.2 none p = _
        by_cases hta : p = l.2
        · subst hta
          rw [update_self, movedAll_files_other d (by
            intro o ho
            exact ⟨(hl o ho).2.2.1, (hl o ho).2.2.2⟩)]
          exact ht.1.symm
        rw [update_of_ne hta]
        by_cases hso : p = l.1
        · subst hso
          rw [update_self, hn _ hs.1.2.symm]
          exact (movedAll_files d hdi l mem_cons_self).2.trans (movedAll_files_other d (by
              intro o ho
              exact ⟨(hl o ho).1, (hl o ho).2.1⟩)).symm
        rw [update_of_ne hso, hn p hp]
        change update (update _ _ _) _ _ p = _
        rw [update_of_ne hso, update_of_ne hta]
        rfl)
    refine ⟨hk.trans ?_, hr⟩
    change update (update _ l.1 _) l.2 _ s = _
    rw [update_of_ne hs.1.2, update_of_ne hs.1.1]
    rfl

end

theorem returned_directories {m : List (P × P)} : ∀ now : FileSystem P,
      (∀ mo ∈ m, ∀ dir ∈ pt.parents mo.1, now.directories dir = true) →
      ∀ p, (now.returned pt m).directories p = now.directories p := by
  induction m with
  | nil => intro now _ p; rfl
  | cons l b ih =>
    intro now hp p
    rw [forall_mem_cons] at hp
    have hs : (now.moved pt l.swap).directories = now.directories := by
      funext dir
      change (now.directories dir || decide (dir ∈ pt.parents l.1)) = _
      by_cases hdi : dir ∈ pt.parents l.1
      · rw [hp.1 dir hdi, Bool.true_or]
      · simp [hdi]
    have hr := ih (now.moved pt l.swap) (by
      rw [hs]
      exact hp.2) p
    rw [hs] at hr
    exact hr

section

variable (env : Environment paths) (rt r : P)

theorem tidyAbove_files (di : List P) :
    ∀ d : FileSystem P, (tidyAbove env r d di).files = d.files := by
  induction di with
  | nil => intro d; rfl
  | cons dir o ih =>
    intro d
    rw [tidyAbove]
    split
    · exact ih _
    · rfl

/-- Tidying makes no directory, and takes none that a file lies in. -/
theorem tidyAbove_directories (di : List P) : ∀ (d : FileSystem P) (p : P),
      ((tidyAbove env rt d di).directories p = true → d.directories p = true) ∧
      (∀ f, (d.files f).isSome = true → p ∈ paths.parents f → d.directories p = true →
        (tidyAbove env rt d di).directories p = true) := by
  induction di with
  | nil => intro d p; exact ⟨id, fun _ _ _ hdi => hdi⟩
  | cons dir o ih =>
    intro d p
    rw [tidyAbove]
    split
    case isFalse => exact ⟨id, fun _ _ _ hdi => hdi⟩
    case isTrue he =>
      have hr := ih (d.removeDirectory dir) p
      constructor
      · intro hpa
        have hdi := hr.1 hpa
        by_cases hs : p = dir
        · subst hs
          simp [FileSystem.removeDirectory] at hdi
        · change update d.directories dir false p = true at hdi
          rwa [update_of_ne hs] at hdi
      · intro f hf hp hdi
        have hn : p ≠ dir := by
          rintro rfl
          exact env.isEmpty_files d p he.2.2.2 f hf hp
        apply hr.2 f hf hp
        change update d.directories dir false p = true
        rwa [update_of_ne hn]

theorem tidy_files (m : List (P × P)) : ∀ d : FileSystem P, (tidy env r d m).files = d.files := by
  induction m with
  | nil => intro d; rfl
  | cons mo rs ih =>
    intro d
    exact (ih _).trans (tidyAbove_files env r _ d)

theorem tidy_directories (m : List (P × P)) : ∀ (d : FileSystem P) (p : P),
      ((tidy env rt d m).directories p = true → d.directories p = true) ∧
      (∀ f, (d.files f).isSome = true → p ∈ paths.parents f → d.directories p = true →
        (tidy env rt d m).directories p = true) := by
  induction m with
  | nil => intro d p; exact ⟨id, fun _ _ _ hdi => hdi⟩
  | cons mo re ih =>
    intro d p
    have hf := tidyAbove_directories env rt (paths.parents mo.1).reverse d p
    have hr := ih (tidyAbove env rt d (paths.parents mo.1).reverse) p
    rw [tidyAbove_files] at hr
    constructor
    · intro hpa
      exact hf.1 (hr.1 hpa)
    · intro f hfi hp hdi
      exact hr.2 f hfi hp (hf.2 f hfi hp hdi)

end

section Call

variable {env : Environment paths} {root r : P} {disk d : FileSystem P}
variable {moves mv : List (P × P)}

theorem moveFiles_done (hm : ∀ m ∈ moves, d.fileExists m.2 = false)
    (hf : ∀ i < moves.length, (env.faults i).fails = false) : moveFiles env root d moves =
      { message := []
        disk := tidy env root (d.movedAll paths moves.reverse) moves
        rollback := [] } := by
  have hl := moveEach_append env root d moves [] [] (by
    intro i _ hi
    apply hf
    simpa using hi)
  rw [append_nil, append_nil] at hl
  rw [moveFiles, find?_eq_none_of_missing hm]
  apply hl.trans
  rw [moveEach, reverse_reverse]

/-- The file system when the call for `failed` has returned its error. -/
def stoppedAt (env : Environment paths) (disk : FileSystem P)
    (moved : List (P × P)) (failed : P × P) : FileSystem P :=
  (moveFile paths (disk.movedAll paths moved.reverse) failed.1 failed.2 (env.faults moved.length)).2

variable {moved m rest re rs : List (P × P)} {failed f : P × P}

theorem moveFiles_stopped (hm : ∀ mo ∈ moves, d.fileExists mo.2 = false)
    (hmo : moves = m ++ f :: rest) (hf : ∀ i < m.length, (env.faults i).fails = false)
    (hfa : (env.faults m.length).fails = true) :
    (moveFiles env root d moves).message ≠ [] ∧ (moveFiles env root d moves).disk =
        (moveBack env (stoppedAt env d m f) m.reverse).1 ∧ (moveFiles env root d moves).rollback =
        (moveBack env (stoppedAt env d m f) m.reverse).2 := by
  have hl := moveEach_append env root d m [] (f :: rest) (by
    intro i _ hi
    apply hf
    simpa using hi)
  rw [append_nil, ← hmo] at hl
  obtain ⟨e, he⟩ := moveFile_failed (d.movedAll paths m.reverse) f hfa
  have hc : moveFile paths (d.movedAll paths m.reverse) f.1
      f.2 (env.faults m.length) = (some e, stoppedAt env d m f) := Prod.ext he rfl
  have hr : moveFiles env root d moves =
      moveEach env root (d.movedAll paths m.reverse) m.reverse (f :: rest) := by
    rw [moveFiles, find?_eq_none_of_missing hm]
    exact hl
  rw [hr, moveEach, length_reverse, hc]
  refine ⟨?_, rfl, rfl⟩
  intro hn
  simp only [append_eq_nil_iff] at hn
  exact absurd hn.1.1.1.1.1 (by decide +kernel)

/-- After a call that moved every file, a source exists only as a directory
made for a target. -/
theorem moved_iff (htr : d.Tree paths) (hdi : Distinct moves)
    (hs : ∀ m ∈ moves, (d.files m.1).isSome = true) :
    (∀ m ∈ moves, (tidy env root (d.movedAll paths moves.reverse) moves).files m.2 = d.files m.1 ∧
        (tidy env root (d.movedAll paths moves.reverse) moves).fileExists m.1 = false) ↔
      ∀ m ∈ moves, ∀ o ∈ moves, m.1 ∉ paths.parents o.2 := by
  have hf : ∀ m ∈ moves, (d.movedAll paths moves.reverse).files m.1 = none ∧
        (d.movedAll paths moves.reverse).files m.2 = d.files m.1 := by
    intro m hm
    exact movedAll_files d hdi.reverse m (mem_reverse.mpr hm)
  constructor
  · intro hmo m hm o ho hp
    have hma : (d.movedAll paths moves.reverse).directories m.1 = true := by
      rw [movedAll_directories]
      exact .inr ⟨o, mem_reverse.mpr ho, hp⟩
    have ht : ((d.movedAll paths moves.reverse).files o.2).isSome = true := by
      rw [(hf o ho).2]
      exact hs o ho
    have hk := (tidy_directories env root moves _ m.1).2 o.2 ht hp hma
    exact ((missing_iff _).mp (hmo m hm).2).2 hk
  · intro ha m hm
    rw [missing_iff, tidy_files, (hf m hm).1]
    refine ⟨(hf m hm).2, rfl, ?_⟩
    intro hdir
    have hma := (tidy_directories env root moves _ m.1).1 hdir
    rw [movedAll_directories, htr.isFile m.1 (hs m hm)] at hma
    obtain hfa | ⟨o, ho, hp⟩ := hma
    · exact Bool.noConfusion hfa
    · exact ha m hm o (mem_reverse.mp ho) hp

section Stopped

variable {m rest re : List (P × P)} {f : P × P}

theorem stoppedAt_directories (p : P) :
    (stoppedAt env d m f).directories p = true ↔ d.directories p = true ∨
        (∃ mo ∈ m, p ∈ paths.parents mo.2) ∨
        p ∈ (env.faults m.length).made (paths.parents f.2) := by
  rw [stoppedAt, moveFile_failed_directories, Bool.or_eq_true,
    movedAll_directories, decide_eq_true_eq, or_assoc]
  simp only [mem_reverse]

/-- Once the moved files are back, the failing pair's target is as its call
left it and every other file as it was. -/
theorem stopped_files (hdi : Distinct (m ++ f :: re))
    (hmi : ∀ mo ∈ m ++ f :: re, d.files mo.2 = none) (hs : (d.files f.1).isSome = true)
    (hf : (env.faults m.length).fails = true) :
    (((stoppedAt env d m f).returned paths m.reverse).files f.2).isSome =
      (env.faults m.length).leaves ∧ ∀ p, p ≠ f.2 → ((stoppedAt env d m f).returned paths
        m.reverse).files p = d.files p := by
  obtain ⟨hb, _, hc⟩ := pairwise_append.mp hdi.pairs
  have ha : ∀ mo ∈ m.reverse, Apart f mo := by
    intro mo hm
    exact (hc mo (mem_reverse.mp hm) f mem_cons_self).symm
  have hmo : Distinct m := by
    constructor
    · exact hb
    · intro left hl right hr
      exact hdi.sides left (mem_append_left _ hl) right (mem_append_left _ hr)
  have hk : ∀ s, (∀ mo ∈ m.reverse, s ≠ mo.1 ∧ s ≠ mo.2) →
      (d.movedAll paths m.reverse).files s = d.files s := fun s => movedAll_files_other d
  have hfi := hk f.1 (fun mo hm =>
    ⟨(ha mo hm).1, (ha mo hm).2.1⟩)
  have hsp : ∀ mo ∈ m.reverse, f.2 ≠ mo.1 ∧ f.2 ≠ mo.2 := fun mo hm => (ha mo hm).2.2
  have hse := hk f.2 hsp
  rw [← hfi] at hs
  obtain ⟨ho, hl⟩ := moveFile_failed_files _ f hf hs
  obtain ⟨hst, hba⟩ := returned_files d hmo.reverse hsp (by
    intro mo hm
    exact hmi mo (mem_append_left _ (mem_reverse.mp hm)))
    (stoppedAt env d m f) ho
  refine ⟨?_, hba⟩
  rw [hst]
  apply hl.trans
  rw [hse, hmi f (by simp)]
  simp

/-- A call that stopped and moved everything back has restored the file system
exactly where the failing pair left nothing at its target and no directory
made so far is a target. -/
theorem stopped_iff (htr : d.Tree paths) (hdi : Distinct (m ++ f :: rest))
    (hmi : ∀ mo ∈ m ++ f :: rest, d.fileExists mo.2 = false)
    (hs : ∀ mo ∈ m ++ f :: rest, (d.files mo.1).isSome = true)
    (hfa : (env.faults m.length).fails = true) :
    (∀ mo ∈ m ++ f :: rest, ((stoppedAt env d m f).returned paths
          m.reverse).files mo.1 = d.files mo.1 ∧
        ((stoppedAt env d m f).returned paths m.reverse).fileExists mo.2 = false) ↔
      (env.faults m.length).leaves = false ∧ ∀ mo ∈ m ++ f :: rest,
          (∀ o ∈ m, mo.2 ∉ paths.parents o.2) ∧
            mo.2 ∉ (env.faults m.length).made (paths.parents f.2) := by
  have hf : f ∈ m ++ f :: rest := by simp
  obtain ⟨hl, hb⟩ := stopped_files hdi (fun mo hm => (missing_file (hmi mo hm)).1) (hs f hf) hfa
  have hsa := returned_directories (stoppedAt env d m f) (by
    intro mo hm dir hdir
    rw [stoppedAt_directories]
    exact .inl (htr.parents mo.1 (hs mo (mem_append_left _ (mem_reverse.mp hm))) dir hdir))
  have hma : ∀ mo ∈ m ++ f :: rest,
      (¬ ((stoppedAt env d m f).returned paths m.reverse).directories mo.2 = true) ↔
        (∀ o ∈ m, mo.2 ∉ paths.parents o.2) ∧ mo.2 ∉ (env.faults m.length).made
            (paths.parents f.2) := by
    intro mo hm
    rw [hsa, stoppedAt_directories, (missing_file (hmi mo hm)).2]
    simp
  constructor
  · intro hr
    constructor
    · rw [← hl]
      exact ((missing_iff _).mp (hr f hf).2).1
    · intro mo hm
      rw [← hma mo hm]
      exact ((missing_iff _).mp (hr mo hm).2).2
  · rintro ⟨hle, hdirs⟩ mo hm
    refine ⟨hb mo.1 (hdi.sides mo hm f hf), ?_⟩
    rw [missing_iff]
    refine ⟨?_, (hma mo hm).mpr (hdirs mo hm)⟩
    by_cases ht : mo.2 = f.2
    · rw [ht, hl, hle]
    · rw [hb mo.2 ht, (missing_file (hmi mo hm)).1]
      rfl

end Stopped

omit [DecidableEq P] in
theorem first_failure (env : Environment pt) (m : List (P × P)) :
    (∀ i < m.length, (env.faults i).fails = false) ∨ ∃ mo f rs, m = mo ++ f :: rs ∧
        (∀ i < mo.length, (env.faults i).fails = false) ∧ (env.faults mo.length).fails = true := by
  by_cases ha : ∀ i < m.length, (env.faults i).fails = false
  · exact .inl ha
  · simp only [not_forall, Bool.not_eq_false] at ha
    have hfi := Nat.find_spec ha
    obtain ⟨hl, hf⟩ := hfi
    refine .inr ⟨m.take (.find ha), m[Nat.find ha], m.drop (.find ha + 1), ?_, ?_⟩
    · rw [getElem_cons_drop, take_append_drop]
    · rw [length_take_of_le hl.le]
      refine ⟨?_, hf⟩
      intro i hi
      by_contra hb
      exact Nat.find_min ha hi ⟨hi.trans hl, (Bool.not_eq_false _).mp hb⟩

theorem allOrNothing_present (hp : ¬ ∀ m ∈ mv, d.fileExists m.2 = false) :
    AllOrNothing env r d mv := by
  rw [AllOrNothing, moveFiles]
  cases hf : mv.find? (fun m => d.fileExists m.2) with
  | none =>
    rw [List.find?_eq_none] at hf
    exact absurd (fun m hm => by simpa using hf m hm) hp
  | some m =>
    constructor
    · intro hn
      exact absurd (append_eq_nil_iff.mp hn).2 (by decide +kernel)
    · intro _ _ m _
      exact ⟨rfl, id⟩

theorem allOrNothing_done (ht : d.Tree paths) (hdi : Distinct moves)
    (hs : ∀ m ∈ moves, (d.files m.1).isSome = true) (hmi : ∀ m ∈ moves, d.fileExists m.2 = false)
    (hf : ∀ i < moves.length, (env.faults i).fails = false) :
    AllOrNothing env root d moves ↔ ∀ m ∈ moves, ∀ o ∈ moves, m.1 ∉ paths.parents o.2 := by
  rw [AllOrNothing, moveFiles_done hmi hf]
  constructor
  · intro hal
    exact (moved_iff ht hdi hs).mp (hal.1 rfl)
  · intro ha
    constructor
    · intro _
      exact (moved_iff ht hdi hs).mpr ha
    · intro hm
      exact absurd rfl hm

theorem allOrNothing_stopped (htr : d.Tree paths) (hdi : Distinct m)
    (hso : ∀ move ∈ m, (d.files move.1).isSome = true)
    (hm : ∀ move ∈ m, d.fileExists move.2 = false) (hmov : m = moved ++ f :: rest)
    (hfa : ∀ i < moved.length, (env.faults i).fails = false)
    (hf : (env.faults moved.length).fails = true) :
    AllOrNothing env root d m ↔ ((∀ i < moved.length, (env.back i).fails = false) →
        (env.faults moved.length).leaves = false ∧
          ∀ move ∈ m, (∀ o ∈ moved, move.2 ∉ paths.parents o.2) ∧
            move.2 ∉ (env.faults moved.length).made (paths.parents f.2)) := by
  obtain ⟨hme, hdis, he⟩ : (moveFiles env root d m).message ≠ [] ∧ _ :=
    moveFiles_stopped hm hmov hfa hf
  have hb := moveBack_done env moved.reverse (stoppedAt env d moved f)
  rw [length_reverse] at hb
  subst hmov
  have hr := stopped_iff htr hdi hm hso hf
  constructor
  · intro ha hg
    have hdo := hb hg
    rw [← hr]
    intro move hmo
    obtain ⟨hs, ht⟩ := ha.2 hme (by
      intro error her
      rw [he, hdo] at her
      exact eq_of_mem_replicate her) move hmo
    rw [hdis, hdo] at hs ht
    exact ⟨hs, ht (hm move hmo)⟩
  · intro hc
    constructor
    · intro hni
      exact absurd hni hme
    · intro _ hn move hmo
      rw [he] at hn
      have hg := moveBack_errors env moved.reverse _ hn
      rw [length_reverse] at hg
      obtain ⟨hs, ht⟩ := hr.mpr (hc hg) move hmo
      rw [hdis, hb hg]
      exact ⟨hs, fun _ => ht⟩

/-- `moveFiles` is all-or-nothing exactly where the pair that stops it leaves
nothing at its target and no directory made on the way is one of the paths. -/
theorem moveFiles_all_or_nothing_iff (env : Environment paths) (root : P) (disk : FileSystem P)
    (moves : List (P × P)) (htree : disk.Tree paths)
    (hnodup : (moves.map Prod.fst ++ moves.map Prod.snd).Nodup)
    (hsources : ∀ move ∈ moves, (disk.files move.1).isSome = true) :
    AllOrNothing env root disk moves ↔ ((∀ move ∈ moves, disk.fileExists move.2 = false) →
        LeavesNothing env moves) := by
  have hdistinct := distinct_of_nodup hnodup
  constructor
  · intro hall hmissing
    constructor
    · intro hfaults
      exact (allOrNothing_done htree hdistinct hsources hmissing hfaults).mp hall
    · intro moved failed rest hmoves hfaults hfails
      exact (allOrNothing_stopped htree hdistinct hsources hmissing hmoves hfaults hfails).mp hall
  · intro hclean
    by_cases hmissing : ∀ move ∈ moves, disk.fileExists move.2 = false
    · obtain hfaults | ⟨moved, failed, rest, hmoves, hfaults, hfails⟩ := first_failure env moves
      · exact (allOrNothing_done htree hdistinct hsources hmissing
          hfaults).mpr ((hclean hmissing).1 hfaults)
      · exact (allOrNothing_stopped htree hdistinct hsources hmissing hmoves hfaults hfails).mpr
            ((hclean hmissing).2 moved failed rest hmoves hfaults hfails)
    · exact allOrNothing_present hmissing

end Call

end Operations

/-- Two directories, `0` and, not made yet, `2` inside it.  The files `1` and
`4` lie in the first one, `3` and `5` would lie in the second. -/
def twoDirectories : Paths Nat where
  parents path := if path = 3 ∨ path = 5 then [0, 2] else [0]
  hasRelativePath _ := true
  startsWith _ _ := true
  shown _ := []

def twoFiles : FileSystem Nat where
  files path :=
    if path = 1 ∨ path = 4 then some (Text.of "ab") else none
  directories path := path = 0

theorem twoFiles_tree : twoFiles.Tree twoDirectories := by
  constructor
  · intro p hp
    simp only [twoFiles] at hp ⊢
    split at hp
    · simp only [decide_eq_false_iff_not]
      omega
    · simp at hp
  · intro p hp dir hdi
    simp only [twoFiles] at hp ⊢
    split at hp
    case isTrue hc =>
      have ho : ¬ (p = 3 ∨ p = 5) := by omega
      simp only [twoDirectories, if_neg ho, mem_singleton] at hdi
      simp [hdi]
    case isFalse => simp at hp

/-- The calls that move files on fail from the pair of that number on. -/
def failingFrom (first : Nat) (fault : Fault) : Environment twoDirectories where
  faults index := if index < first then {} else fault
  back _ := {}
  isEmpty _ _ := false
  isEmpty_files := by simp

theorem moveFiles_all_or_nothing_renamed :
    AllOrNothing (failingFrom 1 { rename := .error (Text.of "denied") }) 0
      twoFiles [(1, 3), (4, 5)] := by
  apply (moveFiles_all_or_nothing_iff _ 0 twoFiles _ twoFiles_tree (by decide) (by decide)).mpr
  intro _
  constructor
  · intro hfaults
    exact absurd (hfaults 1 (by decide)) (by decide)
  · intro moved failed rest hmoves _ hfails _
    rcases moved with _ | ⟨first, _ | ⟨second, tail⟩⟩
    · exact absurd hfails (by decide)
    · obtain ⟨rfl, rfl, rfl⟩ := hmoves
      decide
    · simp at hmoves

/-- The second file cannot be renamed across volumes and its copy stops after
one byte: the first file goes back, the copied byte stays. -/
theorem moveFiles_leaves_a_partial_copy :
    ¬ AllOrNothing (failingFrom 1 {
        rename := .crossDevice
        copy := some (some 1, .of "No space left on device") }) 0 twoFiles [(1, 3), (4, 5)] := by
  intro hall
  have hrestored := hall.2 (by decide +kernel) (by decide +kernel) (4, 5) (by decide)
  exact absurd hrestored (by decide +kernel)

end Aria2Next.Files
