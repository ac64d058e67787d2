/-
`media/MuxInput`: several files read as one, each without the ID3v2 tag that it
starts with.  A file is its content; opening and reading one succeeds.
-/
import Aria2Next.Runs
import Aria2Next.Text

namespace Aria2Next.MuxInput

open Runs List

def syncsafe (a b c d : UInt8) : Nat :=
  a.toNat % 128 * 2 ^ 21 + b.toNat % 128 * 2 ^ 14 + c.toNat % 128 * 2 ^ 7 + d.toNat % 128

/-- The size that `packedAudioTag` takes from the header of a tag. -/
def tagSize : Text → Nat
  | 0x49 :: 0x44 :: 0x33 :: _ :: _ :: flags :: a :: b :: c :: d :: _ =>
    10 + syncsafe a b c d + (if flags &&& 0x10 ≠ 0 then 10 else 0)
  | _ => 0

structure Input where
  files : List Text
  starts : List Int := []
  skips : List Int := []
  size : Int := 0
  index : Nat := 0
  position : Int := 0
  /-- The offset of the stream, if it is open.  At the end of the file it
  gives nothing more, with its error bits set or not. -/
  file : Option Int := none
deriving DecidableEq, Repr

def openFile (input : Input) (content : Text) : Input :=
  { input with
    starts := input.starts ++ [input.size]
    skips := input.skips ++ [(tagSize content : Int)]
    size := input.size + (content.length - tagSize content) }

def openFiles (files : List Text) : Input := files.foldl openFile { files }

inductive Answer where
  | bytes (data : Text)
  | exit
  | io
  | eof
deriving DecidableEq, Repr

/-- The loop of `read`, with the number of files that are left. -/
def readLoop (length : Nat) : Nat → Input → Answer × Input
  | 0, input => (.eof, input)
  | left + 1, input =>
    let offset := input.file.getD (input.position - input.starts.getD input.index 0 +
      input.skips.getD input.index 0)
    -- a stream cannot be moved before its beginning
    if offset < 0 then (.io, { input with file := some offset })
    else
      let data := ((input.files.getD input.index []).drop offset.toNat).take length
      if data ≠ [] then
        (.bytes data,
          { input with position := input.position + data.length, file := some (offset + data.length) })
      else readLoop length left { input with index := input.index + 1, file := none }

def read (input : Input) (cancel : Bool) (length : Nat) : Answer × Input :=
  if cancel then (.exit, input) else readLoop length (input.files.length - input.index) input

inductive Whence where
  | size
  | set
  | cur
  | stop
  | other
deriving DecidableEq, Repr

/-- Where a seek goes to; the other answers are errors. -/
def target (input : Input) (offset : Int) : Whence → Option Int
  | .set => some offset
  | .cur => some (offset + input.position)
  | .stop => some (offset + input.size)
  | _ => none

/-- `seek`; an error is `none`. -/
def seek (input : Input) (offset : Int) (whence : Whence) : Option Int × Input :=
  if whence = .size then (some input.size, input)
  else
    match target input offset whence with
    | none => (none, input)
    | some offset =>
      if offset < 0 ∨ offset > input.size then (none, input)
      else
        (some offset,
          { input with
            position := offset
            index := (input.starts.takeWhile (· ≤ offset)).length - 1
            file := none })

inductive Call where
  | read (cancel : Bool) (length : Nat)
  | seek (offset : Int) (whence : Whence)
deriving DecidableEq, Repr

/-- A read asks for at least one byte. -/
def Call.asks : Call → Bool
  | .read _ length => 0 < length
  | .seek _ _ => true

def step (input : Input) : Call → Input
  | .read cancel length => (read input cancel length).2
  | .seek offset whence => (seek input offset whence).2

/-- What a file is to give: its content behind the tag. -/
def body (content : Text) : Text := content.drop (tagSize content)

def flat (files : List Text) : Text := files.flatMap body

/-- Where a file begins in the whole. -/
def base (files : List Text) (index : Nat) : Nat := (flat (files.take index)).length

variable {files f : List Text} {index i : Nat} {content c : Text}

theorem base_of_le (hi : f.length ≤ i) : base f i = (flat f).length := by
  rw [base, take_of_length_le hi]

theorem base_zero (fs : List Text) : base fs 0 = 0 := rfl

theorem base_le (fs : List Text) (i : Nat) : base fs i ≤ (flat fs).length := by
  conv_rhs => rw [← take_append_drop i fs, flat, flatMap_append, length_append]
  exact Nat.le_add_right _ _

theorem base_succ (hc : f[i]? = some c) : base f (i + 1) = base f i + (body c).length := by
  rw [base, take_add_one, hc, base, flat, flat, flatMap_append]
  simp

theorem base_le_succ (fs : List Text) (i : Nat) : base fs i ≤ base fs (i + 1) := by
  cases hc : fs[i]? with
  | none =>
    rw [List.getElem?_eq_none_iff] at hc
    rw [base_of_le hc, base_of_le (by omega)]
  | some c =>
    rw [base_succ hc]
    omega

/-- The whole from a place inside a file on. -/
theorem drop_flat (hc : f[i]? = some c) {x : Nat} (ho : x ≤ (body c).length) :
    (body c).drop x <+: (flat f).drop (base f i + x) := by
  obtain ⟨hi, rfl⟩ := List.getElem?_eq_some_iff.mp hc
  have hf : flat f = flat (f.take i) ++ (body f[i] ++ flat (f.drop (i + 1))) := by
    rw [flat, flat, flat, ← flatMap_cons, ← flatMap_append,
      ← drop_eq_getElem_cons hi, take_append_drop]
  rw [hf, base, drop_length_add_append, drop_append_of_le_length ho]
  exact prefix_append _ _

/-- The state between two calls. -/
structure Placed (files : List Text) (input : Input) : Prop where
  files_eq : input.files = files
  starts_eq : input.starts = (List.range files.length).map fun index => (base files index : Int)
  skips_eq : input.skips = files.map fun content => (tagSize content : Int)
  size_eq : input.size = (flat files).length
  lower : base files input.index ≤ input.position
  upper : input.position ≤ base files (input.index + 1)
  opened : ∀ offset content, input.file = some offset → files[input.index]? = some content →
    offset = input.position - base files input.index + tagSize content

/-- The tables after some of the files, when no tag is longer than its file. -/
theorem foldl_openFile {all : List Text} (hf : ∀ c ∈ files, tagSize c ≤ c.length) :
    files.foldl openFile { files := all } =
      { files := all
        starts := (List.range files.length).map fun i => (base files i : Int)
        skips := files.map fun c => (tagSize c : Int)
        size := (flat files).length } := by
  induction files using List.reverseRecOn with
  | nil => rfl
  | append_singleton files c ih =>
    rw [forall_mem_append, forall_mem_singleton] at hf
    have hb : (body c).length = c.length - tagSize c := length_drop
    have hs : (flat (files ++ [c])).length = (flat files).length + (body c).length := by
      simp [flat]
    have hl : (List.range files.length).map (fun i => (base (files ++ [c]) i : Int)) =
        (List.range files.length).map fun i => (base files i : Int) := by
      refine map_congr_left fun i hi => ?_
      rw [base, base, take_append_of_le_length (mem_range.mp hi).le]
    have hn : base (files ++ [c]) files.length = (flat files).length := by
      rw [base, take_left]
    rw [foldl_append, ih hf.1, foldl_cons, foldl_nil, openFile, length_append,
      length_singleton, range_succ, map_append, hl, map_singleton, hn,
      map_append, map_singleton, hs]
    have hz : ((flat files).length : Int) + (c.length - tagSize c) =
        ((flat files).length + (body c).length : Nat) := by
      omega
    rw [hz]

theorem openFiles_placed (hf : ∀ c ∈ f, tagSize c ≤ c.length) : Placed f (openFiles f) := by
  rw [openFiles, foldl_openFile hf]
  exact ⟨rfl, rfl, rfl, rfl, le_rfl, Int.natCast_nonneg _, fun _ _ h => absurd h (by simp)⟩

section

variable {files f : List Text} {it : Input}

theorem Placed.offset_eq (hp : Placed f it) {c : Text} (hc : f[it.index]? = some c) :
    it.file.getD (it.position - it.starts.getD it.index 0 +
      it.skips.getD it.index 0) = it.position - base f it.index + tagSize c := by
  cases hf : it.file with
  | some x => exact hp.opened x c hf hc
  | none =>
    obtain ⟨hi, rfl⟩ := List.getElem?_eq_some_iff.mp hc
    rw [hp.starts_eq, hp.skips_eq]
    simp [getD_eq_getElem?_getD, hi]

/-- `read` gives the next bytes of the whole, and ends where the whole ends. -/
theorem readLoop_spec {l : Nat} (hl : 0 < l) (left : Nat) :
    ∀ i, Placed f i → left = f.length - i.index → Placed f (readLoop l left i).2 ∧
      ((∃ d, (readLoop l left i).1 = .bytes d ∧ d ≠ [] ∧ d.length ≤ l ∧
        d <+: (flat f).drop i.position.toNat ∧
        (readLoop l left i).2.position = i.position + d.length) ∨
      (readLoop l left i).1 = .eof ∧ i.position = (flat f).length ∧
        (readLoop l left i).2.position = i.position) := by
  induction left with
  | zero =>
    intro i hp hn
    have hlo := hp.lower
    have hu := hp.upper
    rw [base_of_le (by omega)] at hlo hu
    exact ⟨hp, .inr ⟨rfl, by omega, rfl⟩⟩
  | succ left ih =>
    intro i hp hn
    have hi : i.index < f.length := by omega
    have hc := List.getElem?_eq_getElem hi
    generalize f[i.index] = c at hc
    have hlo := hp.lower
    have hu := hp.upper
    have hb := base_succ hc
    obtain ⟨inside, hin⟩ := Int.le.dest hlo
    have ho : (i.position - base f i.index + tagSize c).toNat = tagSize c + inside := by omega
    have hd : (i.files.getD i.index []).drop (tagSize c + inside) = (body c).drop inside := by
      rw [hp.files_eq, getD_eq_getElem?_getD, hc, Option.getD_some, body, drop_drop]
    rw [readLoop]
    dsimp only
    rw [hp.offset_eq hc, if_neg (by omega), ho, hd]
    split_ifs with he
    · have hk := (length_take_le l ((body c).drop inside))
      have hm : (((body c).drop inside).take l).length ≤ (body c).length - inside := by
        rw [length_take, length_drop]
        exact min_le_right _ _
      refine ⟨{ hp with lower := ?_, upper := ?_, opened := ?_ }, .inl ⟨_, rfl, he, hk, ?_, rfl⟩⟩
      · dsimp only
        omega
      · dsimp only
        omega
      · intro x o hs hf
        obtain rfl := Option.some.inj (hc.symm.trans hf)
        obtain rfl := Option.some.inj hs
        dsimp only
        omega
      · have hpo : i.position.toNat = base f i.index + inside := by omega
        rw [hpo]
        exact ( take_prefix _ _).trans (drop_flat hc (by omega))
    · have hz : (body c).length ≤ inside := by
        rw [not_not, take_eq_nil_iff] at he
        rcases he with he | he
        · omega
        · exact drop_eq_nil_iff.mp he
      have hm := base_le_succ f (i.index + 1)
      refine ih _ { hp with lower := ?_, upper := ?_, opened := ?_ } (by dsimp only; omega)
      · dsimp only
        omega
      · dsimp only
        omega
      · intro x o hs
        exact absurd hs (by simp)

theorem takeWhile_length (p : Int → Bool) (l : List Int) :
    (∀ i < (l.takeWhile p).length, ∀ x, l[i]? = some x → p x = true) ∧
      ∀ x, l[(l.takeWhile p).length]? = some x → p x = false := by
  induction l with
  | nil => simp
  | cons head t ih =>
    cases hh : p head with
    | false => simp [hh]
    | true =>
      rw [takeWhile_cons_of_pos hh, length_cons]
      refine ⟨fun i hi x hx => ?_, fun x hx => ih.2 x hx⟩
      cases i with
      | zero => simpa [Option.some.inj hx] using hh
      | succ i => exact ih.1 i (by omega) x hx

theorem seek_placed (hp : Placed f it) (x : Int) (w : Whence) : Placed f (seek it x w).2 := by
  rw [seek]
  split_ifs
  · exact hp
  split
  · exact hp
  rename_i pl _
  split_ifs with hr
  · exact hp
  obtain ⟨hin, ho⟩ := takeWhile_length (fun s => decide (s ≤ pl)) it.starts
  have hl : (it.starts.takeWhile (· ≤ pl)).length ≤ f.length := by
    have := ( takeWhile_prefix (fun s : Int => decide (s ≤ pl)) (l := it.starts)).length_le
    rwa [hp.starts_eq, length_map, length_range, ← hp.starts_eq] at this
  have hg : ∀ i < f.length, it.starts[i]? = some (base f i : Int) := by
    intro i hi
    simp [hp.starts_eq, hi]
  generalize (it.starts.takeWhile (· ≤ pl)).length = p at hin ho hl
  rw [hp.size_eq] at hr
  refine { hp with lower := ?_, upper := ?_, opened := fun _ _ h => absurd h (by simp) }
  · dsimp only
    cases p with
    | zero =>
      rw [base_zero]
      omega
    | succ p =>
      exact of_decide_eq_true (hin p (Nat.lt_succ_self _) _ (hg p (by omega)))
  · dsimp only
    rcases Nat.lt_or_ge p f.length with hi | hi
    · have hgt := of_decide_eq_false (ho _ (hg p hi))
      have hz : p ≠ 0 := by
        rintro rfl
        rw [base_zero] at hgt
        omega
      rw [Nat.sub_add_cancel (by omega)]
      omega
    · rw [base_of_le (by omega)]
      omega

end

/-- After any calls the input is the bodies of its files in a row: a read gives
the next of its bytes and reports the end exactly there, and a seek moves to
the offset it is asked for. -/
theorem run_reads_flat {files : List Text}
    (hf : ∀ content ∈ files, tagSize content ≤ content.length) (calls : List Call)
    (hc : ∀ call ∈ calls, call.asks = true) :
    let input := run step (openFiles files) calls
    input.size = (flat files).length ∧ 0 ≤ input.position ∧ input.position ≤ input.size ∧
    (∀ length, 0 < length →
      (∃ data, (read input false length).1 = .bytes data ∧ data ≠ [] ∧ data.length ≤ length ∧
        data <+: (flat files).drop input.position.toNat ∧
        (read input false length).2.position = input.position + data.length) ∨
      (read input false length).1 = .eof ∧ input.position = input.size ∧
        (read input false length).2.position = input.position) ∧
    (seek input 0 .size).1 = some input.size ∧
    ∀ offset whence place, target input offset whence = some place →
      if 0 ≤ place ∧ place ≤ input.size then
        (seek input offset whence).1 = some place ∧ (seek input offset whence).2.position = place
      else seek input offset whence = (none, input) := by
  intro input
  have hp : Placed files input := by
    refine @run_invariant _ _ step (fun _ call => call.asks = true) (Placed files)
      (fun input call hp hl => ?_) _ calls (openFiles_placed hf) (meets_of_forall hc)
    cases call with
    | read cancel length =>
      rw [step, read]
      split_ifs
      · exact hp
      · exact (readLoop_spec (of_decide_eq_true hl) _ input hp (by rw [hp.files_eq])).1
    | seek offset whence => exact seek_placed hp offset whence
  have hlo := hp.lower
  have hup := hp.upper
  have hle := base_le files (input.index + 1)
  have hsize := hp.size_eq
  refine ⟨hsize, by omega, by omega, fun length hl => ?_, rfl, fun offset whence place ht => ?_⟩
  · rw [hsize]
    exact (readLoop_spec hl _ input hp (by rw [hp.files_eq])).2
  · have hw : whence ≠ .size := by
      rintro rfl
      exact absurd ht nofun
    rw [seek, ht]
    dsimp only
    split_ifs with hr hb hb
    · omega
    · exact ⟨rfl, rfl⟩
    · rfl
    · omega

/-- A file without a tag, one that is only a tag, and the end of the whole. -/
theorem run_reads_flat_tagged :
    let files := [Text.of "ab", [0x49, 0x44, 0x33, 4, 0, 0, 0, 0, 0, 1, 7], Text.of "cd"]
    let input := run step (openFiles files) [.read false 9, .read false 9]
    input.size = (flat files).length ∧ input.position = 4 ∧ (read input false 9).1 = .eof :=
  ⟨(run_reads_flat (by decide +kernel) _ (by decide)).1, by decide +kernel, by decide +kernel⟩

/-- A tag that announces five bytes more than its file has moves the next file
and shortens the whole. -/
theorem run_reads_overlong_tag :
    let files := [[0x49, 0x44, 0x33, 4, 0, 0, 0, 0, 0, 5], Text.of "abcdefgh"]
    flat files = Text.of "abcdefgh" ∧ (openFiles files).size = 3 ∧
      (read (openFiles files) false 9).1 = .bytes (.of "fgh") := by
  decide +kernel

end Aria2Next.MuxInput
