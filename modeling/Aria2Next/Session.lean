/-
The session file: the tasks that are saved, written as lines of text and read
back.

A task is its line of URIs, the mirrors with tabs between them, and one
indented line for each option.  A repeatable option has a line for each of its
values.
-/
import Aria2Next.Engine
import Aria2Next.Options

namespace Aria2Next

open Text List

def hexValue (byte : UInt8) : Option Nat :=
  if 0x30 ≤ byte ∧ byte ≤ 0x39 then some (byte.toNat - 0x30)
  else if 0x61 ≤ byte ∧ byte ≤ 0x66 then some (byte.toNat - 0x61 + 10)
  else if 0x41 ≤ byte ∧ byte ≤ 0x46 then some (byte.toNat - 0x41 + 10)
  else none

def parseGid (text : Text) : Option Gid :=
  if text.length ≠ 16 then none
  else
    (text.foldlM (fun sofar byte =>
      (hexValue byte).map fun digit => 16 * sofar + digit) 0).filter (· ≠ 0)

/-- The digits of a GID: ASCII, no blanks, and of the value they show. -/
theorem digitChar_hex : ∀ d < 16, (Nat.digitChar d).toNat ≤ 127 ∧
      isSpace (Nat.digitChar d).toNat.toUInt8 = false ∧
      hexValue (Nat.digitChar d).toNat.toUInt8 = some d := by
  decide

theorem mem_toDigits (n : Nat) : ∀ c ∈ Nat.toDigits 16 n, ∃ d < 16, c = Nat.digitChar d := by
  induction n using Nat.strong_induction_on with
  | _ n ih =>
    intro c hc
    rw [Nat.toDigits_eq_if (by decide)] at hc
    split at hc
    case isTrue hs =>
      exact ⟨n, hs, mem_singleton.mp hc⟩
    case isFalse hla =>
      rcases mem_append.mp hc with hf | hl
      · exact ih (n / 16) (by omega) c hf
      · exact ⟨n % 16, Nat.mod_lt _ (by decide), mem_singleton.mp hl⟩

theorem toDigits_length_le (n : Nat) :
    ∀ w, 0 < w → n < 16 ^ w → (Nat.toDigits 16 n).length ≤ w := by
  induction n using Nat.strong_induction_on with
  | _ n ih =>
    intro w hw hn
    rw [Nat.toDigits_eq_if (by decide)]
    split
    · rw [length_singleton]
      omega
    case isFalse hla =>
      obtain ⟨l, rfl⟩ : ∃ l, w = l + 1 := ⟨w - 1, by omega⟩
      have hl : n / 16 < 16 ^ l := by
        rw [Nat.div_lt_iff_lt_mul (by decide)]
        exact hn
      have hp : 0 < l := by
        rcases Nat.eq_zero_or_pos l with rfl | hp
        · omega
        · exact hp
      have hr := ih (n / 16) (by omega) l hp hl
      simp only [length_append, length_singleton]
      omega

/-- Reading hexadecimal digits after a number that has been read. -/
def readHex (sofar : Nat) (text : Text) : Option Nat := text.foldlM (fun sofar byte =>
    (hexValue byte).map fun digit => 16 * sofar + digit) sofar

theorem readHex_append (s : Nat) (left right : Text) :
    readHex s (left ++ right) = (readHex s left).bind fun s => readHex s right := by
  rw [readHex, foldlM_append]
  rfl

theorem readHex_zeros (n : Nat) : readHex 0 (List.replicate n 0x30) = some 0 := by
  induction n with
  | zero => rfl
  | succ n ih => exact ih

theorem readHex_toDigits (n : Nat) : readHex 0 ((Nat.toDigits 16 n).map fun d =>
      d.toNat.toUInt8) = some n := by
  induction n using Nat.strong_induction_on with
  | _ n ih =>
    rw [Nat.toDigits_eq_if (by decide)]
    split
    case isTrue hs =>
      simp [readHex, (digitChar_hex n hs).2.2]
    case isFalse hla =>
      have hl := (digitChar_hex (n % 16) (Nat.mod_lt _ (by decide))).2.2
      rw [map_append, readHex_append, ih (n / 16) (by omega)]
      simp only [Option.bind_some, readHex, map_cons, map_nil,
        foldlM_cons, foldlM_nil, hl, Option.map_some]
      change some (16 * (n / 16) + n % 16) = some n
      rw [Nat.div_add_mod]

theorem of_gidText (gid : Gid) : of (gidText gid) =
      List.replicate (16 - (Nat.toDigits 16 gid).length) 0x30 ++
        (Nat.toDigits 16 gid).map fun d => d.toNat.toUInt8 := by
  rw [gidText, of_ofList, map_append, map_replicate]
  · rfl
  · intro d hdi
    rcases mem_append.mp hdi with hz | hdi
    · rw [eq_of_mem_replicate hz]
      decide
    · obtain ⟨v, hv, rfl⟩ := mem_toDigits gid d hdi
      exact (digitChar_hex v hv).1

theorem gidText_not_space (gid : Gid) : ∀ b ∈ of (gidText gid), isSpace b = false := by
  intro b hb
  rw [of_gidText] at hb
  rcases mem_append.mp hb with hz | hdi
  · rw [eq_of_mem_replicate hz]
    decide
  · obtain ⟨c, hc, rfl⟩ := mem_map.mp hdi
    obtain ⟨v, hv, rfl⟩ := mem_toDigits gid c hc
    exact (digitChar_hex v hv).2.1

theorem parseGid_gidText {gid : Gid} (hp : 0 < gid) (hl : gid < 2 ^ 64) :
    parseGid (of (gidText gid)) = some gid := by
  have hw := toDigits_length_le gid 16 (by decide) (by omega)
  have hr : readHex 0 (of (gidText gid)) = some gid := by
    rw [of_gidText, readHex_append, readHex_zeros]
    exact readHex_toDigits gid
  rw [parseGid, if_neg]
  · change (readHex 0 (of (gidText gid))).filter (· ≠ 0) = some gid
    rw [hr]
    exact Option.filter_some_pos (by simpa using hp.ne')
  · rw [of_gidText]
    simp only [length_append, length_replicate, length_map]
    omega

/-- `ErrorCode::ResourceNotFound`. -/
def resourceNotFound : Nat := 3

/-- What the session asks of a task. -/
structure SessionTask (numerals : Numerals) where
  gid : Gid
  gid_pos : 0 < gid
  gid_lt : gid < 2 ^ 64
  state : TaskState
  errorCode : Nat
  followedBy : List Gid
  sessionUris : List Text
  options : Options
  canonical : options.Canonical numerals

structure SessionEntry where
  uris : List Text
  options : List (Text × Text)
deriving DecidableEq

/-- One line of the file; the entry it belongs to is the first of the list. -/
def parseLine (entries : List SessionEntry) (line : Text) : List SessionEntry :=
  let line := if line.getLast? = some 0x0d then line.dropLast else line
  match line with
  | [] => entries
  | first :: _ =>
    if first = 0x23 then entries
    else if first = 0x20 ∨ first = 0x09 then
      let option := trim line
      match entries with
      | [] => entries
      | entry :: before =>
        if 0x3d ∈ option then
          { entry with
            options := entry.options ++ [(option.takeWhile (· ≠ 0x3d),
                (option.dropWhile (· ≠ 0x3d)).drop 1)] } :: before
        else entries
    else { uris := split line 0x09, options := [] } :: entries

/-- The byte order mark some editors write. -/
def byteOrderMark : Text := [0xef, 0xbb, 0xbf]

def withoutMark (content : Text) : Text :=
  if byteOrderMark.isPrefixOf content then content.drop 3 else content

def parseSession (content : Text) : List SessionEntry :=
  (((withoutMark content).splitOn 0x0a).foldl parseLine []).reverse

namespace SessionTask

variable {numerals : Numerals}

def isSaved (task : SessionTask numerals) : Bool :=
  match task.state with
  | .complete => task.options.flag (of "force-save")
  | .removed => false
  | .error =>
    task.errorCode ≠ resourceNotFound || task.options.flag (of "save-not-found")
  | _ => true

/-- A fetched torrent or metalink lives on as the tasks it started. -/
def isWritten (task : SessionTask numerals) : Bool :=
  task.followedBy.isEmpty && task.isSaved && !task.sessionUris.isEmpty

/-- The options the session writes from the task itself. -/
def isSpecial (name : Text) : Bool := name = of "gid" || name = of "pause"

def optionLines (entry : Text × Text) : List Text :=
  if isSpecial entry.1 then []
  else (split entry.2 0x0a).map fun line =>
    0x20 :: (entry.1 ++ 0x3d :: line)

def lines (task : SessionTask numerals) : List Text := join task.sessionUris [0x09] ::
    (of " gid=" ++ of (gidText task.gid)) ::
    ((if task.state = .paused then [of " pause=true"] else []) ++
      task.options.own.entries.flatMap optionLines)

end SessionTask

def serializeSession {numerals : Numerals} (tasks : List (SessionTask numerals)) : Text :=
  (tasks.filter SessionTask.isWritten).flatMap fun task =>
    task.lines.flatMap (· ++ [0x0a])

end Aria2Next
