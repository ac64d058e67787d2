/-
Option layers: how a value is checked, stored and read.

A task's options lie over the global ones.  A stored value is canonical:
setting it again stores the same value, which is what lets a session file
carry options as text.
-/
import Aria2Next.OptionCatalog
import Aria2Next.OrdMap

namespace Aria2Next

open Text

/-- `std::to_string` of a number that is not negative. -/
def decimal (number : Nat) : Text := (Nat.toDigits 10 number).map fun digit => digit.toNat.toUInt8

/-- `std::to_string`. -/
def integerText (number : Int) : Text :=
  if number < 0 then 0x2d :: decimal number.natAbs else decimal number.natAbs

/-- What the library reads as a floating-point number.  A size is a whole
number that a double holds exactly, so its decimal form reads the same. -/
structure Numerals where
  toDouble : Text → Option Rat
  toSize : Text → Option Nat
  toSize_decimal : ∀ text size, toSize text = some size → toSize (decimal size) = some size

def isDigit (byte : UInt8) : Bool := 0x30 ≤ byte && byte ≤ 0x39

def parseDigits (text : Text) : Option Nat :=
  if text.isEmpty || !text.all isDigit then none
  else some (text.foldl (fun sofar byte => 10 * sofar + (byte.toNat - 48)) 0)

def parseSigned : Text → Option Int
  | 0x2d :: digits => (parseDigits digits).map fun number => -Int.ofNat number
  | digits => (parseDigits digits).map Int.ofNat

/-- `std::from_chars` into a 64-bit integer that takes the whole text. -/
def parseInteger (text : Text) : Option Int := (parseSigned text).filter fun number =>
    -2 ^ 63 ≤ number ∧ number ≤ int64Max

def invalid (spec : OptionSpec) (value reason : Text) : Except Text Text :=
  .error (of "Invalid value for --" ++ of spec.name ++
    of ": '" ++ value ++ of "' (" ++ reason ++ of ")")

def normalizeInteger (spec : OptionSpec) (value : Text) : Except Text Text :=
  match parseInteger (trim value) with
  | none => invalid spec value (of "not an integer")
  | some number =>
    if number < spec.min ∨ number > spec.max then
      invalid spec value (of "expected " ++ integerText spec.min ++
        of ".." ++ integerText spec.max)
    else .ok (integerText number)

/-- Characters a file name suffix must not have. -/
def pathCharacters : Text := of "/\\:*?\"<>|"

def normalizeOption (numerals : Numerals) (spec : OptionSpec) (value : Text) : Except Text Text :=
  match spec.type with
  | .flag =>
    if value = of "true" ∨ value = of "false" then .ok value
    else invalid spec value (of "expected true or false")
  | .integer => normalizeInteger spec value
  | .size =>
    match numerals.toSize value with
    | none => invalid spec value (of "expected a size such as 1M")
    | some size =>
      if size < spec.min ∨ size > spec.max then
        invalid spec value (of "expected a size such as 1M")
      else .ok (decimal size)
  | .number =>
    let text := trim value
    if text.isEmpty then .ok text
    else
      match numerals.toDouble text with
      | none => invalid spec value (of "expected a non-negative number")
      | some number =>
        if number < 0 then
          invalid spec value (of "expected a non-negative number")
        else .ok text
  | .choice =>
    match (split (of spec.choices) 0x7c).find? (· = value) with
    | some choice => .ok choice
    | none =>
      invalid spec value (of "expected " ++ of spec.choices)
  | .text =>
    if spec.name = "incomplete-suffix" ∧ value.any (· ∈ pathCharacters) then
      invalid spec value (of "expected a file name suffix such as .part")
    else .ok value
  | .path => .ok value
  | .list => .ok value

theorem digit_toNat {n : Nat} {d : Char} (hdi : d ∈ Nat.toDigits 10 n) :
    48 ≤ d.toNat ∧ d.toNat ≤ 57 ∧ d.toNat.toUInt8.toNat = d.toNat := by
  have hr : 48 ≤ d.toNat ∧ d.toNat ≤ 57 := Char.isDigit_iff_toNat.mp
      (Nat.isDigit_of_mem_toDigits (by decide) (by decide) hdi)
  have hs : d.toNat < 256 := by omega
  exact ⟨hr.1, hr.2, UInt8.toNat_ofNat_of_lt' hs⟩

theorem decimal_digits (n : Nat) : ∀ b ∈ decimal n, isDigit b = true := by
  intro b hb
  obtain ⟨d, hdi, rfl⟩ := List.mem_map.mp hb
  obtain ⟨hl, hh, hs⟩ := digit_toNat hdi
  simp only [isDigit, Bool.and_eq_true, decide_eq_true_eq, UInt8.le_iff_toNat_le, hs]
  exact ⟨hl, hh⟩

theorem decimal_ne_nil (n : Nat) : decimal n ≠ [] := by
  simp [decimal, Nat.toDigits_ne_nil]

theorem parseDigits_decimal (n : Nat) : parseDigits (decimal n) = some n := by
  have hdi : (decimal n).all isDigit = true := List.all_eq_true.mpr (decimal_digits n)
  rw [parseDigits, if_neg (by simp [hdi, decimal_ne_nil])]
  congr 1
  rw [decimal, List.foldl_map]
  apply Eq.trans _ (@Nat.ofDigitChars_ten_toDigits n)
  apply List.foldl_ext
  intro s d hdig
  rw [(digit_toNat hdig).2.2]
  rfl

theorem not_space_of_digit {b : UInt8} (hdi : isDigit b = true) : isSpace b = false := by
  by_contra hs
  simp only [Bool.not_eq_false, isSpace, Bool.or_eq_true, decide_eq_true_eq] at hs
  rcases hs with ((((rfl | rfl) | rfl) | rfl) | rfl) | rfl <;>
    exact absurd hdi (by decide)

theorem trim_decimal (n : Nat) : trim (decimal n) = decimal n := by
  apply trim_of_not_space
  intro b hb
  exact not_space_of_digit (decimal_digits n b hb)

theorem trim_integerText (n : Int) : trim (integerText n) = integerText n := by
  rw [integerText]
  split
  · apply trim_of_not_space
    intro b hb
    rcases List.mem_cons.mp hb with rfl | hb
    · decide
    · exact not_space_of_digit (decimal_digits _ b hb)
  · exact trim_decimal _

theorem parseSigned_integerText (n : Int) : parseSigned (integerText n) = some n := by
  rw [integerText]
  split
  case isTrue hsi =>
    rw [parseSigned, parseDigits_decimal, Option.map_some]
    congr 1
    change -(n.natAbs : Int) = n
    omega
  case isFalse hsi =>
    have hdi := decimal_digits n.natAbs
    have hn : parseDigits (decimal n.natAbs) = _ := parseDigits_decimal n.natAbs
    cases ht : decimal n.natAbs with
    | nil => exact absurd ht (decimal_ne_nil _)
    | cons b r =>
      have hb : b ≠ 0x2d := by
        rintro rfl
        rw [ht] at hdi
        exact absurd (hdi 0x2d List.mem_cons_self) (by decide)
      rw [parseSigned, ← ht, hn, Option.map_some]
      · congr 1
        change (n.natAbs : Int) = n
        omega
      · intro ds hs
        rw [List.cons.injEq] at hs
        exact hb hs.1

variable {number nu : Int}

theorem parseInteger_integerText (hr : -2 ^ 63 ≤ nu ∧ nu ≤ int64Max) :
    parseInteger (integerText nu) = some nu := by
  rw [parseInteger, parseSigned_integerText]
  exact Option.filter_some_pos (by simpa using hr)

theorem parseInteger_range {t : Text} (hp : parseInteger t = some nu) :
    -2 ^ 63 ≤ nu ∧ nu ≤ int64Max := by
  simpa using (Option.filter_eq_some_iff.mp hp).2

/-- A value that passed its check passes it again unchanged. -/
theorem normalizeOption_stable {n : Numerals} {sp : OptionSpec} {v s : Text}
    (hv : normalizeOption n sp v = .ok s) : normalizeOption n sp s = .ok s := by
  rw [normalizeOption] at hv ⊢
  cases ht : sp.type with
  | flag =>
    simp only [ht] at hv ⊢
    split at hv
    case isTrue hfl =>
      cases hv
      exact if_pos hfl
    case isFalse => cases hv
  | integer =>
    simp only [ht, normalizeInteger] at hv ⊢
    cases hp : parseInteger (trim v) with
    | none =>
      rw [hp] at hv
      cases hv
    | some number =>
      simp only [hp] at hv
      split at hv
      case isTrue => cases hv
      case isFalse hr =>
        cases hv
        rw [trim_integerText, parseInteger_integerText (parseInteger_range hp)]
        exact if_neg hr
  | size =>
    simp only [ht] at hv ⊢
    cases hs : n.toSize v with
    | none =>
      rw [hs] at hv
      cases hv
    | some size =>
      simp only [hs] at hv
      split at hv
      case isTrue => cases hv
      case isFalse hr =>
        cases hv
        rw [n.toSize_decimal v size hs]
        exact if_neg hr
  | number =>
    simp only [ht] at hv ⊢
    split at hv
    case isTrue he =>
      cases hv
      rw [List.isEmpty_iff.mp he]
      rfl
    case isFalse he =>
      cases hn : n.toDouble (trim v) with
      | none =>
        rw [hn] at hv
        cases hv
      | some number =>
        simp only [hn] at hv
        split at hv
        case isTrue => cases hv
        case isFalse hsi =>
          cases hv
          rw [trim_trim, if_neg he, hn]
          exact if_neg hsi
  | choice =>
    simp only [ht] at hv ⊢
    cases hf : (split (of sp.choices) 0x7c).find? (· = v) with
    | none =>
      rw [hf] at hv
      cases hv
    | some choice =>
      rw [hf] at hv
      cases hv
      have hsa : s = v := by simpa using List.find?_some hf
      rw [hsa] at hf ⊢
      rw [hf]
  | text =>
    simp only [ht] at hv ⊢
    split at hv
    case isTrue => cases hv
    case isFalse hpl =>
      cases hv
      exact if_neg hpl
  | _ => rfl

/-- One option layer over its parents, the nearest first. -/
structure Options where
  own : OrdMap Text Text
  parents : List (OrdMap Text Text)

namespace Options

variable (numerals : Numerals) (options : Options)

/-- `values_[name] = value`. -/
def put (name value : Text) : Options :=
  { options with own := options.own.insert name value }

/-- The value as `set` hands it to the check. -/
def prepared (name value : Text) : Text :=
  if name = of "listen-port" then
    value.takeWhile fun byte => byte ≠ 0x2d && byte ≠ 0x2c
  else if name = of "log-level" ∨ name = of "console-log-level" then
    if value = of "warning" then of "warn"
    else if value = of "trace" then of "debug"
    else value
  else value

/-- `set` for a name that is not mapped to others. -/
def store (name value : Text) : Except Text Options :=
  if isRetired name then .ok options
  else
    match findOption name with
    | none => .error (of "Unknown option --" ++ name)
    | some spec =>
      (normalizeOption numerals spec (prepared name value)).map (options.put name)

def set (name value : Text) : Except Text Options :=
  if name = of "stream-max-connections" then
    (options.store numerals (of "split") value).bind fun options =>
      options.store numerals (of "max-connection-per-server") value
  else if name = of "bt-require-crypto" ∨
      name = of "bt-force-encryption" then
    if value ≠ of "false" then
      options.store numerals (of "bt-encryption") (of "required")
    else .ok options
  else if name = of "auto-save-interval" then
    options.store numerals (of "state-save-interval") value
  else options.store numerals name value

/-- Like `set`, but a repeatable option takes another line. -/
def add (name value : Text) : Except Text Options :=
  match findOption name with
  | none => options.set numerals name value
  | some spec =>
    if spec.isList then
      let current := (options.own.find? name).getD []
      let current := if current.isEmpty then current else current ++ [0x0a]
      .ok (options.put name (current ++ value))
    else options.set numerals name value

def erase (name : Text) : Options :=
  { options with own := options.own.erase name }

def get (name : Text) : Text :=
  match (options.own :: options.parents).findSome? (·.find? name) with
  | some value => value
  | none =>
    match findOption name with
    | some spec => of spec.defaultValue
    | none => []

def flag (name : Text) : Bool := options.get name = of "true"

/-- `set` stores the value as it is. -/
def Stable (name value : Text) : Prop := ∀ options : Options,
    options.set numerals name value = .ok (options.put name value)

/-- Every own option is of the catalogue, and one that a task may be given
is stored by `set` as it is. -/
def Canonical : Prop :=
  ∀ name value, options.own.find? name = some value → ∃ spec, findOption name = some spec ∧
      (spec.isList = false → spec.forTasks = true → Stable numerals name value)

/-- The names `set` maps to others. -/
def Mapped (name : Text) : Prop := name = of "stream-max-connections" ∨
    name = of "bt-require-crypto" ∨
    name = of "bt-force-encryption" ∨
    name = of "auto-save-interval"

theorem not_mapped {s : String}
    (hs : s ∉ ["stream-max-connections", "bt-require-crypto",
      "bt-force-encryption", "auto-save-interval"]) :
    ¬ Mapped (of s) := by
  intro hm
  apply hs
  rcases hm with hn | hn | hn | hn <;>
    simp [of_injective hn]

variable {n : Numerals}

variable {os next : Options} {name nm v : Text} {sp : OptionSpec}

theorem set_of_not_mapped (hn : ¬ Mapped nm) (v : Text) : os.set n nm v = os.store n nm v := by
  simp only [Mapped, not_or] at hn
  rw [set, if_neg hn.1, if_neg (by simp [hn.2.1, hn.2.2.1]), if_neg hn.2.2.2]

/-- Only options for all tasks have values that are rewritten. -/
theorem prepared_eq (hf : findOption nm = some sp) (ht : sp.forTasks = true) (v : Text) :
    prepared nm v = v := by
  have ho : ∀ s ∈ ["listen-port", "log-level",
      "console-log-level"], nm ≠ of s := by
    rintro s hs rfl
    rw [findOption_of] at hf
    have hg : ∀ s ∈ ["listen-port", "log-level", "console-log-level"],
        (optionCatalog.find? fun sp => sp.name = s).any OptionSpec.forTasks = false := by
      decide +kernel
    have hno := hg s hs
    rw [hf, Option.any_some, ht] at hno
    cases hno
  rw [prepared, if_neg (ho _ (by simp)), if_neg]
  rintro (hn | hn)
  · exact ho _ (by simp) hn
  · exact ho _ (by simp) hn

theorem stable_of_stored {s : Text} (hn : ¬ Mapped nm) (hr : isRetired nm = false)
    (hf : findOption nm = some sp) (ht : sp.forTasks = true) (hv : normalizeOption n sp v = .ok s) :
    Stable n nm s := by
  intro os
  rw [set_of_not_mapped hn, store, hr, hf]
  simp only [Bool.false_eq_true, if_false, prepared_eq hf ht, normalizeOption_stable hv]
  rfl

section

variable (hc : os.Canonical n)

include hc

theorem Canonical.put (hf : findOption nm = some sp)
    (hst : sp.isList = false → sp.forTasks = true → Stable n nm v) : (os.put nm v).Canonical n := by
  intro o s hs
  change (os.own.insert nm v).find? o = some s at hs
  rw [OrdMap.find?_insert] at hs
  split at hs
  case isTrue hsa =>
    cases hs
    subst hsa
    exact ⟨sp, hf, hst⟩
  case isFalse => exact hc o s hs

theorem Canonical.store (hn : ¬ Mapped nm) (hs : os.store n nm v = .ok next) :
    next.Canonical n := by
  rw [Options.store] at hs
  split at hs
  case isTrue =>
    cases hs
    exact hc
  case isFalse hr =>
    cases hf : findOption nm with
    | none =>
      rw [hf] at hs
      cases hs
    | some sp =>
      simp only [hf] at hs
      cases hv : normalizeOption n sp (prepared nm v) with
      | error m =>
        rw [hv] at hs
        cases hs
      | ok s =>
        rw [hv] at hs
        cases hs
        apply hc.put hf
        intro _ ht
        exact stable_of_stored hn (by simpa using hr) hf ht hv

theorem Canonical.set (hs : os.set n nm v = .ok next) : next.Canonical n := by
  by_cases hn : Mapped nm
  · rw [Options.set] at hs
    split at hs
    · cases hsp : os.store n (of "split") v with
      | error m =>
        rw [hsp] at hs
        cases hs
      | ok b =>
        rw [hsp] at hs
        exact (hc.store (not_mapped (by decide)) hsp).store (not_mapped (by decide)) hs
    · split at hs
      · split at hs
        · exact hc.store (not_mapped (by decide)) hs
        · cases hs
          exact hc
      · split at hs
        · exact hc.store (not_mapped (by decide)) hs
        case isFalse hst hcr hsa =>
          rcases hn with hn | hn | hn | hn
          · exact absurd hn hst
          · exact absurd (.inl hn) hcr
          · exact absurd (.inr hn) hcr
          · exact absurd hn hsa
  · rw [set_of_not_mapped hn] at hs
    exact hc.store hn hs

theorem Canonical.add (ha : os.add n nm v = .ok next) : next.Canonical n := by
  rw [Options.add] at ha
  cases hf : findOption nm with
  | none =>
    rw [hf] at ha
    exact hc.set ha
  | some sp =>
    simp only [hf] at ha
    split at ha
    case isTrue hl =>
      cases ha
      apply hc.put hf
      intro hn
      rw [hl] at hn
      cases hn
    case isFalse => exact hc.set ha

end

end Options

/-- One pair given for a task: what a task cannot be given is passed over. -/
def giveOption (numerals : Numerals) (options : Options)
    (pair : Text × Text) : Except Text Options :=
  if (findOption pair.1).any (fun spec => !spec.forTasks) then .ok options
  else options.add numerals pair.1 pair.2

/-- The options of a task over the global ones. -/
def taskOptions (numerals : Numerals) (global : List (OrdMap Text Text))
    (pairs : List (Text × Text)) : Except Text Options :=
  pairs.foldlM (giveOption numerals) { own := ∅, parents := global }

end Aria2Next
