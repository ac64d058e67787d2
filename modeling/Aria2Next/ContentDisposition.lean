/-
The file name of a Content-Disposition header (`base/ContentDisposition`).  The
scanner looks for `=` and `;` before it knows of quotes; that it still reads
every header of the grammar is shown over the whole list of parameters.
-/
import Aria2Next.Base64
import Aria2Next.TextCodes
import Aria2Next.Utf8

namespace Aria2Next.ContentDisposition

open List Text

structure Parameter where
  name : Text
  value : Text

/-- `find` and one step: what stands behind the first such byte. -/
def behind (byte : UInt8) : Text → Option Text
  | [] => none
  | head :: rest => if head = byte then some rest else behind byte rest

/-- The loop behind an opening quote: the value, and what is left at its end. -/
def quoted : Text → Text × Text
  | [] => ([], [])
  | 0x5c :: byte :: rest => (byte :: (quoted rest).1, (quoted rest).2)
  | byte :: rest =>
    if byte = 0x22 then ([], rest) else (byte :: (quoted rest).1, (quoted rest).2)

/-- One turn of the loop of `parameters`, behind a semicolon: the parameter it
adds, and what stands behind the semicolon it goes on with. -/
def turn (text : Text) : Option Parameter × Option Text :=
  match behind 0x3d text with
  | none => (none, behind 0x3b text)
  | some after =>
    let name := text.takeWhile (· ≠ 0x3d)
    if 0x3b ∈ name then (none, behind 0x3b text)
    else
      let value := after.dropWhile fun c => c = 0x20 || c = 0x09
      if value.head? = some 0x22 then
        (some ⟨lower (trim name), (quoted value.tail).1⟩, behind 0x3b (quoted value.tail).2)
      else (some ⟨lower (trim name), trim (value.takeWhile (· ≠ 0x3b))⟩, behind 0x3b value)

variable {b : UInt8} {v l later : Text}

theorem behind_length (hb : behind b v = some later) : later.length < v.length := by
  induction v with
  | nil => exact absurd hb (by simp [behind])
  | cons head r ih =>
    rw [behind] at hb
    split_ifs at hb with he
    · rw [Option.some.inj hb]
      exact Nat.lt_succ_self _
    · exact (ih hb).trans (Nat.lt_succ_self _)

theorem quoted_length (t : Text) : (quoted t).2.length ≤ t.length := by
  induction t using quoted.induct with
  | case1 => exact le_refl _
  | case2 b r ih =>
    rw [quoted]
    simp only [length_cons]
    omega
  | case3 r _ =>
    rw [quoted]
    · simp
    · assumption
  | case4 b r _ hn ih =>
    rw [quoted]
    · rw [if_neg hn]
      exact ih.trans (Nat.le_succ _)
    · assumption

theorem turn_length (ht : (turn v).2 = some later) : later.length < v.length := by
  rw [turn] at ht
  cases ha : behind 0x3d v with
  | none =>
    rw [ha] at ht
    exact behind_length ht
  | some a =>
    rw [ha] at ht
    dsimp only at ht
    have hl := behind_length ha
    have hd := (dropWhile_sublist (l := a) fun c : UInt8 => c = 0x20 || c = 0x09).length_le
    split_ifs at ht
    · exact behind_length ht
    · have hq := quoted_length (a.dropWhile fun c => c = 0x20 || c = 0x09).tail
      have := behind_length ht
      rw [length_tail] at hq
      omega
    · have := behind_length ht
      omega

def parametersFrom (text : Text) : List Parameter :=
  match _h : (turn text).2 with
  | none => (turn text).1.toList
  | some later => (turn text).1.toList ++ parametersFrom later
termination_by text.length
decreasing_by exact turn_length _h

def parameters (header : Text) : List Parameter :=
  match behind 0x3b header with
  | none => []
  | some text => parametersFrom text

def asUtf8 (value : Text) : Text := if isUtf8 value then value else latin1ToUtf8 value

def extendedValue (value : Text) : Option Text :=
  match behind 0x27 value with
  | none => none
  | some language =>
    match behind 0x27 language with
    | none => none
    | some coded =>
      let charset := lower (value.takeWhile (· ≠ 0x27))
      let decoded := percentDecode coded
      if charset = of "utf-8" then if isUtf8 decoded then some decoded else none
      else if charset = of "iso-8859-1" then some (latin1ToUtf8 decoded)
      else none

/-- The text of an encoded word in its coding. -/
def decodeWord (coding coded : Text) : Option Text :=
  if iequals coding (of "b") then base64Decode coded
  else if iequals coding (of "q") then
    some (percentDecode (replaceAll (replaceAll coded (of "_") (of " ")) (of "=") (of "%")))
  else none

def encodedWord (value : Text) : Option Text :=
  if !((of "=?").isPrefixOf value && (of "?=").isSuffixOf value) then none
  else
    -- For `=?=` the length of `substr` wraps around, and all is taken.
    let body := if value.length < 4 then value.drop 2 else (value.drop 2).take (value.length - 4)
    match split body 0x3f true with
    | [charset, coding, coded] =>
      match decodeWord coding coded with
      | none => none
      | some decoded =>
        if lower charset = of "iso-8859-1" then some (latin1ToUtf8 decoded)
        else if lower charset = of "utf-8" && isUtf8 decoded then some decoded else none
    | _ => none

def plainValue (value : Text) : Text :=
  match encodedWord value with
  | some word => word
  | none =>
    let decoded := percentDecode value
    if 0x25 ∈ value && decoded.any (0x80 ≤ ·) && isUtf8 decoded then decoded else asUtf8 value

def baseName (name : Text) : Text :=
  let name := name.rtakeWhile fun c => c ≠ 0x2f && c ≠ 0x5c
  if name = of "." || name = of ".." then [] else name

/-- The loop over the parameters with the plain name found so far. -/
def fileNameFrom (plain : Text) : List Parameter → Text
  | [] => baseName plain
  | parameter :: rest =>
    if parameter.name = of "filename*" then
      match extendedValue parameter.value with
      | some value => if value.isEmpty then fileNameFrom plain rest else baseName value
      | none => fileNameFrom plain rest
    else if parameter.name = of "filename" && plain.isEmpty then
      fileNameFrom (plainValue parameter.value) rest
    else fileNameFrom plain rest

def contentDispositionFileName (header : Text) : Text := fileNameFrom [] (parameters header)

/-- The bytes of tokens, and more. -/
def isToken (c : UInt8) : Bool := !isSpace c && c ≠ 0x3b && c ≠ 0x3d && c ≠ 0x22

/-- A value as it is written: the bytes of a quoted string stand with a
backslash in front or without. -/
inductive Written
  | token (text : Text)
  | quotedString (bytes : List (Bool × UInt8))

namespace Written

def text : Written → Text
  | token text => text
  | quotedString bytes =>
    0x22 :: (bytes.flatMap fun b => if b.1 then [0x5c, b.2] else [b.2]) ++ [0x22]

def value : Written → Text
  | token text => text
  | quotedString bytes => bytes.map (·.2)

def Valid : Written → Prop
  | token text => text ≠ [] ∧ ∀ c ∈ text, isToken c = true
  | quotedString bytes => ∀ b ∈ bytes, b.1 = false → b.2 ≠ 0x22 ∧ b.2 ≠ 0x5c

end Written

/-- A parameter as it is written, with blanks around its semicolon. -/
structure Piece where
  before : Nat
  after : Nat
  name : Text
  written : Written
  token : ∀ c ∈ name, isToken c = true
  valid : written.Valid

namespace Piece

/-- The text behind the semicolon. -/
def inner (piece : Piece) : Text :=
  replicate piece.after 0x20 ++ piece.name ++ 0x3d :: piece.written.text

def text (piece : Piece) : Text := replicate piece.before 0x20 ++ 0x3b :: piece.inner

def parameter (piece : Piece) : Parameter := ⟨lower piece.name, piece.written.value⟩

/-- The piece is a parameter of this name. -/
def Named (piece : Piece) (name : String) : Prop := lower piece.name = of name

end Piece

/-- The header of a disposition and its parameters. -/
def header (disposition : Text) (pieces : List Piece) : Text :=
  disposition ++ pieces.flatMap Piece.text

theorem behind_append (hl : b ∉ l) (right : Text) : behind b (l ++ right) = behind b right := by
  induction l with
  | nil => rfl
  | cons head l ih =>
    rw [mem_cons, not_or] at hl
    rw [cons_append, behind, if_neg (Ne.symm hl.1), ih hl.2]

theorem behind_append_cons (hl : b ∉ l) (right : Text) :
    behind b (l ++ b :: right) = some right := by
  rw [behind_append hl, behind, if_pos rfl]

theorem takeWhile_append_cons (hl : b ∉ l) (right : Text) :
    (l ++ b :: right).takeWhile (· ≠ b) = l := by
  rw [takeWhile_append_of_pos, takeWhile_cons_of_neg (by simp), append_nil]
  intro c hc
  exact decide_eq_true fun he => hl (he ▸ hc)

theorem isToken_iff {c : UInt8} :
    isToken c = true ↔ isSpace c = false ∧ c ≠ 0x3b ∧ c ≠ 0x3d ∧ c ≠ 0x22 := by
  simp [isToken, and_assoc]

/-- The quoted loop reads the bytes behind their backslashes. -/
theorem quoted_written {bs : List (Bool × UInt8)} (hv : (Written.quotedString bs).Valid)
    (r : Text) :
    quoted ((bs.flatMap fun b => if b.1 then [0x5c, b.2] else [b.2]) ++ 0x22 :: r) =
      (bs.map (·.2), r) := by
  induction bs with
  | nil => rfl
  | cons b bs ih =>
    obtain ⟨hb, hr⟩ := forall_mem_cons.mp hv
    rw [flatMap_cons, append_assoc]
    obtain ⟨e, c⟩ := b
    cases e with
    | true =>
      rw [if_pos rfl, cons_append, singleton_append, quoted, ih hr]
      rfl
    | false =>
      obtain ⟨hq, hs⟩ := hb rfl
      rw [if_neg (by simp), singleton_append, quoted.eq_3 _ _ (fun _ _ h => absurd h hs),
        if_neg hq, ih hr]
      rfl

/-- Behind a piece there are blanks up to a semicolon, or nothing. -/
def Ending (tail : Text) : Prop :=
  tail = [] ∨ ∃ blanks rest, tail = replicate blanks 0x20 ++ 0x3b :: rest

theorem flatMap_ending (ps : List Piece) : Ending (ps.flatMap Piece.text) := by
  cases ps with
  | nil => exact .inl rfl
  | cons p ps =>
    refine .inr ⟨p.before, p.inner ++ ps.flatMap Piece.text, ?_⟩
    rw [flatMap_cons, Piece.text, append_assoc, cons_append]

theorem Ending.trim_token {t : Text} (he : Ending t) (hl : ∀ c ∈ l, isToken c = true) :
    trim ((l ++ t).takeWhile (· ≠ 0x3b)) = l := by
  have hs : ∀ c ∈ l, isSpace c = false := fun c hc => (isToken_iff.mp (hl c hc)).1
  have hn : 0x3b ∉ l := fun h => (isToken_iff.mp (hl _ h)).2.1 rfl
  have hb : ∀ b, ∀ c ∈ replicate b (0x20 : UInt8), isSpace c = true := by
    intro b c hc
    rw [eq_of_mem_replicate hc]
    rfl
  rcases he with rfl | ⟨b, rest, rfl⟩
  · have ht : l.takeWhile (· ≠ 0x3b) = l :=
      takeWhile_eq_self_iff.mpr fun c hc => decide_eq_true fun he => hn (he ▸ hc)
    rw [append_nil, ht, trim_of_not_space hs]
  · rw [← append_assoc, takeWhile_append_cons]
    · exact @trim_surrounded [] _ _ (by simp) hs (hb b)
    · rw [mem_append]
      rintro (h | h)
      · exact hn h
      · exact absurd (eq_of_mem_replicate h) (by decide)

/-- One turn reads one piece. -/
theorem turn_inner (p : Piece) {t : Text} (he : Ending t) :
    turn (p.inner ++ t) = (some p.parameter, behind 0x3b t) := by
  have hin : ∀ c ∈ replicate p.after 0x20 ++ p.name, c ≠ 0x3d ∧ c ≠ 0x3b := by
    intro c hc
    rcases mem_append.mp hc with hc | hc
    · rw [eq_of_mem_replicate hc]
      decide
    · obtain ⟨_, hs, he, _⟩ := isToken_iff.mp (p.token c hc)
      exact ⟨he, hs⟩
  have htrim : trim (replicate p.after 0x20 ++ p.name) = p.name := by
    have := @trim_surrounded (replicate p.after 0x20) p.name []
      (fun c hc => by rw [eq_of_mem_replicate hc]; rfl)
      (fun c hc => (isToken_iff.mp (p.token c hc)).1) (by simp)
    rwa [append_nil] at this
  rw [turn, Piece.inner, append_assoc, cons_append,
    behind_append_cons fun h => (hin _ h).1 rfl]
  dsimp only
  rw [takeWhile_append_cons fun h => (hin _ h).1 rfl, if_neg fun h => (hin _ h).2 rfl, htrim,
    Piece.parameter]
  have hv := p.valid
  generalize p.written = written at hv
  cases written with
  | token value =>
    obtain ⟨hne, hv⟩ := hv
    obtain ⟨c, rest, rfl⟩ := exists_cons_of_ne_nil hne
    have hc := isToken_iff.mp (hv c mem_cons_self)
    have hd : (c :: rest ++ t).dropWhile (fun c => c = 0x20 || c = 0x09) = c :: rest ++ t := by
      refine dropWhile_cons_of_neg fun h => ?_
      rcases (Bool.or_eq_true _ _).mp h with h | h
      all_goals
        rw [of_decide_eq_true h] at hc
        exact absurd hc.1 (by decide)
    rw [Written.text, hd, if_neg (by simpa using hc.2.2.2), he.trim_token hv,
      behind_append fun h => (isToken_iff.mp (hv _ h)).2.1 rfl]
    rfl
  | quotedString bytes =>
    rw [Written.text, cons_append, cons_append, dropWhile_cons_of_neg (by decide),
      if_pos head?_cons, tail_cons, append_assoc, singleton_append, quoted_written hv]
    rfl

theorem parametersFrom_eq (v : Text) :
    parametersFrom v = (turn v).1.toList ++ (turn v).2.elim [] parametersFrom := by
  rw [parametersFrom]
  split
  case h_1 hn => rw [hn, Option.elim_none, append_nil]
  case h_2 later hl => rw [hl, Option.elim_some]

theorem parametersFrom_inner (p : Piece) (ps : List Piece) :
    parametersFrom (p.inner ++ ps.flatMap Piece.text) = (p :: ps).map Piece.parameter := by
  induction ps generalizing p with
  | nil =>
    rw [parametersFrom_eq, turn_inner p (flatMap_ending [])]
    rfl
  | cons next ps ih =>
    have hb : behind 0x3b ((next :: ps).flatMap Piece.text) =
        some (next.inner ++ ps.flatMap Piece.text) := by
      rw [flatMap_cons, Piece.text, append_assoc, cons_append, behind_append_cons]
      intro h
      exact absurd (eq_of_mem_replicate h) (by decide)
    rw [parametersFrom_eq, turn_inner p (flatMap_ending _), hb, Option.elim_some, ih]
    rfl

/-- The scanner reads every parameter of the grammar. -/
theorem parameters_header {d : Text} (hd : 0x3b ∉ d) (ps : List Piece) :
    parameters (header d ps) = ps.map Piece.parameter := by
  rw [parameters, header, behind_append hd]
  cases ps with
  | nil => rfl
  | cons p ps =>
    rw [flatMap_cons, Piece.text, append_assoc, cons_append, behind_append_cons]
    · exact parametersFrom_inner p ps
    · intro h
      exact absurd (eq_of_mem_replicate h) (by decide)

variable {ps : List Parameter}

/-- Parameters of other names are passed over. -/
theorem fileNameFrom_skip {b : List Parameter}
    (hb : ∀ p ∈ b, p.name ≠ of "filename*" ∧ p.name ≠ of "filename") (pl : Text) :
    fileNameFrom pl (b ++ ps) = fileNameFrom pl ps := by
  induction b with
  | nil => rfl
  | cons p b ih =>
    obtain ⟨⟨hs, hp⟩, hb⟩ := forall_mem_cons.mp hb
    rw [cons_append, fileNameFrom, if_neg hs, if_neg (by simp [hp]), ih hb]

/-- The value of `filename*` decides, whatever was found before. -/
theorem fileNameFrom_extended {p : Parameter} {b : List Parameter} {n : Text}
    (hb : ∀ p ∈ b, p.name ≠ of "filename*") (hp : p.name = of "filename*")
    (hx : extendedValue p.value = some n) (hn : n ≠ []) (pl : Text) :
    fileNameFrom pl (b ++ p :: ps) = baseName n := by
  induction b generalizing pl with
  | nil =>
    rw [nil_append, fileNameFrom, if_pos hp, hx]
    exact if_neg (by simpa using hn)
  | cons q b ih =>
    obtain ⟨hq, hb⟩ := forall_mem_cons.mp hb
    rw [cons_append, fileNameFrom, if_neg hq]
    split_ifs
    · exact ih hb _
    · exact ih hb _

/-- The only parameter named `filename` gives the name. -/
theorem fileNameFrom_plain {p : Parameter} {b a : List Parameter}
    (hb : ∀ q ∈ b ++ a, q.name ≠ of "filename*" ∧ q.name ≠ of "filename")
    (hp : p.name = of "filename") :
    fileNameFrom [] (b ++ p :: a) = baseName (plainValue p.value) := by
  obtain ⟨hbe, haf⟩ := forall_mem_append.mp hb
  have hne : of "filename" ≠ of "filename*" := by decide +kernel
  rw [fileNameFrom_skip hbe, fileNameFrom, if_neg (hp ▸ hne), if_pos (by simp [hp]),
    ← append_nil a, fileNameFrom_skip haf]
  rfl

/-- Every way out of the loop is through `baseName`. -/
theorem fileNameFrom_baseName (pl : Text) (ps : List Parameter) :
    ∃ n, fileNameFrom pl ps = baseName n := by
  induction ps generalizing pl with
  | nil => exact ⟨pl, rfl⟩
  | cons p ps ih =>
    rw [fileNameFrom]
    split_ifs
    · split
      · split_ifs
        · exact ih pl
        · exact ⟨_, rfl⟩
      · exact ih pl
    · exact ih _
    · exact ih pl

/-- A name that is taken as it is. -/
def Whole (n : Text) : Prop :=
  n ≠ [] ∧ isUtf8 n = true ∧ 0x2f ∉ n ∧ 0x5c ∉ n ∧ n ≠ of "." ∧ n ≠ of ".."

theorem Whole.baseName_eq {n : Text} (hn : Whole n) : baseName n = n := by
  obtain ⟨_, _, hs, hb, hd, hdd⟩ := hn
  have ht : n.rtakeWhile (fun c => c ≠ 0x2f && c ≠ 0x5c) = n := by
    rw [rtakeWhile_eq_self_iff]
    intro c hc
    have h1 : c ≠ 0x2f := fun h => hs (h ▸ hc)
    have h2 : c ≠ 0x5c := fun h => hb (h ▸ hc)
    simp [h1, h2]
  rw [baseName, ht]
  exact if_neg (by simp [hd, hdd])

theorem baseName_safe (n : Text) :
    0x2f ∉ baseName n ∧ 0x5c ∉ baseName n ∧ baseName n ≠ of "." ∧ baseName n ≠ of ".." := by
  rw [baseName]
  split_ifs with hd
  · refine ⟨by simp, by simp, ?_, ?_⟩
    all_goals decide +kernel
  · simp only [Bool.or_eq_true, decide_eq_true_eq, not_or] at hd
    refine ⟨fun h => ?_, fun h => ?_, hd⟩
    · exact absurd (mem_rtakeWhile_imp h) (by decide)
    · exact absurd (mem_rtakeWhile_imp h) (by decide)

theorem extendedValue_percentEncode {n : Text} (hn : isUtf8 n = true) :
    extendedValue (of "UTF-8''" ++ percentEncode n) = some n := by
  have hu : of "UTF-8''" = of "UTF-8" ++ 0x27 :: [0x27] ∧ 0x27 ∉ of "UTF-8" ∧
      lower (of "UTF-8") = of "utf-8" := by decide +kernel
  obtain ⟨hu, hq, hl⟩ := hu
  rw [extendedValue, hu, append_assoc, cons_append, singleton_append, behind_append_cons hq]
  dsimp only
  rw [behind, if_pos rfl]
  dsimp only
  rw [takeWhile_append_cons hq, if_pos hl, percentDecode_percentEncode, if_pos hn]

/-- A plain name without percent signs that is no encoded word stays. -/
theorem plainValue_eq {n : Text} (hn : isUtf8 n = true) (hp : 0x25 ∉ n)
    (hw : ¬ (of "=?" <+: n ∧ of "?=" <:+ n)) : plainValue n = n := by
  have he : encodedWord n = none := by
    rw [← isPrefixOf_iff_prefix, ← isSuffixOf_iff_suffix, ← Bool.and_eq_true] at hw
    rw [encodedWord, (Bool.not_eq_true _).mp hw]
    rfl
  rw [plainValue, he]
  simp [hp, asUtf8, hn]

/-- A quoted `filename` is the name when it stands alone, `filename*` is the
name wherever it stands, and no header gives a path. -/
theorem contentDispositionFileName_header :
    (∀ (disposition n : Text) (before after : List Piece) (piece : Piece)
      (bytes : List (Bool × UInt8)), 0x3b ∉ disposition → piece.Named "filename" →
      piece.written = .quotedString bytes → piece.written.value = n → Whole n → 0x25 ∉ n →
      ¬ (of "=?" <+: n ∧ of "?=" <:+ n) →
      (∀ other ∈ before ++ after, ¬ other.Named "filename*" ∧ ¬ other.Named "filename") →
      contentDispositionFileName (header disposition (before ++ piece :: after)) = n) ∧
    (∀ (disposition n : Text) (before after : List Piece) (piece : Piece),
      0x3b ∉ disposition → piece.Named "filename*" →
      piece.written = .token (of "UTF-8''" ++ percentEncode n) → Whole n →
      (∀ other ∈ before, ¬ other.Named "filename*") →
      contentDispositionFileName (header disposition (before ++ piece :: after)) = n) ∧
    ∀ text, 0x2f ∉ contentDispositionFileName text ∧ 0x5c ∉ contentDispositionFileName text ∧
      contentDispositionFileName text ≠ of "." ∧ contentDispositionFileName text ≠ of ".." := by
  refine ⟨?_, ?_, ?_⟩
  · intro disposition n before after piece bytes hd hp _ hv hn hpc hw ho
    have hq : ∀ q ∈ before.map Piece.parameter ++ after.map Piece.parameter,
        q.name ≠ of "filename*" ∧ q.name ≠ of "filename" := by
      rw [← map_append]
      exact forall_mem_map.mpr ho
    rw [contentDispositionFileName, parameters_header hd, map_append, map_cons,
      fileNameFrom_plain hq (p := piece.parameter) hp]
    change baseName (plainValue piece.written.value) = n
    rw [hv, plainValue_eq hn.2.1 hpc hw, hn.baseName_eq]
  · intro disposition n before after piece hd hp hw hn ho
    have hq : ∀ q ∈ before.map Piece.parameter, q.name ≠ of "filename*" := forall_mem_map.mpr ho
    have hx : extendedValue piece.written.value = some n := by
      rw [hw]
      exact extendedValue_percentEncode hn.2.1
    rw [contentDispositionFileName, parameters_header hd, map_append, map_cons,
      fileNameFrom_extended hq (p := piece.parameter) hp hx hn.1, hn.baseName_eq]
  · intro text
    obtain ⟨name, hn⟩ := fileNameFrom_baseName [] (parameters text)
    rw [contentDispositionFileName, hn]
    exact baseName_safe name

end Aria2Next.ContentDisposition
