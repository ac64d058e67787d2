/-
Reading a session back.

The file of the saved tasks is a list of lines none of which holds a line
break, so reading it gives one entry for each task, with the options line by
line.  Giving those to a new task stores each option again unless the file
could not carry it: an option a task cannot be given, and an empty line.
-/
import Aria2Next.Session

namespace Aria2Next

open Text OrdMap

/-- A URI as the session's lines take it. -/
structure PlainUri (uri : Text) : Prop where
  ne_nil : uri ≠ []
  noTab : 0x09 ∉ uri
  noReturn : 0x0d ∉ uri
  noBreak : 0x0a ∉ uri
  trimmed : trim uri = uri
  noComment : uri.head? ≠ some 0x23

/-- A value whose lines have no space around them, with several lines only in
an option that is repeatable. -/
structure PlainValue (name value : Text) : Prop where
  trimmed : ∀ line ∈ value.splitOn 0x0a, trim line = line
  breaks : 0x0a ∈ value → (findOption name).any OptionSpec.isList = true

namespace SessionTask

variable {numerals : Numerals}

/-- What the option lines of the file say. -/
def optionPairs (entry : Text × Text) : List (Text × Text) :=
  if isSpecial entry.1 then []
  else (split entry.2 0x0a).map fun line => (entry.1, line)

def pairs (task : SessionTask numerals) : List (Text × Text) :=
  (of "gid", of (gidText task.gid)) ::
    ((if task.state = .paused then [(of "pause", of "true")]
      else []) ++
      task.options.own.entries.flatMap optionPairs)

def entry (task : SessionTask numerals) : SessionEntry :=
  { uris := task.sessionUris, options := task.pairs }

end SessionTask

theorem splitOn_lines (li : List Text) (hl : ∀ l ∈ li, 0x0a ∉ l) :
    (li.flatMap (· ++ [0x0a])).splitOn 0x0a = li ++ [[]] := by
  induction li with
  | nil => rfl
  | cons l r ih =>
    rw [List.forall_mem_cons] at hl
    rw [List.flatMap_cons, List.append_assoc, List.singleton_append,
      List.splitOn_append_cons_self_of_not_mem hl.1, ih hl.2]
    rfl

/-- A line that is not cut short ends in no carriage return. -/
theorem getLast?_ne_return {l : Text} (hn : l ≠ []) (hl : isSpace (l.getLast hn) = false) :
    l.getLast? ≠ some 0x0d := by
  rw [List.getLast?_eq_some_getLast hn]
  intro hr
  rw [Option.some.injEq] at hr
  rw [hr] at hl
  exact absurd hl (by decide)

variable {v name : Text} {uris : List Text}

theorem getLast?_of_trimmed {left : Text} (hn : v ≠ []) (hv : trim v = v) :
    (left ++ v).getLast? ≠ some 0x0d := by
  rw [List.getLast?_append_of_ne_nil left hn]
  exact getLast?_ne_return hn (((trim_eq_self_iff v).mp hv) hn).2

theorem plainName_ne_nil (hn : plainName name = true) : name ≠ [] := by
  simp only [plainName, Bool.and_eq_true] at hn
  simpa using hn.1

theorem plainName_byte (hn : plainName name = true) : ∀ b ∈ name, isSpace b = false ∧ b ≠ 0x3d := by
  simp only [plainName, Bool.and_eq_true, List.all_eq_true, Bool.not_eq_true', bne_iff_ne] at hn
  exact hn.2

theorem trim_option (hn : plainName name = true) (hne : v ≠ []) (hv : trim v = v) :
    trim (name ++ 0x3d :: v) = name ++ 0x3d :: v := by
  rw [trim_eq_self_iff]
  intro hli
  have hl := (((trim_eq_self_iff v).mp hv) hne).2
  constructor
  · rw [List.head_append_of_ne_nil (plainName_ne_nil hn)]
    exact (plainName_byte hn _ (List.head_mem _)).1
  · rw [List.getLast_append_of_ne_nil _ (by simp), List.getLast_cons hne]
    exact hl

/-- The line of a value that stays after trimming adds its pair to the entry
before it. -/
theorem parseLine_option (e : SessionEntry) (b : List SessionEntry) (hn : plainName name = true)
    (hne : v ≠ []) (hv : trim v = v) :
    parseLine (e :: b) (0x20 :: (name ++ 0x3d :: v)) =
      { e with options := e.options ++ [(name, v)] } :: b := by
  have he : (0x20 :: (name ++ 0x3d :: v)).getLast? ≠ some 0x0d := by
    have hs : 0x20 :: (name ++ 0x3d :: v) = (0x20 :: (name ++ [0x3d])) ++ v := by simp
    rw [hs]
    exact getLast?_of_trimmed hne hv
  have hb : ∀ byte ∈ name, decide (byte ≠ 0x3d) = true := by
    intro byte hby
    exact decide_eq_true (plainName_byte hn byte hby).2
  rw [parseLine, if_neg he]
  simp only [trim_space_cons, trim_option hn hne hv]
  rw [if_neg (by decide), if_pos (by decide), if_pos (by simp),
    List.takeWhile_append_of_pos hb, List.dropWhile_append_of_pos hb]
  simp

/-- Before any entry an option line is dropped. -/
theorem parseLine_option_nil (hn : v ≠ []) (hv : trim v = v) :
    parseLine [] (0x20 :: (name ++ 0x3d :: v)) = [] := by
  have he : (0x20 :: (name ++ 0x3d :: v)).getLast? ≠ some 0x0d := by
    have hs : 0x20 :: (name ++ 0x3d :: v) = (0x20 :: (name ++ [0x3d])) ++ v := by simp
    rw [hs]
    exact getLast?_of_trimmed hn hv
  rw [parseLine, if_neg he]
  rfl

/-- The line of URIs starts with the first and ends with the last of them. -/
theorem join_ends (hn : uris ≠ []) (hu : ∀ uri ∈ uris, uri ≠ []) :
    (∃ right, join uris [0x09] = uris.head hn ++ right ∧
      (right = [] ∨ ∃ m, right = 0x09 :: m)) ∧
      ∃ left, join uris [0x09] = left ++ uris.getLast hn := by
  rw [join_eq_intercalate hu]
  constructor
  · cases uris with
    | nil => exact absurd rfl hn
    | cons uri r =>
      refine ⟨_, intercalate_cons [0x09] r uri, ?_⟩
      cases r with
      | nil => exact .inl rfl
      | cons next r => exact .inr ⟨_, rfl⟩
  · cases uris with
    | nil => exact absurd rfl hn
    | cons uri r =>
      rw [intercalate_cons]
      induction r using List.reverseRecOn with
      | nil => exact ⟨[], by simp⟩
      | append_singleton r l _ =>
        refine ⟨uri ++ r.flatMap ([0x09] ++ ·) ++ [0x09], ?_⟩
        simp [List.getLast_cons]

theorem join_getLast? (hn : uris ≠ []) (hu : ∀ uri ∈ uris, PlainUri uri) :
    (join uris [0x09]).getLast? ≠ some 0x0d := by
  obtain ⟨_, left, he⟩ := join_ends hn (fun uri hur => (hu uri hur).ne_nil)
  have hl := hu _ (List.getLast_mem hn)
  rw [he]
  exact getLast?_of_trimmed hl.ne_nil hl.trimmed

theorem parseLine_uris (es : List SessionEntry) (hn : uris ≠ [])
    (hur : ∀ uri ∈ uris, PlainUri uri) :
    parseLine es (join uris [0x09]) = { uris := uris, options := [] } :: es := by
  have hsp : split (join uris [0x09]) 0x09 = uris :=
    split_join hn (fun uri hu => ⟨(hur uri hu).ne_nil, (hur uri hu).noTab, (hur uri hu).trimmed⟩)
  obtain ⟨⟨right, hst, _⟩, _⟩ := join_ends hn (fun uri hu => (hur uri hu).ne_nil)
  have hf := hur _ (List.head_mem hn)
  have hr := join_getLast? hn hur
  have hs := ((trim_eq_self_iff _).mp hf.trimmed hf.ne_nil).1
  have hc := hf.noComment
  cases hu : uris.head hn with
  | nil => exact absurd hu hf.ne_nil
  | cons b m =>
    simp only [hu, List.head_cons] at hs
    rw [hu, List.head?_cons, ne_eq, Option.some.injEq] at hc
    rw [hu, List.cons_append] at hst
    have hp : ¬ (b = 0x20 ∨ b = 0x09) := by
      rintro (rfl | rfl)
      · exact absurd hs (by decide)
      · exact absurd hs (by decide)
    rw [parseLine, if_neg hr]
    simp only [hst, if_neg hc, if_neg hp]
    rw [← hst, hsp]

namespace SessionTask

variable {numerals : Numerals}

/-- Every line of the options is a blank, a plain name and a trimmed value
that is not empty. -/
def OptionLine (line : Text) (pair : Text × Text) : Prop :=
  line = 0x20 :: (pair.1 ++ 0x3d :: pair.2) ∧ plainName pair.1 = true ∧
    pair.2 ≠ [] ∧ trim pair.2 = pair.2 ∧ 0x0a ∉ pair.2

section

variable (t : SessionTask numerals)

variable {entry : Text × Text} {lines : List Text} {pairs : List (Text × Text)}

theorem own_plain (he : entry ∈ t.options.own.entries) : plainName entry.1 = true := by
  have hf := (find?_eq_some_iff t.options.own entry.1 entry.2).mpr he
  obtain ⟨s, hs, _⟩ := t.canonical entry.1 entry.2 hf
  exact findOption_plain hs

theorem optionLines_forall₂ (hn : plainName entry.1 = true) :
    List.Forall₂ OptionLine (optionLines entry) (optionPairs entry) := by
  rw [optionLines, optionPairs]
  split
  · exact List.Forall₂.nil
  · rw [List.forall₂_map_left_iff, List.forall₂_map_right_iff, List.forall₂_same]
    intro l hl
    obtain ⟨hm, hk⟩ := List.mem_filter.mp hl
    obtain ⟨p, hp, rfl⟩ := List.mem_map.mp hm
    refine ⟨rfl, hn, by simpa using hk, trim_trim p, ?_⟩
    intro hb
    exact notMem_of_mem_splitOn entry.2 0x0a p hp (mem_of_mem_trim hb)

theorem gidLine : OptionLine (of " gid=" ++ of (gidText t.gid)) (of "gid", of (gidText t.gid)) := by
  have hs : of " gid=" = 0x20 :: (of "gid" ++ [0x3d]) := by
    simp only [of_eq]
    rfl
  have hb := gidText_not_space t.gid
  refine ⟨by rw [hs]; simp, findOption_plain findOption_special.1, ?_, trim_of_not_space hb, ?_⟩
  · intro hn
    change of (gidText t.gid) = [] at hn
    have hp := parseGid_gidText t.gid_pos t.gid_lt
    rw [hn] at hp
    cases hp
  · intro hbr
    exact absurd (hb 0x0a hbr) (by decide)

theorem pauseLine : OptionLine (of " pause=true") (of "pause", of "true") := by
  refine ⟨?_, findOption_plain findOption_special.2, ?_⟩ <;> simp only [of_eq] <;> decide

/-- The lines below the URIs and the pairs they stand for. -/
theorem lines_forall₂ :
    ∃ os, t.lines = join t.sessionUris [0x09] :: os ∧ List.Forall₂ OptionLine os t.pairs := by
  refine ⟨_, rfl, List.Forall₂.cons t.gidLine ?_⟩
  apply List.rel_append
  · split
    · exact List.Forall₂.cons pauseLine List.Forall₂.nil
    · exact List.Forall₂.nil
  · have hp : ∀ e ∈ t.options.own.entries, plainName e.1 = true := fun e => t.own_plain
    generalize t.options.own.entries = es at hp
    induction es with
    | nil => exact List.Forall₂.nil
    | cons e r ih =>
      rw [List.forall_mem_cons] at hp
      exact List.rel_append (optionLines_forall₂ hp.1) (ih hp.2)

theorem foldl_options (hl : List.Forall₂ OptionLine lines pairs) :
    ∀ (e : SessionEntry) (b : List SessionEntry), lines.foldl parseLine (e :: b) =
        { e with options := e.options ++ pairs } :: b := by
  induction hl with
  | nil => intro e b; simp
  | cons hli _ ih =>
    intro e b
    obtain ⟨rfl, hn, hne, hv, _⟩ := hli
    rw [List.foldl_cons, parseLine_option e b hn hne hv, ih]
    simp

theorem foldl_options_nil (hl : List.Forall₂ OptionLine lines pairs) :
    lines.foldl parseLine [] = [] := by
  induction hl with
  | nil => rfl
  | cons hli _ ih =>
    obtain ⟨rfl, _, hn, hv, _⟩ := hli
    rw [List.foldl_cons, parseLine_option_nil hn hv, ih]

theorem lines_noBreak (hu : ∀ uri ∈ t.sessionUris, PlainUri uri) : ∀ l ∈ t.lines, 0x0a ∉ l := by
  obtain ⟨os, hl, hp⟩ := t.lines_forall₂
  rw [hl, List.forall_mem_cons]
  constructor
  · rw [join_eq_intercalate (fun uri hur => (hu uri hur).ne_nil)]
    cases hur : t.sessionUris with
    | nil => simp
    | cons uri r =>
      rw [hur, List.forall_mem_cons] at hu
      rw [intercalate_cons, List.mem_append, List.mem_flatMap, not_or]
      refine ⟨hu.1.noBreak, ?_⟩
      rintro ⟨o, ho, hb⟩
      rcases List.mem_append.mp hb with ht | hb
      · exact absurd ht (by decide)
      · exact (hu.2 o ho).noBreak hb
  · generalize t.pairs = pairs at hp
    clear hl
    induction hp with
    | nil => simp
    | cons hli _ ih =>
      obtain ⟨rfl, hn, _, _, hb⟩ := hli
      rw [List.forall_mem_cons]
      refine ⟨?_, ih⟩
      rw [List.mem_cons, List.mem_append, List.mem_cons, not_or, not_or, not_or]
      refine ⟨by decide, ?_, by decide, hb⟩
      intro hm
      exact absurd (plainName_byte hn 0x0a hm).1 (by decide)

/-- The lines of a task make its entry. -/
theorem foldl_lines (hn : t.sessionUris ≠ []) (hu : ∀ uri ∈ t.sessionUris, PlainUri uri)
    (es : List SessionEntry) : t.lines.foldl parseLine es = t.entry :: es := by
  obtain ⟨os, hl, hp⟩ := t.lines_forall₂
  rw [hl, List.foldl_cons, parseLine_uris es hn hu, foldl_options hp]
  rfl

end

theorem foldl_tasks {ts : List (SessionTask numerals)}
    (ht : ∀ t ∈ ts, t.sessionUris ≠ [] ∧ ∀ uri ∈ t.sessionUris, PlainUri uri) :
    ∀ es : List SessionEntry, (ts.flatMap lines).foldl parseLine es =
        (ts.map entry).reverse ++ es := by
  induction ts with
  | nil => intro es; rfl
  | cons t r ih =>
    intro es
    rw [List.forall_mem_cons] at ht
    rw [List.flatMap_cons, List.foldl_append, t.foldl_lines ht.1.1 ht.1.2, ih ht.2]
    simp

end SessionTask

section File

variable {numerals : Numerals} {tasks ts : List (SessionTask numerals)}

/-- The saved tasks, in the order of the file. -/
def written (tasks : List (SessionTask numerals)) : List (SessionTask numerals) :=
  tasks.filter SessionTask.isWritten

theorem written_uris (hu : ∀ t ∈ ts, ∀ uri ∈ t.sessionUris, PlainUri uri) :
    ∀ t ∈ written ts, t.sessionUris ≠ [] ∧ ∀ uri ∈ t.sessionUris, PlainUri uri := by
  intro t ht
  obtain ⟨hm, hw⟩ := List.mem_filter.mp ht
  simp only [SessionTask.isWritten, Bool.and_eq_true] at hw
  exact ⟨by simpa using hw.2, hu t hm⟩

theorem serializeSession_eq (ts : List (SessionTask numerals)) :
    serializeSession ts = ((written ts).flatMap SessionTask.lines).flatMap (· ++ [0x0a]) := by
  rw [List.flatMap_assoc]
  rfl

theorem lines_written (hu : ∀ t ∈ ts, ∀ uri ∈ t.sessionUris, PlainUri uri) :
    ∀ l ∈ (written ts).flatMap SessionTask.lines, 0x0a ∉ l := by
  intro l hl
  obtain ⟨t, ht, hm⟩ := List.mem_flatMap.mp hl
  exact t.lines_noBreak (written_uris hu t ht).2 l hm

/-- A file that does not start with a byte order mark gives every task its
entry. -/
theorem parseSession_serializeSession (hu : ∀ t ∈ ts, ∀ uri ∈ t.sessionUris, PlainUri uri)
    (hm : withoutMark (serializeSession ts) = serializeSession ts) :
    parseSession (serializeSession ts) = (written ts).map SessionTask.entry := by
  rw [parseSession, hm, serializeSession_eq, splitOn_lines _ (lines_written hu), List.foldl_append,
    SessionTask.foldl_tasks (written_uris hu)]
  simp [parseLine]

end File

/-- What is left of an own option once its lines are given to a new task. -/
def kept (name value : Text) : Option Text :=
  if (findOption name).any OptionSpec.forTasks then
    match split value 0x0a with
    | [] => none
    | first :: rest => some ([0x0a].intercalate (first :: rest))
  else none

/-- The options with what is left of one. -/
def restore (options : Options) (name : Text) : Option Text → Options
  | none => options
  | some stored => options.put name stored

section Give

variable {numerals : Numerals} {name v : Text} {spec : OptionSpec}

theorem giveOption_list (hf : findOption name = some spec) (ht : spec.forTasks = true)
    (hl : spec.isList = true) (os : Options) (l : Text) :
    giveOption numerals os (name, l) = .ok (os.put name ((if ((os.own.find? name).getD []).isEmpty
          then (os.own.find? name).getD []
          else (os.own.find? name).getD [] ++ [0x0a]) ++ l)) := by
  rw [giveOption, if_neg (by simp [hf, ht]), Options.add, hf]
  exact if_pos hl

/-- Further lines of a repeatable option go behind those it has. -/
theorem give_lines (hf : findOption name = some spec) (ht : spec.forTasks = true)
    (hli : spec.isList = true) {li : List Text} (hl : ∀ l ∈ li, l ≠ []) :
    ∀ (os : Options) (c : Text), c ≠ [] → os.own.find? name = some c →
      (li.map fun l => (name, l)).foldlM (giveOption numerals) os =
        .ok (os.put name (c ++ li.flatMap ([0x0a] ++ ·))) := by
  induction li with
  | nil =>
    intro os c hn hc
    have hs : os.put name c = os := by
      rw [Options.put, insert_eq_self hc]
    simp only [List.map_nil, List.foldlM_nil, List.flatMap_nil, List.append_nil, hs]
    rfl
  | cons l r ih =>
    intro os c hn hc
    rw [List.forall_mem_cons] at hl
    have ho : c.isEmpty = false := by simpa using hn
    rw [List.map_cons, List.foldlM_cons, giveOption_list hf ht hli]
    simp only [hc, Option.getD_some, ho, Bool.false_eq_true, if_false]
    apply (ih hl.2 _ (c ++ [0x0a] ++ l) (by simp) (find?_insert_self _ _ _)).trans
    simp [Options.put]

/-- Storing what is left changes that option only. -/
theorem find?_restore (os : Options) (s : Option Text) (hf : os.own.find? name = none) (o : Text) :
    (restore os name s).own.find? o = if o = name then s else os.own.find? o := by
  by_cases hs : o = name
  · rw [if_pos hs, hs]
    cases s with
    | none => exact hf
    | some s => exact find?_insert_self _ _ _
  · rw [if_neg hs]
    cases s with
    | none => rfl
    | some s => exact find?_insert_of_ne _ _ hs

theorem split_whole {first : Text} {r : List Text} {s : UInt8} (hw : s ∉ v) (ht : trim v = v)
    (hs : split v s = first :: r) : v = first ∧ r = [] := by
  rw [split, List.splitOn_eq_singleton hw] at hs
  simp only [List.map_cons, List.map_nil, ht] at hs
  rw [List.filter_cons] at hs
  split at hs
  · rw [List.cons.injEq] at hs
    exact ⟨hs.1, hs.2.symm⟩
  · cases hs

/-- The lines of one own option, given to a task that does not have it. -/
theorem give_entry (hf : findOption name = some spec)
    (hst : spec.isList = false → spec.forTasks = true → Options.Stable numerals name v)
    (hpl : PlainValue name v) (hsp : SessionTask.isSpecial name = false) (os : Options)
    (hfr : os.own.find? name = none) :
    (SessionTask.optionPairs (name, v)).foldlM (giveOption numerals) os =
      .ok (restore os name (kept name v)) := by
  rw [SessionTask.optionPairs, hsp]
  simp only [Bool.false_eq_true, if_false]
  cases ht : spec.forTasks with
  | false =>
    have hk : kept name v = none := by simp [kept, hf, ht]
    rw [hk]
    generalize split v 0x0a = lines
    induction lines with
    | nil => rfl
    | cons l r ih =>
      have hg : giveOption numerals os (name, l) = .ok os := by
        simp [giveOption, hf, ht]
      rw [List.map_cons, List.foldlM_cons, hg]
      exact ih
  | true =>
    have hp : ∀ p ∈ split v 0x0a, p ≠ [] := by
      intro p hpa
      simpa using (List.mem_filter.mp hpa).2
    cases hs : split v 0x0a with
    | nil =>
      have hk : kept name v = none := by
        simp [kept, hf, ht, hs]
      rw [hk]
      rfl
    | cons first r =>
      have hk : kept name v = some (first ++ r.flatMap ([0x0a] ++ ·)) := by
        simp only [kept, hf, Option.any_some, ht, if_true, hs, intercalate_cons]
      rw [hk]
      rw [hs, List.forall_mem_cons] at hp
      cases hl : spec.isList with
      | true =>
        rw [List.map_cons, List.foldlM_cons, giveOption_list hf ht hl]
        simp only [hfr, Option.getD_none, List.isEmpty_nil, if_true, List.nil_append]
        apply (give_lines hf ht hl hp.2 _ first hp.1 (find?_insert_self _ _ _)).trans
        simp [Options.put, restore]
      | false =>
        have hb : 0x0a ∉ v := by
          intro hm
          have ha := hpl.breaks hm
          rw [hf, Option.any_some, hl] at ha
          cases ha
        have hw := hpl.trimmed v (by
          rw [List.splitOn_eq_singleton hb]
          exact List.mem_singleton_self v)
        obtain ⟨rfl, rfl⟩ := split_whole hb hw hs
        have hg : giveOption numerals os (name, v) = .ok (os.put name v) := by
          rw [giveOption, if_neg (by simp [hf, ht]), Options.add, hf]
          simp only [hl, Bool.false_eq_true, if_false]
          exact hst hl ht os
        simp only [List.map_cons, List.map_nil, List.foldlM_cons,
          List.foldlM_nil, hg, List.flatMap_nil, List.append_nil]
        rfl

/-- The option is one of the catalogue, its value one a session carries. -/
def Carried (numerals : Numerals) (entry : Text × Text) : Prop :=
  (∃ spec, findOption entry.1 = some spec ∧ (spec.isList = false → spec.forTasks = true →
      Options.Stable numerals entry.1 entry.2)) ∧
    PlainValue entry.1 entry.2

/-- All own options, given to a task that has none of them. -/
theorem give_entries {es : List (Text × Text)} (hk : (es.map Prod.fst).Nodup)
    (he : ∀ e ∈ es, Carried numerals e) :
    ∀ os : Options, (∀ e ∈ es, SessionTask.isSpecial e.1 = false →
        os.own.find? e.1 = none) → ∃ next, (es.flatMap SessionTask.optionPairs).foldlM
          (giveOption numerals) os = .ok next ∧ (∀ e ∈ es, SessionTask.isSpecial e.1 = false →
          next.own.find? e.1 = kept e.1 e.2) ∧
        ∀ name, (SessionTask.isSpecial name = true ∨ name ∉ es.map Prod.fst) →
          next.own.find? name = os.own.find? name := by
  induction es with
  | nil =>
    intro os _
    exact ⟨os, rfl, by simp, fun _ _ => rfl⟩
  | cons e rest ih =>
    intro os hf
    rw [List.map_cons, List.nodup_cons] at hk
    rw [List.forall_mem_cons] at he hf
    obtain ⟨⟨⟨spec, hfin, hst⟩, hp⟩, hr⟩ := he
    cases hs : SessionTask.isSpecial e.1 with
    | true =>
      obtain ⟨next, hnex, hke, ho⟩ := ih hk.2 hr os hf.2
      refine ⟨next, ?_, ?_, ?_⟩
      · rw [List.flatMap_cons, SessionTask.optionPairs, hs]
        exact hnex
      · rw [List.forall_mem_cons]
        refine ⟨fun hno => ?_, hke⟩
        rw [hs] at hno
        cases hno
      · intro name hn
        apply ho
        rcases hn with hn | hn
        · exact .inl hn
        · exact .inr fun hm => hn (List.mem_cons_of_mem _ hm)
    | false =>
      have hg := give_entry hfin hst hp hs os (hf.1 hs)
      have hfi := find?_restore os (kept e.1 e.2) (hf.1 hs)
      obtain ⟨next, hnex, hke, ho⟩ := ih hk.2 hr (restore os e.1 (kept e.1 e.2)) (by
          intro o hm hno
          rw [hfi, if_neg]
          · exact hf.2 o hm hno
          · intro hsa
            apply hk.1
            rw [← hsa]
            exact List.mem_map_of_mem hm)
      refine ⟨next, ?_, ?_, ?_⟩
      · rw [List.flatMap_cons, List.foldlM_append, hg]
        exact hnex
      · rw [List.forall_mem_cons]
        refine ⟨fun _ => ?_, hke⟩
        rw [ho e.1 (.inr hk.1), hfi, if_pos rfl]
      · intro name hn
        have hne : name ≠ e.1 := by
          rintro rfl
          rcases hn with hn | hn
          · rw [hs] at hn
            cases hn
          · exact hn List.mem_cons_self
        rw [ho name, hfi, if_neg hne]
        rcases hn with hn | hn
        · exact .inl hn
        · exact .inr fun hm => hn (List.mem_cons_of_mem _ hm)

theorem giveOption_stable (hf : findOption name = some spec) (ht : spec.forTasks = true)
    (hl : spec.isList = false) (hs : Options.Stable numerals name v) (os : Options) :
    giveOption numerals os (name, v) = .ok (os.put name v) := by
  rw [giveOption, if_neg (by simp [hf, ht]), Options.add, hf]
  simp only [hl, Bool.false_eq_true, if_false]
  exact hs os

theorem giveOption_gid (os : Options) (v : Text) :
    giveOption numerals os (of "gid", v) = .ok (os.put (of "gid") v) := by
  have hr := not_isRetired "gid" (by simp)
  have hn : normalizeOption numerals (option "gid" .text "" [.task]) v = .ok v := rfl
  apply giveOption_stable findOption_special.1 (by decide) (by decide)
  exact Options.stable_of_stored (Options.not_mapped (by decide)) hr
    findOption_special.1 (by decide) hn

theorem giveOption_pause (os : Options) :
    giveOption numerals os (of "pause", of "true") = .ok (os.put (of "pause") (of "true")) := by
  have hr := not_isRetired "pause" (by simp)
  have hn : normalizeOption numerals (option "pause" .flag "false" [.task]) (of "true") =
        .ok (of "true") := if_pos (.inl rfl)
  apply giveOption_stable findOption_special.2 (by decide) (by decide)
  exact Options.stable_of_stored (Options.not_mapped (by decide)) hr
    findOption_special.2 (by decide) hn

theorem special_ne : of "gid" ≠ of "pause" := by
  intro hs
  exact absurd (of_injective hs) (by decide)

/-- The options a new task has once it is given what the session says. -/
theorem taskOptions_pairs (t : SessionTask numerals)
    (hv : ∀ name v, t.options.own.find? name = some v → PlainValue name v)
    (g : List (OrdMap Text Text)) : ∃ os, taskOptions numerals g t.pairs = .ok os ∧
      os.own.find? (of "gid") = some (of (gidText t.gid)) ∧ os.own.find? (of "pause") =
        (if t.state = .paused then some (of "true") else none) ∧
      ∀ name, SessionTask.isSpecial name = false → os.own.find? name =
          (t.options.own.find? name).bind (kept name) := by
  let started : Options :=
    { own := (∅ : OrdMap Text Text).insert (of "gid") (of (gidText t.gid))
      parents := g }
  let begun : Options := if t.state = .paused then started.put (of "pause") (of "true")
    else started
  have hb : taskOptions numerals g t.pairs =
      (t.options.own.entries.flatMap SessionTask.optionPairs).foldlM
        (giveOption numerals) begun := by
    rw [taskOptions, SessionTask.pairs, List.foldlM_cons, giveOption_gid]
    change List.foldlM (giveOption numerals) started _ = _
    by_cases hp : t.state = .paused
    · rw [if_pos hp, List.singleton_append, List.foldlM_cons, giveOption_pause]
      simp only [begun, if_pos hp]
      rfl
    · simp only [begun, if_neg hp]
      rfl
  have hg : begun.own.find? (of "gid") = some (of (gidText t.gid)) := by
    simp only [begun]
    split
    · exact (find?_insert_of_ne _ _ special_ne).trans (find?_insert_self _ _ _)
    · exact find?_insert_self _ _ _
  have hpa : begun.own.find? (of "pause") =
      (if t.state = .paused then some (of "true") else none) := by
    simp only [begun]
    split
    · exact find?_insert_self _ _ _
    · exact find?_insert_of_ne _ _ special_ne.symm
  have hr : ∀ name, SessionTask.isSpecial name = false → begun.own.find? name = none := by
    intro name hs
    simp only [SessionTask.isSpecial, Bool.or_eq_false_iff, decide_eq_false_iff_not] at hs
    have hfi : started.own.find? name = none := find?_insert_of_ne _ _ hs.1
    simp only [begun]
    split
    · exact (find?_insert_of_ne _ _ hs.2).trans hfi
    · exact hfi
  have hc : ∀ e ∈ t.options.own.entries, Carried numerals e := by
    intro e he
    have hf := (find?_eq_some_iff t.options.own e.1 e.2).mpr he
    exact ⟨t.canonical e.1 e.2 hf, hv _ _ hf⟩
  obtain ⟨os, hop, hk, ho⟩ := give_entries t.options.own.keys_nodup hc begun (fun e _ => hr e.1)
  refine ⟨os, hb.trans hop, ?_, ?_, ?_⟩
  · rw [ho _ (.inl (by simp [SessionTask.isSpecial])), hg]
  · rw [ho _ (.inl (by simp [SessionTask.isSpecial])), hpa]
  · intro name hs
    cases hf : t.options.own.find? name with
    | none =>
      rw [find?_eq_none_iff] at hf
      have hn : name ∉ t.options.own.entries.map Prod.fst := by
        intro hm
        obtain ⟨e, he, rfl⟩ := List.mem_map.mp hm
        exact hf e.2 he
      exact (ho name (.inr hn)).trans (hr name hs)
    | some v =>
      exact hk (name, v) ((find?_eq_some_iff _ _ _).mp hf) hs

end Give

section RoundTrip

variable {numerals : Numerals}

/-- The task an entry would start again: the same URIs, GID and state, and
the same own options, so that each of them reads as before over any global
options. -/
def Restored (global : List (OrdMap Text Text))
    (task : SessionTask numerals) (entry : SessionEntry) : Prop :=
  entry.uris = task.sessionUris ∧
    ∃ options, taskOptions numerals global entry.options = .ok options ∧
      parseGid (options.get (of "gid")) = some task.gid ∧
      options.own.find? (of "pause") =
        (if task.state = .paused then some (of "true") else none) ∧
      ∀ name, SessionTask.isSpecial name = false →
        options.own.find? name = task.options.own.find? name ∧
          (task.options.own.contains name = true → options.get name = task.options.get name)

/-- The file of the tasks gives back each of them, in their order. -/
def RoundTrip (global : List (OrdMap Text Text)) (tasks : List (SessionTask numerals)) : Prop :=
  List.Forall₂ (Restored global) (written tasks) (parseSession (serializeSession tasks))

/-- The file does not start with a byte order mark, every own option is one a
task can be given, and no line of a value is empty. -/
def Writable (tasks : List (SessionTask numerals)) : Prop :=
  (∀ task ∈ (written tasks).head?, ∀ uri ∈ task.sessionUris.head?,
    byteOrderMark.isPrefixOf uri = false) ∧
  ∀ task ∈ written tasks, ∀ name value, task.options.own.find? name = some value →
    SessionTask.isSpecial name = false →
    (findOption name).any OptionSpec.forTasks = true ∧ ∀ line ∈ value.splitOn 0x0a, line ≠ []

variable {name v : Text}

theorem get_of_own {os : Options} (ho : os.own.find? name = some v) : os.get name = v := by
  rw [Options.get, List.findSome?_cons, ho]

theorem restored_iff (g : List (OrdMap Text Text)) (t : SessionTask numerals)
    (hva : ∀ n v, t.options.own.find? n = some v → PlainValue n v) :
    Restored g t t.entry ↔ ∀ n v, t.options.own.find? n = some v →
      SessionTask.isSpecial n = false → kept n v = some v := by
  obtain ⟨options, ho, hg, hp, hown⟩ := taskOptions_pairs t hva g
  constructor
  · rintro ⟨_, restored, hr, _, _, hsa⟩ n v hv hs
    have hb : options = restored := Except.ok.inj (ho.symm.trans hr)
    have hk := hown n hs
    rw [hb, (hsa n hs).1, hv] at hk
    exact hk.symm
  · intro hk
    refine ⟨rfl, options, ho, ?_, hp, ?_⟩
    · rw [get_of_own hg]
      exact parseGid_gidText t.gid_pos t.gid_lt
    · intro n hs
      have hsa := hown n hs
      cases hv : t.options.own.find? n with
      | none =>
        rw [hv] at hsa
        refine ⟨hsa, fun hc => ?_⟩
        rw [contains, hv] at hc
        cases hc
      | some v =>
        rw [hv, Option.bind_some, hk n v hv hs] at hsa
        refine ⟨hsa, fun _ => ?_⟩
        rw [get_of_own hsa, get_of_own hv]

/-- An own option is given back exactly where the file can carry it. -/
theorem kept_iff (hpl : PlainValue name v) :
    kept name v = some v ↔ (findOption name).any OptionSpec.forTasks = true ∧
        ∀ l ∈ v.splitOn 0x0a, l ≠ [] := by
  have hs : split v 0x0a = (v.splitOn 0x0a).filter fun p => !p.isEmpty := by
    have htr : (v.splitOn 0x0a).map trim = v.splitOn 0x0a := by
      apply Eq.trans _ (List.map_id _)
      exact List.map_congr_left hpl.trimmed
    rw [split, htr]
    rfl
  have hp : ∀ p ∈ split v 0x0a, 0x0a ∉ p := by
    intro p hpa
    rw [hs] at hpa
    exact notMem_of_mem_splitOn v 0x0a p (List.mem_filter.mp hpa).1
  rw [kept]
  by_cases ht : (findOption name).any OptionSpec.forTasks = true
  · rw [if_pos ht]
    constructor
    · intro hk
      refine ⟨ht, ?_⟩
      cases hf : split v 0x0a with
      | nil =>
        rw [hf] at hk
        cases hk
      | cons first r =>
        rw [hf] at hk hp
        simp only [Option.some.injEq] at hk
        have ha : v.splitOn 0x0a = first :: r := by
          rw [← hk]
          exact List.splitOn_intercalate 0x0a hp (by simp)
        intro l hl
        rw [ha, ← hf] at hl
        simpa using (List.mem_filter.mp hl).2
    · rintro ⟨_, hli⟩
      have ha : split v 0x0a = v.splitOn 0x0a := by
        rw [hs, List.filter_eq_self]
        intro l hl
        simpa using hli l hl
      rw [ha]
      cases hf : v.splitOn 0x0a with
      | nil => exact absurd hf (List.splitOn_ne_nil 0x0a v)
      | cons first r =>
        simp only [Option.some.injEq]
        rw [← hf]
        exact List.intercalate_splitOn 0x0a
  · simp [ht]

/-- A byte that is not in the mark ends the comparison. -/
theorem isPrefixOf_append {s : UInt8} (t : Text) {m : Text} (hm : s ∉ m) :
    ∀ uri : Text, m.isPrefixOf (uri ++ s :: t) = m.isPrefixOf uri := by
  induction m with
  | nil => intro uri; simp
  | cons b r ih =>
    intro uri
    rw [List.mem_cons, not_or] at hm
    cases uri with
    | nil =>
      have hn : (b == s) = false := by
        simpa using Ne.symm hm.1
      simp [List.isPrefixOf, hn]
    | cons first uri =>
      simp only [List.cons_append, List.isPrefixOf, ih hm.2 uri]

section

variable {ts rest : List (SessionTask numerals)} {t : SessionTask numerals}

theorem serializeSession_cons (hw : written ts = t :: rest) :
    ∃ os, t.lines = join t.sessionUris [0x09] :: os ∧
      List.Forall₂ SessionTask.OptionLine os t.pairs ∧
      serializeSession ts = join t.sessionUris [0x09] ++
        0x0a :: (os ++ rest.flatMap SessionTask.lines).flatMap (· ++ [0x0a]) := by
  obtain ⟨os, hl, hp⟩ := t.lines_forall₂
  refine ⟨os, hl, hp, ?_⟩
  rw [serializeSession_eq, hw, List.flatMap_cons, hl]
  simp

/-- The file starts with a byte order mark exactly where its first URI does. -/
theorem serializeSession_mark (hw : written ts = t :: rest) (hn : t.sessionUris ≠ [])
    (hu : ∀ uri ∈ t.sessionUris, PlainUri uri) : byteOrderMark.isPrefixOf (serializeSession ts) =
      byteOrderMark.isPrefixOf (t.sessionUris.head hn) := by
  obtain ⟨os, _, _, hf⟩ := serializeSession_cons hw
  obtain ⟨⟨right, hs, hr⟩, _⟩ := join_ends hn (fun uri hur => (hu uri hur).ne_nil)
  rw [hf, hs]
  rcases hr with rfl | ⟨more, rfl⟩
  · rw [List.append_nil]
    exact isPrefixOf_append _ (by decide) _
  · rw [List.append_assoc]
    exact isPrefixOf_append _ (by decide) _

theorem parseLine_first {l : Text} (hl : l.getLast? ≠ some 0x0d) :
    parseLine [] l = [] ∨ parseLine [] l = [{ uris := split l 0x09, options := [] }] := by
  rw [parseLine, if_neg hl]
  cases l with
  | nil => exact .inl rfl
  | cons first l =>
    simp only
    split
    · exact .inl rfl
    · split
      · exact .inl rfl
      · exact .inr rfl

/-- A first URI that starts with a byte order mark is not given back. -/
theorem not_roundTrip_of_mark (hw : written ts = t :: rest)
    (hu : ∀ t ∈ ts, ∀ uri ∈ t.sessionUris, PlainUri uri)
    (hm : byteOrderMark.isPrefixOf (serializeSession ts) = true)
    (global : List (OrdMap Text Text)) : ¬ RoundTrip global ts := by
  have hta : t ∈ written ts := by simp [hw]
  obtain ⟨hn, hp⟩ := written_uris hu t hta
  obtain ⟨os, hli, hpa, hfi⟩ := serializeSession_cons hw
  have hlo : 3 ≤ (join t.sessionUris [0x09]).length := by
    have hf := hm
    rw [serializeSession_mark hw hn hp, List.isPrefixOf_iff_prefix] at hf
    obtain ⟨⟨right, hst, _⟩, _⟩ := join_ends hn (fun uri hur => (hp uri hur).ne_nil)
    rw [hst, List.length_append]
    exact hf.length_le.trans (Nat.le_add_right _ _)
  have hc : ((join t.sessionUris [0x09]).drop 3).getLast? ≠ some 0x0d := by
    rw [List.getLast?_drop]
    split
    · simp
    · exact join_getLast? hn hp
  have hb : ∀ l ∈ (join t.sessionUris [0x09]).drop 3 ::
      (os ++ rest.flatMap SessionTask.lines), 0x0a ∉ l := by
    have ha := lines_written hu
    rw [hw, List.flatMap_cons, hli, List.cons_append, List.forall_mem_cons] at ha
    rw [List.forall_mem_cons]
    exact ⟨fun hbr => ha.1 (List.mem_of_mem_drop hbr), ha.2⟩
  have hpar : parseSession (serializeSession ts) =
      ((rest.flatMap SessionTask.lines).foldl parseLine (os.foldl parseLine (parseLine []
          ((join t.sessionUris [0x09]).drop 3)))).reverse := by
    have hdr : withoutMark (serializeSession ts) = ((join t.sessionUris [0x09]).drop 3 ::
          (os ++ rest.flatMap SessionTask.lines)).flatMap (· ++ [0x0a]) := by
      rw [withoutMark, if_pos hm, hfi, List.drop_append_of_le_length hlo]
      simp
    rw [parseSession, hdr, splitOn_lines _ hb, List.foldl_append]
    change (List.foldl parseLine [] (_ :: _)).reverse = _
    rw [List.foldl_cons, List.foldl_append]
  intro ht
  rw [RoundTrip, hw, hpar] at ht
  have hr : ∀ t ∈ rest, t.sessionUris ≠ [] ∧ ∀ uri ∈ t.sessionUris, PlainUri uri := by
    intro o ho
    exact written_uris hu o (by
      rw [hw]
      exact List.mem_cons_of_mem t ho)
  rw [SessionTask.foldl_tasks hr] at ht
  rcases parseLine_first hc with hno | hso
  · rw [hno, SessionTask.foldl_options_nil hpa] at ht
    have hl := ht.length_eq
    simp at hl
  · rw [hso, SessionTask.foldl_options hpa, List.reverse_append] at ht
    obtain ⟨⟨hs, _⟩, _⟩ := List.forall₂_cons.mp ht
    have hsh := length_join_split_le ((join t.sessionUris [0x09]).drop 3) 0x09
    change split _ 0x09 = t.sessionUris at hs
    rw [hs, List.length_drop] at hsh
    omega

end

/-- The session file gives its tasks back exactly where it can carry them. -/
theorem session_round_trip_iff (global : List (OrdMap Text Text))
    (tasks : List (SessionTask numerals))
    (huris : ∀ task ∈ tasks, ∀ uri ∈ task.sessionUris, PlainUri uri)
    (hvalues : ∀ task ∈ tasks, ∀ name value,
      task.options.own.find? name = some value → PlainValue name value) :
    RoundTrip global tasks ↔ Writable tasks := by
  have hrestored : ∀ task ∈ written tasks, (Restored global task task.entry ↔ ∀ name value,
        task.options.own.find? name = some value → SessionTask.isSpecial name = false →
        (findOption name).any OptionSpec.forTasks = true ∧
          ∀ line ∈ value.splitOn 0x0a, line ≠ []) := by
    intro task htask
    have hplain := hvalues task (List.mem_filter.mp htask).1
    rw [restored_iff global task hplain]
    constructor
    · intro hkept name value hvalue hspecial
      exact (kept_iff (hplain name value hvalue)).mp (hkept name value hvalue hspecial)
    · intro hlines name value hvalue hspecial
      exact (kept_iff (hplain name value hvalue)).mpr (hlines name value hvalue hspecial)
  by_cases hmark : byteOrderMark.isPrefixOf (serializeSession tasks) = true
  · constructor
    · intro htrip
      cases hwritten : written tasks with
      | nil =>
        rw [serializeSession_eq, hwritten] at hmark
        cases hmark
      | cons task rest =>
        exact absurd htrip (not_roundTrip_of_mark hwritten huris hmark global)
    · rintro ⟨hfirst, _⟩
      cases hwritten : written tasks with
      | nil =>
        rw [serializeSession_eq, hwritten] at hmark
        cases hmark
      | cons task rest =>
        obtain ⟨hne, hplain⟩ := written_uris huris task (by simp [hwritten])
        rw [serializeSession_mark hwritten hne hplain] at hmark
        rw [hwritten] at hfirst
        have hnot := hfirst task rfl _ (List.head?_eq_some_head hne)
        rw [hnot] at hmark
        cases hmark
  · have hparse := parseSession_serializeSession huris (if_neg hmark)
    rw [RoundTrip, hparse, List.forall₂_map_right_iff, List.forall₂_same]
    constructor
    · intro hall
      refine ⟨?_, fun task htask => (hrestored task htask).mp (hall task htask)⟩
      intro task htask uri huri
      cases hwritten : written tasks with
      | nil =>
        rw [hwritten] at htask
        cases htask
      | cons first rest =>
        rw [hwritten] at htask
        cases htask
        obtain ⟨hne, hplain⟩ := written_uris huris task (by simp [hwritten])
        rw [List.head?_eq_some_head hne] at huri
        cases huri
        rw [serializeSession_mark hwritten hne hplain] at hmark
        exact (Bool.not_eq_true _).mp hmark
    · intro hwritable task htask
      exact (hrestored task htask).mpr (hwritable.2 task htask)

end RoundTrip

/-- No option of the examples is a number. -/
def noNumerals : Numerals where
  toDouble _ := none
  toSize _ := none
  toSize_decimal := by simp

theorem canonical_empty : Options.Canonical noNumerals { own := ∅, parents := [] } := by
  intro n v hv
  cases hv

/-- A task with one URI and one own option. -/
def oneOption (name value : Text) (hc : Options.Canonical noNumerals
      (Options.put { own := ∅, parents := [] } name value)) :
    SessionTask noNumerals where
  gid := 255
  gid_pos := by decide
  gid_lt := by decide
  state := .paused
  errorCode := 0
  followedBy := []
  sessionUris := [of "http://a/f"]
  options := Options.put { own := ∅, parents := [] } name value
  canonical := hc

theorem oneOption_uris
    {hc : Options.Canonical noNumerals (.put { own := ∅, parents := [] } name v)} :
    ∀ t ∈ [oneOption name v hc], ∀ uri ∈ t.sessionUris, PlainUri uri := by
  intro t ht uri hu
  obtain rfl := List.mem_singleton.mp ht
  obtain rfl := List.mem_singleton.mp hu
  constructor <;> rw [of_eq] <;> decide

theorem oneOption_find {o s : Text}
    {hc : Options.Canonical noNumerals (.put { own := ∅, parents := [] } name v)}
    (hf : (oneOption name v hc).options.own.find? o = some s) : o = name ∧ s = v := by
  change ((∅ : OrdMap Text Text).insert name v).find? o = _ at hf
  rw [find?_insert] at hf
  split at hf
  case isTrue hs =>
    cases hf
    exact ⟨hs, rfl⟩
  case isFalse => cases hf

/-- Two header lines come back as they were. -/
theorem session_round_trip_header :
    RoundTrip [∅] [oneOption (Text.of "header") (Text.of "A: b\nC: d")
      (canonical_empty.put findOption_header (fun hnot => by cases hnot))] := by
  apply (session_round_trip_iff [∅] _ oneOption_uris ?_).mpr
  · refine ⟨by decide +kernel, ?_⟩
    intro task htask name value hvalue _
    obtain rfl := List.mem_singleton.mp htask
    obtain ⟨rfl, rfl⟩ := oneOption_find hvalue
    decide +kernel
  · intro task htask name value hvalue
    obtain rfl := List.mem_singleton.mp htask
    obtain ⟨rfl, rfl⟩ := oneOption_find hvalue
    constructor
    · decide +kernel
    · intro _
      rw [findOption_header]
      rfl

theorem stable_httpProxy : Options.Stable noNumerals (of "http-proxy") [] := by
  have hr := not_isRetired "http-proxy" (by simp)
  have hn : normalizeOption noNumerals (option "http-proxy" .text "" taskGlobal) [] = .ok [] := rfl
  exact Options.stable_of_stored (Options.not_mapped (by decide)) hr
    findOption_httpProxy (by decide) hn

/-- A task that turns the global proxy off by an empty value has it again. -/
theorem empty_option_is_lost : ¬ RoundTrip [(∅ : OrdMap Text Text).insert (Text.of "http-proxy")
        (Text.of "p:1")]
      [oneOption (Text.of "http-proxy") [] (canonical_empty.put findOption_httpProxy
          (fun _ _ => stable_httpProxy))] := by
  intro htrip
  rw [RoundTrip, parseSession_serializeSession oneOption_uris (by decide +kernel)] at htrip
  have hrestored := (List.forall₂_cons.mp htrip).1
  rw [restored_iff _ _ (by
    intro name value hvalue
    obtain ⟨rfl, rfl⟩ := oneOption_find hvalue
    exact ⟨by decide +kernel, by simp⟩)] at hrestored
  have hkept := hrestored (of "http-proxy") [] (find?_insert_self _ _ _) (by decide +kernel)
  exact absurd hkept (by decide +kernel)

end Aria2Next
