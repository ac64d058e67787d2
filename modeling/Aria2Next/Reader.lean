/-
Readers of a list of symbols.  A reader takes a value off the front of its
input or fails; `Reads` says that a reader gives back what was written, and
the rules below take it apart along a program.
-/
import Mathlib.Data.List.Basic

/-- Takes a value off the front of the input, or fails. -/
abbrev Reader (E A : Type) := StateT (List E) Option A

namespace Reader

variable {E A B : Type}

/-- The next symbol. -/
def next : Reader E E
  | [] => none
  | symbol :: rest => some (symbol, rest)

/-- The next `count` symbols. -/
def take (count : Nat) : Reader E (List E) := fun input =>
  if count ≤ input.length then some (input.take count, input.drop count)
  else none

/-- The same reader `count` times. -/
def times (reader : Reader E A) : Nat → Reader E (List A)
  | 0 => pure []
  | count + 1 => do
      let first ← reader
      let rest ← times reader count
      pure (first :: rest)

/-- The symbols a reader passes over. -/
def raw (reader : Reader E A) : Reader E (List E) := fun input =>
  (reader input).map fun result =>
    (input.take (input.length - result.2.length), result.2)

/-- A reader that must use its whole input. -/
def whole (reader : Reader E A) (input : List E) : Option A :=
  match reader input with
  | some (value, []) => some value
  | _ => none

/-- The reader takes `written` off the front of any input and answers
`value`. -/
def Reads (reader : Reader E A) (written : List E) (value : A) : Prop :=
  ∀ rest, reader (written ++ rest) = some (value, rest)

theorem reads_pure (v : A) : Reads (pure v : Reader E A) [] v := fun _ => rfl

variable {r : Reader E A} {f : A → Reader E B} {b : B} {c : Nat} {written w i rest rs : List E}
  {v : A}

theorem Reads.bind {first l : List E} {a : A} (hf : Reads r first a) (hl : Reads (f a) l b) :
    Reads (r >>= f) (first ++ l) b := by
  intro rs
  have hr := hf (l ++ rs)
  have he := hl rs
  rw [List.append_assoc]
  change ((r (first ++ (l ++ rs))).bind fun re =>
    f re.1 re.2) = some (b, rs)
  rw [hr]
  exact he

theorem reads_next (s : E) : Reads next [s] s := fun _ => rfl

theorem reads_take (w : List E) (hc : w.length = c) : Reads (take c) w w := by
  intro rs
  rw [take, if_pos (by rw [List.length_append]; omega), List.take_left' hc, List.drop_left' hc]

theorem reads_times {w : B → List E} {back : B → A} (vs : List B)
    (hr : ∀ v ∈ vs, Reads r (w v) (back v)) :
    Reads (times r vs.length) (vs.flatMap w) (vs.map back) := by
  induction vs with
  | nil => exact reads_pure []
  | cons v vs ih =>
    obtain ⟨hva, hv⟩ := List.forall_mem_cons.mp hr
    have hl : Reads (times r vs.length >>= fun rs => pure (back v :: rs))
        (vs.flatMap w ++ []) (back v :: vs.map back) :=
      (ih hv).bind (reads_pure _)
    rw [List.append_nil] at hl
    exact hva.bind hl

theorem Reads.raw (hr : Reads r w v) : Reads (raw r) w w := by
  intro rs
  rw [Reader.raw, hr rs, Option.map_some, List.length_append,
    Nat.add_sub_cancel, List.take_left' rfl]

theorem Reads.whole (hr : Reads r w v) : whole r w = some v := by
  have ha := hr []
  rw [List.append_nil] at ha
  rw [Reader.whole, ha]

/-- Parts written one after another, up to the first that cannot be. -/
def concat {W : Type} : List (Except W (List E)) → Except W (List E)
  | [] => .ok []
  | part :: parts => do
      let first ← part
      let rest ← concat parts
      pure (first ++ rest)

theorem concat_ok {W : Type} {wr : B → Except W (List E)} {w : B → List E} {vs : List B}
    (hw : ∀ v ∈ vs, wr v = .ok (w v)) : concat (vs.map wr) = .ok (vs.flatMap w) := by
  induction vs with
  | nil => rfl
  | cons v vs ih =>
    obtain ⟨hva, hv⟩ := List.forall_mem_cons.mp hw
    rw [List.map_cons, concat, hva, ih hv]
    rfl

/-- The writing succeeds, and the reader takes it back. -/
def Wrote {W : Type} (write : Except W (List E)) (reader : Reader E A) (value : A) : Prop :=
  ∃ written, write = .ok written ∧ Reads reader written value

section Wrote

variable {W : Type} {r : Reader E A}

variable {v a : A} {part : Except W (List E)} {f : A → Reader E B} {b : B}

theorem Reads.wrote {w : List E} (hr : Reads r w v) : Wrote (.ok w : Except W (List E)) r v :=
  ⟨w, rfl, hr⟩

theorem wrote_nil (v : A) : Wrote (concat [] : Except W (List E)) (pure v : Reader E A) v :=
  (reads_pure v).wrote

theorem Wrote.cons {ps : List (Except W (List E))} (hf : Wrote part r a)
    (hr : Wrote (concat ps) (f a) b) : Wrote (concat (part :: ps)) (r >>= f) b := by
  obtain ⟨first, rfl, hf⟩ := hf
  obtain ⟨rs, hp, hr⟩ := hr
  refine ⟨first ++ rs, ?_, hf.bind hr⟩
  rw [concat, hp]
  rfl

theorem wrote_one (hp : Wrote part r v) : Wrote (concat [part]) r v := by
  obtain ⟨w, rfl, hr⟩ := hp
  refine ⟨w, ?_, hr⟩
  change Except.ok (w ++ []) = Except.ok w
  rw [List.append_nil]

/-- A prefix of the parts is for a reader of its own. -/
theorem Wrote.append {first rs : List (Except W (List E))} (hf : Wrote (concat first) r a)
    (hre : Wrote (concat rs) (f a) b) : Wrote (concat (first ++ rs)) (r >>= f) b := by
  obtain ⟨w, hp, hr⟩ := hf
  obtain ⟨last, hl, he⟩ := hre
  refine ⟨w ++ last, ?_, hr.bind he⟩
  clear hr
  induction first generalizing w with
  | nil =>
    cases hp
    exact hl
  | cons part ps ih =>
    cases part with
    | error error => cases hp
    | ok bytes =>
      cases hc : concat ps with
      | error error =>
        rw [concat, hc] at hp
        cases hp
      | ok o =>
        rw [concat, hc] at hp
        cases hp
        rw [List.cons_append, concat, ih o hc]
        exact congrArg Except.ok (List.append_assoc ..).symm

theorem wrote_times {w : B → Except W (List E)} {back : B → A} (vs : List B)
    (hw : ∀ v ∈ vs, Wrote (w v) r (back v)) :
    Wrote (concat (vs.map w)) (times r vs.length) (vs.map back) := by
  induction vs with
  | nil => exact wrote_nil []
  | cons v vs ih =>
    obtain ⟨hva, hv⟩ := List.forall_mem_cons.mp hw
    obtain ⟨rs, hp, hr⟩ := ih hv
    refine hva.cons ⟨rs, hp, ?_⟩
    have hl := hr.bind (f := fun o => pure (back v :: o)) (reads_pure _)
    rwa [List.append_nil] at hl

end Wrote

/-- What a reader takes is a part of its input. -/
theorem whole_eq_some (hw : whole r i = some v) : r i = some (v, []) := by
  rw [whole] at hw
  split at hw
  · next hr =>
    cases hw
    exact hr
  · cases hw

theorem take_eq_some {t : List E} (ht : take c i = some (t, rs)) : t.length = c ∧ i = t ++ rs := by
  rw [take] at ht
  split_ifs at ht with hc
  obtain ⟨rfl, rfl⟩ := ht
  exact ⟨List.length_take_of_le hc, (List.take_append_drop _ _).symm⟩

theorem bind_eq_some (hb : (r >>= f) i = some (b, rs)) :
    ∃ a middle, r i = some (a, middle) ∧ f a middle = some (b, rs) := by
  change ((r i).bind fun re => f re.1 re.2) = some (b, rs) at hb
  obtain ⟨⟨a, middle⟩, hf, hl⟩ := Option.bind_eq_some_iff.mp hb
  exact ⟨a, middle, hf, hl⟩

/-- What holds of every value a reader gives holds of all it gives in
turn. -/
theorem times_forall {p : A → Prop} (hr : ∀ i v rs, r i = some (v, rs) → p v) {vs : List A}
    (ht : times r c i = some (vs, rs)) : vs.length = c ∧ ∀ v ∈ vs, p v := by
  induction c generalizing i vs with
  | zero =>
    cases ht
    simp
  | succ c ih =>
    obtain ⟨first, middle, hf, ht⟩ := bind_eq_some ht
    obtain ⟨o, last, ho, he⟩ := bind_eq_some ht
    cases he
    obtain ⟨hl, ha⟩ := ih ho
    refine ⟨by rw [List.length_cons, hl], ?_⟩
    intro v hv
    rcases List.mem_cons.mp hv with rfl | hre
    · exact hr i v middle hf
    · exact ha v hre

end Reader
