/-
Runs of a step function under a condition on each step.  An event carries
whatever the environment decides (an answer, a time, a completion), so a
nondeterministic system is a deterministic step over all event lists.
-/
import Mathlib.Data.List.Basic

namespace Runs

universe u v

variable {S : Type u} {E : Type v}

/-- The state a list of events leads to. -/
def run (step : S → E → S) (state : S) (events : List E) : S := events.foldl step state

@[simp] theorem run_cons (st : S → E → S) (s : S) (e : E) (ev : List E) :
    run st s (e :: ev) = run st (st s e) ev :=
  rfl

theorem run_append (st : S → E → S) (s : S) (first l : List E) :
    run st s (first ++ l) = run st (run st s first) l :=
  List.foldl_append

/-- Every event of the run meets `cond` in the state it is taken from. -/
def Meets (step : S → E → S) (cond : S → E → Prop) : S → List E → Prop
  | _, [] => True
  | state, event :: events =>
    cond state event ∧ Meets step cond (step state event) events

instance decidableMeets (step : S → E → S) (cond : S → E → Prop)
    [∀ state event, Decidable (cond state event)] :
    ∀ state events, Decidable (Meets step cond state events)
  | _, [] => isTrue trivial
  | state, event :: events =>
    have := decidableMeets step cond (step state event) events
    inferInstanceAs (Decidable (_ ∧ _))

/-- A condition on the events alone, met by each of them. -/
theorem meets_of_forall {st : S → E → S} {c : E → Prop} {s : S} {ev : List E} (ha : ∀ e ∈ ev, c e) :
    Meets st (fun _ e => c e) s ev := by
  induction ev generalizing s with
  | nil => trivial
  | cons e ev ih =>
    obtain ⟨he, hr⟩ := List.forall_mem_cons.mp ha
    exact ⟨he, ih hr⟩

/-- The invariant rule: what every permitted step preserves holds at the end
of every run whose steps are all permitted. -/
theorem run_invariant {st : S → E → S} {c : S → E → Prop} {inv : S → Prop}
    (hs : ∀ s e, inv s → c s e → inv (st s e)) {s : S} {ev : List E} (hi : inv s)
    (hm : Meets st c s ev) : inv (run st s ev) := by
  induction ev generalizing s with
  | nil => exact hi
  | cons e ev ih =>
    exact ih (hs s e hi hm.1) hm.2

/-- The unconditional form, for an invariant every step preserves. -/
theorem run_preserves {st : S → E → S} {inv : S → Prop} (hs : ∀ s e, inv s → inv (st s e)) {s : S}
    (ev : List E) (hi : inv s) : inv (run st s ev) := by
  induction ev generalizing s with
  | nil => exact hi
  | cons e ev ih => exact ih (hs s e hi)

end Runs
