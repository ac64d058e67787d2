/-
The tries of a download from one source.  A failure is counted on a slot and
the task fails once no slot has tries left; `launch` uses only the slots below
the connection target.  The two agree exactly while a slot with tries left
implies one below the target.
-/
import Aria2Next.HttpSteps

namespace Aria2Next

universe u

variable {F : Type u} [Double F]

namespace HttpTask

/-- The number of slots `launch` uses without a limit of the host pool. -/
def fullTarget (task : HttpTask F) : Nat := (task.connectionTarget 256).toNat

/-- The failures of a slot; one that is not there yet has none. -/
def failuresAt (task : HttpTask F) (index : Nat) : Int := (task.slots.getD index freshSlot).failures

theorem fullTarget_pos (t : HttpTask F) : 0 < t.fullTarget := by
  have ho : 1 ≤ t.connectionTarget 256 := by
    rw [connectionTarget]
    split_ifs
    · exact le_rfl
    · rw [clampInt]
      split_ifs <;> omega
  rw [fullTarget]
  omega

/-- A limit of the host pool only lowers the target. -/
theorem connectionTarget_le_full (t : HttpTask F) (a : Int) :
    (t.connectionTarget a).toNat ≤ t.fullTarget := by
  apply Int.toNat_le_toNat
  rw [connectionTarget, connectionTarget]
  split_ifs
  · exact le_rfl
  · rw [clampInt, clampInt]
    split_ifs <;> omega

theorem exists_failuresAt_iff (t : HttpTask F) (b : Int) :
    (∃ s ∈ t.slots, s.failures < b) ↔ ∃ i < t.slots.length, t.failuresAt i < b := by
  constructor
  · rintro ⟨s, hs, hl⟩
    obtain ⟨i, hi, rfl⟩ := List.getElem_of_mem hs
    refine ⟨i, hi, ?_⟩
    rw [failuresAt, List.getD_eq_getElem _ _ hi]
    exact hl
  · rintro ⟨i, hi, hl⟩
    rw [failuresAt, List.getD_eq_getElem _ _ hi] at hl
    exact ⟨_, List.getElem_mem hi, hl⟩

/-- When a failure ends a download from one source. -/
theorem outOfTries_iff (t : HttpTask F) (hs : t.sources.length = 1) :
    t.outOfTries = true ↔ t.workers = ∅ ∧
      (t.phase = .probing ∧ t.options.maxTries ≤ t.failuresAt 0 ∨ t.phase ≠ .probing ∧
          ¬ ∃ i < t.slots.length, t.failuresAt i < t.options.maxTries) := by
  have he : t.workers.entries.isEmpty = true ↔ t.workers = ∅ := by
    rw [List.isEmpty_iff]
    exact ⟨OrdMap.eq_empty_of_entries, fun h => by rw [h]; rfl⟩
  have ha : t.slots.all t.exhausted = true ↔ ¬ ∃ i < t.slots.length,
        t.failuresAt i < t.options.maxTries := by
    rw [← exists_failuresAt_iff]
    simp [exhausted]
  rw [outOfTries, if_neg (by omega), Bool.and_eq_true, he]
  refine and_congr_right fun _ => ?_
  by_cases hp : t.phase = .probing
  · simp [hp, exhausted, failuresAt]
  · simp only [hp, if_false, ha, false_and, false_or, ne_eq, not_false_eq_true, true_and]

/-- Nothing runs and no slot that `launch` may use has tries left. -/
structure Stranded (task : HttpTask F) : Prop where
  source : task.sources.length = 1
  limited : 0 < task.options.maxTries
  phase : task.phase = .running
  workers : task.workers = ∅
  spent : ∀ index < task.fullTarget, task.options.maxTries ≤ task.failuresAt index

theorem Stranded.launchSlots {t : HttpTask F} (hs : t.Stranded) (f : Facts F) {s : List Nat}
    (hsl : ∀ sl ∈ s, sl < t.fullTarget) : launchSlots f s t = t := by
  induction s with
  | nil => rfl
  | cons sl r ih =>
    obtain ⟨hslo, hr⟩ := List.forall_mem_cons.mp hsl
    have hsp : t.spent (t.slots.getD sl freshSlot) = true := by
      simp [HttpTask.spent, exhausted, hs.limited, hs.source]
      exact hs.spent sl hslo
    rw [HttpTask.launchSlots]
    dsimp only
    rw [hsp, Bool.or_true, if_pos rfl]
    exact ih hr

/-- Every slot below the target is there. -/
theorem Stranded.fullTarget_le {t : HttpTask F} (hs : t.Stranded) :
    t.fullTarget ≤ t.slots.length := by
  by_contra hle
  have hsp := hs.spent t.slots.length (by omega)
  have hl := hs.limited
  simp [failuresAt, freshSlot] at hsp
  omega

/-- No launch changes a stranded download. -/
theorem Stranded.launch {t : HttpTask F} (hs : t.Stranded) (f : Facts F) : t.launch f = t := by
  have hr := hs.phase
  rw [HttpTask.launch]
  split_ifs with hph hc hpo hp
  · rfl
  · rfl
  · rfl
  · cases hr.symm.trans hp
  · have hl := t.connectionTarget_le_full (t.allowedConnections f)
    have hw : t.widenSlots (t.connectionTarget (t.allowedConnections f)).toNat = t := by
      rw [widenSlots, if_neg (by have := hs.fullTarget_le; omega)]
    dsimp only
    rw [hw]
    apply hs.launchSlots
    intro s hsl
    exact (List.mem_range.mp hsl).trans_le hl

section Failure

variable (task t : HttpTask F) (facts : Facts F) (slot s : Nat) (code : Failure)
  (message : String) (wait : Int)

/-- The failures of a slot once this one is counted. -/
def failuresWith (index : Nat) : Int :=
  task.failuresAt index + if index = task.failedSlot slot then 1 else 0

theorem countFailure_failuresAt (hs : t.failedSlot s < t.slots.length) (i : Nat) :
    (t.countFailure facts s code message wait).failuresAt i = t.failuresWith s i := by
  rw [failuresWith, failuresAt, failuresAt, countFailure]
  rw [List.getD_eq_getElem?_getD, List.getD_eq_getElem?_getD, List.getElem?_modify]
  by_cases hi : i = t.failedSlot s
  · rw [hi, List.getElem?_eq_getElem hs]
    simp
  · simp [hi, Ne.symm hi]

end Failure

end HttpTask

end Aria2Next
