/-
Every claim lies inside one part: a block is cut from a gap of its part.  Data
of a client therefore never crosses the border of a part.
-/
import Aria2Next.Ed2kParts
import Aria2Next.Ed2kSwarm

namespace Aria2Next

universe u

variable {O : Type u}

/-- Every claim lies inside one part of a file of this size. -/
def Seated (size : Int) (claims : List (Claim O)) : Prop :=
  ∀ claim ∈ claims, ∃ index : Nat, index * pieceLength ≤ claim.begin ∧
    claim.stop ≤ min (index * pieceLength + pieceLength) size

theorem Seated.of_sublist {s : Int} {cs k : List (Claim O)} (hs : Seated s cs)
    (hk : k.Sublist cs) : Seated s k := fun c hc => hs c (hk.subset hc)

namespace Parts

theorem sweep_within (b : Claim O → Bool) (cs : List (Claim O)) (be s : Int) :
    be ≤ (sweep b be s cs).2.1 ∧ (sweep b be s cs).2.2 ≤ s := by
  induction cs generalizing s with
  | nil => exact ⟨le_refl be, le_refl s⟩
  | cons c r ih =>
    simp only [sweep]
    split
    · exact ih s
    · rename_i hb
      split
      · exact ⟨by dsimp only; omega, le_refl s⟩
      · obtain ⟨hl, hh⟩ := ih c.begin
        exact ⟨hl, by omega⟩

theorem stretch_within (b : Claim O → Bool) (cs : List (Claim O)) (p : Nat) (r : Range) :
    r.1 ≤ (stretch b cs p r).1 ∧ (stretch b cs p r).2 ≤ r.2 := by
  induction p generalizing r with
  | zero => exact ⟨le_refl _, le_refl _⟩
  | succ p ih =>
    obtain ⟨be, s⟩ := r
    simp only [stretch]
    split
    · obtain ⟨hl, hh⟩ := sweep_within b cs be s
      split
      · rename_i next he
        rw [he] at hl hh
        obtain ⟨hl', hh'⟩ := ih next
        exact ⟨hl.trans hl', hh'.trans hh⟩
      · rename_i next he
        rw [he] at hl hh
        exact ⟨hl, hh⟩
    · exact ⟨le_refl _, le_refl _⟩

theorem mem_emplace {c o : Claim O} {cs : List (Claim O)} : o ∈ emplace c cs ↔ o = c ∨ o ∈ cs := by
  induction cs with
  | nil => simp [emplace]
  | cons head t ih =>
    simp only [emplace]
    split
    · rw [List.mem_cons]
    · rw [List.mem_cons, ih, List.mem_cons]
      exact or_left_comm

variable [DecidableEq O]

theorem claimLoop_seated (ps : Parts) (o : O) (i wanted : Nat) (e : Bool) (now : Int) (r : Nat)
    (s : Int) (cs : List (Claim O)) (out : List Range) (hst : (ps.part i).1 ≤ s)
    (hs : Seated ps.size cs) : Seated ps.size (ps.claimLoop o i wanted e now r s cs out).1 := by
  induction r generalizing s cs out with
  | zero => exact hs
  | succ r ih =>
    simp only [claimLoop]
    split
    · exact hs
    split
    · exact hs
    · rename_i gap hg
      have hf := RangeSet.firstGap_some hg
      have hfr := stretch_within (fun c => c.owner = o ||
        !e || now - c.since < duplicateAfter) cs
        (cs.length + 1) gap
      have hl := hf.start_le
      have hh := hf.le_limit
      split
      · exact ih gap.2 cs out (by have := hf.nonempty; omega) hs
      · rename_i hn
        apply ih
        · dsimp only [grid, part, blockLength] at hst hl hfr hn ⊢
          omega
        · intro c hc
          rcases mem_emplace.mp hc with rfl | hc
          · refine ⟨i, ?_, ?_⟩
            · exact hst.trans (hl.trans hfr.1)
            · exact (min_le_left _ _).trans (hfr.2.trans hh)
          · exact hs c hc

theorem claimPass_seated (ps : Parts) (o : O) (w : Nat) (e : Bool) (now : Int) (order : List Nat)
    (cs : List (Claim O)) (hs : Seated ps.size cs) :
    Seated ps.size (ps.claimPass o w e now order cs).1 := by
  rw [claimPass]
  generalize ([] : List Range) = out
  induction order generalizing cs out with
  | nil => exact hs
  | cons i order ih =>
    rw [List.foldl_cons]
    dsimp only
    split
    · exact ih cs hs out
    · have hc : Seated ps.size (ps.claimGaps o i w e now cs out).1 :=
        claimLoop_seated ps o i w e now _ _ _ out (le_refl _) hs
      exact ih _ hc _

theorem claim_seated (ps : Parts) (cs : List (Claim O)) (o : O) (a : List Bool) (w : Nat)
    (ask : Ask) (hs : Seated ps.size cs) : Seated ps.size (ps.claim cs o a w ask).1 := by
  have hf := claimPass_seated ps o w false ask.now (ps.candidates cs o a ask) cs hs
  rw [claim]
  split
  · exact claimPass_seated ps o w true ask.now _ _ hf
  · exact hf

/-- Claimed data lies inside one part. -/
theorem claimed_within {cs : List (Claim O)} {si : Int} (hs : Seated si cs) {o : O} {b s : Int}
    (hc : claimed cs o b s = true) :
    ∃ i : Nat, i * pieceLength ≤ b ∧ s ≤ min (i * pieceLength + pieceLength) si := by
  rw [claimed, List.any_eq_true] at hc
  obtain ⟨c, hcl, hh⟩ := hc
  simp only [Bool.and_eq_true, decide_eq_true_eq] at hh
  obtain ⟨i, hl, hhi⟩ := hs c hcl
  exact ⟨i, hl.trans hh.1.2, hh.2.trans hhi⟩

end Parts

namespace Swarm

variable [DecidableEq O]

theorem stopDownloading_seated (s : Swarm O) (o : O) {si : Int} (hs : Seated si s.claims) :
    Seated si (s.stopDownloading o).claims := hs.of_sublist List.filter_sublist

variable (s : Swarm O) (pr : Parts) (o : O)

theorem requestBlocks_seated (ask : Parts.Ask) (hs : Seated pr.size s.claims) :
    Seated pr.size (s.requestBlocks pr o ask).claims := by
  have hc := Parts.claim_seated pr s.claims o (s.clients o).partStatus
    (blocksAhead - (s.clients o).blocks.length) ask hs
  simp only [requestBlocks]
  split
  · exact hs
  split
  · split
    · exact stopDownloading_seated s o hs
    · exact hs
  · exact hc

theorem accept_seated (p : List Bool) (ask : Parts.Ask) (hs : Seated pr.size s.claims) :
    Seated pr.size (s.accept pr o p ask).claims := requestBlocks_seated _ pr o ask hs

theorem noteReceived_seated (b st : Int) (ask : Parts.Ask) (hs : Seated pr.size s.claims) :
    Seated pr.size (s.noteReceived pr o b st ask).claims := by
  simp only [noteReceived]
  split
  · exact hs
  · split
    · apply requestBlocks_seated
      exact hs.of_sublist List.eraseP_sublist
    · exact hs

end Swarm

end Aria2Next
