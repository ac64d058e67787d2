/-
`ed2k/Store`, the rows of a download, and `Ed2kTask::checkpoint`, which fills
them: the parts as a bitfield, and for every part not verified the blocks of
16 KiB that are there.  Reading them back merges the blocks into ranges, and
these ranges cross the borders of parts.
-/
import Aria2Next.Ed2kTask

namespace Aria2Next

open List

universe u

namespace Ed2kStore

/-- Progress inside a part not verified is stored in blocks of this size. -/
def blockSize : Int := 16384

/-- The mask of bit `index`: the most significant bit of a byte comes first. -/
def mask (index : Nat) : UInt8 := 0x80 >>> (UInt8.ofNat (index % 8))

/-- One round of `packBits`. -/
def packBit (out : List UInt8) (entry : Bool × Nat) : List UInt8 :=
  if entry.1 then out.modify (entry.2 / 8) (· ||| mask entry.2) else out

def packBits (bits : List Bool) : List UInt8 :=
  bits.zipIdx.foldl packBit (List.replicate ((bits.length + 7) / 8) 0)

/-- Bit `index` of packed bytes; what is not there is not set. -/
def bitAt (data : List UInt8) (index : Nat) : Bool :=
  (data[index / 8]?).any fun byte => byte &&& mask index ≠ 0

def unpackBits (data : List UInt8) (count : Nat) : List Bool := (List.range count).map (bitAt data)

/-- Whether one of the ranges holds `[begin, stop)`. -/
def covered (ranges : List Range) (begin stop : Int) : Bool :=
  ranges.any fun range => range.1 ≤ begin ∧ stop ≤ range.2

/-- A row of `download_pieces`. -/
structure PieceRow where
  index : Nat
  length : Int
  bitfield : List UInt8
deriving DecidableEq, Repr

/-- A row of `downloads` with its pieces. -/
structure DownloadRow (D : Type u) where
  fileHash : D
  size : Int
  /-- What parsing the stored link gives: its hash and part hashes. -/
  link : Option (D × List D)
  path : String
  modified : Int
  bitfield : List UInt8
  pieces : List PieceRow

/-- The blocks of a part. -/
def blockCount (length : Int) : Nat := ((length + blockSize - 1) / blockSize).toNat

def blockBegin (begin : Int) (block : Nat) : Int := begin + block * blockSize

def blockEnd (begin length : Int) (block : Nat) : Int :=
  min (blockBegin begin block + blockSize) (begin + length)

/-- The row of a part that is not verified, when any block of it is there. -/
def pieceRow (size : Int) (received : List Range) (index : Nat) : Option PieceRow :=
  let begin := index * pieceLength
  let length := min pieceLength (size - begin)
  let blocks := (List.range (blockCount length)).map fun block =>
    covered received (blockBegin begin block) (blockEnd begin length block)
  if blocks.any id then some ⟨index, length, packBits blocks⟩ else none

variable {D : Type u}

def saveDownload (size : Int) (record : DownloadRecord D) : DownloadRow D :=
  { fileHash := record.fileHash
    size
    link := record.pieceHashes
    path := record.path
    modified := record.modified
    bitfield := packBits record.parts
    pieces := (List.range record.parts.length).filterMap fun index =>
      if record.parts.getD index false then none
      else pieceRow size record.received index }

/-- A block joins the range that ends where it begins. -/
def join (received : List Range) (first last : Int) : List Range :=
  match received.getLast? with
  | some back =>
    if back.2 = first then received.dropLast ++ [(back.1, last)]
    else received ++ [(first, last)]
  | none => [(first, last)]

/-- The blocks of a row, joined to what the rows before it gave. -/
def loadPiece (size : Int) (received : List Range) (row : PieceRow) : List Range :=
  let begin := row.index * pieceLength
  if begin ≥ size ∨ row.length ≤ 0 then received
  else
    (unpackBits row.bitfield (blockCount row.length)).zipIdx.foldl (fun received entry =>
        if entry.1 then
          join received (blockBegin begin entry.2) (blockEnd begin row.length entry.2)
        else received) received

def loadDownload (row : DownloadRow D) : DownloadRecord D :=
  { fileHash := row.fileHash
    path := row.path
    modified := row.modified
    parts := unpackBits row.bitfield
      ((row.size + pieceLength - 1) / pieceLength).toNat
    received := row.pieces.foldl (loadPiece row.size) []
    pieceHashes := row.link }

theorem mask_and_mask : ∀ left < 8, ∀ right < 8, (mask left &&& mask right = 0 ↔ left ≠ right) := by
  decide

theorem mask_mod (i : Nat) : mask (i % 8) = mask i := by
  rw [mask, Nat.mod_mod, mask]

theorem or_mask_and_mask (b : UInt8) (left right : Nat) :
    (b ||| mask left) &&& mask right ≠ 0 ↔ b &&& mask right ≠ 0 ∨ left % 8 = right % 8 := by
  have hm := mask_and_mask (left % 8) (Nat.mod_lt _ (by decide)) (right % 8)
    (Nat.mod_lt _ (by decide))
  rw [mask_mod, mask_mod] at hm
  have hdi : (b ||| mask left) &&& mask right =
      b &&& mask right ||| mask left &&& mask right := by
    apply UInt8.toBitVec_inj.mp
    exact BitVec.and_or_distrib_right
  rw [hdi, ne_eq, UInt8.or_eq_zero_iff, not_and_or, hm, not_not]

variable {i : Nat} {received rc : List Range} {row : DownloadRow D} {size s : Int}

theorem bitAt_modify {d : List UInt8} (o : Nat) (hi : i / 8 < d.length) :
    bitAt (d.modify (i / 8) (· ||| mask i)) o = (bitAt d o || i == o) := by
  by_cases hb : i / 8 = o / 8
  · have hg := List.getElem?_eq_getElem hi
    rw [bitAt, bitAt, ← hb, List.getElem?_modify_eq, hg, Option.map_eq_map,
      Option.map_some, Option.any_some, Option.any_some, Bool.eq_iff_iff,
      decide_eq_true_eq, or_mask_and_mask, Bool.or_eq_true, decide_eq_true_eq, beq_iff_eq]
    apply or_congr_right
    omega
  · rw [bitAt, bitAt, List.getElem?_modify_ne _ _ hb]
    have hn : i ≠ o := fun he => hb (congrArg (· / 8) he)
    simp [hn]

theorem packBit_length (out : List UInt8) (e : Bool × Nat) :
    (packBit out e).length = out.length := by
  rw [packBit]
  split
  · exact length_modify ..
  · rfl

theorem foldl_packBit (es : List (Bool × Nat)) (out : List UInt8)
    (hin : ∀ e ∈ es, e.2 / 8 < out.length) (o : Nat) :
    bitAt (es.foldl packBit out) o = (bitAt out o || es.any fun e => e.1 && e.2 == o) := by
  induction es generalizing out with
  | nil => simp
  | cons e es ih =>
    obtain ⟨he, hin⟩ := forall_mem_cons.mp hin
    rw [foldl_cons, ih _ (by rwa [packBit_length]), any_cons, ← Bool.or_assoc]
    congr 1
    rw [packBit]
    split_ifs with hb
    · rw [bitAt_modify o he, hb, Bool.true_and]
    · simp [hb]

/-- Bits written to places of their own byte, no two to one place. -/
theorem bitAt_placed (bi : List Bool) {p : Nat → Nat} (hp : p.Injective)
    (h8 : ∀ i, p i / 8 = i / 8) (i : Nat) :
    bitAt ((bi.zipIdx.map fun e => (e.1, p e.2)).foldl packBit
      (List.replicate ((bi.length + 7) / 8) 0)) (p i) = bi.getD i false := by
  rw [foldl_packBit]
  · have hz : bitAt (List.replicate ((bi.length + 7) / 8) 0) (p i) = false := by
      simp [bitAt, List.getElem?_replicate]
      split <;> simp
    rw [hz, Bool.false_or, Bool.eq_iff_iff, any_eq_true, getD_eq_getElem?_getD]
    constructor
    · rintro ⟨e, hm, he⟩
      obtain ⟨⟨b, k⟩, hk, rfl⟩ := mem_map.mp hm
      rw [Bool.and_eq_true, beq_iff_eq] at he
      obtain rfl := hp he.2
      rw [mem_zipIdx_iff_getElem?.mp hk]
      exact he.1
    · intro hb
      obtain ⟨b, hg⟩ : ∃ b, bi[i]? = some b := by
        cases hg : bi[i]? with
        | none => simp [hg] at hb
        | some b => exact ⟨b, rfl⟩
      rw [hg, Option.getD_some] at hb
      have hm : (b, i) ∈ bi.zipIdx := mem_zipIdx_iff_getElem?.mpr hg
      exact ⟨_, mem_map_of_mem hm, by simp [hb]⟩
  · intro e he
    obtain ⟨⟨b, k⟩, hk, rfl⟩ := mem_map.mp he
    have hl := (mem_zipIdx hk).2.1
    rw [length_replicate, h8]
    omega

theorem bitAt_packBits (b : List Bool) (i : Nat) : bitAt (packBits b) i = b.getD i false := by
  have hb := bitAt_placed b Function.injective_id (fun _ => rfl) i
  simpa [packBits] using hb

/-- The bitfield is read back as it was written. -/
theorem unpackBits_packBits (b : List Bool) : unpackBits (packBits b) b.length = b := by
  apply ext_getElem
  · simp [unpackBits]
  · intro i hl hr
    simp [unpackBits, bitAt_packBits, hr]

theorem blockBegin_lt_blockEnd (be : Int) {l : Int} {b : Nat} (hb : b < blockCount l) :
    blockBegin be b < blockEnd be l b := by
  simp only [blockCount, blockBegin, blockEnd, blockSize] at hb ⊢
  omega

theorem blockEnd_le (be l : Int) (b : Nat) :
    blockEnd be l b ≤ blockBegin be (b + 1) ∧ blockEnd be l b ≤ be + l := by
  simp only [blockBegin, blockEnd, blockSize]
  omega

/-- What `join` gives, when the block lies behind everything read so far. -/
theorem join_spec (hse : Ranges.Separated rc) {first last : Int} (he : ∀ r ∈ rc, r.2 ≤ first)
    (hlt : first < last) :
    Ranges.Separated (join rc first last) ∧ (∀ r ∈ join rc first last, r.2 ≤ last) ∧
      ∀ x, x ∈ Ranges.offsets (join rc first last) ↔
        x ∈ Ranges.offsets rc ∨ (first ≤ x ∧ x < last) := by
  rcases hb : rc.getLast? with _ | back
  · rw [List.getLast?_eq_none_iff] at hb
    subst hb
    simp [join, Ranges.separated_cons, hlt]
  · have ha := Ranges.append_of_getLast?_eq_some hb
    simp only [join, hb]
    generalize rc.dropLast = before at ha ⊢
    subst ha
    obtain ⟨hbe, hs, hc⟩ := Ranges.separated_append.mp hse
    have hp := (Ranges.separated_cons.mp hs).1
    split
    · rename_i hm
      refine ⟨?_, ?_, ?_⟩
      · rw [Ranges.separated_append]
        refine ⟨hbe, ?_, ?_⟩
        · rw [Ranges.separated_cons]
          exact ⟨by dsimp only; omega, by simp, Ranges.separated_nil⟩
        · intro left hl right hri
          rw [mem_singleton] at hri
          subst hri
          exact hc left hl back (mem_singleton_self back)
      · intro r hr
        rcases mem_append.mp hr with hr | hr
        · have := he r (mem_append_left _ hr)
          omega
        · rw [mem_singleton] at hr
          rw [hr]
      · intro x
        simp only [Ranges.mem_offsets_append, Ranges.mem_offsets_cons,
          Ranges.mem_offsets_nil, or_false]
        rw [or_assoc]
        apply or_congr_right
        omega
    · rename_i hg
      refine ⟨?_, ?_, ?_⟩
      · rw [Ranges.separated_append]
        refine ⟨hse, ?_, ?_⟩
        · rw [Ranges.separated_cons]
          exact ⟨hlt, by simp, Ranges.separated_nil⟩
        · intro left hl right hri
          rw [mem_singleton] at hri
          subst hri
          have hle := he left hl
          have hb := he back (mem_append_right _ (mem_singleton_self back))
          rcases mem_append.mp hl with hl | hl
          · have := hc left hl back (mem_singleton_self back)
            omega
          · rw [mem_singleton] at hl
            subst hl
            omega
      · intro r hr
        rcases mem_append.mp hr with hr | hr
        · have := he r hr
          omega
        · rw [mem_singleton] at hr
          rw [hr]
      · intro x
        simp only [Ranges.mem_offsets_append, Ranges.mem_offsets_cons,
          Ranges.mem_offsets_nil, or_false]

/-- Whether a block of a row is there. -/
def PieceRow.has (row : PieceRow) (block : Nat) : Bool := bitAt row.bitfield block

/-- All blocks of a part are stored: the part is there, and not verified. -/
def PieceRow.Full (row : PieceRow) : Prop := ∀ block < blockCount row.length, row.has block = true

instance (row : PieceRow) : Decidable row.Full :=
  inferInstanceAs (Decidable (∀ block < blockCount row.length, _))

/-- An offset lies in a stored block of a row. -/
def PieceRow.Holds (row : PieceRow) (offset : Int) : Prop :=
  ∃ block < blockCount row.length, row.has block = true ∧
    blockBegin (row.index * pieceLength) block ≤ offset ∧
    offset < blockEnd (row.index * pieceLength) row.length block

/-- The rounds of `loadPiece` up to a block. -/
def loadBlocks (received : List Range) (row : PieceRow) (count : Nat) : List Range :=
  (List.range count).foldl (fun received block =>
    if row.has block then
      join received (blockBegin (row.index * pieceLength) block)
        (blockEnd (row.index * pieceLength) row.length block)
    else received) received

theorem loadPiece_eq (s : Int) (rs : List Range) (row : PieceRow) :
    loadPiece s rs row = if row.index * pieceLength ≥ s ∨ row.length ≤ 0 then rs
      else loadBlocks rs row (blockCount row.length) := by
  have hz : (unpackBits row.bitfield (blockCount row.length)).zipIdx =
      (List.range (blockCount row.length)).map fun b => (row.has b, b) := by
    apply ext_getElem
    · simp [unpackBits]
    · intro b hl hr
      simp [unpackBits, PieceRow.has]
  rw [loadPiece, loadBlocks, hz, foldl_map]

theorem loadBlocks_spec (hse : Ranges.Separated rc) (row : PieceRow)
    (hen : ∀ r ∈ rc, r.2 ≤ row.index * pieceLength) (n : Nat) (hc : n ≤ blockCount row.length) :
    Ranges.Separated (loadBlocks rc row n) ∧ (∀ r ∈ loadBlocks rc row n,
        r.2 ≤ blockBegin (row.index * pieceLength) n ∧
        (r.2 ≤ row.index * pieceLength ∨ r.2 ≤ row.index * pieceLength + row.length)) ∧
      ∀ x, x ∈ Ranges.offsets (loadBlocks rc row n) ↔
        x ∈ Ranges.offsets rc ∨ ∃ b < n, row.has b = true ∧
          blockBegin (row.index * pieceLength) b ≤ x ∧
          x < blockEnd (row.index * pieceLength) row.length b := by
  induction n with
  | zero =>
    refine ⟨hse, ?_, ?_⟩
    · intro r hr
      have := hen r hr
      simp only [blockBegin]
      exact ⟨by omega, .inl this⟩
    · simp [loadBlocks]
  | succ n ih =>
    obtain ⟨hs', he', hme⟩ := ih (by omega)
    have hro : loadBlocks rc row (n + 1) = if row.has n then
          join (loadBlocks rc row n) (blockBegin (row.index * pieceLength) n)
            (blockEnd (row.index * pieceLength) row.length n)
        else loadBlocks rc row n := by
      simp only [loadBlocks, range_succ, foldl_append, foldl_cons, foldl_nil]
    have hla : blockBegin (row.index * pieceLength) n ≤
        blockBegin (row.index * pieceLength) (n + 1) := by
      simp only [blockBegin, blockSize]
      omega
    rw [hro]
    split
    · rename_i hh
      obtain ⟨hend, hl⟩ := blockEnd_le (row.index * pieceLength) row.length n
      obtain ⟨hs, he, hm⟩ := join_spec hs' (fun r hr => (he' r hr).1)
        (blockBegin_lt_blockEnd (row.index * pieceLength) hc)
      refine ⟨hs, ?_, ?_⟩
      · intro r hr
        have := he r hr
        exact ⟨this.trans hend, .inr (this.trans hl)⟩
      · intro x
        rw [hm, hme, or_assoc]
        apply or_congr_right
        constructor
        · rintro (⟨b, hlt, hb⟩ | hb)
          · exact ⟨b, by omega, hb⟩
          · exact ⟨n, by omega, hh, hb⟩
        · rintro ⟨b, hlt, hb⟩
          by_cases heq : b = n
          · subst heq
            exact .inr hb.2
          · exact .inl ⟨b, by omega, hb⟩
    · rename_i hmi
      refine ⟨hs', ?_, ?_⟩
      · intro r hr
        obtain ⟨hle, hl⟩ := he' r hr
        exact ⟨hle.trans hla, hl⟩
      · intro x
        rw [hme]
        apply or_congr_right
        constructor
        · rintro ⟨b, hlt, hb⟩
          exact ⟨b, by omega, hb⟩
        · rintro ⟨b, hlt, hb⟩
          by_cases heq : b = n
          · subst heq
            exact absurd hb.1 hmi
          · exact ⟨b, by omega, hb⟩

/-- Rows of a file of this size, in the order they are read. -/
def Ordered (size : Int) (pieces : List PieceRow) : Prop :=
  pieces.Pairwise (fun left right => left.index < right.index) ∧
    ∀ row ∈ pieces, row.length ≤ pieceLength ∧ row.index * pieceLength + row.length ≤ size

/-- What reading the rows gives. -/
theorem loadPieces_spec (s : Int) (ps : List PieceRow) (hor : Ordered s ps)
    (hs : Ranges.Separated rc) (he : ∀ row ∈ ps, ∀ r ∈ rc, r.2 ≤ row.index * pieceLength) :
    Ranges.Separated (ps.foldl (loadPiece s) rc) ∧ ∀ x,
        x ∈ Ranges.offsets (ps.foldl (loadPiece s) rc) →
        x ∈ Ranges.offsets rc ∨ ∃ row ∈ ps, row.Holds x := by
  induction ps generalizing rc with
  | nil => exact ⟨hs, fun x hof => .inl hof⟩
  | cons row re ih =>
    obtain ⟨hso, hl⟩ := hor
    obtain ⟨hf, hre⟩ := pairwise_cons.mp hso
    have ho' : Ordered s re := ⟨hre, fun o ho => hl o (mem_cons_of_mem _ ho)⟩
    rw [foldl_cons, loadPiece_eq]
    split
    · obtain ⟨hs', hm⟩ := ih ho' hs (fun o ho => he o (mem_cons_of_mem _ ho))
      refine ⟨hs', fun x hof => ?_⟩
      rcases hm x hof with hi | ⟨o, ho, hh⟩
      · exact .inl hi
      · exact .inr ⟨o, mem_cons_of_mem _ ho, hh⟩
    · obtain ⟨hs', he', hm⟩ := loadBlocks_spec hs row
        (he row mem_cons_self) (blockCount row.length) (le_refl _)
      obtain ⟨hs'', hm'⟩ := ih ho' hs' (by
        intro o ho r hr
        have hind := hf o ho
        have hle := (hl row mem_cons_self).1
        have hen := (he' r hr).2
        simp only [pieceLength] at hle hen ⊢
        omega)
      refine ⟨hs'', fun x hof => ?_⟩
      rcases hm' x hof with hi | ⟨o, ho, hh⟩
      · rcases (hm x).mp hi with hi | hb
        · exact .inl hi
        · exact .inr ⟨row, mem_cons_self, hb⟩
      · exact .inr ⟨o, mem_cons_of_mem _ ho, hh⟩

theorem PieceRow.Holds.bounds {row : PieceRow} {x : Int} (hh : row.Holds x) :
    row.index * pieceLength ≤ x ∧ x < row.index * pieceLength + row.length := by
  obtain ⟨b, _, _, hl, hhi⟩ := hh
  have he := (blockEnd_le (row.index * pieceLength) row.length b).2
  simp only [blockBegin, blockSize] at hl
  omega

/-- A part whose bytes are all stored has a row with all blocks. -/
theorem full_of_held {ps : List PieceRow} (ho : Ordered s ps) {index : Nat}
    (hsi : index * pieceLength < s) (hhe : ∀ x, index * pieceLength ≤ x →
      x < index * pieceLength + pieceLength → x < s →
      ∃ row ∈ ps, row.Holds x) : ∃ row ∈ ps, row.index = index ∧ row.Full := by
  have hr : ∀ x, index * pieceLength ≤ x →
      x < index * pieceLength + pieceLength → x < s →
      ∃ row ∈ ps, row.index = index ∧ row.Holds x := by
    intro x hlo hhi hlt
    obtain ⟨row, hm, hh⟩ := hhe x hlo hhi hlt
    have hl := (ho.2 row hm).1
    obtain ⟨hl', hh'⟩ := hh.bounds
    refine ⟨row, hm, ?_, hh⟩
    simp only [pieceLength] at hlo hhi hl' hh' hl
    omega
  obtain ⟨row, hm, hin, _⟩ := hr (index * pieceLength) (le_refl _)
    (by simp only [pieceLength]; omega) hsi
  refine ⟨row, hm, hin, fun b hbl => ?_⟩
  obtain ⟨hl, he⟩ := ho.2 row hm
  have hlt := blockBegin_lt_blockEnd (row.index * pieceLength) hbl
  have hla := (blockEnd_le (row.index * pieceLength) row.length b).2
  have hb : row.index * pieceLength ≤ blockBegin (row.index * pieceLength) b := by
    simp only [blockBegin, blockSize]
    omega
  rw [hin] at hlt hla hb he
  obtain ⟨o, hot, hi', block', hb', hha, hlo, hhi⟩ :=
    hr (blockBegin (index * pieceLength) b) hb (by omega) (by omega)
  have heq : o = row := by
    have hp := ho.1
    by_contra hne
    obtain ⟨i, hi, rfl⟩ := getElem_of_mem hot
    obtain ⟨j, hj, rfl⟩ := getElem_of_mem hm
    rw [pairwise_iff_getElem] at hp
    rcases Nat.lt_trichotomy i j with hij | rfl | hji
    · have := hp i j hi hj hij
      omega
    · exact hne rfl
    · have := hp j i hj hi hji
      omega
  subst heq
  have hn := (blockEnd_le (o.index * pieceLength) o.length block').1
  have hs : block' = b := by
    simp only [hin, blockBegin, blockSize] at hlo hhi hn
    omega
  rwa [hs] at hha

/-- No two neighbouring parts are both stored as there and not verified. -/
def Apart (pieces : List PieceRow) : Prop :=
  ∀ left ∈ pieces, ∀ right ∈ pieces, right.index = left.index + 1 → ¬ (left.Full ∧ right.Full)

instance (pieces : List PieceRow) : Decidable (Apart pieces) :=
  inferInstanceAs (Decidable (∀ left ∈ pieces, ∀ right ∈ pieces, _))

/-- The ranges that are read back are separated. -/
theorem loadDownload_separated (ho : Ordered row.size row.pieces) :
    Ranges.Separated (loadDownload row).received :=
  (loadPieces_spec row.size row.pieces ho Ranges.separated_nil
    (fun _ _ _ hr => absurd hr not_mem_nil)).1

/-- Then no range that is read back holds two parts. -/
theorem loadDownload_single (ho : Ordered row.size row.pieces) (ha : Apart row.pieces) {r : Range}
    (hr : r ∈ (loadDownload row).received) {left right : Nat} (hlt : left < right)
    (hs : right * pieceLength < row.size) (hl : r.1 ≤ left * pieceLength)
    (hh : min (right * pieceLength + pieceLength) row.size ≤ r.2) : False := by
  have hm := (loadPieces_spec row.size row.pieces ho Ranges.separated_nil
    (fun _ _ r hr => absurd hr not_mem_nil)).2
  have hhe : ∀ x, r.1 ≤ x → x < r.2 → ∃ p ∈ row.pieces, p.Holds x := by
    intro x hl hh
    rcases hm x ⟨r, hr, hl, hh⟩ with hi | hi
    · exact absurd hi Ranges.mem_offsets_nil
    · exact hi
  have hf : ∀ i : Nat, left ≤ i → i ≤ right →
      ∃ p ∈ row.pieces, p.index = i ∧ p.Full := by
    intro i hle hri
    simp only [pieceLength] at hl hh hs
    apply full_of_held ho
    · simp only [pieceLength]
      omega
    · intro x hl' hh' hlt'
      simp only [pieceLength] at hl' hh'
      exact hhe x (by omega) (by omega)
  obtain ⟨p, hpi, hind, hp⟩ := hf left (le_refl _) hlt.le
  obtain ⟨next, hne, hi', hn⟩ := hf (left + 1) (Nat.le_succ left) hlt
  exact ha p hpi next hne (by omega) ⟨hp, hn⟩

theorem pieceRow_eq_some {row : PieceRow} (hr : pieceRow s rc i = some row) :
    row.index = i ∧ row.length = min pieceLength (s - i * pieceLength) := by
  simp only [pieceRow] at hr
  split at hr
  · cases hr
    exact ⟨rfl, rfl⟩
  · exact absurd hr (by simp)

theorem saveDownload_ordered (s : Int) (r : DownloadRecord D) :
    Ordered s (saveDownload s r).pieces := by
  have hr : ∀ {i : Nat} {row : PieceRow}, (if r.parts.getD i false then none
        else pieceRow s r.received i) = some row →
      row.index = i ∧ row.length = min pieceLength (s - i * pieceLength) := by
    intro i row hr
    split at hr
    · exact absurd hr (by simp)
    · exact pieceRow_eq_some hr
  constructor
  · rw [saveDownload, pairwise_filterMap]
    apply pairwise_lt_range.imp
    intro left right hlt row hr' ro hr''
    have := (hr hr').1
    have := (hr hr'').1
    omega
  · intro row hm
    obtain ⟨i, _, hs⟩ := mem_filterMap.mp hm
    obtain ⟨hi, hl⟩ := hr hs
    rw [hi]
    omega

end Ed2kStore

namespace Ed2kTask

variable {D : Type u}

/-- The bytes of parts not verified yet; verified parts are stored as such. -/
def unverified (parts : Parts) : List Range := parts.received.ranges.flatMap fun range =>
    (List.range' (Parts.partOf range.1)
      (Parts.partOf (range.2 - 1) + 1 - Parts.partOf range.1)).filterMap
      fun index =>
        if parts.isVerified index then none
        else some (max range.1 (parts.part index).1, min range.2 (parts.part index).2)

/-- The record `checkpoint` saves; `modified` is the modification time of the
file, and `parses` tells whether its link can be read back. -/
def record (task : Ed2kTask D) (modified : Int) (parses : Bool) : DownloadRecord D :=
  { fileHash := task.link.hash
    path := task.path
    modified
    parts := task.parts.verified
    received := unverified task.parts
    pieceHashes :=
      if parses then some (task.link.hash, task.link.pieceHashes) else none }

/-- Whether `checkpoint` has something to save: only files this task opened
have progress worth keeping. -/
def checkpoints (task : Ed2kTask D) : Bool :=
  task.opened && (task.phase = .downloading || task.phase = .sharing || task.phase = .idle)

end Ed2kTask

end Aria2Next
