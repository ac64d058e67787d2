/-
`Store::saveDownload` and `Store::loadDownload` over the tables of the
database.  A record is one row, and a row of blocks for every part that is not
verified and of which some block is there.

SQLite returns what was stored: a text is its bytes, and the rows of a
download are read in the order of their parts.
-/
import Aria2Next.Ed2kStore
import Aria2Next.Session

namespace Aria2Next.Ed2kStore

open List

/-- `DownloadRecord`: the progress of one download. -/
structure Record where
  gid : Gid
  fileHash : Text
  size : Int
  link : Text
  path : Text
  modified : Int
  complete : Bool
  sharingSeconds : Int
  parts : List Bool
  received : List Range
deriving DecidableEq

/-- A row of `downloads`, without its key. -/
structure Row where
  fileHash : Text
  size : Int
  link : Text
  path : Text
  modified : Int
  paused : Int
  complete : Int
  sharingTime : Int
  bitfield : List UInt8
  updatedAt : Int
deriving DecidableEq

/-- The tables that hold downloads. -/
structure Tables where
  downloads : OrdMap Text Row := ∅
  pieces : List (Text × PieceRow) := []

/-- The key of a download. -/
def key (gid : Gid) : Text := Text.of (gidText gid)

/-- The parts of a file of this size. -/
def partCount (size : Int) : Nat := ((size + pieceLength - 1) / pieceLength).toNat

/-- The rows of the parts that are not verified. -/
def pieceRows (record : Record) : List PieceRow :=
  (List.range record.parts.length).filterMap fun index =>
    if record.parts.getD index false then none
    else pieceRow record.size record.received index

namespace Tables

/-- `saveDownload`; `now` is `unixepoch()`. -/
def saveDownload (tables : Tables) (record : Record) (now : Int) : Tables :=
  -- the column has a CHECK, and the transaction is rolled back
  if record.sharingSeconds < 0 then tables
  else
    let old := tables.downloads.find? (key record.gid)
    { downloads := tables.downloads.insert (key record.gid)
        { fileHash := record.fileHash
          size := record.size
          link := record.link
          path := record.path
          modified := record.modified
          paused := (old.map Row.paused).getD 0
          complete := if record.complete then 1 else 0
          sharingTime := record.sharingSeconds
          bitfield := packBits record.parts
          updatedAt := now }
      pieces := tables.pieces.filter (·.1 ≠ key record.gid) ++
        (pieceRows record).map fun row => (key record.gid, row) }

/-- The rows of blocks of a download, `ORDER BY piece_index`. -/
def piecesOf (tables : Tables) (gid : Gid) : List PieceRow :=
  ((tables.pieces.filter (·.1 = key gid)).map Prod.snd).mergeSort
    fun left right => left.index ≤ right.index

def loadDownload (tables : Tables) (gid : Gid) : Option Record :=
  (tables.downloads.find? (key gid)).map fun row : Row =>
    { gid
      fileHash := row.fileHash
      size := row.size
      link := row.link
      path := row.path
      modified := row.modified
      complete := row.complete ≠ 0
      sharingSeconds := row.sharingTime
      parts := unpackBits row.bitfield (partCount row.size)
      received := (tables.piecesOf gid).foldl (loadPiece row.size) [] }

/-- `removeDownload`; the rows of blocks go with the download. -/
def removeDownload (tables : Tables) (gid : Gid) : Tables :=
  { downloads := tables.downloads.erase (key gid)
    pieces := tables.pieces.filter (·.1 ≠ key gid) }

end Tables

variable {record r : Record} {row : PieceRow} {size s : Int} {received rc : List Range} {i b : Nat}

theorem mem_pieceRows : row ∈ pieceRows r ↔ r.parts[row.index]? = some false ∧
      pieceRow r.size r.received row.index = some row := by
  rw [pieceRows, mem_filterMap]
  constructor
  · rintro ⟨i, hi, hr⟩
    rw [mem_range] at hi
    have hg := List.getElem?_eq_getElem hi
    rw [getD_eq_getElem?_getD, hg, Option.getD_some] at hr
    split_ifs at hr with hp
    have hs := (pieceRow_eq_some hr).1
    rw [Bool.not_eq_true] at hp
    rw [hs, hg, hp]
    exact ⟨rfl, hr⟩
  · rintro ⟨hp, hr⟩
    obtain ⟨hi, _⟩ := List.getElem?_eq_some_iff.mp hp
    refine ⟨row.index, mem_range.mpr hi, ?_⟩
    rw [getD_eq_getElem?_getD, hp]
    exact hr

theorem pieceRows_sorted (r : Record) : (pieceRows r).Pairwise fun left right =>
      left.index < right.index := by
  rw [pieceRows, pairwise_filterMap]
  apply pairwise_lt_range.imp
  intro left right hl row hr o ho
  split_ifs at hr ho
  rw [(pieceRow_eq_some hr).1, (pieceRow_eq_some ho).1]
  exact hl

/-- The rows of the download are those that were saved. -/
theorem piecesOf_saveDownload (t : Tables) (r : Record) (now : Int) (hs : 0 ≤ r.sharingSeconds) :
    (t.saveDownload r now).piecesOf r.gid = pieceRows r := by
  have hf : ((t.saveDownload r now).pieces.filter
      (·.1 = key r.gid)).map Prod.snd = pieceRows r := by
    rw [Tables.saveDownload, if_neg (not_lt.mpr hs)]
    simp [filter_append, filter_filter, filter_map, Function.comp_def]
  rw [Tables.piecesOf, hf]
  apply mergeSort_of_pairwise
  apply (pieceRows_sorted r).imp
  intro left right hl
  exact decide_eq_true hl.le

/-- Every stored block of a row of the file is read back. -/
theorem mem_loadPieces {ps : List PieceRow} (hor : Ordered s ps)
    (hse : Ranges.Separated rc)
    (he : ∀ row ∈ ps, ∀ r ∈ rc, r.2 ≤ row.index * pieceLength) {x : Int}
    (hof : x ∈ Ranges.offsets rc ∨
      ∃ row ∈ ps, row.index * pieceLength < s ∧ 0 < row.length ∧ row.Holds x) :
    x ∈ Ranges.offsets (ps.foldl (loadPiece s) rc) := by
  induction ps generalizing rc with
  | nil => simpa using hof
  | cons row rest ih =>
    obtain ⟨hso, hle⟩ := hor
    obtain ⟨hf, hre⟩ := pairwise_cons.mp hso
    have ho' : Ordered s rest := ⟨hre, fun o ho =>
        hle o (mem_cons_of_mem _ ho)⟩
    rw [foldl_cons, loadPiece_eq]
    split_ifs with hsk
    · apply ih ho' hse
      · intro o ho
        exact he o (mem_cons_of_mem _ ho)
      · rcases hof with hi | ⟨o, ho, hs, hl, hh⟩
        · exact .inl hi
        · rcases mem_cons.mp ho with rfl | ho
          · omega
          · exact .inr ⟨o, ho, hs, hl, hh⟩
    · obtain ⟨hs', he', hm⟩ := loadBlocks_spec hse row
        (he row mem_cons_self) (blockCount row.length) (le_refl _)
      apply ih ho' hs'
      · intro o ho r hr
        have hind := hf o ho
        have hl := (hle row mem_cons_self).1
        have hen := (he' r hr).2
        simp only [pieceLength] at hl hen ⊢
        omega
      · rcases hof with hi | ⟨o, ho, hs, hl, hh⟩
        · exact .inl ((hm x).mpr (.inl hi))
        · rcases mem_cons.mp ho with rfl | ho
          · exact .inl ((hm x).mpr (.inr hh))
          · exact .inr ⟨o, ho, hs, hl, hh⟩

/-- A block is covered exactly if all its bytes are there. -/
theorem covered_iff (hs : Ranges.Separated rc) {b s : Int} (hl : b < s) :
    covered rc b s = true ↔ ∀ x, b ≤ x → x < s → x ∈ Ranges.offsets rc := by
  rw [covered, any_eq_true]
  constructor
  · rintro ⟨r, hr, hh⟩ x hlo hhi
    obtain ⟨hb, hst⟩ := of_decide_eq_true hh
    exact ⟨r, hr, by omega, by omega⟩
  · intro ha
    obtain ⟨r, hr, hh⟩ := Ranges.exists_interval hs hl ha
    exact ⟨r, hr, decide_eq_true hh⟩

/-- The length of a part. -/
def partLength (size : Int) (index : Nat) : Int := min pieceLength (size - index * pieceLength)

/-- A block of a part is there. -/
def BlockReceived (size : Int) (received : List Range) (index block : Nat) : Prop :=
  ∀ offset, blockBegin (index * pieceLength) block ≤ offset →
    offset < blockEnd (index * pieceLength) (partLength size index) block →
    offset ∈ Ranges.offsets received

/-- The bit of a block says whether the block is there. -/
theorem pieceRow_has (hs : Ranges.Separated rc) (hr : pieceRow s rc i = some row)
    (hb : b < blockCount row.length) : row.has b = true ↔ BlockReceived s rc i b := by
  simp only [pieceRow] at hr
  split_ifs at hr
  cases hr
  generalize hbl : (List.range (blockCount (min pieceLength
    (s - i * pieceLength)))).map (fun b => covered rc
      (blockBegin (i * pieceLength) b) (blockEnd (i * pieceLength)
        (min pieceLength (s - i * pieceLength)) b)) = blocks
  have hg : blocks.getD b false = covered rc (blockBegin (i * pieceLength) b)
      (blockEnd (i * pieceLength) (partLength s i) b) := by
    rw [← hbl, getD_eq_getElem?_getD, List.getElem?_map, List.getElem?_range hb]
    rfl
  rw [PieceRow.has, bitAt_packBits, hg]
  exact covered_iff hs (blockBegin_lt_blockEnd _ hb)

/-- A part with a block that is there has a row. -/
theorem pieceRow_isSome (hs : Ranges.Separated rc) (hb : b < blockCount (partLength s i))
    (hr : BlockReceived s rc i b) : ∃ row, pieceRow s rc i = some row := by
  have hc : covered rc (blockBegin (i * pieceLength) b)
      (blockEnd (i * pieceLength) (partLength s i) b) = true :=
    (covered_iff hs (blockBegin_lt_blockEnd _ hb)).mpr hr
  have ha : ((List.range (blockCount (partLength s i))).map
      fun b => covered rc (blockBegin (i * pieceLength) b)
        (blockEnd (i * pieceLength) (partLength s i) b)).any id = true := by
    rw [any_eq_true]
    exact ⟨true, mem_map.mpr ⟨b, mem_range.mpr hb, hc⟩, rfl⟩
  exact ⟨_, if_pos ha⟩

theorem pieceRows_ordered (r : Record) : Ordered r.size (pieceRows r) := by
  refine ⟨pieceRows_sorted r, ?_⟩
  intro row hr
  have hl := (pieceRow_eq_some (mem_pieceRows.mp hr).2).2
  omega

/-- The parts of a record lie in the file. -/
theorem part_lt_size (hp : r.parts.length = partCount r.size) (hi : r.parts[i]? = some false) :
    i * pieceLength < r.size := by
  obtain ⟨hl, _⟩ := List.getElem?_eq_some_iff.mp hi
  rw [hp, partCount] at hl
  simp only [pieceLength] at hl ⊢
  omega

/-- What is read back of a record: the blocks of parts not verified that were
there as a whole. -/
theorem mem_loaded_iff (hpa : r.parts.length = partCount r.size)
    (hse : Ranges.Separated r.received) (x : Int) :
    x ∈ Ranges.offsets ((pieceRows r).foldl (loadPiece r.size) []) ↔
      ∃ i b, r.parts[i]? = some false ∧ b < blockCount (partLength r.size i) ∧
        BlockReceived r.size r.received i b ∧ blockBegin (i * pieceLength) b ≤ x ∧
        x < blockEnd (i * pieceLength) (partLength r.size i) b := by
  have hn : ∀ row ∈ pieceRows r, ∀ range ∈ ([] : List Range),
      range.2 ≤ row.index * pieceLength := by
    intro row _ range hra
    exact absurd hra not_mem_nil
  constructor
  · intro ho
    rcases (loadPieces_spec r.size _ (pieceRows_ordered r)
      Ranges.separated_nil hn).2 x ho with hin | hin
    · exact absurd hin Ranges.mem_offsets_nil
    · obtain ⟨row, hro, b, hb, hha, hlo, hh⟩ := hin
      obtain ⟨hp, hs⟩ := mem_pieceRows.mp hro
      have hr := (pieceRow_has hse hs hb).mp hha
      have hl := (pieceRow_eq_some hs).2
      rw [hl] at hb hh
      exact ⟨row.index, b, hp, hb, hr, hlo, hh⟩
  · rintro ⟨i, b, hp, hb, hr, hlo, hh⟩
    obtain ⟨row, hs⟩ := pieceRow_isSome hse hb hr
    obtain ⟨hi, hl⟩ := pieceRow_eq_some hs
    have hins := part_lt_size hpa hp
    have hro : row ∈ pieceRows r := by
      rw [mem_pieceRows, hi]
      exact ⟨hp, hs⟩
    apply mem_loadPieces (pieceRows_ordered r) Ranges.separated_nil hn
    refine .inr ⟨row, hro, ?_, ?_, b, ?_, ?_, ?_, ?_⟩
    · rw [hi]
      exact hins
    · rw [hl]
      simp only [pieceLength] at hins ⊢
      omega
    · rw [hl]
      exact hb
    · apply (pieceRow_has hse hs _).mpr hr
      rw [hl]
      exact hb
    · rw [hi]
      exact hlo
    · rw [hi, hl]
      exact hh

end Aria2Next.Ed2kStore
