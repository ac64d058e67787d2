/-
`ed2k/PeerProtocol`, the parts a peer has on the wire.  Over TCP, in a
multipacket and in the UDP ping the first part is the lowest bit of its byte;
in the UDP acknowledgement it is the highest, so the two forms agree only on
bitfields that read the same from both ends of every byte.
-/
import Aria2Next.Ed2kStore
import Aria2Next.Packet

namespace Aria2Next

namespace PeerProtocol

open Ed2kStore List Packet Reader

/-- The mask of bit `index` in the status of a file. -/
def lowMask (index : Nat) : UInt8 := 1 <<< UInt8.ofNat (index % 8)

def lowBit (out : Text) (entry : Bool × Nat) : Text :=
  if entry.1 then out.modify (entry.2 / 8) (· ||| lowMask entry.2) else out

/-- The bytes of the bits, the lowest of a byte first. -/
def lowBits (bits : List Bool) : Text :=
  bits.zipIdx.foldl lowBit (List.replicate ((bits.length + 7) / 8) 0)

def lowBitAt (raw : Text) (index : Nat) : Bool :=
  (raw[index / 8]?).any fun byte => byte &&& lowMask index ≠ 0

def appendPartStatus (payload : Text) (bitfield : List Bool) : Except String Text :=
  if bitfield.length > 65535 then .error "ED2K file status bitfield is too large."
  else .ok (payload ++ packUInt16 (UInt16.ofNat bitfield.length) ++ lowBits bitfield)

def readPartStatus : Reader UInt8 (List Bool) := do
  let bitCount ← uint16
  let raw ← readBytes ((bitCount.toNat + 7) / 8)
  pure ((List.range bitCount.toNat).map (lowBitAt raw))

def createFileStatusPayload (fileHash : Text) (bitfield : List Bool) : Except String Text :=
  if fileHash.length ≠ hashLength then .error "Bad ED2K hash length."
  else appendPartStatus fileHash bitfield

structure UdpReaskAck where
  bitfield : List Bool := []
  rank : UInt16
deriving DecidableEq, Repr

def createUdpReaskAckPayload (bitfield : List Bool) (rank : UInt16) : Except String Text :=
  if bitfield.length > 65535 then .error "ED2K file status bitfield is too large."
  else .ok (packUInt16 (UInt16.ofNat bitfield.length) ++ packBits bitfield ++ packUInt16 rank)

def parseUdpReaskAckPayload (payload : Text) : Option UdpReaskAck :=
  if payload.length ≠ 2 ∧ payload.length < 4 then none
  else if payload.length > 2 then do
    let (bitCount, rest) ← uint16 payload
    let byteCount := (bitCount.toNat + 7) / 8
    if rest.length ≠ byteCount + 2 then none
    let (raw, rest) ← readBytes byteCount rest
    let (rank, _) ← uint16 rest
    pure { bitfield := unpackBits raw bitCount.toNat, rank }
  else (uint16 payload).map fun read => { rank := read.1 }

/-- The place of a bit counted from the other end of its byte. -/
def mirror (index : Nat) : Nat := index / 8 * 8 + (7 - index % 8)

/-- Every byte of the bitfield, filled up with zeros, is a palindrome. -/
def Mirrored (bitfield : List Bool) : Prop :=
  ∀ index < bitfield.length, bitfield.getD (mirror index) false = bitfield.getD index false

theorem mirror_mirror (i : Nat) : mirror (mirror i) = i := by
  unfold mirror
  omega

theorem mirror_div (i : Nat) : mirror i / 8 = i / 8 := by
  unfold mirror
  omega

theorem lowMask_eq (i : Nat) : lowMask i = mask (mirror i) := by
  have hm : ∀ k < 8, lowMask k = mask (7 - k) := by decide
  have hi : mirror i % 8 = 7 - i % 8 := by
    unfold mirror
    omega
  have hl := hm (i % 8) (Nat.mod_lt _ (by decide))
  rw [lowMask, Nat.mod_mod] at hl
  rw [lowMask, hl, mask, mask, hi, Nat.mod_eq_of_lt (by omega)]

theorem lowBitAt_eq (raw : Text) (i : Nat) : lowBitAt raw i = bitAt raw (mirror i) := by
  rw [lowBitAt, bitAt, mirror_div, lowMask_eq]

/-- The bytes of the common form. -/
theorem foldl_lowBit (es : List (Bool × Nat)) (out : Text) :
    es.foldl lowBit out = (es.map fun e => (e.1, mirror e.2)).foldl packBit out := by
  rw [foldl_map]
  congr 1
  funext out e
  rw [lowBit, packBit, lowMask_eq, mirror_div]

theorem bitAt_lowBits (b : List Bool) (i : Nat) :
    bitAt (lowBits b) i = b.getD (mirror i) false := by
  have hi : mirror.Injective := Function.LeftInverse.injective mirror_mirror
  have hb := bitAt_placed b hi mirror_div (mirror i)
  rwa [mirror_mirror, ← foldl_lowBit] at hb

theorem foldl_packBit_length (es : List (Bool × Nat)) (out : Text) :
    (es.foldl packBit out).length = out.length := by
  induction es generalizing out with
  | nil => rfl
  | cons e es ih => rw [foldl_cons, ih, packBit_length]

theorem packBits_length (b : List Bool) : (packBits b).length = (b.length + 7) / 8 := by
  rw [packBits, foldl_packBit_length, length_replicate]

theorem lowBits_length (b : List Bool) : (lowBits b).length = (b.length + 7) / 8 := by
  rw [lowBits, foldl_lowBit, foldl_packBit_length, length_replicate]

theorem byte_ext {x y : UInt8} (h : ∀ k < 8, x &&& mask k = 0 ↔ y &&& mask k = 0) : x = y := by
  have hb : ∀ z : UInt8, z = ((List.range 8).map fun k =>
      if z &&& mask k = 0 then 0 else mask k).foldl (· ||| ·) 0 :=
    Text.forall_byte (by decide +kernel)
  rw [hb x, hb y]
  congr 1
  refine map_congr_left fun k hk => ?_
  simp only [h k (mem_range.mp hk)]

theorem ext_bitAt {a b : Text} (hl : a.length = b.length) (h : ∀ i, bitAt a i = bitAt b i) :
    a = b := by
  apply ext_getElem hl
  intro i ha hb
  apply byte_ext
  intro k hk
  have hi := h (8 * i + k)
  have hd : (8 * i + k) / 8 = i := by omega
  have hm : mask (8 * i + k) = mask k := by
    rw [mask, mask, Nat.mul_add_mod]
  simpa [bitAt, hd, hm, ha, hb] using hi

/-- Reading bits in one order and writing them in the other mirrors each byte. -/
theorem map_mirror_iff (b : List Bool) :
    (List.range b.length).map (fun i => b.getD (mirror i) false) = b ↔ Mirrored b := by
  constructor
  · intro h i hi
    have hg := congrArg (fun l => l.getD i false) h
    simpa [hi] using hg
  · intro h
    apply ext_getElem
    · simp
    · intro i hl hi
      simpa [hi] using h i hi

theorem lowBits_eq_iff (b : List Bool) : lowBits b = packBits b ↔ Mirrored b := by
  constructor
  · intro h i _
    rw [← bitAt_lowBits, h, bitAt_packBits]
  · intro h
    apply ext_bitAt
    · rw [lowBits_length, packBits_length]
    · intro i
      rw [bitAt_lowBits, bitAt_packBits]
      by_cases hi : i < b.length
      · exact h i hi
      · -- a bit behind the end that is the mirror of one of the bits
        by_cases hm : mirror i < b.length
        · have hb := h (mirror i) hm
          rw [mirror_mirror] at hb
          exact hb.symm
        · simp [not_lt.mp hi, not_lt.mp hm]

section Status

variable {b : List Bool} (hb : b.length ≤ 65535) {raw : Text} (hraw : raw.length = (b.length + 7) / 8)

include hb

theorem toNat_ofNat_length : (UInt16.ofNat b.length).toNat = b.length :=
  UInt16.toNat_ofNat_of_lt' (hb.trans_lt (by decide))

include hraw

/-- Both readers pass over a count and bytes for as many bits. -/
theorem reads_status : Reads readPartStatus (packUInt16 (UInt16.ofNat b.length) ++ raw)
    ((List.range b.length).map (lowBitAt raw)) := by
  apply (reads_uint16 _).bind
  rw [toNat_ofNat_length hb]
  have hr := (reads_readBytes raw hraw).bind (f := fun raw =>
    pure ((List.range b.length).map (lowBitAt raw))) (reads_pure _)
  rwa [append_nil] at hr

theorem parse_status (rank : UInt16) :
    parseUdpReaskAckPayload (packUInt16 (UInt16.ofNat b.length) ++ raw ++ packUInt16 rank) =
      some { bitfield := unpackBits raw b.length, rank } := by
  have h2 : ∀ n, (packUInt16 n).length = 2 := fun n => length_packLittleEndian 2 _
  have hrank := reads_uint16 rank []
  rw [append_nil] at hrank
  rw [parseUdpReaskAckPayload, if_neg, if_pos]
  · rw [append_assoc, reads_uint16, Option.bind_eq_bind, Option.bind_some]
    simp only [toNat_ofNat_length hb]
    rw [if_neg (by rw [length_append, h2, hraw]; simp)]
    simp [reads_readBytes raw hraw (packUInt16 rank), hrank]
  all_goals
    simp only [length_append, h2]
    omega

end Status

end PeerProtocol

open Ed2kStore List PeerProtocol Packet Reader in
/-- The status of a file is read back from the bytes of the common form.  The
acknowledgement has these bytes, and the two sides read each other, just when
the bitfield is the same from both ends of each byte. -/
theorem partStatus_iff_mirrored (fileHash : Text) (bitfield : List Bool) (rank : UInt16)
    (hhash : fileHash.length = hashLength) (hbits : bitfield.length ≤ 65535) :
    ∃ status ack, createFileStatusPayload fileHash bitfield = .ok (fileHash ++ status) ∧
      createUdpReaskAckPayload bitfield rank = .ok ack ∧
      Reads readPartStatus status bitfield ∧
      (ack = status ++ packUInt16 rank ↔ Mirrored bitfield) ∧
      ((∃ rest, readPartStatus ack = some (bitfield, rest)) ↔ Mirrored bitfield) ∧
      (parseUdpReaskAckPayload (status ++ packUInt16 rank) = some { bitfield, rank } ↔
        Mirrored bitfield) := by
  have hlow := reads_status hbits (lowBits_length bitfield)
  have hhigh := reads_status hbits (packBits_length bitfield)
  have hparse := parse_status hbits (lowBits_length bitfield) rank
  have hread : (List.range bitfield.length).map (lowBitAt (lowBits bitfield)) = bitfield := by
    apply ext_getElem
    · simp
    · intro i hl hi
      simp [lowBitAt_eq, bitAt_lowBits, mirror_mirror, hi]
  rw [hread] at hlow
  refine ⟨_, _, ?_, if_neg (not_lt.mpr hbits), hlow, ?_, ?_, ?_⟩
  · rw [createFileStatusPayload, if_neg (not_not.mpr hhash), appendPartStatus,
      if_neg (not_lt.mpr hbits), append_assoc]
  · rw [append_left_inj, append_right_inj, eq_comm]
    exact lowBits_eq_iff bitfield
  · rw [hhigh, ← map_mirror_iff]
    have hbit : lowBitAt (packBits bitfield) = fun i => bitfield.getD (mirror i) false :=
      funext fun i => by rw [lowBitAt_eq, bitAt_packBits]
    simp [hbit]
  · rw [hparse, ← map_mirror_iff, unpackBits]
    have hbit : bitAt (lowBits bitfield) = fun i => bitfield.getD (mirror i) false :=
      funext (bitAt_lowBits bitfield)
    simp [hbit]

theorem partStatus_iff_mirrored_one :
    (∃ rest, PeerProtocol.readPartStatus [1, 0, 0x80, 0, 0] = some ([true], rest)) ↔
      PeerProtocol.Mirrored [true] := by
  obtain ⟨status, ack, _, hack, _, _, hread, _⟩ :=
    partStatus_iff_mirrored (List.replicate 16 0) [true] 0 rfl (by decide)
  cases hack
  exact hread

open PeerProtocol in
/-- A file of one part: its owner acknowledges with the bit that nobody reads. -/
theorem udpReaskAck_one_part :
    createUdpReaskAckPayload [true] 1 = .ok [1, 0, 0x80, 1, 0] ∧
      createFileStatusPayload (List.replicate 16 0) [true] =
        .ok (List.replicate 16 0 ++ [1, 0, 0x01]) ∧
      (readPartStatus [1, 0, 0x80, 1, 0]).map Prod.fst = some [false] ∧
      (parseUdpReaskAckPayload [1, 0, 0x01, 1, 0]).map UdpReaskAck.bitfield = some [false] := by
  decide

end Aria2Next
