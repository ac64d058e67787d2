/-
`ed2k/Packet`: numbers and tags of the protocol.  A function that reads from
an offset is a reader of what is left from there; `ProtocolError` is failure.
-/
import Aria2Next.Reader
import Aria2Next.Text

namespace Aria2Next.Packet

/-- The number whose bytes are given, lowest first. -/
def littleEndian : Text → Nat
  | [] => 0
  | byte :: rest => byte.toNat + 256 * littleEndian rest

/-- The lowest `width` bytes of a number, lowest first. -/
def packLittleEndian : Nat → Nat → Text
  | 0, _ => []
  | width + 1, value => UInt8.ofNat value :: packLittleEndian width (value / 256)

def readUInt16 (data : Text) : UInt16 := UInt16.ofNat (littleEndian (data.take 2))

def readUInt32 (data : Text) : UInt32 := UInt32.ofNat (littleEndian (data.take 4))

def readUInt64 (data : Text) : UInt64 := UInt64.ofNat (littleEndian (data.take 8))

def packUInt16 (value : UInt16) : Text := packLittleEndian 2 value.toNat

def packUInt32 (value : UInt32) : Text := packLittleEndian 4 value.toNat

def packUInt64 (value : UInt64) : Text := packLittleEndian 8 value.toNat

def readByte : Reader UInt8 UInt8 := Reader.next

def readBytes (length : Nat) : Reader UInt8 Text := Reader.take length

/-- `readUInt16(readBytes(data, offset, 2).data())`. -/
def uint16 : Reader UInt8 UInt16 := do
  let bytes ← readBytes 2
  pure (readUInt16 bytes)

def uint32 : Reader UInt8 UInt32 := do
  let bytes ← readBytes 4
  pure (readUInt32 bytes)

def uint64 : Reader UInt8 UInt64 := do
  let bytes ← readBytes 8
  pure (readUInt64 bytes)

theorem length_packLittleEndian (w v : Nat) : (packLittleEndian w v).length = w := by
  induction w generalizing v with
  | zero => rfl
  | succ w ih => simp [packLittleEndian, ih]

theorem littleEndian_packLittleEndian (w v : Nat) :
    littleEndian (packLittleEndian w v) = v % 256 ^ w := by
  induction w generalizing v with
  | zero => simp [packLittleEndian, littleEndian, Nat.mod_one]
  | succ w ih =>
    have hl : (UInt8.ofNat v).toNat = v % 256 := UInt8.toNat_ofNat'
    rw [packLittleEndian, littleEndian, ih, hl, Nat.pow_succ' (m := 256), Nat.mod_mul]

theorem littleEndian_inj {first s : Text} (hl : first.length = s.length)
    (hs : littleEndian first = littleEndian s) : first = s := by
  induction first generalizing s with
  | nil => exact (List.length_eq_zero_iff.mp hl.symm).symm
  | cons b rest ih =>
    obtain _ | ⟨o, more⟩ := s
    · cases hl
    · rw [littleEndian, littleEndian] at hs
      have hb := b.toNat_lt
      have ho := o.toNat_lt
      rw [UInt8.toNat_inj.mp (by omega : b.toNat = o.toNat), ih (Nat.succ.inj hl) (by omega)]

theorem littleEndian_lt (bs : Text) : littleEndian bs < 256 ^ bs.length := by
  induction bs with
  | nil => exact Nat.one_pos
  | cons b r ih =>
    have hb := b.toNat_lt
    rw [littleEndian, List.length_cons]
    omega

theorem take_eq_of_readUInt32 {first s : Text} (hl : first.length = s.length)
    (hs : readUInt32 first = readUInt32 s) : first.take 4 = s.take 4 := by
  have hlt (data : Text) : littleEndian (data.take 4) < 2 ^ 32 := by
    refine (littleEndian_lt _).trans_le (le_of_le_of_eq ?_ (by decide : 256 ^ 4 = 2 ^ 32))
    exact Nat.pow_le_pow_right (by decide) (List.length_take_le 4 data)
  apply littleEndian_inj (by simp [hl])
  have hn := congrArg UInt32.toNat hs
  rwa [readUInt32, readUInt32, UInt32.toNat_ofNat_of_lt' (hlt first),
    UInt32.toNat_ofNat_of_lt' (hlt s)] at hn

theorem readUInt16_packUInt16 (v : UInt16) : readUInt16 (packUInt16 v) = v := by
  have hl : (packUInt16 v).length = 2 := length_packLittleEndian 2 _
  have hv : v.toNat < 256 ^ 2 := v.toNat_lt
  rw [readUInt16, List.take_of_length_le hl.le, packUInt16,
    littleEndian_packLittleEndian, Nat.mod_eq_of_lt hv, UInt16.ofNat_toNat]

theorem readUInt32_packUInt32 (v : UInt32) : readUInt32 (packUInt32 v) = v := by
  have hl : (packUInt32 v).length = 4 := length_packLittleEndian 4 _
  have hv : v.toNat < 256 ^ 4 := v.toNat_lt
  rw [readUInt32, List.take_of_length_le hl.le, packUInt32,
    littleEndian_packLittleEndian, Nat.mod_eq_of_lt hv, UInt32.ofNat_toNat]

theorem readUInt32_append (v : UInt32) (r : Text) : readUInt32 (packUInt32 v ++ r) = v := by
  have hv := readUInt32_packUInt32 v
  have hl : (packUInt32 v).length = 4 := length_packLittleEndian 4 _
  rw [readUInt32, List.take_of_length_le hl.le] at hv
  rw [readUInt32, List.take_left' hl, hv]

theorem readUInt64_packUInt64 (v : UInt64) : readUInt64 (packUInt64 v) = v := by
  have hl : (packUInt64 v).length = 8 := length_packLittleEndian 8 _
  have hv : v.toNat < 256 ^ 8 := v.toNat_lt
  rw [readUInt64, List.take_of_length_le hl.le, packUInt64,
    littleEndian_packLittleEndian, Nat.mod_eq_of_lt hv, UInt64.ofNat_toNat]

open Reader

theorem reads_readBytes (w : Text) {l : Nat} (hl : w.length = l) :
    Reads (readBytes l) w w := reads_take w hl

theorem reads_uint16 (v : UInt16) : Reads uint16 (packUInt16 v) v := by
  have hr := (reads_readBytes (packUInt16 v)
    (length_packLittleEndian 2 _)).bind (f := fun bs => pure (readUInt16 bs)) (reads_pure _)
  rw [readUInt16_packUInt16] at hr
  exact hr

theorem reads_uint32 (v : UInt32) : Reads uint32 (packUInt32 v) v := by
  have hr := (reads_readBytes (packUInt32 v)
    (length_packLittleEndian 4 _)).bind (f := fun bs => pure (readUInt32 bs)) (reads_pure _)
  rw [readUInt32_packUInt32] at hr
  exact hr

theorem reads_uint64 (v : UInt64) : Reads uint64 (packUInt64 v) v := by
  have hr := (reads_readBytes (packUInt64 v)
    (length_packLittleEndian 8 _)).bind (f := fun bs => pure (readUInt64 bs)) (reads_pure _)
  rw [readUInt64_packUInt64] at hr
  exact hr

inductive TagValueType where
  | unknown
  | string
  | uint
  | hash
  | blob
deriving DecidableEq, Repr

structure Tag where
  id : UInt8 := 0
  name : Text := []
  rawType : UInt8 := 0
  valueType : TagValueType := .unknown
  stringValue : Text := []
  intValue : UInt64 := 0
  binaryValue : Text := []
deriving DecidableEq, Repr

/-- `HASH_LENGTH`. -/
def hashLength : Nat := 16

/-- The name of a tag: one byte, or a text whose only byte is the id. -/
def readTagName (tagTypeWithName : UInt8) (tag : Tag) : Reader UInt8 Tag :=
  if tagTypeWithName &&& 0x80 ≠ 0 then do
    let id ← readByte
    pure { tag with id }
  else do
    let nameSize ← uint16
    let name ← readBytes nameSize.toNat
    pure
      { tag with
        name
        id := match name with
          | [byte] => byte
          | _ => tag.id }

/-- The value of a tag; a type that is not known has none. -/
def readTagValue (tagType : UInt8) (tag : Tag) : Reader UInt8 Tag :=
  if tagType = 0x01 then do
    let binaryValue ← readBytes hashLength
    pure { tag with valueType := .hash, binaryValue }
  else if tagType = 0x02 then do
    let size ← uint16
    let stringValue ← readBytes size.toNat
    pure { tag with valueType := .string, stringValue }
  else if tagType = 0x03 then do
    let value ← uint32
    pure { tag with valueType := .uint, intValue := value.toUInt64 }
  else if tagType = 0x07 then do
    let size ← uint32
    let binaryValue ← readBytes size.toNat
    pure { tag with valueType := .blob, binaryValue }
  else if tagType = 0x08 then do
    let value ← uint16
    pure { tag with valueType := .uint, intValue := value.toUInt64 }
  else if tagType = 0x09 then do
    let value ← readByte
    pure { tag with valueType := .uint, intValue := value.toUInt64 }
  else if tagType = 0x0b then do
    let value ← uint64
    pure { tag with valueType := .uint, intValue := value }
  else if tagType ≥ 0x11 ∧ tagType ≤ 0x20 then do
    let stringValue ← readBytes (tagType.toNat - 0x11 + 1)
    pure { tag with valueType := .string, stringValue }
  else pure tag

def readTag : Reader UInt8 Tag := do
  let tagTypeWithName ← readByte
  let tagType := tagTypeWithName &&& 0x7f
  let tag ← readTagName tagTypeWithName { rawType := tagType }
  readTagValue tagType tag

def createTagHeader (type id : UInt8) : Text := [type ||| 0x80, id]

def createUInt32Tag (id : UInt8) (value : UInt32) : Text :=
  createTagHeader 0x03 id ++ packUInt32 value

def createUInt64Tag (id : UInt8) (value : UInt64) : Text :=
  createTagHeader 0x0b id ++ packUInt64 value

def createStringTag (id : UInt8) (value : Text) : Text :=
  if value ≠ [] ∧ value.length ≤ 16 then
    createTagHeader (0x11 + UInt8.ofNat value.length - 1) id ++ value
  else
    createTagHeader 0x02 id ++ packUInt16 (UInt16.ofNat value.length) ++ value

/-- The tags of a list with their count in front; more than ten thousand or
bytes left over make no list. -/
def parseTagList (payload : Text) : Option (List Tag) :=
  if payload.length < 4 then none
  else
    Reader.whole (do
      let count ← uint32
      if count > 10000 then failure
      else Reader.times readTag count.toNat) payload

theorem header_named (type : UInt8) : (type ||| 0x80) &&& 0x80 ≠ 0 :=
  Text.forall_byte (p := fun type => (type ||| 0x80) &&& 0x80 ≠ 0) (by decide +kernel) type

/-- A header with a one-byte name is read back, and then the value. -/
theorem reads_header {type : UInt8} (id : UInt8) {tag : Tag} {w : Text}
    (ht : (type ||| 0x80) &&& 0x7f = type)
    (hv : Reads (readTagValue type { rawType := type, id }) w tag) :
    Reads readTag (createTagHeader type id ++ w) tag := by
  have hn : Reads (readTagName (type ||| 0x80) { rawType := type }) [id]
      { rawType := type, id } := by
    rw [readTagName, if_pos (header_named type)]
    exact (reads_next id).bind (reads_pure _)
  have hr : Reads (readTagName (type ||| 0x80) { rawType := (type ||| 0x80) &&& 0x7f } >>=
        readTagValue ((type ||| 0x80) &&& 0x7f)) ([id] ++ w) tag := by
    rw [ht]
    exact hn.bind hv
  exact (reads_next (type ||| 0x80)).bind hr

theorem reads_createUInt32Tag (id : UInt8) (v : UInt32) : Reads readTag (createUInt32Tag id v)
      { rawType := 0x03, id, valueType := .uint, intValue := v.toUInt64 } := by
  have hv := (reads_uint32 v).bind (f := fun v => pure
    ({ rawType := 0x03, id, valueType := .uint, intValue := v.toUInt64 } : Tag)) (reads_pure _)
  exact reads_header id (by decide) hv

theorem reads_createUInt64Tag (id : UInt8) (v : UInt64) : Reads readTag (createUInt64Tag id v)
      { rawType := 0x0b, id, valueType := .uint, intValue := v } := by
  have hv := (reads_uint64 v).bind (f := fun v => pure
    ({ rawType := 0x0b, id, valueType := .uint, intValue := v } : Tag)) (reads_pure _)
  exact reads_header id (by decide) hv

/-- The types of the short strings: none has another meaning. -/
theorem shortType {s : Nat} (hl : 1 ≤ s) (hh : s ≤ 16) :
    let type := 0x11 + UInt8.ofNat s - 1
    (type ||| 0x80) &&& 0x7f = type ∧ type ≠ 0x01 ∧ type ≠ 0x02 ∧
      type ≠ 0x03 ∧ type ≠ 0x07 ∧ type ≠ 0x08 ∧ type ≠ 0x09 ∧ type ≠ 0x0b ∧
      (type ≥ 0x11 ∧ type ≤ 0x20) ∧ type.toNat - 0x11 + 1 = s := by
  revert s
  decide +kernel

theorem reads_createStringTag (id : UInt8) {v : Text} (hv : v.length < 65536) :
    ∃ rawType, Reads readTag (createStringTag id v)
      { rawType, id, valueType := .string, stringValue := v } := by
  rw [createStringTag]
  split_ifs with hs
  · obtain ⟨hn, hle⟩ := hs
    obtain ⟨ht, h1, h2, h3, h7, h8, h9, hb, hra, hsi⟩ := shortType (List.length_pos_iff.mpr hn) hle
    refine ⟨0x11 + UInt8.ofNat v.length - 1, reads_header id ht ?_⟩
    rw [readTagValue, if_neg h1, if_neg h2, if_neg h3, if_neg h7, if_neg h8,
      if_neg h9, if_neg hb, if_pos hra, hsi]
    have hr := (reads_readBytes v rfl).bind (f := fun stringValue =>
      pure ({ rawType := 0x11 + UInt8.ofNat v.length - 1, id,
              valueType := .string, stringValue } : Tag)) (reads_pure _)
    rw [List.append_nil] at hr
    exact hr
  · refine ⟨0x02, ?_⟩
    refine reads_header id (by decide) ?_
    have hl : (UInt16.ofNat v.length).toNat = v.length := UInt16.toNat_ofNat_of_lt' hv
    have hr := (reads_readBytes v rfl).bind (f := fun stringValue =>
      pure ({ rawType := 0x02, id, valueType := .string, stringValue } : Tag)) (reads_pure _)
    rw [List.append_nil] at hr
    refine (reads_uint16 _).bind ?_
    rw [hl]
    exact hr

/-- A tag never holds a text that its own size field could not count. -/
theorem readTag_stringValue {i r : Text} {tag : Tag} (hr : readTag i = some (tag, r)) :
    tag.stringValue.length < 65536 := by
  obtain ⟨t, afterType, hty, hr⟩ := bind_eq_some hr
  obtain ⟨n, afterName, hn, hv⟩ := bind_eq_some hr
  have hem : n.stringValue = [] := by
    rw [readTagName] at hn
    split_ifs at hn
    · obtain ⟨id, _, _, he⟩ := bind_eq_some hn
      cases he
      rfl
    · obtain ⟨s, _, _, hn⟩ := bind_eq_some hn
      obtain ⟨na, _, _, he⟩ := bind_eq_some hn
      cases he
      rfl
  have hs : n.stringValue.length < 65536 := by simp [hem]
  rw [readTagValue] at hv
  split_ifs at hv with h1 h2 h3 h7 h8 h9 hb hsh
  · obtain ⟨_, _, _, he⟩ := bind_eq_some hv
    cases he
    exact hs
  · obtain ⟨s, _, _, hv⟩ := bind_eq_some hv
    obtain ⟨v, _, ht, he⟩ := bind_eq_some hv
    cases he
    have hl := (take_eq_some ht).1
    have hsi := s.toNat_lt
    dsimp only
    omega
  · obtain ⟨_, _, _, he⟩ := bind_eq_some hv
    cases he
    exact hs
  · obtain ⟨_, _, _, hv⟩ := bind_eq_some hv
    obtain ⟨_, _, _, he⟩ := bind_eq_some hv
    cases he
    exact hs
  · obtain ⟨_, _, _, he⟩ := bind_eq_some hv
    cases he
    exact hs
  · obtain ⟨_, _, _, he⟩ := bind_eq_some hv
    cases he
    exact hs
  · obtain ⟨_, _, _, he⟩ := bind_eq_some hv
    cases he
    exact hs
  · obtain ⟨v, _, ht, he⟩ := bind_eq_some hv
    cases he
    have hl := (take_eq_some ht).1
    have hsi := (t &&& 0x7f).toNat_lt
    dsimp only
    omega
  · cases hv
    exact hs

end Aria2Next.Packet
