/-
`ed2k/Cipher` and the obfuscated datagrams of `ed2k/KadProtocol`.  MD5 is a
parameter: the round trip needs of the key only that both sides derive it from
the same bytes.
-/
import Aria2Next.Packet

namespace Aria2Next

/-- The `state_` array is a function of its 256 indices. -/
structure Rc4 where
  state : UInt8 → UInt8 := id
  i : UInt8 := 0
  j : UInt8 := 0

namespace Rc4

def swap (state : UInt8 → UInt8) (i j : UInt8) : UInt8 → UInt8 :=
  Function.update (Function.update state i (state j)) j (state i)

def init (key : Text) : Rc4 :=
  let mixed := (List.range 256).foldl (fun (mixed : (UInt8 → UInt8) × UInt8) index =>
    let i := UInt8.ofNat index
    let j := mixed.2 + mixed.1 i + key.getD (index % key.length) 0
    (swap mixed.1 i j, j)) (id, 0)
  { state := mixed.1 }

/-- The state behind the next byte. -/
def advance (rc4 : Rc4) : Rc4 :=
  let i := rc4.i + 1
  let j := rc4.j + rc4.state i
  { state := swap rc4.state i j, i, j }

def encrypt (rc4 : Rc4) : Text → Text × Rc4
  | [] => ([], rc4)
  | byte :: rest =>
    let next := rc4.advance
    let (out, last) := next.encrypt rest
    ((byte ^^^ next.state (next.state next.i + next.state next.j)) :: out, last)

/-- The stream does not depend on the data, so a second pass takes it off. -/
theorem encrypt_encrypt (rc4 : Rc4) (d : Text) : (rc4.encrypt (rc4.encrypt d).1).1 = d := by
  induction d generalizing rc4 with
  | nil => rfl
  | cons b r ih =>
    simp only [encrypt, ih]
    rw [UInt8.xor_assoc, UInt8.xor_self, UInt8.xor_zero]

theorem encrypt_length (rc4 : Rc4) (d : Text) : (rc4.encrypt d).1.length = d.length := by
  induction d generalizing rc4 with
  | nil => rfl
  | cons b r ih => exact congrArg (· + 1) (ih _)

/-- The cipher behind the bytes that `Connection::keyStreams` discards. -/
def keyed (key : Text) : Rc4 := ((init key).encrypt (List.replicate 1024 0)).2

/-- The buffers that `send` or `readExactly` hands to one cipher in turn. -/
def encryptAll (rc4 : Rc4) : List Text → Text
  | [] => []
  | buffer :: rest =>
    let (out, next) := rc4.encrypt buffer
    out ++ next.encryptAll rest

theorem encrypt_append (rc4 : Rc4) (d e : Text) :
    (rc4.encrypt (d ++ e)).1 = (rc4.encrypt d).1 ++ ((rc4.encrypt d).2.encrypt e).1 := by
  induction d generalizing rc4 with
  | nil => rfl
  | cons b r ih => exact congrArg (_ :: ·) (ih _)

/-- Where a buffer ends makes no difference to the stream. -/
theorem encryptAll_eq (rc4 : Rc4) (bs : List Text) :
    rc4.encryptAll bs = (rc4.encrypt bs.flatten).1 := by
  induction bs generalizing rc4 with
  | nil => rfl
  | cons b bs ih =>
    rw [List.flatten_cons, encrypt_append, ← ih]
    rfl

/-- However the writes of one side and the reads of the other cut the stream,
what is read is what was sent. -/
theorem read_eq_sent (key : Text) (sent read : List Text)
    (hread : read.flatten = (keyed key).encryptAll sent) :
    (keyed key).encryptAll read = sent.flatten := by
  rw [encryptAll_eq] at hread
  rw [encryptAll_eq, hread, encrypt_encrypt]

theorem read_eq_sent_two :
    let stream := (keyed [1]).encryptAll [[1, 2], [3]]
    (keyed [1]).encryptAll [stream.take 1, stream.drop 1] = [1, 2, 3] := by
  intro stream
  apply read_eq_sent [1] [[1, 2], [3]]
  rw [List.flatten_cons, List.flatten_singleton, List.take_append_drop]

end Rc4

structure KadObfuscatedDatagram where
  receiverVerifyKey : UInt32
  senderVerifyKey : UInt32
  datagram : Text
deriving DecidableEq, Repr

namespace KadObfuscatedDatagram

open List Packet

def udpSyncClient : UInt32 := 0x395f2ec1

/-- The first byte of a datagram that is not obfuscated. -/
def plainProtocols : List UInt8 := [0xe3, 0xe4, 0xe5, 0xd4, 0xc5]

def kadObfuscationMarker (receiverKeyUsed : Bool) : UInt8 := if receiverKeyUsed then 0x0a else 0x08

def possibleKadObfuscatedDatagram (datagram : Text) : Bool :=
  16 < datagram.length && !plainProtocols.contains (datagram.getD 0 0) &&
    datagram.getD 0 0 &&& 0x01 == 0

section Digest

variable (md5Digest : Text → Text)

def kadObfuscationKey (targetId : Text) (randomKeyPart : UInt16) : Text :=
  md5Digest (targetId ++ packUInt16 randomKeyPart)

def kadVerifyKeyObfuscationKey (receiverVerifyKey : UInt32) (randomKeyPart : UInt16) : Text :=
  md5Digest (packUInt32 receiverVerifyKey ++ packUInt16 randomKeyPart)

/-- The overload that both others call. -/
def createWithKey (datagram key : Text) (randomKeyPart : UInt16) (receiverKeyUsed : Bool)
    (receiverVerifyKey senderVerifyKey : UInt32) : Text :=
  kadObfuscationMarker receiverKeyUsed :: packUInt16 randomKeyPart ++
    ((Rc4.init key).encrypt (packUInt32 udpSyncClient ++ [0] ++ packUInt32 receiverVerifyKey ++
      packUInt32 senderVerifyKey ++ datagram)).1

def createForId (datagram targetId : Text) (randomKeyPart : UInt16)
    (receiverVerifyKey senderVerifyKey : UInt32) : Except String Text :=
  if targetId.length ≠ hashLength then .error "Bad ED2K hash length."
  else .ok (createWithKey datagram (kadObfuscationKey md5Digest targetId randomKeyPart)
    randomKeyPart false receiverVerifyKey senderVerifyKey)

def createForVerifyKey (datagram : Text) (receiverVerifyKey senderVerifyKey : UInt32)
    (randomKeyPart : UInt16) : Text :=
  createWithKey datagram (kadVerifyKeyObfuscationKey md5Digest receiverVerifyKey randomKeyPart)
    randomKeyPart true receiverVerifyKey senderVerifyKey

def parseWithKey (datagram key : Text) : Option KadObfuscatedDatagram :=
  if !possibleKadObfuscatedDatagram datagram || datagram.getD 0 0 &&& 0x01 != 0 then none
  else
    let decrypted := ((Rc4.init key).encrypt (datagram.drop 3)).1
    if decrypted.length ≤ 13 ∨ readUInt32 decrypted ≠ udpSyncClient then none
    else
      let padLen := (decrypted.getD 4 0).toNat
      if decrypted.length ≤ 13 + padLen then none
      else some {
        receiverVerifyKey := readUInt32 (decrypted.drop (5 + padLen))
        senderVerifyKey := readUInt32 (decrypted.drop (9 + padLen))
        datagram := decrypted.drop (13 + padLen) }

def parseForId (datagram targetId : Text) : Option KadObfuscatedDatagram :=
  if !possibleKadObfuscatedDatagram datagram || targetId.length != hashLength then none
  else if datagram.getD 0 0 &&& 0x03 ≠ 0 then none
  else parseWithKey datagram (kadObfuscationKey md5Digest targetId (readUInt16 (datagram.drop 1)))

def parseForVerifyKey (datagram : Text) (receiverVerifyKey : UInt32) :
    Option KadObfuscatedDatagram :=
  if !possibleKadObfuscatedDatagram datagram then none
  else if datagram.getD 0 0 &&& 0x03 ≠ 2 then none
  else parseWithKey datagram
    (kadVerifyKeyObfuscationKey md5Digest receiverVerifyKey (readUInt16 (datagram.drop 1)))

end Digest

variable {d key : Text} (r : UInt16) (u : Bool) (a b : UInt32)

theorem getD_createWithKey : (createWithKey d key r u a b).getD 0 0 = kadObfuscationMarker u := rfl

theorem possible_createWithKey (hd : d ≠ []) :
    possibleKadObfuscatedDatagram (createWithKey d key r u a b) = true := by
  have hl := length_pos_of_ne_nil hd
  have hlen : 16 < (createWithKey d key r u a b).length := by
    simp only [createWithKey, packUInt16, packUInt32, cons_append, length_cons, length_append,
      length_packLittleEndian, Rc4.encrypt_length, length_nil]
    omega
  rw [possibleKadObfuscatedDatagram, getD_createWithKey, decide_eq_true hlen]
  cases u <;> decide

theorem readUInt16_createWithKey : readUInt16 ((createWithKey d key r u a b).drop 1) = r := by
  have hv := readUInt16_packUInt16 r
  have hl : (packUInt16 r).length = 2 := length_packLittleEndian 2 _
  rw [readUInt16, take_of_length_le hl.le] at hv
  rw [readUInt16, createWithKey, cons_append, drop_succ_cons, drop_zero, take_left' hl, hv]

theorem parseWithKey_createWithKey (hd : d ≠ []) :
    parseWithKey (createWithKey d key r u a b) key = some ⟨a, b, d⟩ := by
  have h4 : ∀ v, (packUInt32 v).length = 4 := fun v => length_packLittleEndian 4 _
  have h2 : (packUInt16 r).length = 2 := length_packLittleEndian 2 _
  have hl := length_pos_of_ne_nil hd
  have hmark : kadObfuscationMarker u &&& 0x01 = 0 := by
    cases u <;> decide
  generalize hplain : packUInt32 udpSyncClient ++ [0] ++ packUInt32 a ++ packUInt32 b ++ d = plain
  have hdrop : (createWithKey d key r u a b).drop 3 = ((Rc4.init key).encrypt plain).1 := by
    rw [createWithKey, cons_append, drop_succ_cons, drop_left' h2, hplain]
  have hlen : plain.length = 13 + d.length := by
    simp [← hplain, h4]
    omega
  have hpad : plain.getD 4 0 = 0 := by
    rw [← hplain]
    rfl
  -- without padding the fields stand at fixed places
  have h5 : plain.drop 5 = packUInt32 a ++ (packUInt32 b ++ d) := by
    rw [← hplain, append_assoc, append_assoc, drop_left' (by simp [h4])]
  have h9 : plain.drop 9 = packUInt32 b ++ d := by
    rw [← drop_drop (i := 4) (j := 5), h5, drop_left' (h4 a)]
  have h13 : plain.drop 13 = d := by
    rw [← drop_drop (i := 4) (j := 9), h9, drop_left' (h4 b)]
  have hsync : readUInt32 plain = udpSyncClient := by
    rw [← hplain, append_assoc, append_assoc, append_assoc, readUInt32_append]
  rw [parseWithKey, possible_createWithKey r u a b hd, getD_createWithKey, hmark,
    if_neg (by decide), hdrop]
  simp only [Rc4.encrypt_encrypt, hpad]
  rw [if_neg (by rw [hlen, hsync]; simp; omega), if_neg (by rw [hlen]; simp; omega)]
  simp only [UInt8.toNat_zero, Nat.add_zero, h5, h9, h13, readUInt32_append]

end KadObfuscatedDatagram

open KadObfuscatedDatagram Packet in
/-- Each parser gives back what the other side hid for it, leaves alone what is
hidden for the other parser, and no first byte is that of a plain packet. -/
theorem kadObfuscated_round_trip (md5Digest : Text → Text) (datagram targetId : Text)
    (randomKeyPart : UInt16) (a b : UInt32) (hdatagram : datagram ≠ [])
    (hid : targetId.length = hashLength) :
    ∃ forId, createForId md5Digest datagram targetId randomKeyPart a b = .ok forId ∧
      parseForId md5Digest forId targetId = some ⟨a, b, datagram⟩ ∧
      (∀ key, parseForVerifyKey md5Digest forId key = none) ∧
      (∀ byte ∈ forId.head?, byte ∉ plainProtocols) ∧
      let forKey := createForVerifyKey md5Digest datagram a b randomKeyPart
      parseForVerifyKey md5Digest forKey a = some ⟨a, b, datagram⟩ ∧
      (∀ id, parseForId md5Digest forKey id = none) ∧
      ∀ byte ∈ forKey.head?, byte ∉ plainProtocols := by
  have hparse : ∀ key used, parseWithKey (createWithKey datagram key randomKeyPart used a b) key =
      some ⟨a, b, datagram⟩ :=
    fun _ used => parseWithKey_createWithKey randomKeyPart used a b hdatagram
  have hpossible : ∀ key used, possibleKadObfuscatedDatagram
      (createWithKey datagram key randomKeyPart used a b) = true :=
    fun _ used => possible_createWithKey randomKeyPart used a b hdatagram
  refine ⟨_, if_neg (not_not.mpr hid), ?_, ?_, ?_, ?_, ?_, ?_⟩
  · simp only [parseForId, hpossible, hid, getD_createWithKey, readUInt16_createWithKey]
    rw [if_neg (by simp), if_neg (by decide), hparse]
  · intro key
    rw [parseForVerifyKey, hpossible, getD_createWithKey, if_neg (by decide), if_pos (by decide)]
  · intro byte hbyte
    cases hbyte
    decide
  · rw [parseForVerifyKey, createForVerifyKey, hpossible, getD_createWithKey,
      readUInt16_createWithKey, if_neg (by decide), if_neg (by decide), hparse]
  · intro id
    rw [parseForId, createForVerifyKey, hpossible, getD_createWithKey]
    split
    · rfl
    · rw [if_pos (by decide)]
  · intro byte hbyte
    cases hbyte
    decide

open KadObfuscatedDatagram in
theorem kadObfuscated_round_trip_ping :
    ∃ forId, createForId id [0xe4, 0x60] (List.replicate 16 7) 1 2 3 = .ok forId ∧
      parseForId id forId (List.replicate 16 7) = some ⟨2, 3, [0xe4, 0x60]⟩ := by
  obtain ⟨forId, hcreate, hparse, _⟩ :=
    kadObfuscated_round_trip id [0xe4, 0x60] (List.replicate 16 7) 1 2 3 (by simp) rfl
  exact ⟨forId, hcreate, hparse⟩

end Aria2Next
