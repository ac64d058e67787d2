/-
`ed2k/Link`: the links of the network.  A file link nests four separators:
bars between its fields, colons between part hashes and inside a source, and
commas between sources; names and hosts are percent-escaped, hashes are
hexadecimal or Base32.  What `toFileLink` writes `parseLink` reads back.

A thrown `ProtocolError` is its text.
-/
import Aria2Next.Packet
import Aria2Next.TextCodes

namespace Aria2Next

open List

inductive LinkType where
  | file
  | server
  | serverList
  | nodesList
  | search
deriving DecidableEq, Repr

structure Endpoint where
  host : Text := []
  port : UInt16 := 0
  cryptOptions : UInt16 := 0
  userHash : Text := []
deriving DecidableEq, Repr

structure Link where
  type : LinkType := .file
  name : Text := []
  size : Int := 0
  hash : Text := []
  pieceHashes : List Text := []
  aichHash : Text := []
  sources : List Endpoint := []
  server : Endpoint := {}
  url : Text := []
deriving DecidableEq, Repr

namespace Link

open Text

def maxFileSize : Int := 0x4000000000

/-- `AICH_HASH_LENGTH`. -/
def aichHashLength : Nat := 20

def base32Alphabet : Text := of "ABCDEFGHIJKLMNOPQRSTUVWXYZ234567"

variable (value : Text) (link : Link) (fields : List Text)

/-- The fields between separators, as they are; empty ones are dropped. -/
def fieldsOf (separator : UInt8) : List Text :=
  (value.splitOn separator).filter fun field => !field.isEmpty

/-- The fields of a link, whose bars may be escaped. -/
def splitFields (uri : Text) : List Text := fieldsOf (if istartsWith uri (of "ed2k://%7C") then
      replaceAll (replaceAll uri (of "%7C") [0x7c]) (of "%7c") [0x7c]
    else uri) 0x7c

def parsePort : Except Text UInt16 :=
  match toInt value with
  | none => .error (of "Bad ED2K port: " ++ value)
  | some port =>
    if port ≤ 0 ∨ port > 65535 then
      .error (of "Bad ED2K port: " ++ value)
    else .ok (UInt16.ofNat port.toNat)

def parseSize : Except Text Int :=
  match toInt value with
  | none => .error (of "Bad ED2K file size: " ++ value)
  | some size =>
    if size ≤ 0 ∨ size ≥ maxFileSize then
      .error (of "Bad ED2K file size: " ++ value)
    else .ok size

/-- Slashes either way become underscores. -/
def sanitizeFileName (name : Text) : Text :=
  name.map fun byte => if byte = 0x2f ∨ byte = 0x5c then 0x5f else byte

def parseHash : Except Text Text :=
  match if value.length = Packet.hashLength * 2 then fromHex value
    else none with
  | none => .error (of "Bad ED2K hash.")
  | some hash => .ok hash

/-- `std::toupper` in the C locale. -/
def toUpper (byte : UInt8) : UInt8 :=
  if 0x61 ≤ byte ∧ byte ≤ 0x7a then byte - 0x20 else byte

/-- The loop variables of the Base32 functions: what was produced, the 32-bit
buffer and how many of its low bits wait. -/
structure Bits where
  result : Text := []
  buffer : Nat := 0
  bits : Nat := 0
deriving DecidableEq, Repr

def decodeDigit (state : Bits) (byte : UInt8) : Except Text Bits :=
  match base32Alphabet.idxOf? (toUpper byte) with
  | none => .error (of "Bad ED2K AICH hash.")
  | some index =>
    let buffer := (state.buffer * 32 + index) % 2 ^ 32
    let bits := state.bits + 5
    if bits ≥ 8 then
      .ok
        { result := state.result ++ [UInt8.ofNat (buffer / 2 ^ (bits - 8) % 256)]
          buffer
          bits := bits - 8 }
    else .ok { state with buffer, bits }

def base32Decode : Except Text Text := (value.foldlM decodeDigit {}).map Bits.result

def base32Digit (value : Nat) : UInt8 := base32Alphabet.getD value 0

/-- The digits that the waiting bits fill, and the bits that are left. -/
def emitDigits (buffer : Nat) : Nat → Text × Nat
  | bits + 5 =>
    (base32Digit (buffer / 2 ^ bits % 32) :: (emitDigits buffer bits).1, (emitDigits buffer bits).2)
  | bits => ([], bits)

def encodeByte (state : Bits) (byte : UInt8) : Bits :=
  let buffer := (state.buffer * 256 + byte.toNat) % 2 ^ 32
  let digits := emitDigits buffer (state.bits + 8)
  { result := state.result ++ digits.1, buffer, bits := digits.2 }

def base32Encode (bytes : Text) : Text :=
  let state := bytes.foldl encodeByte {}
  if state.bits > 0 then
    state.result ++ [base32Digit (state.buffer * 2 ^ (5 - state.bits) % 2 ^ 32 % 32)]
  else state.result

def parseAichHash : Except Text Text := do
  let decoded ← base32Decode value
  if decoded.length ≠ aichHashLength then
    .error (of "Bad ED2K AICH hash.")
  else .ok decoded

def parseCryptOptions : Except Text UInt16 :=
  match toInt value with
  | none => .error (of "Bad ED2K crypt options: " ++ value)
  | some options =>
    if options < 0 ∨ options > 65535 then
      .error (of "Bad ED2K crypt options: " ++ value)
    else .ok (UInt16.ofNat options.toNat)

/-- A source of a file link: host and port, then crypt options, then the user
hash. -/
def parseLinkEndpoint : Except Text Endpoint :=
  match fieldsOf value 0x3a with
  | [host, port] => do
      let port ← parsePort port
      .ok { host := percentDecode host, port }
  | [host, port, options] => do
      let port ← parsePort port
      let cryptOptions ← parseCryptOptions options
      .ok { host := percentDecode host, port, cryptOptions }
  | [host, port, options, userHash] => do
      let port ← parsePort port
      let cryptOptions ← parseCryptOptions options
      let userHash ← parseHash userHash
      .ok { host := percentDecode host, port, cryptOptions, userHash }
  | _ => .error (of "Bad ED2K endpoint: " ++ value)

def endpointToLinkSource (endpoint : Endpoint) : Except Text Text :=
  let value := percentEncode endpoint.host ++ [0x3a] ++
    decimal endpoint.port.toNat
  let value := if endpoint.cryptOptions ≠ 0 ∨ endpoint.userHash ≠ [] then
      value ++ [0x3a] ++ decimal endpoint.cryptOptions.toNat
    else value
  if endpoint.userHash = [] then .ok value
  else if endpoint.userHash.length ≠ Packet.hashLength then
    .error (of "Bad ED2K hash length.")
  else .ok (value ++ [0x3a] ++ toHex endpoint.userHash)

/-- One of the fields after the hash; unknown ones are passed over. -/
def parseFileOption (option : Text) : Except Text Link :=
  if (of "p=").isPrefixOf option then
    match fieldsOf (option.drop 2) 0x3a with
    | [] => .error (of "Bad ED2K part hash list.")
    | hashes => do
        let hashes ← hashes.mapM parseHash
        .ok { link with pieceHashes := link.pieceHashes ++ hashes }
  else if (of "h=").isPrefixOf option then do
    let aichHash ← parseAichHash (option.drop 2)
    .ok { link with aichHash }
  else if (of "sources,").isPrefixOf option then do
    let sources ← (fieldsOf (option.drop 8) 0x2c).mapM parseLinkEndpoint
    .ok { link with sources := link.sources ++ sources }
  else .ok link

def parseFileLink : Except Text Link :=
  match fields with
  | scheme :: kind :: name :: size :: hash :: first :: others =>
    if scheme ≠ of "ed2k://" ∨ kind ≠ of "file" then
      .error (of "Malformed ED2K file link.")
    else do
      let name := sanitizeFileName (percentDecode name)
      let size ← parseSize size
      let hash ← parseHash hash
      if name = [] then
        .error (of "ED2K file link has empty file name.")
      else
        (first :: others).foldlM (fun link option =>
          if option = [0x2f] then .ok link
          else parseFileOption link option) { type := .file, name, size, hash }
  | _ => .error (of "Malformed ED2K file link.")

def parseServerLink : Except Text Link :=
  match fields with
  | [scheme, kind, host, port, last] =>
    if scheme ≠ of "ed2k://" ∨ kind ≠ of "server" ∨
        last ≠ [0x2f] then .error (of "Malformed ED2K server link.")
    else do
      let host := percentDecode host
      let port ← parsePort port
      if host = [] then
        .error (of "ED2K server link has empty host.")
      else .ok { type := .server, server := { host, port } }
  | _ => .error (of "Malformed ED2K server link.")

def parseUrlLink (type : LinkType) (name : Text) : Except Text Link :=
  match fields with
  | [scheme, kind, url, last] =>
    if scheme ≠ of "ed2k://" ∨ kind ≠ name ∨ last ≠ [0x2f] then
      .error (of "Malformed ED2K " ++ name ++ of " link.")
    else
      let url := percentDecode url
      if url = [] then
        .error (of "ED2K " ++ name ++ of " link has empty URL.")
      else .ok { type, url }
  | _ => .error (of "Malformed ED2K " ++ name ++ of " link.")

def parseSearchLink : Except Text Link :=
  match fields with
  | [scheme, kind, name, last] =>
    if scheme ≠ of "ed2k://" ∨ kind ≠ of "search" ∨
        last ≠ [0x2f] then .error (of "Malformed ED2K search link.")
    else
      let name := percentDecode name
      if name = [] then
        .error (of "ED2K search link has empty keyword.")
      else .ok { type := .search, name }
  | _ => .error (of "Malformed ED2K search link.")

def parseLink (uri : Text) : Except Text Link :=
  let fields := splitFields uri
  match fields with
  | scheme :: kind :: _ =>
    if scheme ≠ of "ed2k://" then
      .error (of "Malformed ED2K link.")
    else if kind = of "file" then parseFileLink fields
    else if kind = of "server" then parseServerLink fields
    else if kind = of "serverlist" then
      parseUrlLink fields .serverList (of "serverlist")
    else if kind = of "nodeslist" then
      parseUrlLink fields .nodesList (of "nodeslist")
    else if kind = of "search" then parseSearchLink fields
    else .error (of "Unsupported ED2K link type: " ++ kind)
  | _ => .error (of "Malformed ED2K link.")

def toFileLink : Except Text Text :=
  if link.type ≠ .file then
    .error (of "Only ED2K file links can be serialized.")
  else do
    let uri := of "ed2k://|file|" ++ percentEncode link.name ++ [0x7c] ++
      integerText link.size ++ [0x7c] ++ toHex link.hash ++ [0x7c]
    let uri := if link.pieceHashes = [] then uri
      else uri ++ of "p=" ++ [0x3a].intercalate (link.pieceHashes.map toHex) ++ [0x7c]
    let uri ← if link.aichHash = [] then .ok uri
      else if link.aichHash.length ≠ aichHashLength then
        .error (of "Bad ED2K AICH hash length.")
      else .ok (uri ++ of "h=" ++ base32Encode link.aichHash ++ [0x7c])
    let uri ← if link.sources = [] then .ok uri
      else do
        let sources ← link.sources.mapM endpointToLinkSource
        .ok (uri ++ of "sources," ++ [0x2c].intercalate sources ++ [0x7c])
    .ok (uri ++ [0x2f])

variable {fs : List Text} {s : UInt8} {source sr : Endpoint} {l : Link}

/-- What joined with a separator splits again into the same fields. -/
theorem fieldsOf_intercalate (hn : fs ≠ []) (hfi : ∀ f ∈ fs, f ≠ [] ∧ s ∉ f) :
    fieldsOf ([s].intercalate fs) s = fs := by
  rw [fieldsOf, splitOn_intercalate s (fun f hf => (hfi f hf).2) hn, filter_eq_self]
  intro f hf
  simpa using (hfi f hf).1

section Base32

theorem base32Digit_found : ∀ v < 32, base32Alphabet.idxOf? (toUpper (base32Digit v)) = some v := by
  decide +kernel

theorem base32Digit_unreserved : ∀ v < 32, unreserved (base32Digit v) = true := by
  decide +kernel

/-- The five bytes of a block as its eight digits. -/
def blockDigits (a b c d e : Nat) : List Nat :=
  [a / 8, a % 8 * 4 + b / 64, b / 2 % 32, b % 2 * 16 + c / 16,
    c % 16 * 2 + d / 128, d / 4 % 32, d % 4 * 8 + e / 32, e % 32]

theorem blockDigits_lt {a b c d e : Nat} (ha : a < 256) (hb : b < 256) (hc : c < 256)
    (hd : d < 256) (he : e < 256) : ∀ di ∈ blockDigits a b c d e, di < 32 := by
  intro di hdi
  simp only [blockDigits, mem_cons, not_mem_nil, or_false] at hdi
  omega

/-- A block leaves no bits waiting, whatever stood in the buffer before. -/
theorem encodeBlock (s : Bits) (hbi : s.bits = 0) (a b c d e : UInt8) :
    ∃ buffer, [a, b, c, d, e].foldl encodeByte s =
      { result := s.result ++ (blockDigits a.toNat b.toNat c.toNat d.toNat e.toNat).map base32Digit
        buffer
        bits := 0 } := by
  have ha := a.toNat_lt
  have hb := b.toNat_lt
  have hc := c.toNat_lt
  have hd := d.toNat_lt
  have he := e.toNat_lt
  -- the buffer after each byte, of which only the last two bytes matter
  generalize h1 : (s.buffer * 256 + a.toNat) % 2 ^ 32 = first
  generalize h2 : (first * 256 + b.toNat) % 2 ^ 32 = second
  generalize h3 : (second * 256 + c.toNat) % 2 ^ 32 = third
  generalize h4 : (third * 256 + d.toNat) % 2 ^ 32 = fourth
  generalize h5 : (fourth * 256 + e.toNat) % 2 ^ 32 = fifth
  have hfi : first % 256 = a.toNat := by omega
  have hs : second % 256 = b.toNat := by omega
  have ht : third % 256 = c.toNat := by omega
  have hf : fourth % 256 = d.toNat := by omega
  have d0 : first / 2 ^ 3 % 32 = a.toNat / 8 := by omega
  have d1 : second / 2 ^ 6 % 32 = a.toNat % 8 * 4 + b.toNat / 64 := by omega
  have d2 : second / 2 ^ 1 % 32 = b.toNat / 2 % 32 := by omega
  have d3 : third / 2 ^ 4 % 32 = b.toNat % 2 * 16 + c.toNat / 16 := by omega
  have d4 : fourth / 2 ^ 7 % 32 = c.toNat % 16 * 2 + d.toNat / 128 := by omega
  have d5 : fourth / 2 ^ 2 % 32 = d.toNat / 4 % 32 := by omega
  have d6 : fifth / 2 ^ 5 % 32 = d.toNat % 4 * 8 + e.toNat / 32 := by omega
  have d7 : fifth / 2 ^ 0 % 32 = e.toNat % 32 := by omega
  refine ⟨fifth, ?_⟩
  simp only [foldl_cons, foldl_nil, encodeByte, hbi, Nat.zero_add,
    h1, h2, h3, h4, h5, emitDigits, Nat.reduceAdd, d0, d1, d2, d3, d4, d5, d6,
    d7, blockDigits, map_cons, map_nil, append_assoc, cons_append, nil_append]

theorem ok_bind {A B : Type} (v : A) (f : A → Except Text B) : (.ok v >>= f) = f v := rfl

theorem decodeDigit_base32Digit (s : Bits) {v : Nat} (hv : v < 32) :
    decodeDigit s (base32Digit v) = let buffer := (s.buffer * 32 + v) % 2 ^ 32
      if s.bits + 5 ≥ 8 then
        .ok
          { result := s.result ++ [UInt8.ofNat (buffer / 2 ^ (s.bits + 5 - 8) % 256)],
            buffer, bits := s.bits + 5 - 8 }
      else .ok { s with buffer, bits := s.bits + 5 } := by
  rw [decodeDigit, base32Digit_found v hv]

/-- The digits of a block are its bytes again. -/
theorem decodeBlock (s : Bits) (hbi : s.bits = 0) (a b c d e : UInt8) :
    ∃ buffer, ((blockDigits a.toNat b.toNat c.toNat d.toNat e.toNat).map
        base32Digit).foldlM decodeDigit s =
      .ok { result := s.result ++ [a, b, c, d, e], buffer, bits := 0 } := by
  have ha := a.toNat_lt
  have hb := b.toNat_lt
  have hc := c.toNat_lt
  have hd := d.toNat_lt
  have he := e.toNat_lt
  have hdi := blockDigits_lt ha hb hc hd he
  simp only [blockDigits, forall_mem_cons, not_mem_nil,
    false_implies, implies_true, and_true] at hdi
  obtain ⟨l0, l1, l2, l3, l4, l5, l6, l7⟩ := hdi
  simp only [blockDigits, map_cons, map_nil]
  generalize h0 : a.toNat / 8 = d0 at l0 ⊢
  generalize h1 : a.toNat % 8 * 4 + b.toNat / 64 = d1 at l1 ⊢
  generalize h2 : b.toNat / 2 % 32 = d2 at l2 ⊢
  generalize h3 : b.toNat % 2 * 16 + c.toNat / 16 = d3 at l3 ⊢
  generalize h4 : c.toNat % 16 * 2 + d.toNat / 128 = d4 at l4 ⊢
  generalize h5 : d.toNat / 4 % 32 = d5 at l5 ⊢
  generalize h6 : d.toNat % 4 * 8 + e.toNat / 32 = d6 at l6 ⊢
  generalize h7 : e.toNat % 32 = d7 at l7 ⊢
  generalize b0 : (s.buffer * 32 + d0) % 2 ^ 32 = buffer0
  generalize b1 : (buffer0 * 32 + d1) % 2 ^ 32 = buffer1
  generalize b2 : (buffer1 * 32 + d2) % 2 ^ 32 = buffer2
  generalize b3 : (buffer2 * 32 + d3) % 2 ^ 32 = buffer3
  generalize b4 : (buffer3 * 32 + d4) % 2 ^ 32 = buffer4
  generalize b5 : (buffer4 * 32 + d5) % 2 ^ 32 = buffer5
  generalize b6 : (buffer5 * 32 + d6) % 2 ^ 32 = buffer6
  generalize b7 : (buffer6 * 32 + d7) % 2 ^ 32 = buffer7
  have w1 : buffer1 % 1024 = d0 * 32 + d1 := by omega
  have w2 : buffer2 % 1024 = d1 * 32 + d2 := by omega
  have w3 : buffer3 % 1024 = d2 * 32 + d3 := by omega
  have w5 : buffer5 % 1024 = d4 * 32 + d5 := by omega
  have oa : buffer1 / 2 ^ 2 % 256 = a.toNat := by omega
  have ob : buffer3 / 2 ^ 4 % 256 = b.toNat := by omega
  have oc : buffer4 / 2 ^ 1 % 256 = c.toNat := by omega
  have od : buffer6 / 2 ^ 3 % 256 = d.toNat := by omega
  have oe : buffer7 / 2 ^ 0 % 256 = e.toNat := by omega
  refine ⟨buffer7, ?_⟩
  simp only [foldlM_cons, foldlM_nil, decodeDigit_base32Digit _ l0, decodeDigit_base32Digit _ l1,
    decodeDigit_base32Digit _ l2, decodeDigit_base32Digit _ l3,
    decodeDigit_base32Digit _ l4, decodeDigit_base32Digit _ l5,
    decodeDigit_base32Digit _ l6, decodeDigit_base32Digit _ l7, hbi, b0, b1,
    b2, b3, b4, b5, b6, b7, Nat.zero_add, Nat.reduceAdd, Nat.reduceSub,
    Nat.reduceLeDiff, ge_iff_le, ↓reduceIte, ok_bind, oa, ob, oc, od,
    oe, UInt8.ofNat_toNat, append_assoc, cons_append, nil_append]
  rfl

/-- Whole blocks come back, from any state in which no bits wait. -/
theorem base32_blocks (n : Nat) : ∀ bs : Text, bs.length = 5 * n → ∀ s : Bits,
      s.bits = 0 → ∃ ds buffer, bs.foldl encodeByte s =
            { result := s.result ++ ds, buffer, bits := 0 } ∧ (∀ di ∈ ds, unreserved di = true) ∧
          ∀ t : Bits, t.bits = 0 → ∃ r, ds.foldlM decodeDigit t =
              .ok { result := t.result ++ bs, buffer := r, bits := 0 } := by
  induction n with
  | zero =>
    intro bs hl s hs
    rw [length_eq_zero_iff.mp hl]
    refine ⟨[], s.buffer, ?_, by simp, ?_⟩
    · rw [← hs, append_nil]
      rfl
    · intro t ht
      refine ⟨t.buffer, ?_⟩
      rw [← ht, append_nil]
      rfl
  | succ n ih =>
    intro bs hl s hs
    match bs, hl with
    | a :: b :: c :: d :: e :: r, hl =>
      have hr : r.length = 5 * n := by
        simp only [length_cons] at hl
        omega
      obtain ⟨buffer, hb⟩ := encodeBlock s hs a b c d e
      obtain ⟨ds, last, he, hp, hde⟩ := ih r hr
        { result := s.result ++ (blockDigits a.toNat b.toNat c.toNat
            d.toNat e.toNat).map base32Digit
          buffer
          bits := 0 } rfl
      refine ⟨(blockDigits a.toNat b.toNat c.toNat d.toNat e.toNat).map
        base32Digit ++ ds, last, ?_, ?_, ?_⟩
      · have hsp : a :: b :: c :: d :: e :: r = [a, b, c, d, e] ++ r := rfl
        rw [hsp, foldl_append, hb, he, append_assoc]
      · intro di hdi
        rcases mem_append.mp hdi with hf | hla
        · obtain ⟨v, hv, rfl⟩ := mem_map.mp hf
          exact base32Digit_unreserved v (blockDigits_lt a.toNat_lt
            b.toNat_lt c.toNat_lt d.toNat_lt e.toNat_lt v hv)
        · exact hp di hla
      · intro t ht
        obtain ⟨m, hf⟩ := decodeBlock t ht a b c d e
        obtain ⟨final, hla⟩ := hde
          { result := t.result ++ [a, b, c, d, e], buffer := m, bits := 0 } rfl
        refine ⟨final, ?_⟩
        rw [foldlM_append, hf]
        change ds.foldlM decodeDigit _ = _
        rw [hla, append_assoc]
        rfl

/-- An AICH hash survives its Base32 form. -/
theorem parseAichHash_base32Encode {hash : Text} (hh : hash.length = aichHashLength) :
    parseAichHash (base32Encode hash) = .ok hash ∧
      ∀ d ∈ base32Encode hash, unreserved d = true := by
  obtain ⟨ds, buffer, he, hp, hde⟩ := base32_blocks 4 hash hh {} rfl
  obtain ⟨r, hb⟩ := hde {} rfl
  have ht : base32Encode hash = ds := by
    rw [base32Encode, he]
    rfl
  rw [ht]
  refine ⟨?_, hp⟩
  have hba : base32Decode ds = .ok hash := by
    rw [base32Decode, hb]
    rfl
  rw [parseAichHash, hba]
  change (if hash.length ≠ aichHashLength then _ else Except.ok hash) = _
  rw [if_neg (not_not.mpr hh)]

end Base32

/-- A text of unreserved bytes and escapes, which holds no separator. -/
def Plain (text : Text) : Prop := text ≠ [] ∧ ∀ byte ∈ text, unreserved byte = true ∨ byte = 0x25

theorem Plain.notMem {t : Text} (hp : Plain t) (hr : unreserved s = false) (he : s ≠ 0x25) :
    s ∉ t := by
  intro hm
  rcases hp.2 s hm with hk | hs
  · rw [hr] at hk
    contradiction
  · exact he hs

theorem plain_percentEncode {v : Text} (hv : v ≠ []) : Plain (percentEncode v) :=
  ⟨percentEncode_ne_nil hv, fun _ hb => mem_percentEncode hb⟩

theorem plain_decimal (n : Nat) : Plain (decimal n) :=
  ⟨decimal_ne_nil n, fun _ hb => .inl (mem_decimal hb)⟩

theorem plain_toHex {bs : Text} (hl : bs.length = Packet.hashLength) : Plain (toHex bs) := by
  refine ⟨?_, fun _ hb => .inl (mem_toHex hb)⟩
  apply ne_nil_of_length_pos
  rw [length_toHex, hl]
  decide

theorem mem_intercalate {b : UInt8} (hb : b ∈ [s].intercalate fs) : b = s ∨ ∃ f ∈ fs, b ∈ f := by
  induction fs with
  | nil => simp at hb
  | cons f r ih =>
    cases r with
    | nil =>
      rw [intercalate_singleton] at hb
      exact .inr ⟨f, mem_singleton_self f, hb⟩
    | cons ot o =>
      rw [intercalate_cons_cons, mem_append, mem_append, mem_singleton] at hb
      rcases hb with (hf | hs) | hr
      · exact .inr ⟨f, mem_cons_self, hf⟩
      · exact .inl hs
      · rcases ih hr with hs | ⟨found, hfo, hm⟩
        · exact .inl hs
        · exact .inr ⟨found, mem_cons_of_mem _ hfo, hm⟩

/-- Plain fields joined by one separator hold no other. -/
theorem notMem_intercalate {o : UInt8} (hf : ∀ f ∈ fs, Plain f) (hr : unreserved o = false)
    (he : o ≠ 0x25) (hn : o ≠ s) : o ∉ [s].intercalate fs := by
  intro hm
  rcases mem_intercalate hm with hs | ⟨f, hfi, hb⟩
  · exact hn hs
  · exact (hf f hfi).notMem hr he hb

theorem intercalate_ne_nil {f : Text} (hf : f ≠ []) (r : List Text) :
    [s].intercalate (f :: r) ≠ [] := by
  rw [intercalate_cons]
  exact append_ne_nil_of_left_ne_nil hf _

theorem fieldsOf_plain (hn : fs ≠ []) (hf : ∀ f ∈ fs, Plain f) (hr : unreserved s = false)
    (he : s ≠ 0x25) : fieldsOf ([s].intercalate fs) s = fs := fieldsOf_intercalate hn fun f hfi =>
    ⟨(hf f hfi).1, (hf f hfi).notMem hr he⟩

theorem parsePort_decimal {p : UInt16} (hp : p ≠ 0) : parsePort (decimal p.toNat) = .ok p := by
  have hl := p.toNat_lt
  have hpo : p.toNat ≠ 0 := fun hz =>
    hp (UInt16.toNat_inj.mp (by simpa using hz))
  rw [parsePort, toInt_decimal (by rw [int64Max]; omega)]
  dsimp only
  rw [if_neg (by omega), Int.toNat_natCast, UInt16.ofNat_toNat]

theorem parseCryptOptions_decimal (os : UInt16) :
    parseCryptOptions (decimal os.toNat) = .ok os := by
  have hl := os.toNat_lt
  rw [parseCryptOptions, toInt_decimal (by rw [int64Max]; omega)]
  dsimp only
  rw [if_neg (by omega), Int.toNat_natCast, UInt16.ofNat_toNat]

theorem parseHash_toHex {hash : Text} (hh : hash.length = Packet.hashLength) :
    parseHash (toHex hash) = .ok hash := by
  have hl : (toHex hash).length = Packet.hashLength * 2 := by
    rw [length_toHex, hh, Nat.mul_comm]
  rw [parseHash, if_pos hl, fromHex_toHex]

theorem parseSize_integerText {s : Int} (hs : 0 < s ∧ s < maxFileSize) :
    parseSize (integerText s) = .ok s ∧ Plain (integerText s) := by
  have ht : integerText s = decimal s.toNat := by
    rw [integerText, if_neg (by omega)]
    congr 1
    omega
  have hm : maxFileSize = 274877906944 := rfl
  rw [ht]
  refine ⟨?_, plain_decimal _⟩
  rw [parseSize, toInt_decimal (by rw [int64Max]; omega)]
  dsimp only
  rw [if_neg (by omega), Int.toNat_of_nonneg hs.1.le]

/-- A source that a link can carry. -/
structure Carried (source : Endpoint) : Prop where
  host : source.host ≠ []
  port : source.port ≠ 0
  userHash : source.userHash = [] ∨ source.userHash.length = Packet.hashLength

/-- The fields of a source. -/
def sourceFields (source : Endpoint) : List Text :=
  percentEncode source.host :: decimal source.port.toNat ::
    (if source.cryptOptions ≠ 0 ∨ source.userHash ≠ [] then
      decimal source.cryptOptions.toNat ::
        (if source.userHash = [] then [] else [toHex source.userHash])
    else [])

theorem sourceFields_plain (hc : Carried sr) : ∀ f ∈ sourceFields sr, Plain f := by
  have hho := plain_percentEncode hc.host
  intro f hf
  rcases mem_cons.mp hf with rfl | hf
  · exact hho
  rcases mem_cons.mp hf with rfl | hf
  · exact plain_decimal _
  split_ifs at hf with ho hh
  · rw [mem_singleton.mp hf]
    exact plain_decimal _
  · rcases mem_cons.mp hf with rfl | hf
    · exact plain_decimal _
    · rw [mem_singleton.mp hf]
      exact plain_toHex (hc.userHash.resolve_left hh)
  · simp at hf

theorem endpointToLinkSource_eq (hc : Carried sr) :
    endpointToLinkSource sr = .ok ([0x3a].intercalate (sourceFields sr)) := by
  rw [endpointToLinkSource, sourceFields]
  by_cases hh : sr.userHash = []
  · by_cases ho : sr.cryptOptions = 0
    · simp [hh, ho, intercalate_cons_cons]
    · simp [hh, ho, intercalate_cons_cons]
  · have hl := hc.userHash.resolve_left hh
    simp [hh, hl, intercalate_cons_cons]

theorem parseLinkEndpoint_sourceFields (hc : Carried sr) :
    parseLinkEndpoint ([0x3a].intercalate (sourceFields sr)) = .ok sr := by
  obtain ⟨host, port, cryptOptions, u⟩ := sr
  have hf : fieldsOf ([0x3a].intercalate (sourceFields ⟨host, port, cryptOptions, u⟩)) 0x3a =
      sourceFields ⟨host, port, cryptOptions, u⟩ :=
    fieldsOf_plain (by simp [sourceFields]) (sourceFields_plain hc) (by decide) (by decide)
  have hp : parsePort (decimal port.toNat) = .ok port := parsePort_decimal hc.port
  rw [parseLinkEndpoint, hf, sourceFields]
  by_cases hh : u = []
  · by_cases ho : cryptOptions = 0
    · simp only [hh, ho, ne_eq, not_true_eq_false, or_self,
        ↓reduceIte, hp, ok_bind, percentDecode_percentEncode]
    · simp only [hh, ho, ne_eq, not_false_eq_true, true_or,
        ↓reduceIte, hp, ok_bind, percentDecode_percentEncode, parseCryptOptions_decimal]
  · have hl : u.length = Packet.hashLength := hc.userHash.resolve_left hh
    simp only [hh, ne_eq, not_false_eq_true, or_true, ↓reduceIte, hp,
      ok_bind, percentDecode_percentEncode, parseCryptOptions_decimal, parseHash_toHex hl]

/-- A parser that takes each text back takes the list back. -/
theorem mapM_ok {A : Type} {p : Text → Except Text A} {w : A → Text} {vs : List A}
    (hb : ∀ v ∈ vs, p (w v) = .ok v) : (vs.map w).mapM p = .ok vs := by
  induction vs with
  | nil => rfl
  | cons v r ih =>
    obtain ⟨hv, hr⟩ := forall_mem_cons.mp hb
    rw [map_cons, mapM_cons, hv, ih hr]
    rfl

/-- A file link that can be written: a name without slashes, a size of the
network, whole hashes and sources with a host and a port. -/
structure Writable (link : Link) : Prop where
  type : link.type = .file
  name : link.name ≠ []
  unslashed : ∀ byte ∈ link.name, byte ≠ 0x2f ∧ byte ≠ 0x5c
  size : 0 < link.size ∧ link.size < maxFileSize
  hash : link.hash.length = Packet.hashLength
  pieceHashes : ∀ hash ∈ link.pieceHashes, hash.length = Packet.hashLength
  aichHash : link.aichHash = [] ∨ link.aichHash.length = aichHashLength
  sources : ∀ source ∈ link.sources, Carried source
  server : link.server = {}
  url : link.url = []

/-- The field of the part hashes, if there are any. -/
def pieceField : List Text :=
  if link.pieceHashes = [] then []
  else [of "p=" ++ [0x3a].intercalate (link.pieceHashes.map toHex)]

def aichField : List Text :=
  if link.aichHash = [] then []
  else [of "h=" ++ base32Encode link.aichHash]

def sourcesField : List Text :=
  if link.sources = [] then []
  else [of "sources," ++ [0x2c].intercalate (link.sources.map
    fun source => [0x3a].intercalate (sourceFields source))]

def optionFields : List Text :=
  pieceField link ++ aichField link ++ sourcesField link ++ [[0x2f]]

def linkFields : List Text :=
  [of "ed2k://", of "file", percentEncode link.name,
    integerText link.size, toHex link.hash] ++ optionFields link

/-- A separator after every field but the last. -/
theorem intercalate_append_singleton (s : UInt8) (fs : List Text) (l : Text) :
    [s].intercalate (fs ++ [l]) = fs.flatMap (· ++ [s]) ++ l := by
  induction fs with
  | nil => simp
  | cons f r ih =>
    rw [flatMap_cons, append_assoc, ← ih]
    cases hr : r ++ [l] with
    | nil => simp at hr
    | cons next o =>
      rw [cons_append, hr, intercalate_cons_cons]

theorem of_file : of "ed2k://|file|" = of "ed2k://" ++ [0x7c] ++ of "file" ++ [0x7c] := by
  simp only [of_eq]
  rfl

theorem toFileLink_eq (hl : Writable l) :
    toFileLink l = .ok ([0x7c].intercalate (linkFields l)) := by
  have hp : ∀ uri : Text, (if l.pieceHashes = [] then uri
      else uri ++ of "p=" ++ [0x3a].intercalate (l.pieceHashes.map toHex) ++ [0x7c]) =
      uri ++ (pieceField l).flatMap (· ++ [0x7c]) := by
    intro uri
    rw [pieceField]
    split_ifs <;> simp
  have hai : ∀ (uri : Text) (next : Text → Except Text Text),
      (if l.aichHash = [] then .ok uri >>= next
      else if l.aichHash.length ≠ aichHashLength then
        .error (of "Bad ED2K AICH hash length.") >>= next
      else .ok (uri ++ of "h=" ++ base32Encode l.aichHash ++ [0x7c]) >>= next) =
      next (uri ++ (aichField l).flatMap (· ++ [0x7c])) := by
    intro uri next
    rw [aichField]
    by_cases hn : l.aichHash = []
    · simp [hn, ok_bind]
    · simp [hn, hl.aichHash.resolve_left hn, ok_bind]
  have hw : l.sources.mapM endpointToLinkSource = .ok (l.sources.map fun sr =>
        [0x3a].intercalate (sourceFields sr)) := by
    have ha := hl.sources
    generalize l.sources = sources at ha
    induction sources with
    | nil => rfl
    | cons sr rest ih =>
      obtain ⟨hso, hr⟩ := forall_mem_cons.mp ha
      rw [mapM_cons, endpointToLinkSource_eq hso, ih hr]
      rfl
  have hs : ∀ (uri : Text) (next : Text → Except Text Text),
      (if l.sources = [] then .ok uri >>= next
      else do
        let sources ← l.sources.mapM endpointToLinkSource
        .ok (uri ++ of "sources," ++ [0x2c].intercalate sources ++ [0x7c]) >>= next) =
      next (uri ++ (sourcesField l).flatMap (· ++ [0x7c])) := by
    intro uri next
    rw [sourcesField, hw]
    split_ifs <;> simp [ok_bind]
  rw [toFileLink, if_neg (not_not.mpr hl.type), of_file]
  dsimp only
  rw [hp, hai, hs, linkFields, optionFields, ← append_assoc, intercalate_append_singleton]
  simp only [flatMap_append, flatMap_cons, flatMap_nil, append_assoc, nil_append]

/-- The fields of a link hold no bar and none is empty. -/
theorem linkFields_split (hl : Writable l) : ∀ f ∈ linkFields l, f ≠ [] ∧ 0x7c ∉ f := by
  have hpl : ∀ {f : Text}, Plain f → f ≠ [] ∧ 0x7c ∉ f :=
    fun hf => ⟨hf.1, hf.notMem (by decide) (by decide)⟩
  have hj : ∀ {s : String} {r : Text}, s.toUTF8.data.toList ≠ [] → 0x7c ∉ s.toUTF8.data.toList →
      0x7c ∉ r → of s ++ r ≠ [] ∧ 0x7c ∉ of s ++ r := by
    intro s r hne hst hr
    rw [of_eq, mem_append, not_or]
    exact ⟨append_ne_nil_of_left_ne_nil hne _, hst, hr⟩
  intro f hf
  simp only [linkFields, optionFields, cons_append, nil_append,
    mem_cons, mem_append, not_mem_nil, or_false] at hf
  rcases hf with rfl | rfl | rfl | rfl | rfl | ((hp | ha) | hs) | rfl
  · rw [of_eq]
    decide
  · rw [of_eq]
    decide
  · exact hpl (plain_percentEncode hl.name)
  · exact hpl (parseSize_integerText hl.size).2
  · exact hpl (plain_toHex hl.hash)
  · rw [pieceField] at hp
    split_ifs at hp
    · simp at hp
    · rw [mem_singleton.mp hp]
      refine hj (by decide) (by decide)
        (notMem_intercalate ?_ (by decide) (by decide) (by decide))
      intro text ht
      obtain ⟨hash, hh, rfl⟩ := mem_map.mp ht
      exact plain_toHex (hl.pieceHashes hash hh)
  · rw [aichField] at ha
    split_ifs at ha with hn
    · simp at ha
    · rw [mem_singleton.mp ha]
      refine hj (by decide) (by decide) ?_
      intro hm
      have hk := (parseAichHash_base32Encode (hl.aichHash.resolve_left hn)).2 _ hm
      exact absurd hk (by decide)
  · rw [sourcesField] at hs
    split_ifs at hs
    · simp at hs
    · rw [mem_singleton.mp hs]
      refine hj (by decide) (by decide) ?_
      intro hm
      rcases mem_intercalate hm with hsa | ⟨text, ht, hb⟩
      · exact absurd hsa (by decide)
      · obtain ⟨sr, hso, rfl⟩ := mem_map.mp ht
        exact notMem_intercalate (sourceFields_plain
          (hl.sources sr hso)) (by decide) (by decide) (by decide) hb
  · decide

/-- The bar of a written link is not escaped, so it is split as it is. -/
theorem splitFields_linkFields (hli : Writable l) :
    splitFields ([0x7c].intercalate (linkFields l)) = linkFields l := by
  have hs : ∃ r, [0x7c].intercalate (linkFields l) = of "ed2k://|file|" ++ r := by
    rw [of_file, linkFields, cons_append, cons_append,
      cons_append, intercalate_cons_cons, intercalate_cons_cons]
    exact ⟨_, by simp only [append_assoc]; rfl⟩
  have hp : istartsWith ([0x7c].intercalate (linkFields l)) (of "ed2k://%7C") = false := by
    obtain ⟨r, hr⟩ := hs
    have hl : (of "ed2k://%7C").length ≤ (of "ed2k://|file|").length := by
      simp only [of_eq]
      decide
    have hdi : iequals ((of "ed2k://|file|").take
        (of "ed2k://%7C").length) (of "ed2k://%7C") = false := by
      simp only [of_eq]
      decide
    rw [istartsWith, hr, take_append_of_le_length hl, hdi, Bool.and_false]
  rw [splitFields, hp]
  exact fieldsOf_intercalate (by simp [linkFields]) (linkFields_split hli)

/-- Reads an option, unless the field is the slash at the end. -/
def readOption (option : Text) : Except Text Link :=
  if option = [0x2f] then .ok link else parseFileOption link option

theorem foldlM_singleton (t : Link) (o : Text) : [o].foldlM readOption t = readOption t o := by
  exact bind_pure _

theorem readOption_pieceField (hli : Writable l) (t : Link) : (pieceField l).foldlM readOption t =
      .ok { t with pieceHashes := t.pieceHashes ++ l.pieceHashes } := by
  rw [pieceField]
  by_cases hn : l.pieceHashes = []
  · rw [hn, append_nil]
    rfl
  · have hl : of "p=" = [0x70, 0x3d] := Text.of_eq _
    have hf : fieldsOf ([0x3a].intercalate (l.pieceHashes.map toHex))
        0x3a = l.pieceHashes.map toHex := by
      refine fieldsOf_plain (by simpa using hn) ?_ (by decide) (by decide)
      intro te ht
      obtain ⟨hash, hh, rfl⟩ := mem_map.mp ht
      exact plain_toHex (hli.pieceHashes hash hh)
    have hb : (l.pieceHashes.map toHex).mapM parseHash = .ok l.pieceHashes :=
      mapM_ok fun hash hh => parseHash_toHex (hli.pieceHashes hash hh)
    rw [if_neg hn, foldlM_singleton, readOption, if_neg (by rw [hl]; simp), parseFileOption,
      if_pos (by simp), drop_left' (by rw [hl]; rfl), hf]
    cases hp : l.pieceHashes with
    | nil => exact absurd hp hn
    | cons first r =>
      rw [hp] at hb
      rw [map_cons] at hb ⊢
      dsimp only
      rw [hb]
      rfl

theorem readOption_aichField (hli : Writable l) {t : Link} (ht : t.aichHash = []) :
    (aichField l).foldlM readOption t = .ok { t with aichHash := l.aichHash } := by
  rw [aichField]
  by_cases hn : l.aichHash = []
  · rw [if_pos hn, hn, ← ht]
    rfl
  · have hl : of "h=" = [0x68, 0x3d] := Text.of_eq _
    have ho : of "p=" = [0x70, 0x3d] := Text.of_eq _
    have hb := (parseAichHash_base32Encode (hli.aichHash.resolve_left hn)).1
    rw [if_neg hn, foldlM_singleton, readOption, if_neg (by rw [hl]; simp), parseFileOption,
      if_neg (by rw [ho, hl]; simp), if_pos (by simp), drop_left' (by rw [hl]; rfl), hb]
    rfl

theorem readOption_sourcesField (hli : Writable l) (t : Link) :
    (sourcesField l).foldlM readOption t = .ok { t with sources := t.sources ++ l.sources } := by
  rw [sourcesField]
  by_cases hn : l.sources = []
  · rw [hn, append_nil]
    rfl
  · have hl : of "sources," = [0x73, 0x6f, 0x75, 0x72, 0x63, 0x65, 0x73, 0x2c] := Text.of_eq _
    have hp : of "p=" = [0x70, 0x3d] := Text.of_eq _
    have ha : of "h=" = [0x68, 0x3d] := Text.of_eq _
    have hf : fieldsOf ([0x2c].intercalate (l.sources.map
        fun s => [0x3a].intercalate (sourceFields s))) 0x2c = l.sources.map fun s =>
          [0x3a].intercalate (sourceFields s) := by
      refine fieldsOf_intercalate (by simpa using hn) ?_
      intro te ht
      obtain ⟨s, hs, rfl⟩ := mem_map.mp ht
      have hc := hli.sources s hs
      refine ⟨?_, notMem_intercalate (sourceFields_plain hc) (by decide) (by decide) (by decide)⟩
      exact intercalate_ne_nil (plain_percentEncode hc.host).1 _
    have hb : (l.sources.map fun s =>
        [0x3a].intercalate (sourceFields s)).mapM parseLinkEndpoint =
        .ok l.sources :=
      mapM_ok fun s hs =>
        parseLinkEndpoint_sourceFields (hli.sources s hs)
    rw [if_neg hn, foldlM_singleton, readOption, if_neg (by rw [hl]; simp), parseFileOption,
      if_neg (by rw [hp, hl]; simp), if_neg (by rw [ha, hl]; simp), if_pos (by simp),
      drop_left' (by rw [hl]; rfl), hf, hb]
    rfl

theorem parseFileLink_eq (s k name size hash first : Text) (o : List Text) :
    parseFileLink (s :: k :: name :: size :: hash :: first :: o) =
      if s ≠ of "ed2k://" ∨ k ≠ of "file" then
        .error (of "Malformed ED2K file link.")
      else (do
        let size ← parseSize size
        let hash ← parseHash hash
        if sanitizeFileName (percentDecode name) = [] then
          .error (of "ED2K file link has empty file name.")
        else
          (first :: o).foldlM readOption
            { type := .file, name := sanitizeFileName (percentDecode name), size, hash }) := rfl

/-- Whatever the name, the hosts and the hashes are, a file link is read back
as it was written. -/
theorem parseLink_toFileLink (link : Link) (hlink : Writable link) :
    (toFileLink link >>= parseLink) = .ok link := by
  have hname : sanitizeFileName (percentDecode (percentEncode link.name)) = link.name := by
    rw [percentDecode_percentEncode]
    apply Eq.trans _ (map_id link.name)
    apply map_congr_left
    intro byte hbyte
    obtain ⟨hslash, hback⟩ := hlink.unslashed byte hbyte
    rw [if_neg (by simp [hslash, hback])]
    rfl
  have hoptions : ∀ target : Link, target.aichHash = [] →
      (optionFields link).foldlM readOption target = .ok { target with
          pieceHashes := target.pieceHashes ++ link.pieceHashes
          aichHash := link.aichHash
          sources := target.sources ++ link.sources } := by
    intro target htarget
    rw [optionFields, foldlM_append, foldlM_append,
      foldlM_append, readOption_pieceField hlink, ok_bind,
      readOption_aichField hlink (by exact htarget), ok_bind,
      readOption_sourcesField hlink, ok_bind, foldlM_singleton, readOption, if_pos rfl]
  rw [toFileLink_eq hlink, ok_bind, parseLink, splitFields_linkFields hlink, linkFields]
  cases hfields : optionFields link with
  | nil => simp [optionFields] at hfields
  | cons first others =>
    rw [hfields] at hoptions
    dsimp only [cons_append, nil_append]
    rw [if_neg (not_not.mpr rfl), if_pos rfl, parseFileLink_eq,
      if_neg (by simp), (parseSize_integerText hlink.size).1, ok_bind,
      parseHash_toHex hlink.hash, ok_bind, hname, if_neg hlink.name, hoptions _ rfl]
    obtain ⟨type, name, size, hash, pieces, aich, sources, server, url⟩ := link
    have htype : type = .file := hlink.type
    have hserver : server = {} := hlink.server
    have hurl : url = [] := hlink.url
    subst htype hserver hurl
    rfl

/-- A name and a host of separators, escapes and a control character. -/
theorem parseLink_toFileLink_separators : let link : Link :=
      { name := [0x7c, 0x3a, 0x2c, 0x25, 0x00], size := 1
        hash := List.replicate 16 0xff
        pieceHashes := [List.replicate 16 0, List.replicate 16 1]
        aichHash := List.replicate 20 0x5a
        sources := [{ host := [0x3a, 0x2c, 0x7c], port := 1, userHash := List.replicate 16 7 }] }
    (toFileLink link >>= parseLink) = .ok link := by
  intro link
  apply parseLink_toFileLink link
  exact
    { type := rfl
      name := by decide
      unslashed := by decide +kernel
      size := by decide
      hash := by decide
      pieceHashes := by decide
      aichHash := .inr (by decide)
      sources := by
        intro source hsource
        rw [mem_singleton.mp hsource]
        exact ⟨by decide, by decide, .inr (by decide)⟩
      server := rfl
      url := rfl }

end Link

end Aria2Next
