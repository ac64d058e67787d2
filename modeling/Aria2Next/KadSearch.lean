/-
`ed2k/KadSearch` and the source index of `ed2k/KadRouting`: other clients
publish themselves as sources of a file, and whoever asks for the file is told
of them.

An entry is read with every type of tag and written with two of them, so an
entry with any other tag, or with one tag more than a byte can count, makes
every answer that holds it throw.

The host of a source is written from its address, so here the address stands
for it.
-/
import Aria2Next.Packet
import Aria2Next.Runs

namespace Aria2Next

open Packet Reader List

structure KadSearchEntry where
  id : Text
  tags : List Tag
deriving DecidableEq, Repr

/-- The tags are read once for their size and once for their values. -/
def readKadSearchEntry : Reader UInt8 KadSearchEntry := do
  let id ← readBytes hashLength
  let tagCount ← readByte
  let tagPayload ← times (raw readTag) tagCount.toNat
  match parseTagList (packUInt32 tagCount.toUInt32 ++ tagPayload.flatten) with
  | some tags => pure { id, tags }
  | none => failure

def packTag (tag : Tag) : Except String Text :=
  if tag.valueType = .string then .ok (createStringTag tag.id tag.stringValue)
  else if tag.valueType = .uint then
    if tag.intValue > 0xffffffff then .ok (createUInt64Tag tag.id tag.intValue)
    else .ok (createUInt32Tag tag.id tag.intValue.toUInt32)
  else .error "Unsupported Kad search tag."

variable (entry : KadSearchEntry)

def packKadSearchEntry : Except String Text :=
  if entry.id.length ≠ hashLength then .error "Bad ED2K hash length."
  else if entry.tags.length > 255 then .error "Too many Kad search tags."
  else concat (.ok entry.id :: .ok [UInt8.ofNat entry.tags.length] :: entry.tags.map packTag)

structure KadSearchSourcesRequest where
  targetId : Text
  startPosition : UInt16
  size : UInt64
deriving DecidableEq, Repr

def parseKadSearchSourcesRequestPayload (payload : Text) : Option KadSearchSourcesRequest :=
  if payload.length ≠ hashLength + 10 then none
  else
    whole (do
      let targetId ← readBytes hashLength
      let startPosition ← uint16
      let size ← uint64
      pure { targetId, startPosition, size }) payload

structure KadSearchResult where
  sourceId : Text
  targetId : Text
  entries : List KadSearchEntry
deriving DecidableEq, Repr

def readKadSearchResult : Reader UInt8 KadSearchResult := do
  let sourceId ← readBytes hashLength
  let targetId ← readBytes hashLength
  let count ← uint16
  let entries ← times readKadSearchEntry count.toNat
  pure { sourceId, targetId, entries }

def parseKadSearchResultPayload (payload : Text) : Option KadSearchResult :=
  if payload.length < hashLength * 2 + 2 then none else whole readKadSearchResult payload

def createKadSearchResultPayload (sourceId targetId : Text) (entries : List KadSearchEntry) :
    Except String Text :=
  if sourceId.length ≠ hashLength ∨ targetId.length ≠ hashLength then
    .error "Bad ED2K hash length."
  else if entries.length > 65535 then .error "Too many Kad search results."
  else
    concat (.ok sourceId :: .ok targetId ::
      .ok (packUInt16 (UInt16.ofNat entries.length)) :: entries.map packKadSearchEntry)

structure KadPublishSourceRequest where
  fileId : Text
  source : KadSearchEntry
deriving DecidableEq, Repr

def readKadPublishSourceRequest : Reader UInt8 KadPublishSourceRequest := do
  let fileId ← readBytes hashLength
  let source ← readKadSearchEntry
  pure { fileId, source }

def parseKadPublishSourceRequestPayload (payload : Text) : Option KadPublishSourceRequest :=
  if payload.length < hashLength * 2 + 1 then none
  else whole readKadPublishSourceRequest payload

/-- What `extractKadSourceEndpoint` finds among the tags. -/
structure SourceTags where
  ip : Option UInt32 := none
  port : Option UInt16 := none
  sourceType : UInt64 := 0

def SourceTags.note (found : SourceTags) (tag : Tag) : SourceTags :=
  if tag.valueType ≠ .uint then found
  else if tag.id = 0xfe then { found with ip := some tag.intValue.toUInt32 }
  else if tag.id = 0xfd then { found with port := some tag.intValue.toUInt16 }
  else if tag.id = 0xff then { found with sourceType := tag.intValue }
  else found

/-- `extractKadSourceEndpoint` for an endpoint; of the supported types of
source, 3, 5 and 6 are not direct. -/
def KadSearchEntry.endpoint : Option (UInt32 × UInt16) :=
  let found := entry.tags.foldl SourceTags.note {}
  match found.ip, found.port with
  | some ip, some port =>
    if port = 0 ∨ found.sourceType ∉ [0, 1, 4] then none else some (ip, port)
  | _, _ => none

def sameSourceEndpoint (lhs rhs : KadSearchEntry) : Bool :=
  lhs.endpoint.isSome && lhs.endpoint = rhs.endpoint

/-- The sources of each file, in the order they were published. -/
structure KadSourceIndex where
  buckets : List (Text × List KadSearchEntry) := []

namespace KadSourceIndex

def storeIn (sources : List KadSearchEntry) (source : KadSearchEntry) : List KadSearchEntry :=
  match sources.findIdx? fun item => item.id = source.id || sameSourceEndpoint item source with
  | none => sources ++ [source]
  | some place => sources.set place source

variable (index : KadSourceIndex)

def store (fileId : Text) (source : KadSearchEntry) : Except String KadSourceIndex :=
  if fileId.length ≠ hashLength ∨ source.id.length ≠ hashLength then
    .error "Bad ED2K Kad id length."
  else
    match index.buckets.findIdx? (·.1 = fileId) with
    | none => .ok { buckets := index.buckets ++ [(fileId, storeIn [] source)] }
    | some place =>
      .ok { buckets := index.buckets.modify place fun item => (item.1, storeIn item.2 source) }

def find (fileId : Text) (startPosition limit : Nat) : Except String (List KadSearchEntry) :=
  if fileId.length ≠ hashLength then .error "Bad ED2K Kad id length."
  else
    match index.buckets.find? (·.1 = fileId) with
    | none => .ok []
    | some (_, sources) =>
      if startPosition ≥ sources.length then .ok []
      else
        let stop := if limit = 0 then sources.length
          else min sources.length (startPosition + limit)
        .ok ((sources.take stop).drop startPosition)

def size : Nat := (index.buckets.map (·.2.length)).sum

end KadSourceIndex

namespace Kad

def withinTolerance (id target : Text) : Bool := readUInt32 id ^^^ readUInt32 target ≤ 0x1000000

def privateAddress (address : UInt32) : Bool :=
  let first := address >>> 24
  let second := address >>> 16 &&& 0xff
  first = 10 || first = 127 || first = 172 && second &&& 0xf0 = 16 || first = 192 && second = 168

/-- A datagram that publishes a source, with the address it came from. -/
structure Publication where
  payload : Text
  address : UInt32
deriving DecidableEq, Repr

/-- The request that a datagram makes, unless it is refused. -/
def accepted (selfId : Text) (publication : Publication) : Option KadPublishSourceRequest :=
  (parseKadPublishSourceRequestPayload publication.payload).filter fun request =>
    withinTolerance selfId request.fileId || privateAddress publication.address

/-- The tags of a source without those that name its address. -/
def otherTags (source : KadSearchEntry) : List Tag := source.tags.filter (·.id ≠ 0xfe)

/-- The entry that is stored: the address is the one of the sender. -/
def storedEntry (source : KadSearchEntry) (address : UInt32) : KadSearchEntry :=
  { source with
    tags := { id := 0xfe, valueType := .uint, intValue := address.toUInt64 } :: otherTags source }

/-- `KAD_PUBLISH_SOURCE_REQ`, apart from the reply. -/
def publish (selfId : Text) (index : KadSourceIndex) (publication : Publication) : KadSourceIndex :=
  match accepted selfId publication with
  | none => index
  | some request =>
    if index.size < 20000 then
      match index.store request.fileId (storedEntry request.source publication.address) with
      | .ok stored => stored
      | .error _ => index
    else index

/-- The entries a `KAD_SEARCH_SOURCES_REQ` is answered with. -/
def sourcesFor (index : KadSourceIndex) (request : KadSearchSourcesRequest) :
    Except String (List KadSearchEntry) :=
  index.find request.targetId (request.startPosition &&& 0x7fff).toNat 300

/-- `KAD_SEARCH_SOURCES_REQ`: the answer, if there is one. -/
def searchSources (selfId : Text) (index : KadSourceIndex) (payload : Text) :
    Option (Except String Text) :=
  match parseKadSearchSourcesRequestPayload payload with
  | none => none
  | some request =>
    match sourcesFor index request with
    | .error text => some (.error text)
    | .ok [] => none
    | .ok entries => some (createKadSearchResultPayload selfId request.targetId entries)

end Kad

/-- The same id and the same value. -/
def SameTag (tag read : Tag) : Prop :=
  read.id = tag.id ∧ read.valueType = tag.valueType ∧
    (tag.valueType = .string → read.stringValue = tag.stringValue) ∧
    (tag.valueType = .uint → read.intValue = tag.intValue)

/-- The same id and the same tags. -/
def SameEntry (read : KadSearchEntry) : Prop :=
  read.id = entry.id ∧ List.Forall₂ SameTag entry.tags read.tags

/-- A tag that can be written. -/
def Plain (tag : Tag) : Prop :=
  (tag.valueType = .string ∨ tag.valueType = .uint) ∧ tag.stringValue.length < 65536

/-- An entry that can be written. -/
structure Servable (entry : KadSearchEntry) : Prop where
  id : entry.id.length = hashLength
  count : entry.tags.length ≤ 255
  tags : ∀ tag ∈ entry.tags, Plain tag

theorem packTag_plain {tag : Tag} (hp : Plain tag) :
    ∃ w re, packTag tag = .ok w ∧ SameTag tag re ∧ Reads readTag w re := by
  obtain ⟨ht | ht, hle⟩ := hp
  · obtain ⟨r, hr⟩ := reads_createStringTag tag.id hle
    refine ⟨_, _, by rw [packTag, if_pos ht], ?_, hr⟩
    simp [SameTag, ht]
  · rw [packTag, if_neg (by simp [ht])]
    split_ifs with hl
    · refine ⟨_, _, rfl, ?_, reads_createUInt64Tag tag.id tag.intValue⟩
      simp [SameTag, ht]
    · refine ⟨_, _, rfl, ?_, reads_createUInt32Tag tag.id tag.intValue.toUInt32⟩
      have hb : tag.intValue.toUInt32.toUInt64 = tag.intValue := by
        rw [UInt64.not_lt] at hl
        apply UInt64.toNat_inj.mp
        exact Nat.mod_eq_of_lt (Nat.lt_succ_of_le hl)
      simp [SameTag, ht, hb]

/-- A list of tags is read back from its count and the tags. -/
theorem parseTagList_written {A : Type} {w : A → Text} {b : A → Tag} {ta : List A} {n : UInt32}
    (hc : n.toNat = ta.length) (hl : ta.length ≤ 10000) (hr : ∀ t ∈ ta, Reads readTag (w t) (b t)) :
    parseTagList (packUInt32 n ++ ta.flatMap w) = some (ta.map b) := by
  have hs : (packUInt32 n).length = 4 := length_packLittleEndian 4 _
  rw [parseTagList, if_neg (by rw [length_append]; omega)]
  refine ((reads_uint32 _).bind ?_).whole
  rw [if_neg (by rw [gt_iff_lt, UInt32.lt_iff_toNat_lt, hc]; exact not_lt.mpr hl), hc]
  exact reads_times ta hr

theorem wrote_entry {e : KadSearchEntry} (hse : Servable e) :
    ∃ w r, packKadSearchEntry e = .ok w ∧ SameEntry e r ∧ Reads readKadSearchEntry w r := by
  obtain ⟨hi, hc, hp⟩ := hse
  have : Nonempty Tag := ⟨{}⟩
  choose! write back ht using fun tag (h : Plain tag) => packTag_plain h
  have hpa : Reader.concat (e.tags.map packTag) = .ok (e.tags.flatMap write) :=
    concat_ok fun tag hm => (ht tag (hp tag hm)).1
  have hs : (UInt8.ofNat e.tags.length).toNat = e.tags.length :=
    UInt8.toNat_ofNat_of_lt' (by simpa using Nat.lt_succ_of_le hc)
  have hra : Reads (times (raw readTag) e.tags.length)
      (e.tags.flatMap write) (e.tags.map write) :=
    reads_times e.tags fun tag hm => (ht tag (hp tag hm)).2.2.raw
  have hpar : parseTagList (packUInt32 (UInt8.ofNat e.tags.length).toUInt32 ++
      (e.tags.map write).flatten) = some (e.tags.map back) :=
    parseTagList_written (by rw [UInt8.toNat_toUInt32, hs]) (hc.trans (by decide))
      fun tag hm => (ht tag (hp tag hm)).2.2
  have hr : Reads readKadSearchEntry
      (e.id ++ ([UInt8.ofNat e.tags.length] ++ (e.tags.flatMap write ++ [])))
      { id := e.id, tags := e.tags.map back } := by
    refine (reads_readBytes e.id hi).bind ((reads_next _).bind ?_)
    rw [hs]
    refine hra.bind ?_
    rw [hpar]
    exact reads_pure _
  rw [append_nil] at hr
  refine ⟨_, { id := e.id, tags := e.tags.map back }, ?_, ⟨rfl, ?_⟩, hr⟩
  · rw [packKadSearchEntry, if_neg (not_not.mpr hi), if_neg (not_lt.mpr hc), Reader.concat,
      Reader.concat, hpa]
    rfl
  · rw [forall₂_map_right_iff, forall₂_same]
    exact fun tag hm => (ht tag (hp tag hm)).2.1

theorem wrote_result {sourceId targetId : Text} {es : List KadSearchEntry}
    (hso : sourceId.length = hashLength) (ht : targetId.length = hashLength)
    (hc : es.length ≤ 65535) (hs : ∀ e ∈ es, Servable e) :
    ∃ p r, createKadSearchResultPayload sourceId targetId es = .ok p ∧
      parseKadSearchResultPayload p = some { sourceId, targetId, entries := r } ∧
      List.Forall₂ SameEntry es r := by
  have : Nonempty KadSearchEntry := ⟨{ id := [], tags := [] }⟩
  choose! write back he using fun e (h : Servable e) => wrote_entry h
  have hsi : (UInt16.ofNat es.length).toNat = es.length :=
    UInt16.toNat_ofNat_of_lt' (by simpa using Nat.lt_succ_of_le hc)
  have hr : Reads readKadSearchResult (sourceId ++ (targetId ++
      (packUInt16 (UInt16.ofNat es.length) ++ (es.flatMap write ++ []))))
      { sourceId, targetId, entries := es.map back } := by
    refine (reads_readBytes sourceId hso).bind ((reads_readBytes targetId ht).bind
      ((reads_uint16 _).bind ?_))
    rw [hsi]
    refine (reads_times es fun e hm => ?_).bind (reads_pure _)
    exact (he e (hs e hm)).2.2
  rw [append_nil] at hr
  refine ⟨sourceId ++ (targetId ++ (packUInt16 (UInt16.ofNat es.length) ++
    es.flatMap write)), es.map back, ?_, ?_, ?_⟩
  · rw [createKadSearchResultPayload, if_neg (by simp [hso, ht]),
      if_neg (not_lt.mpr hc), Reader.concat, Reader.concat, Reader.concat,
      concat_ok fun e hm => (he e (hs e hm)).1]
    rfl
  · have hl : (packUInt16 (UInt16.ofNat es.length)).length = 2 := length_packLittleEndian 2 _
    rw [parseKadSearchResultPayload, if_neg]
    · exact hr.whole
    · simp only [length_append, hso, ht, hl]
      omega
  · rw [forall₂_map_right_iff, forall₂_same]
    exact fun e hm => (he e (hs e hm)).2.1

/-- What is read: an id of the right length, and texts that can be counted. -/
theorem readKadSearchEntry_read {i r : Text} {e : KadSearchEntry}
    (hr : readKadSearchEntry i = some (e, r)) :
    e.id.length = hashLength ∧ ∀ tag ∈ e.tags, tag.stringValue.length < 65536 := by
  obtain ⟨id, _, hi, hr⟩ := bind_eq_some hr
  obtain ⟨n, _, _, hr⟩ := bind_eq_some hr
  obtain ⟨p, _, _, hr⟩ := bind_eq_some hr
  cases hp : parseTagList (packUInt32 n.toUInt32 ++ p.flatten) with
  | none =>
    rw [hp] at hr
    cases hr
  | some t =>
    rw [hp] at hr
    cases hr
    refine ⟨(take_eq_some hi).1, ?_⟩
    rw [parseTagList] at hp
    split_ifs at hp
    obtain ⟨nu, _, _, ht⟩ := bind_eq_some (whole_eq_some hp)
    split_ifs at ht
    · cases ht
    · exact (times_forall (fun _ _ _ => readTag_stringValue) ht).2

namespace Kad

/-- Beside its address a source has texts and numbers, and the count of them
leaves room for the address. -/
def Ordinary (source : KadSearchEntry) : Prop :=
  (otherTags source).length ≤ 254 ∧
    ∀ tag ∈ otherTags source, tag.valueType = .string ∨ tag.valueType = .uint

instance (source : KadSearchEntry) : Decidable (Ordinary source) :=
  inferInstanceAs (Decidable (_ ∧ _))

theorem accepted_servable {s : Text} {p : Publication} {r : KadPublishSourceRequest}
    (ha : accepted s p = some r) (ho : Ordinary r.source) :
    Servable (storedEntry r.source p.address) := by
  have hp := (Option.filter_eq_some_iff.mp ha).1
  rw [parseKadPublishSourceRequestPayload] at hp
  split_ifs at hp
  obtain ⟨f, _, _, hr⟩ := bind_eq_some (whole_eq_some hp)
  obtain ⟨so, _, hs, hr⟩ := bind_eq_some hr
  cases hr
  obtain ⟨hi, ht⟩ := readKadSearchEntry_read hs
  refine ⟨hi, Nat.succ_le_succ ho.1, ?_⟩
  simp only [storedEntry, mem_cons, forall_eq_or_imp]
  refine ⟨⟨.inr rfl, by simp⟩, fun tag hm => ⟨ho.2 tag hm, ?_⟩⟩
  exact ht tag (mem_of_mem_filter hm)

/-- Every source in the index can be written. -/
def Written (index : KadSourceIndex) : Prop :=
  ∀ bucket ∈ index.buckets, ∀ entry ∈ bucket.2, Servable entry

theorem storeIn_servable {s : List KadSearchEntry} {source : KadSearchEntry}
    (hs : ∀ e ∈ s, Servable e) (hso : Servable source) :
    ∀ e ∈ KadSourceIndex.storeIn s source, Servable e := by
  intro e he
  rw [KadSourceIndex.storeIn] at he
  split at he
  · rcases mem_append.mp he with h | h
    · exact hs e h
    · rwa [mem_singleton.mp h]
  · rcases mem_or_eq_of_mem_set he with h | rfl
    · exact hs e h
    · exact hso

theorem store_written {i next : KadSourceIndex} {f : Text} {s : KadSearchEntry} (hw : Written i)
    (hso : Servable s) (hs : i.store f s = .ok next) : Written next := by
  rw [KadSourceIndex.store] at hs
  split_ifs at hs
  split at hs
  · cases hs
    intro b hb
    rcases mem_append.mp hb with h | h
    · exact hw b h
    · rw [mem_singleton.mp h]
      exact @storeIn_servable [] s (by simp) hso
  · cases hs
    intro b hb
    obtain ⟨place, hp⟩ := mem_iff_getElem?.mp hb
    rw [List.getElem?_modify] at hp
    obtain ⟨old, hold, rfl⟩ := Option.map_eq_some_iff.mp hp
    have hbe := hw old (mem_of_getElem? hold)
    split_ifs
    · exact storeIn_servable hbe hso
    · exact hbe

theorem publish_written {s : Text} {i : KadSourceIndex} {p : Publication} (hw : Written i)
    (ho : ∀ r ∈ accepted s p, Ordinary r.source) : Written (publish s i p) := by
  rw [publish]
  split
  · exact hw
  next r ha =>
  split_ifs
  · split
    · next hs =>
      exact store_written hw (accepted_servable ha (ho r ha)) hs
    · exact hw
  · exact hw

/-- At most three hundred sources are told, all from the index. -/
theorem sourcesFor_written {i : KadSourceIndex} (hw : Written i) {r : KadSearchSourcesRequest}
    (hi : r.targetId.length = hashLength) :
    ∃ es, sourcesFor i r = .ok es ∧ es.length ≤ 300 ∧ ∀ e ∈ es, Servable e := by
  rw [sourcesFor, KadSourceIndex.find, if_neg (not_not.mpr hi)]
  split
  · exact ⟨[], rfl, by simp⟩
  next f s hf =>
  rw [if_neg (by decide : ¬300 = 0)]
  split_ifs
  · exact ⟨[], rfl, by simp⟩
  refine ⟨_, rfl, ?_, fun e he => ?_⟩
  · simp only [length_drop, length_take]
    omega
  · exact hw _ (mem_of_find?_eq_some hf) e (mem_of_mem_take (mem_of_mem_drop he))

theorem parseRequest_length {p : Text} {r : KadSearchSourcesRequest}
    (hp : parseKadSearchSourcesRequestPayload p = some r) : r.targetId.length = hashLength := by
  rw [parseKadSearchSourcesRequestPayload] at hp
  split_ifs at hp
  obtain ⟨t, _, ht, hr⟩ := bind_eq_some (whole_eq_some hp)
  obtain ⟨_, _, _, hr⟩ := bind_eq_some hr
  obtain ⟨_, _, _, hr⟩ := bind_eq_some hr
  cases hr
  exact (take_eq_some ht).1

/-- When the sources that are accepted are ordinary, whoever asks for a file is
answered unless there is nothing to tell, and reads the id and the tags of every
source that the index gives. -/
theorem published_sources_are_served (selfId : Text) (hself : selfId.length = hashLength)
    (publications : List Publication)
    (hordinary : ∀ publication ∈ publications, ∀ request ∈ accepted selfId publication,
      Ordinary request.source)
    (payload : Text) (request : KadSearchSourcesRequest)
    (hparse : parseKadSearchSourcesRequestPayload payload = some request) :
    let index := Runs.run (publish selfId) {} publications
    ∃ entries, sourcesFor index request = .ok entries ∧
      (entries = [] ∧ searchSources selfId index payload = none ∨
        ∃ answer read, searchSources selfId index payload = some (.ok answer) ∧
          parseKadSearchResultPayload answer =
            some { sourceId := selfId, targetId := request.targetId, entries := read } ∧
          List.Forall₂ SameEntry entries read) := by
  intro index
  have hwritten : Written index :=
    Runs.run_invariant (fun _ _ => publish_written) (by simp [Written])
      (Runs.meets_of_forall hordinary)
  have hid := parseRequest_length hparse
  obtain ⟨entries, hentries, hcount, hservable⟩ := sourcesFor_written hwritten hid
  refine ⟨entries, hentries, ?_⟩
  rw [searchSources, hparse]
  simp only [hentries]
  cases entries with
  | nil => exact .inl ⟨rfl, rfl⟩
  | cons entry entries =>
    obtain ⟨answer, read, hanswer, hread, hsame⟩ :=
      wrote_result hself hid (hcount.trans (by decide)) hservable
    exact .inr ⟨answer, read, congrArg some hanswer, hread, hsame⟩

/-- A source with one tag of the given type and value publishes itself. -/
def publication (type : UInt8) (value : Text) : Publication where
  payload := List.replicate 32 0 ++ [1, type ||| 0x80, 0xfd] ++ value
  address := 0x7f000001

def request : Text := List.replicate 26 0

theorem published_sources_are_served_port :
    let self := List.replicate 16 0
    let index := Runs.run (publish self) {} [publication 0x08 [0x36, 0x12]]
    ∃ answer read, searchSources self index request = some (.ok answer) ∧
      parseKadSearchResultPayload answer = some read ∧ read.entries.length = 1 := by
  intro self index
  obtain ⟨entries, hentries, hserved⟩ := published_sources_are_served self (by decide)
    [publication 0x08 [0x36, 0x12]] (by decide +kernel) request
    { targetId := self, startPosition := 0, size := 0 } (by decide +kernel)
  have hfound : sourcesFor index { targetId := self, startPosition := 0, size := 0 } =
      .ok [{ id := self
             tags := [{ id := 0xfe, valueType := .uint, intValue := 0x7f000001 },
               { id := 0xfd, rawType := 0x08, valueType := .uint, intValue := 0x1236 }] }] := by
    decide +kernel
  cases hfound.symm.trans hentries
  rcases hserved with ⟨hempty, _⟩ | ⟨answer, read, hanswer, hread, hsame⟩
  · cases hempty
  · exact ⟨answer, _, hanswer, hread, hsame.length_eq.symm⟩

/-- A hash among the tags: the source is stored, and nobody is told of the
sources of the file any more. -/
theorem published_hash_silences :
    let self := List.replicate 16 0
    let index := Runs.run (publish self) {}
      [publication 0x08 [0x36, 0x12], publication 0x01 (List.replicate 16 7)]
    index.size = 1 ∧
      searchSources self index request = some (.error "Unsupported Kad search tag.") := by
  decide +kernel

end Kad

/-- What a tag is created from. -/
inductive TagValue where
  | string (value : Text)
  | uint32 (value : UInt32)
  | uint64 (value : UInt64)

namespace TagValue

def create (id : UInt8) : TagValue → Text
  | .string value => createStringTag id value
  | .uint32 value => createUInt32Tag id value
  | .uint64 value => createUInt64Tag id value

/-- The size of a text has two bytes. -/
def Fits : TagValue → Prop
  | .string value => value.length ≤ 65535
  | .uint32 _ | .uint64 _ => True

/-- The tag is of the kind of the value and holds it. -/
def Says (tag : Tag) : TagValue → Prop
  | .string value => tag.valueType = .string ∧ tag.stringValue = value
  | .uint32 value => tag.valueType = .uint ∧ tag.intValue = value.toUInt64
  | .uint64 value => tag.valueType = .uint ∧ tag.intValue = value

theorem reads_create (id : UInt8) {va : TagValue} (hf : va.Fits) :
    ∃ tag, Reads readTag (va.create id) tag ∧ tag.id = id ∧ va.Says tag := by
  cases va with
  | string v =>
    obtain ⟨r, hr⟩ := reads_createStringTag id (Nat.lt_succ_of_le hf)
    exact ⟨_, hr, rfl, rfl, rfl⟩
  | uint32 v => exact ⟨_, reads_createUInt32Tag id v, rfl, rfl, rfl⟩
  | uint64 v => exact ⟨_, reads_createUInt64Tag id v, rfl, rfl, rfl⟩

end TagValue

/-- A list of tags is read back from its count and the tags, and an entry from
wherever it stands among other bytes. -/
theorem tags_round_trip (tags : List (UInt8 × TagValue)) (hcount : tags.length ≤ 10000)
    (hfits : ∀ tag ∈ tags, tag.2.Fits) (entry : KadSearchEntry) (hentry : Servable entry)
    (before after : Text) :
    (∃ read, parseTagList (packUInt32 (UInt32.ofNat tags.length) ++
        tags.flatMap fun tag => tag.2.create tag.1) = some read ∧
      List.Forall₂ (fun tag read => read.id = tag.1 ∧ tag.2.Says read) tags read) ∧
    ∃ written read, packKadSearchEntry entry = .ok written ∧
      readKadSearchEntry ((before ++ written ++ after).drop before.length) = some (read, after) ∧
      SameEntry entry read := by
  constructor
  · have : Nonempty Tag := ⟨{}⟩
    choose! back hback using fun (tag : UInt8 × TagValue) (h : tag.2.Fits) =>
      TagValue.reads_create tag.1 h
    have hsize : (UInt32.ofNat tags.length).toNat = tags.length :=
      UInt32.toNat_ofNat_of_lt' (hcount.trans_lt (by decide))
    refine ⟨tags.map back, parseTagList_written hsize hcount fun tag hm =>
      (hback tag (hfits tag hm)).1, ?_⟩
    rw [forall₂_map_right_iff, forall₂_same]
    exact fun tag hm => (hback tag (hfits tag hm)).2
  · obtain ⟨written, read, hpack, hsame, hreads⟩ := wrote_entry hentry
    refine ⟨written, read, hpack, ?_, hsame⟩
    rw [append_assoc, drop_left]
    exact hreads after

theorem tags_round_trip_short :
    let tags := [(1, TagValue.string [0x61]), (2, .uint64 7)]
    ∃ read, parseTagList (packUInt32 (UInt32.ofNat tags.length) ++
        tags.flatMap fun tag => tag.2.create tag.1) = some read ∧
      List.Forall₂ (fun tag read => read.id = tag.1 ∧ tag.2.Says read) tags read := by
  intro tags
  refine (tags_round_trip tags (by decide) ?_ { id := List.replicate 16 0, tags := [] }
    ⟨by decide, by decide, by simp⟩ [] []).1
  simp [tags, TagValue.Fits]

end Aria2Next
