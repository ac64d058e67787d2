/-
The blocks that the clients of an ED2K file have requested, with what they have
got of each and the streams that inflate compressed ones.

A zlib stream is any type with its operations.  The other clients and the task
change the claims and the parts between two messages of a client.  Everything
that ends a download but the end of the connection is one input: the end of the
slot, a timeout, an answer that the file is not there, the file becoming
complete and the source being dropped all release the blocks alike.
-/
import Aria2Next.Ed2kBlocks
import Aria2Next.Text

namespace Aria2Next

open OrdMap Function List

universe u v

/-- `CompressedPartInflater` -/
structure Inflating (Z : Type v) where
  fresh : Z
  /-- The plain bytes and the stream afterwards, from the data, the begin of
  the block and the most bytes to produce. -/
  inflateChunk : Z → Text → Int → Nat → Option (Text × Z)
  active : Z → Bool
  inflatedLength : Z → Int
  fresh_length : inflatedLength fresh = 0

/-- The clients of a file, with their streams by the begin of the block. -/
structure Peers (O : Type u) (Z : Type v) where
  parts : Parts
  swarm : Swarm O := {}
  inflaters : O → OrdMap Int Z := fun _ => ∅
  /-- Ghost data, which nothing reads: the begins of the requested blocks of
  which a compressed packet has come since the request. -/
  opened : O → List Int := fun _ => []

namespace Peers

variable {O : Type u} {Z : Type v} [DecidableEq O]

variable (peers : Peers O Z) (owner : O)

def client : Client := peers.swarm.clients owner

def setInflaters (inflaters : OrdMap Int Z) : Peers O Z :=
  { peers with
    inflaters := update peers.inflaters owner inflaters }

/-- `requestBlocks`: the blocks it puts behind the others are not opened. -/
def requestBlocks (ask : Parts.Ask) : Peers O Z :=
  let swarm := peers.swarm.requestBlocks peers.parts owner ask
  let claimed :=
    (swarm.clients owner).blocks.drop (peers.client owner).blocks.length
  { peers with
    swarm
    opened := update peers.opened owner
      ((peers.opened owner).filter fun begin =>
        begin ∉ claimed.map Prod.fst) }

/-- `OP_ACCEPTUPLOADREQ`, an upload slot for us. -/
def accept (ask : Parts.Ask) : Peers O Z :=
  { peers with
    swarm := peers.swarm.update owner
      { peers.client owner with downloading := true } }.requestBlocks owner ask

/-- `releaseBlocks`, which leaves the streams. -/
def release : Peers O Z :=
  { peers with swarm := peers.swarm.stopDownloading owner }

def closed : Peers O Z := (peers.setInflaters owner ∅).release owner

def blockDone (block : Range) (ask : Parts.Ask) : Peers O Z :=
  let client := peers.client owner
  requestBlocks
    { (peers.setInflaters owner ((peers.inflaters owner).erase block.1)) with
      swarm := { peers.swarm with
        claims := Parts.release peers.swarm.claims owner block }.update owner
          { client with
            blocks := client.blocks.filter (· ≠ block)
            progress := client.progress.erase block.1 } } owner ask

/-- What `receiveBlock` notes once the data went to the task. -/
def noteReceived (begin stop : Int) (ask : Parts.Ask) : Peers O Z :=
  let client := peers.client owner
  match Swarm.blockOf client begin stop with
  | none => peers
  | some block =>
    let got := (client.progress.find? block.1).getD 0 + (stop - begin)
    let peers := { peers with
      swarm := peers.swarm.update owner
        { client with progress := client.progress.insert block.1 got } }
    if got ≥ block.2 - block.1 then peers.blockDone owner block ask
    else peers

/-- `receiveBlock`; a packet whose range is not that of its data closes the
connection. -/
def receiveBlock (begin stop : Int) (size : Nat) (ask : Parts.Ask) : Peers O Z :=
  if (peers.client owner).downloading = false then peers
  else if stop ≤ begin ∨ (stop - begin).toNat ≠ size then peers.closed owner
  else if Parts.claimed peers.swarm.claims owner begin stop = false then peers
  else
    { peers with parts := (peers.parts.add begin stop).2 }.noteReceived owner begin stop ask

/-- The requested block that a compressed packet is of. -/
def compressedBlock (client : Client) (begin : Int) : Option Range :=
  client.blocks.find? fun block => block.1 ≤ begin ∧ begin < block.2

section Streams

variable (zlib : Inflating Z)

/-- The stream that inflates a packet of a block. -/
def inflater (peers : Peers O Z) (owner : O) (block : Range) : Z :=
  ((peers.inflaters owner).find? block.1).getD zlib.fresh

/-- Where the plain data of the next packet of a block begins. -/
def offset (peers : Peers O Z) (owner : O) (block : Range) : Int :=
  block.1 + zlib.inflatedLength (peers.inflater zlib owner block)

/-- `receiveCompressed`; data that does not inflate closes the connection. -/
def receiveCompressed (peers : Peers O Z) (owner : O) (begin : Int)
    (data : Text) (ask : Parts.Ask) : Peers O Z :=
  if (peers.client owner).downloading = false then peers
  else
    match compressedBlock (peers.client owner) begin with
    | none => peers
    | some block =>
      let offset := peers.offset zlib owner block
      match zlib.inflateChunk (peers.inflater zlib owner block) data block.1
          (block.2 - offset).toNat with
      | none => peers.closed owner
      | some (plain, inflater) =>
        let inflaters := (peers.inflaters owner).insert block.1 inflater
        let peers := { peers with
          opened := update peers.opened owner
            (block.1 :: peers.opened owner) }
        if plain = [] then peers.setInflaters owner inflaters
        else
          (peers.setInflaters owner (if zlib.active inflater then inflaters
            else inflaters.erase block.1)).receiveBlock owner offset
              (offset + plain.length) plain.length ask

end Streams

inductive Input (O : Type u) where
  /-- The parts change: data from elsewhere, a hash that is right or wrong. -/
  | add (begin stop : Int)
  | verify (index : Nat)
  | reject (index : Nat)
  /-- What the client has of the file. -/
  | status (owner : O) (partStatus : List Bool)
  | accept (owner : O) (ask : Parts.Ask)
  | part (owner : O) (begin stop : Int) (size : Nat) (ask : Parts.Ask)
  | compressedPart (owner : O) (begin : Int) (data : Text) (ask : Parts.Ask)
  | release (owner : O)
  | closed (owner : O)

def step (zlib : Inflating Z) (peers : Peers O Z) : Input O → Peers O Z
  | .add begin stop => { peers with parts := (peers.parts.add begin stop).2 }
  | .verify index => { peers with parts := peers.parts.verify index }
  | .reject index => { peers with parts := peers.parts.reject index }
  | .status owner partStatus =>
    { peers with
      swarm := peers.swarm.update owner
        { peers.client owner with partStatus } }
  | .accept owner ask => peers.accept owner ask
  | .part owner begin stop size ask =>
    peers.receiveBlock owner begin stop size ask
  | .compressedPart owner begin data ask =>
    peers.receiveCompressed zlib owner begin data ask
  | .release owner => peers.release owner
  | .closed owner => peers.closed owner

end Peers

namespace Parts

variable {O : Type u} [DecidableEq O]

/-- The ranges that the claims of an owner cover. -/
def held (claims : List (Claim O)) (owner : O) : List Range :=
  (claims.filter (·.owner = owner)).map fun claim => (claim.begin, claim.stop)

theorem held_releaseAll (cs : List (Claim O)) (o j : O) : held (releaseAll cs o) j =
      if j = o then [] else held cs j := by
  unfold held releaseAll
  rw [filter_filter]
  split
  · next hs =>
    rw [hs, map_eq_nil_iff, filter_eq_nil_iff]
    intro c _
    simp
  · next hot =>
    congr 1
    apply filter_congr
    intro c _
    by_cases ho : c.owner = j
    · simp [ho, hot]
    · simp [ho]

omit [DecidableEq O] in
theorem filter_of_eraseP {A : Type u} {p : A → Bool} {l : List A}
    (hs : l.Pairwise fun left right => ¬(p left ∧ p right)) :
    l.eraseP p = l.filter fun i => !p i := by
  induction l with
  | nil => rfl
  | cons head t ih =>
    rw [pairwise_cons] at hs
    by_cases hh : p head
    · rw [eraseP_cons_of_pos hh, filter_cons_of_neg (by simp [hh])]
      symm
      rw [filter_eq_self]
      intro i hi
      have := hs.1 i hi
      simpa [hh] using this
    · rw [eraseP_cons_of_neg hh, filter_cons_of_pos (by simp [hh]), ih hs.2]

section Held

variable {s : Int} {parts : Parts} {claims : List (Claim O)}

omit [DecidableEq O] in
/-- The claims of one owner begin at different bytes. -/
theorem begins_differ (hs : Board.Sound s ⟨parts, claims⟩) : claims.Pairwise fun left right =>
      left.owner = right.owner → left.begin ≠ right.begin := by
  refine List.Pairwise.imp_of_mem ?_ hs.apart
  intro left right hl hr ha ho hb
  have hlt := (hs.celled left hl).1
  have hl' := (hs.celled right hr).1
  exact (ha (by omega) (by omega)).1 ho

theorem held_begins_nodup (hs : Board.Sound s ⟨parts, claims⟩) (o : O) :
    ((held claims o).map Prod.fst).Nodup := by
  unfold held
  rw [map_map]
  refine pairwise_map.mpr ?_
  refine List.Pairwise.imp_of_mem ?_ ((begins_differ hs).sublist filter_sublist)
  intro left right hl hr hdi
  have ho : left.owner = o := by
    simpa using (mem_filter.mp hl).2
  have ho' : right.owner = o := by
    simpa using (mem_filter.mp hr).2
  exact hdi (ho.trans ho'.symm)

theorem held_release (hs : Board.Sound s ⟨parts, claims⟩) (o j : O) (b : Range) :
    held (release claims o b) j = if j = o then
        (held claims o).filter fun r => r.1 ≠ b.1
      else held claims j := by
  unfold held release
  rw [filter_of_eraseP, filter_filter]
  · split
    · next hsa =>
      rw [hsa, filter_map, filter_filter]
      congr 1
      apply filter_congr
      intro c _
      by_cases ho : c.owner = o <;> simp [ho]
    · next hot =>
      congr 1
      apply filter_congr
      intro c _
      by_cases ho : c.owner = j
      · simp [ho, hot]
      · simp [ho]
  · refine (begins_differ hs).imp ?_
    intro left right hdi hb
    simp only [decide_eq_true_eq] at hb
    exact hdi (hb.1.2.trans hb.2.2.symm) (hb.1.1.trans hb.2.1.symm)

theorem held_claim (ps : Parts) (cs : List (Claim O)) (o j : O) (a : List Bool)
    (w : Nat) (ask : Ask) : (held (ps.claim cs o a w ask).1 j).Perm (held cs j ++ if j = o then
        (ps.claim cs o a w ask).2 else []) := by
  have hp := (Board.answers ⟨ps, cs⟩ o a w ask).claims
  refine ((hp.filter (·.owner = j)).map _).trans ?_
  rw [filter_append, map_append, filter_map]
  apply List.Perm.append_left
  split
  · next hs =>
    rw [hs, filter_eq_self.mpr (by simp), map_map]
    exact List.Perm.of_eq (map_id _)
  · next ho =>
    rw [filter_eq_nil_iff.mpr (by simp [Ne.symm ho])]
    exact List.Perm.refl _

end Held

end Parts

namespace Peers

variable {O : Type u} {Z : Type v} [DecidableEq O]

/-- The four books of a client agree. -/
structure Booked (held : List Range) (client : Client)
    (inflaters : OrdMap Int Z) (opened : List Int) : Prop where
  claims : held.Perm client.blocks
  ahead : client.blocks.length ≤ Swarm.blocksAhead
  progress : ∀ key ∈ client.progress.keys, key ∈ client.blocks.map Prod.fst
  inflaters : ∀ key ∈ inflaters.keys, key ∈ client.blocks.map Prod.fst ∧ key ∈ opened

structure Kept (size : Int) (peers : Peers O Z) : Prop where
  sound : Board.Sound size ⟨peers.parts, peers.swarm.claims⟩
  booked : ∀ owner, Booked (Parts.held peers.swarm.claims owner)
    (peers.client owner) (peers.inflaters owner) (peers.opened owner)

variable {size s : Int} {peers ps : Peers O Z}

theorem Kept.parts (hk : Kept s ps) {parts : Parts} (hs : Board.Sound s ⟨parts, ps.swarm.claims⟩) :
    Kept s { ps with parts } where
  sound := hs
  booked := hk.booked

/-- Only the claims of one client and what is known of it change. -/
theorem Kept.of_client (hk : Kept s ps) (o : O) {a : Peers O Z}
    (hs : Board.Sound s ⟨a.parts, a.swarm.claims⟩)
    (hot : ∀ j, j ≠ o → (Parts.held a.swarm.claims j).Perm (Parts.held ps.swarm.claims j) ∧
      a.client j = ps.client j ∧ a.inflaters j = ps.inflaters j ∧
      a.opened j = ps.opened j) (hbo : Booked (Parts.held a.swarm.claims o)
      (a.client o) (a.inflaters o) (a.opened o)) : Kept s a where
  sound := hs
  booked := by
    intro j
    by_cases ho : j = o
    · rw [ho]
      exact hbo
    · obtain ⟨hp, hc, hi, hop⟩ := hot j ho
      have hb := hk.booked j
      rw [hc, hi, hop]
      exact ⟨hp.trans hb.claims, hb.ahead, hb.progress, hb.inflaters⟩

theorem Kept.begins_nodup (hk : Kept s ps) (o : O) : ((ps.client o).blocks.map Prod.fst).Nodup :=
  ((hk.booked o).claims.map Prod.fst).nodup_iff.mp (Parts.held_begins_nodup hk.sound o)

omit [DecidableEq O] in
theorem mem_keys_foldl_insert {c : List Range} {p : OrdMap Int Int} {key : Int} :
    key ∈ (c.foldl (fun p (b : Range) =>
      p.insert b.1 0) p).keys ↔
      key ∈ p.keys ∨ key ∈ c.map Prod.fst := by
  induction c generalizing p with
  | nil => simp
  | cons b r ih =>
    rw [foldl_cons, ih, mem_keys_insert, map_cons, mem_cons]
    tauto

variable {inflaters i : OrdMap Int Z} {held blocks : List Range} {before bf : Client}
  {opened : List Int} {b : Range}

/-- A client that loses its blocks, with no stream left. -/
theorem stopDownloading_kept (hk : Kept s ps) (o : O) (he : i = ∅) : Kept s ({ ps with
      swarm := ps.swarm.stopDownloading o }.setInflaters o i) := by
  refine hk.of_client o ?_ ?_ ?_
  · exact hk.sound.claims filter_sublist
  · intro j ho
    simp only [Swarm.stopDownloading, Swarm.update, setInflaters, client,
      Parts.held_releaseAll, if_neg ho, update_of_ne ho, List.Perm.refl, and_self]
  · simp only [Swarm.stopDownloading, Swarm.update, setInflaters, client,
      Parts.held_releaseAll, if_true, update_self, he]
    exact ⟨List.Perm.refl _, Nat.zero_le _, by simp [OrdMap.keys], by simp [OrdMap.keys]⟩

/-- What `requestBlocks` can come to. -/
inductive Requested (swarm : Swarm O) (parts : Parts) (owner : O)
    (ask : Parts.Ask) : Swarm O → Prop
  | none : Requested swarm parts owner ask swarm
  | stopped (hblocks : (swarm.clients owner).blocks = []) :
      Requested swarm parts owner ask (swarm.stopDownloading owner)
  | claimed (hroom : (swarm.clients owner).blocks.length < Swarm.blocksAhead)
      {claims : List (Claim O)} {blocks : List Range}
      (hclaim : parts.claim swarm.claims owner (swarm.clients owner).partStatus
        (Swarm.blocksAhead - (swarm.clients owner).blocks.length) ask = (claims, blocks)) :
      Requested swarm parts owner ask ({ swarm with claims }.update owner
        { swarm.clients owner with
          blocks := (swarm.clients owner).blocks ++ blocks
          progress := blocks.foldl (fun progress (block : Range) =>
            progress.insert block.1 0) (swarm.clients owner).progress })

theorem requestBlocks_requested (s : Swarm O) (ps : Parts) (o : O) (ask : Parts.Ask) :
    Requested s ps o ask (s.requestBlocks ps o ask) := by
  unfold Swarm.requestBlocks
  dsimp only
  split
  · exact .none
  · next hr =>
    split
    · split
      · next hb => exact .stopped (isEmpty_iff.mp hb)
      · exact .none
    · exact .claimed (by omega) rfl

/-- The blocks claimed stand behind those requested before, and none of them
begins where another one does. -/
theorem claimed_booked {a : List Range} (hb : Booked held bf i opened)
    (hl : blocks.length ≤ Swarm.blocksAhead - bf.blocks.length)
    (ha : a.Perm (held ++ blocks)) (hn : (a.map Prod.fst).Nodup) : Booked a
      { bf with
        blocks := bf.blocks ++ blocks
        progress := blocks.foldl (fun progress (b : Range) =>
          progress.insert b.1 0) bf.progress }
      i (opened.filter fun begin =>
        begin ∉ blocks.map Prod.fst) := by
  have hp : a.Perm (bf.blocks ++ blocks) := ha.trans (hb.claims.append_right blocks)
  refine ⟨hp, ?_, ?_, ?_⟩
  · have hah := hb.ahead
    rw [length_append]
    omega
  · intro key hk
    rw [map_append, mem_append]
    rcases mem_keys_foldl_insert.mp hk with hold | hne
    · exact .inl (hb.progress key hold)
    · exact .inr hne
  · intro key hk
    obtain ⟨hbl, ho⟩ := hb.inflaters key hk
    rw [(hp.map Prod.fst).nodup_iff, map_append] at hn
    have hf := (disjoint_of_nodup_append hn) hbl
    rw [map_append, mem_append, mem_filter]
    exact ⟨.inl hbl, ho, decide_eq_true hf⟩

theorem requestBlocks_kept (hk : Kept s ps) (o : O) (ask : Parts.Ask) :
    Kept s (ps.requestBlocks o ask) := by
  have hb := hk.booked o
  unfold requestBlocks
  have hr := requestBlocks_requested ps.swarm ps.parts o ask
  generalize ps.swarm.requestBlocks ps.parts o ask = swarm at hr
  cases hr with
  | none =>
    refine hk.of_client o hk.sound ?_ ?_
    · intro j ho
      simp only [client, update_of_ne ho, List.Perm.refl, and_self]
    · simpa [client] using hb
  | stopped hblo =>
    refine hk.of_client o (hk.sound.claims filter_sublist) ?_ ?_
    · intro j ho
      simp only [Swarm.stopDownloading, Swarm.update, client,
        Parts.held_releaseAll, if_neg ho, update_of_ne ho, List.Perm.refl, and_self]
    · simp only [Swarm.stopDownloading, Swarm.update, client,
        Parts.held_releaseAll, if_true, update_self]
      refine ⟨List.Perm.refl _, Nat.zero_le _, by simp [OrdMap.keys], ?_⟩
      intro key hke
      have hbl := (hb.inflaters key hke).1
      rw [client, hblo] at hbl
      exact absurd hbl not_mem_nil
  | @claimed hro cs b hc =>
    have hs := Board.claim_sound hk.sound o (ps.client o).partStatus
      (Swarm.blocksAhead - (ps.client o).blocks.length) ask
    have hh := fun j => Parts.held_claim ps.parts ps.swarm.claims o j (ps.client o).partStatus
      (Swarm.blocksAhead - (ps.client o).blocks.length) ask
    have hl := Parts.claim_length_le ps.parts ps.swarm.claims o (ps.client o).partStatus
      (Swarm.blocksAhead - (ps.client o).blocks.length) ask
    rw [Board.step] at hs
    simp only [client, hc] at hs hh hl
    refine hk.of_client o hs ?_ ?_
    · intro j ho
      have ho' := hh j
      rw [if_neg ho, append_nil] at ho'
      simp only [Swarm.update, client, update_of_ne ho, ho', and_self]
    · have hown := hh o
      rw [if_pos rfl] at hown
      simp only [Swarm.update, client, update_self, drop_left]
      exact claimed_booked hb hl hown (Parts.held_begins_nodup hs o)

theorem filter_ne_block (hn : (blocks.map Prod.fst).Nodup) (hbl : b ∈ blocks) :
    blocks.filter (· ≠ b) = blocks.filter fun r => r.1 ≠ b.1 := by
  apply filter_congr
  intro r hr
  rw [decide_eq_decide, not_iff_not]
  constructor
  · intro hs
    rw [hs]
  · intro hb
    exact inj_on_of_nodup_map hn hr hbl hb

theorem done_booked (hb : Booked held bf i opened) (hno : (bf.blocks.map Prod.fst).Nodup)
    (hbl : b ∈ bf.blocks) :
    Booked (held.filter fun r => r.1 ≠ b.1) { bf with
        blocks := bf.blocks.filter (· ≠ b)
        progress := bf.progress.erase b.1 } (i.erase b.1) opened := by
  have hke : ∀ key, key ≠ b.1 → key ∈ bf.blocks.map Prod.fst →
      key ∈ (bf.blocks.filter (· ≠ b)).map Prod.fst := by
    intro key hn hk
    obtain ⟨r, hr, hf⟩ := mem_map.mp hk
    rw [mem_map]
    refine ⟨r, mem_filter.mpr ⟨hr, ?_⟩, hf⟩
    rw [decide_eq_true_eq]
    intro hs
    rw [hs] at hf
    exact hn hf.symm
  refine ⟨?_, ?_, ?_, ?_⟩
  · rw [filter_ne_block hno hbl]
    exact hb.claims.filter _
  · exact Nat.le_trans (length_filter_le _ _) hb.ahead
  · intro key hk
    obtain ⟨hn, hold⟩ := (mem_keys_erase _ _ _).mp hk
    exact hke key hn (hb.progress key hold)
  · intro key hk
    obtain ⟨hn, hold⟩ := (mem_keys_erase _ _ _).mp hk
    obtain ⟨hbe, ho⟩ := hb.inflaters key hold
    exact ⟨hke key hn hbe, ho⟩

section

variable (hk : Kept s ps)

include hk

theorem blockDone_kept (o : O) (hbl : b ∈ (ps.client o).blocks) (ask : Parts.Ask) :
    Kept s (ps.blockDone o b ask) := by
  apply requestBlocks_kept
  have hb := hk.booked o
  refine hk.of_client o ?_ ?_ ?_
  · exact hk.sound.claims eraseP_sublist
  · intro j ho
    simp only [Swarm.update, setInflaters, client, Parts.held_release hk.sound, if_neg ho,
      update_of_ne ho, List.Perm.refl, and_self]
  · simp only [Swarm.update, setInflaters, client,
      Parts.held_release hk.sound, if_true, update_self]
    exact done_booked hb (hk.begins_nodup o) hbl

/-- The claims and the blocks of a client stay as they are. -/
theorem Kept.of_books (o : O) {c : Client}
    (hbl : c.blocks = (ps.client o).blocks)
    (hp : ∀ key ∈ c.progress.keys, key ∈ (ps.client o).blocks.map Prod.fst) :
    Kept s { ps with swarm := ps.swarm.update o c } := by
  have hb := hk.booked o
  refine hk.of_client o hk.sound ?_ ?_
  · intro j ho
    simp only [Swarm.update, Peers.client, update_of_ne ho, List.Perm.refl, and_self]
  · simp only [Swarm.update, Peers.client, update_self]
    refine ⟨?_, ?_, ?_, ?_⟩ <;> rw [hbl]
    · exact hb.claims
    · exact hb.ahead
    · exact hp
    · exact hb.inflaters

theorem noteReceived_kept (o : O) (begin stop : Int) (ask : Parts.Ask) :
    Kept s (ps.noteReceived o begin stop ask) := by
  unfold noteReceived
  dsimp only
  split
  · exact hk
  · next b hb =>
    have hm := mem_of_find?_eq_some hb
    have hn : ∀ got, Kept s { ps with swarm := ps.swarm.update o { ps.client o with
            progress := (ps.client o).progress.insert b.1 got } } := by
      intro got
      refine hk.of_books o ?_ ?_
      · rfl
      intro key hke
      rcases (mem_keys_insert _ _ _ _).mp hke with hs | hold
      · rw [hs]
        exact mem_map_of_mem hm
      · exact (hk.booked o).progress key hold
    split
    · apply blockDone_kept (hn _)
      simpa [client, Swarm.update] using hm
    · exact hn _

theorem closed_kept (o : O) : Kept s (ps.closed o) :=
  stopDownloading_kept hk o rfl

theorem receiveBlock_kept (o : O) (b st : Int) (bs : Nat) (ask : Parts.Ask) :
    Kept s (ps.receiveBlock o b st bs ask) := by
  unfold receiveBlock
  split
  · exact hk
  split
  · exact closed_kept hk o
  split
  · exact hk
  · apply noteReceived_kept
    exact hk.parts (Board.add_sound hk.sound b st)

theorem accept_kept (o : O) (ask : Parts.Ask) : Kept s (ps.accept o ask) := by
  apply requestBlocks_kept
  exact hk.of_books o rfl (hk.booked o).progress

/-- A stream of a requested block, noted as opened. -/
theorem opened_kept (o : O) (hbl : b ∈ (ps.client o).blocks)
    (hke : ∀ key ∈ i.keys, key = b.1 ∨ key ∈ (ps.inflaters o).keys) : Kept s ({ ps with
      opened := update ps.opened o (b.1 :: ps.opened o) }.setInflaters o i) := by
  have hb := hk.booked o
  refine hk.of_client o hk.sound ?_ ?_
  · intro j hot
    simp only [setInflaters, client, update_of_ne hot, List.Perm.refl, and_self]
  · simp only [setInflaters, client, update_self]
    refine ⟨hb.claims, hb.ahead, hb.progress, ?_⟩
    intro key hkey
    rcases hke key hkey with hs | hold
    · rw [hs]
      exact ⟨mem_map_of_mem hbl, mem_cons_self⟩
    · obtain ⟨hbe, ho⟩ := hb.inflaters key hold
      exact ⟨hbe, mem_cons_of_mem _ ho⟩

end

theorem receiveCompressed_kept (z : Inflating Z) (hk : Kept s ps) (o : O) (be : Int) (d : Text)
    (ask : Parts.Ask) : Kept s (ps.receiveCompressed z o be d ask) := by
  unfold receiveCompressed
  split
  · exact hk
  split
  · exact hk
  · next b hb =>
    have hm : b ∈ (ps.client o).blocks := mem_of_find?_eq_some hb
    dsimp only
    split
    · exact closed_kept hk o
    · next p i _ =>
      have hi : ∀ key ∈ ((ps.inflaters o).insert b.1
          i).keys, key = b.1 ∨ key ∈ (ps.inflaters o).keys :=
        fun key hke => (mem_keys_insert _ _ _ _).mp hke
      split
      · exact opened_kept hk o hm hi
      · apply receiveBlock_kept
        apply opened_kept hk o hm
        split
        · exact hi
        · intro key hke
          exact hi key ((mem_keys_erase _ _ _).mp hke).2

/-- A client is released with its connection open only while it has no
stream. -/
def Emptied (peers : Peers O Z) : Input O → Prop
  | .release owner => (peers.inflaters owner).keys = []
  | _ => True

instance (peers : Peers O Z) (input : Input O) : Decidable (Emptied peers input) := by
  cases input <;> simp only [Emptied] <;> infer_instance

theorem step_kept (z : Inflating Z) (hk : Kept s ps) {input : Input O} (he : Emptied ps input) :
    Kept s (ps.step z input) := by
  cases input with
  | add b st =>
    exact hk.parts (Board.add_sound hk.sound b st)
  | verify i => exact hk.parts (Board.verify_sound hk.sound i)
  | reject i => exact hk.parts (Board.reject_sound hk.sound i)
  | status o p =>
    exact hk.of_books o rfl (hk.booked o).progress
  | accept o ask => exact accept_kept hk o ask
  | part o b st bs ask =>
    exact receiveBlock_kept hk o b st bs ask
  | compressedPart o b d ask =>
    exact receiveCompressed_kept z hk o b d ask
  | release o =>
    have hem : ps.inflaters o = ∅ := eq_empty_of_entries (map_eq_nil_iff.mp he)
    have hs := stopDownloading_kept hk o hem
    simp only [setInflaters, update_eq_self] at hs
    exact hs
  | closed o => exact closed_kept hk o

theorem ofSize_kept (s : Int) : Kept s ({ parts := .ofSize s } : Peers O Z) where
  sound := Board.ofSize_sound s
  booked := fun _ => ⟨List.Perm.refl _, Nat.zero_le _, by simp [OrdMap.keys, client], by simp [OrdMap.keys]⟩

/-- While no client is released in the middle of a compressed block: after
every event the claims of a client are its blocks, which are at most three,
what is counted and what is inflated is of them, and the first compressed
packet of a block since it was requested is inflated by a fresh stream, at the
begin of the block. -/
theorem run_blocks_agree (zlib : Inflating Z) (size : Int) (inputs : List (Input O))
    (hmeets : Runs.Meets (step zlib) Emptied ({ parts := Parts.ofSize size } : Peers O Z) inputs)
    (owner : O) : let peers := Runs.run (step zlib) ({ parts := .ofSize size } : Peers O Z) inputs
    let client := peers.swarm.clients owner
    (Parts.held peers.swarm.claims owner).Perm client.blocks ∧
    client.blocks.length ≤ Swarm.blocksAhead ∧
    (∀ key ∈ client.progress.keys, key ∈ client.blocks.map Prod.fst) ∧
    (∀ key ∈ (peers.inflaters owner).keys, key ∈ client.blocks.map Prod.fst) ∧
    ∀ block ∈ client.blocks, block.1 ∉ peers.opened owner →
      peers.inflater zlib owner block = zlib.fresh ∧ peers.offset zlib owner block = block.1 := by
  intro peers client
  have hstep : ∀ (before : Peers O Z) (input : Input O), Kept size before →
      Emptied before input → Kept size (before.step zlib input) :=
    fun _ _ hkept hemptied => step_kept zlib hkept hemptied
  have hkept : Kept size peers := Runs.run_invariant hstep (ofSize_kept size) hmeets
  have hbooked := hkept.booked owner
  refine ⟨hbooked.claims, hbooked.ahead, hbooked.progress,
    fun key hkey => (hbooked.inflaters key hkey).1, ?_⟩
  intro block _ hclosed
  have hnone : (peers.inflaters owner).find? block.1 = none := by
    by_contra hsome
    exact hclosed (hbooked.inflaters block.1 ((mem_keys_iff _ _).mpr hsome)).2
  have hfresh : peers.inflater zlib owner block = zlib.fresh := by
    rw [inflater, hnone, Option.getD_none]
  rw [offset, hfresh, zlib.fresh_length, Int.add_zero]
  exact ⟨rfl, rfl⟩

/-- A stream with a header of one byte and its data as it is; the state is the
number of bytes read. -/
def headed : Inflating Nat where
  fresh := 0
  inflateChunk := fun read data _ _ =>
    some (if read = 0 then data.tail else data, read + data.length)
  active := fun _ => true
  inflatedLength := fun read => (read - 1 : Nat)
  fresh_length := rfl

/-- A slot, the header of a compressed block, and the end of the connection,
then a slot again. -/
theorem run_blocks_agree_closed : Runs.Meets (step headed) Emptied
      ({ parts := Parts.ofSize 10 } : Peers Unit Nat)
      [.accept () {}, .compressedPart () 0 [120] {}, .closed (), .accept () {}] ∧
    (Runs.run (step headed) ({ parts := .ofSize 10 } : Peers Unit Nat)
      [.accept () {}, .compressedPart () 0 [120] {}, .closed (),
        .accept () {}]).inflater headed () (0, 10) = 0 :=
  have hmeets : Runs.Meets (step headed) Emptied ({ parts := .ofSize 10 } : Peers Unit Nat)
      [.accept () {}, .compressedPart () 0 [120] {}, .closed (), .accept () {}] := by decide +kernel
  ⟨hmeets, ((run_blocks_agree headed 10 _ hmeets ()).2.2.2.2 (0, 10)
    (by decide +kernel) (by decide +kernel)).1⟩

/-- The slot ends after the header of a compressed block has come, and a slot
is granted again: the stream of the block outlives it, and the first packet of
the block requested anew is inflated by that stream. -/
theorem ended_slot_keeps_stream :
    (let peers := Runs.run (step headed) ({ parts := Parts.ofSize 10 } : Peers Unit Nat)
      [.accept () {}, .compressedPart () 0 [120] {}, .release ()]
    (peers.inflaters ()).keys = [0] ∧ (peers.swarm.clients ()).blocks = []) ∧
    let peers := Runs.run (step headed) ({ parts := .ofSize 10 } : Peers Unit Nat)
      [.accept () {}, .compressedPart () 0 [120] {}, .release (), .accept () {}]
    (peers.swarm.clients ()).blocks = [(0, 10)] ∧ peers.opened () = [] ∧
      peers.inflater headed () (0, 10) ≠ headed.fresh := by
  decide +kernel

end Peers

end Aria2Next
