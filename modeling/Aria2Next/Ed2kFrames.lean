/-
What the steps of the ED2K network leave alone.

Two things are followed: the part requests that wait at a client, which are for
one file, and what ties a client to a file: a place in the upload queue, a slot,
a slot to come, being a source.  Most steps add nothing to either.  The two that
do, the upload request and the new source, are told by `switched` and `tied`.
-/
import Aria2Next.Ed2kNetwork

namespace Aria2Next.Ed2kNetwork

universe u

open UploadQueue (Rounds Rule Ruled)

variable {F : Type u}

/-- The client has a slot or will have one, or is a source. -/
def Client.Bound (client : Client F) : Prop :=
  client.upload = .uploading ∨ client.slotPending = true ∨ client.downloadFile.isSome = true

/-- The fields that tie a client to a file. -/
def Client.ties (client : Client F) : List Range × Option F × Upload × Bool × Option F :=
  (client.requests, client.uploadFile, client.upload, client.slotPending, client.downloadFile)

/-- No request is new, and those that remain are for the same file unless the
client may switch; the client is bound only if it was or may be. -/
structure Client.Keeps (switched tied : Prop) (before after : Client F) :
    Prop where
  requests : after.requests ⊆ before.requests
  file : after.requests = [] ∨ after.uploadFile = before.uploadFile ∨ switched
  bound : after.Bound → before.Bound ∨ tied

namespace Client

variable {sw s tied t : Prop}

variable {b a : Client F}

theorem Keeps.of_ties (ht : a.ties = b.ties) : Keeps s t b a := by
  simp only [ties, Prod.mk.injEq] at ht
  obtain ⟨hr, hf, hu, hp, hs⟩ := ht
  refine ⟨hr ▸ List.Subset.refl _, .inr (.inl hf), ?_⟩
  intro hb
  unfold Bound at hb
  rw [hu, hp, hs] at hb
  exact .inl hb

theorem Keeps.refl (c : Client F) : Keeps s t c c := .of_ties rfl

/-- A client that is new, or as good as new. -/
theorem Keeps.of_new (hr : a.requests = []) (hb : ¬ a.Bound) : Keeps s t b a where
  requests := hr ▸ List.nil_subset _
  file := .inl hr
  bound := fun ha => absurd ha hb

theorem Keeps.mono {t : Prop} (hk : Keeps s t b a) (ht : t → b.Bound ∨ tied) :
    Keeps s tied b a where
  requests := hk.requests
  file := hk.file
  bound := by
    intro hbo
    rcases hk.bound hbo with hb | hm
    · exact .inl hb
    · exact ht hm

theorem Keeps.trans {first s t : Client F} (hf : Keeps sw tied first s) (hse : Keeps sw tied s t) :
    Keeps sw tied first t where
  requests := List.Subset.trans hse.requests hf.requests
  file := by
    rcases hse.file with hn | hsa | hs
    · exact .inl hn
    · rcases hf.file with hn | hfi | hs
      · left
        apply List.eq_nil_of_subset_nil
        rw [← hn]
        exact hse.requests
      · exact .inr (.inl (hsa.trans hfi))
      · exact .inr (.inr hs)
    · exact .inr (.inr hs)
  bound := by
    intro hb
    rcases hse.bound hb with hm | hma
    · exact hf.bound hm
    · exact .inr hma

section Changes

variable (client c : Client F)

theorem setSource_keeps (u : Text) (c : Nat) (f : F) :
    Keeps s True client ((client.learn u c).setSource f) := by
  unfold setSource
  split
  · exact .of_ties rfl
  · exact ⟨List.Subset.refl _, .inr (.inl rfl), fun _ => .inr trivial⟩

theorem dropSource_keeps : Keeps s t c c.dropSource := by
  have hdr : Keeps s t c { c with downloadFile := none, download := .none } := by
    refine ⟨List.Subset.refl _, .inr (.inl rfl), ?_⟩
    rintro (hu | hp | hs)
    · exact .inl (.inl hu)
    · exact .inl (.inr (.inl hp))
    · simp at hs
  unfold dropSource
  dsimp only
  split
  · exact .refl c
  split
  · exact hdr.trans (.of_ties rfl)
  · exact hdr

theorem stopDownloading_keeps (next : Download) : Keeps s t c (c.stopDownloading next) := by
  apply Keeps.of_ties
  unfold stopDownloading
  dsimp only
  split
  · rfl
  split <;> rfl

theorem grantSlot_files : c.grantSlot.1.requests = c.requests ∧
      c.grantSlot.1.uploadFile = c.uploadFile ∧ c.grantSlot.1.downloadFile = c.downloadFile := by
  unfold grantSlot
  dsimp only
  split
  · exact ⟨rfl, rfl, rfl⟩
  split
  · split
    · split <;> exact ⟨rfl, rfl, rfl⟩
    · exact ⟨rfl, rfl, rfl⟩
  · exact ⟨rfl, rfl, rfl⟩

theorem grantSlot_keeps : Keeps s True c c.grantSlot.1 := by
  obtain ⟨hr, hf, -⟩ := c.grantSlot_files
  exact ⟨hr ▸ List.Subset.refl _, .inr (.inl hf), fun _ => .inr trivial⟩

theorem revokeSlot_keeps : Keeps s t c c.revokeSlot := by
  unfold revokeSlot
  split
  · exact .refl c
  · refine ⟨List.nil_subset _, .inl rfl, ?_⟩
    rintro (hu | hp | hs)
    · cases hu
    · exact .inl (.inr (.inl hp))
    · exact .inl (.inr (.inr hs))

theorem unpend_keeps : Keeps s t c { c with slotPending := false } := by
  refine ⟨List.Subset.refl _, .inr (.inl rfl), ?_⟩
  rintro (hu | hp | hs)
  · exact .inl (.inl hu)
  · cases hp
  · exact .inl (.inr (.inr hs))

theorem wait_keeps : Keeps s t c { c with upload := .waiting } := by
  refine ⟨List.Subset.refl _, .inr (.inl rfl), ?_⟩
  rintro (hu | hp | hs)
  · cases hu
  · exact .inl (.inr (.inl hp))
  · exact .inl (.inr (.inr hs))

theorem resume_keeps [DecidableEq F] (t : F → File) (i : Resume) (l : Loop F) :
    Keeps s tied c (c.resume t i l).1 := by
  cases l with
  | head =>
    simp only [resume]
    split
    · split
      · split <;> exact .of_ties rfl
      · exact .of_ties rfl
    · exact .of_ties rfl
  | reading f r =>
    simp only [resume]
    split <;> exact .of_ties rfl
  | sending f r =>
    simp only [resume]
    split
    · split
      · exact .of_ties rfl
      · refine ⟨?_, .inr (.inl rfl), .inl⟩
        split
        · exact (List.tail_sublist _).subset
        · exact List.Subset.refl _
    · exact .of_ties rfl

end Changes

end Client

/-- In the upload queue, with a slot to come, or a source. -/
def Tied (network : Ed2kNetwork F) (id : Nat) : Prop :=
  id ∈ network.queue.members ∨ (network.client id).Bound

/-- What a step does that lets the clients of `switched` change their file and
those of `tied` enter the queue or become sources. -/
structure Keeps (switched tied : Nat → Prop) (before after : Ed2kNetwork F) :
    Prop where
  size : ∀ file, (after.tasks file).parts.size = (before.tasks file).parts.size
  client : ∀ id, (before.client id).Keeps (switched id) (Tied before id ∨ tied id) (after.client id)
  members : ∀ id ∈ after.queue.members, Tied before id ∨ tied id

section Frames

variable {sw s tied t : Nat → Prop}

variable {b a : Ed2kNetwork F}

theorem Keeps.of_tied (hk : Keeps s t b a) {id : Nat} (ht : Tied a id) : Tied b id ∨ t id := by
  rcases ht with hm | hbo
  · exact hk.members id hm
  · rcases (hk.client id).bound hbo with hb | hma
    · exact .inl (.inr hb)
    · exact hma

/-- Only the registry or the files differ. -/
theorem Keeps.of_eq (ht : a.tasks = b.tasks) (hq : a.queue = b.queue) : Keeps s t b a where
  size := fun f => by rw [ht]
  client := fun id => by
    unfold Ed2kNetwork.client
    rw [hq]
    exact .refl _
  members := fun id hm => .inl (.inl (hq ▸ hm))

section

variable (n : Ed2kNetwork F)

theorem Keeps.refl : Keeps s t n n := .of_eq rfl rfl

theorem Keeps.mono {t : Nat → Prop} {b a : Ed2kNetwork F} (hk : Keeps s t b a)
    (ht : ∀ id, t id → Tied b id ∨ tied id) : Keeps s tied b a where
  size := hk.size
  client := fun id => by
    apply (hk.client id).mono
    rintro (hb | hm)
    · exact .inr (.inl hb)
    · exact .inr (ht id hm)
  members := by
    intro id hme
    rcases hk.members id hme with hb | hm
    · exact .inl hb
    · exact ht id hm

theorem Keeps.trans {first s t : Ed2kNetwork F} (hf : Keeps sw tied first s)
    (hs : Keeps sw tied s t) : Keeps sw tied first t where
  size := fun f => (hs.size f).trans (hf.size f)
  client := by
    intro id
    apply (hf.client id).trans
    apply (hs.client id).mono
    rintro (hm | hma)
    · exact .inr (hf.of_tied hm)
    · exact .inr (.inr hma)
  members := by
    intro id hme
    rcases hs.members id hme with hm | hma
    · exact hf.of_tied hm
    · exact .inr hma

theorem client_setClient (id o : Nat) (c : Client F) : (n.setClient id c).client o =
      if o = id then c else n.client o := by
  simp only [setClient, Ed2kNetwork.client, Function.update_apply]

variable {id : Nat} {client c : Client F}

theorem setClient_keeps {n : Ed2kNetwork F} (hc : (n.client id).Keeps (s id) (Tied n id ∨ t id) c) :
    Keeps s t n (n.setClient id c) := by
  refine ⟨fun _ => rfl, fun o => ?_, fun _ hm =>
    .inl (.inl hm)⟩
  rw [client_setClient]
  split
  · rename_i hs
    rw [hs]
    exact hc
  · exact .refl _

theorem modify_keeps {n : Ed2kNetwork F} {c : Client F → Client F}
    (hc : ∀ cl : Client F, cl.Keeps (s id) (Tied n id ∨ t id) (c cl)) :
    Keeps s t n (n.modify id c) := setClient_keeps (hc _)

/-- The queue grants and revokes the slots of its members, whose ties do not
change by that. -/
theorem slots_rule : Rule slots (fun id => Tied n id ∨ t id)
      (fun a => ∀ id, (n.queue.world id).Keeps (s id) (Tied n id ∨ t id) (a id)) where
  grant := by
    intro a c hc ha id
    simp only [slots, Function.update_apply]
    split
    · rename_i hs
      rw [hs]
      apply (ha c).trans
      exact (Client.grantSlot_keeps _).mono fun _ => .inr hc
    · exact ha id
  revoke := by
    intro a c _ ha id
    simp only [slots, Function.update_apply]
    split
    · rename_i hs
      rw [hs]
      exact (ha c).trans (Client.revokeSlot_keeps _)
    · exact ha id

theorem ruled_queue : Ruled (fun id => Tied n id ∨ t id)
      (fun a => ∀ id, (n.queue.world id).Keeps (s id) (Tied n id ∨ t id) (a id)) n.queue :=
  ⟨fun _ hm => .inl (.inl hm), fun _ => .refl _⟩

theorem queue_keeps {n : Ed2kNetwork F} {queue : UploadQueue Nat (Nat → Client F)}
    (hq : Ruled (fun id => Tied n id ∨ t id) (fun a => ∀ id, (n.queue.world id).Keeps (s id)
        (Tied n id ∨ t id) (a id)) queue) :
    Keeps s t n { n with queue } := ⟨fun _ => rfl, hq.world, hq.members⟩

theorem leaveUploadQueue_keeps (id : Nat) (r : Rounds Nat) :
    Keeps s t n (n.leaveUploadQueue id r) :=
  queue_keeps (UploadQueue.removed_ruled (slots_rule n) r id (ruled_queue n))

theorem closed_keeps (id : Nat) (r : Rounds Nat) : Keeps s t n (n.closed id r) := by
  unfold closed
  dsimp only
  have hc : Keeps s t n (n.modify id fun c =>
      if c.download = .connecting ∨ c.download = .asking ∨
          c.download = .downloading then
        Client.stopDownloading { c with
          connection := none
          handshaked := false
          uploading := false } .idle
      else { c with
        connection := none
        handshaked := false
        uploading := false }) := by
    apply modify_keeps
    intro c
    split
    · apply Client.Keeps.trans _ (Client.stopDownloading_keeps _ _)
      exact Client.Keeps.of_ties rfl
    · exact .of_ties rfl
  split
  · exact hc.trans (leaveUploadQueue_keeps _ id r)
  · exact hc

theorem grantSlot_keeps (r : Rounds Nat) (hi : t id) : Keeps s t n (n.grantSlot id r) := by
  unfold grantSlot
  dsimp only
  have hg : Keeps s t n (n.setClient id (n.client id).grantSlot.1) :=
    setClient_keeps ((Client.grantSlot_keeps _).mono fun _ =>
      .inr (.inr hi))
  split
  · exact hg.trans (leaveUploadQueue_keeps _ id r)
  · exact hg

theorem handshakeDone_keeps (id : Nat) (r : Rounds Nat) : Keeps s t n (n.handshakeDone id r) := by
  unfold handshakeDone
  dsimp only
  have hs : Keeps s t n (n.modify id fun c =>
      { c with handshaked := true }) :=
    modify_keeps fun _ => .of_ties rfl
  generalize (n.modify id fun c =>
    { c with handshaked := true }) = shaken at hs
  have hg : Keeps s t n (if (shaken.client id).slotPending then
        (shaken.modify id fun c =>
          { c with slotPending := false }).grantSlot id r
      else shaken) := by
    split
    · rename_i hp
      apply hs.trans
      -- the pending slot is a tie of the client before it is cleared
      have hsl : Keeps s (fun o => t o ∨ o = id) shaken ((shaken.modify id fun c =>
            { c with slotPending := false }).grantSlot id r) :=
        (modify_keeps fun c => c.unpend_keeps).trans (grantSlot_keeps _ r (.inr rfl))
      apply hsl.mono
      rintro o (ho | hsa)
      · exact .inr ho
      · rw [hsa]
        exact .inl (.inr (.inr (.inl hp)))
    · exact hs
  generalize (if (shaken.client id).slotPending then
      (shaken.modify id fun c =>
        { c with slotPending := false }).grantSlot id r
      else shaken) = granted at hg
  split
  · exact hg
  split
  · apply hg.trans
    exact setClient_keeps (.of_ties rfl)
  · exact hg

theorem identified_keeps (id : Nat) : Keeps s t n (n.identified id).1 := by
  unfold identified
  dsimp only
  split
  · exact .refl n
  split
  · exact .of_eq rfl rfl
  split
  · exact .refl n
  split
  · split
    · exact .refl n
    · exact .of_eq rfl rfl
  · exact .refl n

theorem hello_keeps [DecidableEq F] (n : Ed2kNetwork F) (id : Nat) (u : Text) (p ci : Nat)
    (r : Nat → Rounds Nat) : Keeps s t n (n.hello id u p ci r) := by
  unfold hello
  dsimp only
  have hr : Keeps s t n (n.modify id fun c =>
      c.readHello u p ci) :=
    modify_keeps fun c => .of_ties rfl
  have hk := hr.trans (identified_keeps _ id)
  generalize ((n.modify id fun c =>
    c.readHello u p ci).identified id) = answer at hk
  obtain ⟨k, se⟩ := answer
  split
  · exact hk.trans (handshakeDone_keeps _ id _)
  · apply hk.trans
    apply Keeps.trans _ (handshakeDone_keeps _ se _)
    refine Keeps.trans ?_ (modify_keeps fun _ => ?_)
    rotate_left
    · exact .of_ties rfl
    have hm : Keeps s t k (k.modify id fun c =>
        { c with connection := none }) :=
      modify_keeps fun _ => .of_ties rfl
    split
    · exact hm.trans (closed_keeps _ se _)
    · exact hm

theorem helloAnswer_keeps [DecidableEq F] (n : Ed2kNetwork F) (id : Nat) (u : Text) (p c : Nat)
    (r : Rounds Nat) : Keeps s t n (n.helloAnswer id u p c r) := by
  have hr : Keeps s t n (n.modify id fun cl =>
      cl.readHello u p c) :=
    modify_keeps fun cl => .of_ties rfl
  exact (hr.trans (identified_keeps _ id)).trans (handshakeDone_keeps _ id r)

theorem connectDone_keeps (id : Nat) (ok : Bool) (r : Rounds Nat) :
    Keeps s t n (n.connectDone id ok r) := by
  unfold connectDone
  dsimp only
  have hdo : Keeps s t n (n.modify id fun c =>
      { c with connecting := false }) :=
    modify_keeps fun _ => .of_ties rfl
  generalize (n.modify id fun c =>
    { c with connecting := false }) = done at hdo
  split
  · exact hdo.trans (modify_keeps fun _ => .of_ties rfl)
  have hs : Keeps s t n (if (done.client id).download = .connecting
      then done.modify id fun c => c.stopDownloading .idle
      else done) := by
    split
    · exact hdo.trans (modify_keeps fun c => c.stopDownloading_keeps _)
    · exact hdo
  generalize (if (done.client id).download = .connecting
    then done.modify id fun c => c.stopDownloading .idle
    else done) = stopped at hs
  split
  · apply hs.trans
    apply Keeps.trans _ (leaveUploadQueue_keeps _ id r)
    exact modify_keeps fun c => c.unpend_keeps
  · exact hs

theorem newClient_keeps (hr : c.requests = []) (hb : ¬ c.Bound) : Keeps s t n (n.newClient c) := by
  have hs : Keeps s t n (n.setClient n.created c) := setClient_keeps (.of_new hr hb)
  exact ⟨hs.size, hs.client, hs.members⟩

theorem clientAt_keeps (a p c : Nat) : Keeps s t n (n.clientAt a p c).1 := by
  unfold clientAt
  dsimp only
  split
  · exact .refl n
  · have hn : Keeps s t n (n.newClient (.create a p)) :=
      newClient_keeps n rfl (by simp [Client.Bound, Client.create])
    exact ⟨hn.size, hn.client, hn.members⟩

theorem addSource_keeps (f : F) (a p c : Nat) (u : Text) (ht : t (n.clientAt a p c).2) :
    Keeps s t n (n.addSource f a p c u) := by
  unfold addSource
  split
  · exact .refl n
  · apply (clientAt_keeps n a p c).trans
    exact modify_keeps fun cl =>
      (cl.setSource_keeps _ _ _).mono fun _ => .inr (.inr ht)

theorem callAt_keeps (a p : Nat) (m : Bool) : Keeps s t n (n.callAt a p m) := by
  unfold callAt
  apply (clientAt_keeps n a p 0).trans
  apply modify_keeps
  intro c
  apply Client.Keeps.of_ties
  split <;> rfl

theorem askForFile_keeps (id : Nat) (m c : Bool) : Keeps s t n (n.askForFile id m c) := by
  unfold askForFile
  dsimp only
  split
  · exact .refl n
  split
  · exact .refl n
  split
  · split
    · exact setClient_keeps (.of_ties rfl)
    · exact .refl n
  split
  · exact .refl n
  split
  · exact setClient_keeps (Client.stopDownloading_keeps _ _)
  split
  · exact .refl n
  · exact setClient_keeps (.of_ties rfl)

theorem cutClient_keeps [DecidableEq F] (n : Ed2kNetwork F) (f : F) (id : Nat) (r : Rounds Nat) :
    Keeps s t n (n.cutClient f id r) := by
  unfold cutClient
  dsimp only
  have hdr : Keeps s t n (if (n.client id).downloadFile = some f then
        n.modify id Client.dropSource else n) := by
    split
    · exact modify_keeps Client.dropSource_keeps
    · exact .refl n
  generalize (if (n.client id).downloadFile = some f then
    n.modify id Client.dropSource else n) = dropped at hdr
  split
  · apply hdr.trans
    apply (leaveUploadQueue_keeps _ id r).trans
    exact modify_keeps Client.revokeSlot_keeps
  · exact hdr

theorem detach_keeps [DecidableEq F] (n : Ed2kNetwork F) (f : F) (r : Nat → Rounds Nat) :
    Keeps s t n (n.detach f r) := by
  have hf : ∀ (ids : List Nat) (n : Ed2kNetwork F), Keeps s t n (ids.foldl (fun n id =>
        n.cutClient f id (r id)) n) := by
    intro ids
    induction ids with
    | nil =>
      intro n
      exact .refl n
    | cons id ids ih =>
      intro n
      exact (cutClient_keeps n f id (r id)).trans (ih _)
  unfold detach
  refine .trans ?_ (hf _ _)
  split
  · exact .of_eq rfl rfl
  · exact .refl n

theorem tick_keeps (now : Int) (r : Rounds Nat) (held : Nat → Bool) :
    Keeps s tied n (n.tick now r held) := by
  have ht : Keeps s tied n { n with queue := n.queue.ticked slots r now } :=
    queue_keeps (UploadQueue.ticked_ruled (slots_rule _) r now (ruled_queue n))
  unfold tick
  apply ht.trans
  generalize ({ n with queue := n.queue.ticked slots r now } : Ed2kNetwork F) = ticked
  refine ⟨fun _ => rfl, fun id => ?_, fun _ hm =>
    .inl (.inl hm)⟩
  simp only [forget, client]
  split
  · exact .of_new rfl (by simp [Client.Bound])
  · exact .refl _

end

theorem resume_keeps [DecidableEq F] (n : Ed2kNetwork F) (id index : Nat) (i : Client.Resume) :
    Keeps s t n (n.resume id index i) := by
  unfold resume
  dsimp only
  split
  · exact .refl n
  · apply setClient_keeps
    rename_i l _
    apply ((n.client id).resume_keeps n.tasks i l).trans
    exact .of_ties rfl

theorem progress_keeps [DecidableEq F] (n : Ed2kNetwork F) (f : F) (v : Nat → Bool)
    (p : Ed2kTask.Phase) : Keeps s t n (n.act (.progress f v p)) := by
  refine ⟨fun o => ?_, fun _ => .refl _, fun _ hm =>
    .inl (.inl hm)⟩
  simp only [act, Function.update_apply]
  split
  · rename_i hs
    rw [hs]
    rfl
  · rfl

theorem incoming_keeps [DecidableEq F] (n : Ed2kNetwork F) (a p : Nat) :
    Keeps s t n (n.act (.incoming a p)) :=
  newClient_keeps n rfl (by simp [Client.Bound, Client.create, Client.run])

theorem reask_keeps [DecidableEq F] (n : Ed2kNetwork F) (id : Nat) (now : Int) :
    Keeps s t n (n.act (.reask id now)) := by
  refine ⟨fun _ => rfl, fun _ => .refl _, fun o hm => ?_⟩
  have hs := UploadQueue.touched_members n.queue id now
  exact .inl (.inl (hs ▸ hm))

theorem download_keeps [DecidableEq F] (n : Ed2kNetwork F) (id : Nat) (next : Download) :
    Keeps s t n (n.act (.download id next)) := by
  apply setClient_keeps
  apply Client.Keeps.of_ties
  dsimp only
  split <;> rfl

theorem setSlots_keeps [DecidableEq F] (n : Ed2kNetwork F) (s : Int) :
    Keeps sw t n (n.act (.setSlots s)) := ⟨fun _ => rfl, fun _ => .refl _, fun _ hm =>
    .inl (.inl hm)⟩

/-- The client may enter the queue, and if it asks for another file while part
requests wait, it switches. -/
theorem answerUploadRequest_keeps [DecidableEq F] (n : Ed2kNetwork F)
    (id : Nat) (p : Text) (now : Int) (r : Rounds Nat) (hf : ∀ f ∈ n.sharedFile (p.take hashLength),
      t id ∧ ((n.client id).uploadFile = some f ∨ (n.client id).requests = [] ∨ s id)) :
    Keeps s t n (n.answerUploadRequest id p now r) := by
  unfold answerUploadRequest
  split
  · exact closed_keeps n id r
  split
  · exact .refl n
  · rename_i f hfi
    obtain ⟨ht, hsw⟩ := hf f hfi
    dsimp only
    split
    · exact .refl n
    have hse : Keeps s t n (n.setClient id { n.client id with uploadFile := some f }) := by
      apply setClient_keeps
      refine ⟨List.Subset.refl _, ?_, .inl⟩
      rcases hsw with hsa | hn | hs
      · exact .inr (.inl hsa.symm)
      · exact .inl hn
      · exact .inr (.inr hs)
    generalize (n.setClient id { n.client id with uploadFile := some f }) = asking at hse
    have ha : Keeps s t n { asking with queue := (asking.queue.requested slots r id now).2 } :=
      hse.trans (queue_keeps (UploadQueue.requested_ruled (slots_rule _)
        r now (ruled_queue asking) (.inr ht)))
    generalize asking.queue.requested slots r id now = answer at ha
    obtain ⟨ra, queue⟩ := answer
    split
    · exact ha.trans (modify_keeps fun c => c.wait_keeps)
    · exact ha

end Frames

end Aria2Next.Ed2kNetwork
