/-
`Network::detach`: a task leaves the network, and every client lets go of it.

The walk is over the registry.  It reaches every client that a task may be tied
to as long as only registered clients enter the upload queue and none of them
loses its place in the registry to another client there.
-/
import Aria2Next.Ed2kFrames

namespace Aria2Next.Ed2kNetwork

open OrdMap

universe u

open UploadQueue (Rounds Rule Ruled)

variable {F : Type u}

/-- `clients_` holds the client. -/
def Registered (network : Ed2kNetwork F) (id : Nat) : Prop := id ∈ network.registry.values

instance (network : Ed2kNetwork F) (id : Nat) : Decidable (Registered network id) :=
  inferInstanceAs (Decidable (id ∈ network.registry.values))

/-- Whoever is tied to a file is registered. -/
def Accounted (network : Ed2kNetwork F) : Prop := ∀ id, Tied network id → Registered network id

section Registry

variable (n : Ed2kNetwork F)

theorem closed_registry (id : Nat) (r : Rounds Nat) : (n.closed id r).registry = n.registry := by
  unfold closed
  dsimp only
  split <;> rfl

theorem grantSlot_registry (id : Nat) (r : Rounds Nat) :
    (n.grantSlot id r).registry = n.registry := by
  unfold grantSlot
  dsimp only
  split <;> rfl

theorem handshakeDone_registry (id : Nat) (r : Rounds Nat) :
    (n.handshakeDone id r).registry = n.registry := by
  unfold handshakeDone
  dsimp only
  have hs : (n.modify id fun c =>
      { c with handshaked := true }).registry = n.registry := rfl
  generalize (n.modify id fun c =>
    { c with handshaked := true }) = shaken at hs
  have hg : (if (shaken.client id).slotPending then
      (shaken.modify id fun c =>
        { c with slotPending := false }).grantSlot id r
      else shaken).registry = n.registry := by
    split
    · rw [grantSlot_registry]
      exact hs
    · exact hs
  generalize (if (shaken.client id).slotPending then
      (shaken.modify id fun c =>
        { c with slotPending := false }).grantSlot id r
      else shaken) = granted at hg
  split
  · exact hg
  split <;> exact hg

theorem connectDone_registry (id : Nat) (ok : Bool) (r : Rounds Nat) :
    (n.connectDone id ok r).registry = n.registry := by
  unfold connectDone
  dsimp only
  split
  · rfl
  split
  · split <;> rfl
  · split <;> rfl

theorem askForFile_registry (id : Nat) (m c : Bool) :
    (n.askForFile id m c).registry = n.registry := by
  unfold askForFile
  dsimp only
  split
  · rfl
  split
  · rfl
  split
  · split <;> rfl
  split
  · rfl
  split
  · rfl
  split <;> rfl

theorem resume_registry [DecidableEq F] (id i : Nat) (input : Client.Resume) :
    (n.resume id i input).registry = n.registry := by
  unfold resume
  dsimp only
  split <;> rfl

theorem answerUploadRequest_registry [DecidableEq F] (id : Nat) (p : Text) (now : Int)
    (r : Rounds Nat) : (n.answerUploadRequest id p now r).registry = n.registry := by
  unfold answerUploadRequest
  split
  · exact closed_registry n id r
  split
  · rfl
  dsimp only
  split
  · rfl
  split <;> rfl

theorem cutClient_registry [DecidableEq F] (f : F) (id : Nat) (r : Rounds Nat) :
    (n.cutClient f id r).registry = n.registry := by
  unfold cutClient
  dsimp only
  split
  · split <;> rfl
  · split <;> rfl

theorem foldl_cutClient_registry [DecidableEq F] (f : F) (r : Nat → Rounds Nat) (ids : List Nat) :
    (ids.foldl (fun n id => n.cutClient f id (r id)) n).registry = n.registry := by
  induction ids generalizing n with
  | nil => rfl
  | cons id ids ih =>
    rw [List.foldl_cons, ih, cutClient_registry]

end Registry

variable {o : Nat} {network n : Ed2kNetwork F}

/-- A key that is set loses at most the client it held. -/
theorem mem_values_insert {r : OrdMap (Nat ×ₗ Nat) Nat} (key : Nat ×ₗ Nat) (id : Nat)
    (ho : o ∈ r.values) : o ∈ (r.insert key id).values ∨ r.find? key = some o := by
  simp only [values, List.mem_map, Prod.exists, exists_eq_right] at ho ⊢
  obtain ⟨p, hp⟩ := ho
  by_cases hk : p = key
  · right
    rw [find?_eq_some_iff, ← hk]
    exact hp
  · left
    refine ⟨p, ?_⟩
    rw [mem_insert]
    exact .inr ⟨hk, hp⟩

theorem mem_values_insert_self (r : OrdMap (Nat ×ₗ Nat) Nat) (key : Nat ×ₗ Nat) (id : Nat) :
    id ∈ (r.insert key id).values := by
  simp only [values, List.mem_map, Prod.exists, exists_eq_right]
  exact ⟨key, (mem_insert _ _ _ _ _).mpr (.inl ⟨rfl, rfl⟩)⟩

section

variable {network n : Ed2kNetwork F}

variable {o id : Nat} {af : Ed2kNetwork F} {input i : Input F} {f : F}

/-- A client loses its place to another only if it has no connection, is no
source and has neither a slot nor a place in the queue that it knows of. -/
theorem identified_registered (id : Nat) (ho : Registered n o) :
    Registered (n.identified id).1 o ∨ o ≠ id ∧ n.registry.find? (n.client id).key = some o ∧
      (n.client o).connected = false ∧ (n.client o).downloadFile = none ∧
      (n.client o).upload = .none := by
  unfold identified
  dsimp only
  split
  · exact .inl ho
  split
  · rename_i hv
    rcases mem_values_insert (n.client id).key id ho with hk | hl
    · exact .inl hk
    · rw [hv] at hl
      cases hl
  · rename_i slot hs
    split
    · exact .inl ho
    rename_i hdi
    split
    · split
      · exact .inl ho
      · rename_i hi
        rcases mem_values_insert (n.client id).key id ho with hk | hl
        · exact .inl hk
        · right
          rw [hs, Option.some.injEq] at hl
          rw [← hl]
          simp only [not_or, Bool.not_eq_true, Option.isSome_eq_false_iff,
            Option.isNone_iff_eq_none, Decidable.not_not] at hi
          exact ⟨hdi, hs, hi.1, hi.2.1, hi.2.2⟩
    · exact .inl ho

/-- No client that waits for a slot is registered where `client` would be and
taken for one with nothing left to do. -/
def Vacant (network : Ed2kNetwork F) (id : Nat) (client : Client F) : Prop :=
  ∀ other ∈ network.registry.find? client.key, other ≠ id →
    (network.client other).connected = false →
    (network.client other).downloadFile = none →
    (network.client other).upload = .none →
    other ∉ network.queue.members ∧ (network.client other).slotPending = false

/-- Clients that ask for a slot are registered, and a hello does not take the
place of a client that waits for one. -/
def Known (network : Ed2kNetwork F) : Input F → Prop
  | .uploadRequest id payload _ _ =>
    ∀ _file ∈ network.sharedFile (payload.take hashLength), Registered network id
  | .hello id userHash port clientId _ =>
    Vacant network id ((network.client id).readHello userHash port clientId)
  | .helloAnswer id userHash port clientId _ =>
    Vacant network id ((network.client id).readHello userHash port clientId)
  | _ => True

instance [DecidableEq F] (network : Ed2kNetwork F) (input : Input F) :
    Decidable (Known network input) := by
  unfold Known Vacant
  split <;> infer_instance

/-- A step that ties nobody but registered clients, and keeps the registry. -/
theorem Keeps.accounted {s : Nat → Prop} {b : Ed2kNetwork F} (hk : Keeps s (Registered b) b af)
    (hre : af.registry = b.registry) (ha : Accounted b) : Accounted af := by
  intro id ht
  unfold Registered
  rw [hre]
  rcases hk.of_tied ht with hb | hr
  · exact ha id hb
  · exact hr

/-- The hello, up to who goes on with the connection. -/
theorem identified_accounted {u : Text} {p c : Nat}
    (hv : Vacant n id ((n.client id).readHello u p c)) (ha : Accounted n)
    (hk : Keeps (fun _ => True) (fun _ => False) n af)
    (hre : af.registry = ((n.modify id fun cl => cl.readHello u p c).identified id).1.registry) :
    Accounted af := by
  intro o ht
  have hb : Tied n o := by
    rcases hk.of_tied ht with hb | hn
    · exact hb
    · exact hn.elim
  have hcl : ∀ slot, slot ≠ id → (n.modify id fun cl =>
      cl.readHello u p c).client slot =
      n.client slot := by
    intro slot hsl
    rw [modify, client_setClient, if_neg hsl]
  have hse : (n.modify id fun cl =>
      cl.readHello u p c).client id =
      (n.client id).readHello u p c := by
    rw [modify, client_setClient, if_pos rfl]
  have hr : Registered (n.modify id fun cl =>
      cl.readHello u p c) o :=
    ha o hb
  unfold Registered
  rw [hre]
  rcases identified_registered id hr with hke |
    ⟨ho, hsl, hc, hs, hu⟩
  · exact hke
  · exfalso
    rw [hse] at hsl
    rw [hcl o ho] at hc hs hu
    obtain ⟨hm, hpe⟩ := hv o hsl ho hc hs hu
    rcases hb with hq | hslo | hp | hso
    · exact hm hq
    · rw [hu] at hslo
      cases hslo
    · rw [hpe] at hp
      cases hp
    · rw [hs] at hso
      cases hso

theorem hello_registry [DecidableEq F] (n : Ed2kNetwork F) (id : Nat) (u : Text) (p c : Nat)
    (r : Nat → Rounds Nat) : (n.hello id u p c r).registry = ((n.modify id fun cl =>
        cl.readHello u p c).identified id).1.registry := by
  unfold hello
  dsimp only
  generalize ((n.modify id fun cl =>
    cl.readHello u p c).identified id) = answer
  obtain ⟨k, s⟩ := answer
  split
  · exact handshakeDone_registry k id _
  · rw [handshakeDone_registry]
    change (if _ then _ else _ : Ed2kNetwork F).registry = _
    split
    · exact closed_registry _ s _
    · rfl

/-- The new client of an address is registered, and nobody leaves. -/
theorem clientAt_registered (n : Ed2kNetwork F) (a p c : Nat) :
    Registered (n.clientAt a p c).1 (n.clientAt a p c).2 ∧
      ∀ id, Registered n id → Registered (n.clientAt a p c).1 id := by
  unfold clientAt
  dsimp only
  split
  · rename_i id hi
    refine ⟨?_, fun _ => fun hr => hr⟩
    have he := (find?_eq_some_iff _ _ _).mp hi
    exact List.mem_map_of_mem he
  · rename_i hv
    refine ⟨mem_values_insert_self _ _ _, fun id hr => ?_⟩
    rcases mem_values_insert (toLex (if a = 0 then c else a, p)) n.created hr with hk | hl
    · exact hk
    · rw [hv] at hl
      cases hl

theorem addSource_accounted (ha : Accounted n) (f : F) (a p c : Nat) (u : Text) :
    Accounted (n.addSource f a p c u) := by
  obtain ⟨hne, hold⟩ := clientAt_registered n a p c
  have hk : Keeps (fun _ => True) (· = (n.clientAt a p c).2) n
      (n.addSource f a p c u) := addSource_keeps n f a p c u rfl
  intro id ht
  have hb := hk.of_tied ht
  unfold addSource at ht ⊢
  split
  · rename_i hn
    rw [if_pos hn] at ht
    exact ha id ht
  · rcases hb with hb | hs
    · exact hold id (ha id hb)
    · rw [hs]
      exact hne

theorem callAt_accounted (ha : Accounted n) (a p : Nat) (m : Bool) :
    Accounted (n.callAt a p m) := by
  have hk : Keeps (fun _ => True) (fun _ => False) n (n.callAt a p m) := callAt_keeps n a p m
  intro id ht
  rcases hk.of_tied ht with hb | hn
  · exact (clientAt_registered n a p 0).2 id (ha id hb)
  · exact hn.elim

/-- Only clients without a tie are forgotten. -/
theorem forget_accounted (held : Nat → Bool) (ha : Accounted n) : Accounted (n.forget held) := by
  intro id ht
  have hc : (n.forget held).client id = if n.forgettable held id then {} else n.client id := rfl
  by_cases hg : n.forgettable held id = true
  · exfalso
    rcases ht with hm | hb
    · have ho : id ∉ n.queue.members := by
        simp only [forgettable, Bool.and_eq_true, decide_eq_true_eq] at hg
        exact hg.1.1.1.1.2
      exact ho hm
    · rw [hc, if_pos hg] at hb
      simp [Client.Bound] at hb
  · have hbe : Tied n id := by
      rcases ht with hm | hb
      · exact .inl hm
      · rw [hc, if_neg hg] at hb
        exact .inr hb
    have hr := ha id hbe
    simp only [Registered, values, List.mem_map, Prod.exists, exists_eq_right] at hr ⊢
    obtain ⟨key, hk⟩ := hr
    refine ⟨key, ?_⟩
    rw [forget, mem_filter]
    exact ⟨hk, by simpa using hg⟩

theorem closed_accounted (ha : Accounted n) (id : Nat) (r : Rounds Nat) :
    Accounted (n.closed id r) := by
  have hk : Keeps (fun _ => True) (Registered n) n (n.closed id r) := closed_keeps n id r
  exact hk.accounted (closed_registry n id r) ha

/-- A part request changes the requests and the loop of its client only. -/
theorem answerPartRequest_accounted (hac : Accounted n) (id : Nat) (p : Text) (l : Bool)
    (r : Rounds Nat) : Accounted (n.answerPartRequest id p l r) := by
  have hb : ((n.client id).answerPartRequest n.tasks p l).1.Bound → (n.client id).Bound := by
    unfold Client.answerPartRequest
    split
    · exact fun hb => hb
    split
    · exact fun hb => hb
    split
    · exact fun hb => hb
    dsimp only
    split
    · exact fun hb => hb
    · split <;> exact fun hb => hb
  have hs : Accounted (n.setClient id ((n.client id).answerPartRequest n.tasks p l).1) := by
    intro o ht
    apply hac
    rcases ht with hm | ha
    · exact .inl hm
    · right
      rw [client_setClient] at ha
      split at ha
      · rename_i hsa
        rw [hsa]
        exact hb ha
      · exact ha
  unfold answerPartRequest
  dsimp only
  split
  · exact closed_accounted hs id r
  · exact hs

theorem act_accounted [DecidableEq F] {n : Ed2kNetwork F} (hk : Known n i) (ha : Accounted n) :
    Accounted (n.act i) := by
  have hs : ∀ {af : Ed2kNetwork F}, Keeps (fun _ => True) (Registered n) n af →
      af.registry = n.registry → Accounted af := fun hke hr => hke.accounted hr ha
  cases i with
  | uploadRequest id pa now r =>
    apply hs _ (answerUploadRequest_registry n id pa now _)
    apply answerUploadRequest_keeps
    intro f hf
    exact ⟨hk f hf, .inr (.inr trivial)⟩
  | partRequest id pa large r =>
    exact answerPartRequest_accounted ha id pa large r
  | attach f => exact hs (.of_eq rfl rfl) rfl
  | detach f r =>
    apply hs (detach_keeps n f r)
    simp only [detach]
    rw [foldl_cutClient_registry]
    split <;> rfl
  | progress f verified phase =>
    exact hs (progress_keeps n _ _ _) rfl
  | incoming a port => exact hs (incoming_keeps n _ _) rfl
  | addSource f a port c u =>
    exact addSource_accounted ha f a port c u
  | callAt a port m =>
    exact callAt_accounted ha a port m
  | askForFile id m cb =>
    exact hs (askForFile_keeps n id m cb) (askForFile_registry n id m cb)
  | connectDone id ok r =>
    exact hs (connectDone_keeps n id ok r) (connectDone_registry n id ok r)
  | hello id u port c r =>
    exact identified_accounted hk ha (hello_keeps n id u port c r) (hello_registry n id u port c r)
  | helloAnswer id u port c r =>
    exact identified_accounted hk ha (helloAnswer_keeps n id u port c r)
      (handshakeDone_registry _ id r)
  | cancel id r =>
    exact hs (leaveUploadQueue_keeps n id r) rfl
  | reask id now => exact hs (reask_keeps n id now) rfl
  | closed id r => exact closed_accounted ha id r
  | disconnect id =>
    exact hs (modify_keeps fun _ => .of_ties rfl) rfl
  | download id next => exact hs (download_keeps n id next) rfl
  | dropSource id => exact hs (modify_keeps Client.dropSource_keeps) rfl
  | resume id index i =>
    exact hs (resume_keeps n id index i) (resume_registry n id index i)
  | tick now r held =>
    apply forget_accounted
    exact hs (queue_keeps (UploadQueue.ticked_ruled (slots_rule n) r now (ruled_queue n))) rfl
  | setSlots slots => exact hs (setSlots_keeps n slots) rfl

theorem step_accounted [DecidableEq F] {n : Ed2kNetwork F} (hk : Known n i) (ha : Accounted n) :
    Accounted (n.step i) := by
  unfold step
  split
  · exact act_accounted hk ha
  · exact ha

/-- The client has let go of the file. -/
def Cut (network : Ed2kNetwork F) (file : F) (id : Nat) : Prop :=
  (network.client id).downloadFile ≠ some file ∧ ((network.client id).uploadFile = some file →
      id ∉ network.queue.members ∧ (network.client id).upload ≠ .uploading)

theorem Client.dropSource_uploadFile (c : Client F) :
    c.dropSource.uploadFile = c.uploadFile ∧ c.dropSource.upload = c.upload ∧
      c.dropSource.downloadFile = none := by
  unfold dropSource
  dsimp only
  split
  · rename_i hn
    rw [Option.isNone_iff_eq_none] at hn
    exact ⟨rfl, rfl, hn⟩
  split <;> exact ⟨rfl, rfl, rfl⟩

theorem Client.revokeSlot_files (c : Client F) : c.revokeSlot.uploadFile = c.uploadFile ∧
      c.revokeSlot.downloadFile = c.downloadFile ∧ c.revokeSlot.upload ≠ .uploading := by
  unfold revokeSlot
  split
  · rename_i hu
    exact ⟨rfl, rfl, hu⟩
  · exact ⟨rfl, rfl, by simp⟩

/-- The queue changes no file of a client, and nothing of one outside it. -/
theorem files_rule (n : Ed2kNetwork F) : Rule slots (· ∈ n.queue.members) (fun w => ∀ id,
      (w id).uploadFile = (n.client id).uploadFile ∧
      (w id).downloadFile = (n.client id).downloadFile ∧
      (id ∉ n.queue.members → (w id).upload = (n.client id).upload)) where
  grant := by
    intro w c hc hw id
    simp only [slots, Function.update_apply]
    split
    · rename_i hsa
      obtain ⟨-, hf, hs⟩ := (w c).grantSlot_files
      rw [hf, hs, hsa]
      obtain ⟨hu, hdo, -⟩ := hw c
      exact ⟨hu, hdo, fun ho => absurd hc ho⟩
    · exact hw id
  revoke := by
    intro w c hc hw id
    simp only [slots, Function.update_apply]
    split
    · rename_i hsa
      obtain ⟨hf, hs, -⟩ := (w c).revokeSlot_files
      rw [hf, hs, hsa]
      obtain ⟨hu, hdo, -⟩ := hw c
      exact ⟨hu, hdo, fun ho => absurd hc ho⟩
    · exact hw id

theorem leaveUploadQueue_files (n : Ed2kNetwork F) (id : Nat) (r : Rounds Nat) :
    Ruled (· ∈ n.queue.members) (fun w => ∀ o, (w o).uploadFile = (n.client o).uploadFile ∧
      (w o).downloadFile = (n.client o).downloadFile ∧
      (o ∉ n.queue.members → (w o).upload = (n.client o).upload))
      (n.leaveUploadQueue id r).queue := UploadQueue.removed_ruled (files_rule n) r id
    ⟨fun _ hm => hm, fun _ => ⟨rfl, rfl, fun _ => rfl⟩⟩

/-- Leaving the queue cuts no tie that was cut already. -/
theorem leaveUploadQueue_cut (id : Nat) (r : Rounds Nat) (hc : Cut n f o) :
    Cut (n.leaveUploadQueue id r) f o := by
  obtain ⟨hme, hw⟩ := leaveUploadQueue_files n id r
  obtain ⟨hu, hdo, ho⟩ := hw o
  constructor
  · intro hs
    exact hc.1 (hdo ▸ hs)
  · intro hf
    obtain ⟨hm, hup⟩ := hc.2 (hu ▸ hf)
    refine ⟨fun ha => hm (hme o ha), fun ha => ?_⟩
    exact hup (ho hm ▸ ha)

theorem setClient_cut {c : Client F} (hc : Cut n f o) (ho : o ≠ id) :
    Cut (n.setClient id c) f o := by
  unfold Cut at hc ⊢
  rw [client_setClient, if_neg ho]
  exact hc

end

theorem cutClient_cut_other [DecidableEq F] {f : F} {id : Nat} (r : Rounds Nat) (hc : Cut n f o)
    (ho : o ≠ id) : Cut (n.cutClient f id r) f o := by
  unfold cutClient
  dsimp only
  have hdr : Cut (if (n.client id).downloadFile = some f then
      n.modify id Client.dropSource else n) f o := by
    split
    · exact setClient_cut hc ho
    · exact hc
  generalize (if (n.client id).downloadFile = some f then
    n.modify id Client.dropSource else n) = dropped at hdr
  split
  · exact setClient_cut (leaveUploadQueue_cut id r hdr) ho
  · exact hdr

theorem cutClient_cut_self [DecidableEq F] (n : Ed2kNetwork F) (f : F) (id : Nat) (r : Rounds Nat) :
    Cut (n.cutClient f id r) f id := by
  unfold cutClient
  dsimp only
  have hdr : ((if (n.client id).downloadFile = some f then
      n.modify id Client.dropSource else n).client id).downloadFile ≠ some f := by
    split
    · rw [modify, client_setClient, if_pos rfl, (Client.dropSource_uploadFile _).2.2]
      simp
    · rename_i ho
      exact ho
  generalize (if (n.client id).downloadFile = some f then
    n.modify id Client.dropSource else n) = dropped at hdr
  split
  · obtain ⟨-, hdo, -⟩ := (leaveUploadQueue_files dropped id r).world id
    unfold Cut
    rw [modify, client_setClient, if_pos rfl, (Client.revokeSlot_files _).2.1]
    refine ⟨fun hs => hdr (hdo ▸ hs), fun _ =>
      ⟨?_, (Client.revokeSlot_files _).2.2⟩⟩
    exact UploadQueue.removed_notMem slots r dropped.queue id
  · rename_i hf
    exact ⟨hdr, fun hsa => absurd hsa hf⟩

/-- The walk of `detach` reaches every client of its list, and what is cut
stays cut. -/
theorem foldl_cutClient_cut [DecidableEq F] (f : F) (r : Nat → Rounds Nat) (ids : List Nat)
    (n : Ed2kNetwork F) (id : Nat) (hi : id ∈ ids ∨ Cut n f id) :
    Cut (ids.foldl (fun n id => n.cutClient f id (r id)) n) f id := by
  induction ids generalizing n with
  | nil =>
    rcases hi with hm | hc
    · exact absurd hm List.not_mem_nil
    · exact hc
  | cons next ids ih =>
    apply ih
    by_cases hs : id = next
    · rw [hs]
      exact .inr (cutClient_cut_self n f next (r next))
    · rcases hi with hm | hc
      · exact .inl ((List.mem_cons.mp hm).resolve_left hs)
      · exact .inr (cutClient_cut_other (r next) hc hs)

theorem detach_cut [DecidableEq F] (ha : Accounted n) (f : F) (r : Nat → Rounds Nat) (id : Nat) :
    Cut (n.detach f r) f id := by
  by_cases hr : Registered n id
  · unfold detach
    apply foldl_cutClient_cut
    left
    split <;> exact hr
  · have hk : Keeps (fun _ => True) (fun _ => False) n (n.detach f r) := detach_keeps n f r
    have hf : ¬ Tied (n.detach f r) id := by
      intro ht
      rcases hk.of_tied ht with hb | hn
      · exact hr (ha id hb)
      · exact hn
    simp only [Tied, Client.Bound, not_or] at hf
    obtain ⟨hm, hu, -, hs⟩ := hf
    refine ⟨fun hfi => ?_, fun _ => ⟨hm, hu⟩⟩
    rw [hfi] at hs
    exact hs rfl

/-- In every run in which only registered clients ask for slots and no hello
takes the place of a client that waits for one, a task that is detached is the
file of no client that uploads or is in the queue, and no client is a source of
it. -/
theorem run_detach_cuts_ties [DecidableEq F] (tasks : F → File) (inputs : List (Input F))
    (hknown : Runs.Meets step Known { tasks := tasks } inputs) (file : F)
    (rounds : Nat → Rounds Nat) (id : Nat) :
    let network := (Runs.run step { tasks := tasks } inputs).step (.detach file rounds)
    (id ∈ network.queue.members ∨ (network.client id).upload = .uploading →
      (network.client id).uploadFile ≠ some file) ∧
    (network.client id).downloadFile ≠ some file := by
  have haccounted : Accounted (Runs.run step { tasks := tasks } inputs) := by
    apply Runs.run_invariant (fun _ _ hinv hcond => step_accounted hcond hinv)
      _ hknown
    intro other htied
    simp [Tied, UploadQueue.members, Client.Bound, Ed2kNetwork.client] at htied
  intro network
  have hcut : Cut network file id := by
    have hstep : network = (Runs.run step { tasks := tasks } inputs).detach file rounds := by
      simp [network, step, Input.client?, act]
    exact detach_cut haccounted file rounds id
  refine ⟨fun hbusy hfile => ?_, hcut.1⟩
  obtain ⟨hmember, hupload⟩ := hcut.2 hfile
  rcases hbusy with hqueued | huploading
  · exact hmember hqueued
  · exact hupload huploading

/-- A shared file of one part. -/
def oneFile : Unit → File := fun _ =>
  { hash := List.replicate 16 0
    parts := ⟨5, [true], ∅⟩
    phase := .sharing
    whole := by decide }

theorem run_detach_cuts_ties_one :
    let before := Runs.run step { tasks := oneFile }
      [.attach (), .incoming 1 5000, .hello 0 (List.replicate 16 7) 4662 1 fun _ => {},
        .uploadRequest 0 (List.replicate 16 0) 0 {}]
    (0 ∈ before.queue.members ∧ (before.client 0).uploadFile = some ()) ∧
    let network := before.step (.detach () fun _ => {})
    (0 ∈ network.queue.members ∨ (network.client 0).upload = .uploading →
      (network.client 0).uploadFile ≠ some ()) ∧
    (network.client 0).downloadFile ≠ some () := by
  refine ⟨by decide +kernel, ?_⟩
  exact run_detach_cuts_ties oneFile _ (by decide +kernel) () (fun _ => {}) 0

/-- Two clients call from one address and name one port, and the second is kept
without being registered; a client asks for a slot before its hello.  Both keep
their slots and the file when the task is detached. -/
theorem detach_misses_unregistered :
    (let network := Runs.run step { tasks := oneFile }
      [.attach (), .incoming 1 5000, .hello 0 (List.replicate 16 7) 4662 1 fun _ => {},
        .incoming 1 5001, .hello 1 (List.replicate 16 8) 4662 1 fun _ => {},
        .uploadRequest 1 (List.replicate 16 0) 0 {}, .detach () fun _ => {}]
    1 ∈ network.queue.members ∧ (network.client 1).upload = .uploading ∧
      (network.client 1).uploadFile = some ()) ∧
    (let network := Runs.run step { tasks := oneFile }
      [.attach (), .incoming 1 5000, .uploadRequest 0 (List.replicate 16 0) 0 {},
        .detach () fun _ => {}]
    0 ∈ network.queue.members ∧ (network.client 0).upload = .uploading ∧
      (network.client 0).uploadFile = some ()) := by
  decide +kernel

end Aria2Next.Ed2kNetwork
