/-
What the clients of the ED2K network are served: which part requests wait, what
an upload loop tests, reads and sends.

A part request is checked against the file of the client when it arrives.  All
other steps leave the waiting requests or drop some, and change the file of a
client only while none waits, as long as clients ask for another file only then.
-/
import Aria2Next.Ed2kFrames

namespace Aria2Next.Ed2kNetwork

open List

universe u

open UploadQueue (Rounds)

variable {F : Type u}

/-- A range that may be read of a file of that size. -/
def Fits (size : Int) (range : Range) : Prop := 0 ≤ range.1 ∧ range.1 < range.2 ∧ range.2 ≤ size ∧
    range.2 - range.1 ≤ 3 * blockLength

/-- Every waiting request may be read of the file of its client. -/
def Served (network : Ed2kNetwork F) : Prop := ∀ id, ∀ range ∈ (network.client id).requests,
    ∃ file, (network.client id).uploadFile = some file ∧ Fits (network.tasks file).parts.size range

/-- No client has a new request, and none switches to another file with a
request. -/
def Quiet (before after : Ed2kNetwork F) : Prop :=
  Keeps (fun _ => False) (fun _ => True) before after

theorem Quiet.served {b a : Ed2kNetwork F} (hk : Quiet b a) (hse : Served b) : Served a := by
  intro id r hr
  obtain ⟨f, hf, hfi⟩ := hse id r ((hk.client id).requests hr)
  refine ⟨f, ?_, ?_⟩
  · rcases (hk.client id).file with hn | hsa | hs
    · rw [hn] at hr
      exact absurd hr not_mem_nil
    · rw [hsa]
      exact hf
    · exact hs.elim
  · rw [hk.size]
    exact hfi

/-- Every range that passes the parser runs forwards, and none begins below 0
unless one of the three begins does. -/
theorem parsePartRequestPayload_ordered {p hash : Text} {l : Bool} {ra : List Range}
    (hp : parsePartRequestPayload p l = some (hash, ra))
    (hs : ∀ n ∈ (offsets p l).take 3, n < 2 ^ 63) : ∀ r ∈ ra, 0 ≤ r.1 ∧ r.1 < r.2 := by
  simp only [parsePartRequestPayload, Option.ite_none_left_eq_some,
    Option.some.injEq, Prod.mk.injEq] at hp
  obtain ⟨-, ho, -, hra⟩ := hp
  intro r hr
  rw [← hra] at hr
  constructor
  · have hb := (of_mem_zip (mem_of_mem_filter hr)).1
    rw [← map_take, mem_map] at hb
    obtain ⟨n, hn, hv⟩ := hb
    rw [← hv, toInt64, if_pos (hs n hn)]
    exact Int.natCast_nonneg n
  · simp only [any_eq_true, decide_eq_true_eq, not_exists, not_and, not_le] at ho
    exact ho r hr

/-- The loop of `answerPartRequest` keeps requests that fit. -/
theorem pushRanges_fits {s : Int} (ra re : List Range) (hran : ∀ r ∈ ra, 0 ≤ r.1 ∧ r.1 < r.2)
    (hr : ∀ r ∈ re, Fits s r) : ∀ r ∈ (pushRanges s ra re).1, Fits s r := by
  induction ra generalizing re with
  | nil => exact hr
  | cons first rest ih =>
    rw [pushRanges]
    by_cases hb : first.2 > s ∨ first.2 - first.1 > 3 * blockLength
    · rw [if_pos hb]
      exact hr
    · rw [if_neg hb]
      apply ih
      · intro r hra
        exact hran r (mem_cons_of_mem first hra)
      · have hf : Fits s first := by
          have hfo := hran first mem_cons_self
          unfold Fits
          omega
        intro r hra
        split at hra
        · exact hr r hra
        · rcases mem_append.mp hra with hold | hn
          · exact hr r hold
          · rw [mem_singleton] at hn
            rw [hn]
            exact hf

variable {network nt : Ed2kNetwork F} {i : Client.Resume} {r : Range} {client : Client F}
  {tasks : F → File} {loop : Loop F} {f : F}

theorem answerPartRequest_served (hs : Served nt) (id : Nat) (p : Text) (l : Bool)
    (ro : Rounds Nat) (hsm : ∀ n ∈ (offsets p l).take 3, n < 2 ^ 63) :
    Served (nt.answerPartRequest id p l ro) := by
  have ha : ∀ r ∈ ((nt.client id).answerPartRequest nt.tasks p l).1.requests,
      ∃ f, ((nt.client id).answerPartRequest nt.tasks p l).1.uploadFile = some f ∧
        Fits (nt.tasks f).parts.size r := by
    unfold Client.answerPartRequest
    split
    · exact hs id
    rename_i hash ra hpa
    have hra := parsePartRequestPayload_ordered hpa hsm
    split
    · exact hs id
    rename_i f hf
    have hre : ∀ r ∈ (nt.client id).requests, Fits (nt.tasks f).parts.size r := by
      intro r hr
      obtain ⟨o, ho, hfi⟩ := hs id r hr
      rw [hf, Option.some.injEq] at ho
      rw [ho]
      exact hfi
    have hp := pushRanges_fits ra _ hra hre
    split
    · exact hs id
    dsimp only
    split
    · intro r hr
      exact ⟨f, hf, hp r hr⟩
    · split <;>
      · intro r hr
        exact ⟨f, hf, hp r hr⟩
  have hse : Served (nt.setClient id ((nt.client id).answerPartRequest
      nt.tasks p l).1) := by
    intro o
    rw [client_setClient]
    split
    · exact ha
    · exact hs o
  unfold answerPartRequest
  dsimp only
  split
  · exact Quiet.served (closed_keeps _ id ro) hse
  · exact hse

/-- A client asks for another file only while none of its part requests waits,
and no begin of a part request is negative as a signed number. -/
def Orderly (network : Ed2kNetwork F) : Input F → Prop
  | .uploadRequest id payload _ _ =>
    ∀ file ∈ network.sharedFile (payload.take hashLength),
      (network.client id).uploadFile = some file ∨ (network.client id).requests = []
  | .partRequest _ payload large _ =>
    ∀ number ∈ (offsets payload large).take 3, number < 2 ^ 63
  | _ => True

instance [DecidableEq F] (network : Ed2kNetwork F) (input : Input F) :
    Decidable (Orderly network input) := by
  unfold Orderly
  induction input using Input.casesOn <;> infer_instance

theorem act_quiet [DecidableEq F] {i : Input F} (ho : Orderly nt i)
    (hot : ∀ id p l r, i ≠ .partRequest id p l r) : Quiet nt (nt.act i) := by
  cases i with
  | partRequest id p l r =>
    exact absurd rfl (hot id p l r)
  | uploadRequest id p now r =>
    apply answerUploadRequest_keeps
    intro f hf
    refine ⟨trivial, ?_⟩
    rcases ho f hf with hs | hn
    · exact .inl hs
    · exact .inr (.inl hn)
  | attach f => exact .of_eq rfl rfl
  | detach f r => exact detach_keeps nt f r
  | progress f verified phase => exact progress_keeps nt _ _ _
  | incoming a port => exact incoming_keeps nt a port
  | addSource f a port c u =>
    exact addSource_keeps nt f a port c u trivial
  | callAt a port m =>
    exact callAt_keeps nt a port m
  | askForFile id m cb =>
    exact askForFile_keeps nt id m cb
  | connectDone id ok r => exact connectDone_keeps nt id ok r
  | hello id u port c r =>
    exact hello_keeps nt id u port c r
  | helloAnswer id u port c r =>
    exact helloAnswer_keeps nt id u port c r
  | cancel id r => exact leaveUploadQueue_keeps nt id r
  | reask id now => exact reask_keeps nt id now
  | closed id r => exact closed_keeps nt id r
  | disconnect id => exact modify_keeps fun _ => .of_ties rfl
  | download id next => exact download_keeps nt id next
  | dropSource id => exact modify_keeps Client.dropSource_keeps
  | resume id index i => exact resume_keeps nt id index i
  | tick now r held => exact tick_keeps nt now r held
  | setSlots slots => exact setSlots_keeps nt slots

theorem act_served [DecidableEq F] {i : Input F} (ho : Orderly nt i) (hs : Served nt) :
    Served (nt.act i) := by
  by_cases hp : ∃ id payload large rounds, i = .partRequest id payload large rounds
  · obtain ⟨id, payload, large, rounds, hi⟩ := hp
    subst hi
    exact answerPartRequest_served hs id payload large rounds ho
  · push Not at hp
    exact (act_quiet ho hp).served hs

theorem step_served [DecidableEq F] {i : Input F} (ho : Orderly nt i) (hs : Served nt) :
    Served (nt.step i) := by
  unfold step
  split
  · exact act_served ho hs
  · exact hs

/-- The parts that a range inside a file touches have their bits. -/
theorem touched_within (f : File) (hf : Fits f.parts.size r) :
    ∀ p ∈ touched r, 0 ≤ p ∧ p.toNat < f.parts.verified.length := by
  obtain ⟨hb, hfo, he, -⟩ := hf
  intro p hp
  simp only [touched, mem_map, mem_range] at hp
  obtain ⟨s, hs, hv⟩ := hp
  rw [Int.tdiv_eq_ediv_of_nonneg hb, Int.tdiv_eq_ediv_of_nonneg (by omega)] at hs
  rw [Int.tdiv_eq_ediv_of_nonneg hb] at hv
  rw [f.whole]
  simp only [pieceLength] at *
  omega

/-- What a loop tested when it went on to read. -/
theorem resume_reading [DecidableEq F] (hr : (client.resume tasks i loop).2 = some (.reading f r)) :
    loop = .head ∧ client.uploadFile = some f ∧ client.requests.head? = some r ∧
      ∀ p ∈ touched r, (tasks f).parts.complete ∨ (tasks f).parts.isVerified p.toNat := by
  cases loop with
  | head =>
    simp only [Client.resume] at hr
    split at hr
    · rename_i c first re hf hre
      split at hr
      · split at hr
        · rename_i hs
          simp only [Option.some.injEq, Loop.reading.injEq] at hr
          obtain ⟨hsa, hra⟩ := hr
          subst hsa hra
          refine ⟨rfl, hf, by rw [hre]; rfl, fun p hp => ?_⟩
          have ht := all_eq_true.mp hs p hp
          by_cases hc : (tasks c).parts.complete = true
          · exact .inl hc
          · right
            simp only [File.sharedParts, hc, Bool.false_eq_true,
              if_false, Bool.or_eq_true, Bool.and_eq_true] at ht
            rcases ht with he | ⟨-, hv⟩
            · exfalso
              apply hc
              rw [List.isEmpty_iff] at he
              rw [Parts.complete, he]
              rfl
            · exact hv
        · cases hr
      · cases hr
    · cases hr
  | reading o t =>
    simp only [Client.resume] at hr
    split at hr <;> cases hr
  | sending o t =>
    simp only [Client.resume] at hr
    split at hr
    · split at hr <;> cases hr
    · cases hr

/-- A loop sends only the block it has read. -/
theorem resume_sending [DecidableEq F] (hs : (client.resume tasks i loop).2 = some (.sending f r)) :
    loop = .reading f r ∨ loop = .sending f r := by
  cases loop with
  | head =>
    simp only [Client.resume] at hs
    split at hs
    · split at hs
      · split at hs <;> cases hs
      · cases hs
    · cases hs
  | reading o t =>
    simp only [Client.resume] at hs
    split at hs
    · cases hs
      exact .inl rfl
    · cases hs
  | sending o t =>
    simp only [Client.resume] at hs
    split at hs
    · split at hs
      · cases hs
        exact .inr rfl
      · cases hs
    · cases hs

/-- In every run in which clients ask for another file only while no part
request waits, and in which no begin is negative as a signed number: the
request at the front of every client lies inside its file, is no longer than
three blocks and touches parts of the bitfield only; a loop reads only the
request at the front, with every part it touches verified or the file complete,
and sends only what it has read. -/
theorem run_serves_inside_shared [DecidableEq F] (tasks : F → File) (inputs : List (Input F))
    (horderly : Runs.Meets step Orderly { tasks := tasks } inputs) (id : Nat) :
    let network := Runs.run step { tasks := tasks } inputs
    let client := network.client id
    (∀ file range, client.uploadFile = some file → client.requests.head? = some range →
      (0 ≤ range.1 ∧ range.1 < range.2 ∧ range.2 ≤ (network.tasks file).parts.size ∧
        range.2 - range.1 ≤ 3 * blockLength) ∧
      ∀ part ∈ touched range, 0 ≤ part ∧ part.toNat < (network.tasks file).parts.verified.length) ∧
    ∀ (input : Client.Resume) (loop : Loop F) (file : F) (range : Range),
      ((client.resume network.tasks input loop).2 = some (.reading file range) →
        loop = .head ∧ client.uploadFile = some file ∧ client.requests.head? = some range ∧
          ∀ part ∈ touched range, (network.tasks file).parts.complete ∨
            (network.tasks file).parts.isVerified part.toNat) ∧
      ((client.resume network.tasks input loop).2 = some (.sending file range) →
        loop = .reading file range ∨ loop = .sending file range) := by
  have hserved : Served (Runs.run step { tasks := tasks } inputs) := by
    apply Runs.run_invariant (fun _ _ hinv hcond => step_served hcond hinv)
      _ horderly
    intro other range hrange
    exact absurd hrange not_mem_nil
  intro network client
  refine ⟨fun file range hfile hfront => ?_, fun input loop file range =>
    ⟨resume_reading, resume_sending⟩⟩
  obtain ⟨other, hother, hfits⟩ := hserved id range (mem_of_mem_head? hfront)
  have hsame : other = file := by
    have hboth := hother.symm.trans hfile
    simpa using hboth
  rw [hsame] at hfits
  exact ⟨hfits, touched_within _ hfits⟩

/-- A complete file of three parts, and one of which the first of two parts is
verified. -/
def twoFiles : Bool → File
  | false =>
    { hash := List.replicate 16 0
      parts := ⟨3 * 9728000, [true, true, true], ∅⟩
      phase := .sharing
      whole := by decide }
  | true =>
    { hash := List.replicate 16 1
      parts := ⟨9728000 + 5, [true, false], ∅⟩
      phase := .downloading
      whole := by decide }

/-- A client is granted a slot for the complete file. -/
def firstSlot : List (Input Bool) := [.attach false, .attach true, .incoming 1 4662,
    .hello 0 (List.replicate 16 7) 4662 1 fun _ => {},
    .uploadRequest 0 (List.replicate 16 0) 0 {}]

/-- The bytes from 19456000 to 19456010 of the complete file. -/
def thirdPart : Text := List.replicate 16 0 ++ [0x00, 0xe0, 0x28, 0x01] ++ List.replicate 8 0 ++
    [0x0a, 0xe0, 0x28, 0x01] ++ List.replicate 8 0

/-- The bytes from `2 ^ 64 - 16` to `2 ^ 64 - 8`. -/
def farBytes : Text := List.replicate 16 0 ++ [0xf0] ++ List.replicate 7 0xff ++
    List.replicate 16 0 ++ [0xf8] ++ List.replicate 7 0xff ++
    List.replicate 16 0

theorem run_serves_inside_shared_first :
    let network := Runs.run step { tasks := twoFiles }
      (firstSlot ++ [.partRequest 0 thirdPart false {}])
    (network.client 0).uploadFile = some false ∧
    (network.client 0).requests = [(19456000, 19456010)] ∧
    (network.client 0).loops = [.head] ∧
    ∀ part ∈ touched (19456000, 19456010), 0 ≤ part ∧
      part.toNat < (network.tasks false).parts.verified.length := by
  have hfile : ((Runs.run step { tasks := twoFiles } (firstSlot ++
      [.partRequest 0 thirdPart false {}])).client 0).uploadFile = some false := by decide +kernel
  have hrequests : ((Runs.run step { tasks := twoFiles } (firstSlot ++
      [.partRequest 0 thirdPart false {}])).client 0).requests =
      [(19456000, 19456010)] := by decide +kernel
  refine ⟨hfile, hrequests, by decide +kernel, ?_⟩
  have hinside := run_serves_inside_shared twoFiles
    (firstSlot ++ [.partRequest 0 thirdPart false {}]) (by decide +kernel) 0
  exact (hinside.1 false (19456000, 19456010) hfile (by rw [hrequests]; rfl)).2

/-- A client with a slot for one file asks for another: its waiting request is
held against the file it was not checked for, and tests a part that the
bitfield does not have.  And a request whose numbers are negative once they are
signed passes every check. -/
theorem switched_file_is_read_outside :
    (let network := Runs.run step { tasks := twoFiles } (firstSlot ++
      [.partRequest 0 thirdPart false {}, .uploadRequest 0 (List.replicate 16 1) 0 {}])
    (network.client 0).loops = [.head] ∧ (network.client 0).upload = .uploading ∧
      (network.client 0).uploadFile = some true ∧
      (network.client 0).requests = [(19456000, 19456010)] ∧ touched (19456000, 19456010) = [2] ∧
      (network.tasks true).parts.size = 9728005 ∧ (network.tasks true).parts.verified.length = 2) ∧
    (let network := Runs.run step { tasks := twoFiles } (firstSlot ++
      [.partRequest 0 farBytes true {}])
    (network.client 0).loops = [.head] ∧ (network.client 0).upload = .uploading ∧
      (network.client 0).uploadFile = some false ∧ (network.client 0).requests = [(-16, -8)]) := by
  decide +kernel

end Aria2Next.Ed2kNetwork
