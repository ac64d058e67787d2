/-
The directory of stored torrents: `Factory` keeps the metainfo of a torrent
under the SHA-1 of its content, so that the session can name it, and
`BtTask::discardState` deletes it.

A content stands for its file.  The hash of its info section, which says
whether two torrents are the same, is any function of the content.  The session
that is restored after a restart names stored files, one after the other; which
ones it names is an input.
-/
import Aria2Next.EngineLive

namespace Aria2Next

open Function

universe u v

/-- What the task behind a pointer downloads. -/
inductive TaskKind (D : Type u) (H : Type v) where
  /-- A torrent with its stored metainfo. -/
  | torrent (data : D)
  | magnet (hash : H)
  | other
deriving DecidableEq

inductive AddError where
  /-- "Cannot store torrent data in ..." -/
  | fileCreate
  /-- "Info hash ... is already being downloaded" -/
  | duplicateInfoHash
  /-- "GID ... is already in use" -/
  | option
deriving DecidableEq, Repr

structure TorrentStore (D : Type u) (H : Type v) where
  engine : Engine
  /-- The tasks that have been made. -/
  kind : TaskRef → Option (TaskKind D H) := fun _ => none
  /-- `bittorrent/torrents` -/
  files : List D := []

namespace TorrentStore

open Runs

variable {D : Type u} {H : Type v}

/-- `torrentPath_`, which is also the session URI; a magnet has none. -/
def torrentPath (store : TorrentStore D H) (task : TaskRef) : Option D :=
  match store.kind task with
  | some (.torrent data) => some data
  | _ => none

section Model

variable [DecidableEq D] [DecidableEq H] (infoHash : D → H)

/-- The info hash of a `BtTask`. -/
def hashOf (store : TorrentStore D H) (task : TaskRef) : Option H :=
  match store.kind task with
  | some (.torrent data) => some (infoHash data)
  | some (.magnet hash) => some hash
  | _ => none

/-- A file that is there is not written again; `written` tells whether the
write succeeds. -/
def storeTorrent (store : TorrentStore D H) (data : D) (written : Bool) :
    Except AddError (TorrentStore D H) :=
  if data ∈ store.files then .ok store
  else if written then .ok { store with files := data :: store.files }
  else .error .fileCreate

def rejectDuplicate (store : TorrentStore D H) (hash : H) : Except AddError Unit :=
  if (store.engine.active ++ store.engine.waiting).any fun task =>
      store.hashOf infoHash task = some hash then .error .duplicateInfoHash
  else .ok ()

def assignGid (store : TorrentStore D H) (task : TaskRef) : Except AddError Unit :=
  if (store.engine.find task.gid).isSome then .error .option else .ok ()

/-- A new task with its place in the queue. -/
structure NewTask where
  task : TaskRef
  paused : Bool := false
  position : Option Nat := none
deriving DecidableEq, Repr

def addTask (store : TorrentStore D H) (new : NewTask) (kind : TaskKind D H) : TorrentStore D H :=
  { store with
    kind := update store.kind new.task (some kind)
    engine := store.engine.add new.task new.paused new.position }

def torrentTask (store : TorrentStore D H) (new : NewTask)
    (kind : TaskKind D H) (hash : H) : Except AddError (TorrentStore D H) :=
  match store.rejectDuplicate infoHash hash, store.assignGid new.task with
  | .error error, _ => .error error
  | .ok _, .error error => .error error
  | .ok _, .ok _ => .ok (store.addTask new kind)

/-- The file stays when the task is rejected. -/
def createTorrentTask (store : TorrentStore D H) (data : D) (written : Bool)
    (new : NewTask) : Option AddError × TorrentStore D H :=
  match store.storeTorrent data written with
  | .error error => (some error, store)
  | .ok stored =>
    match stored.torrentTask infoHash new (.torrent data) (infoHash data) with
    | .error error => (some error, stored)
    | .ok next => (none, next)

/-- The tasks whose state a call of the engine discards: the results it
forgets, and those it retires as removed, for which it emits `Stop`. -/
def discards (engine : Engine) : Engine.Input → List TaskRef
  | .removeResult gid =>
    (engine.stopped.find? fun task => task.gid = gid).toList
  | .purgeResults => engine.stopped
  | input =>
    ((engine.step input).emitted.drop engine.emitted.length).filterMap
      fun (event, task) => if event = .stop then some task else none

/-- `discardState` of some tasks. -/
def discardStates (store : TorrentStore D H) (tasks : List TaskRef) : List D :=
  store.files.filter fun data =>
    tasks.all fun task => store.torrentPath task ≠ some data

/-- Only media tasks are retried or handed over; new tasks come from the
factory. -/
def ofTorrents : Engine.Input → Bool
  | .add _ _ _ | .requeue _ | .offer _ _ | .handle (.handOver _ _) _ => false
  | _ => true

inductive Input (D : Type u) (H : Type v) where
  | addTorrent (data : D) (written : Bool) (new : NewTask)
  /-- The URI of a stored file, as the session has it. -/
  | addStored (data : D) (new : NewTask)
  | addMagnet (hash : H) (new : NewTask)
  | addOther (new : NewTask)
  | engine (input : Engine.Input)
  /-- The process ends and starts again. -/
  | restart (settings : Settings)

/-- A factory call that may fail, with a pointer that is new. -/
def adding (store : TorrentStore D H) (new : NewTask)
    (next : TorrentStore D H) : TorrentStore D H :=
  if (store.kind new.task).isNone then next else store

def step (store : TorrentStore D H) : Input D H → TorrentStore D H
  | .addTorrent data written new =>
    store.adding new (store.createTorrentTask infoHash data written new).2
  | .addStored data new =>
    if data ∈ store.files then
      store.adding new (store.createTorrentTask infoHash data true new).2
    else store
  | .addMagnet hash new =>
    store.adding new
      (match store.torrentTask infoHash new (.magnet hash) hash with
      | .error _ => store
      | .ok next => next)
  | .addOther new =>
    store.adding new
      (match store.assignGid new.task with
      | .error _ => store
      | .ok _ => store.addTask new .other)
  | .engine input =>
    if ofTorrents input then
      { store with
        engine := store.engine.step input
        files := store.discardStates (discards store.engine input) }
    else store
  | .restart settings => { store with engine := { settings } }

/-- No result of the same file is left when a torrent is added; a posted
retirement finds its task in one of the queues, and a stop is answered while
its task is active. -/
def Settled (store : TorrentStore D H) : Input D H → Prop
  | .addTorrent data _ _ | .addStored data _ =>
    ∀ other ∈ store.engine.stopped, store.torrentPath other ≠ some data
  | .engine input => ofTorrents input = true → store.engine.Plain input
  | _ => True

instance (store : TorrentStore D H) : DecidablePred store.Settled := fun input => by
  unfold Settled
  split <;> infer_instance

end Model

/-- What keeps the files of the live tasks. -/
structure Safe (store : TorrentStore D H) : Prop where
  tidy : store.engine.Tidy
  made : ∀ task, store.engine.Lists task → store.kind task ≠ none
  apart : ∀ left right data, store.engine.Lists left →
    store.engine.Lists right → store.torrentPath left = some data →
    store.torrentPath right = some data → left = right
  stored : ∀ task data, store.engine.Live task →
    store.torrentPath task = some data → data ∈ store.files

theorem discards_gone {e : Engine} (ht : e.Tidy) {i : Engine.Input} (hp : e.Plain i) {t : TaskRef}
    (hm : t ∈ discards e i) : e.Lists t ∧ ¬ (e.step i).Live t := by
  have hde := Engine.step_descends ht hp
  have hs : t ∈ e.stopped → e.Lists t ∧ ¬ (e.step i).Live t := by
    intro hm
    refine ⟨.inr (.inr hm), fun hl => ?_⟩
    exact (hde.live t hl).2 (ht.stopped t hm)
  have hem : t ∈ ((e.step i).emitted.drop e.emitted.length).filterMap (fun (ev, t) =>
        if ev = TaskEvent.stop then some t else none) →
      e.Lists t ∧ ¬ (e.step i).Live t := by
    intro hm
    obtain ⟨new, hn, hst⟩ := hde.emitted
    rw [hn, List.drop_left] at hm
    obtain ⟨⟨ev, o⟩, hi, he⟩ := List.mem_filterMap.mp hm
    dsimp only at he
    split at he
    · next hs =>
      rw [hs, Option.some.inj he] at hi
      exact hst t hi
    · cases he
  cases i with
  | removeResult gid =>
    apply hs
    exact List.mem_of_find?_eq_some (Option.mem_toList.mp hm)
  | purgeResults => exact hs hm
  | _ => exact hem hm

variable {store s : TorrentStore D H}

theorem Safe.files (hs : Safe s) {files : List D} (hf : ∀ d ∈ s.files, d ∈ files) :
    Safe { s with files } where
  tidy := hs.tidy
  made := hs.made
  apart := hs.apart
  stored := fun t d hl hp =>
    hf d (hs.stored t d hl hp)

theorem addTask_safe (hs : Safe s) {new : NewTask} (hnew : s.kind new.task = none)
    (k : TaskKind D H)
    (hk : ∀ d, k = .torrent d → d ∈ s.files ∧ ∀ o, s.engine.Lists o → s.torrentPath o ≠ some d) :
    Safe (s.addTask new k) := by
  have hu : ¬ s.engine.Lists new.task := fun hl => hs.made new.task hl hnew
  have hg := Engine.add_grows hs.tidy hu new.paused new.position
  have ho : ∀ o, o ≠ new.task → (s.addTask new k).torrentPath o = s.torrentPath o := by
    intro o hn
    simp only [torrentPath, addTask, update_of_ne hn]
  have hsa : ∀ d, (s.addTask new k).torrentPath new.task =
      some d → k = .torrent d := by
    intro d hp
    simp only [torrentPath, addTask, update_self] at hp
    split at hp
    · next g hf =>
      rw [Option.some.inj hp] at hf
      exact Option.some.inj hf
    · cases hp
  refine ⟨hg.tidy, ?_, ?_, ?_⟩
  · intro o hl
    simp only [addTask]
    by_cases hn : o = new.task
    · rw [hn, update_self]
      exact Option.some_ne_none k
    · rw [update_of_ne hn]
      exact hs.made o ((hg.lists o hl).resolve_left hn)
  · intro left right d hle hr hp hp'
    by_cases hn : left = new.task
    · by_cases hn' : right = new.task
      · rw [hn, hn']
      · rw [ho right hn'] at hp'
        rw [hn] at hp
        exact absurd hp' ((hk d (hsa d hp)).2 right ((hg.lists right hr).resolve_left hn'))
    · rw [ho left hn] at hp
      have hl' := (hg.lists left hle).resolve_left hn
      by_cases hn' : right = new.task
      · rw [hn'] at hp'
        exact absurd hp ((hk d (hsa d hp')).2 left hl')
      · rw [ho right hn'] at hp'
        exact hs.apart left right d hl' ((hg.lists right hr).resolve_left hn') hp hp'
  · intro t d hli hp
    by_cases hn : t = new.task
    · rw [hn] at hp
      exact (hk d (hsa d hp)).1
    · rw [ho t hn] at hp
      exact hs.stored t d ((hg.live t hli).resolve_left hn) hp

section Adding

variable [DecidableEq D] [DecidableEq H] (infoHash ih : D → H)

omit [DecidableEq D] in
theorem torrentTask_ok {new : NewTask} {k : TaskKind D H} {hash : H} {next : TorrentStore D H}
    (ho : s.torrentTask ih new k hash = .ok next) : next = s.addTask new k ∧
      ∀ o, o ∈ s.engine.active ∨ o ∈ s.engine.waiting →
        s.hashOf ih o ≠ some hash := by
  unfold torrentTask rejectDuplicate at ho
  split_ifs at ho with hc
  split at ho
  · cases ho
  · cases ho
  · cases ho
    refine ⟨rfl, ?_⟩
    intro o hm hs
    apply hc
    rw [List.any_eq_true]
    exact ⟨o, List.mem_append.mpr hm, decide_eq_true hs⟩

omit [DecidableEq H] in
theorem storeTorrent_ok {d : D} {w : Bool} {s : TorrentStore D H}
    (ho : store.storeTorrent d w = .ok s) :
    ∃ files, s = { store with files } ∧ d ∈ files ∧ ∀ old ∈ store.files, old ∈ files := by
  unfold storeTorrent at ho
  split_ifs at ho with hm hw
  · cases ho
    exact ⟨store.files, rfl, hm, fun _ => id⟩
  · cases ho
    exact ⟨d :: store.files, rfl, List.mem_cons_self, fun old => List.mem_cons_of_mem d⟩

theorem createTorrentTask_safe (hs : Safe s) {new : NewTask} (hne : s.kind new.task = none)
    {d : D} (hr : ∀ o ∈ s.engine.stopped, s.torrentPath o ≠ some d) (w : Bool) :
    Safe (s.createTorrentTask ih d w new).2 := by
  unfold createTorrentTask
  split
  · exact hs
  · next st hst =>
    obtain ⟨fs, rfl, hm, hfi⟩ := storeTorrent_ok hst
    have hk := hs.files hfi
    split
    · exact hk
    · next next hn =>
      obtain ⟨rfl, hc⟩ := torrentTask_ok ih hn
      apply addTask_safe hk hne
      intro g hf
      cases hf
      refine ⟨hm, ?_⟩
      rintro o hli hp
      have hh : s.hashOf ih o = some (ih d) := by
        simp only [torrentPath] at hp
        unfold hashOf
        split at hp
        · next g hf =>
          rw [hf, Option.some.inj hp]
        · cases hp
      rcases hli with hl | hl | hl
      · exact hc o (.inl hl) hh
      · exact hc o (.inr hl) hh
      · exact hr o hl hp

omit [DecidableEq H] in
theorem engine_safe (hs : Safe s) {i : Engine.Input} (hp : s.engine.Plain i) :
    Safe { s with
      engine := s.engine.step i
      files := s.discardStates (discards s.engine i) } := by
  have hde := Engine.step_descends hs.tidy hp
  refine ⟨hde.tidy, ?_, ?_, ?_⟩
  · intro t hl
    exact hs.made t (hde.lists t hl)
  · intro left right d hle hr
    exact hs.apart left right d (hde.lists left hle) (hde.lists right hr)
  · intro t d hli hpa
    have hb := hde.live t hli
    refine List.mem_filter.mpr ⟨hs.stored t d hb hpa, ?_⟩
    rw [List.all_eq_true]
    intro g hg
    rw [decide_eq_true_eq]
    intro hsa
    obtain ⟨hl, hdea⟩ := discards_gone hs.tidy hp hg
    rw [hs.apart g t d hl hb.lists hsa hpa] at hdea
    exact hdea hli

theorem step_safe (hs : Safe s) {i : Input D H} (hse : Settled s i) : Safe (s.step ih i) := by
  have ha : ∀ (new : NewTask) (next : TorrentStore D H), (s.kind new.task = none → Safe next) →
      Safe (s.adding new next) := by
    intro new next hne
    unfold adding
    split
    · next hno => exact hne (Option.isNone_iff_eq_none.mp hno)
    · exact hs
  cases i with
  | addTorrent d w new =>
    exact ha new _ fun hn =>
      createTorrentTask_safe ih hs hn hse w
  | addStored d new =>
    rw [step]
    split
    · exact ha new _ fun hn =>
        createTorrentTask_safe ih hs hn hse true
    · exact hs
  | addMagnet hash new =>
    apply ha
    intro hn
    split
    · exact hs
    · next next hne =>
      obtain ⟨rfl, -⟩ := torrentTask_ok ih hne
      exact addTask_safe hs hn _ (by simp)
  | addOther new =>
    apply ha
    intro hn
    split
    · exact hs
    · exact addTask_safe hs hn _ (by simp)
  | engine i =>
    rw [step]
    split
    · next ho => exact engine_safe hs (hse ho)
    · exact hs
  | restart se =>
    refine ⟨Engine.empty_tidy se, ?_, ?_, ?_⟩
    · rintro t (hm | hm | hm) <;> cases hm
    · rintro left right d (hm | hm | hm) <;> cases hm
    · rintro t d ⟨hm | hm, -⟩ <;> cases hm

/-- While no torrent is added with a result of its file left, every active,
waiting or paused task finds its stored metainfo. -/
theorem run_stored_torrents_exist (settings : Settings) (files : List D) (inputs : List (Input D H))
    (hmeets : Meets (step infoHash) Settled
      ({ engine := { settings }, files } : TorrentStore D H) inputs) :
    let store := run (step infoHash) ({ engine := { settings }, files } : TorrentStore D H) inputs
    ∀ task data, task ∈ store.engine.active ∨ task ∈ store.engine.waiting →
      (store.engine.state task = .active ∨ store.engine.state task = .waiting ∨
        store.engine.state task = .paused) →
      store.torrentPath task = some data → data ∈ store.files := by
  intro store task data hmem hstate hpath
  have hstep : ∀ (before : TorrentStore D H) (input : Input D H), Safe before →
      Settled before input → Safe (before.step infoHash input) :=
    fun _ _ hsafe hsettled => step_safe infoHash hsafe hsettled
  have hempty : Safe ({ engine := { settings }, files } : TorrentStore D H) := by
    refine ⟨Engine.empty_tidy settings, ?_, ?_, ?_⟩
    · rintro task (hmem | hmem | hmem) <;> cases hmem
    · rintro left right data (hmem | hmem | hmem) <;> cases hmem
    · rintro task data ⟨hmem | hmem, -⟩ <;> cases hmem
  have hsafe : Safe store := run_invariant hstep hempty hmeets
  apply hsafe.stored task data ⟨hmem, ?_⟩ hpath
  rcases hstate with hstate | hstate | hstate <;> rw [hstate] <;> decide

end Adding

/-- A torrent is added, runs, fails and is forgotten, and is then added
again. -/
theorem run_stored_torrents_exist_again : (7 : Nat) ∈ (run (step id)
      ({ engine := { settings := ⟨5, 1000, false, true⟩ } } : TorrentStore Nat Nat)
      [.addTorrent 7 true ⟨⟨1, 0⟩, false, none⟩, .engine (.handle .fill {}),
        .engine (.report ⟨1, 0⟩ true),
        .engine (.handle (.retire ⟨1, 0⟩ true) {}), .engine (.removeResult 1),
        .addTorrent 7 true ⟨⟨2, 0⟩, false, none⟩]).files :=
  run_stored_torrents_exist id ⟨5, 1000, false, true⟩ [] _
    (by decide +kernel) ⟨2, 0⟩ 7 (by decide +kernel) (by decide +kernel) (by decide +kernel)

/-- A torrent that is complete is added again, and its old result is removed:
the file goes with the result, and the new task waits without it. -/
theorem removeResult_deletes_shared_file :
    let store := run (step id)
      ({ engine := { settings := ⟨5, 1000, false, true⟩ } } : TorrentStore Nat Nat)
      [.addTorrent 7 true ⟨⟨1, 0⟩, false, none⟩, .engine (.handle .fill {}),
        .engine (.report ⟨1, 0⟩ false), .engine (.handle (.retire ⟨1, 0⟩ false) {}),
        .addTorrent 7 true ⟨⟨2, 0⟩, false, none⟩, .engine (.removeResult 1)]
    (⟨2, 0⟩ : TaskRef) ∈ store.engine.waiting ∧ store.engine.state ⟨2, 0⟩ = .waiting ∧
      store.torrentPath ⟨2, 0⟩ = some 7 ∧ 7 ∉ store.files := by
  decide +kernel

end TorrentStore

end Aria2Next
