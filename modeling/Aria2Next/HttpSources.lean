/-
The books an HTTP task keeps on its sources.  A worker holds an index into the
list of sources and a source counts the workers that run against it; both stay
true through every move, and through an edit of the list that leaves the
sources of running workers where they are.
-/
import Aria2Next.HttpSteps

namespace Aria2Next

open OrdMap

universe u

variable {F : Type u} [Double F]

namespace HttpTask

/-- The part of the state the books are about. -/
@[ext] structure Desk where
  sources : List Source
  nextSource : Nat
  workers : OrdMap Int Worker
  nextWorkerId : Int

def Frame.desk (frame : Frame) : Desk :=
  { sources := frame.sources, nextSource := frame.nextSource,
    workers := frame.workers, nextWorkerId := frame.nextWorkerId }

namespace Desk

/-- Every worker sits at the source it was launched against, and every source
counts its workers. -/
structure Books (desk : Desk) : Prop where
  fresh : ∀ id worker, desk.workers.find? id = some worker → id < desk.nextWorkerId
  seated : ∀ id worker, desk.workers.find? id = some worker →
    ∃ source, desk.sources[worker.source]? = some source ∧ worker.origin = (source.uid, source.uri)
  counted : ∀ index source, desk.sources[index]? = some source → source.active =
      ((desk.workers.count fun worker => worker.source = index : Nat) : Int)
  distinct : (desk.sources.map Source.uid).Nodup
  issued : ∀ source ∈ desk.sources, source.uid < desk.nextSource

end Desk

variable {ss : List Source} {f : Source → Source} {s : Source}

/-- Changing a source in place keeps the uids where they are. -/
theorem distinct_modify (hdi : (ss.map Source.uid).Nodup) (i : Nat) (hk : ∀ s, (f s).uid = s.uid) :
    ((ss.modify i f).map Source.uid).Nodup := by
  suffices hs : (ss.modify i f).map Source.uid = ss.map Source.uid by
    rw [hs]
    exact hdi
  apply List.ext_getElem?
  intro o
  rw [List.getElem?_map, List.getElem?_map, List.getElem?_modify]
  rcases ss[o]? with _ | source
  · rfl
  · by_cases ho : i = o
    · simp [ho, hk]
    · simp [ho]

/-- What a source in place comes from. -/
theorem getElem?_modify_some {i o : Nat} (hs : (ss.modify i f)[o]? = some s) :
    ∃ old, ss[o]? = some old ∧ s = if i = o then f old else old := by
  rw [List.getElem?_modify] at hs
  obtain ⟨old, hold, hm⟩ := Option.map_eq_some_iff.mp hs
  exact ⟨old, hold, hm.symm⟩

theorem issued_modify {b : Nat} (hi : ∀ s ∈ ss, s.uid < b) (i : Nat) (hk : ∀ s, (f s).uid = s.uid) :
    ∀ s ∈ ss.modify i f, s.uid < b := by
  intro s hs
  obtain ⟨o, ho⟩ := List.getElem?_of_mem hs
  obtain ⟨old, hold, rfl⟩ := getElem?_modify_some ho
  have hb := hi old (List.mem_of_getElem? hold)
  split_ifs
  · rw [hk]
    exact hb
  · exact hb

namespace Desk

variable {d : Desk}

/-- A source changes in place and keeps its name and its count. -/
theorem Books.update (hb : d.Books) (i : Nat) {f : Source → Source}
    (hk : ∀ s, (f s).uid = s.uid ∧ (f s).uri = s.uri ∧ (f s).active = s.active) :
    ({ d with sources := d.sources.modify i f } : Desk).Books := by
  have hu := fun s => (hk s).1
  refine
    { fresh := hb.fresh
      seated := ?_
      counted := ?_
      distinct := distinct_modify hb.distinct i hu
      issued := issued_modify hb.issued i hu }
  · intro id w hf
    obtain ⟨s, hs, ho⟩ := hb.seated id w hf
    refine ⟨if i = w.source then f s else s, ?_, ?_⟩
    · rw [List.getElem?_modify, hs]
      split_ifs <;> rfl
    · split_ifs
      · rw [ho, (hk s).1, (hk s).2.1]
      · exact ho
  · intro o s hs
    obtain ⟨old, hold, rfl⟩ := getElem?_modify_some hs
    have hc := hb.counted o old hold
    split_ifs
    · rw [(hk old).2.2]
      exact hc
    · exact hc

variable {id : Int} {w : Worker} {nextSource : Nat}

/-- A worker changes and keeps its seat. -/
theorem Books.swap (hb : d.Books) {next : Worker} (hfi : d.workers.find? id = some w)
    (hs : next.source = w.source) (ho : next.origin = w.origin) :
    ({ d with workers := d.workers.insert id next } : Desk).Books := by
  have hc : ∀ o g, (d.workers.insert id next).find? o = some g →
        ∃ old, d.workers.find? o = some old ∧ g.source = old.source ∧ g.origin = old.origin := by
    intro o g hf
    rw [find?_insert] at hf
    split_ifs at hf with hot
    · cases hf
      exact ⟨w, hot ▸ hfi, hs, ho⟩
    · exact ⟨g, hf, rfl, rfl⟩
  exact
    { hb with
      fresh := by
        intro o g hf
        obtain ⟨old, hold, _⟩ := hc o g hf
        exact hb.fresh o old hold
      seated := by
        intro o g hf
        obtain ⟨old, hold, hsa, hn⟩ := hc o g hf
        rw [hsa, hn]
        exact hb.seated o old hold
      counted := by
        intro i s hi
        rw [hb.counted i s hi, count_insert, count_cons_erase _ _ hfi, hs] }

/-- A worker ends. -/
theorem Books.leave (hb : d.Books) (hfi : d.workers.find? id = some w) : ({ d with
      workers := d.workers.erase id
      sources := d.sources.modify w.source fun s =>
        { s with active := max 0 (s.active - 1) } } : Desk).Books := by
  have hold : ∀ o g, (d.workers.erase id).find? o = some g → d.workers.find? o = some g := by
    intro o g hf
    rw [find?_erase] at hf
    split_ifs at hf
    exact hf
  refine
    { fresh := fun o g hf =>
        hb.fresh o g (hold o g hf)
      seated := ?_
      counted := ?_
      distinct := distinct_modify hb.distinct _ fun _ => rfl
      issued := issued_modify hb.issued _ fun _ => rfl }
  · intro o g hf
    obtain ⟨s, hs, ho⟩ := hb.seated o g (hold o g hf)
    refine ⟨_, by rw [List.getElem?_modify, hs]; rfl, ?_⟩
    split_ifs <;> exact ho
  · intro i s hs
    obtain ⟨old, hw, rfl⟩ := getElem?_modify_some hs
    have hc := hb.counted i old hw
    rw [count_cons_erase _ _ hfi] at hc
    split_ifs at hc ⊢ with hi
    · dsimp only
      push_cast at hc
      omega
    · simpa using hc

/-- A worker is launched. -/
theorem Books.join (hb : d.Books) {m : Source} (hm : d.sources[w.source]? = some m)
    (ho : w.origin = (m.uid, m.uri)) :
    ({ d with
      nextWorkerId := d.nextWorkerId + 1
      workers := d.workers.insert d.nextWorkerId w
      sources := d.sources.modify w.source fun s =>
        { s with active := s.active + 1, used := true } } : Desk).Books := by
  have hno : d.workers.find? d.nextWorkerId = none := by
    by_contra hso
    obtain ⟨g, hf⟩ := Option.ne_none_iff_exists'.mp hso
    exact lt_irrefl _ (hb.fresh _ g hf)
  have hc : ∀ o g, (d.workers.insert d.nextWorkerId w).find? o =
        some g → o = d.nextWorkerId ∧ g = w ∨ d.workers.find? o = some g := by
    intro o g hf
    rw [find?_insert] at hf
    split_ifs at hf with hot
    · exact .inl ⟨hot, (Option.some.inj hf).symm⟩
    · exact .inr hf
  refine
    { fresh := ?_
      seated := ?_
      counted := ?_
      distinct := distinct_modify hb.distinct _ fun _ => rfl
      issued := issued_modify hb.issued _ fun _ => rfl }
  · intro o g hf
    rcases hc o g hf with ⟨rfl, _⟩ | h
    · exact Int.lt_succ _
    · exact (hb.fresh o g h).trans (Int.lt_succ _)
  · intro o g hf
    obtain ⟨s, hs, hn⟩ : ∃ s, d.sources[g.source]? = some s ∧ g.origin = (s.uid, s.uri) := by
      rcases hc o g hf with ⟨_, rfl⟩ | h
      · exact ⟨m, hm, ho⟩
      · exact hb.seated o g h
    refine ⟨_, by rw [List.getElem?_modify, hs]; rfl, ?_⟩
    split_ifs <;> exact hn
  · intro i s hs
    obtain ⟨old, hw, rfl⟩ := getElem?_modify_some hs
    have hco := hb.counted i old hw
    rw [count_insert, erase_of_find_none hno]
    split_ifs with hi
    · push_cast
      rw [← hco]
    · simpa using hco

/-- Nobody runs and nobody is counted. -/
theorem Books.of_idle (hw : d.workers = ∅) (ha : ∀ s ∈ d.sources, s.active = 0)
    (hdi : (d.sources.map Source.uid).Nodup) (hi : ∀ s ∈ d.sources, s.uid < d.nextSource) :
    d.Books := by
  have hn : ∀ id w, d.workers.find? id ≠ some w := by
    intro id w hf
    simp [hw] at hf
  refine
    { fresh := fun id w hf => absurd hf (hn id w)
      seated := fun id w hf => absurd hf (hn id w)
      counted := ?_
      distinct := hdi
      issued := hi }
  intro i s hs
  rw [ha s (List.mem_of_getElem? hs), hw]
  rfl

theorem Books.of_eq {next : Desk} (hb : d.Books) (he : next = d) : next.Books := he ▸ hb

/-- The list changes where no worker sits. -/
theorem Books.rearrange (hb : d.Books) {sources : List Source}
    (hse : ∀ id w, d.workers.find? id = some w → sources[w.source]? = d.sources[w.source]?)
    (ho : ∀ i s, sources[i]? = some s → d.sources[i]? = some s ∨ s.active = 0 ∧ ∀ id w,
          d.workers.find? id = some w → w.source ≠ i) (hdi : (sources.map Source.uid).Nodup)
    (hi : ∀ s ∈ sources, s.uid < nextSource) : ({ d with sources, nextSource } : Desk).Books := by
  refine
    { fresh := hb.fresh
      seated := ?_
      counted := ?_
      distinct := hdi
      issued := hi }
  · intro id w hf
    rw [hse id w hf]
    exact hb.seated id w hf
  · intro i s hs
    rcases ho i s hs with hold | ⟨ha, hn⟩
    · exact hb.counted i s hold
    · rw [ha, count_eq_zero hn]
      rfl

/-- A source behind every worker goes. -/
theorem Books.remove (hb : d.Books) {i : Nat}
    (hbe : ∀ id w, d.workers.find? id = some w → w.source < i) :
    ({ d with sources := d.sources.eraseIdx i } : Desk).Books := by
  have hsu : (d.sources.eraseIdx i).Sublist d.sources := List.eraseIdx_sublist _ _
  apply hb.rearrange
  · intro id w hf
    exact List.getElem?_eraseIdx_of_lt (hbe id w hf)
  · intro o s hs
    by_cases ho : o < i
    · rw [List.getElem?_eraseIdx_of_lt ho] at hs
      exact .inl hs
    · rw [List.getElem?_eraseIdx_of_ge (by omega)] at hs
      refine .inr ⟨?_, fun id w hf => ?_⟩
      · rw [hb.counted _ s hs, count_eq_zero]
        · rfl
        · intro id w hf
          have := hbe id w hf
          omega
      · have := hbe id w hf
        omega
  · exact (hsu.map _).nodup hb.distinct
  · exact fun s hs => hb.issued s (hsu.subset hs)

/-- New sources come in behind every worker. -/
theorem Books.insert (hb : d.Books) {p : Nat} {f : List Source} (hpl : p ≤ d.sources.length)
    (hbe : ∀ id w, d.workers.find? id = some w → w.source < p) (ha : ∀ s ∈ f, s.active = 0)
    (hdi : (f.map Source.uid).Nodup) (hn : ∀ s ∈ f, d.nextSource ≤ s.uid ∧ s.uid < nextSource)
    (hne : d.nextSource ≤ nextSource) : ({ d with
      sources := d.sources.take p ++ f ++ d.sources.drop p
      nextSource } : Desk).Books := by
  have hp : (d.sources.take p ++ f ++ d.sources.drop p).Perm (f ++ d.sources) := by
    rw [List.append_assoc]
    refine (List.perm_append_comm_assoc _ _ _).trans ?_
    rw [List.take_append_drop]
  have hl : (d.sources.take p).length = p := List.length_take_of_le hpl
  have hbef : ∀ i < p, (d.sources.take p ++ f ++ d.sources.drop p)[i]? = d.sources[i]? := by
    intro i hi
    rw [List.append_assoc, List.getElem?_append_left (by omega), List.getElem?_take_of_lt hi]
  apply hb.rearrange
  · exact fun id w hf => hbef _ (hbe id w hf)
  · intro i s hs
    by_cases hi : i < p
    · rw [hbef i hi] at hs
      exact .inl hs
    · refine .inr ⟨?_, fun id w hf => ?_⟩
      · rw [List.append_assoc, List.getElem?_append_right (by omega), hl] at hs
        by_cases hfr : i - p < f.length
        · rw [List.getElem?_append_left hfr] at hs
          exact ha s (List.mem_of_getElem? hs)
        · rw [List.getElem?_append_right (by omega), List.getElem?_drop] at hs
          rw [hb.counted _ s hs, count_eq_zero]
          · rfl
          · intro id w hf
            have := hbe id w hf
            omega
      · have := hbe id w hf
        omega
  · rw [(hp.map _).nodup_iff, List.map_append]
    refine hdi.append hb.distinct ?_
    intro uid hfr hold
    obtain ⟨s, hs, rfl⟩ := List.mem_map.mp hfr
    obtain ⟨old, hm, hu⟩ := List.mem_map.mp hold
    have hlo := (hn s hs).1
    have hh := hb.issued old hm
    omega
  · intro s hs
    rcases List.mem_append.mp (hp.subset hs) with hs | hs
    · exact (hn s hs).2
    · exact (hb.issued s hs).trans_le hne

end Desk

section

variable {task t : HttpTask F}

section

variable (hb : t.frame.desk.Books)

include hb

theorem updateWorker_books (id : Int) {f : Worker → Worker}
    (hk : ∀ w, (f w).source = w.source ∧ (f w).origin = w.origin) :
    (t.updateWorker id f).frame.desk.Books := by
  rw [updateWorker]
  rcases hf : t.workers.find? id with _ | w
  · exact hb
  · exact hb.swap hf (hk w).1 (hk w).2

theorem flush_books (id : Int) : (t.flush id).frame.desk.Books := by
  rw [flush]
  rcases hf : t.workers.find? id with _ | w
  · exact hb
  · dsimp only
    split_ifs
    · exact hb
    · exact hb.swap hf rfl rfl
    · exact hb.swap hf rfl rfl
    · exact hb.swap hf rfl rfl

theorem keepBytes_books (f : Facts F) (id b : Int) (d : List UInt8) :
    (t.keepBytes f id b d).frame.desk.Books := by
  rw [keepBytes]
  rcases hf : t.workers.find? id with _ | w
  · exact hb
  · exact hb.swap hf rfl rfl

theorem retireWorker_books (now id : Int) :
    (t.retireWorker now id).frame.desk.Books := by
  rw [retireWorker]
  rcases hf : t.workers.find? id with _ | w
  · exact hb
  · exact hb.leave hf

theorem cancelWorker_books (now id : Int) :
    (t.cancelWorker now id).frame.desk.Books := by
  rw [cancelWorker]
  rcases hf : t.workers.find? id with _ | w
  · exact hb
  · exact retireWorker_books (flush_books hb id) now id

end

theorem foldl_books {A : Type*} {f : HttpTask F → A → HttpTask F}
    (hs : ∀ t i, t.frame.desk.Books → (f t i).frame.desk.Books) (l : List A) {t : HttpTask F}
    (hb : t.frame.desk.Books) : (l.foldl f t).frame.desk.Books := by
  induction l generalizing t with
  | nil => exact hb
  | cons i r ih => exact ih (hs t i hb)

variable {next : HttpTask F} {desk d : Desk} {remove r : List String} {position p : Int}
  {event : Event F}

theorem consume_books {f : Facts F} {id : Int} {r : Nat} {t : HttpTask F} {c rest : List UInt8}
    {how : ChunkEnd} (hc : consume f id r t c = some (next, rest, how)) (hb : t.frame.desk.Books) :
    next.frame.desk.Books :=
  consume_preserve (motive := fun t => t.frame.desk.Books)
    (fun _ _ h => h) (fun _ b d h => keepBytes_books h f id b
      d) (fun _ o h => cancelWorker_books h f.now o)
    (fun _ h => updateWorker_books h id fun _ => ⟨rfl, rfl⟩) hc hb

theorem settle_books (hb : t.frame.desk.Books) (now id n : Int) :
    (t.settle now id n).frame.desk.Books := by
  have hf := foldl_books (fun t o h => cancelWorker_books h now o)
    (t.workers.keys.filter fun o => o ≠ id) hb
  rw [settle]
  split_ifs <;> exact hf

theorem move_books {st : Rule} {t : HttpTask F} (hmo : Move st t next) (hb : t.frame.desk.Books) :
    next.frame.desk.Books := by
  cases hmo with
  | frame hfr =>
    rw [hfr]
    exact hb
  | touch hf hk hdo =>
    simp only [Worker.key, Prod.mk.injEq] at hk
    exact hb.swap hf hk.1 hk.2.2.2.2.2.2.2
  | accept hf hp => exact hb.swap hf rfl rfl
  | flush id => exact flush_books hb id
  | retire now id => exact retireWorker_books hb now id
  | launch hpl hfre hm ho hp =>
    exact hb.join hm ho
  | decline hpl =>
    exact { hb with fresh := fun id w hf =>
        (hb.fresh id w hf).trans (Int.lt_succ _) }
  | consume hf hdo hp hc =>
    exact consume_books hc (hb.swap hf rfl rfl)
  | define now n hp hf =>
    refine settle_books ?_ now _ n
    exact hb.swap hf rfl rfl
  | opened hp =>
    rw [foldl_write_frame]
    exact hb
  | reset hp hr hst =>
    have hu := List.map_map (l := t.sources) (g := Source.uid) (f := fun s => { s with
        active := 0, failures := 0, readyAt := 0, etag := ""
        lastModified := "" })
    refine .of_idle rfl ?_ (hu ▸ hb.distinct) ?_
    · intro s hs
      obtain ⟨old, _, rfl⟩ := List.mem_map.mp hs
      rfl
    · intro s hs
      obtain ⟨old, hold, rfl⟩ := List.mem_map.mp hs
      exact hb.issued old hold
  | leave now hp =>
    exact foldl_books (fun t id h =>
      retireWorker_books (flush_books h id) now id) _ hb
  | restart hl hst =>
    exact foldl_books (fun t id h => retireWorker_books h _ id) _ hb
  | source i hke => exact hb.update i hke
  | checkpoint c =>
    rw [checkpoint_frame]
    exact hb
  | _ => exact hb

/-- The edit an input makes to the list of sources. -/
def Input.edit : Input → Option (List String × List String × Int)
  | .changeUris remove add position _ => some (remove, add, position)
  | _ => none

/-- An edit leaves the sources of running workers where they are: what it
removes and where it inserts lies behind them. -/
def KeepsSeats (task : HttpTask F) (event : Event F) : Prop :=
  ∀ edit ∈ event.input.edit, ∀ entry ∈ task.workers.entries,
    (∀ mirror ∈ task.sources.zipIdx, mirror.1.uri ∈ edit.1 →
      mirror.1.active = 0 → entry.2.source < mirror.2) ∧
    (edit.2.1 = [] ∨ edit.2.2 < 0 ∨ (entry.2.source : Int) < edit.2.2)

instance decidableKeepsSeats (task : HttpTask F) (event : Event F) :
    Decidable (task.KeepsSeats event) :=
  inferInstanceAs (Decidable (∀ edit ∈ event.input.edit, ∀ entry ∈ _, _))

/-- The sources with these URIs and without workers lie behind the workers. -/
def Desk.Behind (desk : Desk) (remove : List String) : Prop :=
  ∀ id worker, desk.workers.find? id = some worker → ∀ index source,
    desk.sources[index]? = some source → source.uri ∈ remove →
      source.active = 0 → worker.source < index

/-- At most one source goes, and no worker ran against it. -/
theorem removeUri_cases (ss : List Source) (uri : String) : removeUri ss uri = ss ∨ ∃ i s,
      ss[i]? = some s ∧ s.uri = uri ∧ s.active = 0 ∧ removeUri ss uri = ss.eraseIdx i := by
  rw [removeUri]
  split
  · exact .inl rfl
  · rename_i i hin
    split_ifs with hi
    · obtain ⟨hl, hu, _⟩ := List.findIdx?_eq_some_iff_getElem.mp hin
      rw [List.getElem?_eq_getElem hl] at hi
      exact .inr ⟨i, _, List.getElem?_eq_getElem hl, by simpa using hu, by simpa using hi, rfl⟩
    · exact .inl rfl

theorem removeUri_books (hbo : d.Books) (hb : d.Behind r) {uri : String} (hu : uri ∈ r) :
    ({ d with sources := removeUri d.sources uri } : Desk).Books ∧
      ({ d with sources := removeUri d.sources uri } : Desk).Behind r := by
  rcases removeUri_cases d.sources uri with
    hsa | ⟨i, source, hs, hn, hi, hr⟩
  · rw [hsa]
    exact ⟨hbo, hb⟩
  · rw [hr]
    have hal : ∀ id w, d.workers.find? id = some w → w.source < i := fun id w hf =>
      hb id w hf i source hs (hn ▸ hu) hi
    refine ⟨hbo.remove hal, ?_⟩
    intro id w hf o found hfo hm ha
    by_cases ho : o < i
    · rw [List.getElem?_eraseIdx_of_lt ho] at hfo
      exact hb id w hf o found hfo hm ha
    · have := hal id w hf
      omega

theorem removeAll_books (hb : d.Books) (hbe : d.Behind r) {u : List String}
    (hu : ∀ uri ∈ u, uri ∈ r) :
    ({ d with sources := u.foldl removeUri d.sources } : Desk).Books := by
  induction u generalizing d with
  | nil => exact hb
  | cons uri re ih =>
    obtain ⟨hur, hr⟩ := List.forall_mem_cons.mp hu
    obtain ⟨hn, hs⟩ := removeUri_books hb hbe hur
    exact ih hn hs hr

/-- The sources `changeUris` adds. -/
theorem fresh_sources (add : List String) (b : Nat) :
    let f := add.zipIdx.map fun e : String × Nat =>
      ({ uri := e.1, uid := b + e.2 } : Source)
    (∀ s ∈ f, s.active = 0) ∧ (f.map Source.uid).Nodup ∧
      ∀ s ∈ f, b ≤ s.uid ∧ s.uid < b + add.length := by
  intro f
  have hu : f.map Source.uid = (List.range add.length).map fun i => b + i := by
    rw [List.range_eq_range', ← List.zipIdx_map_snd 0 add, List.map_map, List.map_map]
    rfl
  refine ⟨?_, ?_, ?_⟩
  · intro s hs
    obtain ⟨e, _, rfl⟩ := List.mem_map.mp hs
    rfl
  · rw [hu]
    exact List.nodup_range.map fun _ _ h => Nat.add_left_cancel h
  · intro s hs
    have hui : s.uid ∈ f.map Source.uid := List.mem_map_of_mem hs
    rw [hu] at hui
    obtain ⟨i, hi, hsu⟩ := List.mem_map.mp hui
    have := List.mem_range.mp hi
    omega

/-- Where `changeUris` inserts. -/
theorem place_le (p : Int) (s : Nat) : (clampInt (if p < 0 then s else p) 0 s).toNat ≤ s := by
  rw [clampInt]
  split_ifs <;> omega

theorem lt_place {si s : Nat} (hs : s < si) (hp : p < 0 ∨ (s : Int) < p) :
    s < (clampInt (if p < 0 then si else p) 0 si).toNat := by
  rw [clampInt]
  split_ifs <;> omega

theorem editUris_books (hbo : t.frame.desk.Books) {add : List String}
    (hb : t.frame.desk.Behind remove)
    (hp : add = [] ∨ ∀ id w, t.workers.find? id = some w → p < 0 ∨ (w.source : Int) < p) :
    (t.editUris remove add p).frame.desk.Books := by
  have hr : ({ t.frame.desk with sources := remove.foldl removeUri t.sources } : Desk).Books :=
    removeAll_books hbo hb fun _ h => h
  obtain ⟨ha, hdi, hn⟩ := fresh_sources add t.nextSource
  rcases hp with rfl | hp
  · refine hr.of_eq (Desk.ext ?_ rfl rfl rfl)
    exact (congrArg (· ++ _) (List.append_nil _)).trans (List.take_append_drop _ _)
  · refine hr.insert ?_ ?_ ha hdi hn (Nat.le_add_right _ _)
    · exact place_le p _
    · intro id w hf
      obtain ⟨s, hs, _⟩ := hr.seated id w hf
      have hl := (List.getElem?_eq_some_iff.mp hs).1
      exact lt_place hl (hp id w hf)

theorem reshape_books (hb : t.frame.desk.Books) (hk : t.KeepsSeats event) :
    (t.reshape event.input).frame.desk.Books := by
  obtain ⟨input, f⟩ := event
  cases input with
  | changeUris r add p a =>
    have hed := hk (r, add, p) rfl
    refine editUris_books hb ?_ ?_
    · intro id w hf i s hs hu hi
      have he := (find?_eq_some_iff _ _ _).mp hf
      exact (hed (id, w) he).1 (s, i) (List.mem_zipIdx_iff_getElem?.mpr hs) hu hi
    · by_cases had : add = []
      · exact .inl had
      · refine .inr fun id w hf => ?_
        have he := (find?_eq_some_iff _ _ _).mp hf
        exact (hed (id, w) he).2.resolve_left had
  | recreate =>
    obtain ⟨ha, hdi, hn⟩ := fresh_sources (t.sources.map Source.uri) 0
    simp only [Nat.zero_add] at ha hdi hn
    exact .of_idle rfl ha hdi fun s hs =>
      (hn s hs).2
  | _ => exact hb

theorem create_books (os : Options) (u : List String) (d : Int) (pt : String) (p : Int)
    (pieces : Nat) : (create os u d pt p pieces : HttpTask F).frame.desk.Books := by
  obtain ⟨ha, hdi, hn⟩ := fresh_sources u 0
  simp only [Nat.zero_add] at ha hdi hn
  exact .of_idle rfl ha hdi fun s hs =>
    (hn s hs).2

theorem step_books (hs : t.frame.Staged) (hb : t.frame.desk.Books) (hk : t.KeepsSeats event) :
    (t.step event).frame.desk.Books :=
  step_preserve (motive := fun t => t.frame.desk.Books) (fun hm _ h => move_books hm h) hs
    ⟨reshape_staged hs event.input, reshape_books hb hk⟩

end

/-- The workers launched against a source are those that sit at its index. -/
theorem Desk.Books.count_origin {d : Desk} (hb : d.Books) (hs : s ∈ d.sources) :
    s.active = ((d.workers.count fun w =>
      w.origin.1 = s.uid : Nat) : Int) := by
  obtain ⟨i, hi⟩ := List.getElem?_of_mem hs
  rw [hb.counted i s hi]
  congr 1
  apply count_congr
  intro id w hf
  obtain ⟨own, ho, hor⟩ := hb.seated id w hf
  rw [hor]
  constructor
  · rintro rfl
    cases hi.symm.trans ho
    rfl
  · intro hu
    have hl := (List.getElem?_eq_some_iff.mp ho).1
    refine (List.getElem?_inj (by simpa using hl) hb.distinct).mp ?_
    rw [List.getElem?_map, List.getElem?_map, ho, hi]
    exact congrArg some hu

/-- Source bookkeeping in every run whose edits of the list leave the sources
of running workers where they are: a worker's index denotes the source it was
launched against, and a source counts the workers launched against it. -/
theorem run_sources_stay_true (options : Options) (uris : List String)
    (declared : Int) (pieceType : String) (pieceLength : Int) (pieces : Nat)
    (events : List (Event F))
    (hkeeps : Runs.Meets step KeepsSeats
      (create options uris declared pieceType pieceLength pieces) events) :
    let task := Runs.run step (create options uris declared pieceType pieceLength pieces) events
    (∀ id worker, task.workers.find? id = some worker →
      ∃ source, task.sources[worker.source]? = some source ∧
        (source.uid, source.uri) = worker.origin) ∧
    ∀ source ∈ task.sources, source.active = ((task.workers.count fun worker =>
        worker.origin.1 = source.uid : Nat) : Int) := by
  have hstep : ∀ (task : HttpTask F) (event : Event F),
      task.frame.Staged ∧ task.frame.desk.Books → task.KeepsSeats event →
        (task.step event).frame.Staged ∧ (task.step event).frame.desk.Books :=
    fun _ event h hkeeps =>
      ⟨step_staged h.1 event, step_books h.1 h.2 hkeeps⟩
  obtain ⟨_, hbooks⟩ := Runs.run_invariant hstep
    ⟨create_staged options uris declared pieceType pieceLength pieces,
      create_books options uris declared pieceType pieceLength pieces⟩ hkeeps
  refine ⟨fun id worker hfind => ?_, fun _ => hbooks.count_origin⟩
  obtain ⟨source, hsource, horigin⟩ := hbooks.seated id worker hfind
  exact ⟨source, hsource, horigin.symm⟩

/-- The idle mirror of a running download is exchanged for another. -/
theorem run_sources_stay_true_exchange : let events : List (Event ℚ) :=
      [⟨.start, {}⟩, ⟨.header 0 { status := 206, contentRange := some (some ⟨0, 99, 100⟩) }, {}⟩,
        ⟨.changeUris ["b"] ["c"] (-1) false, {}⟩]
    let task := Runs.run step (create {} ["a", "b"] (-1) "" 0 0) events
    task.sources.map Source.uri = ["a", "c"] ∧
    (∀ id worker, task.workers.find? id = some worker →
      ∃ source, task.sources[worker.source]? = some source ∧
        (source.uid, source.uri) = worker.origin) ∧
    ∀ source ∈ task.sources, source.active = ((task.workers.count fun worker =>
        worker.origin.1 = source.uid : Nat) : Int) :=
  ⟨by decide +kernel, run_sources_stay_true {} ["a", "b"] (-1) "" 0 0 _ (by decide +kernel)⟩

/-- A source inserted before a running one: the worker launched against `a`
then holds the index of `c`.  When it ends, `c` is discounted and `a` counts a
worker that is gone. -/
theorem inserted_source_displaces_worker : let events : List (Event ℚ) :=
      [⟨.start, {}⟩, ⟨.header 0 { status := 206, contentRange := some (some ⟨0, 99, 100⟩) }, {}⟩,
        ⟨.changeUris [] ["c"] 0 false, {}⟩]
    let task := Runs.run step (create {} ["a", "b"] (-1) "" 0 0) events
    let stopped := task.step ⟨.stop, {}⟩
    (task.workers.find? 0).map (fun worker => (worker.source, worker.origin)) = some (0, (0, "a")) ∧
    (task.sources[0]?).map Source.uri = some "c" ∧
    stopped.workers = ∅ ∧
    stopped.sources.map (fun source => (source.uri, source.active)) =
      [("c", 0), ("a", 1), ("b", 0)] := by
  refine ⟨by decide +kernel, by decide +kernel, ?_, by decide +kernel⟩
  exact eq_empty_of_entries (by decide +kernel)

end HttpTask

end Aria2Next
