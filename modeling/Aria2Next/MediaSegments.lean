/-
`media/MediaSegments`: the segments a media job has committed.  The numbers of
a track of an HLS presentation are one run, each segment starts where the one
before it ends, and the totals a job keeps beside the segments are theirs.

Numbers, times and sizes are integers: HLS numbers and durations come in 32
bits, so no sum of them leaves 64.
-/
import Aria2Next.OrdMap
import Aria2Next.Runs
import Aria2Next.Text

namespace Aria2Next.MediaJob

open OrdMap Function

structure Segment where
  period : Int := 0
  track : Text := []
  number : Int := 0
  start : Int := 0
  duration : Int := 0
  path : Text := []
  init : Text := []
  type : Text := []
  hls : Bool := false
  bytes : Int := 0
  digest : Text := []
  initDigest : Text := []
deriving DecidableEq, Repr

/-- A track in a period. -/
abbrev Lane := Int ×ₗ Text

abbrev SegmentKey := Lane ×ₗ Int

def Segment.lane (segment : Segment) : Lane := toLex (segment.period, segment.track)

def Segment.key (segment : Segment) : SegmentKey := toLex (segment.lane, segment.number)

/-- What the job remembers; an entry that is missing in `coverage` or
`retainedPaths` reads as zero. -/
structure Timeline where
  live : Bool := false
  retained : OrdMap SegmentKey Segment := ∅
  coverage : Lane → Int := fun _ => 0
  lastSegments : OrdMap Lane Segment := ∅
  retainedPaths : Text → Int × Int := fun _ => (0, 0)
  retainedBytes : Int := 0
  digests : Text → Option Text := fun _ => none

/-- What the rest of the program does in one call; each part may throw. -/
structure Disk where
  /-- `Muxer::startTime`. -/
  startTime : Segment → Option Int → Except Text Int
  /-- `std::filesystem::file_size`. -/
  fileSize : Text → Except Text Int
  /-- Both synchronisations and `Transport::digest`. -/
  hash : Text → Except Text Text
  /-- `Store::commit`. -/
  store : Segment → Except Text Unit

namespace Timeline

variable (timeline : Timeline) (segment : Segment)

/-- The first half of `remember`: the segment that is replaced. -/
def release (previous : Segment) : Timeline :=
  let resource := timeline.retainedPaths previous.path
  { timeline with
    coverage := update timeline.coverage segment.lane
      (timeline.coverage segment.lane - previous.duration)
    retainedPaths := update timeline.retainedPaths previous.path
      (resource.1 - 1, resource.2)
    retainedBytes := if resource.1 - 1 = 0 then timeline.retainedBytes - resource.2
      else timeline.retainedBytes }

/-- The second half. -/
def enter : Timeline :=
  let resource := timeline.retainedPaths segment.path
  { timeline with
    retained := timeline.retained.insert segment.key segment
    coverage := update timeline.coverage segment.lane
      (timeline.coverage segment.lane + segment.duration)
    retainedPaths := update timeline.retainedPaths segment.path
      (resource.1 + 1, if resource.1 = 0 then segment.bytes else resource.2)
    retainedBytes := if resource.1 = 0 then timeline.retainedBytes + segment.bytes
      else timeline.retainedBytes
    lastSegments :=
      -- a new entry is a segment without a track
      let last := (timeline.lastSegments.find? segment.lane).getD {}
      if last.track = [] ∨ last.number ≤ segment.number
        then timeline.lastSegments.insert segment.lane segment
        else timeline.lastSegments }

def remember : Timeline :=
  match timeline.retained.find? segment.key with
  | some previous => (timeline.release segment previous).enter segment
  | none => timeline.enter segment

def digest (disk : Disk) (path : Text) : Except Text Text × Timeline :=
  if path = [] then (.ok [], timeline)
  else
    match timeline.digests path with
    | some found => (.ok found, timeline)
    | none =>
      match disk.hash path with
      | .error text => (.error text, timeline)
      | .ok found =>
        (.ok found,
          { timeline with digests := update timeline.digests path (some found) })

/-- The start of the first segment of the period that is no subtitle. -/
def reference : Option Int :=
  (timeline.lastSegments.entries.find? fun entry =>
    (ofLex entry.1).1 = segment.period ∧ entry.2.type ≠ Text.of "subtitle").map (·.2.start)

/-- The first half of `commit`: where the segment starts, if it is kept. -/
def place (disk : Disk) (segment : Segment) :
    Except Text (Option Segment) := do
  let last := timeline.lastSegments.find? segment.lane
  let segment ←
    if timeline.live ∧ segment.hls ∧ segment.type ≠ Text.of "subtitle" ∧ last = none then do
      let start ← disk.startTime segment (timeline.reference segment)
      .ok { segment with start }
    else .ok segment
  match last with
  | none => .ok (some segment)
  | some last =>
    if (segment.hls ∧ segment.number > last.number + 1) ∨
        (segment.hls = false ∧ segment.start > last.start + last.duration + 1) then
      .error (Text.of
        "Media segments are missing; refusing to save an incomplete presentation")
    else if segment.hls then
      match timeline.retained.find? segment.key with
      | some previous => .ok (some { segment with start := previous.start })
      | none =>
        if segment.number = last.number + 1 then
          .ok (some { segment with start := last.start + last.duration })
        else .ok none
    else .ok (some segment)

/-- The second half: the file is measured and the segment stored. -/
def keep (disk : Disk) (segment : Segment) : Except Text Unit × Timeline :=
  match disk.fileSize segment.path with
  | .error text => (.error text, timeline)
  | .ok bytes =>
    match timeline.digest disk segment.path with
    | (.error text, timeline) => (.error text, timeline)
    | (.ok digest, timeline) =>
      match timeline.digest disk segment.init with
      | (.error text, timeline) => (.error text, timeline)
      | (.ok initDigest, timeline) =>
        let segment := { segment with bytes, digest, initDigest }
        if timeline.live ∧ (timeline.retained.find? segment.key).any (·.digest ≠ digest) then
          (.error (Text.of "A committed live media segment changed while resuming"), timeline)
        else
          match disk.store segment with
          | .error text => (.error text, timeline)
          | .ok () => (.ok (), timeline.remember segment)

def commit (disk : Disk) (segment : Segment) : Except Text Unit × Timeline :=
  match timeline.place disk segment with
  | .error text => (.error text, timeline)
  | .ok none => (.ok (), timeline)
  | .ok (some segment) => timeline.keep disk segment

/-- A call, whether it throws or not. -/
def step (call : Disk × Segment) : Timeline :=
  (timeline.commit call.1 call.2).2

section Books

variable {size : Text → Int} {retained r : OrdMap SegmentKey Segment} {timeline t : Timeline}
  {s p : Segment}

/-- The files of some segments. -/
def paths (retained : OrdMap SegmentKey Segment) : Finset Text :=
  (retained.values.map Segment.path).toFinset

def covered (retained : OrdMap SegmentKey Segment) (lane : Lane) : Int :=
  (retained.entries.map fun entry => if entry.2.lane = lane then entry.2.duration else 0).sum

/-- The totals are those of `retained`. -/
structure Booked (size : Text → Int) (retained : OrdMap SegmentKey Segment)
    (timeline : Timeline) : Prop where
  coverage : ∀ lane, timeline.coverage lane = covered retained lane
  counts : ∀ path, (timeline.retainedPaths path).1 = retained.count (·.path = path)
  sizes : ∀ path, (timeline.retainedPaths path).1 ≠ 0 →
    (timeline.retainedPaths path).2 = size path
  bytes : timeline.retainedBytes = ∑ path ∈ paths retained, size path

theorem mem_paths {p : Text} : p ∈ paths r ↔ r.count (·.path = p) ≠ 0 := by
  simp [paths, values, count, List.countP_eq_zero]

theorem paths_of_perm {o : OrdMap SegmentKey Segment} {key : SegmentKey}
    (hp : r.entries.Perm ((key, s) :: o.entries)) : paths r = insert s.path (paths o) := by
  ext path
  simp [paths, values, hp.mem_iff, or_and_right, exists_or, eq_comm]

theorem Booked.release (hbo : Booked size r t) (hf : r.find? s.key = some p)
    (hl : p.lane = s.lane) : Booked size (r.erase s.key) (t.release s p) := by
  have hp := r.entries_perm_cons_erase ((r.find?_eq_some_iff s.key p).mp hf)
  obtain ⟨hco, hc, hsi, hb⟩ := hbo
  simp only [r.count_cons_erase _ hf, Nat.cast_add] at hc
  constructor
  · intro l
    have hsu := (hp.map fun e => if e.2.lane = l then e.2.duration else 0).sum_eq
    have hold := hco l
    simp only [Timeline.release, update_apply, covered] at hold ⊢
    split_ifs <;> grind
  · intro pa
    simp only [Timeline.release, update_apply]
    split_ifs with hs
    · simp [hs, hc]
    · simp [hc, Ne.symm hs]
  · intro pa
    simp only [Timeline.release, update_apply]
    split_ifs with hs
    · subst hs
      refine fun _ => hsi p.path ?_
      simp only [hc, ↓reduceIte]
      omega
    · exact hsi pa
  · have hold := hc p.path
    simp only [↓reduceIte] at hold
    rw [paths_of_perm hp] at hb
    simp only [Timeline.release]
    split_ifs with hg
    · rw [hb, Finset.sum_insert, hsi]
      · omega
      · omega
      · rw [mem_paths]
        omega
    · rw [hb, Finset.insert_eq_of_mem]
      rw [mem_paths]
      omega

theorem Booked.enter (hbo : Booked size (r.erase s.key) t) (hb : s.bytes = size s.path) :
    Booked size (r.insert s.key s) (t.enter s) := by
  obtain ⟨hco, hc, hsi, ht⟩ := hbo
  constructor
  · intro l
    have hold := hco l
    simp only [Timeline.enter, update_apply, covered, sum_insert] at hold ⊢
    split_ifs <;> grind
  · intro p
    rw [r.count_insert]
    simp only [Timeline.enter, update_apply, eq_comm (a := p)]
    by_cases hs : s.path = p
    · simp [hs, hc]
    · simp [hs, hc]
  · intro p
    simp only [Timeline.enter, update_apply]
    split_ifs with hs hf
    · exact fun _ => hs ▸ hb
    · exact fun _ => hs ▸ hsi s.path hf
    · exact hsi p
  · have hold := hc s.path
    simp only [Timeline.enter]
    rw [paths_of_perm (r.entries_insert_perm s.key s)]
    split_ifs with hf
    · rw [ht, Finset.sum_insert, hb, add_comm]
      rw [mem_paths]
      omega
    · rw [ht, Finset.insert_eq_of_mem]
      rw [mem_paths]
      omega

theorem Booked.remember (hb : Booked size t.retained t)
    (hl : ∀ p, t.retained.find? s.key = some p → p.lane = s.lane) (hby : s.bytes = size s.path) :
    Booked size (t.remember s).retained (t.remember s) := by
  rw [Timeline.remember]
  split
  · next p hf => exact (hb.release hf (hl p hf)).enter hby
  · next hf =>
    rw [← erase_of_find_none hf] at hb
    exact hb.enter hby

end Books

section Lines

variable {duration d : Lane → Int → Int} {timeline t : Timeline} {segment s : Segment}

/-- The retained segment of a number. -/
def held (timeline : Timeline) (lane : Lane) (number : Int) : Option Segment :=
  timeline.retained.find? (toLex (lane, number))

/-- What the segments of each track are to each other. -/
structure Lined (duration : Lane → Int → Int) (timeline : Timeline) : Prop where
  keyed : ∀ lane number found, timeline.held lane number = some found →
    found.lane = lane ∧ found.number = number ∧ found.track ≠ [] ∧
      found.duration = duration lane number
  last : ∀ lane last, timeline.lastSegments.find? lane = some last →
    timeline.held lane last.number = some last
  greatest : ∀ lane number found, timeline.held lane number = some found →
    ∃ last, timeline.lastSegments.find? lane = some last ∧ number ≤ last.number
  between : ∀ lane number found last, timeline.held lane number = some found →
    timeline.lastSegments.find? lane = some last → ∀ other, number ≤ other →
    other ≤ last.number → ∃ kept, timeline.held lane other = some kept
  chained : ∀ lane number found next, timeline.held lane number = some found →
    timeline.held lane (number + 1) = some next → next.start = found.start + found.duration

/-- The segment is the first of its track, takes the start of the one it
replaces, or the end of the last one. -/
def Follows (timeline : Timeline) (segment : Segment) : Prop :=
  timeline.lastSegments.find? segment.lane = none ∨
  (∃ previous, timeline.held segment.lane segment.number = some previous ∧
    segment.start = previous.start) ∨
  ∃ last, timeline.lastSegments.find? segment.lane = some last ∧
    segment.number = last.number + 1 ∧ segment.start = last.start + last.duration

theorem held_remember (l : Lane) (n : Int) : (t.remember s).held l n =
      if l = s.lane ∧ n = s.number then some s
      else t.held l n := by
  have hk : toLex (l, n) = s.key ↔ l = s.lane ∧ n = s.number := Prod.ext_iff
  rw [remember]
  split <;> simp only [held, enter, release, find?_insert, hk]

theorem lastSegments_remember (l : Lane) : (t.remember s).lastSegments.find? l =
      if l = s.lane then
        match t.lastSegments.find? l with
        | some la =>
          if la.track = [] ∨ la.number ≤ s.number then some s else some la
        | none => some s
      else t.lastSegments.find? l := by
  have he : (t.remember s).lastSegments = (t.enter s).lastSegments := by
    rw [remember]
    split <;> rfl
  rw [he, enter]
  by_cases hl : l = s.lane
  · subst hl
    cases hf : t.lastSegments.find? s.lane with
    | none => simp
    | some la => grind [find?_insert]
  · grind [find?_insert]

theorem Lined.remember (hli : Lined d t) (ht : s.track ≠ [])
    (hdu : s.duration = d s.lane s.number) (hfo : t.Follows s) : Lined d (t.remember s) := by
  obtain ⟨hk, hla, hg, hb, hc⟩ := hli
  have hsa : ∀ l la, t.lastSegments.find? l = some la → la.track ≠ [] :=
    fun l la hfi => (hk _ _ _ (hla l la hfi)).2.2.1
  constructor <;> simp only [held_remember, lastSegments_remember]
  · grind
  · grind
  · grind
  · intro l n g la hf hfi other hlo hh
    by_cases hl : l = s.lane
    · subst hl
      by_cases ho : other = s.number
      · exact ⟨s, by simp [ho]⟩
      rcases hfo with hne | ⟨p, ha, -⟩ | ⟨before, hbe, hnu, -⟩
      · grind
      · clear hc
        grind
      · clear hc
        grind
    · simp only [hl, false_and, ↓reduceIte] at hf hfi ⊢
      exact hb l n g la hf hfi other hlo hh
  · intro l n g next hf hn
    by_cases hl : l = s.lane
    · rcases eq_or_ne n s.number with rfl | hnu
      · have := hc s.lane s.number
        grind [Follows]
      rcases eq_or_ne s.number (n + 1) with hs | hs
      · have := hc s.lane n
        grind [Follows]
      simp only [hnu, hs.symm, and_false, ↓reduceIte] at hf hn
      exact hc _ _ _ _ hf hn
    · simp only [hl, false_and, ↓reduceIte] at hf hn
      exact hc l n g next hf hn

/-- What a call leaves of the timeline. -/
inductive Committed (timeline : Timeline) (disk : Disk) (segment : Segment) : Timeline → Prop where
  | unchanged (digests) : Committed timeline disk segment { timeline with digests }
  | kept (digests) (found : Segment) (hlane : found.lane = segment.lane)
      (hnumber : found.number = segment.number) (hduration : found.duration = segment.duration)
      (hbytes : disk.fileSize found.path = .ok found.bytes) (hfollows : timeline.Follows found) :
      Committed timeline disk segment (({ timeline with digests } : Timeline).remember found)

theorem digest_leaves {d : Disk} {p : Text} {a : Except Text Text} {next : Timeline}
    (hr : t.digest d p = (a, next)) : ∃ digests, next = { t with digests } := by
  have hn : next = (t.digest d p).2 := by rw [hr]
  rw [hn, digest]
  repeat' split
  · exact ⟨_, rfl⟩
  · exact ⟨_, rfl⟩
  · exact ⟨_, rfl⟩
  · exact ⟨_, rfl⟩

theorem follows_of_place {d : Disk} {p : Segment} (hls : s.hls = true)
    (hp : t.place d s = .ok (some p)) :
    t.Follows p ∧ p.lane = s.lane ∧ p.number = s.number ∧ p.duration = s.duration := by
  unfold place at hp
  cases hl : t.lastSegments.find? s.lane with
  | none =>
    simp only [hl] at hp
    split_ifs at hp
    · cases ht : d.startTime s (t.reference s) with
      | error te => simp [ht, bind, Except.bind] at hp
      | ok st =>
        simp only [ht, bind, Except.bind, Except.ok.injEq, Option.some.injEq] at hp
        subst hp
        exact ⟨.inl hl, rfl, rfl, rfl⟩
    · cases hp
      exact ⟨.inl hl, rfl, rfl, rfl⟩
  | some l =>
    simp only [hl, reduceCtorEq, and_false, ↓reduceIte, bind, Except.bind, hls] at hp
    split at hp
    · cases hp
    cases hpr : t.retained.find? s.key with
    | some pr =>
      simp only [hpr] at hp
      cases hp
      exact ⟨.inr (.inl ⟨pr, hpr, rfl⟩), rfl, rfl, rfl⟩
    | none =>
      simp only [hpr] at hp
      split_ifs at hp with hn
      · cases hp
        exact ⟨.inr (.inr ⟨l, hl, hn, rfl⟩), rfl, rfl, rfl⟩
      · cases hp

theorem commit_committed (di : Disk) (hls : s.hls = true) : Committed t di s (t.commit di s).2 := by
  rw [commit]
  split
  · exact .unchanged _
  · exact .unchanged _
  · next p hp =>
    obtain ⟨hf, hl, hn, hdu⟩ := follows_of_place hls hp
    unfold keep
    split
    · exact .unchanged _
    next bytes hb =>
    split
    · next hr =>
      obtain ⟨d, rfl⟩ := digest_leaves hr
      exact .unchanged _
    next hr =>
    obtain ⟨d, rfl⟩ := digest_leaves hr
    split
    · next hr =>
      obtain ⟨d, rfl⟩ := digest_leaves hr
      exact .unchanged _
    next hr =>
    obtain ⟨d, rfl⟩ := digest_leaves hr
    dsimp only
    split
    · exact .unchanged _
    split
    · exact .unchanged _
    · exact .kept d { p with bytes, digest := _, initDigest := _ } hl hn hdu hb hf

/-- A repeated segment keeps its duration, a path its size. -/
structure Told (duration : Lane → Int → Int) (size : Text → Int) (call : Disk × Segment) :
    Prop where
  hls : call.2.hls = true
  track : call.2.track ≠ []
  duration : call.2.duration = duration call.2.lane call.2.number
  size : ∀ path bytes, call.1.fileSize path = .ok bytes → bytes = size path

theorem step_keeps {s : Text → Int} {c : Disk × Segment} (ht : Told d s c) (hl : Lined d t)
    (hb : Booked s t.retained t) :
    Lined d (t.step c) ∧ Booked s (t.step c).retained (t.step c) := by
  have hc := t.commit_committed c.1 ht.hls
  rw [← step] at hc
  generalize t.step c = next at hc ⊢
  have hl (digests) : Lined d { t with digests } := ⟨hl.1, hl.2, hl.3, hl.4, hl.5⟩
  have hb (digests) : Booked s t.retained { t with digests } := ⟨hb.1, hb.2, hb.3, hb.4⟩
  cases hc with
  | unchanged digests => exact ⟨hl digests, hb digests⟩
  | kept digests g hla hn hdu hby hf =>
    have htr : g.track ≠ [] := by
      have : g.track = c.2.track := congrArg (fun l : Lane => (ofLex l).2) hla
      exact this ▸ ht.track
    constructor
    · apply (hl digests).remember htr
      · rw [hdu, ht.duration, hla, hn]
      · exact hf
    · apply Booked.remember (hb digests)
      · exact fun p hfi => ((hl digests).keyed _ _ _ hfi).1
      · exact ht.size _ _ hby

end Lines

open Runs in
/-- After any calls the numbers of a track are consecutive, each segment starts
where the one before it ends, `lastSegments` has the greatest number, and the
totals are those of the retained segments and of their distinct files. -/
theorem run_lines_segments (live : Bool) (duration : Lane → Int → Int) (size : Text → Int)
    (calls : List (Disk × Segment)) (htold : ∀ call ∈ calls, Told duration size call) :
    let timeline := run step { live } calls
    (∀ lane first last number, (timeline.held lane first).isSome →
      (timeline.held lane last).isSome → first ≤ number → number ≤ last →
      (timeline.held lane number).isSome) ∧
    (∀ lane number found next, timeline.held lane number = some found →
      timeline.held lane (number + 1) = some next → next.start = found.start + found.duration) ∧
    (∀ lane last, timeline.lastSegments.find? lane = some last ↔
      timeline.held lane last.number = some last ∧
        ∀ number, (timeline.held lane number).isSome → number ≤ last.number) ∧
    (∀ lane, timeline.coverage lane = covered timeline.retained lane) ∧
    timeline.retainedBytes = ∑ path ∈ paths timeline.retained, size path := by
  intro timeline
  obtain ⟨hlined, hbooked⟩ : Lined duration timeline ∧ Booked size timeline.retained timeline :=
    @run_invariant _ _ step (fun _ call => Told duration size call)
      (fun timeline => Lined duration timeline ∧ Booked size timeline.retained timeline)
      (fun timeline call hinv htold => step_keeps htold hinv.1 hinv.2)
      _ _ ⟨by constructor <;> simp [held], by constructor <;> simp [covered, paths, values, count]⟩
      (meets_of_forall htold)
  refine ⟨?_, hlined.chained, ?_, hbooked.coverage, hbooked.bytes⟩
  · intro lane first last number hfirst hlast hlow hhigh
    obtain ⟨found, hfound⟩ := Option.isSome_iff_exists.mp hfirst
    obtain ⟨other, hother⟩ := Option.isSome_iff_exists.mp hlast
    obtain ⟨greatest, hgreatest, hle⟩ := hlined.greatest lane last other hother
    exact Option.isSome_iff_exists.mpr
      (hlined.between lane first found greatest hfound hgreatest number hlow (hhigh.trans hle))
  · intro lane last
    constructor
    · intro hfind
      refine ⟨hlined.last lane last hfind, fun number hheld => ?_⟩
      obtain ⟨found, hfound⟩ := Option.isSome_iff_exists.mp hheld
      obtain ⟨greatest, hgreatest, hle⟩ := hlined.greatest lane number found hfound
      cases hfind.symm.trans hgreatest
      exact hle
    · rintro ⟨hheld, hle⟩
      obtain ⟨greatest, hgreatest, hge⟩ := hlined.greatest lane last.number last hheld
      have hlast := hlined.last lane greatest hgreatest
      have hnumber := hge.antisymm (hle greatest.number (by rw [hlast]; rfl))
      rw [hnumber, hlast] at hheld
      cases hheld
      exact hgreatest

/-- A file of nine bytes that is stored. -/
def wholeDisk : Disk :=
  { startTime := fun segment _ => .ok segment.start, fileSize := fun _ => .ok 9,
    hash := fun _ => .ok (Text.of "digest"), store := fun _ => .ok () }

/-- Two calls for a track, and the first once more. -/
def repeated (track : Text) : List (Disk × Segment) :=
  [1, 2, 1].map fun number =>
    (wholeDisk, { track, number, duration := 4, path := Text.of "media", hls := true })

theorem run_lines_segments_repeated :
    ∃ timeline, timeline = Runs.run step {} (repeated (Text.of "track-1")) ∧
      timeline.retained.values.length = 2 ∧
      timeline.retainedBytes = ∑ _path ∈ paths timeline.retained, 9 := by
  refine ⟨_, rfl, by decide +kernel, ?_⟩
  refine (run_lines_segments false (fun _ _ => 4) (fun _ => 9) _ fun call hcall => ?_).2.2.2.2
  simp only [repeated, List.map_cons, List.map_nil, List.mem_cons, List.not_mem_nil,
    or_false] at hcall
  rcases hcall with rfl | rfl | rfl
  all_goals exact ⟨rfl, by decide +kernel, rfl, fun _ bytes hread => (Except.ok.inj hread).symm⟩

/-- A last segment without a track reads as none, so an older one replaces it. -/
theorem run_lines_segments_untracked :
    let timeline := Runs.run step {} (repeated [])
    (timeline.lastSegments.find? (toLex (0, []))).map (·.number) = some 1 ∧
      (timeline.held (toLex (0, [])) 2).isSome := by
  decide +kernel

end Timeline

end Aria2Next.MediaJob
