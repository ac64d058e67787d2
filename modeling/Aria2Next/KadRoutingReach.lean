/-
What the routing table holds after any calls and restored snapshots.
-/
import Aria2Next.KadRouting

namespace Aria2Next

open List

open Packet (hashLength)

namespace KadRoutingBucket

variable {bucket b : KadRoutingBucket} {bucketSize bc : Nat} {contact c : KadContact}

theorem matching_eq (b : KadRoutingBucket) (c : KadContact) :
    b.matching c = ((findNode b.live c).map Cursor.item).or
      ((findNode b.replacements c).map Cursor.item) := by
  rw [matching, nodes, List.find?_append, Cursor.find?_eq, Cursor.find?_eq, findNode, findNode]

theorem sameContact_of_matching {first : KadRoutingNode} (hf : b.matching c = some first) :
    first ∈ b.nodes ∧ sameContact first.contact c = true :=
  ⟨mem_of_find?_eq_some hf,
    List.find?_some (p := fun n : KadRoutingNode => sameContact n.contact c) hf⟩

/-- One node stands for the contact afterwards: the one it was taken for, or a
new one.  The others are as they were, but for one that may be dropped. -/
theorem addNode_nodes (b : KadRoutingBucket) (bs : Nat) (contact : KadContact) (confirmed : Bool)
    (now : Int64) : ∃ n k, (addNode bs contact confirmed now b).nodes.Perm (n :: k) ∧
      ((∃ first, b.matching contact = some first ∧ b.nodes.Perm (first :: k) ∧
        n = updateNode first contact confirmed now) ∨
      (b.matching contact = none ∧ k.Sublist b.nodes ∧ n.contact = contact ∧
        n.confirmed = confirmed)) := by
  have hm := matching_eq b contact
  rw [addNode]
  cases hli : findNode b.live contact with
  | some l =>
    obtain ⟨hl, -, -⟩ := Cursor.find_eq_some hli
    refine ⟨_, l.erase ++ b.replacements, ?_, .inl ⟨l.item, by rw [hm, hli]; rfl, ?_, rfl⟩⟩
    · rw [nodes, append_assoc]
      exact perm_middle
    · rw [nodes, ← hl]
      exact l.list_perm.append_right _
  | none =>
    rw [hli, Option.map_none] at hm
    cases hs : findNode b.replacements contact with
    | some r =>
      obtain ⟨hl, -, -⟩ := Cursor.find_eq_some hs
      have hb : b.nodes.Perm (r.item :: (b.live ++ r.erase)) := by
        rw [nodes, ← hl]
        exact (r.list_perm.append_left _).trans perm_middle
      refine ⟨_, b.live ++ r.erase, ?_, .inl ⟨r.item, by rw [hm, hs]; rfl, hb, rfl⟩⟩
      dsimp only
      split_ifs
      · rw [nodes, append_assoc]
        exact perm_middle
      · exact ((r.set_perm _).append_left _).trans perm_middle
    | none =>
      rw [hs] at hm
      dsimp only
      split_ifs with hr
      · refine ⟨{ contact, confirmed, firstSeen := now, lastSeen := now }, b.nodes, ?_,
          .inr ⟨hm, List.Sublist.refl _, rfl, rfl⟩⟩
        rw [nodes, append_assoc]
        exact perm_middle
      · refine ⟨{ contact, confirmed, firstSeen := now, lastSeen := now },
          b.live ++ b.replacements.tail, ?_,
          .inr ⟨hm, (List.Sublist.refl _).append (tail_sublist _), rfl, rfl⟩⟩
        rw [nodes, ← append_assoc]
        exact perm_append_comm
      · refine ⟨{ contact, confirmed, firstSeen := now, lastSeen := now }, b.nodes, ?_,
          .inr ⟨hm, List.Sublist.refl _, rfl, rfl⟩⟩
        rw [nodes, ← append_assoc]
        exact perm_append_comm

/-- A failure drops a node or only counts; the contacts left are old ones. -/
theorem nodeFailed_nodes (b : KadRoutingBucket) (c : KadContact) :
    ((nodeFailed c b).nodes.map fun n => (n.contact, n.confirmed)).Subperm
      (b.nodes.map fun n => (n.contact, n.confirmed)) := by
  rw [nodeFailed]
  cases hli : findNode b.live c with
  | some l =>
    obtain ⟨hl, -, -⟩ := Cursor.find_eq_some hli
    have hb : b.nodes.Perm (l.item :: (l.erase ++ b.replacements)) := by
      rw [nodes, ← hl]
      exact l.list_perm.append_right _
    have hg : (l.erase ++ b.replacements).Subperm b.nodes :=
      ((sublist_cons_self _ _).subperm).trans hb.symm.subperm
    dsimp only
    by_cases hc : l.item.confirmed = true
    · rw [if_neg (not_not.mpr hc)]
      cases hs : b.replacements with
      | cons f re =>
        rw [hs] at hg
        refine Cursor.subperm_map _ (List.Subperm.trans (List.Perm.subperm ?_) hg)
        exact ((l.set_perm f).append_right re).trans perm_middle.symm
      | nil =>
        rw [hs] at hg hb
        split_ifs
        · exact Cursor.subperm_map _ hg
        · refine List.Perm.subperm (List.Perm.trans ?_ (hb.map _).symm)
          exact ((l.set_perm _).append_right []).map _
    · rw [if_pos hc]
      exact Cursor.subperm_map _ hg
  | none =>
    cases hs : findNode b.replacements c with
    | some r =>
      obtain ⟨hl, -, -⟩ := Cursor.find_eq_some hs
      refine Cursor.subperm_map _ (List.Sublist.subperm ?_)
      rw [nodes, nodes, ← hl]
      exact (List.Sublist.refl _).append ((List.Sublist.refl _).append (sublist_cons_self _ _))
    | none => exact List.Subperm.refl _

theorem place_nodes (b : KadRoutingBucket) (bs : Nat) (l : Int64) (li : Bool) (n : KadRoutingNode) :
    (place bs l li n b).nodes.Subperm (n :: b.nodes) := by
  rw [place]
  split_ifs
  · rw [nodes, append_assoc]
    exact perm_middle.subperm
  · rw [nodes, ← append_assoc]
    exact perm_append_comm.subperm
  · exact (sublist_cons_self _ _).subperm

theorem length_findNode {no : List KadRoutingNode} {cu : Cursor KadRoutingNode}
    (hf : findNode no c = some cu) :
    cu.erase.length + 1 = no.length ∧ ∀ n, (cu.set n).length = no.length := by
  obtain ⟨rfl, -, -⟩ := Cursor.find_eq_some hf
  exact ⟨cu.length_erase, cu.length_set⟩

/-- Neither list is longer than a bucket may be. -/
def Sized (bucketSize : Nat) (bucket : KadRoutingBucket) : Prop :=
  bucket.live.length ≤ bucketSize ∧ bucket.replacements.length ≤ bucketSize

theorem Sized.addNode (hs : b.Sized bc) (hp : 0 < bc) (c : KadContact) (ok : Bool) (now : Int64) :
    (addNode bc c ok now b).Sized bc := by
  unfold Sized KadRoutingBucket.addNode at *
  grind [length_findNode]

theorem Sized.nodeFailed (hs : b.Sized bc) (c : KadContact) : (nodeFailed c b).Sized bc := by
  unfold Sized KadRoutingBucket.nodeFailed at *
  grind [length_findNode]

theorem Sized.place (hs : b.Sized bc) (l : Int64) (li : Bool) (n : KadRoutingNode) :
    (place bc l li n b).Sized bc := by
  unfold Sized KadRoutingBucket.place at *
  grind

end KadRoutingBucket

namespace KadRoutingTable

variable {table t : KadRoutingTable} {contact c : KadContact}

/-- The nodes of the other buckets stay as they are. -/
theorem nodes_modifyBucket (t : KadRoutingTable) (id : Text) :
    ∃ o, t.nodes.Perm ((t.bucketOf id).nodes ++ o) ∧ ∀ c, (t.modifyBucket id c).nodes.Perm
        ((c (t.bucketOf id)).nodes ++ o) := by
  have hs : ∀ b, (t.buckets.toList.set (t.bucketIndex id) b).flatMap
      KadRoutingBucket.nodes = (t.buckets.toList.take (t.bucketIndex id)).flatMap
        KadRoutingBucket.nodes ++ (b.nodes ++ (t.buckets.toList.drop
          (t.bucketIndex id + 1)).flatMap KadRoutingBucket.nodes) := by
    intro b
    rw [set_eq_take_append_cons_drop, if_pos (by simp), flatMap_append, flatMap_cons]
  have hp : ∀ b, ((t.buckets.toList.set (t.bucketIndex id) b).flatMap
      KadRoutingBucket.nodes).Perm (b.nodes ++
        ((t.buckets.toList.take (t.bucketIndex id)).flatMap KadRoutingBucket.nodes ++
          (t.buckets.toList.drop (t.bucketIndex id + 1)).flatMap KadRoutingBucket.nodes)) := by
    intro b
    rw [hs, ← append_assoc, ← append_assoc]
    exact perm_append_comm.append_right _
  refine ⟨(t.buckets.toList.take (t.bucketIndex id)).flatMap KadRoutingBucket.nodes ++
    (t.buckets.toList.drop (t.bucketIndex id + 1)).flatMap KadRoutingBucket.nodes, ?_, fun c => ?_⟩
  · have hse := hp t.buckets[t.bucketIndex id]
    rwa [← Vector.toList_set (t.bucketIndex id).isLt, Fin.getElem_fin,
      Vector.set_getElem_self] at hse
  · exact hp _

variable {id : Text} {change : KadRoutingBucket → KadRoutingBucket} {n : KadRoutingNode}

/-- What holds of the nodes of every bucket, and of the changed one, holds
after the change. -/
theorem forall_modifyBucket {p : Fin bucketCount → KadRoutingBucket → Prop}
    (ha : ∀ i, p i t.buckets[i]) (hc : p (t.bucketIndex id) (change (t.bucketOf id)))
    (i : Fin bucketCount) : p i (t.modifyBucket id change).buckets[i] := by
  rw [modifyBucket, Fin.getElem_fin, Vector.getElem_set]
  split_ifs with hi
  · rw [← Fin.ext hi]
    exact hc
  · exact ha i

/-- Every list is as long as it may be, and every node stands in the bucket of
its id, which is not the table's own. -/
def Layout (table : KadRoutingTable) : Prop :=
  ∀ index : Fin bucketCount, table.buckets[index].Sized table.bucketSize ∧
    ∀ node ∈ table.buckets[index].nodes, table.bucketIndex node.contact.id = index ∧
      node.contact.id ≠ table.selfId ∧ validId node.contact.id

theorem mem_nodes : n ∈ t.nodes ↔ ∃ i : Fin bucketCount, n ∈ t.buckets[i].nodes := by
  simp only [nodes, mem_flatMap, Vector.mem_toList_iff, Vector.mem_iff_getElem]
  constructor
  · rintro ⟨_, ⟨i, hi, rfl⟩, hn⟩
    exact ⟨⟨i, hi⟩, hn⟩
  · rintro ⟨i, hn⟩
    exact ⟨_, ⟨i, i.isLt, rfl⟩, hn⟩

/-- A node is found where its id says. -/
theorem Layout.mem_bucket (hl : t.Layout) (hn : n ∈ t.nodes) :
    n ∈ (t.bucketOf n.contact.id).nodes := by
  obtain ⟨i, hi⟩ := mem_nodes.mp hn
  obtain ⟨rfl, -⟩ := (hl i).2 n hi
  exact hi

theorem Layout.modifyBucket (hl : t.Layout) (hs : ∀ b : KadRoutingBucket, b.Sized t.bucketSize →
      (change b).Sized t.bucketSize) (hn : ∀ n ∈ (change (t.bucketOf id)).nodes,
      (n.contact.id = id ∧ id ≠ t.selfId ∧ validId id) ∨
        ∃ old ∈ (t.bucketOf id).nodes, old.contact = n.contact) :
    (t.modifyBucket id change).Layout := by
  apply forall_modifyBucket (p := fun i b => b.Sized t.bucketSize ∧
    ∀ n ∈ b.nodes, t.bucketIndex n.contact.id = i ∧
      n.contact.id ≠ t.selfId ∧ validId n.contact.id) hl
  refine ⟨hs _ (hl _).1, fun n hno => ?_⟩
  rcases hn n hno with ⟨hi, hse⟩ | ⟨old, hold, hc⟩
  · rw [hi]
    exact ⟨rfl, hse⟩
  · rw [← hc]
    exact (hl _).2 old hold

end KadRoutingTable

/-- What tells a node: its id and its address. -/
def KadContact.triple (contact : KadContact) : Text × Text × UInt16 :=
  (contact.id, contact.host, contact.udpPort)

theorem triple_updateNode (n : KadRoutingNode) (c : KadContact) (ok : Bool) (now : Int64) :
    (updateNode n c ok now).contact.triple = c.triple := by
  rw [updateNode]
  split_ifs <;> rfl

theorem id_updateNode (n : KadRoutingNode) (c : KadContact) (ok : Bool) (now : Int64) :
    (updateNode n c ok now).contact.id = c.id := congrArg Prod.fst (triple_updateNode n c ok now)

theorem validId_of_valid {c : KadContact} (hv : validRoutingContact c = true) :
    validId c.id = true := by
  rw [validRoutingContact] at hv
  split_ifs at hv with hb
  exact not_not.mp fun hi => hb (.inl hi)

namespace KadRoutingTable

variable {table t next nx : KadRoutingTable} {contact c : KadContact}

variable {n : KadRoutingNode}

/-- The nodes after a contact came in. -/
theorem mem_addNode {ok : Bool} {now : Int64}
    (hno : n ∈ (KadRoutingBucket.addNode t.bucketSize c ok now (t.bucketOf c.id)).nodes) :
    n ∈ (t.bucketOf c.id).nodes ∨ (∃ first ∈ (t.bucketOf c.id).matching c,
      n = updateNode first c ok now) ∨ n.contact = c ∧ n.confirmed = ok := by
  obtain ⟨new, kept, hp, hc⟩ := (t.bucketOf c.id).addNode_nodes t.bucketSize c ok now
  rcases mem_cons.mp (hp.mem_iff.mp hno) with rfl | hk
  · rcases hc with ⟨first, hf, -, hn⟩ | ⟨-, -, hn⟩
    · exact .inr (.inl ⟨first, hf, hn⟩)
    · exact .inr (.inr hn)
  · rcases hc with ⟨first, -, hold, -⟩ | ⟨-, hs, -⟩
    · exact .inl (hold.mem_iff.mpr (mem_cons_of_mem _ hk))
    · exact .inl (hs.subset hk)

theorem Layout.addNode (hl : t.Layout) (c : KadContact) (confirmed : Bool) (now : Int64) :
    (t.addNode c confirmed now).Layout := by
  rw [KadRoutingTable.addNode]
  split_ifs with hsk
  · exact hl
  obtain ⟨hv, hse⟩ := not_or.mp hsk
  refine hl.modifyBucket (fun b hs => hs.addNode t.bucketSize_pos c confirmed now) ?_
  intro n hno
  have hn := And.intro hse (validId_of_valid (not_not.mp hv))
  rcases mem_addNode hno with hold | ⟨first, -, rfl⟩ | ⟨rfl, -⟩
  · exact .inr ⟨n, hold, rfl⟩
  · exact .inl ⟨id_updateNode .., hn⟩
  · exact .inl ⟨rfl, hn⟩

theorem Layout.nodeFailed (hl : t.Layout) (c : KadContact) : (t.nodeFailed c).Layout := by
  rw [KadRoutingTable.nodeFailed]
  split_ifs
  swap
  · exact hl
  refine hl.modifyBucket (fun b hs => hs.nodeFailed c) ?_
  intro n hn
  have hm := (KadRoutingBucket.nodeFailed_nodes _ c).subset (mem_map_of_mem hn)
  obtain ⟨old, hold, hsa⟩ := mem_map.mp hm
  exact .inr ⟨old, hold, congrArg Prod.fst hsa⟩

theorem Layout.place (hl : t.Layout) (l : Int64) (li : Bool) (hse : n.contact.id ≠ t.selfId) :
    (place l li t n).Layout := by
  rw [KadRoutingTable.place]
  split_ifs with hv
  swap
  · exact hl
  refine hl.modifyBucket (fun b hs => hs.place l li n) ?_
  intro other ho
  rcases mem_cons.mp ((KadRoutingBucket.place_nodes _ _ _ _ _).subset ho) with rfl | hold
  · exact .inl ⟨rfl, hse, hv⟩
  · exact .inr ⟨other, hold, rfl⟩

theorem place_nodes (l : Int64) (li : Bool) (t : KadRoutingTable) (n : KadRoutingNode) :
    (place l li t n).nodes.Subperm (n :: t.nodes) := by
  rw [place]
  split_ifs
  swap
  · exact List.Subperm.cons_self
  obtain ⟨o, hb, ha⟩ := t.nodes_modifyBucket n.contact.id
  have hp := (subperm_append_right o).mpr (KadRoutingBucket.place_nodes
    (t.bucketOf n.contact.id) t.bucketSize l li n)
  exact (ha _).subperm.trans (hp.trans (hb.symm.cons n).subperm)

theorem foldl_place_nodes (l : Int64) (lv : Bool) (li : List KadRoutingNode) (t : KadRoutingTable) :
    (li.foldl (place l lv) t).nodes.Subperm (li ++ t.nodes) := by
  induction li generalizing t with
  | nil => exact List.Subperm.refl _
  | cons n r ih =>
    refine (ih (place l lv t n)).trans ?_
    exact ((subperm_append_left r).mpr (place_nodes l lv t n)).trans perm_middle.subperm

theorem restoreBucket_nodes (t : KadRoutingTable) (s : KadRoutingBucket) :
    (t.restoreBucket s).nodes.Subperm (s.nodes ++ t.nodes) := by
  have hl := foldl_place_nodes s.lastActive true s.live t
  have hb := foldl_place_nodes s.lastActive false s.replacements
    (s.live.foldl (place s.lastActive true) t)
  refine hb.trans (((subperm_append_left s.replacements).mpr hl).trans (List.Perm.subperm ?_))
  rw [← append_assoc]
  exact perm_append_comm.append_right _

theorem foldl_restoreBucket_nodes (l : List KadRoutingBucket) (t : KadRoutingTable) :
    (l.foldl restoreBucket t).nodes.Subperm (l.flatMap KadRoutingBucket.nodes ++ t.nodes) := by
  induction l generalizing t with
  | nil => exact List.Subperm.refl _
  | cons s r ih =>
    refine (ih (t.restoreBucket s)).trans ?_
    refine ((subperm_append_left _).mpr (t.restoreBucket_nodes s)).trans (List.Perm.subperm ?_)
    rw [← append_assoc]
    exact perm_append_comm.append_right _

theorem place_selfId (l : Int64) (li : Bool) (t : KadRoutingTable) (n : KadRoutingNode) :
    (place l li t n).selfId = t.selfId := by
  rw [place]
  split_ifs <;> rfl

theorem Layout.foldl_place {ls : List KadRoutingNode} (hl : t.Layout) (l : Int64) (li : Bool)
    (hse : ∀ n ∈ ls, n.contact.id ≠ t.selfId) :
    (ls.foldl (.place l li) t).Layout ∧ (ls.foldl (.place l li) t).selfId = t.selfId := by
  refine List.foldlRecOn (motive := fun nx : KadRoutingTable =>
    nx.Layout ∧ nx.selfId = t.selfId) ls _ ⟨hl, rfl⟩ ?_
  rintro nx ⟨hn, hs⟩ n hno
  exact ⟨hn.place l li (by rw [hs]; exact hse n hno), (place_selfId l li nx n).trans hs⟩

theorem layout_of_empty (he : t.buckets = Vector.replicate bucketCount {}) :
    t.Layout ∧ t.nodes = [] := by
  have hb : ∀ i : Fin bucketCount, t.buckets[i] = {} := by
    intro i
    rw [he]
    exact Vector.getElem_replicate _
  constructor
  · intro i
    rw [hb]
    exact ⟨⟨Nat.zero_le _, Nat.zero_le _⟩, fun n hn => absurd hn not_mem_nil⟩
  · apply eq_nil_iff_forall_not_mem.mpr
    intro n hn
    obtain ⟨i, hi⟩ := mem_nodes.mp hn
    rw [hb] at hi
    exact absurd hi not_mem_nil

theorem layout_of_create {s : Text} {b : Nat} (hc : create s b = .ok t) :
    t.Layout ∧ t.nodes = [] := by
  rw [create] at hc
  split at hc
  · exact layout_of_empty (by rw [← Except.ok.inj hc])
  · cases hc

theorem Layout.restore {s : KadRoutingSnapshot} (hr : t.restore s = .ok nx)
    (hse : ∀ n ∈ s.buckets.flatMap KadRoutingBucket.nodes, n.contact.id ≠ t.selfId) :
    nx.Layout ∧ nx.nodes.Subperm (s.buckets.flatMap KadRoutingBucket.nodes) := by
  rw [KadRoutingTable.restore] at hr
  split_ifs at hr
  cases hr
  generalize he : ({ t with
    routerNodes := s.routerNodes, routerContacts := s.routerContacts
    lastBootstrap := s.lastBootstrap, lastRefresh := s.lastRefresh
    lastSelfRefresh := s.lastSelfRefresh
    buckets := Vector.replicate bucketCount {} } : KadRoutingTable) = e
  have ho : e.selfId = t.selfId := by rw [← he]
  obtain ⟨hl, hno⟩ : e.Layout ∧ e.nodes = [] := layout_of_empty (by rw [← he])
  constructor
  · refine (List.foldlRecOn (motive := fun nx : KadRoutingTable =>
      nx.Layout ∧ nx.selfId = t.selfId) s.buckets _ ⟨hl, ho⟩ ?_).1
    rintro l ⟨hla, hs⟩ sa hsa
    have hi : ∀ n ∈ sa.nodes, n.contact.id ≠ l.selfId := by
      intro n hn
      rw [hs]
      exact hse n (mem_flatMap.mpr ⟨sa, hsa, hn⟩)
    obtain ⟨hli, hk⟩ := hla.foldl_place sa.lastActive true fun n hn => hi n (mem_append_left _ hn)
    obtain ⟨hb, hen⟩ := hli.foldl_place sa.lastActive false
      fun n hn => by rw [hk]; exact hi n (mem_append_right _ hn)
    exact ⟨hb, hen.trans (hk.trans hs)⟩
  · have hsu := foldl_restoreBucket_nodes s.buckets e
    rwa [hno, append_nil] at hsu

/-- What the router nodes do not touch. -/
def core (table : KadRoutingTable) :=
  (table.selfId, table.bucketSize, table.buckets)

theorem core_addRouterEndpoint (t : KadRoutingTable) (e : Endpoint) :
    (t.addRouterEndpoint e).core = t.core := by
  rw [addRouterEndpoint]
  split_ifs <;> rfl

theorem core_addRouterContact (t : KadRoutingTable) (c : KadContact) :
    (t.addRouterContact c).core = t.core := by
  have hc := core_addRouterEndpoint t { host := c.host, port := c.udpPort }
  rw [addRouterContact]
  split_ifs
  · dsimp only
    split
    · exact hc
    · exact hc
  · rfl

theorem nodes_of_core (hc : nx.core = t.core) : nx.nodes = t.nodes := by
  simp only [core, Prod.mk.injEq] at hc
  rw [nodes, hc.2.2, nodes]

theorem layout_of_core (hl : t.Layout) (hc : nx.core = t.core) : nx.Layout := by
  simp only [core, Prod.mk.injEq] at hc
  intro i
  have hi := hl i
  simp only [bucketIndex, ← hc.1, ← hc.2.1, ← hc.2.2] at hi
  exact hi

/-- The contact is taken for a node of another id, while its own id stands in
the table as well. -/
def Clash (table : KadRoutingTable) : KadRoutingCall → Prop
  | .heardAbout contact _ | .nodeSeen contact _ =>
      validRoutingContact contact ∧
      ∃ first ∈ (table.bucketOf contact.id).matching contact,
        first.contact.id ≠ contact.id ∧ contact.id ∈ table.nodes.map (·.contact.id)
  | _ => False

instance (table : KadRoutingTable) : DecidablePred table.Clash := fun call => by
  unfold Clash
  split <;> infer_instance

theorem nodup_addNode (hl : t.Layout) (hn : (t.nodes.map (·.contact.id)).Nodup) (ok : Bool)
    (now : Int64) (hcal : ¬ t.Clash (.nodeSeen c now)) :
    ((t.addNode c ok now).nodes.map (·.contact.id)).Nodup := by
  rw [addNode]
  split_ifs with hsk
  · exact hn
  obtain ⟨hv, -⟩ := not_or.mp hsk
  obtain ⟨o, hb, ha⟩ := t.nodes_modifyBucket c.id
  obtain ⟨n, kept, hp, hca⟩ := (t.bucketOf c.id).addNode_nodes t.bucketSize c ok now
  have hi := (((ha _).trans (hp.append_right o)).map (·.contact.id)).nodup_iff
  rw [hi, cons_append, map_cons, nodup_cons]
  have hold := (hb.map (·.contact.id)).nodup_iff.mp hn
  rcases hca with ⟨first, hf, hsp, rfl⟩ | ⟨hno, hsu, hc, -⟩
  · have hal := hb.trans (hsp.append_right o)
    rw [((hal.map (·.contact.id))).nodup_iff, cons_append, map_cons, nodup_cons] at hn
    refine ⟨?_, hn.2⟩
    rw [id_updateNode]
    intro hm
    apply hcal
    refine ⟨not_not.mp hv, first, hf, fun hs => hn.1 (hs ▸ hm), ?_⟩
    exact (hal.map (·.contact.id)).mem_iff.mpr (mem_cons_of_mem _ hm)
  · constructor
    · rw [hc]
      intro hm
      obtain ⟨old, hm, hs⟩ := mem_map.mp hm
      have hst := hl.mem_bucket (hb.mem_iff.mpr ((hsu.append_right o).subset hm))
      rw [hs] at hst
      have hle : c.id ≠ [] := by
        intro he
        simp [validRoutingContact, validId, he, hashLength] at hv
      have ho := List.find?_eq_none.mp hno old hst
      simp [sameContact, hs, hle] at ho
    · exact hold.sublist ((hsu.append_right o).map _)

theorem nodup_nodeFailed (hn : (t.nodes.map (·.contact.id)).Nodup) (c : KadContact) :
    ((t.nodeFailed c).nodes.map (·.contact.id)).Nodup := by
  rw [nodeFailed]
  split_ifs
  swap
  · exact hn
  obtain ⟨o, hb, ha⟩ := t.nodes_modifyBucket c.id
  have hf := Cursor.subperm_map (fun p : KadContact × Bool => p.1.id)
    ((t.bucketOf c.id).nodeFailed_nodes c)
  rw [map_map, map_map] at hf
  rw [((ha _).map (·.contact.id)).nodup_iff, map_append]
  rw [(hb.map (·.contact.id)).nodup_iff, map_append] at hn
  exact Cursor.nodup_of_subperm ((subperm_append_right _).mpr hf) hn

/-- An id that stands in the eighth bucket of the table below. -/
def farId (last : UInt8) : Text := 0x80 :: (List.replicate 14 0 ++ [last])

def farContact (last : UInt8) (port : UInt16) : KadContact :=
  { id := farId last, host := Text.of "10.0.0.1", udpPort := port, version := 8 }

def ownTable : KadRoutingTable :=
  { selfId := List.replicate 16 0, bucketSize := 2, validSelf := by decide
    bucketSize_pos := by decide }

theorem ownTable_created : create (List.replicate 16 0) 2 = .ok ownTable := by decide +kernel

/-- The tables that calls and restored snapshots lead to; `admits` says which
calls are made. -/
inductive Reachable (admits : KadRoutingTable → KadRoutingCall → Prop) : KadRoutingTable → Prop
  | create {selfId : Text} {bucketSize : Nat} {table : KadRoutingTable}
      (hcreate : create selfId bucketSize = .ok table) : Reachable admits table
  | call {table : KadRoutingTable} {call : KadRoutingCall} (htable : Reachable admits table)
      (hcall : admits table call) : Reachable admits (table.step call)
  | restore {table other next : KadRoutingTable} (htable : Reachable admits table)
      (hother : Reachable admits other)
      (hown : other.selfId = table.selfId ∨
        ∀ node ∈ other.nodes, node.contact.id ≠ table.selfId)
      (hrestore : table.restore other.snapshot = .ok next) : Reachable admits next

theorem Layout.foreign (hl : t.Layout) (o : KadRoutingTable)
    (ho : t.selfId = o.selfId ∨ ∀ n ∈ t.nodes, n.contact.id ≠ o.selfId) :
    ∀ n ∈ t.nodes, n.contact.id ≠ o.selfId := by
  rcases ho with hs | hse
  · intro n hn
    obtain ⟨i, hi⟩ := mem_nodes.mp hn
    exact hs ▸ ((hl i).2 n hi).2.1
  · exact hse

theorem Layout.step (hl : t.Layout) (ca : KadRoutingCall) : (t.step ca).Layout := by
  cases ca with
  | heardAbout c now => exact hl.addNode c false now
  | nodeSeen c now => exact hl.addNode c true now
  | nodeFailed c => exact hl.nodeFailed c
  | addRouterEndpoint e => exact layout_of_core hl (core_addRouterEndpoint _ _)
  | addRouterContact c => exact layout_of_core hl (core_addRouterContact _ _)

theorem Reachable.layout {a : KadRoutingTable → KadRoutingCall → Prop} (hre : Reachable a t) :
    t.Layout := by
  induction hre with
  | create hc => exact (layout_of_create hc).1
  | call _ _ ih => exact ih.step _
  | restore _ _ ho hr _ ih => exact (Layout.restore hr (ih.foreign _ ho)).1

/-- Lists and places are right in every reachable table, and no id stands in
it twice unless a contact was taken for a node of another id. -/
theorem reachable_table (admits : KadRoutingTable → KadRoutingCall → Prop)
    (table : KadRoutingTable) (hreach : Reachable admits table) :
    (∀ index : Fin bucketCount, table.buckets[index].live.length ≤ table.bucketSize ∧
      table.buckets[index].replacements.length ≤ table.bucketSize ∧
      ∀ node ∈ table.buckets[index].live ++ table.buckets[index].replacements,
        table.bucketIndex node.contact.id = index ∧ node.contact.id ≠ table.selfId) ∧
    ((∀ table call, admits table call → ¬ Clash table call) →
      (table.nodes.map (·.contact.id)).Nodup) := by
  constructor
  · intro index
    obtain ⟨⟨hlive, hspare⟩, hnodes⟩ := hreach.layout index
    exact ⟨hlive, hspare, fun node hnode => ⟨(hnodes node hnode).1, (hnodes node hnode).2.1⟩⟩
  intro hcalm
  induction hreach with
  | create hcreate =>
    rw [(layout_of_create hcreate).2]
    exact nodup_nil
  | @call table call htable hcall ih =>
    have hfree := hcalm table call hcall
    cases call with
    | heardAbout contact now => exact nodup_addNode htable.layout ih false now hfree
    | nodeSeen contact now => exact nodup_addNode htable.layout ih true now hfree
    | nodeFailed contact => exact nodup_nodeFailed ih contact
    | addRouterEndpoint endpoint => exact nodes_of_core (core_addRouterEndpoint table endpoint) ▸ ih
    | addRouterContact contact => exact nodes_of_core (core_addRouterContact table contact) ▸ ih
  | restore _ hother hown hrestore _ ih =>
    have hsub := (Layout.restore hrestore (hother.layout.foreign _ hown)).2
    exact Cursor.nodup_of_subperm (Cursor.subperm_map _ hsub) ih

theorem reachable_table_two :
    let table := Runs.run step ownTable
      [.heardAbout (farContact 1 4000) 5, .nodeSeen (farContact 2 4001) 6]
    table.nodes.map (·.contact.id) = [farId 1, farId 2] ∧
      (table.nodes.map (·.contact.id)).Nodup := by
  have hreach : Reachable (fun table call => ¬ Clash table call)
      ((ownTable.step (.heardAbout (farContact 1 4000) 5)).step
        (.nodeSeen (farContact 2 4001) 6)) :=
    .call (.call (.create ownTable_created) (by decide +kernel)) (by decide +kernel)
  exact ⟨by decide +kernel, (reachable_table _ _ hreach).2 fun _ _ => id⟩

/-- The third contact has the id of the second node and the address of the
first, and is taken for the first. -/
theorem reachable_table_twice :
    let table := Runs.run step ownTable [.heardAbout (farContact 1 4000) 5,
      .heardAbout (farContact 2 4001) 6, .heardAbout (farContact 2 4000) 7]
    table.nodes.map (·.contact.id) = [farId 2, farId 2] := by
  decide +kernel

/-- A report about a node that has answered, under another id or address. -/
def Impostor (table : KadRoutingTable) : KadRoutingCall → Prop
  | .heardAbout contact _ => validRoutingContact contact ∧ contact.id ≠ table.selfId ∧
      ∃ first ∈ (table.bucketOf contact.id).matching contact,
        first.confirmed ∧ first.contact.triple ≠ contact.triple
  | _ => False

instance (table : KadRoutingTable) : DecidablePred table.Impostor := fun call => by
  unfold Impostor
  split <;> infer_instance

/-- Every confirmed node is one of those that answered. -/
def Attested (answered : Text × Text × UInt16 → Prop) (table : KadRoutingTable) : Prop :=
  ∀ node ∈ table.nodes, node.confirmed → answered node.contact.triple

section

variable {a : Text × Text × UInt16 → Prop}

theorem Attested.modifyBucket (ha : Attested a t) {id : Text}
    {c : KadRoutingBucket → KadRoutingBucket} (hch : ∀ n ∈ (c (t.bucketOf id)).nodes, n.confirmed →
      (∃ old ∈ (t.bucketOf id).nodes, old.confirmed ∧ old.contact = n.contact) ∨
        a n.contact.triple) : Attested a (t.modifyBucket id c) := by
  obtain ⟨others, hb, haf⟩ := t.nodes_modifyBucket id
  intro n hn hc
  rcases mem_append.mp ((haf c).mem_iff.mp hn) with hn | hn
  · rcases hch n hn hc with ⟨old, hold, hb', hco⟩ | han
    · rw [← hco]
      exact ha old (hb.mem_iff.mpr (mem_append_left _ hold)) hb'
    · exact han
  · exact ha n (hb.mem_iff.mpr (mem_append_right _ hn)) hc

theorem Attested.addNode (ha : Attested a t) {ok : Bool} {now : Int64}
    (hse : ok = true → a c.triple) (hh : ok = false → ¬ t.Impostor (.heardAbout c now)) :
    Attested a (t.addNode c ok now) := by
  rw [KadRoutingTable.addNode]
  split_ifs with hs
  · exact ha
  refine ha.modifyBucket fun n hn hc => ?_
  rcases mem_addNode hn with hold | ⟨first, hf, rfl⟩ | ⟨rfl, rfl⟩
  · exact .inl ⟨n, hold, hc, rfl⟩
  · right
    rw [triple_updateNode]
    cases ok with
    | true => exact hse rfl
    | false =>
      -- The flag was set before, so the report is about the node as it answered.
      have hb : first.confirmed = true := hc
      obtain ⟨o, hp, -⟩ := t.nodes_modifyBucket c.id
      have hm := hp.mem_iff.mpr (mem_append_left o
        (KadRoutingBucket.sameContact_of_matching hf).1)
      by_contra hne
      rw [not_or, not_not] at hs
      refine hh rfl ⟨hs.1, hs.2, first, hf, hb, fun hsa => hne ?_⟩
      rw [← hsa]
      exact ha first hm hb
  · exact .inr (hse hc)

theorem Attested.step (ha : Attested a t) {ca : KadRoutingCall} (hh : ¬ t.Impostor ca)
    (hse : ∀ c now, ca = .nodeSeen c now → a c.triple) : Attested a (t.step ca) := by
  cases ca with
  | heardAbout c now => exact ha.addNode (by simp) fun _ => hh
  | nodeSeen c now => exact ha.addNode (fun _ => hse c now rfl) (by simp)
  | nodeFailed c =>
    rw [KadRoutingTable.step, KadRoutingTable.nodeFailed]
    split_ifs
    swap
    · exact ha
    refine ha.modifyBucket fun n hn hc => .inl ?_
    have hm := (KadRoutingBucket.nodeFailed_nodes _ c).subset (mem_map_of_mem hn)
    obtain ⟨old, hold, hs⟩ := mem_map.mp hm
    rw [Prod.mk.injEq] at hs
    exact ⟨old, hold, hs.2.trans hc, hs.1⟩
  | addRouterEndpoint e =>
    intro n hn
    rw [KadRoutingTable.step, nodes_of_core (core_addRouterEndpoint t e)] at hn
    exact ha n hn
  | addRouterContact c =>
    intro n hn
    rw [KadRoutingTable.step, nodes_of_core (core_addRouterContact t c)] at hn
    exact ha n hn

end

/-- `findClosest` without unconfirmed nodes hands out confirmed ones. -/
theorem findClosest_confirmed {ta : Text} {l : Nat} {cs : List KadContact}
    (hfi : t.findClosest ta l false = .ok cs) :
    ∀ c ∈ cs, ∃ n ∈ t.nodes, n.confirmed ∧ n.contact = c := by
  rw [findClosest, findClosestExcluding] at hfi
  split_ifs at hfi with hba
  cases hfi
  intro c hc
  obtain ⟨n, hn, rfl⟩ := mem_map.mp hc
  replace hn : n ∈ t.buckets.toList.flatMap fun b =>
      b.live.filter fun n => (false || n.confirmed) && n.contact.id != [] := by
    split_ifs at hn
    · exact (mem_insertionSort _).mp (mem_of_mem_take hn)
    · exact (mem_insertionSort _).mp hn
  obtain ⟨b, hb, hf⟩ := mem_flatMap.mp hn
  simp only [Bool.false_or, mem_filter, Bool.and_eq_true] at hf
  exact ⟨n, mem_flatMap.mpr ⟨b, hb, mem_append_left _ hf.1⟩, hf.2.1, rfl⟩

/-- As long as no report is taken for a node that answered under another id or
address, a contact handed out as confirmed is one that answered. -/
theorem findClosest_answered {selfId : Text} {bucketSize : Nat}
    (hcreate : create selfId bucketSize = .ok table) (calls : List KadRoutingCall)
    (hhonest : Runs.Meets step (fun table call => ¬ Impostor table call) table calls)
    {target : Text} {limit : Nat} {contacts : List KadContact}
    (hfind : (Runs.run step table calls).findClosest target limit false = .ok contacts) :
    ∀ contact ∈ contacts, ∃ seen now, .nodeSeen seen now ∈ calls ∧
      seen.id = contact.id ∧ seen.host = contact.host ∧ seen.udpPort = contact.udpPort := by
  let answered (triple : Text × Text × UInt16) : Prop :=
    ∃ seen now, .nodeSeen seen now ∈ calls ∧ seen.triple = triple
  have hrun : ∀ rest table, rest ⊆ calls → Attested answered table →
      Runs.Meets step (fun table call => ¬ Impostor table call) table rest →
      Attested answered (Runs.run step table rest) := by
    intro rest
    induction rest with
    | nil => exact fun _ _ hattested _ => hattested
    | cons call rest ih =>
      intro table hsub hattested hmeets
      rw [cons_subset] at hsub
      refine ih _ hsub.2 (hattested.step hmeets.1 ?_) hmeets.2
      rintro contact now rfl
      exact ⟨contact, now, hsub.1, rfl⟩
  have hempty : Attested answered table := by
    intro node hnode
    rw [(layout_of_create hcreate).2] at hnode
    cases hnode
  intro contact hcontact
  obtain ⟨node, hnode, hconfirmed, rfl⟩ := findClosest_confirmed hfind contact hcontact
  obtain ⟨seen, now, hseen, htriple⟩ :=
    hrun calls table (List.Subset.refl _) hempty hhonest node hnode hconfirmed
  simp only [KadContact.triple, Prod.mk.injEq] at htriple
  exact ⟨seen, now, hseen, htriple⟩

theorem findClosest_answered_one : let calls : List KadRoutingCall :=
      [.nodeSeen (farContact 1 4000) 5, .heardAbout (farContact 1 4000) 6,
        .heardAbout (farContact 2 4001) 6]
    ∃ contacts, (Runs.run step ownTable calls).findClosest (farId 3) 8 false = .ok contacts ∧
      contacts = [farContact 1 4000] ∧
      ∀ contact ∈ contacts, ∃ seen now, .nodeSeen seen now ∈ calls ∧
        seen.id = contact.id ∧ seen.host = contact.host ∧ seen.udpPort = contact.udpPort := by
  intro calls
  have hfind : (Runs.run step ownTable calls).findClosest (farId 3) 8 false =
      .ok [farContact 1 4000] := by decide +kernel
  exact ⟨_, hfind, rfl, findClosest_answered ownTable_created calls (by decide +kernel) hfind⟩

/-- A report under the id of a node that answered takes its place, flag and
all. -/
theorem findClosest_unanswered : let calls : List KadRoutingCall :=
      [.nodeSeen (farContact 1 4000) 5, .heardAbout (farContact 1 4001) 6]
    (Runs.run step ownTable calls).findClosest (farId 3) 8 false = .ok [farContact 1 4001] := by
  decide +kernel

end KadRoutingTable

end Aria2Next

/-!
`createKadRoutingStatePayload` and `parseKadRoutingStatePayload`: a routing
table is saved and restored.  What a node is saved with does not include its
UDP key, and a router node is saved by its address alone.
-/

namespace Aria2Next

/-- The type of `buckets_`. -/
abbrev KadRoutingTable.Buckets := Vector KadRoutingBucket bucketCount

open Packet Reader List

namespace KadState

def magic : Text := Text.of "A2ED2KKAD"

def stateVersion : UInt32 := 6

def appendByte (value : UInt8) : Except Text Text := .ok [value]

def appendBool (value : Bool) : Except Text Text := appendByte (if value then 1 else 0)

def appendInt64 (value : Int64) : Except Text Text := .ok (packUInt64 value.toUInt64)

def readInt64 : Reader UInt8 Int64 := do
  let value ← uint64
  pure value.toInt64

def readBool : Reader UInt8 Bool := do
  let value ← readByte
  pure (value != 0)

def appendString (value : Text) : Except Text Text :=
  if value.length > 65535 then
    .error (Text.of "ED2K Kad routing state string is too large.")
  else .ok (packUInt16 (UInt16.ofNat value.length) ++ value)

def readString : Reader UInt8 Text := do
  let size ← uint16
  readBytes size.toNat

/-- The bytes of an id; `validateHashLength` comes first. -/
def appendId (id : Text) : Except Text Text :=
  if id.length ≠ hashLength then .error (Text.of "Bad ED2K hash length.") else .ok id

def appendEndpoint (endpoint : Endpoint) : Except Text Text :=
  concat [appendString endpoint.host, .ok (packUInt16 endpoint.port)]

def readStateEndpoint : Reader UInt8 Endpoint := do
  let host ← readString
  let port ← uint16
  pure { host, port }

def appendKadContact (contact : KadContact) : Except Text Text :=
  concat [appendId contact.id, appendString contact.host, .ok (packUInt16 contact.udpPort),
    .ok (packUInt16 contact.tcpPort), appendByte contact.version,
    .ok (packUInt32 contact.udpKey)]

/-- A router contact; its key is there from version 5 on. -/
def readStateKadContact (version : UInt32) : Reader UInt8 KadContact := do
  let id ← readBytes hashLength
  let host ← readString
  let udpPort ← uint16
  let tcpPort ← uint16
  let contactVersion ← readByte
  let udpKey ← if version ≥ 5 then uint32 else pure 0
  pure { id, host, udpPort, tcpPort, version := contactVersion, udpKey }

def appendKadRoutingNode (node : KadRoutingNode) : Except Text Text :=
  concat [appendId node.contact.id, appendString node.contact.host,
    .ok (packUInt16 node.contact.udpPort), .ok (packUInt16 node.contact.tcpPort),
    appendByte node.contact.version, appendBool node.confirmed, appendBool node.seed,
    .ok (packUInt32 node.failCount), appendInt64 node.firstSeen, appendInt64 node.lastSeen]

def readKadRoutingNode : Reader UInt8 KadRoutingNode := do
  let id ← readBytes hashLength
  let host ← readString
  let udpPort ← uint16
  let tcpPort ← uint16
  let version ← readByte
  let confirmed ← readBool
  let seed ← readBool
  let failCount ← uint32
  let firstSeen ← readInt64
  let lastSeen ← readInt64
  pure { contact := { id, host, udpPort, tcpPort, version }
         confirmed, seed, failCount, firstSeen, lastSeen }

def appendKadRoutingNodes (nodes : List KadRoutingNode) : Except Text Text :=
  if nodes.length > 4294967295 then
    .error (Text.of "ED2K Kad routing state has too many nodes.")
  else concat [.ok (packUInt32 (UInt32.ofNat nodes.length)),
    concat (nodes.map appendKadRoutingNode)]

def readKadRoutingNodes : Reader UInt8 (List KadRoutingNode) := do
  let count ← uint32
  times readKadRoutingNode count.toNat

def appendBucket (bucket : KadRoutingBucket) : Except Text Text :=
  concat [appendInt64 bucket.lastActive, appendKadRoutingNodes bucket.live,
    appendKadRoutingNodes bucket.replacements]

def readBucket : Reader UInt8 KadRoutingBucket := do
  let lastActive ← readInt64
  let live ← readKadRoutingNodes
  let replacements ← readKadRoutingNodes
  pure { live, replacements, lastActive }

/-- A list with its length in front, in two bytes. -/
def appendList {α : Type} (append : α → Except Text Text) (items : List α) : Except Text Text :=
  concat [.ok (packUInt16 (UInt16.ofNat items.length)), concat (items.map append)]

def readList {α : Type} (read : Reader UInt8 α) : Reader UInt8 (List α) := do
  let count ← uint16
  times read count.toNat

def createKadRoutingStatePayload (snapshot : KadRoutingSnapshot) : Except Text Text :=
  if snapshot.selfId.length ≠ hashLength then .error (Text.of "Bad ED2K hash length.")
  else if snapshot.buckets.length > 65535 ∨ snapshot.routerNodes.length > 65535 ∨
      snapshot.routerContacts.length > 65535 ∨ snapshot.observedAddresses.length > 65535 then
    .error (Text.of "ED2K Kad routing state is too large.")
  else concat [.ok magic, .ok (packUInt32 stateVersion), .ok snapshot.selfId,
    appendInt64 snapshot.lastBootstrap, appendInt64 snapshot.lastRefresh,
    appendInt64 snapshot.lastSelfRefresh, appendInt64 snapshot.lastFirewalledCheck,
    appendInt64 snapshot.lastSourcePublish, appendInt64 snapshot.lastSourceSearch,
    .ok (packUInt32 snapshot.sourceSearchCount), .ok (packUInt32 snapshot.udpVerifyKey),
    appendBool snapshot.firewalled, appendList appendString snapshot.observedAddresses,
    appendList appendEndpoint snapshot.routerNodes,
    appendList appendKadContact snapshot.routerContacts, appendList appendBucket snapshot.buckets]

/-- A field of a version that may not have it yet. -/
def since {α : Type} (present : Prop) [Decidable present] (read : Reader UInt8 α) (default : α) :
    Reader UInt8 α :=
  if present then read else pure default

/-- The version of a state that can be read. -/
def readHeader : Reader UInt8 UInt32 := do
  let start ← readBytes magic.length
  let version ← uint32
  if start ≠ magic ∨ (version ≠ 1 ∧ (version < 3 ∨ version > stateVersion)) then failure
  else pure version

def readState : Reader UInt8 KadRoutingSnapshot := do
  let version ← readHeader
  let selfId ← readBytes hashLength
  let lastBootstrap ← readInt64
  let lastRefresh ← readInt64
  let lastSelfRefresh ← readInt64
  let lastFirewalledCheck ← since (version ≥ 2) readInt64 0
  let lastSourcePublish ← since (version ≥ 2) readInt64 0
  let lastSourceSearch ← since (version ≥ 3) readInt64 0
  let sourceSearchCount ← since (version ≥ 3) uint32 0
  let udpVerifyKey ← since (version ≥ 6) uint32 0
  let firewalled ← since (version ≥ 2) readBool true
  let observedAddresses ← since (version ≥ 2) (readList readString) []
  let routerNodes ← readList readStateEndpoint
  let routerContacts ← since (version ≥ 4) (readList (readStateKadContact version)) []
  let buckets ← readList readBucket
  pure { selfId, buckets, routerNodes, routerContacts, lastBootstrap, lastRefresh,
         lastSelfRefresh, lastFirewalledCheck, lastSourcePublish, lastSourceSearch,
         sourceSearchCount, udpVerifyKey, firewalled, observedAddresses }

/-- The snapshot, or nothing where the source answers false. -/
def parseKadRoutingStatePayload (payload : Text) : Option KadRoutingSnapshot :=
  whole readState payload

section RoundTrip

theorem wrote_int64 (v : Int64) : Wrote (appendInt64 v) readInt64 v := by
  have hr := (reads_uint64 v.toUInt64).bind (f := fun v => pure v.toInt64) (reads_pure _)
  exact hr.wrote

theorem wrote_bool (v : Bool) : Wrote (appendBool v) readBool v := by
  have hr (b : UInt8) : Reads readBool [b] (b != 0) :=
    (reads_next b).bind (reads_pure _)
  cases v <;> exact (hr _).wrote

theorem wrote_string {v : Text} (hv : v.length ≤ 65535) : Wrote (appendString v) readString v := by
  have hs : (UInt16.ofNat v.length).toNat = v.length :=
    UInt16.toNat_ofNat_of_lt' (Nat.lt_succ_of_le hv)
  rw [appendString, if_neg (by omega)]
  refine Reads.wrote ((reads_uint16 _).bind ?_)
  rw [hs]
  exact reads_readBytes v rfl

theorem wrote_id {id : Text} (hi : id.length = hashLength) :
    Wrote (appendId id) (readBytes hashLength) id := by
  rw [appendId, if_neg (not_not.mpr hi)]
  exact (reads_readBytes id hi).wrote

theorem wrote_list {α : Type} {a : α → Except Text Text} {r : Reader UInt8 α} {b : α → α}
    {i : List α} (hl : i.length ≤ 65535) (hi : ∀ it ∈ i, Wrote (a it) r (b it)) :
    Wrote (appendList a i) (readList r) (i.map b) := by
  have hs : (UInt16.ofNat i.length).toNat = i.length :=
    UInt16.toNat_ofNat_of_lt' (Nat.lt_succ_of_le hl)
  refine (reads_uint16 _).wrote.cons ?_
  rw [hs]
  exact wrote_one (wrote_times i hi)

/-- What is saved of a node. -/
def dropKey (node : KadRoutingNode) : KadRoutingNode :=
  { node with contact := { node.contact with udpKey := 0 } }

/-- What is saved of a router node. -/
def plain (endpoint : Endpoint) : Endpoint := { host := endpoint.host, port := endpoint.port }

def dropKeys (bucket : KadRoutingBucket) : KadRoutingBucket :=
  { bucket with
    live := bucket.live.map dropKey, replacements := bucket.replacements.map dropKey }

theorem wrote_endpoint {e : Endpoint} (hh : e.host.length ≤ 65535) :
    Wrote (appendEndpoint e) readStateEndpoint (plain e) :=
  (wrote_string hh).cons ((reads_uint16 _).wrote.cons (wrote_nil _))

theorem wrote_contact {c : KadContact} (hi : c.id.length = hashLength)
    (hh : c.host.length ≤ 65535) :
    Wrote (appendKadContact c) (readStateKadContact stateVersion) c :=
  (wrote_id hi).cons ((wrote_string hh).cons ((reads_uint16 _).wrote.cons
    ((reads_uint16 _).wrote.cons ((reads_next _).wrote.cons
      ((reads_uint32 _).wrote.cons (wrote_nil _))))))

/-- A node that can be written. -/
def Fits (contact : KadContact) : Prop :=
  contact.id.length = hashLength ∧ contact.host.length ≤ 65535

theorem wrote_node {n : KadRoutingNode} (hf : Fits n.contact) :
    Wrote (appendKadRoutingNode n) readKadRoutingNode (dropKey n) :=
  (wrote_id hf.1).cons ((wrote_string hf.2).cons ((reads_uint16 _).wrote.cons
    ((reads_uint16 _).wrote.cons ((reads_next _).wrote.cons ((wrote_bool _).cons
      ((wrote_bool _).cons ((reads_uint32 _).wrote.cons ((wrote_int64 _).cons
        ((wrote_int64 _).cons (wrote_nil _))))))))))

theorem wrote_nodes {no : List KadRoutingNode} (hl : no.length ≤ 4294967295)
    (hn : ∀ n ∈ no, Fits n.contact) :
    Wrote (appendKadRoutingNodes no) readKadRoutingNodes (no.map dropKey) := by
  have hs : (UInt32.ofNat no.length).toNat = no.length :=
    UInt32.toNat_ofNat_of_lt' (Nat.lt_succ_of_le hl)
  rw [appendKadRoutingNodes, if_neg (by omega)]
  refine (reads_uint32 _).wrote.cons ?_
  rw [hs]
  exact wrote_one (wrote_times no fun n hno => wrote_node (hn n hno))

/-- A bucket that can be written. -/
structure Storable (bucket : KadRoutingBucket) : Prop where
  live : bucket.live.length ≤ 4294967295
  replacements : bucket.replacements.length ≤ 4294967295
  nodes : ∀ node ∈ bucket.nodes, Fits node.contact

theorem wrote_bucket {b : KadRoutingBucket} (hb : Storable b) :
    Wrote (appendBucket b) readBucket (dropKeys b) := by
  have hl := wrote_nodes hb.live fun n hn =>
    hb.nodes n (mem_append_left _ hn)
  have hs := wrote_nodes hb.replacements fun n hn =>
    hb.nodes n (mem_append_right _ hn)
  exact (wrote_int64 _).cons (hl.cons (hs.cons (wrote_nil _)))

theorem wrote_header : Wrote (concat [.ok magic, .ok (packUInt32 stateVersion)] : Except Text Text)
    readHeader stateVersion := by
  refine (reads_readBytes magic rfl).wrote.cons ((reads_uint32 _).wrote.cons ?_)
  rw [if_neg (by simp only [ne_eq, not_true_eq_false, false_or]; decide)]
  exact wrote_nil _

/-- A snapshot that can be written. -/
structure Saved (snapshot : KadRoutingSnapshot) : Prop where
  selfId : snapshot.selfId.length = hashLength
  buckets : snapshot.buckets.length ≤ 65535 ∧ ∀ bucket ∈ snapshot.buckets, Storable bucket
  routerNodes : snapshot.routerNodes.length ≤ 65535 ∧
    ∀ endpoint ∈ snapshot.routerNodes, endpoint.host.length ≤ 65535
  routerContacts : snapshot.routerContacts.length ≤ 65535 ∧
    ∀ contact ∈ snapshot.routerContacts, Fits contact
  observedAddresses : snapshot.observedAddresses.length ≤ 65535 ∧
    ∀ address ∈ snapshot.observedAddresses, address.length ≤ 65535

/-- A snapshot comes back without the keys of its nodes. -/
theorem parse_create {s : KadRoutingSnapshot} (hsa : Saved s) :
    ∃ p, createKadRoutingStatePayload s = .ok p ∧ parseKadRoutingStatePayload p = some { s with
        buckets := s.buckets.map dropKeys
        routerNodes := s.routerNodes.map plain } := by
  obtain ⟨hs, ⟨hb, hbu⟩, ⟨hr, hro⟩, ⟨hco, hc⟩, ho, had⟩ := hsa
  have ha : Wrote (appendList appendString s.observedAddresses)
      (readList readString) s.observedAddresses := by
    have hl : Wrote _ _ (s.observedAddresses.map id) :=
      wrote_list ho fun a hm => wrote_string (had a hm)
    rwa [map_id] at hl
  have hk : Wrote (appendList appendKadContact s.routerContacts)
      (readList (readStateKadContact stateVersion)) s.routerContacts := by
    have hl : Wrote _ _ (s.routerContacts.map id) := wrote_list hco fun c hm =>
        wrote_contact (hc c hm).1 (hc c hm).2
    rwa [map_id] at hl
  have hn := wrote_list hr fun e hm => wrote_endpoint (hro e hm)
  have hal := wrote_list hb fun b hm => wrote_bucket (hbu b hm)
  have hst : Wrote (createKadRoutingStatePayload s) readState { s with
      buckets := s.buckets.map dropKeys
      routerNodes := s.routerNodes.map plain } := by
    rw [createKadRoutingStatePayload, if_neg (not_not.mpr hs), if_neg (by omega)]
    exact wrote_header.append ((reads_readBytes _ hs).wrote.cons ((wrote_int64 _).cons
      ((wrote_int64 _).cons ((wrote_int64 _).cons ((wrote_int64 _).cons ((wrote_int64 _).cons
        ((wrote_int64 _).cons ((reads_uint32 _).wrote.cons ((reads_uint32 _).wrote.cons
          ((wrote_bool _).cons (ha.cons (hn.cons (hk.cons (hal.cons (wrote_nil _)))))))))))))))
  obtain ⟨p, hcr, hre⟩ := hst
  exact ⟨p, hcr, hre.whole⟩

end RoundTrip

end KadState

namespace KadRoutingTable

open KadState

variable {table t : KadRoutingTable} {index i : Fin bucketCount}

theorem getElem_place {n : KadRoutingNode} (hv : validId n.contact.id) (l : Int64)
    (li : Bool) (t : KadRoutingTable) : (place l li t n).buckets[i] =
      if t.bucketIndex n.contact.id = i then
        KadRoutingBucket.place t.bucketSize l li n t.buckets[i]
      else t.buckets[i] := by
  rw [place, if_neg (not_not.mpr hv), modifyBucket, bucketOf]
  simp only [Fin.getElem_fin, Vector.getElem_set, Fin.ext_iff]
  split_ifs with hi
  · simp only [hi]
  · rfl

theorem bucketSize_place (l : Int64) (li : Bool) (t : KadRoutingTable) (n : KadRoutingNode) :
    (place l li t n).bucketSize = t.bucketSize := by
  rw [place]
  split_ifs <;> rfl

/-- Nodes of another bucket are placed. -/
theorem foldl_place_other {no : List KadRoutingNode} (l : Int64) (li : Bool)
    (hno : ∀ n ∈ no, validId n.contact.id ∧ t.bucketIndex n.contact.id ≠ i) :
    let next := no.foldl (place l li) t
    next.selfId = t.selfId ∧ next.bucketSize = t.bucketSize ∧ next.buckets[i] = t.buckets[i] := by
  induction no generalizing t with
  | nil => exact ⟨rfl, rfl, rfl⟩
  | cons n rest ih =>
    obtain ⟨⟨hv, ho⟩, hr⟩ := forall_mem_cons.mp hno
    have hs := place_selfId l li t n
    have hn := @ih (place l li t n) fun n hnod => by
      simpa only [bucketIndex, hs] using hr n hnod
    refine ⟨hn.1.trans hs, hn.2.1.trans (bucketSize_place ..), hn.2.2.trans ?_⟩
    rw [getElem_place hv, if_neg ho]

/-- Nodes of the bucket are placed, and there is room for them. -/
theorem foldl_place_own {no : List KadRoutingNode} (l : Int64) (li : Bool)
    (hno : ∀ n ∈ no, validId n.contact.id ∧ t.bucketIndex n.contact.id = i)
    (hr : (if li then t.buckets[i].live else
      t.buckets[i].replacements).length + no.length ≤ t.bucketSize) :
    let next := no.foldl (place l li) t
    next.selfId = t.selfId ∧ next.bucketSize = t.bucketSize ∧
      next.buckets[i].live = t.buckets[i].live ++ (if li then no else []) ∧
      next.buckets[i].replacements = t.buckets[i].replacements ++ (if li then [] else no) := by
  induction no generalizing t with
  | nil => simp
  | cons n rest ih =>
    obtain ⟨⟨hv, ho⟩, hre⟩ := forall_mem_cons.mp hno
    have hs := place_selfId l li t n
    have hsi := bucketSize_place l li t n
    have hp := @getElem_place i n hv l li t
    rw [if_pos ho, KadRoutingBucket.place] at hp
    rw [length_cons] at hr
    have hn := @ih (place l li t n) fun n hnod => by
      simpa only [bucketIndex, hs] using hre n hnod
    rw [hp, hs, hsi] at hn
    cases li with
    | true =>
      simp only [if_true] at hr hn ⊢
      rw [if_pos ⟨trivial, by omega⟩] at hn
      simpa using hn (by rw [length_append, length_singleton]; omega)
    | false =>
      simp only [Bool.false_eq_true, if_false, false_and] at hr hn ⊢
      rw [if_pos (by omega)] at hn
      simpa using hn (by rw [length_append, length_singleton]; omega)

/-- Where the nodes of a saved bucket belong. -/
def Placed (table : KadRoutingTable) (index : Fin bucketCount) (saved : KadRoutingBucket) : Prop :=
  saved.Sized table.bucketSize ∧
    ∀ node ∈ saved.nodes, validId node.contact.id ∧ table.bucketIndex node.contact.id = index

theorem restoreBucket_other {saved : KadRoutingBucket} {o : Fin bucketCount}
    (hp : t.Placed o saved) (ho : o ≠ i) : let next := t.restoreBucket saved
    next.selfId = t.selfId ∧ next.bucketSize = t.bucketSize ∧ next.buckets[i] = t.buckets[i] := by
  have hno : ∀ n ∈ saved.nodes, validId n.contact.id ∧ t.bucketIndex n.contact.id ≠ i := fun n hn =>
    ⟨(hp.2 n hn).1, (hp.2 n hn).2 ▸ ho⟩
  obtain ⟨hs, hsi, hl⟩ := @foldl_place_other t i saved.live saved.lastActive true
    fun n hn => hno n (mem_append_left _ hn)
  obtain ⟨hs', hsi', hsp⟩ := @foldl_place_other
    (saved.live.foldl (place saved.lastActive true) t) i saved.replacements
    saved.lastActive false fun n hn => by
      simpa only [bucketIndex, hs] using hno n (mem_append_right _ hn)
  exact ⟨hs'.trans hs, hsi'.trans hsi, hsp.trans hl⟩

theorem restoreBucket_own {saved : KadRoutingBucket} (hp : t.Placed i saved)
    (he : t.buckets[i] = {}) : let next := t.restoreBucket saved
    next.selfId = t.selfId ∧ next.bucketSize = t.bucketSize ∧ next.buckets[i].live = saved.live ∧
      next.buckets[i].replacements = saved.replacements := by
  obtain ⟨⟨hl, hsp⟩, hnod⟩ := hp
  obtain ⟨hs, hsi, hl, hno⟩ := @foldl_place_own t i saved.live
    saved.lastActive true (fun n hn => hnod n (mem_append_left _ hn)) (by simpa [he] using hl)
  simp only [he, if_true, nil_append] at hl hno
  obtain ⟨hse', hsi', hl', hs'⟩ := @foldl_place_own
    (saved.live.foldl (place saved.lastActive true) t) i saved.replacements saved.lastActive false
    (fun n hn => by
      simpa only [bucketIndex, hs] using hnod n (mem_append_right _ hn))
    (by rw [if_neg Bool.false_ne_true, hno, hsi]; simpa using hsp)
  simp only [hl, hno, Bool.false_eq_true, if_false, nil_append, append_nil] at hl' hs'
  exact ⟨hse'.trans hs, hsi'.trans hsi, hl', hs'⟩

theorem foldl_restoreBucket_other {s : List KadRoutingBucket}
    (hsa : ∀ b ∈ s, ∃ o, t.Placed o b ∧ o ≠ i) : let next := s.foldl restoreBucket t
    next.selfId = t.selfId ∧ next.bucketSize = t.bucketSize ∧ next.buckets[i] = t.buckets[i] := by
  induction s generalizing t with
  | nil => exact ⟨rfl, rfl, rfl⟩
  | cons b rest ih =>
    obtain ⟨⟨o, hp, ho⟩, hr⟩ := forall_mem_cons.mp hsa
    obtain ⟨hs, hsi, hsam⟩ := restoreBucket_other hp ho
    have hn := @ih (t.restoreBucket b) fun b hb => by
      simpa only [Placed, bucketIndex, hs, hsi] using hr b hb
    exact ⟨hn.1.trans hs, hn.2.1.trans hsi, hn.2.2.trans hsam⟩

/-- Buckets that are saved in their order come back in their places. -/
theorem foldl_restoreBucket {s : Buckets}
    (he : t.buckets = Vector.replicate bucketCount {}) (hs : ∀ i, t.Placed i s[i])
    (i : Fin bucketCount) : (s.toList.foldl restoreBucket t).buckets[i].live = s[i].live ∧
      (s.toList.foldl restoreBucket t).buckets[i].replacements = s[i].replacements := by
  have hspl : s.toList = s.toList.take i ++ s[i] :: s.toList.drop (i + 1) := by
    have hg := take_append_drop i s.toList
    rw [drop_eq_getElem_cons (by simp)] at hg
    exact hg.symm
  have ho : ∀ b, b ∈ s.toList.take i ∨ b ∈ s.toList.drop (i + 1) → ∃ o, t.Placed o b ∧ o ≠ i := by
    rintro b (hm | hm)
    · obtain ⟨place, hp, rfl⟩ := mem_iff_getElem.mp hm
      simp only [length_take, Vector.length_toList] at hp
      refine ⟨⟨place, by omega⟩, ?_, by simp [Fin.ext_iff]; omega⟩
      simpa using hs ⟨place, by omega⟩
    · obtain ⟨place, hp, rfl⟩ := mem_iff_getElem.mp hm
      simp only [length_drop, Vector.length_toList] at hp
      refine ⟨⟨i + 1 + place, by omega⟩, ?_, by simp [Fin.ext_iff]; omega⟩
      simpa using hs ⟨i + 1 + place, by omega⟩
  obtain ⟨hse, hsi, hb⟩ := @foldl_restoreBucket_other t i
    (s.toList.take i) fun b hm => ho b (.inl hm)
  generalize hpr : (s.toList.take i).foldl restoreBucket t = middle at *
  have hmo : ∀ o b, t.Placed o b → middle.Placed o b := by
    simp [Placed, bucketIndex, hse, hsi]
  have hv : middle.buckets[i] = {} := by
    rw [hb, he]
    exact Vector.getElem_replicate _
  obtain ⟨hs', hsi', hl, hsp⟩ := restoreBucket_own (hmo _ _ (hs i)) hv
  obtain ⟨-, -, ha⟩ := @foldl_restoreBucket_other (middle.restoreBucket s[i]) i
    (s.toList.drop (i + 1)) fun b hm => by
      obtain ⟨o, hpl, hot⟩ := ho b (.inr hm)
      refine ⟨o, ?_, hot⟩
      simpa only [Placed, bucketIndex, hs', hsi'] using hmo _ _ hpl
  rw [hspl, foldl_append, hpr, foldl_cons, ha]
  exact ⟨hl, hsp⟩

theorem routers_restoreBucket (s : List KadRoutingBucket) (t : KadRoutingTable) :
    (s.foldl restoreBucket t).routerNodes = t.routerNodes ∧
      (s.foldl restoreBucket t).routerContacts = t.routerContacts := by
  have hp : ∀ l li (no : List KadRoutingNode) (next : KadRoutingTable),
      (no.foldl (place l li) next).routerNodes = next.routerNodes ∧
        (no.foldl (place l li) next).routerContacts = next.routerContacts := by
    intro l li no next
    refine List.foldlRecOn (motive := fun la : KadRoutingTable =>
      la.routerNodes = next.routerNodes ∧ la.routerContacts = next.routerContacts)
      no _ ⟨rfl, rfl⟩ fun la hl n _ => ?_
    rw [place]
    split_ifs <;> exact hl
  refine List.foldlRecOn (motive := fun la : KadRoutingTable =>
    la.routerNodes = t.routerNodes ∧ la.routerContacts = t.routerContacts)
    s _ ⟨rfl, rfl⟩ fun la hl b _ => ?_
  rw [restoreBucket, (hp _ _ _ _).1, (hp _ _ _ _).2, (hp _ _ _ _).1, (hp _ _ _ _).2]
  exact hl

/-- A snapshot whose buckets are those of the table. -/
theorem restore_placed {s : KadRoutingSnapshot} {sa : Buckets}
    (hs : validId s.selfId) (hb : s.buckets = sa.toList) (hp : ∀ i, t.Placed i sa[i]) :
    ∃ r, t.restore s = .ok r ∧ (∀ i : Fin bucketCount, r.buckets[i].live = sa[i].live ∧
        r.buckets[i].replacements = sa[i].replacements) ∧ r.routerNodes = s.routerNodes ∧
      r.routerContacts = s.routerContacts := by
  refine ⟨_, if_neg (not_not.mpr hs), fun i => ?_, (routers_restoreBucket _ _).1,
    (routers_restoreBucket _ _).2⟩
  rw [hb]
  refine foldl_restoreBucket (by rfl) ?_ i
  exact hp

/-- Every router contact was checked. -/
theorem routerContacts_run {s : Text} {b : Nat} (hc : create s b = .ok t)
    (ca : List KadRoutingCall) : ∀ c ∈ (Runs.run step t ca).routerContacts, validId c.id := by
  have hn : ∀ c ∈ t.routerContacts, validId c.id := by
    rw [create] at hc
    split at hc
    · cases hc
      simp
    · cases hc
  have he : ∀ (t : KadRoutingTable) e,
      (t.addRouterEndpoint e).routerContacts = t.routerContacts := by
    intro t e
    rw [addRouterEndpoint]
    split_ifs <;> rfl
  refine @Runs.run_preserves _ _ step (fun t => ∀ c ∈ t.routerContacts,
    validId c.id) (fun t cl hv => ?_) t ca hn
  cases cl with
  | heardAbout c now | nodeSeen c now =>
    simp only [step, heardAbout, nodeSeen, addNode]
    split_ifs <;> exact hv
  | nodeFailed c =>
    simp only [step, nodeFailed]
    split_ifs <;> exact hv
  | addRouterEndpoint e => rwa [step, he]
  | addRouterContact c =>
    rw [step, addRouterContact]
    split_ifs with hb
    · dsimp only
      rw [he]
      split
      · simpa [or_imp, forall_and, validId_of_valid hb] using hv
      · next ex hf =>
        rw [← (Cursor.find_eq_some hf).1] at hv
        simp only [Cursor.list, Cursor.set, mem_append, mem_cons] at hv ⊢
        rintro o (hm | rfl | hm)
        · exact hv o (.inl hm)
        · exact validId_of_valid hb
        · exact hv o (.inr (.inr hm))
    · exact hv

theorem own_run (t : KadRoutingTable) (ca : List KadRoutingCall) :
    (Runs.run step t ca).selfId = t.selfId ∧ (Runs.run step t ca).bucketSize = t.bucketSize := by
  refine @Runs.run_preserves _ _ step (fun next => next.selfId = t.selfId ∧
    next.bucketSize = t.bucketSize) (fun next cl hs => ?_) t ca ⟨rfl, rfl⟩
  cases cl with
  | heardAbout c now | nodeSeen c now =>
    simp only [step, heardAbout, nodeSeen, addNode]
    split_ifs <;> exact hs
  | nodeFailed c =>
    simp only [step, nodeFailed]
    split_ifs <;> exact hs
  | addRouterEndpoint e =>
    have hc := core_addRouterEndpoint next e
    simp only [core, Prod.mk.injEq] at hc
    simpa only [step, hc] using hs
  | addRouterContact c =>
    have hc := core_addRouterContact next c
    simp only [core, Prod.mk.injEq] at hc
    simpa only [step, hc] using hs

/-- A table that can be written: its texts and lists are no longer than their
counts can say. -/
structure Storable (table : KadRoutingTable) : Prop where
  live : ∀ index : Fin bucketCount, table.buckets[index].live.length ≤ 4294967295
  replacements : ∀ index : Fin bucketCount,
    table.buckets[index].replacements.length ≤ 4294967295
  hosts : ∀ node ∈ table.nodes, node.contact.host.length ≤ 65535
  routerNodes : table.routerNodes.length ≤ 65535 ∧
    ∀ endpoint ∈ table.routerNodes, endpoint.host.length ≤ 65535
  routerContacts : table.routerContacts.length ≤ 65535 ∧
    ∀ contact ∈ table.routerContacts, contact.host.length ≤ 65535

/-- No node has a UDP key, and a router node is no more than an address. -/
def Keyless (table : KadRoutingTable) : Prop :=
  (∀ node ∈ table.nodes, node.contact.udpKey = 0) ∧
    ∀ endpoint ∈ table.routerNodes, endpoint.cryptOptions = 0 ∧ endpoint.userHash = []

/-- The nodes and the router nodes are the same. -/
def SameNodes (table next : KadRoutingTable) : Prop :=
  (∀ index : Fin bucketCount, next.buckets[index].live = table.buckets[index].live ∧
    next.buckets[index].replacements = table.buckets[index].replacements) ∧
  next.routerNodes = table.routerNodes ∧ next.routerContacts = table.routerContacts

theorem Storable.saved (hs : t.Storable) (hl : t.Layout)
    (hco : ∀ c ∈ t.routerContacts, validId c.id) : Saved t.snapshot where
  selfId := of_decide_eq_true t.validSelf
  buckets := by
    refine ⟨by rw [snapshot, Vector.length_toList]; decide, fun b hb => ?_⟩
    obtain ⟨i, hi, rfl⟩ := Vector.mem_iff_getElem.mp (Vector.mem_toList_iff.mp hb)
    refine ⟨hs.live ⟨i, hi⟩, hs.replacements ⟨i, hi⟩, ?_⟩
    intro n hn
    exact ⟨of_decide_eq_true ((hl ⟨i, hi⟩).2 n hn).2.2, hs.hosts n (mem_nodes.mpr ⟨⟨i, hi⟩, hn⟩)⟩
  routerNodes := hs.routerNodes
  routerContacts := ⟨hs.routerContacts.1, fun c hc =>
    ⟨of_decide_eq_true (hco c hc), hs.routerContacts.2 c hc⟩⟩
  observedAddresses := by simp [snapshot]

theorem Layout.placed (hl : t.Layout) (i : Fin bucketCount) :
    t.Placed i (dropKeys t.buckets[i]) := by
  obtain ⟨hs, hn⟩ := hl i
  refine ⟨by simpa [KadRoutingBucket.Sized, dropKeys] using hs, fun n hno => ?_⟩
  simp only [KadRoutingBucket.nodes, dropKeys, ← map_append, mem_map] at hno
  obtain ⟨old, hold, rfl⟩ := hno
  exact ⟨(hn old hold).2.2, (hn old hold).1⟩

theorem map_eq_self {α : Type} {f : α → α} {i : List α} : i.map f = i ↔ ∀ it ∈ i, f it = it := by
  induction i with
  | nil => simp
  | cons it r ih => simp [ih]

theorem dropKey_eq_self {n : KadRoutingNode} : dropKey n = n ↔ n.contact.udpKey = 0 := by
  obtain ⟨⟨⟩⟩ := n
  simp [dropKey, eq_comm]

theorem plain_eq_self {e : Endpoint} : plain e = e ↔ e.cryptOptions = 0 ∧ e.userHash = [] := by
  obtain ⟨⟩ := e
  simp [plain, eq_comm]

theorem keyless_iff {r : KadRoutingTable} (hb : ∀ i : Fin bucketCount,
      r.buckets[i].live = (dropKeys t.buckets[i]).live ∧
      r.buckets[i].replacements = (dropKeys t.buckets[i]).replacements)
    (hn : r.routerNodes = t.routerNodes.map plain)
    (hc : r.routerContacts = t.routerContacts) : t.SameNodes r ↔ t.Keyless := by
  have hk : (∀ i : Fin bucketCount, r.buckets[i].live = t.buckets[i].live ∧
      r.buckets[i].replacements = t.buckets[i].replacements) ↔
      ∀ n ∈ t.nodes, n.contact.udpKey = 0 := by
    simp only [mem_nodes, forall_exists_index, KadRoutingBucket.nodes, hb, dropKeys,
      map_eq_self, dropKey_eq_self, mem_append]
    grind
  rw [SameNodes, Keyless, hk, hn, hc, map_eq_self]
  simp [plain_eq_self]

/-- A table that can be written is restored without its UDP keys, so it comes
back the same exactly if it has none. -/
theorem restore_saved {selfId : Text} {bucketSize : Nat} {fresh : KadRoutingTable}
    (hcreate : create selfId bucketSize = .ok fresh) (calls : List KadRoutingCall)
    (hstorable : (Runs.run step fresh calls).Storable) :
    let table := Runs.run step fresh calls
    ∃ payload snapshot restored, createKadRoutingStatePayload table.snapshot = .ok payload ∧
      parseKadRoutingStatePayload payload = some snapshot ∧ fresh.restore snapshot = .ok restored ∧
      (table.SameNodes restored ↔ table.Keyless) := by
  intro table
  have hlayout : table.Layout := @Runs.run_preserves _ _ step Layout
    (fun _ call hlayout => hlayout.step call) fresh calls (layout_of_create hcreate).1
  obtain ⟨payload, hpayload, hparse⟩ :=
    parse_create (hstorable.saved hlayout (routerContacts_run hcreate calls))
  obtain ⟨hself, hsize⟩ : table.selfId = fresh.selfId ∧ table.bucketSize = fresh.bucketSize :=
    own_run fresh calls
  obtain ⟨restored, hrestore, hbuckets, hnodes, hcontacts⟩ := @restore_placed fresh
    { table.snapshot with
      buckets := table.snapshot.buckets.map dropKeys
      routerNodes := table.snapshot.routerNodes.map plain }
    (table.buckets.map dropKeys) table.validSelf Vector.toList_map.symm fun index => by
      have hplaced := hlayout.placed index
      simp only [Placed, bucketIndex, hself, hsize] at hplaced ⊢
      simpa using hplaced
  refine ⟨payload, _, restored, hpayload, hparse, hrestore, keyless_iff ?_ hnodes hcontacts⟩
  simpa using hbuckets

theorem restore_saved_seen :
    let calls : List KadRoutingCall := [.nodeSeen (farContact 1 4000) 5,
      .heardAbout (farContact 2 4001) 6, .addRouterContact (farContact 3 4002)]
    let table := Runs.run step ownTable calls
    ∃ payload snapshot restored, createKadRoutingStatePayload table.snapshot = .ok payload ∧
      parseKadRoutingStatePayload payload = some snapshot ∧
      ownTable.restore snapshot = .ok restored ∧ (table.SameNodes restored ↔ table.Keyless) :=
  restore_saved ownTable_created _ ⟨by decide +kernel, by decide +kernel, by decide +kernel,
    by decide +kernel, by decide +kernel⟩

/-- A node that answered with its UDP key is restored without it. -/
theorem restore_saved_key :
    let table := ownTable.nodeSeen { farContact 1 4000 with udpKey := 7 } 5
    let restored := do
      let payload ← (createKadRoutingStatePayload table.snapshot).toOption
      let snapshot ← parseKadRoutingStatePayload payload
      (ownTable.restore snapshot).toOption
    table.nodes.map (·.contact.udpKey) = [7] ∧
      restored.map (fun restored => restored.nodes.map (·.contact.udpKey)) = some [0] := by
  decide +kernel

end KadRoutingTable

end Aria2Next
