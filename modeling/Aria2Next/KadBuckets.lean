/-
The buckets of `ed2k/KadRouting` and the order of distances.  A distance is a
number of 128 bits; near the own id a bucket is the place of its highest bit,
which the random id of a bucket is built from.
-/
import Aria2Next.KadTraversal

namespace Aria2Next

open List

open Packet (hashLength packUInt32 readUInt32)

/-- The distance as a number, its first word the most significant. -/
def magnitude : List UInt32 → Nat
  | [] => 0
  | word :: rest => word.toNat * 2 ^ (32 * rest.length) + magnitude rest

/-- The words of a distance that falls into the bucket; `words` are random. -/
def distanceIn (index : Nat) (words : Nat → UInt32) : Nat → UInt32 :=
  if index < farBuckets then
    Function.update words 0 (UInt32.ofNat (index + 1) <<< 28 ||| words 0 >>> 4)
  else
    let leading := min (index - farBuckets + splitLevels) 127
    let bit := (0x80000000 : UInt32) >>> UInt32.ofNat (leading % 32)
    fun chunk => if chunk < leading / 32 then 0
      else if chunk = leading / 32 then bit ||| (words chunk &&& (bit - 1)) else words chunk

namespace KadRoutingTable

def randomIdIn (table : KadRoutingTable) (index : Nat) (words : Nat → UInt32) : Text :=
  (List.range (hashLength / 4)).flatMap fun chunk => packUInt32
    (readUInt32 (table.selfId.drop (chunk * 4)) ^^^ distanceIn index words chunk)

/-- The nodes a search may hand out. -/
def eligible (table : KadRoutingTable) (includeUnconfirmed : Bool) : List KadRoutingNode :=
  table.buckets.toList.flatMap fun bucket => bucket.live.filter fun node =>
    (includeUnconfirmed || node.confirmed) && node.contact.id != []

end KadRoutingTable

theorem mul_add_lt {x y p m : Nat} (n : Nat) (hxy : x < y) (hm : m < p) :
    x * p + m < y * p + n := by
  have hmul := Nat.mul_le_mul_right p hxy
  rw [Nat.succ_mul] at hmul
  omega

theorem magnitude_lt (ws : List UInt32) : magnitude ws < 2 ^ (32 * ws.length) := by
  induction ws with
  | nil => decide
  | cons w ws ih =>
    rw [magnitude, length_cons, Nat.mul_succ, pow_add, mul_comm (2 ^ _) (2 ^ 32)]
    exact mul_add_lt 0 w.toNat_lt ih

/-- Words compare as the numbers they are. -/
theorem compare_magnitude {ws vs : List UInt32} (hl : ws.length = vs.length) :
    compare ws vs = compare (magnitude ws) (magnitude vs) := by
  induction ws generalizing vs with
  | nil =>
    rw [length_eq_zero_iff.mp hl.symm]
    rfl
  | cons w ws ih =>
    obtain ⟨v, vs, rfl⟩ := exists_cons_of_length_eq_add_one hl.symm
    have hl := Nat.succ.inj hl
    have hw := magnitude_lt ws
    have hv := magnitude_lt vs
    rw [← hl] at hv
    rw [magnitude, magnitude, List.compare_cons_cons, ih hl, ← hl,
      UInt32.compare_eq_toNat_compare_toNat]
    rcases lt_trichotomy w.toNat v.toNat with h | h | h
    · rw [Nat.compare_eq_lt.mpr h, Nat.compare_eq_lt.mpr (mul_add_lt _ h hw)]
      rfl
    · simp only [h, Nat.compare_eq_ite_lt, Nat.add_lt_add_iff_left, lt_irrefl, if_false,
        Ordering.eq_then]
    · rw [Nat.compare_eq_gt.mpr h, Nat.compare_eq_gt.mpr (mul_add_lt _ h hv)]
      rfl

/-- A bit of a word, counted from the highest. -/
abbrev bitOf (b : Nat) : UInt32 := 0x80000000 >>> UInt32.ofNat b

theorem toNat_bit {b : Nat} (hb : b < 32) : (bitOf b).toNat = 2 ^ (31 - b) := by
  rw [UInt32.toNat_shiftRight, UInt32.toNat_ofNat_of_lt' (hb.trans (by decide)),
    Nat.mod_eq_of_lt hb, Nat.shiftRight_eq_div_pow]
  exact Nat.pow_div (x := 2) (Nat.le_of_lt_succ hb) (by decide)

theorem and_bit_ne_zero (x : UInt32) {b : Nat} (hb : b < 32) :
    x &&& bitOf b ≠ 0 ↔ x.toNat.testBit (31 - b) := by
  rw [ne_eq, ← UInt32.toNat_inj, UInt32.toNat_and, toNat_bit hb]
  constructor
  · intro h
    obtain ⟨j, hj⟩ := Nat.exists_testBit_of_ne_zero h
    rw [Nat.testBit_and, Nat.testBit_two_pow, Bool.and_eq_true, decide_eq_true_eq] at hj
    rw [hj.2]
    exact hj.1
  · intro ht h
    simpa [ht] using congrArg (Nat.testBit · (31 - b)) h

theorem find?_bit {x : UInt32} (hx : x ≠ 0) :
    ((List.range 32).find? fun bit => x &&& bitOf bit ≠ 0) =
      some (31 - x.toNat.log2) := by
  have hn : x.toNat ≠ 0 := fun h => hx (UInt32.toNat_inj.mp h)
  have hl : x.toNat.log2 < 32 := (Nat.log2_lt hn).mpr x.toNat_lt
  rw [find?_range_eq_some]
  refine ⟨?_, mem_range.mpr (by omega), ?_⟩
  · rw [decide_eq_true_eq, and_bit_ne_zero x (by omega), Nat.sub_sub_self (by omega)]
    exact Nat.testBit_log2 hn
  · intro b hb
    have hlt : x.toNat < 2 ^ (31 - b) :=
      Nat.lt_log2_self.trans_le (Nat.pow_le_pow_right (by decide) (by omega))
    simpa [and_bit_ne_zero x (show b < 32 by omega)] using Nat.testBit_lt_two_pow hlt

theorem bucketFrom_eq {x : UInt32} {c : Nat} (ws : List UInt32) (hx : x ≠ 0)
    (hc : c = 0 → x >>> 28 = 0) :
    bucketFrom c (x :: ws) = farBuckets + c * 32 + (31 - x.toNat.log2) - splitLevels := by
  rw [bucketFrom, if_neg hx, if_neg (fun h => h.2 (hc h.1)), find?_bit hx]

theorem log2_add {x m k : Nat} (hx : x ≠ 0) (hm : m < 2 ^ k) :
    (x * 2 ^ k + m).log2 = x.log2 + k := by
  have hp := Nat.mul_pos (Nat.pos_of_ne_zero hx) (Nat.two_pow_pos k)
  have hle := Nat.mul_le_mul_right (2 ^ k) (Nat.log2_self_le hx)
  have hlt := Nat.mul_le_mul_right (2 ^ k) (Nat.lt_log2_self (n := x))
  rw [Nat.succ_mul] at hlt
  rw [Nat.log2_eq_iff (by omega), pow_add, Nat.add_right_comm, pow_add]
  omega

/-- Near the own id the bucket is the place of the highest bit. -/
theorem bucketFrom_add_log2 {ws : List UInt32} {c : Nat} (hl : c + ws.length = 4)
    (hm : magnitude ws ≠ 0) (hf : farBuckets ≤ bucketFrom c ws) :
    bucketFrom c ws + (magnitude ws).log2 = 138 := by
  induction ws generalizing c with
  | nil => exact absurd rfl hm
  | cons x ws ih =>
    by_cases hx : x = 0
    · have h0 : magnitude (x :: ws) = magnitude ws := by simp [magnitude, hx]
      rw [bucketFrom, if_pos hx] at hf ⊢
      rw [h0] at hm ⊢
      exact ih (by rw [← hl, length_cons]; omega) hm hf
    · have hn : x.toNat ≠ 0 := fun h => hx (UInt32.toNat_inj.mp h)
      have hlog : x.toNat.log2 < 32 := (Nat.log2_lt hn).mpr x.toNat_lt
      have hc : c = 0 → x >>> 28 = 0 := by
        intro hc
        by_contra h
        rw [bucketFrom, if_neg hx, if_pos ⟨hc, h⟩, UInt32.toNat_shiftRight,
          Nat.shiftRight_eq_div_pow] at hf
        have hlt := x.toNat_lt
        change 15 ≤ x.toNat / 2 ^ 28 - 1 at hf
        omega
      rw [bucketFrom_eq ws hx hc, magnitude, log2_add hn (magnitude_lt ws)]
      change 15 + c * 32 + (31 - x.toNat.log2) - 4 + (x.toNat.log2 + 32 * ws.length) = 138
      rw [length_cons] at hl
      omega

theorem range_split : ∀ c < 4, List.range 4 =
    List.range c ++ c :: (List.range (3 - c)).map (· + (c + 1)) := by decide

theorem distance_randomIdIn (t : KadRoutingTable) (i : Nat) (ws : Nat → UInt32) :
    distance t.selfId (t.randomIdIn i ws) = (List.range 4).map (distanceIn i ws) := by
  apply map_congr_left
  intro c hc
  have hread : readUInt32 ((t.randomIdIn i ws).drop (c * 4)) =
      readUInt32 (t.selfId.drop (c * 4)) ^^^ distanceIn i ws c := by
    have hl : ∀ v, (packUInt32 v).length = 4 := fun v => Packet.length_packLittleEndian 4 _
    have hc := range_split c (mem_range.mp hc)
    rw [KadRoutingTable.randomIdIn, hashLength, hc, flatMap_append, drop_left', flatMap_cons]
    · exact Packet.readUInt32_append _ _
    · simp [length_flatMap, hl]
  rw [hread, ← UInt32.xor_assoc, UInt32.xor_self, UInt32.zero_xor]

/-- A word with one bit set and lower bits at random. -/
theorem toNat_leading {b : Nat} (hb : b < 32) (w : UInt32) :
    (bitOf b ||| (w &&& (bitOf b - 1))).toNat = 2 ^ (31 - b) + w.toNat % 2 ^ (31 - b) := by
  have hbit := toNat_bit hb
  have hp := Nat.two_pow_pos (31 - b)
  have hle : 1 ≤ bitOf b := by
    rw [UInt32.le_iff_toNat_le, hbit]
    exact hp
  rw [UInt32.toNat_or, UInt32.toNat_and, UInt32.toNat_sub_of_le _ _ hle, hbit]
  have ho := Nat.two_pow_add_eq_or_of_lt (Nat.mod_lt w.toNat hp) 1
  rw [mul_one] at ho
  rw [ho, ← Nat.and_two_pow_sub_one_eq_mod]
  rfl

theorem bucketFrom_leading (D : Nat → UInt32) {q : Nat} (hq : q < 4) (hz : ∀ c < q, D c = 0)
    (hx : D q ≠ 0) (hc : q = 0 → D q >>> 28 = 0) : bucketFrom 0 ((List.range 4).map D) =
      farBuckets + q * 32 + (31 - (D q).toNat.log2) - splitLevels := by
  have hskip : ∀ (l : List Nat) (n : Nat), (∀ c ∈ l, D c = 0) → ∀ ws,
      bucketFrom n (l.map D ++ ws) = bucketFrom (n + l.length) ws := by
    intro l
    induction l with
    | nil => exact fun _ _ _ => rfl
    | cons c l ih =>
      intro n hl ws
      obtain ⟨h, hl⟩ := forall_mem_cons.mp hl
      rw [map_cons, cons_append, bucketFrom, if_pos h, ih _ hl, length_cons, Nat.add_right_comm,
        Nat.add_assoc]
  rw [range_split q hq, map_append, hskip _ _ fun c h => hz c (mem_range.mp h), map_cons,
    length_range, Nat.zero_add, bucketFrom_eq _ hx hc]

theorem bucketFrom_distanceIn {i : Nat} (hi : i < bucketCount) (ws : Nat → UInt32) :
    bucketFrom 0 ((List.range 4).map (distanceIn i ws)) = i := by
  by_cases hf : i < farBuckets
  · have hx : (distanceIn i ws 0 >>> 28).toNat = i + 1 := by
      have hf' : i < 15 := hf
      have hw := (ws 0).toNat_lt
      have ho := Nat.two_pow_add_eq_or_of_lt (i := 28) (b := (ws 0).toNat / 16) (by omega) (i + 1)
      have hl : (UInt32.ofNat (i + 1) <<< 28).toNat = 2 ^ 28 * (i + 1) := by
        rw [UInt32.toNat_shiftLeft, UInt32.toNat_ofNat_of_lt' (show i + 1 < 2 ^ 32 by omega),
          Nat.shiftLeft_eq]
        change (i + 1) * 2 ^ 28 % 2 ^ 32 = _
        omega
      rw [distanceIn, if_pos hf, Function.update_self, UInt32.toNat_shiftRight, UInt32.toNat_or, hl,
        UInt32.toNat_shiftRight, Nat.shiftRight_eq_div_pow, Nat.shiftRight_eq_div_pow]
      change (2 ^ 28 * (i + 1) ||| (ws 0).toNat / 16) / 2 ^ 28 = i + 1
      omega
    have h28 : distanceIn i ws 0 >>> 28 ≠ 0 := by
      intro h
      rw [h] at hx
      cases hx
    have h0 : distanceIn i ws 0 ≠ 0 := by
      intro h
      exact h28 (by rw [h]; rfl)
    change bucketFrom 0 (distanceIn i ws 0 :: _) = i
    rw [bucketFrom, if_neg h0, if_pos ⟨rfl, h28⟩, hx]
    rfl
  · have hi' : i < 139 := hi
    have hf' : ¬ i < 15 := hf
    have hn : min (i - farBuckets + splitLevels) 127 = i - 11 := by
      change min (i - 15 + 4) 127 = i - 11
      omega
    have hb : (i - 11) % 32 < 32 := Nat.mod_lt _ (by decide)
    generalize hq : (i - 11) / 32 = q
    generalize hbit : (i - 11) % 32 = b at hb
    have hD (c : Nat) : distanceIn i ws c = if c < q then 0 else if c = q then
        bitOf b ||| (ws c &&& (bitOf b - 1)) else ws c := by
      simp only [distanceIn, if_neg hf, hn, hq, hbit]
    have hx : (distanceIn i ws q).toNat = 2 ^ (31 - b) + (ws q).toNat % 2 ^ (31 - b) := by
      rw [hD, if_neg (lt_irrefl q), if_pos rfl, toNat_leading hb]
    have hp := Nat.two_pow_pos (31 - b)
    have hm := Nat.mod_lt (ws q).toNat hp
    have hlog : (distanceIn i ws q).toNat.log2 = 31 - b := by
      rw [Nat.log2_eq_iff (by omega), pow_succ]
      omega
    rw [bucketFrom_leading _ (q := q), hlog]
    · change 15 + q * 32 + (31 - (31 - b)) - 4 = i
      omega
    · omega
    · intro c hc
      rw [hD, if_pos hc]
    · intro h
      rw [h] at hx
      change 0 = _ at hx
      omega
    · intro h
      have hle : 2 ^ (31 - b) ≤ 2 ^ 27 := Nat.pow_le_pow_right (by decide) (by omega)
      rw [← UInt32.toNat_inj, UInt32.toNat_shiftRight, Nat.shiftRight_eq_div_pow]
      change (distanceIn i ws q).toNat / 2 ^ 28 = 0
      omega

theorem distance_length (l r : Text) : (distance l r).length = 4 := by
  rw [distance, length_map, length_range]
  rfl

/-- The order of the search is that of the distances as numbers. -/
theorem distanceCompare_ne_gt (l r t : Text) :
    distanceCompare l r t ≠ .gt ↔ magnitude (distance l t) ≤ magnitude (distance r t) := by
  rw [distanceCompare, compare_magnitude (by rw [distance_length, distance_length]),
    Nat.compare_ne_gt]

/-- The order a search sorts by. -/
abbrev Closer (target : Text) (near far : KadRoutingNode) : Prop :=
  distanceCompare near.contact.id far.contact.id target ≠ .gt

theorem pairwise_sorted (t : Text) (ns : List KadRoutingNode) :
    (ns.insertionSort (Closer t)).Pairwise fun near far =>
      magnitude (distance near.contact.id t) ≤ magnitude (distance far.contact.id t) := by
  have hcloser : Closer t = fun near far =>
      magnitude (distance near.contact.id t) ≤ magnitude (distance far.contact.id t) :=
    funext₂ fun _ _ => propext (distanceCompare_ne_gt ..)
  have htotal : Std.Total (Closer t) := hcloser ▸ ⟨fun _ _ => le_total _ _⟩
  have htrans : IsTrans _ (Closer t) := hcloser ▸ ⟨fun _ _ _ => le_trans⟩
  exact (pairwise_insertionSort _ ns).imp (distanceCompare_ne_gt ..).mp

theorem magnitude_eq_zero {ws : List UInt32} (h : magnitude ws = 0) : ∀ w ∈ ws, w = 0 := by
  induction ws with
  | nil => exact fun _ hw => nomatch hw
  | cons w ws ih =>
    obtain ⟨hw, hws⟩ := Nat.add_eq_zero_iff.mp h
    have h0 := (Nat.mul_eq_zero.mp hw).resolve_right (Nat.two_pow_pos _).ne'
    exact forall_mem_cons.mpr ⟨UInt32.toNat_inj.mp h0, ih hws⟩

theorem magnitude_ne_zero {s id : Text} (hs : validId s) (hi : validId id) (hn : id ≠ s) :
    magnitude (distance s id) ≠ 0 := by
  intro h
  apply hn
  have hd : distance s id = distance id id := by
    apply map_congr_left
    intro c hc
    rw [UInt32.xor_self]
    exact magnitude_eq_zero h _ (mem_map_of_mem hc)
  exact (KadTraversal.distance_inj hs hi hd).symm

/-- Every id has a bucket, and the random id of a bucket falls into it.  In the
near buckets, ids of one bucket share the highest bit of their distance.  A
search hands out nearest nodes, nearest first. -/
theorem buckets_and_closest (table : KadRoutingTable) :
    (∀ id, (table.bucketIndex id : Nat) < bucketCount) ∧
    (∀ (index : Fin bucketCount) (w : Nat → UInt32),
      table.bucketIndex (table.randomIdIn index w) = index) ∧
    (∀ first s, validId first → validId s → first ≠ table.selfId →
      s ≠ table.selfId → table.bucketIndex first = table.bucketIndex s →
      farBuckets ≤ (table.bucketIndex first : Nat) →
      (magnitude (distance table.selfId first)).log2 =
        (magnitude (distance table.selfId s)).log2) ∧
    ∀ (t : Text) (l : Nat) (i : Bool), validId t → 0 < l →
      ∃ c left : List KadRoutingNode, table.findClosest t l i =
          .ok (c.map (·.contact)) ∧
        (c ++ left).Perm (table.eligible i) ∧
        c.length = min l (table.eligible i).length ∧
        (c ++ left).Pairwise fun near far => magnitude (distance near.contact.id t) ≤
          magnitude (distance far.contact.id t) := by
  refine ⟨fun id => (table.bucketIndex id).isLt, ?_, ?_, ?_⟩
  · intro index w
    apply Fin.ext
    change bucketFrom 0 (distance table.selfId _) = index
    rw [distance_randomIdIn, bucketFrom_distanceIn index.isLt]
  · intro first s hfirst hsecond hnf hns hsame hfar
    have hlength := fun id => (Nat.zero_add _).trans (distance_length table.selfId id)
    have hf := bucketFrom_add_log2 (hlength first)
      (magnitude_ne_zero table.validSelf hfirst hnf) hfar
    have hs := bucketFrom_add_log2 (hlength s)
      (magnitude_ne_zero table.validSelf hsecond hns) (hfar.trans_eq (congrArg Fin.val hsame))
    have hval := congrArg Fin.val hsame
    change bucketFrom 0 _ = bucketFrom 0 _ at hval
    omega
  · intro t l i htarget hlimit
    have hperm := perm_insertionSort (Closer t) (table.eligible i)
    have hsorted := pairwise_sorted t (table.eligible i)
    generalize hnodes : insertionSort (Closer t) (table.eligible i) = nodes at hperm hsorted
    refine ⟨nodes.take l, nodes.drop l, ?_, ?_, ?_, ?_⟩
    · rw [KadRoutingTable.eligible] at hnodes
      rw [KadRoutingTable.findClosest, KadRoutingTable.findClosestExcluding,
        if_neg (by simp [htarget])]
      dsimp only
      rw [show insertionSort _ _ = nodes from hnodes]
      split_ifs with h
      · rfl
      · rw [take_of_length_le (by omega)]
    · rwa [take_append_drop]
    · rw [length_take, hperm.length_eq]
    · rwa [take_append_drop]

end Aria2Next
