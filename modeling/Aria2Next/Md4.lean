/-
`ed2k/Hash`, the MD4 digest.  The code runs over the message as it is and
builds the padded end in a buffer of two blocks; RFC 1320 pads the message
first and describes a round by a table.  `loadLe32` and `storeLe32` do what
`readUInt32` and `packUInt32` do.
-/
import Aria2Next.Packet

namespace Aria2Next

open List Packet

namespace Md4

structure State where
  a : UInt32
  b : UInt32
  c : UInt32
  d : UInt32
deriving DecidableEq, Repr

def init : State := ⟨0x67452301, 0xefcdab89, 0x98badcfe, 0x10325476⟩

def rol (n : UInt32) (s : Nat) : UInt32 := n <<< UInt32.ofNat s ||| n >>> UInt32.ofNat (32 - s)

def f (x y z : UInt32) : UInt32 := x &&& y ||| ~~~x &&& z

def g (x y z : UInt32) : UInt32 := x &&& y ||| x &&& z ||| y &&& z

def h (x y z : UInt32) : UInt32 := x ^^^ y ^^^ z

def step1 (a b c d x : UInt32) (s : Nat) : UInt32 := rol (a + f b c d + x) s

def step2 (a b c d x : UInt32) (s : Nat) : UInt32 := rol (a + g b c d + x + 0x5a827999) s

def step3 (a b c d x : UInt32) (s : Nat) : UInt32 := rol (a + h b c d + x + 0x6ed9eba1) s

/-- Four lines of `transform`, which set `a`, `d`, `c` and `b` from the words
with the given numbers. -/
def four (step : UInt32 → UInt32 → UInt32 → UInt32 → UInt32 → Nat → UInt32) (s₀ s₁ s₂ s₃ : Nat)
    (x : List UInt32) (state : State) (i j k l : Nat) : State :=
  let a := step state.a state.b state.c state.d (x.getD i 0) s₀
  let d := step state.d a state.b state.c (x.getD j 0) s₁
  let c := step state.c d a state.b (x.getD k 0) s₂
  let b := step state.b c d a (x.getD l 0) s₃
  ⟨a, b, c, d⟩

def words (block : Text) : List UInt32 :=
  (List.range 16).map fun i => readUInt32 (block.drop (i * 4))

def transform (state : State) (block : Text) : State :=
  let x := words block
  let four1 := four step1 3 7 11 19 x
  let four2 := four step2 3 5 9 13 x
  let four3 := four step3 3 9 11 15 x
  let last := four1 state 0 1 2 3
  let last := four1 last 4 5 6 7
  let last := four1 last 8 9 10 11
  let last := four1 last 12 13 14 15
  let last := four2 last 0 4 8 12
  let last := four2 last 1 5 9 13
  let last := four2 last 2 6 10 14
  let last := four2 last 3 7 11 15
  let last := four3 last 0 8 4 12
  let last := four3 last 2 10 6 14
  let last := four3 last 1 9 5 13
  let last := four3 last 3 11 7 15
  ⟨state.a + last.a, state.b + last.b, state.c + last.c, state.d + last.d⟩

/-- The loop over whole blocks, and the bytes behind them. -/
def blocks (state : State) (bytes : Text) : State × Text :=
  if bytes.length < 64 then (state, bytes)
  else blocks (transform state bytes) (bytes.drop 64)
termination_by bytes.length
decreasing_by
  rw [length_drop]
  omega

/-- The two blocks that end the message; `rest` is shorter than a block. -/
def tail (rest : Text) (bitLength : UInt64) : Text :=
  let lengthOffset := if rest.length < 56 then 56 else 120
  rest ++ [0x80] ++ List.replicate (lengthOffset - rest.length - 1) 0 ++ packUInt64 bitLength ++
    List.replicate (120 - lengthOffset) 0

def digest (state : State) : Text :=
  packUInt32 state.a ++ packUInt32 state.b ++ packUInt32 state.c ++ packUInt32 state.d

end Md4

open Md4 in
def md4Digest (data : Text) : Text :=
  let (state, rest) := blocks init data
  let tail := tail rest (UInt64.ofNat data.length * 8)
  let state := transform state tail
  digest (if rest.length ≥ 56 then transform state (tail.drop 64) else state)

/-! The digest of RFC 1320. -/

namespace Rfc1320

open Md4

/-- The message, a one bit, zeros up to 448 bits of a block, and the number of
bits as two words, the low one first. -/
def pad (message : Text) : Text :=
  message ++ 0x80 :: List.replicate ((119 - message.length % 64) % 64) 0 ++
    packLittleEndian 8 (8 * message.length)

/-- Word `k` of the padded message. -/
def word (padded : Text) (k : Nat) : UInt32 :=
  UInt32.ofNat (littleEndian ((padded.drop (4 * k)).take 4))

/-- A round: what an operation rotates, the order of the words and the shifts. -/
structure Round where
  sum : UInt32 → UInt32 → UInt32 → UInt32 → UInt32 → UInt32
  order : List Nat
  shifts : List Nat

def round1 : Round where
  sum a b c d x := a + (b &&& c ||| ~~~b &&& d) + x
  order := [0, 1, 2, 3, 4, 5, 6, 7, 8, 9, 10, 11, 12, 13, 14, 15]
  shifts := [3, 7, 11, 19]

def round2 : Round where
  sum a b c d x := a + (b &&& c ||| b &&& d ||| c &&& d) + x + 0x5a827999
  order := [0, 4, 8, 12, 1, 5, 9, 13, 2, 6, 10, 14, 3, 7, 11, 15]
  shifts := [3, 5, 9, 13]

def round3 : Round where
  sum a b c d x := a + (b ^^^ c ^^^ d) + x + 0x6ed9eba1
  order := [0, 8, 4, 12, 2, 10, 6, 14, 1, 9, 5, 13, 3, 11, 7, 15]
  shifts := [3, 9, 11, 15]

/-- One operation `[abcd k s]`; the next one is for the registers `dabc`. -/
def Round.operation (round : Round) (x : Nat → UInt32) (r : State) (use : Nat × Nat) :
    State :=
  ⟨r.d, ⟨(round.sum r.a r.b r.c r.d (x use.1)).toBitVec.rotateLeft use.2⟩, r.b, r.c⟩

def Round.run (round : Round) (x : Nat → UInt32) (r : State) : State :=
  (round.order.zip (List.replicate 4 round.shifts).flatten).foldl (round.operation x) r

/-- The four registers after the block with the given number. -/
def compress (padded : Text) (r : State) (block : Nat) : State :=
  let x := fun k => word padded (16 * block + k)
  let last := round3.run x (round2.run x (round1.run x r))
  ⟨r.a + last.a, r.b + last.b, r.c + last.c, r.d + last.d⟩

def md4 (message : Text) : Text :=
  let padded := pad message
  digest ((List.range (padded.length / 64)).foldl (compress padded)
    ⟨0x67452301, 0xefcdab89, 0x98badcfe, 0x10325476⟩)

theorem rol_eq (n : UInt32) {s : Nat} (hs : 0 < s) (hl : s < 32) :
    rol n s = ⟨n.toBitVec.rotateLeft s⟩ := by
  have hleft : (UInt32.ofNat s).toNat = s := UInt32.toNat_ofNat_of_lt' (hl.trans (by decide))
  have hright : (UInt32.ofNat (32 - s)).toNat = 32 - s :=
    UInt32.toNat_ofNat_of_lt' (show 32 - s < 2 ^ 32 by omega)
  apply UInt32.toNat_inj.mp
  change _ = (n.toBitVec.rotateLeft s).toNat
  rw [rol, UInt32.toNat_or, UInt32.toNat_shiftLeft, UInt32.toNat_shiftRight, hleft, hright,
    BitVec.toNat_rotateLeft, Nat.mod_eq_of_lt hl, Nat.mod_eq_of_lt (show 32 - s < 32 by omega)]
  rfl

/-- Four operations bring the registers back to their places. -/
theorem run_eq (R : Round) (st : UInt32 → UInt32 → UInt32 → UInt32 → UInt32 → Nat → UInt32)
    (s₀ s₁ s₂ s₃ : Nat) {x : Nat → UInt32} {xs : List UInt32} (hx : ∀ k < 16, x k = xs.getD k 0)
    (hstep : ∀ a b c d w s, st a b c d w s = rol (R.sum a b c d w) s)
    (hs : ∀ s ∈ [s₀, s₁, s₂, s₃], 0 < s ∧ s < 32) (qu : List (Nat × Nat × Nat × Nat))
    (ho : R.order.zip (List.replicate 4 R.shifts).flatten =
      qu.flatMap fun q => [(q.1, s₀), (q.2.1, s₁), (q.2.2.1, s₂), (q.2.2.2, s₃)])
    (hq : ∀ q ∈ qu, q.1 < 16 ∧ q.2.1 < 16 ∧ q.2.2.1 < 16 ∧ q.2.2.2 < 16) (r : State) :
    R.run x r =
      qu.foldl (fun r q => four st s₀ s₁ s₂ s₃ xs r q.1 q.2.1 q.2.2.1 q.2.2.2) r := by
  have hrol : ∀ s ∈ [s₀, s₁, s₂, s₃], ∀ a b c d w, st a b c d w s =
      ⟨(R.sum a b c d w).toBitVec.rotateLeft s⟩ := by
    intro s hm a b c d w
    rw [hstep, rol_eq _ (hs s hm).1 (hs s hm).2]
  simp only [forall_mem_cons] at hrol
  rw [Round.run, ho]
  clear ho
  induction qu generalizing r with
  | nil => rfl
  | cons q qu ih =>
    obtain ⟨⟨hi, hj, hk, hl⟩, hq⟩ := forall_mem_cons.mp hq
    have hfour : [(q.1, s₀), (q.2.1, s₁), (q.2.2.1, s₂), (q.2.2.2, s₃)].foldl (R.operation x) r =
        four st s₀ s₁ s₂ s₃ xs r q.1 q.2.1 q.2.2.1 q.2.2.2 := by
      simp only [foldl, Round.operation, four, hrol, hx _ hi, hx _ hj, hx _ hk, hx _ hl]
    rw [flatMap_cons, foldl_append, hfour, ih hq, foldl_cons]

theorem words_append {b : Text} (hb : 64 ≤ b.length) (e : Text) :
    words (b ++ e) = words b := by
  apply map_congr_left
  intro i hi
  have hi := mem_range.mp hi
  rw [readUInt32, readUInt32, drop_append_of_le_length (by omega),
    take_append_of_le_length (by rw [length_drop]; omega)]

theorem transform_append (r : State) {b : Text} (hb : 64 ≤ b.length) (e : Text) :
    transform r (b ++ e) = transform r b := by
  simp only [transform, words_append hb]

theorem compress_eq (p : Text) (r : State) (i : Nat) :
    compress p r i = transform r (p.drop (64 * i)) := by
  have hx : ∀ k < 16, word p (16 * i + k) = (words (p.drop (64 * i))).getD k 0 := by
    intro k hk
    have hd : 64 * i + k * 4 = 4 * (16 * i + k) := by omega
    simp [words, hk, word, readUInt32, drop_drop, hd]
  have h1 := run_eq round1 step1 3 7 11 19 hx (fun _ _ _ _ _ _ => rfl) (by decide)
    [(0, 1, 2, 3), (4, 5, 6, 7), (8, 9, 10, 11), (12, 13, 14, 15)] (by rfl) (by decide)
  have h2 := run_eq round2 step2 3 5 9 13 hx (fun _ _ _ _ _ _ => rfl) (by decide)
    [(0, 4, 8, 12), (1, 5, 9, 13), (2, 6, 10, 14), (3, 7, 11, 15)] (by rfl) (by decide)
  have h3 := run_eq round3 step3 3 9 11 15 hx (fun _ _ _ _ _ _ => rfl) (by decide)
    [(0, 8, 4, 12), (2, 10, 6, 14), (1, 9, 5, 13), (3, 11, 7, 15)] (by rfl) (by decide)
  simp only [compress, h1, h2, h3, transform, foldl]

theorem blocks_eq (r : State) (bs : Text) : blocks r bs =
    ((List.range (bs.length / 64)).foldl (fun r i => transform r (bs.drop (64 * i))) r,
      bs.drop (64 * (bs.length / 64))) := by
  fun_induction blocks r bs with
  | case1 r bs hlt => simp [Nat.div_eq_of_lt hlt]
  | case2 r bs hge ih =>
    have hn : bs.length / 64 = (bs.drop 64).length / 64 + 1 := by
      rw [length_drop]
      omega
    rw [ih, hn, range_succ_eq_map, foldl_cons, foldl_map]
    simp only [drop_drop, Nat.mul_succ, Nat.add_comm 64, Nat.mul_zero, drop_zero]

end Rfc1320

end Aria2Next
