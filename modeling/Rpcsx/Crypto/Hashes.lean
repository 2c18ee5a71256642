import Rpcsx.Crypto
import Rpcsx.Data.Rotating

-- What the hash functions are by their standards: the functions of bits, the message schedule
-- and one round on working variables that move along by one place.
namespace Rpcsx.Crypto.Standard

open Data

def ch (x y z : BitVec 32) : BitVec 32 := (x &&& y) ^^^ (~~~x &&& z)

def maj (x y z : BitVec 32) : BitVec 32 := (x &&& y) ^^^ (x &&& z) ^^^ (y &&& z)

def parity (x y z : BitVec 32) : BitVec 32 := x ^^^ y ^^^ z

-- Word `t` of a block, from its highest or from its lowest byte.
def wordBE (block : Block) (t : Fin 16) : BitVec 32 :=
  block[4 * t.val] ++ block[4 * t.val + 1] ++ block[4 * t.val + 2] ++ block[4 * t.val + 3]

def wordLE (block : Block) (t : Fin 16) : BitVec 32 :=
  block[4 * t.val + 3] ++ block[4 * t.val + 2] ++ block[4 * t.val + 1] ++ block[4 * t.val]

-- Four bytes put together by shifts.
theorem append_bytes (a b c d : UChar) :
    ((a.setWidth 32) <<< 24) ||| ((b.setWidth 32) <<< 16) ||| ((c.setWidth 32) <<< 8) |||
      (d.setWidth 32) = (a ++ b ++ c ++ d : BitVec 32) := by
  apply BitVec.eq_of_getLsbD_eq
  intro i hi
  have hfar : ∀ (x : UChar) j, 8 ≤ j → x.getLsbD j = false := fun x j hj =>
    BitVec.getLsbD_of_ge x j hj
  simp only [BitVec.getLsbD_or, BitVec.getLsbD_shiftLeft, BitVec.getLsbD_setWidth,
    BitVec.getLsbD_append, hi, decide_true, Bool.true_and]
  by_cases h8 : i < 8
  · simp [h8, show i < 16 by omega, show i < 24 by omega]
  · rw [if_neg h8, hfar d i (by omega), Bool.or_false]
    by_cases h16 : i < 16
    · simp [h8, h16, show i < 24 by omega, show i - 8 < 8 by omega, show i - 8 < 32 by omega]
    · rw [if_neg (by omega), hfar c (i - 8) (by omega), Bool.and_false, Bool.and_false,
        Bool.or_false, show i - 8 - 8 = i - 16 by omega]
      by_cases h24 : i < 24
      · simp [h16, h24, show i - 16 < 8 by omega, show i - 16 < 32 by omega]
      · rw [if_neg (by omega), hfar b (i - 16) (by omega), Bool.and_false, Bool.and_false,
          Bool.or_false]
        simp [h24, show i - 24 < 32 by omega, show i - 16 - 8 = i - 24 by omega]

-- The forms of `ch` and `maj` that the sources use.
theorem ch_eq (x y z : BitVec 32) : z ^^^ (x &&& (y ^^^ z)) = ch x y z := by
  apply BitVec.eq_of_getLsbD_eq
  intro i hi
  simp only [ch, BitVec.getLsbD_xor, BitVec.getLsbD_and, BitVec.getLsbD_not, hi]
  cases x.getLsbD i <;> cases y.getLsbD i <;> cases z.getLsbD i <;> rfl

theorem maj_eq (x y z : BitVec 32) : (x &&& y) ||| (z &&& (x ||| y)) = maj x y z := by
  apply BitVec.eq_of_getLsbD_eq
  intro i hi
  simp only [maj, BitVec.getLsbD_xor, BitVec.getLsbD_and, BitVec.getLsbD_or]
  cases x.getLsbD i <;> cases y.getLsbD i <;> cases z.getLsbD i <;> rfl

theorem and_mask (x : BitVec 32) : x &&& 0xFFFFFFFF = x := BitVec.and_allOnes

-- The rounds one after the other, from round 0.
def rounds {α : Type} (round : Nat → α → α) : Nat → α → α
  | 0, v => v
  | t + 1, v => round t (rounds round t v)

namespace Sha1

structure Working where
  a : BitVec 32
  b : BitVec 32
  c : BitVec 32
  d : BitVec 32
  e : BitVec 32

def f (t : Nat) : BitVec 32 → BitVec 32 → BitVec 32 → BitVec 32 :=
  if t < 20 then ch else if t < 40 then parity else if t < 60 then maj else parity

def k (t : Nat) : BitVec 32 :=
  if t < 20 then 0x5A827999 else if t < 40 then 0x6ED9EBA1 else if t < 60 then 0x8F1BBCDC
  else 0xCA62C1D6

def schedule (block : Block) (t : Nat) : BitVec 32 :=
  if h : t < 16 then
    wordBE block ⟨t, h⟩
  else
    (schedule block (t - 3) ^^^ schedule block (t - 8) ^^^ schedule block (t - 14) ^^^
      schedule block (t - 16)).rotateLeft 1
termination_by t

def round (block : Block) (t : Nat) (v : Working) : Working where
  a := v.a.rotateLeft 5 + f t v.b v.c v.d + v.e + k t + schedule block t
  b := v.a
  c := v.b.rotateLeft 30
  d := v.c
  e := v.d

def compress (h : Vector (BitVec 32) 5) (block : Block) : Vector (BitVec 32) 5 :=
  let v := rounds (round block) 80 ⟨h[0], h[1], h[2], h[3], h[4]⟩
  #v[h[0] + v.a, h[1] + v.b, h[2] + v.c, h[3] + v.d, h[4] + v.e]

def init : Vector (BitVec 32) 5 := #v[0x67452301, 0xEFCDAB89, 0x98BADCFE, 0x10325476, 0xC3D2E1F0]

def sha1 (message : List UChar) : List UChar :=
  (digest compress init bytesBE message).toList.flatMap putUint32BE

end Sha1

namespace Sha256

structure Working where
  a : BitVec 32
  b : BitVec 32
  c : BitVec 32
  d : BitVec 32
  e : BitVec 32
  f : BitVec 32
  g : BitVec 32
  h : BitVec 32

def bigSigma0 (x : BitVec 32) : BitVec 32 :=
  x.rotateRight 2 ^^^ x.rotateRight 13 ^^^ x.rotateRight 22

def bigSigma1 (x : BitVec 32) : BitVec 32 :=
  x.rotateRight 6 ^^^ x.rotateRight 11 ^^^ x.rotateRight 25

def sigma0 (x : BitVec 32) : BitVec 32 := x.rotateRight 7 ^^^ x.rotateRight 18 ^^^ (x >>> 3)

def sigma1 (x : BitVec 32) : BitVec 32 := x.rotateRight 17 ^^^ x.rotateRight 19 ^^^ (x >>> 10)

def schedule (block : Block) (t : Nat) : BitVec 32 :=
  if h : t < 16 then
    wordBE block ⟨t, h⟩
  else
    sigma1 (schedule block (t - 2)) + schedule block (t - 7) + sigma0 (schedule block (t - 15)) +
      schedule block (t - 16)
termination_by t

def round (k : Nat → BitVec 32) (block : Block) (t : Nat) (v : Working) : Working :=
  let t1 := v.h + bigSigma1 v.e + ch v.e v.f v.g + k t + schedule block t
  let t2 := bigSigma0 v.a + maj v.a v.b v.c
  { a := t1 + t2, b := v.a, c := v.b, d := v.c, e := v.d + t1, f := v.e, g := v.f, h := v.g }

def compress (k : Nat → BitVec 32) (h : Vector (BitVec 32) 8) (block : Block) :
    Vector (BitVec 32) 8 :=
  let v := rounds (round k block) 64 ⟨h[0], h[1], h[2], h[3], h[4], h[5], h[6], h[7]⟩
  #v[h[0] + v.a, h[1] + v.b, h[2] + v.c, h[3] + v.d, h[4] + v.e, h[5] + v.f, h[6] + v.g,
    h[7] + v.h]

-- The first 32 bits of the fractional part of the cube root of a number.
def CubeRootBits (n : Nat) (k : BitVec 32) : Prop :=
  ∃ q < 8, let root := 2 ^ 32 * q + k.toNat
    root ^ 3 ≤ n * 2 ^ 96 ∧ n * 2 ^ 96 < (root + 1) ^ 3

instance instDecidableCubeRootBits (n : Nat) (k : BitVec 32) : Decidable (CubeRootBits n k) :=
  inferInstanceAs (Decidable (∃ q < 8, let root := 2 ^ 32 * q + k.toNat
    root ^ 3 ≤ n * 2 ^ 96 ∧ n * 2 ^ 96 < (root + 1) ^ 3))

-- The first 64 primes, whose cube roots the constants of the rounds are.
def primes : List Nat :=
  [2, 3, 5, 7, 11, 13, 17, 19, 23, 29, 31, 37, 41, 43, 47, 53, 59, 61, 67, 71, 73, 79, 83, 89, 97,
    101, 103, 107, 109, 113, 127, 131, 137, 139, 149, 151, 157, 163, 167, 173, 179, 181, 191, 193,
    197, 199, 211, 223, 227, 229, 233, 239, 241, 251, 257, 263, 269, 271, 277, 281, 283, 293, 307,
    311]

end Sha256

namespace Md5

structure Working where
  a : BitVec 32
  b : BitVec 32
  c : BitVec 32
  d : BitVec 32

def f (t : Nat) (x y z : BitVec 32) : BitVec 32 :=
  if t < 16 then (x &&& y) ||| (~~~x &&& z)
  else if t < 32 then (x &&& z) ||| (y &&& ~~~z)
  else if t < 48 then x ^^^ y ^^^ z
  else y ^^^ (x ||| ~~~z)

-- The word of the block that a step reads, and how far it rotates.
def word (t : Nat) : Fin 16 :=
  if t < 16 then Fin.ofNat 16 t
  else if t < 32 then Fin.ofNat 16 (5 * t + 1)
  else if t < 48 then Fin.ofNat 16 (3 * t + 5)
  else Fin.ofNat 16 (7 * t)

def shift (t : Nat) : Nat :=
  let row := if t < 16 then [7, 12, 17, 22] else if t < 32 then [5, 9, 14, 20]
    else if t < 48 then [4, 11, 16, 23] else [6, 10, 15, 21]
  row.getD (t % 4) 0

def round (k : Nat → BitVec 32) (block : Block) (t : Nat) (v : Working) : Working where
  a := v.d
  b := v.b + (v.a + f t v.b v.c v.d + wordLE block (word t) + k t).rotateLeft (shift t)
  c := v.b
  d := v.c

def compress (k : Nat → BitVec 32) (h : Vector (BitVec 32) 4) (block : Block) :
    Vector (BitVec 32) 4 :=
  let v := rounds (round k block) 64 ⟨h[0], h[1], h[2], h[3]⟩
  #v[h[0] + v.a, h[1] + v.b, h[2] + v.c, h[3] + v.d]

def init : Vector (BitVec 32) 4 := #v[0x67452301, 0xEFCDAB89, 0x98BADCFE, 0x10325476]

end Md5

end Rpcsx.Crypto.Standard

namespace Rpcsx.Crypto.Sha1

open Data Rotating

abbrev State := Vector (BitVec 32) 5

local instance instNeZeroFive : NeZero 5 := ⟨by decide⟩

-- GET_UINT32_BE(n, data, 4 * i)
def getUint32BE (data : Block) (i : Fin 16) : BitVec 32 :=
  ((data[4 * i.val].setWidth 32) <<< 24) ||| ((data[4 * i.val + 1].setWidth 32) <<< 16) |||
    ((data[4 * i.val + 2].setWidth 32) <<< 8) ||| (data[4 * i.val + 3].setWidth 32)

-- The locals of sha1_process: W[16], and A to E.
structure Locals where
  W : Vector (BitVec 32) 16
  regs : Vector (BitVec 32) 5

def S (x : BitVec 32) (n : Nat) : BitVec 32 := (x <<< n) ||| ((x &&& 0xFFFFFFFF) >>> (32 - n))

-- The value of R(t), which also stays in W[t & 0x0F]; W[t] for the first sixteen calls.
def wordOf (t : Nat) (W : Vector (BitVec 32) 16) : BitVec 32 :=
  if h : t < 16 then W[t]
  else
    S (W[Fin.ofNat 16 (t - 3)] ^^^ W[Fin.ofNat 16 (t - 8)] ^^^ W[Fin.ofNat 16 (t - 14)] ^^^
      W[Fin.ofNat 16 t]) 1

def F (t : Nat) (x y z : BitVec 32) : BitVec 32 :=
  if t < 20 then z ^^^ (x &&& (y ^^^ z))
  else if t < 40 then x ^^^ y ^^^ z
  else if t < 60 then (x &&& y) ||| (z &&& (x ||| y))
  else x ^^^ y ^^^ z

def K (t : Nat) : BitVec 32 :=
  if t < 20 then 0x5A827999
  else if t < 40 then 0x6ED9EBA1
  else if t < 60 then 0x8F1BBCDC
  else 0xCA62C1D6

def P (F : BitVec 32 → BitVec 32 → BitVec 32 → BitVec 32) (K : BitVec 32) (a b c d e : Fin 5)
    (x : BitVec 32) (regs : Vector (BitVec 32) 5) : Vector (BitVec 32) 5 :=
  let regs := regs.set e (regs[e] + (S regs[a] 5 + F regs[b] regs[c] regs[d] + K + x))
  regs.set b (S regs[b] 30)

-- The calls of P are written out in the source, call `t` with the registers A to E renamed:
-- P(A, B, C, D, E, ..), P(E, A, B, C, D, ..), P(D, E, A, B, C, ..) and so on.
def call (t : Nat) (v : Locals) : Locals :=
  let x := wordOf t v.W
  { W := v.W.set (Fin.ofNat 16 t) x
    regs := P (F t) (K t) (name t 0) (name t 1) (name t 2) (name t 3) (name t 4) x v.regs }

example : (List.range 6).map (fun t => [name t 0, name t 1, name t 2, name t 3, name t (4 : Fin 5)]) =
    [[0, 1, 2, 3, 4], [4, 0, 1, 2, 3], [3, 4, 0, 1, 2], [2, 3, 4, 0, 1], [1, 2, 3, 4, 0],
      [0, 1, 2, 3, 4]] := by decide

def calls : Nat → Locals → Locals
  | 0, v => v
  | t + 1, v => call t (calls t v)

def sha1Process (state : State) (data : Block) : State :=
  let v := calls 80 { W := Vector.ofFn (getUint32BE data), regs := state }
  Vector.zipWith (· + ·) state v.regs

def sha1Starts (ctx : Context State) : Context State :=
  { ctx with
    total0 := 0
    total1 := 0
    state := #v[0x67452301, 0xEFCDAB89, 0x98BADCFE, 0x10325476, 0xC3D2E1F0] }

def sha1Update (ctx : Context State) (input : List UChar) : Context State :=
  update sha1Process ctx input

def sha1Padding : List UChar := 0x80 :: List.replicate 63 0

def sha1Finish (ctx : Context State) : Context State × List UChar :=
  let msglen := putUint32BE (lengthHigh ctx) ++ putUint32BE (lengthLow ctx)
  let last := (ctx.total0 &&& 0x3F).toNat
  let padn := if last < 56 then 56 - last else 120 - last
  let ctx := sha1Update ctx (sha1Padding.take padn)
  let ctx := sha1Update ctx msglen
  (ctx, ctx.state.toList.flatMap putUint32BE)

-- A context on the stack starts with whatever is there.
def sha1 (ctx : Context State) (input : List UChar) : List UChar :=
  (sha1Finish (sha1Update (sha1Starts ctx) input)).2

-- sha1_context with the two pads of the HMAC calls
structure HmacContext where
  ctx : Context State
  ipad : Block
  opad : Block

def sha1HmacUpdate (h : HmacContext) (input : List UChar) : HmacContext :=
  { h with ctx := sha1Update h.ctx input }

def sha1HmacFinish (h : HmacContext) : HmacContext × List UChar :=
  let (ctx, tmpbuf) := sha1Finish h.ctx
  let ctx := sha1Starts ctx
  let ctx := sha1Update ctx h.opad.toList
  let ctx := sha1Update ctx tmpbuf
  let (ctx, output) := sha1Finish ctx
  ({ h with ctx }, output)

def sha1HmacReset (h : HmacContext) : HmacContext :=
  { h with ctx := sha1Update (sha1Starts h.ctx) h.ipad.toList }

open Standard

theorem S_eq (x : BitVec 32) {n : Nat} (h : n < 32) : S x n = x.rotateLeft n := by
  rw [S, and_mask, BitVec.rotateLeft_def, Nat.mod_eq_of_lt h]

theorem F_eq (t : Nat) (x y z : BitVec 32) : F t x y z = Standard.Sha1.f t x y z := by
  simp only [F, Standard.Sha1.f]
  split_ifs
  · exact ch_eq x y z
  · rfl
  · exact maj_eq x y z
  · rfl

-- The words of the schedule that are still needed before call `t`.
def Words (data : Block) (t : Nat) (W : Vector (BitVec 32) 16) : Prop :=
  ∀ j, j < max t 16 → max t 16 ≤ j + 16 →
    W[Fin.ofNat 16 j] = Standard.Sha1.schedule data j

theorem words_zero (data : Block) : Words data 0 (Vector.ofFn (getUint32BE data)) := by
  intro j hj _
  have hj16 : j < 16 := by omega
  rw [Standard.Sha1.schedule, dif_pos hj16]
  simp [Nat.mod_eq_of_lt hj16, append_bytes, getUint32BE, wordBE]

theorem wordOf_eq {data : Block} {t : Nat} {W : Vector (BitVec 32) 16} (h : Words data t W) :
    wordOf t W = Standard.Sha1.schedule data t := by
  by_cases ht : t < 16
  · have hword := h t (by omega) (by omega)
    rw [wordOf, dif_pos ht, ← hword]
    simp [Nat.mod_eq_of_lt ht]
  · -- W[t & 0x0F] still holds word t - 16
    have hlast : Fin.ofNat 16 t = Fin.ofNat 16 (t - 16) := by
      apply Fin.ext
      simp only [Fin.val_ofNat]
      omega
    have hword : W[Fin.ofNat 16 t] = Standard.Sha1.schedule data (t - 16) := by
      simp only [hlast]
      exact h (t - 16) (by omega) (by omega)
    rw [wordOf, dif_neg ht, Standard.Sha1.schedule, dif_neg ht, S_eq _ (by omega), hword,
      h (t - 3) (by omega) (by omega), h (t - 8) (by omega) (by omega),
      h (t - 14) (by omega) (by omega)]

theorem words_call {data : Block} {t : Nat} {W : Vector (BitVec 32) 16} (h : Words data t W) :
    Words data (t + 1) (W.set (Fin.ofNat 16 t) (Standard.Sha1.schedule data t)) := by
  intro j hj hj'
  simp only [Fin.getElem_fin, Vector.getElem_set, Fin.val_ofNat]
  by_cases hsame : t % 16 = j % 16
  · have hjt : t = j := by omega
    rw [if_pos hsame, hjt]
  · rw [if_neg hsame]
    exact h j (by omega) (by omega)

-- The working variables of the standard, behind the names of call `t`.
def Registers (t : Nat) (regs : Vector (BitVec 32) 5) (w : Standard.Sha1.Working) : Prop :=
  view t regs 0 = w.a ∧ view t regs 1 = w.b ∧ view t regs 2 = w.c ∧ view t regs 3 = w.d ∧
    view t regs 4 = w.e

theorem view_set_set (t : Nat) (regs : Vector (BitVec 32) 5) (x : BitVec 32) (i : Fin 5) :
    view t ((regs.set (name t 4) x).set (name t 1) (S (view t (regs.set (name t 4) x) 1) 30)) i =
      if 1 = i then S (view t regs 1) 30 else if 4 = i then x else view t regs i := by
  rw [view_set, view_set, view_set, if_neg (by decide : (4 : Fin 5) ≠ 1)]

-- P under the names of call `t`: it writes e and b.
theorem view_P (F : BitVec 32 → BitVec 32 → BitVec 32 → BitVec 32) (K x : BitVec 32) (t : Nat)
    (regs : Vector (BitVec 32) 5) (i : Fin 5) :
    view t (P F K (name t 0) (name t 1) (name t 2) (name t 3) (name t 4) x regs) i =
      if 1 = i then (view t regs 1).rotateLeft 30
      else if 4 = i then
        view t regs 4 + ((view t regs 0).rotateLeft 5 +
          F (view t regs 1) (view t regs 2) (view t regs 3) + K + x)
      else view t regs i := by
  rw [← S_eq (view t regs 1) (by omega), ← S_eq (view t regs 0) (by omega)]
  exact view_set_set t regs _ i

theorem registers_call {data : Block} {t : Nat} {v : Locals} {w : Standard.Sha1.Working}
    (hwords : Words data t v.W) (hregs : Registers t v.regs w) :
    Registers (t + 1) (call t v).regs (Standard.Sha1.round data t w) := by
  obtain ⟨ha, hb, hc, hd, he⟩ := hregs
  have hview := fun i => (view_succ t (call t v).regs i).trans
    (view_P (F t) (K t) (wordOf t v.W) t v.regs i)
  simp only [wordOf_eq hwords, ha, hb, hc, hd, he, F_eq] at hview
  refine ⟨(hview 4).trans ?_, (hview 0).trans ha, hview 1, (hview 2).trans hc, (hview 3).trans hd⟩
  have hk : K t = Standard.Sha1.k t := rfl
  rw [if_neg (by decide), if_pos rfl, hk]
  simp only [Standard.Sha1.round]
  ac_rfl

theorem calls_eq (data : Block) (state : State) (t : Nat) :
    Words data t (calls t { W := Vector.ofFn (getUint32BE data), regs := state }).W ∧
      Registers t (calls t { W := Vector.ofFn (getUint32BE data), regs := state }).regs
        (rounds (Standard.Sha1.round data) t
          ⟨state[0], state[1], state[2], state[3], state[4]⟩) := by
  induction t with
  | zero =>
      refine ⟨words_zero data, ?_⟩
      simp only [Registers, calls, rounds, view, name_zero]
      exact ⟨rfl, rfl, rfl, rfl, rfl⟩
  | succ t ih =>
      obtain ⟨hwords, hregs⟩ := ih
      refine ⟨?_, registers_call hwords hregs⟩
      have hnext := words_call hwords
      rwa [← wordOf_eq hwords] at hnext

-- The unrolled rounds over sixteen words are the standard's eighty.
theorem sha1Process_eq (state : State) (data : Block) :
    sha1Process state data = Standard.Sha1.compress state data := by
  obtain ⟨ha, hb, hc, hd, he⟩ := (calls_eq data state 80).2
  rw [view_of_dvd (by decide)] at ha hb hc hd he
  apply Vector.ext
  intro i hi
  have hsum : (sha1Process state data)[i] = state[i] +
      (calls 80 { W := Vector.ofFn (getUint32BE data), regs := state }).regs[i] := by
    simp [sha1Process]
  rw [hsum]
  interval_cases i
  · exact congrArg (state[0] + ·) ha
  · exact congrArg (state[1] + ·) hb
  · exact congrArg (state[2] + ·) hc
  · exact congrArg (state[3] + ·) hd
  · exact congrArg (state[4] + ·) he

theorem starts_holds_sha1 (ctx : Context State) :
    Holds Standard.Sha1.compress Standard.Sha1.init [] 0 (sha1Starts ctx) :=
  starts_holds _ (rfl : (sha1Starts ctx).total0 = 0) rfl

theorem sha1Update_eq : sha1Update = update Standard.Sha1.compress := by
  have h : sha1Process = Standard.Sha1.compress := by
    funext state data
    exact sha1Process_eq state data
  funext ctx input
  rw [sha1Update, h]

-- The output of finish is the standard's digest of what has been counted.
theorem sha1Finish_eq {message : List UChar} {c : Nat} {ctx : Context State}
    (h : Holds Standard.Sha1.compress Standard.Sha1.init message c ctx) :
    (sha1Finish ctx).2 =
      (Blocks.absorb Standard.Sha1.compress Standard.Sha1.init
        (message ++ padding bytesBE message.length c)).toList.flatMap putUint32BE := by
  have hlt : message.length % 64 < 64 := Nat.mod_lt _ (by omega)
  generalize hpadn : (if message.length % 64 < 56 then 56 - message.length % 64
    else 120 - message.length % 64) = padn
  have hzeros : padn - 1 = (119 - message.length % 64) % 64 := by
    rw [← hpadn]
    split <;> omega
  have htake : sha1Padding.take padn = 0x80 :: List.replicate (padn - 1) 0 := by
    have hpos : padn = padn - 1 + 1 := by
      rw [← hpadn]
      split <;> omega
    have hle : padn - 1 ≤ 63 := by omega
    rw [sha1Padding, hpos, List.take_succ_cons, List.take_replicate, Nat.min_eq_left hle]
    rfl
  have hend := updates_padding h bytesBE (putUint32BE_append _ _) hzeros
  simp only [sha1Finish, sha1Update_eq, h.left, hpadn, htake]
  rw [← hend]

-- A context that has read pieces none of which is so long that its length is cut off.
theorem updates_sha1 (ctx : Context State) (pieces : List (List UChar))
    (h : ∀ p ∈ pieces, p.length < 2 ^ 32) :
    Holds Standard.Sha1.compress Standard.Sha1.init pieces.flatten pieces.flatten.length
      (pieces.foldl sha1Update (sha1Starts ctx)) := by
  have hrun := updates_holds (starts_holds_sha1 ctx) pieces
  rwa [List.nil_append, Nat.zero_add, counted_eq h, ← sha1Update_eq] at hrun

-- Whatever way a message is cut into calls of update, finish gives its SHA-1. (A call counts
-- the low 32 bits of its length only.)
theorem sha1Finish_updates (ctx : Context State) (pieces : List (List UChar))
    (h : ∀ p ∈ pieces, p.length < 2 ^ 32) :
    (sha1Finish (pieces.foldl sha1Update (sha1Starts ctx))).2 =
      Standard.Sha1.sha1 pieces.flatten := sha1Finish_eq (updates_sha1 ctx pieces h)

theorem sha1Finish_updates_two :
    (sha1Finish ([[0x61], [0x62, 0x63]].foldl sha1Update
      (sha1Starts ⟨7, 9, Standard.Sha1.init, Vector.replicate 64 1⟩))).2 =
      Standard.Sha1.sha1 [0x61, 0x62, 0x63] :=
  sha1Finish_updates ⟨7, 9, Standard.Sha1.init, Vector.replicate 64 1⟩ [[0x61], [0x62, 0x63]]
    (by simp)

-- The calls a caller makes on a keyed context.
inductive HmacCall where
  | update (input : List UChar)
  | finish
  | reset

def HmacCall.apply (h : HmacContext) : HmacCall → HmacContext
  | .update input => sha1HmacUpdate h input
  | .finish => (sha1HmacFinish h).1
  | .reset => sha1HmacReset h

end Rpcsx.Crypto.Sha1

namespace Rpcsx.Crypto.Sha256

open Data Rotating Standard

abbrev State := Vector (BitVec 32) 8

def K : Vector (BitVec 32) 64 :=
  #v[0x428A2F98, 0x71374491, 0xB5C0FBCF, 0xE9B5DBA5, 0x3956C25B, 0x59F111F1, 0x923F82A4, 0xAB1C5ED5,
    0xD807AA98, 0x12835B01, 0x243185BE, 0x550C7DC3, 0x72BE5D74, 0x80DEB1FE, 0x9BDC06A7, 0xC19BF174,
    0xE49B69C1, 0xEFBE4786, 0x0FC19DC6, 0x240CA1CC, 0x2DE92C6F, 0x4A7484AA, 0x5CB0A9DC, 0x76F988DA,
    0x983E5152, 0xA831C66D, 0xB00327C8, 0xBF597FC7, 0xC6E00BF3, 0xD5A79147, 0x06CA6351, 0x14292967,
    0x27B70A85, 0x2E1B2138, 0x4D2C6DFC, 0x53380D13, 0x650A7354, 0x766A0ABB, 0x81C2C92E, 0x92722C85,
    0xA2BFE8A1, 0xA81A664B, 0xC24B8B70, 0xC76C51A3, 0xD192E819, 0xD6990624, 0xF40E3585, 0x106AA070,
    0x19A4C116, 0x1E376C08, 0x2748774C, 0x34B0BCB5, 0x391C0CB3, 0x4ED8AA4A, 0x5B9CCA4F, 0x682E6FF3,
    0x748F82EE, 0x78A5636F, 0x84C87814, 0x8CC70208, 0x90BEFFFA, 0xA4506CEB, 0xBEF9A3F7, 0xC67178F2]

def SHR (x : BitVec 32) (n : Nat) : BitVec 32 := (x &&& 0xFFFFFFFF) >>> n

def ROTR (x : BitVec 32) (n : Nat) : BitVec 32 := SHR x n ||| (x <<< (32 - n))

def S0 (x : BitVec 32) : BitVec 32 := ROTR x 7 ^^^ ROTR x 18 ^^^ SHR x 3

def S1 (x : BitVec 32) : BitVec 32 := ROTR x 17 ^^^ ROTR x 19 ^^^ SHR x 10

def S2 (x : BitVec 32) : BitVec 32 := ROTR x 2 ^^^ ROTR x 13 ^^^ ROTR x 22

def S3 (x : BitVec 32) : BitVec 32 := ROTR x 6 ^^^ ROTR x 11 ^^^ ROTR x 25

def F0 (x y z : BitVec 32) : BitVec 32 := (x &&& y) ||| (z &&& (x ||| y))

def F1 (x y z : BitVec 32) : BitVec 32 := z ^^^ (x &&& (y ^^^ z))

-- GET_UINT32_BE(n, data, 4 * i)
def getUint32BE (data : Block) (i : Fin 16) : BitVec 32 :=
  ((data[4 * i.val].setWidth 32) <<< 24) ||| ((data[4 * i.val + 1].setWidth 32) <<< 16) |||
    ((data[4 * i.val + 2].setWidth 32) <<< 8) ||| (data[4 * i.val + 3].setWidth 32)

-- The locals W[64] and A[8]; W is only written in front of where it is read.
structure Locals where
  W : Vector (BitVec 32) 64
  A : Vector (BitVec 32) 8

-- The value of R(t), which also stays in W[t]; W[t] for the first sixteen calls.
def wordOf (t : Nat) (W : Vector (BitVec 32) 64) : BitVec 32 :=
  if t < 16 then W[Fin.ofNat 64 t]
  else
    S1 W[Fin.ofNat 64 (t - 2)] + W[Fin.ofNat 64 (t - 7)] + S0 W[Fin.ofNat 64 (t - 15)] +
      W[Fin.ofNat 64 (t - 16)]

def P (a b c d e f g h : Fin 8) (x K : BitVec 32) (A : Vector (BitVec 32) 8) :
    Vector (BitVec 32) 8 :=
  let temp1 := A[h] + S3 A[e] + F1 A[e] A[f] A[g] + K + x
  let temp2 := S2 A[a] + F0 A[a] A[b] A[c]
  let A := A.set d (A[d] + temp1)
  A.set h (temp1 + temp2)

-- Call `t` of P, in the eights of the two loops: P(A[0], .., A[7], ..), P(A[7], A[0], ..) and so on.
def call (t : Nat) (v : Locals) : Locals :=
  let x := wordOf t v.W
  { W := v.W.set (Fin.ofNat 64 t) x
    A := P (name t 0) (name t 1) (name t 2) (name t 3) (name t 4) (name t 5) (name t 6) (name t 7)
      x K[Fin.ofNat 64 t] v.A }

def calls : Nat → Locals → Locals
  | 0, v => v
  | t + 1, v => call t (calls t v)

-- `W` is what the array on the stack holds before.
def internalSha256Process (W : Vector (BitVec 32) 64) (state : State) (data : Block) : State :=
  let W := Vector.ofFn fun i : Fin 64 => if h : i.val < 16 then getUint32BE data ⟨i.val, h⟩ else W[i]
  let v := calls 64 { W, A := state }
  Vector.zipWith (· + ·) state v.A

-- What the array held does not matter (internalSha256Process_eq).
def process : State → Block → State := internalSha256Process (Vector.replicate 64 0)

-- The constants of the rounds, as a function of the round.
def constant (t : Nat) : BitVec 32 := K[Fin.ofNat 64 t]

-- They are what the standard derives from the first 64 primes.
theorem constant_cubeRoot :
    ∀ t : Fin 64, Standard.Sha256.CubeRootBits (Standard.Sha256.primes.getD t 0) (constant t) := by
  decide +kernel

theorem ROTR_eq (x : BitVec 32) {n : Nat} (h : n < 32) : ROTR x n = x.rotateRight n := by
  rw [ROTR, SHR, and_mask, BitVec.rotateRight_def, Nat.mod_eq_of_lt h]

theorem S0_eq (x : BitVec 32) : S0 x = Standard.Sha256.sigma0 x := by
  rw [S0, ROTR_eq x (by omega), ROTR_eq x (by omega), SHR, and_mask]
  rfl

theorem S1_eq (x : BitVec 32) : S1 x = Standard.Sha256.sigma1 x := by
  rw [S1, ROTR_eq x (by omega), ROTR_eq x (by omega), SHR, and_mask]
  rfl

theorem S2_eq (x : BitVec 32) : S2 x = Standard.Sha256.bigSigma0 x := by
  rw [S2, ROTR_eq x (by omega), ROTR_eq x (by omega), ROTR_eq x (by omega)]
  rfl

theorem S3_eq (x : BitVec 32) : S3 x = Standard.Sha256.bigSigma1 x := by
  rw [S3, ROTR_eq x (by omega), ROTR_eq x (by omega), ROTR_eq x (by omega)]
  rfl

theorem F0_eq (x y z : BitVec 32) : F0 x y z = maj x y z := maj_eq x y z

theorem F1_eq (x y z : BitVec 32) : F1 x y z = ch x y z := ch_eq x y z

-- The words of the schedule that are in place before call `t`.
def Words (data : Block) (t : Nat) (W : Vector (BitVec 32) 64) : Prop :=
  ∀ j, j < max t 16 → W[Fin.ofNat 64 j] = Standard.Sha256.schedule data j

theorem wordOf_eq {data : Block} {t : Nat} {W : Vector (BitVec 32) 64} (h : Words data t W) :
    wordOf t W = Standard.Sha256.schedule data t := by
  by_cases ht : t < 16
  · rw [wordOf, if_pos ht, h t (by omega)]
  · rw [wordOf, if_neg ht, Standard.Sha256.schedule, dif_neg ht, S0_eq, S1_eq,
      h (t - 2) (by omega), h (t - 7) (by omega), h (t - 15) (by omega), h (t - 16) (by omega)]

theorem words_call {data : Block} {t : Nat} {W : Vector (BitVec 32) 64} (ht : t < 64)
    (h : Words data t W) :
    Words data (t + 1) (W.set (Fin.ofNat 64 t) (Standard.Sha256.schedule data t)) := by
  intro j hj
  simp only [Fin.getElem_fin, Vector.getElem_set, Fin.val_ofNat]
  by_cases hsame : t % 64 = j % 64
  · have hjt : t = j := by omega
    rw [if_pos hsame, hjt]
  · rw [if_neg hsame]
    exact h j (by omega)

theorem view_set_set (t : Nat) (A : Vector (BitVec 32) 8) (x y : BitVec 32) (i : Fin 8) :
    view t ((A.set (name t 3) x).set (name t 7) y) i =
      if 7 = i then y else if 3 = i then x else view t A i := by
  rw [view_set, view_set]

-- P under the names of call `t`: it writes d and h.
theorem view_P (x k : BitVec 32) (t : Nat) (A : Vector (BitVec 32) 8) (i : Fin 8) :
    view t (P (name t 0) (name t 1) (name t 2) (name t 3) (name t 4) (name t 5) (name t 6)
        (name t 7) x k A) i =
      if 7 = i then
        view t A 7 + S3 (view t A 4) + F1 (view t A 4) (view t A 5) (view t A 6) + k + x +
          (S2 (view t A 0) + F0 (view t A 0) (view t A 1) (view t A 2))
      else if 3 = i then
        view t A 3 + (view t A 7 + S3 (view t A 4) + F1 (view t A 4) (view t A 5) (view t A 6) +
          k + x)
      else view t A i :=
  view_set_set t A _ _ i

-- The working variables of the standard, behind the names of call `t`.
def Registers (t : Nat) (A : Vector (BitVec 32) 8) (w : Standard.Sha256.Working) : Prop :=
  view t A 0 = w.a ∧ view t A 1 = w.b ∧ view t A 2 = w.c ∧ view t A 3 = w.d ∧
    view t A 4 = w.e ∧ view t A 5 = w.f ∧ view t A 6 = w.g ∧ view t A 7 = w.h

theorem registers_call {data : Block} {t : Nat} {v : Locals} {w : Standard.Sha256.Working}
    (hwords : Words data t v.W) (hregs : Registers t v.A w) :
    Registers (t + 1) (call t v).A (Standard.Sha256.round constant data t w) := by
  obtain ⟨ha, hb, hc, hd, he, hf, hg, hh⟩ := hregs
  have hview := fun i => (view_succ t (call t v).A i).trans
    (view_P (wordOf t v.W) K[Fin.ofNat 64 t] t v.A i)
  simp only [wordOf_eq hwords, ha, hb, hc, hd, he, hf, hg, hh, S2_eq, S3_eq, F0_eq, F1_eq] at hview
  exact ⟨hview 7, (hview 0).trans ha, (hview 1).trans hb, (hview 2).trans hc, hview 3,
    (hview 4).trans he, (hview 5).trans hf, (hview 6).trans hg⟩

theorem calls_eq {data : Block} {W : Vector (BitVec 32) 64} (hW : Words data 0 W) (state : State)
    {t : Nat} (ht : t ≤ 64) :
    Words data t (calls t { W, A := state }).W ∧
      Registers t (calls t { W, A := state }).A (rounds (Standard.Sha256.round constant data) t
        ⟨state[0], state[1], state[2], state[3], state[4], state[5], state[6], state[7]⟩) := by
  induction t with
  | zero =>
      refine ⟨hW, ?_⟩
      simp only [Registers, calls, rounds, view, name_zero]
      exact ⟨rfl, rfl, rfl, rfl, rfl, rfl, rfl, rfl⟩
  | succ t ih =>
      obtain ⟨hwords, hregs⟩ := ih (by omega)
      refine ⟨?_, registers_call hwords hregs⟩
      have hnext := words_call (by omega) hwords
      rwa [← wordOf_eq hwords] at hnext

theorem words_zero (data : Block) (W : Vector (BitVec 32) 64) :
    Words data 0 (Vector.ofFn fun i : Fin 64 =>
      if h : i.val < 16 then getUint32BE data ⟨i.val, h⟩ else W[i]) := by
  intro j hj
  have hj16 : j < 16 := by omega
  rw [Standard.Sha256.schedule, dif_pos hj16]
  simp [Nat.mod_eq_of_lt (by omega : j < 64), hj16, append_bytes, getUint32BE, wordBE]

end Rpcsx.Crypto.Sha256

namespace Rpcsx.Crypto.Md5

open Data Rotating

abbrev State := Vector (BitVec 32) 4

local instance instNeZeroFour : NeZero 4 := ⟨by decide⟩

-- GET_UINT32_LE(n, data, 4 * i)
def getUint32LE (data : Block) (i : Fin 16) : BitVec 32 :=
  (data[4 * i.val].setWidth 32) ||| ((data[4 * i.val + 1].setWidth 32) <<< 8) |||
    ((data[4 * i.val + 2].setWidth 32) <<< 16) ||| ((data[4 * i.val + 3].setWidth 32) <<< 24)

def S (x : BitVec 32) (n : Nat) : BitVec 32 := (x <<< n) ||| ((x &&& 0xFFFFFFFF) >>> (32 - n))

def F (t : Nat) (x y z : BitVec 32) : BitVec 32 :=
  if t < 16 then z ^^^ (x &&& (y ^^^ z))
  else if t < 32 then y ^^^ (z &&& (x ^^^ y))
  else if t < 48 then x ^^^ y ^^^ z
  else y ^^^ (x ||| ~~~z)

def P (F : BitVec 32 → BitVec 32 → BitVec 32 → BitVec 32) (X : Vector (BitVec 32) 16)
    (a b c d : Fin 4) (k : Fin 16) (s : Nat) (t : BitVec 32) (regs : Vector (BitVec 32) 4) :
    Vector (BitVec 32) 4 :=
  let regs := regs.set a (regs[a] + (F regs[b] regs[c] regs[d] + X[k] + t))
  regs.set a (S regs[a] s + regs[b])

-- k, s and t of the calls of P in their order. The registers are renamed from one to the next:
-- P(A, B, C, D, ..), P(D, A, B, C, ..), P(C, D, A, B, ..), P(B, C, D, A, ..).
def table : Vector (Fin 16 × Nat × BitVec 32) 64 :=
  #v[(0, 7, 0xD76AA478), (1, 12, 0xE8C7B756), (2, 17, 0x242070DB), (3, 22, 0xC1BDCEEE),
    (4, 7, 0xF57C0FAF), (5, 12, 0x4787C62A), (6, 17, 0xA8304613), (7, 22, 0xFD469501),
    (8, 7, 0x698098D8), (9, 12, 0x8B44F7AF), (10, 17, 0xFFFF5BB1), (11, 22, 0x895CD7BE),
    (12, 7, 0x6B901122), (13, 12, 0xFD987193), (14, 17, 0xA679438E), (15, 22, 0x49B40821),
    (1, 5, 0xF61E2562), (6, 9, 0xC040B340), (11, 14, 0x265E5A51), (0, 20, 0xE9B6C7AA),
    (5, 5, 0xD62F105D), (10, 9, 0x02441453), (15, 14, 0xD8A1E681), (4, 20, 0xE7D3FBC8),
    (9, 5, 0x21E1CDE6), (14, 9, 0xC33707D6), (3, 14, 0xF4D50D87), (8, 20, 0x455A14ED),
    (13, 5, 0xA9E3E905), (2, 9, 0xFCEFA3F8), (7, 14, 0x676F02D9), (12, 20, 0x8D2A4C8A),
    (5, 4, 0xFFFA3942), (8, 11, 0x8771F681), (11, 16, 0x6D9D6122), (14, 23, 0xFDE5380C),
    (1, 4, 0xA4BEEA44), (4, 11, 0x4BDECFA9), (7, 16, 0xF6BB4B60), (10, 23, 0xBEBFBC70),
    (13, 4, 0x289B7EC6), (0, 11, 0xEAA127FA), (3, 16, 0xD4EF3085), (6, 23, 0x04881D05),
    (9, 4, 0xD9D4D039), (12, 11, 0xE6DB99E5), (15, 16, 0x1FA27CF8), (2, 23, 0xC4AC5665),
    (0, 6, 0xF4292244), (7, 10, 0x432AFF97), (14, 15, 0xAB9423A7), (5, 21, 0xFC93A039),
    (12, 6, 0x655B59C3), (3, 10, 0x8F0CCC92), (10, 15, 0xFFEFF47D), (1, 21, 0x85845DD1),
    (8, 6, 0x6FA87E4F), (15, 10, 0xFE2CE6E0), (6, 15, 0xA3014314), (13, 21, 0x4E0811A1),
    (4, 6, 0xF7537E82), (11, 10, 0xBD3AF235), (2, 15, 0x2AD7D2BB), (9, 21, 0xEB86D391)]

def call (X : Vector (BitVec 32) 16) (t : Nat) (regs : Vector (BitVec 32) 4) :
    Vector (BitVec 32) 4 :=
  let (k, s, sine) := table[Fin.ofNat 64 t]
  P (F t) X (name t 0) (name t 1) (name t 2) (name t 3) k s sine regs

def calls (X : Vector (BitVec 32) 16) : Nat → Vector (BitVec 32) 4 → Vector (BitVec 32) 4
  | 0, regs => regs
  | t + 1, regs => call X t (calls X t regs)

open Standard

-- The constants of the steps, as a function of the step.
def sine (t : Nat) : BitVec 32 := table[Fin.ofNat 64 t].2.2

-- The words and the shifts of the table are the standard's.
theorem table_standard : ∀ t : Fin 64, (table.get t).1 = Standard.Md5.word t ∧
    (table.get t).2.1 = Standard.Md5.shift t ∧ (table.get t).2.1 < 32 := by decide

theorem table_eq {t : Nat} (ht : t < 64) : table[Fin.ofNat 64 t].1 = Standard.Md5.word t ∧
    table[Fin.ofNat 64 t].2.1 = Standard.Md5.shift t ∧ table[Fin.ofNat 64 t].2.1 < 32 := by
  obtain ⟨hword, hshift, hlt⟩ := table_standard (Fin.ofNat 64 t)
  have hval : (Fin.ofNat 64 t).val = t := Nat.mod_eq_of_lt ht
  exact ⟨hword.trans (congrArg Standard.Md5.word hval),
    hshift.trans (congrArg Standard.Md5.shift hval), hlt⟩

theorem S_eq (x : BitVec 32) {n : Nat} (h : n < 32) : S x n = x.rotateLeft n := by
  rw [S, and_mask, BitVec.rotateLeft_def, Nat.mod_eq_of_lt h]

theorem or_reverse (a b c d : BitVec 32) : a ||| b ||| c ||| d = d ||| c ||| b ||| a := by
  ac_rfl

theorem getUint32LE_eq (data : Block) (i : Fin 16) : getUint32LE data i = wordLE data i := by
  rw [getUint32LE, wordLE, ← append_bytes, or_reverse]

theorem words_getElem (data : Block) (k : Fin 16) :
    (Vector.ofFn (getUint32LE data))[k] = wordLE data k := by
  simp [getUint32LE_eq]

theorem first_eq (x y z : BitVec 32) : z ^^^ (x &&& (y ^^^ z)) = (x &&& y) ||| (~~~x &&& z) := by
  apply BitVec.eq_of_getLsbD_eq
  intro i hi
  simp only [BitVec.getLsbD_xor, BitVec.getLsbD_and, BitVec.getLsbD_or, BitVec.getLsbD_not, hi]
  cases x.getLsbD i <;> cases y.getLsbD i <;> cases z.getLsbD i <;> rfl

theorem second_eq (x y z : BitVec 32) : y ^^^ (z &&& (x ^^^ y)) = (x &&& z) ||| (y &&& ~~~z) := by
  apply BitVec.eq_of_getLsbD_eq
  intro i hi
  simp only [BitVec.getLsbD_xor, BitVec.getLsbD_and, BitVec.getLsbD_or, BitVec.getLsbD_not, hi]
  cases x.getLsbD i <;> cases y.getLsbD i <;> cases z.getLsbD i <;> rfl

theorem F_eq (t : Nat) (x y z : BitVec 32) : F t x y z = Standard.Md5.f t x y z := by
  rw [F, Standard.Md5.f, first_eq, second_eq]

theorem view_set_set (t : Nat) (regs : Vector (BitVec 32) 4) (x : BitVec 32) (s : Nat)
    (i : Fin 4) :
    view t ((regs.set (name t 0) x).set (name t 0)
        (S (view t (regs.set (name t 0) x) 0) s + view t (regs.set (name t 0) x) 1)) i =
      if 0 = i then S x s + view t regs 1 else view t regs i := by
  rw [view_set, view_set, view_set, view_set, if_pos rfl, if_neg (by decide : (0 : Fin 4) ≠ 1)]
  split <;> simp_all

-- P under the names of step `t`: it writes a.
theorem view_P (F : BitVec 32 → BitVec 32 → BitVec 32 → BitVec 32) (X : Vector (BitVec 32) 16)
    (k : Fin 16) (s : Nat) (x : BitVec 32) (t : Nat) (regs : Vector (BitVec 32) 4) (i : Fin 4) :
    view t (P F X (name t 0) (name t 1) (name t 2) (name t 3) k s x regs) i =
      if 0 = i then
        S (view t regs 0 + (F (view t regs 1) (view t regs 2) (view t regs 3) + X[k] + x)) s +
          view t regs 1
      else view t regs i :=
  view_set_set t regs _ s i

-- The working variables of the standard, behind the names of step `t`.
def Registers (t : Nat) (regs : Vector (BitVec 32) 4) (w : Standard.Md5.Working) : Prop :=
  view t regs 0 = w.a ∧ view t regs 1 = w.b ∧ view t regs 2 = w.c ∧ view t regs 3 = w.d

theorem registers_call {data : Block} {t : Nat} (ht : t < 64) {regs : Vector (BitVec 32) 4}
    {w : Standard.Md5.Working} (hregs : Registers t regs w) :
    Registers (t + 1) (call (Vector.ofFn (getUint32LE data)) t regs)
      (Standard.Md5.round sine data t w) := by
  obtain ⟨ha, hb, hc, hd⟩ := hregs
  obtain ⟨hword, hshift, hlt⟩ := table_eq ht
  have hview := fun i => (view_succ t (call (Vector.ofFn (getUint32LE data)) t regs) i).trans
    (view_P (F t) (Vector.ofFn (getUint32LE data)) table[Fin.ofNat 64 t].1
      table[Fin.ofNat 64 t].2.1 table[Fin.ofNat 64 t].2.2 t regs i)
  simp only [S_eq _ hlt, words_getElem, hword, ha, hb, hc, hd, F_eq] at hview
  refine ⟨(hview 3).trans hd, (hview 0).trans ?_, (hview 1).trans hb, (hview 2).trans hc⟩
  rw [if_pos rfl, hshift, BitVec.add_comm, ← BitVec.add_assoc, ← BitVec.add_assoc]
  rfl

theorem calls_eq (data : Block) (state : State) {t : Nat} (ht : t ≤ 64) :
    Registers t (calls (Vector.ofFn (getUint32LE data)) t state)
      (rounds (Standard.Md5.round sine data) t ⟨state[0], state[1], state[2], state[3]⟩) := by
  induction t with
  | zero =>
      simp only [Registers, calls, rounds, view, name_zero]
      exact ⟨rfl, rfl, rfl, rfl⟩
  | succ t ih => exact registers_call (by omega) (ih (by omega))

end Rpcsx.Crypto.Md5
