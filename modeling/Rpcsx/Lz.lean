import Mathlib.Algebra.Order.GroupWithZero.Basic
import Mathlib.Algebra.Order.Ring.Int
import Mathlib.Data.BitVec
import Mathlib.Logic.Function.Basic
import Mathlib.Logic.Relation

namespace Rpcsx.Lz

abbrev Byte := BitVec 8

-- An access outside of its range, or a loop that is not at its end.
inductive Fault where
  | table
  | source
  | write
  | running
deriving DecidableEq

structure Decoder where
  input : Nat → Byte
  src : Nat := 0
  range : BitVec 32 := 0xFFFFFFFF
  code : BitVec 32
  table : Nat → Byte

def tableSize : Nat := 0xCC8

def decodeRange (d : Decoder) : Decoder :=
  if d.range >>> 24 = 0 then
    { d with
      range := d.range <<< 8
      code := (d.code <<< 8) + (d.input (d.src + 5)).setWidth 32
      src := d.src + 1 }
  else d

def probe (d : Decoder) (position : Nat) : Bool × Decoder :=
  let d := decodeRange d
  let c := d.table position
  let val := (d.range >>> 8) * c.setWidth 32
  let c := c - c >>> 3
  if d.code < val then
    (true, { d with range := val, table := Function.update d.table position (c + 31) })
  else
    (false, { d with
      code := d.code - val
      range := d.range - val
      table := Function.update d.table position c })

def decodeBit (d : Decoder) (position : Int) : Except Fault (Bool × Decoder) :=
  if 0 ≤ position ∧ position < tableSize then .ok (probe d position.toNat) else .error .table

-- An int keeps the low 32 bits of a number.
def wrap (i : Int) : Int := i.bmod (2 ^ 32)

-- (*index) <<= 1, with the bit that was read; in an int, and without a bound.
def pushExact (i : Int) (bit : Bool) : Int := 2 * i + bit.toInt

def pushInt (i : Int) (bit : Bool) : Int := wrap (pushExact i bit)

section Fields

variable (push : Int → Bool → Int)

-- The loop over the bits that have no entry of the table.
def directBits : Nat → Int → Decoder → Int × Decoder
  | 0, i, d => (i, d)
  | count + 1, i, d =>
      let d := { d with range := d.range >>> 1 }
      if d.code < d.range then directBits count (push i true) d
      else directBits count (push i false) { d with code := d.code - d.range }

def decodeHigh (position : Int) (index : Nat) (d : Decoder) : Except Fault (Int × Decoder) := do
  if index ≥ 3 then
    let (bit, d) ← decodeBit d position
    let i := push 1 bit
    if index ≥ 4 then
      let (bit, d) ← decodeBit d position
      let i := push i bit
      if index ≥ 5 then .ok (directBits push (index - 4) i (decodeRange d))
      else .ok (i, d)
    else .ok (i, d)
  else .ok (1, d)

def decodeLow (ptr step : Int) (index : Nat) (i : Int) (d : Decoder) :
    Except Fault (Int × Bool × Decoder) := do
  let (flag, d) ← decodeBit d ptr
  let i := push i flag
  if index ≥ 1 then
    let (bit, d) ← decodeBit d (ptr + step)
    let i := push i bit
    if index ≥ 2 then
      let (bit, d) ← decodeBit d (ptr + 2 * step)
      .ok (push i bit, flag, d)
    else .ok (i, flag, d)
  else .ok (i, flag, d)

def decodeField (high step ptr : Int) (index : Nat) (d : Decoder) :
    Except Fault (Int × Bool × Decoder) := do
  let (i, d) ← decodeHigh push (ptr + high) index d
  decodeLow push ptr step index i d

def decodeNumber (ptr : Int) (index : Nat) (d : Decoder) : Except Fault (Int × Bool × Decoder) :=
  decodeField push 0x18 0x8 ptr index d

def decodeWord (ptr : Int) (index : Nat) (d : Decoder) : Except Fault (Int × Bool × Decoder) :=
  decodeField push 4 1 ptr (index / 8) d

end Fields

def decodeLiteral (sect : Int) : Nat → Nat → Decoder → Except Fault (Nat × Decoder)
  | 0, _, _ => .error .running
  | count + 1, index, d => do
      let (bit, d) ← decodeBit d (sect + index)
      let index := 2 * index + bit.toNat
      if index >>> 8 = 0 then decodeLiteral sect count index d else .ok (index, d)

-- Identify the data length bit field.
def lengthField : Nat → Int → Int → Decoder → Except Fault (Int × Bool × Decoder)
  | 0, _, _, _ => .error .running
  | count + 1, sect, index, d => do
      let sect := sect + 8
      let (flag, d) ← decodeBit d sect
      let index := index + flag.toInt
      if flag ∧ index < 6 then lengthField count sect index d else .ok (index, flag, d)

-- Identify the data offset bit field.
def offsetField (sect : Int) (size : Int) : Nat → Nat → Decoder →
    Except Fault (Int × Bool × Decoder)
  | 0, _, _ => .error .running
  | count + 1, shift, d => do
      let diff := shift * 2 ^ 4 - size
      let (flag, d) ← decodeBit d (sect + shift * 2 ^ 3)
      if diff < 0 then offsetField sect size count (2 * shift + flag.toNat) d
      else .ok (diff, flag, d)

structure State where
  decoder : Decoder
  out : List Byte := []
  offset : Nat := 0
  prev : Byte := 0

inductive Token where
  | raw (byte : Byte)
  | stop
  | copy (length distance : Int)

section Run

variable (push : Int → Bool → Int) (head : Byte) (size : Nat)

-- The hardware takes a count above 31 modulo 32.
def literalSect (s : State) : Int :=
  (((s.out.length % 8 * 2 ^ 8 + s.prev.toNat) >>> (head.toNat % 32) % 8 * 0xFF : Nat) : Int) - 1

def numberSect (s : State) (index : Nat) : Nat :=
  index <<< 5 ||| (s.out.length <<< index % 4) <<< 3 ||| s.offset % 8

def decodeLength (s : State) (d : Decoder) : Except Fault (Int × Int × Decoder) := do
  let (index, flag, d) ← lengthField 7 (s.offset + 0xB68) (-1) d
  if index ≥ 0 ∨ flag then
    let (length, _, d) ← decodeNumber push (0xBA8 + numberSect s index.toNat) index.toNat d
    .ok (index, length, d)
  else .ok (index, 1, d)

def decodeOffset (sect size : Int) (d : Decoder) : Except Fault (Int × Decoder) := do
  let (diff, flag, d) ← offsetField sect size 6 1 d
  if diff > 0 ∨ flag then
    let diff := if flag then diff else diff - 8
    let (distance, _, d) ← decodeWord push (0x928 + diff) diff.toNat d
    .ok (distance, d)
  else .ok (1, d)

def decodeToken (s : State) : Except Fault (Token × Decoder) := do
  let (bit, d) ← decodeBit s.decoder (s.offset + 0xB68)
  if bit then
    let (index, length, d) ← decodeLength push s d
    if length = 0xFF then .ok (.stop, d)
    else
      let (distance, d) ←
        if length ≤ 2 then decodeOffset push (index + 0x7F1 + 0xF8) 0x40 d
        else decodeOffset push (index + 0x7F1) 0x160 d
      .ok (.copy length distance, d)
  else if s.out.length = size then .ok (.stop, d)
  else
    let (index, d) ← decodeLiteral (literalSect head s) 8 1 d
    .ok (.raw (.ofNat 8 index), d)

def write (out : List Byte) (byte : Byte) : Except Fault (List Byte) :=
  if out.length < size then .ok (out ++ [byte]) else .error .write

def copyBytes : Nat → Int → List Byte → Except Fault (List Byte)
  | 0, _, out => .ok out
  | count + 1, source, out =>
      if h : 0 ≤ source ∧ source < out.length then do
        let out ← write size out (out.get ⟨source.toNat, by omega⟩)
        copyBytes count (source + 1) out
      else .error .source

inductive Outcome where
  | done (result : Int)
  | next (s : State)

def perform (s : State) : Token × Decoder → Except Fault Outcome
  | (.stop, _) => .ok (.done (wrap s.out.length))
  | (.raw byte, d) => do
      let out ← write size s.out byte
      .ok (.next { decoder := d, out, offset := s.offset - 1, prev := byte })
  | (.copy length distance, d) =>
      let bufStart := s.out.length - distance
      let bufEnd := s.out.length + length + 1
      if bufStart < 0 then .ok (.done (-1))
      else if bufEnd > size then .ok (.done (-1))
      else do
        let out ← copyBytes size (length + 1).toNat bufStart s.out
        let offset := (bufEnd.toNat + 1) % 2 + 6
        .ok (.next { decoder := d, out, offset, prev := out.getLastD 0 })

def step (s : State) : Except Fault Outcome := do
  perform size s (← decodeToken pushInt head size s)

def loop : Nat → State → Except Fault (Int × List Byte)
  | 0, _ => .error .running
  | fuel + 1, s => do
      match ← step head size s with
      | .done result => .ok (result, s.out)
      | .next s => loop fuel s

end Run

def declared (input : Nat → Byte) : BitVec 32 := input 1 ++ input 2 ++ input 3 ++ input 4

def start (input : Nat → Byte) : State :=
  { decoder := { input, code := declared input, table := fun i => if i < 0xCA8 then 0x80 else 0 } }

def decompress (input : Nat → Byte) (size : BitVec 32) : Except Fault (Int × List Byte) :=
  if input 0 > 0x80 then
    if declared input ≤ size then
      .ok (0, (List.range (declared input).toNat).map fun i => input (5 + i))
    else .ok (-1, [])
  else loop (input 0) size.toNat (size.toNat + 1) (start input)

section Reading

variable {d : Decoder}

theorem decodeBit_ok (d : Decoder) {position : Int} (h : 0 ≤ position ∧ position < tableSize) :
    ∃ bit d', decodeBit d position = .ok (bit, d') :=
  ⟨_, _, if_pos h⟩

-- A number of count bits below its leading one, and the int that holds it.
structure Spells (count : Nat) (exact held : Int) : Prop where
  lower : 2 ^ count ≤ exact
  upper : exact < 2 ^ (count + 1)
  held_eq : held = wrap exact

theorem spells_one : Spells 0 1 1 := ⟨by decide, by decide, by decide⟩

theorem Spells.push {count : Nat} {exact held : Int} (h : Spells count exact held) (bit : Bool) :
    Spells (count + 1) (pushExact exact bit) (pushInt held bit) := by
  obtain ⟨hlower, hupper, rfl⟩ := h
  have hbit : 0 ≤ bit.toInt ∧ bit.toInt ≤ 1 := by cases bit <;> decide
  refine ⟨?_, ?_, ?_⟩
  · rw [pushExact, pow_succ]
    omega
  · rw [pushExact, pow_succ]
    omega
  · rw [pushInt, pushExact, pushExact, wrap, wrap, wrap, ← Int.bmod_add_bmod, Int.mul_bmod_bmod,
      Int.bmod_add_bmod]

theorem directBits_spells (count : Nat) {k : Nat} {exact held : Int} (h : Spells k exact held) :
    ∃ exact' held' d', directBits pushExact count exact d = (exact', d') ∧
      directBits pushInt count held d = (held', d') ∧ Spells (k + count) exact' held' := by
  induction count generalizing k exact held d with
  | zero => exact ⟨exact, held, d, rfl, rfl, h⟩
  | succ count ih =>
      rw [directBits, directBits, show k + (count + 1) = k + 1 + count by omega]
      by_cases hbit : d.code < d.range >>> 1
      · rw [if_pos hbit, if_pos hbit]
        exact ih (h.push true)
      · rw [if_neg hbit, if_neg hbit]
        exact ih (h.push false)

theorem decodeHigh_spells {position : Int} (h : 0 ≤ position ∧ position < tableSize) (index : Nat) :
    ∃ exact held d', decodeHigh pushExact position index d = .ok (exact, d') ∧
      decodeHigh pushInt position index d = .ok (held, d') ∧ Spells (index - 2) exact held := by
  obtain ⟨first, d₁, h₁⟩ := decodeBit_ok d h
  obtain ⟨second, d₂, h₂⟩ := decodeBit_ok d₁ h
  have hone := spells_one.push first
  have htwo := hone.push second
  by_cases h3 : index ≥ 3
  · by_cases h4 : index ≥ 4
    · by_cases h5 : index ≥ 5
      · obtain ⟨exact, held, d', hexact, hheld, hspells⟩ :=
          directBits_spells (index - 4) htwo (d := decodeRange d₂)
        rw [show 0 + 1 + 1 + (index - 4) = index - 2 by omega] at hspells
        refine ⟨exact, held, d', ?_, ?_, hspells⟩
        · simp only [decodeHigh, if_pos h3, if_pos h4, if_pos h5, h₁, h₂, bind, Except.bind, hexact]
        · simp only [decodeHigh, if_pos h3, if_pos h4, if_pos h5, h₁, h₂, bind, Except.bind, hheld]
      · rw [show 0 + 1 + 1 = index - 2 by omega] at htwo
        refine ⟨_, _, d₂, ?_, ?_, htwo⟩
        · simp only [decodeHigh, if_pos h3, if_pos h4, if_neg h5, h₁, h₂, bind, Except.bind]
        · simp only [decodeHigh, if_pos h3, if_pos h4, if_neg h5, h₁, h₂, bind, Except.bind]
    · rw [show 0 + 1 = index - 2 by omega] at hone
      refine ⟨_, _, d₁, ?_, ?_, hone⟩
      · simp only [decodeHigh, if_pos h3, if_neg h4, h₁, bind, Except.bind]
      · simp only [decodeHigh, if_pos h3, if_neg h4, h₁, bind, Except.bind]
  · refine ⟨1, 1, d, ?_, ?_, ?_⟩
    · rw [decodeHigh, if_neg h3]
    · rw [decodeHigh, if_neg h3]
    · rw [show index - 2 = 0 by omega]
      exact spells_one

theorem decodeLow_spells {ptr stride : Int} (hstride : 0 ≤ stride)
    (h : 0 ≤ ptr ∧ ptr + 2 * stride < tableSize) (index : Nat) {k : Nat} {exact held : Int}
    (hspells : Spells k exact held) :
    ∃ exact' held' flag d', decodeLow pushExact ptr stride index exact d = .ok (exact', flag, d') ∧
      decodeLow pushInt ptr stride index held d = .ok (held', flag, d') ∧
      Spells (k + 1 + min index 2) exact' held' := by
  obtain ⟨first, d₁, h₁⟩ := decodeBit_ok d (show 0 ≤ ptr ∧ ptr < tableSize by omega)
  obtain ⟨second, d₂, h₂⟩ :=
    decodeBit_ok d₁ (show 0 ≤ ptr + stride ∧ ptr + stride < tableSize by omega)
  obtain ⟨third, d₃, h₃⟩ :=
    decodeBit_ok d₂ (show 0 ≤ ptr + 2 * stride ∧ ptr + 2 * stride < tableSize by omega)
  have hone := hspells.push first
  have htwo := hone.push second
  have hthree := htwo.push third
  by_cases hi1 : index ≥ 1
  · by_cases hi2 : index ≥ 2
    · rw [show k + 1 + 1 + 1 = k + 1 + min index 2 by omega] at hthree
      refine ⟨_, _, first, d₃, ?_, ?_, hthree⟩
      · simp only [decodeLow, if_pos hi1, if_pos hi2, h₁, h₂, h₃, bind, Except.bind]
      · simp only [decodeLow, if_pos hi1, if_pos hi2, h₁, h₂, h₃, bind, Except.bind]
    · rw [show k + 1 + 1 = k + 1 + min index 2 by omega] at htwo
      refine ⟨_, _, first, d₂, ?_, ?_, htwo⟩
      · simp only [decodeLow, if_pos hi1, if_neg hi2, h₁, h₂, bind, Except.bind]
      · simp only [decodeLow, if_pos hi1, if_neg hi2, h₁, h₂, bind, Except.bind]
  · rw [show k + 1 = k + 1 + min index 2 by omega] at hone
    refine ⟨_, _, first, d₁, ?_, ?_, hone⟩
    · simp only [decodeLow, if_neg hi1, h₁, bind, Except.bind]
    · simp only [decodeLow, if_neg hi1, h₁, bind, Except.bind]

-- A field of index + 1 bits: only an int of more than 31 bits differs from what is spelled.
theorem decodeField_spells {high stride ptr : Int} (hstride : 0 ≤ stride) (hhigh : 0 ≤ high)
    (hptr : 0 ≤ ptr) (h : ptr + high < tableSize ∧ ptr + 2 * stride < tableSize) (index : Nat) :
    ∃ exact held flag d', decodeField pushExact high stride ptr index d = .ok (exact, flag, d') ∧
      decodeField pushInt high stride ptr index d = .ok (held, flag, d') ∧
      Spells (index + 1) exact held := by
  obtain ⟨exact, held, d₁, hexact, hheld, hspells⟩ :=
    decodeHigh_spells (d := d) (show 0 ≤ ptr + high ∧ ptr + high < tableSize by omega) index
  obtain ⟨exact', held', flag, d', hexact', hheld', hspells'⟩ :=
    decodeLow_spells (d := d₁) hstride ⟨hptr, h.2⟩ index hspells
  rw [show index - 2 + 1 + min index 2 = index + 1 by omega] at hspells'
  refine ⟨exact', held', flag, d', ?_, ?_, hspells'⟩
  · simp only [decodeField, hexact, bind, Except.bind, hexact']
  · simp only [decodeField, hheld, bind, Except.bind, hheld']

theorem wrap_of_lt {i : Int} (h : 0 ≤ i) (h' : i < 2 ^ 31) : wrap i = i := by
  rw [wrap, Int.bmod_eq_of_le (by omega) (by omega)]

theorem decodeLiteral_ok {sect : Int} (hsect : -1 ≤ sect) (hsect' : sect ≤ 7 * 0xFF)
    (count index : Nat) {k : Nat} (hcount : k + count = 7) (hlower : 2 ^ k ≤ index)
    (hupper : index < 2 ^ (k + 1)) :
    ∃ byte d', decodeLiteral sect (count + 1) index d = .ok (byte, d') := by
  have hpos : 0 < 2 ^ k := Nat.two_pow_pos k
  have hk : 2 ^ (k + 1) ≤ 2 ^ 8 := Nat.pow_le_pow_right (by decide) (by omega)
  obtain ⟨bit, d', hbit⟩ := decodeBit_ok d
    (show 0 ≤ sect + index ∧ sect + index < tableSize by rw [tableSize]; omega)
  induction count generalizing k index d d' bit with
  | zero =>
      obtain rfl : k = 7 := by omega
      refine ⟨2 * index + bit.toNat, d', ?_⟩
      have hdone : ¬(2 * index + bit.toNat) >>> 8 = 0 := by
        rw [Nat.shiftRight_eq_div_pow]
        omega
      simp only [decodeLiteral, hbit, bind, Except.bind, if_neg hdone]
  | succ count ih =>
      have hk' : 2 ^ (k + 2) ≤ 2 ^ 8 := Nat.pow_le_pow_right (by decide) (by omega)
      have hpow : 2 ^ (k + 2) = 2 ^ (k + 1) * 2 := pow_succ 2 (k + 1)
      have hpow' : 2 ^ (k + 1) = 2 ^ k * 2 := pow_succ 2 k
      have hle : bit.toNat ≤ 1 := by cases bit <;> decide
      have hmore : (2 * index + bit.toNat) >>> 8 = 0 := by
        rw [Nat.shiftRight_eq_div_pow, Nat.div_eq_of_lt (by omega)]
      obtain ⟨bit', d₂, hbit'⟩ := decodeBit_ok d' (show 0 ≤ sect + (2 * index + bit.toNat : Nat) ∧
        sect + (2 * index + bit.toNat : Nat) < tableSize by rw [tableSize]; omega)
      obtain ⟨byte, d'', hrest⟩ := ih (2 * index + bit.toNat) (k := k + 1) (by omega) (by omega)
        (by omega) (by omega) hk' bit' d₂ hbit'
      refine ⟨byte, d'', ?_⟩
      rw [decodeLiteral]
      simp only [hbit, bind, Except.bind, if_pos hmore, hrest]

theorem lengthField_ok (count : Nat) (sect index : Int) (hsect : 0 ≤ sect)
    (hsect' : sect + 8 * (count + 1) < tableSize) (hindex : index = 5 - count) (hcount : count ≤ 6) :
    ∃ index' flag d', lengthField (count + 1) sect index d = .ok (index', flag, d') ∧
      -1 ≤ index' ∧ index' ≤ 6 ∧ (flag = true → 0 ≤ index') := by
  obtain ⟨flag, d', hflag⟩ := decodeBit_ok d
    (show 0 ≤ sect + 8 ∧ sect + 8 < tableSize by omega)
  have hfalse : flag = false → lengthField (count + 1) sect index d = .ok (index, false, d') := by
    rintro rfl
    simp [lengthField, hflag, bind, Except.bind]
  induction count generalizing sect index d flag d' with
  | zero =>
      cases flag with
      | false => exact ⟨index, false, d', hfalse rfl, by omega, by omega, nofun⟩
      | true =>
          refine ⟨index + 1, true, d', ?_, by omega, by omega, by omega⟩
          have hdone : ¬index + 1 < 6 := by omega
          simp [lengthField, hflag, bind, Except.bind, hdone]
  | succ count ih =>
      cases flag with
      | false => exact ⟨index, false, d', hfalse rfl, by omega, by omega, nofun⟩
      | true =>
          obtain ⟨flag', d₂, hflag'⟩ := decodeBit_ok d'
            (show 0 ≤ sect + 8 + 8 ∧ sect + 8 + 8 < tableSize by omega)
          obtain ⟨index', flag'', d'', hrest, hrange⟩ := ih (d := d') (sect + 8) (index + 1)
            (by omega) (by omega) (by omega) (by omega) flag' d₂ hflag' (by
              rintro rfl
              simp [lengthField, hflag', bind, Except.bind])
          refine ⟨index', flag'', d'', ?_, hrange⟩
          have hmore : index + 1 < 6 := by omega
          rw [lengthField]
          simp [hflag, bind, Except.bind, hmore, hrest]

theorem offsetField_ok {sect size : Int} (hsect : 0 ≤ sect) (hsect' : sect ≤ 0x8F0)
    (hsize : size = 0x40 ∨ size = 0x160) (count shift : Nat) {k : Nat} (hcount : k + count = 5)
    (hlower : 2 ^ k ≤ shift) (hupper : shift ≤ 43) :
    ∃ diff flag d', offsetField sect size (count + 1) shift d = .ok (diff, flag, d') ∧
      0 ≤ diff ∧ diff ≤ 0x270 ∧ diff % 16 = 0 := by
  obtain ⟨flag, d', hflag⟩ := decodeBit_ok d (show 0 ≤ sect + shift * 2 ^ 3 ∧
    sect + shift * 2 ^ 3 < tableSize by rw [tableSize]; omega)
  induction count generalizing k shift d flag d' with
  | zero =>
      obtain rfl : k = 5 := by omega
      have hdone : ¬(shift : Int) * 2 ^ 4 - size < 0 := by omega
      refine ⟨shift * 2 ^ 4 - size, flag, d', ?_, by omega, by omega, by omega⟩
      simp only [offsetField, hflag, bind, Except.bind, if_neg hdone]
  | succ count ih =>
      have hle : flag.toNat ≤ 1 := by cases flag <;> decide
      by_cases hmore : (shift : Int) * 2 ^ 4 - size < 0
      · have hpow : 2 ^ (k + 1) = 2 ^ k * 2 := pow_succ 2 k
        obtain ⟨flag', d₂, hflag'⟩ := decodeBit_ok d'
          (show 0 ≤ sect + (2 * shift + flag.toNat : Nat) * 2 ^ 3 ∧
            sect + (2 * shift + flag.toNat : Nat) * 2 ^ 3 < tableSize by rw [tableSize]; omega)
        obtain ⟨diff, flag'', d'', hrest, hrange⟩ := ih (d := d') (2 * shift + flag.toNat)
          (k := k + 1) (by omega) (by omega) (by omega) flag' d₂ hflag'
        refine ⟨diff, flag'', d'', ?_, hrange⟩
        rw [offsetField]
        simp only [hflag, bind, Except.bind, if_pos hmore, hrest]
      · refine ⟨shift * 2 ^ 4 - size, flag, d', ?_, by omega, by omega, by omega⟩
        simp only [offsetField, hflag, bind, Except.bind, if_neg hmore]

theorem numberSect_lt (s : State) {index : Nat} (h : index ≤ 6) : numberSect s index < 2 ^ 8 := by
  have hindex : index <<< 5 < 2 ^ 8 := by
    rw [Nat.shiftLeft_eq]
    omega
  have hcount : (s.out.length <<< index % 4) <<< 3 < 2 ^ 8 := by
    rw [Nat.shiftLeft_eq _ 3]
    omega
  rw [numberSect]
  exact Nat.or_lt_two_pow (Nat.or_lt_two_pow hindex hcount) (by omega)

theorem decodeLength_ok {s : State} (hoffset : s.offset ≤ 7) :
    ∃ index length d', decodeLength pushExact s d = .ok (index, length, d') ∧
      decodeLength pushInt s d = .ok (index, length, d') ∧ -1 ≤ index ∧ index ≤ 6 ∧
      1 ≤ length ∧ length ≤ 0xFF := by
  obtain ⟨index, flag, d₁, hindex, hlower, hupper, hflag⟩ := lengthField_ok (d := d) 6
    (s.offset + 0xB68) (-1) (by omega) (by rw [tableSize]; omega) (by omega) (by omega)
  by_cases hfound : index ≥ 0 ∨ flag = true
  · have hsect := numberSect_lt s (show index.toNat ≤ 6 by omega)
    obtain ⟨exact, held, flag', d', hexact, hheld, hspells⟩ :
        ∃ exact held flag' d',
          decodeNumber pushExact (0xBA8 + numberSect s index.toNat) index.toNat d₁ =
            .ok (exact, flag', d') ∧
          decodeNumber pushInt (0xBA8 + numberSect s index.toNat) index.toNat d₁ =
            .ok (held, flag', d') ∧ Spells (index.toNat + 1) exact held :=
      decodeField_spells (by omega) (by omega) (by omega) (by rw [tableSize]; omega) index.toNat
    obtain ⟨hexact₁, hexact₂, rfl⟩ := hspells
    have hpow : (2 : Int) ^ (index.toNat + 1 + 1) ≤ 2 ^ 8 :=
      pow_le_pow_right₀ (by decide) (by omega)
    have hpos : (0 : Int) < 2 ^ (index.toNat + 1) := pow_pos (by decide) _
    rw [wrap_of_lt (by omega) (by omega)] at hheld
    refine ⟨index, exact, d', ?_, ?_, hlower, hupper, by omega, by omega⟩
    · simp only [decodeLength, hindex, bind, Except.bind, if_pos hfound, hexact]
    · simp only [decodeLength, hindex, bind, Except.bind, if_pos hfound, hheld]
  · refine ⟨index, 1, d₁, ?_, ?_, hlower, hupper, by omega, by omega⟩
    · simp only [decodeLength, hindex, bind, Except.bind, if_neg hfound]
    · simp only [decodeLength, hindex, bind, Except.bind, if_neg hfound]

theorem decodeOffset_ok {sect size : Int} (hsect : 0 ≤ sect) (hsect' : sect ≤ 0x8F0)
    (hsize : size = 0x40 ∨ size = 0x160) :
    ∃ distance d', decodeOffset pushExact sect size d = .ok (distance, d') ∧
      decodeOffset pushInt sect size d = .ok (wrap distance, d') ∧ 1 ≤ distance := by
  obtain ⟨diff, flag, d₁, hdiff, hlower, hupper, hmod⟩ := offsetField_ok (d := d) hsect hsect' hsize
    5 1 (k := 0) (by omega) (by omega) (by omega)
  by_cases hfound : diff > 0 ∨ flag = true
  · have hrange : 0 ≤ (if flag = true then diff else diff - 8) ∧
        (if flag = true then diff else diff - 8) ≤ 0x270 := by
      cases flag with
      | true => exact ⟨hlower, hupper⟩
      | false =>
          have hpos : diff > 0 := by simpa using hfound
          simp only [Bool.false_eq_true, ↓reduceIte]
          omega
    generalize hclass : (if flag = true then diff else diff - 8) = class' at hrange
    obtain ⟨exact, held, flag', d', hexact, hheld, hspells⟩ :
        ∃ exact held flag' d', decodeWord pushExact (0x928 + class') class'.toNat d₁ =
            .ok (exact, flag', d') ∧
          decodeWord pushInt (0x928 + class') class'.toNat d₁ = .ok (held, flag', d') ∧
          Spells (class'.toNat / 8 + 1) exact held :=
      decodeField_spells (by omega) (by omega) (by omega) (by rw [tableSize]; omega)
        (class'.toNat / 8)
    obtain ⟨hexact₁, -, rfl⟩ := hspells
    have hpos : (0 : Int) < 2 ^ (class'.toNat / 8 + 1) := pow_pos (by decide) _
    refine ⟨exact, d', ?_, ?_, by omega⟩
    · simp only [decodeOffset, hdiff, bind, Except.bind, if_pos hfound, hclass, hexact]
    · simp only [decodeOffset, hdiff, bind, Except.bind, if_pos hfound, hclass, hheld]
  · refine ⟨1, d₁, ?_, ?_, by omega⟩
    · simp only [decodeOffset, hdiff, bind, Except.bind, if_neg hfound]
    · rw [wrap_of_lt (by decide) (by decide)]
      simp only [decodeOffset, hdiff, bind, Except.bind, if_neg hfound]

-- The token with the distance that the stream spells, and the one with the distance of the code.
inductive Agree (size : Nat) (s : State) : Token → Token → Prop where
  | raw (byte : Byte) : s.out.length ≠ size → Agree size s (.raw byte) (.raw byte)
  | stop : Agree size s .stop .stop
  | copy (length distance : Int) : 1 ≤ length → 1 ≤ distance →
      Agree size s (.copy length distance) (.copy length (wrap distance))

theorem literalSect_range (head : Byte) (s : State) :
    -1 ≤ literalSect head s ∧ literalSect head s ≤ 7 * 0xFF := by
  have hlt : (s.out.length % 8 * 2 ^ 8 + s.prev.toNat) >>> (head.toNat % 32) % 8 < 8 :=
    Nat.mod_lt _ (by decide)
  rw [literalSect]
  omega

theorem decodeToken_agree (head : Byte) (size : Nat) {s : State} (hoffset : s.offset ≤ 7) :
    ∃ exact held d', decodeToken pushExact head size s = .ok (exact, d') ∧
      decodeToken pushInt head size s = .ok (held, d') ∧ Agree size s exact held := by
  obtain ⟨bit, d₁, hbit⟩ := decodeBit_ok s.decoder (show 0 ≤ (s.offset : Int) + 0xB68 ∧
    (s.offset : Int) + 0xB68 < tableSize by rw [tableSize]; omega)
  cases bit with
  | false =>
      by_cases hfull : s.out.length = size
      · exact ⟨.stop, .stop, d₁, by simp [decodeToken, hbit, bind, Except.bind, hfull],
          by simp [decodeToken, hbit, bind, Except.bind, hfull], .stop⟩
      · obtain ⟨hlower, hupper⟩ := literalSect_range head s
        obtain ⟨byte, d', hbyte⟩ := decodeLiteral_ok (d := d₁) hlower hupper 7 1 (k := 0) rfl
          (by decide) (by decide)
        exact ⟨.raw (.ofNat 8 byte), .raw (.ofNat 8 byte), d',
          by simp [decodeToken, hbit, bind, Except.bind, hfull, hbyte],
          by simp [decodeToken, hbit, bind, Except.bind, hfull, hbyte], .raw _ hfull⟩
  | true =>
      obtain ⟨index, length, d₂, hexact, hheld, hindex, hindex', hlength, hlength'⟩ :=
        decodeLength_ok (d := d₁) hoffset
      by_cases hend : length = 0xFF
      · exact ⟨.stop, .stop, d₂, by simp [decodeToken, hbit, bind, Except.bind, hexact, hend],
          by simp [decodeToken, hbit, bind, Except.bind, hheld, hend], .stop⟩
      · by_cases hshort : length ≤ 2
        · obtain ⟨distance, d', hdistance, hdistance', hpos⟩ := decodeOffset_ok (d := d₂)
            (show 0 ≤ index + 0x7F1 + 0xF8 by omega) (by omega) (Or.inl rfl)
          exact ⟨_, _, d',
            by simp [decodeToken, hbit, bind, Except.bind, hexact, hend, hshort, hdistance],
            by simp [decodeToken, hbit, bind, Except.bind, hheld, hend, hshort, hdistance'],
            .copy length distance hlength hpos⟩
        · obtain ⟨distance, d', hdistance, hdistance', hpos⟩ := decodeOffset_ok (d := d₂)
            (show 0 ≤ index + 0x7F1 by omega) (by omega) (Or.inr rfl)
          exact ⟨_, _, d',
            by simp [decodeToken, hbit, bind, Except.bind, hexact, hend, hshort, hdistance],
            by simp [decodeToken, hbit, bind, Except.bind, hheld, hend, hshort, hdistance'],
            .copy length distance hlength hpos⟩

end Reading

section Writing

variable {size : Nat}

theorem write_ok {out : List Byte} (h : out.length < size) (byte : Byte) :
    write size out byte = .ok (out ++ [byte]) := if_pos h

theorem copyBytes_ok (count : Nat) (source : Int) (out : List Byte) (hsource : 0 ≤ source)
    (hsource' : source < out.length) (hroom : out.length + count ≤ size) :
    ∃ out', copyBytes size count source out = .ok out' ∧ out'.length = out.length + count := by
  induction count generalizing source out with
  | zero => exact ⟨out, rfl, rfl⟩
  | succ count ih =>
      obtain ⟨out', hout', hlength⟩ :=
        ih (source + 1) (out ++ [out.get ⟨source.toNat, by omega⟩]) (by omega)
          (by rw [List.length_append, List.length_singleton]; omega)
          (by rw [List.length_append, List.length_singleton]; omega)
      refine ⟨out', ?_, ?_⟩
      · rw [copyBytes, dif_pos ⟨hsource, hsource'⟩, write_ok (by omega)]
        exact hout'
      · rw [hlength, List.length_append, List.length_singleton]
        omega

theorem copyBytes_unwritten (count : Nat) {source : Int} {out : List Byte}
    (h : (out.length : Int) ≤ source) :
    copyBytes size (count + 1) source out = .error .source := by
  rw [copyBytes, dif_neg (by omega)]

end Writing

section Safety

variable {head : Byte} {size : Nat} {s : State}

-- The checks of a back-reference do not end the call.
def Passes (size : Nat) (s : State) (length distance : Int) : Prop :=
  distance ≤ s.out.length ∧ s.out.length + length + 1 ≤ size

def PositiveInt (distance : Int) : Prop := 0 < distance % 2 ^ 32 ∧ distance % 2 ^ 32 < 2 ^ 31

structure SoundAt (head : Byte) (size : Nat) (s : State) : Prop where
  copy : ∀ length distance d, decodeToken pushExact head size s = .ok (.copy length distance, d) →
    Passes size s length (wrap distance) → PositiveInt distance
  stop : ∀ d, decodeToken pushExact head size s = .ok (.stop, d) →
    s.out.length < 2 ^ 31 ∨ s.out.length = 2 ^ 32 - 1

def Reaches (head : Byte) (size : Nat) : State → State → Prop :=
  Relation.ReflTransGen fun s s' => step head size s = .ok (.next s')

-- What a stream spells in a run that is in order.
def Sound (input : Nat → Byte) (size : BitVec 32) : Prop :=
  if input 0 > 0x80 then size < declared input ∨ declared input = 0
  else ∀ s, Reaches (input 0) size.toNat (start input) s → SoundAt (input 0) size.toNat s

def Reports (result : Int) (out : List Byte) : Prop := result = -1 ∨ result = out.length

-- The call returns without an access outside of a range, with -1 or the number of bytes.
def Safe (input : Nat → Byte) (size : BitVec 32) : Prop :=
  ∃ result out, decompress input size = .ok (result, out) ∧ out.length ≤ size.toNat ∧
    Reports result out

structure Inv (size : Nat) (s : State) : Prop where
  offset : s.offset ≤ 7
  room : s.out.length ≤ size

theorem wrap_pos_iff (distance : Int) : 0 < wrap distance ↔ PositiveInt distance := by
  rw [PositiveInt, wrap, Int.bmod_def]
  omega

theorem reports_wrap {out : List Byte} (h : out.length < 2 ^ 32) :
    Reports (wrap out.length) out ↔ out.length < 2 ^ 31 ∨ out.length = 2 ^ 32 - 1 := by
  rw [Reports, wrap, Int.bmod_def]
  omega

-- A step that ends the call well or writes at least one byte, and a step that breaks the call.
def Proper (size : Nat) (s : State) (x : Except Fault Outcome) : Prop :=
  (∃ result, x = .ok (.done result) ∧ Reports result s.out) ∨
    ∃ s', x = .ok (.next s') ∧ Inv size s' ∧ s.out.length < s'.out.length

def Broken (s : State) (x : Except Fault Outcome) : Prop :=
  x = .error .source ∨ ∃ result, x = .ok (.done result) ∧ ¬Reports result s.out

theorem step_of_token {held : Token} {d : Decoder}
    (h : decodeToken pushInt head size s = .ok (held, d)) :
    step head size s = perform size s (held, d) := by
  simp only [step, h, bind, Except.bind]

theorem perform_raw (hinv : Inv size s) (hroom : s.out.length ≠ size) (byte : Byte) (d : Decoder) :
    Proper size s (perform size s (.raw byte, d)) := by
  have hle := hinv.room
  have hoffset := hinv.offset
  refine Or.inr ⟨⟨d, s.out ++ [byte], s.offset - 1, byte⟩, ?_, ⟨?_, ?_⟩, ?_⟩
  · rw [perform, write_ok (by omega)]
    rfl
  · exact Nat.le_trans (Nat.sub_le ..) hoffset
  · rw [List.length_append, List.length_singleton]
    omega
  · rw [List.length_append, List.length_singleton]
    omega

theorem perform_copy {length distance : Int} (hlength : 1 ≤ length) (d : Decoder)
    (h : Passes size s length distance → 0 < distance) :
    Proper size s (perform size s (.copy length distance, d)) := by
  by_cases hunder : (s.out.length : Int) - distance < 0
  · exact Or.inl ⟨-1, by rw [perform, if_pos hunder], Or.inl rfl⟩
  · by_cases hover : (s.out.length : Int) + length + 1 > size
    · exact Or.inl ⟨-1, by rw [perform, if_neg hunder, if_pos hover], Or.inl rfl⟩
    · have hpos := h ⟨by omega, by omega⟩
      obtain ⟨out, hout, hcount⟩ := copyBytes_ok (length + 1).toNat (s.out.length - distance) s.out
        (by omega) (by omega) (show s.out.length + (length + 1).toNat ≤ size by omega)
      refine Or.inr ⟨⟨d, out, ((s.out.length + length + 1).toNat + 1) % 2 + 6, out.getLastD 0⟩, ?_,
        ⟨?_, ?_⟩, ?_⟩
      · rw [perform, if_neg hunder, if_neg hover, hout]
        rfl
      · change (_ + 1) % 2 + 6 ≤ 7
        omega
      · rw [hcount]
        omega
      · rw [hcount]
        omega

-- A distance that is not positive as an int passes the check for an underflow.
theorem perform_unwritten {length distance : Int} (hlength : 1 ≤ length) (d : Decoder)
    (h : Passes size s length distance) (hdistance : ¬0 < distance) :
    perform size s (.copy length distance, d) = .error .source := by
  obtain ⟨hunder, hover⟩ := h
  obtain ⟨count, hcount⟩ : ∃ count, (length + 1).toNat = count + 1 :=
    ⟨length.toNat, by omega⟩
  rw [perform, if_neg (by omega), if_neg (by omega), hcount, copyBytes_unwritten _ (by omega)]
  rfl

variable (head) in
theorem step_cases (hsize : size < 2 ^ 32) (hinv : Inv size s) :
    (SoundAt head size s ∧ Proper size s (step head size s)) ∨
      (¬SoundAt head size s ∧ Broken s (step head size s)) := by
  obtain ⟨exact, held, d, hexact, hheld, hagree⟩ := decodeToken_agree head size hinv.offset
  have hroom := hinv.room
  rw [step_of_token hheld]
  cases hagree with
  | raw byte hfull =>
      refine Or.inl ⟨⟨fun _ _ _ ht => ?_, fun _ ht => ?_⟩, perform_raw hinv hfull byte d⟩
      · cases hexact.symm.trans ht
      · cases hexact.symm.trans ht
  | stop =>
      have hreports := reports_wrap (show s.out.length < 2 ^ 32 by omega)
      by_cases hsmall : s.out.length < 2 ^ 31 ∨ s.out.length = 2 ^ 32 - 1
      · refine Or.inl ⟨⟨fun _ _ _ ht => ?_, fun _ _ => hsmall⟩, Or.inl ⟨_, rfl, hreports.mpr hsmall⟩⟩
        cases hexact.symm.trans ht
      · exact Or.inr ⟨fun hsound => hsmall (hsound.stop d hexact),
          Or.inr ⟨_, rfl, fun hr => hsmall (hreports.mp hr)⟩⟩
  | copy length distance hlength hdistance =>
      by_cases hpos : Passes size s length (wrap distance) → PositiveInt distance
      · refine Or.inl ⟨⟨fun _ _ _ ht hp => ?_, fun _ ht => ?_⟩, perform_copy hlength d fun hp =>
          (wrap_pos_iff distance).mpr (hpos hp)⟩
        · cases hexact.symm.trans ht
          exact hpos hp
        · cases hexact.symm.trans ht
      · obtain ⟨hp, hneg⟩ := Classical.not_imp.mp hpos
        exact Or.inr ⟨fun hsound => hneg (hsound.copy length distance d hexact hp),
          Or.inl (perform_unwritten hlength d hp (mt (wrap_pos_iff distance).mp hneg))⟩

theorem loop_safe (hsize : size < 2 ^ 32) (fuel : Nat) (hinv : Inv size s)
    (hfuel : size < s.out.length + fuel) (h : ∀ s', Reaches head size s s' → SoundAt head size s') :
    ∃ result out, loop head size fuel s = .ok (result, out) ∧ out.length ≤ size ∧
      Reports result out := by
  induction fuel generalizing s with
  | zero =>
      have := hinv.room
      omega
  | succ fuel ih =>
      rcases step_cases head hsize hinv with ⟨-, hproper⟩ | ⟨hunsound, -⟩
      · rcases hproper with ⟨result, hstep, hreports⟩ | ⟨s', hstep, hinv', hlt⟩
        · exact ⟨result, s.out, by simp only [loop, hstep, bind, Except.bind], hinv.room, hreports⟩
        · obtain ⟨result, out, hloop, hrest⟩ :=
            ih hinv' (by omega) fun t ht => h t (.head hstep ht)
          exact ⟨result, out, by simp only [loop, hstep, bind, Except.bind, hloop], hrest⟩
      · exact absurd (h s .refl) hunsound

theorem loop_sound (hsize : size < 2 ^ 32) (fuel : Nat) (hinv : Inv size s) {result : Int}
    {out : List Byte} (hloop : loop head size fuel s = .ok (result, out))
    (hreports : Reports result out) {s' : State} (h : Reaches head size s s') :
    SoundAt head size s' := by
  induction fuel generalizing s with
  | zero => cases hloop
  | succ fuel ih =>
      rcases step_cases head hsize hinv with ⟨hsound, hproper⟩ | ⟨-, hbroken⟩
      · rcases h.cases_head with rfl | ⟨t, ht, hrest⟩
        · exact hsound
        · rcases hproper with ⟨_, hstep, -⟩ | ⟨s₁, hstep, hinv', -⟩
          · cases hstep.symm.trans ht
          · cases hstep.symm.trans ht
            simp only [loop, hstep, bind, Except.bind] at hloop
            exact ih hinv' hloop hrest
      · rcases hbroken with hstep | ⟨_, hstep, hwrong⟩
        · simp only [loop, hstep, bind, Except.bind] at hloop
          cases hloop
        · simp only [loop, hstep, bind, Except.bind] at hloop
          cases hloop
          exact absurd hreports hwrong

theorem safe_iff_of_raw {input : Nat → Byte} {size : BitVec 32} (h : input 0 > 0x80) :
    Safe input size ↔ size < declared input ∨ declared input = 0 := by
  by_cases hle : declared input ≤ size
  · have hrun : decompress input size =
        .ok (0, (List.range (declared input).toNat).map fun i => input (5 + i)) := by
      rw [decompress, if_pos h, if_pos hle]
    constructor
    · rintro ⟨result, out, hok, -, hreports⟩
      cases hrun.symm.trans hok
      right
      rcases hreports with hneg | hzero
      · cases hneg
      · rw [List.length_map, List.length_range] at hzero
        exact BitVec.eq_of_toNat_eq (by simpa using hzero.symm)
    · rintro (hlt | hzero)
      · exact absurd hle (BitVec.not_le.mpr hlt)
      · rw [hzero] at hrun
        exact ⟨0, [], hrun, Nat.zero_le _, Or.inr rfl⟩
  · have hrun : decompress input size = .ok (-1, []) := by
      rw [decompress, if_pos h, if_neg hle]
    exact ⟨fun _ => Or.inl (BitVec.not_le.mp hle), fun _ => ⟨-1, [], hrun, Nat.zero_le _, Or.inl rfl⟩⟩

theorem safe_iff (input : Nat → Byte) (size : BitVec 32) : Safe input size ↔ Sound input size := by
  by_cases hhead : input 0 > 0x80
  · rw [Sound, if_pos hhead, safe_iff_of_raw hhead]
  · have hinv : Inv size.toNat (start input) := ⟨Nat.zero_le _, Nat.zero_le _⟩
    rw [Sound, if_neg hhead, Safe, decompress, if_neg hhead]
    constructor
    · rintro ⟨result, out, hloop, -, hreports⟩ s hs
      exact loop_sound size.isLt _ hinv hloop hreports hs
    · exact loop_safe size.isLt _ hinv (by omega)

-- A match at the start whose distance is 2 ^ 43: the int is 0.
def zeroDistance (i : Nat) : Byte := [0x00, 0x2A, 0x3F, 0xFF, 0x7F, 0xFE].getD i 0

theorem zeroDistance_unsafe : ¬Safe zeroDistance 4 := by
  rintro ⟨result, out, hok, -, -⟩
  have hrun : decompress zeroDistance 4 = .error .source := by decide +kernel
  cases hrun.symm.trans hok

end Safety

end Rpcsx.Lz
