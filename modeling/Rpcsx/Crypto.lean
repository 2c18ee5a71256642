import Rpcsx.Data.Blocks

-- The part that sha1.cpp, sha256.cpp and md5.cpp share word for word: a context that buffers
-- its input up to the next block of 64 bytes.
namespace Rpcsx.Crypto

open Data

abbrev UChar := BitVec 8

abbrev Block := Vector UChar 64

structure Context (σ : Type) where
  total0 : BitVec 32
  total1 : BitVec 32
  state : σ
  buffer : Block

-- memcpy(dst + offset, input, input.length); what would be written behind `dst` is not.
def memcpy (dst : Block) (offset : Nat) (input : List UChar) : Block :=
  Vector.ofFn fun i =>
    if h : offset ≤ i.val ∧ i.val - offset < input.length then input[i.val - offset] else dst[i]

variable {σ : Type}

-- while (ilen >= 64): the blocks that are read from the input itself
def processInput (process : σ → Block → σ) (state : σ) (input : List UChar) : σ × List UChar :=
  if h : 64 ≤ input.length then
    processInput process (process state (Blocks.head input h)) (input.drop 64)
  else
    (state, input)
termination_by input.length
decreasing_by simp only [List.length_drop]; omega

def update (process : σ → Block → σ) (ctx : Context σ) (input : List UChar) : Context σ :=
  if input.length = 0 then
    ctx
  else
    let left := (ctx.total0 &&& 0x3F).toNat
    let fill := 64 - left
    let ilen := BitVec.ofNat 32 input.length
    let total0 := ctx.total0 + ilen
    let total1 := if total0 < ilen then ctx.total1 + 1 else ctx.total1
    if left ≠ 0 ∧ fill ≤ input.length then
      let buffer := memcpy ctx.buffer left (input.take fill)
      let (state, input) := processInput process (process ctx.state buffer) (input.drop fill)
      { total0, total1, state, buffer := memcpy buffer 0 input }
    else
      let (state, input) := processInput process ctx.state input
      { total0, total1, state, buffer := memcpy ctx.buffer left input }

-- high and low of the message's length in bits
def lengthHigh (ctx : Context σ) : BitVec 32 := (ctx.total0 >>> 29) ||| (ctx.total1 <<< 3)

def lengthLow (ctx : Context σ) : BitVec 32 := ctx.total0 <<< 3

-- PUT_UINT32_BE and PUT_UINT32_LE
def putUint32BE (n : BitVec 32) : List UChar :=
  [(n >>> 24).setWidth 8, (n >>> 16).setWidth 8, (n >>> 8).setWidth 8, n.setWidth 8]

-- The padding of the standards: 0x80, zeros, and the length in bits, which ends a block.
def padding (lengthField : BitVec 64 → List UChar) (length counted : Nat) : List UChar :=
  0x80 :: List.replicate ((119 - length % 64) % 64) 0 ++ lengthField (BitVec.ofNat 64 (8 * counted))

-- The state a whole message leads to.
def digest (process : σ → Block → σ) (init : σ) (lengthField : BitVec 64 → List UChar)
    (message : List UChar) : σ :=
  Blocks.absorb process init (message ++ padding lengthField message.length message.length)

@[simp] theorem toList_memcpy (dst : Block) (offset : Nat) (input : List UChar)
    (h : offset + input.length ≤ 64) :
    (memcpy dst offset input).toList =
      dst.toList.take offset ++ input ++ dst.toList.drop (offset + input.length) := by
  apply List.ext_getElem
  · simp only [Vector.length_toList, List.length_append, List.length_take, List.length_drop]
    omega
  · intro i h1 h2
    simp only [Vector.length_toList] at h1
    simp only [memcpy, Vector.getElem_toList, Vector.getElem_ofFn, List.getElem_append,
      List.length_append, List.length_take, Vector.length_toList, List.getElem_take,
      List.getElem_drop, Fin.getElem_fin, Nat.min_eq_left (by omega : offset ≤ 64)]
    by_cases hlow : i < offset
    · rw [dif_neg (by omega), dif_pos (by omega), dif_pos hlow]
    · by_cases hin : i - offset < input.length
      · rw [dif_pos ⟨by omega, hin⟩, dif_pos (by omega), dif_neg hlow]
      · rw [dif_neg (by omega), dif_neg (by omega)]
        congr 1
        omega

theorem length_toList_memcpy (dst : Block) (offset : Nat) (input : List UChar) :
    (memcpy dst offset input).toList.length = 64 := Vector.length_toList

theorem processInput_eq (process : σ → Block → σ) (state : σ) (input : List UChar) :
    processInput process state input =
      (Blocks.absorb process state input, Blocks.rest 64 input) := by
  induction input using Blocks.block_induction (by omega : 0 < 64) generalizing state with
  | hshort l h =>
      rw [processInput, dif_neg (by omega), Blocks.absorb_of_lt process state h,
        Blocks.rest_of_lt h]
  | hblock block l h ih =>
      have hle : 64 ≤ (block ++ l).length := by simp [h]
      have hhead : Blocks.head (block ++ l) hle = Blocks.head block h.ge := by
        simp [Blocks.head, List.take_append_of_le_length h.ge]
      rw [processInput, dif_pos hle, hhead, List.drop_append_of_le_length h.ge,
        List.drop_of_length_le h.le, List.nil_append, ih,
        Blocks.absorb_append_of_length process state (by omega) h,
        Blocks.rest_append_of_length (by omega) h]

variable {σ : Type} {process : σ → Block → σ} {init : σ}

-- The number that total[0] and total[1] hold.
def Context.count (ctx : Context σ) : Nat := ctx.total0.toNat + 2 ^ 32 * ctx.total1.toNat

-- What a context is after it has read a message of which `counted` bytes have been counted.
structure Holds (process : σ → Block → σ) (init : σ) (message : List UChar) (counted : Nat)
    (ctx : Context σ) : Prop where
  count : ctx.count = counted % 2 ^ 64
  aligned : counted % 64 = message.length % 64
  state : ctx.state = Blocks.absorb process init message
  buffer : ctx.buffer.toList.take (message.length % 64) = Blocks.rest 64 message

-- Each call counts its input's length modulo 2^32.
def counted (pieces : List (List UChar)) : Nat := (pieces.map fun p => p.length % 2 ^ 32).sum

theorem counted_eq {pieces : List (List UChar)} (h : ∀ p ∈ pieces, p.length < 2 ^ 32) :
    counted pieces = pieces.flatten.length := by
  rw [counted, List.length_flatten]
  congr 1
  apply List.map_congr_left
  intro p hp
  exact Nat.mod_eq_of_lt (h p hp)

theorem left_eq (total : BitVec 32) : (total &&& 0x3F).toNat = total.toNat % 64 := by
  rw [BitVec.toNat_and]
  exact Nat.and_two_pow_sub_one_eq_mod total.toNat 6

theorem Holds.left {message : List UChar} {c : Nat} {ctx : Context σ}
    (h : Holds process init message c ctx) :
    (ctx.total0 &&& 0x3F).toNat = message.length % 64 := by
  have hc := h.count
  have ha := h.aligned
  rw [left_eq]
  simp only [Context.count] at hc
  omega

-- The carry from total[0] to total[1].
theorem count_add (total0 total1 : BitVec 32) (length : Nat) :
    (total0 + BitVec.ofNat 32 length).toNat +
        2 ^ 32 * (if total0 + BitVec.ofNat 32 length < BitVec.ofNat 32 length then total1 + 1
          else total1).toNat =
      (total0.toNat + 2 ^ 32 * total1.toNat + length % 2 ^ 32) % 2 ^ 64 := by
  have h0 := total0.isLt
  have h1 := total1.isLt
  have hl : length % 2 ^ 32 < 2 ^ 32 := Nat.mod_lt _ (by decide)
  simp only [BitVec.lt_def, BitVec.toNat_add, BitVec.toNat_ofNat]
  split_ifs with hcarry
  · have hone : (1 : BitVec 32).toNat = 1 := rfl
    rw [BitVec.toNat_add, hone]
    omega
  · omega

theorem head_eq {l : List UChar} {block : Block} (h : l.length = 64) (hl : block.toList = l) :
    Blocks.head l h.ge = block := by
  subst hl
  apply Vector.toList_inj.mp
  simp [Blocks.head]

-- A block that has been filled in the buffer is the first one behind what was absorbed.
theorem absorb_block {message block : List UChar} (input : List UChar) {buffer : Block} {s : σ}
    (hs : s = Blocks.absorb process init message)
    (hblock : buffer.toList = Blocks.rest 64 message ++ block) :
    Blocks.absorb process init (message ++ (block ++ input)) =
      Blocks.absorb process (process s buffer) input := by
  have hlength : (Blocks.rest 64 message ++ block).length = 64 := by
    rw [← hblock, Vector.length_toList]
  rw [Blocks.absorb_append process (by omega), ← List.append_assoc,
    Blocks.absorb_append_of_length process _ (by omega) hlength, head_eq hlength hblock, hs]

theorem rest_block {message block : List UChar} (input : List UChar) {buffer : Block}
    (hblock : buffer.toList = Blocks.rest 64 message ++ block) :
    Blocks.rest 64 (message ++ (block ++ input)) = Blocks.rest 64 input := by
  have hlength : (Blocks.rest 64 message ++ block).length = 64 := by
    rw [← hblock, Vector.length_toList]
  rw [Blocks.rest_append (by omega), ← List.append_assoc,
    Blocks.rest_append_of_length (by omega) hlength]

theorem take_memcpy (dst : Block) (offset : Nat) (input : List UChar)
    (h : offset + input.length ≤ 64) :
    (memcpy dst offset input).toList.take (offset + input.length) =
      dst.toList.take offset ++ input := by
  have hlength : (dst.toList.take offset ++ input).length = offset + input.length := by
    rw [List.length_append, List.length_take, Vector.length_toList]
    omega
  rw [toList_memcpy dst offset input h, List.take_append_of_le_length hlength.ge, ← hlength,
    List.take_length]

-- What one call of update does.
theorem update_holds {message : List UChar} {c : Nat} {ctx : Context σ}
    (h : Holds process init message c ctx) (input : List UChar) :
    Holds process init (message ++ input) (c + input.length % 2 ^ 32)
      (update process ctx input) := by
  have hmod : (c + input.length % 2 ^ 32) % 64 = (message ++ input).length % 64 := by
    have := h.aligned
    rw [List.length_append]
    omega
  by_cases hempty : input.length = 0
  · rw [update, if_pos hempty, List.length_eq_zero_iff.mp hempty]
    simpa using h
  have hcount := count_add ctx.total0 ctx.total1 input.length
  have hc : (ctx.count + input.length % 2 ^ 32) % 2 ^ 64 =
      (c + input.length % 2 ^ 32) % 2 ^ 64 := by
    rw [h.count]
    omega
  have hrest : (Blocks.rest 64 (message ++ input)).length = (message ++ input).length % 64 :=
    Blocks.length_rest _
  have hold : (Blocks.rest 64 message).length = message.length % 64 := Blocks.length_rest _
  simp only [update, if_neg hempty, h.left, processInput_eq]
  by_cases hfill : message.length % 64 ≠ 0 ∧ 64 - message.length % 64 ≤ input.length
  · rw [if_pos hfill]
    have htake : (input.take (64 - message.length % 64)).length = 64 - message.length % 64 := by
      rw [List.length_take]
      omega
    have hblock : (memcpy ctx.buffer (message.length % 64)
        (input.take (64 - message.length % 64))).toList =
          Blocks.rest 64 message ++ input.take (64 - message.length % 64) := by
      rw [toList_memcpy _ _ _ (by omega), h.buffer, htake,
        List.drop_of_length_le (by rw [Vector.length_toList]; omega), List.append_nil]
    have hstate := absorb_block (input.drop (64 - message.length % 64)) h.state hblock
    have hleft := rest_block (input.drop (64 - message.length % 64)) hblock
    rw [List.take_append_drop] at hstate hleft
    refine ⟨hcount.trans hc, hmod, hstate.symm, ?_⟩
    rw [← hrest, hleft]
    have htail := take_memcpy (memcpy ctx.buffer (message.length % 64)
      (input.take (64 - message.length % 64))) 0
        (Blocks.rest 64 (input.drop (64 - message.length % 64))) (by
          rw [Blocks.length_rest]
          omega)
    rwa [Nat.zero_add, List.take_zero, List.nil_append] at htail
  · rw [if_neg hfill]
    by_cases hzero : message.length % 64 = 0
    · have hnil : Blocks.rest 64 message = [] := Blocks.rest_eq_nil (Nat.dvd_of_mod_eq_zero hzero)
      have hstate : Blocks.absorb process init (message ++ input) =
          Blocks.absorb process ctx.state input := by
        rw [Blocks.absorb_append process (by omega), hnil, List.nil_append, h.state]
      have hleft : Blocks.rest 64 (message ++ input) = Blocks.rest 64 input := by
        rw [Blocks.rest_append (by omega), hnil, List.nil_append]
      refine ⟨hcount.trans hc, hmod, hstate.symm, ?_⟩
      rw [← hrest, hleft, hzero]
      have htail := take_memcpy ctx.buffer 0 (Blocks.rest 64 input) (by
        rw [Blocks.length_rest]
        omega)
      rwa [Nat.zero_add, List.take_zero, List.nil_append] at htail
    · -- the input does not fill the block that the message has begun
      have hlt : (Blocks.rest 64 message ++ input).length < 64 := by
        rw [List.length_append]
        omega
      have hstate : Blocks.absorb process init (message ++ input) = ctx.state := by
        rw [Blocks.absorb_append process (by omega), Blocks.absorb_of_lt process _ hlt, h.state]
      have hleft : Blocks.rest 64 (message ++ input) = Blocks.rest 64 message ++ input := by
        rw [Blocks.rest_append (by omega), Blocks.rest_of_lt hlt]
      rw [Blocks.absorb_of_lt process _ (by omega), Blocks.rest_of_lt (by omega)]
      refine ⟨hcount.trans hc, hmod, hstate.symm, ?_⟩
      rw [← hrest, hleft, List.length_append, hold,
        take_memcpy _ _ _ (by omega), h.buffer]

-- What any number of calls do.
theorem updates_holds {message : List UChar} {c : Nat} {ctx : Context σ}
    (h : Holds process init message c ctx) (pieces : List (List UChar)) :
    Holds process init (message ++ pieces.flatten) (c + counted pieces)
      (pieces.foldl (update process) ctx) := by
  induction pieces generalizing message c ctx with
  | nil => simpa [counted] using h
  | cons p rest ih =>
      have hrest := ih (update_holds h p)
      rwa [List.append_assoc, Nat.add_assoc] at hrest

theorem starts_holds (process : σ → Block → σ) {ctx : Context σ} (h0 : ctx.total0 = 0)
    (h1 : ctx.total1 = 0) : Holds process ctx.state [] 0 ctx where
  count := by simp [Context.count, h0, h1]
  aligned := rfl
  state := (Blocks.absorb_of_lt process _ (by simp)).symm
  buffer := rfl

-- The length field that a context's high and low words are.
theorem lengthField_eq {message : List UChar} {c : Nat} {ctx : Context σ}
    (h : Holds process init message c ctx) :
    BitVec.ofNat 64 (8 * c) = lengthHigh ctx ++ lengthLow ctx := by
  have h0 := ctx.total0.isLt
  have h1 := ctx.total1.isLt
  have hc := h.count
  have hshift : ctx.total1.toNat <<< 3 % 2 ^ 32 = (ctx.total1.toNat % 2 ^ 29) <<< 3 := by
    simp only [Nat.shiftLeft_eq]
    omega
  have hhigh : (lengthHigh ctx).toNat =
      ctx.total0.toNat / 2 ^ 29 + 8 * (ctx.total1.toNat % 2 ^ 29) := by
    rw [lengthHigh, BitVec.toNat_or, BitVec.toNat_ushiftRight, BitVec.toNat_shiftLeft, hshift,
      Nat.lor_comm, ← Nat.shiftLeft_add_eq_or_of_lt (by rw [Nat.shiftRight_eq_div_pow]; omega),
      Nat.shiftRight_eq_div_pow, Nat.shiftLeft_eq]
    omega
  have hlow : (lengthLow ctx).toNat = 8 * ctx.total0.toNat % 2 ^ 32 := by
    rw [lengthLow, BitVec.toNat_shiftLeft, Nat.shiftLeft_eq]
    omega
  apply BitVec.eq_of_toNat_eq
  rw [BitVec.toNat_append, ← Nat.shiftLeft_add_eq_or_of_lt (lengthLow ctx).isLt,
    Nat.shiftLeft_eq, hhigh, hlow, BitVec.toNat_ofNat]
  simp only [Context.count] at hc
  omega

-- finish of sha1.cpp feeds the padding and the length to update.
theorem updates_padding {message : List UChar} {c : Nat} {ctx : Context σ}
    (h : Holds process init message c ctx) (lengthField : BitVec 64 → List UChar)
    {field : List UChar} (hfield : field = lengthField (lengthHigh ctx ++ lengthLow ctx)) {zeros : Nat}
    (hzeros : zeros = (119 - message.length % 64) % 64) :
    (update process (update process ctx (0x80 :: List.replicate zeros 0)) field).state =
      Blocks.absorb process init (message ++ padding lengthField message.length c) := by
  have hend := (update_holds (update_holds h (0x80 :: List.replicate zeros 0)) field).state
  rw [hend, padding, lengthField_eq h, hfield, hzeros, List.append_assoc]

-- The eight bytes of a length, from the highest and from the lowest.
def bytesBE (n : BitVec 64) : List UChar :=
  (List.range 8).map fun i => (n >>> (56 - 8 * i)).setWidth 8

theorem setWidth_append_high (high low : BitVec 32) (k : Nat) :
    ((high ++ low) >>> (32 + k)).setWidth 8 = (high >>> k).setWidth 8 := by
  apply BitVec.eq_of_getLsbD_eq
  intro i hi
  simp only [BitVec.getLsbD_setWidth, BitVec.getLsbD_ushiftRight, BitVec.getLsbD_append]
  rw [if_neg (by omega), Nat.add_assoc, Nat.add_sub_cancel_left]

theorem setWidth_append_low (high low : BitVec 32) {k : Nat} (hk : k + 8 ≤ 32) :
    ((high ++ low) >>> k).setWidth 8 = (low >>> k).setWidth 8 := by
  apply BitVec.eq_of_getLsbD_eq
  intro i hi
  simp only [BitVec.getLsbD_setWidth, BitVec.getLsbD_ushiftRight, BitVec.getLsbD_append]
  rw [if_pos (by omega)]

theorem setWidth_append (high low : BitVec 32) : (high ++ low).setWidth 8 = low.setWidth 8 := by
  have h := setWidth_append_low high low (by omega : 0 + 8 ≤ 32)
  rwa [BitVec.ushiftRight_zero, BitVec.ushiftRight_zero] at h

theorem putUint32BE_append (high low : BitVec 32) :
    putUint32BE high ++ putUint32BE low = bytesBE (high ++ low) := by
  have hhigh := setWidth_append_high high low
  simp only [bytesBE, putUint32BE, List.range, List.range.loop, List.map_cons, List.map_nil,
    List.cons_append, List.nil_append, Nat.reduceMul, Nat.reduceSub, hhigh 24, hhigh 16, hhigh 8,
    hhigh 0, setWidth_append_low high low (by omega : 24 + 8 ≤ 32),
    setWidth_append_low high low (by omega : 16 + 8 ≤ 32),
    setWidth_append_low high low (by omega : 8 + 8 ≤ 32), setWidth_append,
    BitVec.ushiftRight_zero]

end Rpcsx.Crypto
