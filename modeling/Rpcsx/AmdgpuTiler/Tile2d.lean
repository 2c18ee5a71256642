import Mathlib.Tactic.Ring
import Rpcsx.AmdgpuTiler.ElementOrder
import Rpcsx.AmdgpuTiler.Tile1d

namespace Rpcsx.AmdgpuTiler

open Data.Alignment

variable {numPipes numBanks pipeShift bankShift pipe bank total pipe' bank' total' : Nat}

theorem or_shiftLeft {low k : Nat} (h : low < 2 ^ k) (high : Nat) :
    low ||| high <<< k = low + 2 ^ k * high := by
  rw [Nat.or_comm, ← Nat.shiftLeft_add_eq_or_of_lt h, Nat.shiftLeft_eq, Nat.mul_comm, Nat.add_comm]

-- The bytes of the final offset as digits: inside the interleave, pipe, bank, and the rest.
def interleaved (numPipes numBanks pipe bank total : Nat) : Nat :=
  total % 256 + 256 * (pipe + numPipes * (bank + numBanks * (total / 256)))

theorem interleave_eq (hnumPipes : numPipes = 2 ^ pipeShift) (hnumBanks : numBanks = 2 ^ bankShift)
    (hpipeShift : countrZero numPipes = pipeShift) (hbankShift : countrZero numBanks = bankShift)
    (hpipe : pipe < numPipes) (hbank : bank < numBanks) :
    interleave numPipes numBanks pipe bank (total * 8) =
      interleaved numPipes numBanks pipe bank total * 8 := by
  have height : countrZero kPipeInterleaveBytes = 8 := by decide
  have hlow : total % 256 < 2 ^ 8 := Nat.mod_lt _ (by decide)
  have hbit : total * 8 &&& 7 = 0 := by
    rw [show (7 : Nat) = 2 ^ 3 - 1 from rfl, Nat.and_two_pow_sub_one_eq_mod]
    omega
  have hmask : total &&& (1 <<< 8 - 1) = total % 256 := by
    rw [show 1 <<< 8 - 1 = 2 ^ 8 - 1 from rfl, Nat.and_two_pow_sub_one_eq_mod]
  have hfirst : total % 256 + 2 ^ 8 * pipe < 2 ^ (8 + pipeShift) := by
    rw [Nat.pow_add, ← hnumPipes]
    omega
  have hsecond : total % 256 + 2 ^ 8 * pipe + 2 ^ (8 + pipeShift) * bank <
      2 ^ (8 + pipeShift + bankShift) := by
    rw [Nat.pow_add 2 (8 + pipeShift), ← hnumBanks]
    calc
      _ < 2 ^ (8 + pipeShift) + 2 ^ (8 + pipeShift) * bank := Nat.add_lt_add_right hfirst _
      _ = 2 ^ (8 + pipeShift) * (bank + 1) := by ring
      _ ≤ 2 ^ (8 + pipeShift) * numBanks := Nat.mul_le_mul_left _ hbank
  simp only [interleave, height, hpipeShift, hbankShift, hbit, Nat.or_zero,
    Nat.mul_div_cancel _ (by decide : 0 < 8), hmask]
  rw [or_shiftLeft hlow, or_shiftLeft hfirst, or_shiftLeft hsecond, Nat.shiftLeft_eq,
    Nat.shiftRight_eq_div_pow, interleaved, hnumPipes, hnumBanks]
  ring

theorem interleaved_inj (hpipe : pipe < numPipes) (hpipe' : pipe' < numPipes)
    (hbank : bank < numBanks) (hbank' : bank' < numBanks)
    (h : interleaved numPipes numBanks pipe bank total =
      interleaved numPipes numBanks pipe' bank' total') :
    pipe = pipe' ∧ bank = bank' ∧ total = total' := by
  have hbelow : ∀ n, n % 256 < 256 := fun n => Nat.mod_lt n (by decide)
  obtain ⟨hlow, hhigh⟩ := radix_inj_low (hbelow total) (hbelow total') h
  obtain ⟨hpipe, hrest⟩ := radix_inj_low hpipe hpipe' hhigh
  obtain ⟨hbank, hoffset⟩ := radix_inj_low hbank hbank' hrest
  exact ⟨hpipe, hbank, by omega⟩

-- The offset stays below `limit` in every pipe and bank.
theorem interleaved_lt {limit : Nat} (hpipe : pipe < numPipes) (hbank : bank < numBanks)
    (hlimit : 256 ∣ limit) (htotal : total < limit) :
    interleaved numPipes numBanks pipe bank total < limit * (numPipes * numBanks) := by
  obtain ⟨rows, rfl⟩ := hlimit
  have hrow : total / 256 < rows := Nat.div_lt_of_lt_mul htotal
  have hbanks : bank + numBanks * (total / 256) < numBanks * rows := by
    calc
      _ < numBanks + numBanks * (total / 256) := Nat.add_lt_add_right hbank _
      _ = numBanks * (total / 256 + 1) := by ring
      _ ≤ numBanks * rows := Nat.mul_le_mul_left _ hrow
  have hpipes : pipe + numPipes * (bank + numBanks * (total / 256)) <
      numPipes * (numBanks * rows) := by
    calc
      _ < numPipes + numPipes * (bank + numBanks * (total / 256)) := Nat.add_lt_add_right hpipe _
      _ = numPipes * (bank + numBanks * (total / 256) + 1) := by ring
      _ ≤ numPipes * (numBanks * rows) := Nat.mul_le_mul_left _ hbanks
  have hlow := Nat.mod_lt total (by decide : 0 < 256)
  calc
    _ < 256 * (numPipes * (numBanks * rows)) := by
      simp only [interleaved]
      omega
    _ = 256 * rows * (numPipes * numBanks) := by ring

theorem xor_and_one (a b : Nat) : (a ^^^ b) &&& 1 = (a + b) % 2 := by
  rw [Nat.and_one_is_mod, Nat.xor_mod_two_eq]

theorem parity_cancel {a b c d : Nat} (h : (a + c) % 2 = (b + d) % 2) (hc : c % 2 = d % 2) :
    a % 2 = b % 2 := by
  omega

theorem parity_cancel_left {a b c d : Nat} (h : (c + a) % 2 = (d + b) % 2) (hc : c % 2 = d % 2) :
    a % 2 = b % 2 := by
  omega

theorem xor_parity {a b c d : Nat} (h : (a ^^^ c) % 2 = (b ^^^ d) % 2) :
    (a + c) % 2 = (b + d) % 2 := by
  rwa [Nat.xor_mod_two_eq, Nat.xor_mod_two_eq] at h

theorem isBits_bankBits (xs ys numBanks : Nat) : IsBits (bankBits xs ys numBanks) := by
  unfold bankBits
  split <;> simp only [IsBits, List.forall_mem_cons, and_one_lt, true_and, List.not_mem_nil,
      IsEmpty.forall_iff, implies_true]

theorem isBits_pipeIndexBits (x y : Nat) (config : PipeConfig) :
    IsBits (pipeIndexBits x y config) := by
  cases config <;>
    simp only [pipeIndexBits, IsBits, List.forall_mem_cons, and_one_lt, true_and,
      List.not_mem_nil, IsEmpty.forall_iff, implies_true]

theorem length_pipeIndexBits (x y x' y' : Nat) (config : PipeConfig) :
    (pipeIndexBits x y config).length = (pipeIndexBits x' y' config).length := by
  cases config <;> rfl

theorem length_bankBits (xs ys xs' ys' numBanks : Nat) :
    (bankBits xs ys numBanks).length = (bankBits xs' ys' numBanks).length := by
  unfold bankBits
  split <;> rfl

-- The pipe tells apart the tiles of a row that a macro tile spreads over the pipes.
theorem getPipeIndex_inj {x x' y y' : Nat} {config : PipeConfig} (hconfig : config ≠ .other)
    (hcolumn : x / 8 / getPipeCount config = x' / 8 / getPipeCount config) (hrow : y / 8 = y' / 8)
    (h : getPipeIndex x y config = getPipeIndex x' y' config) : x / 8 = x' / 8 := by
  have hbits := place_inj (isBits_pipeIndexBits x y config) (isBits_pipeIndexBits x' y' config)
    (length_pipeIndexBits x y x' y' config) h
  have hrow4 : y / 16 = y' / 16 := by omega
  have hrow5 : y / 32 = y' / 32 := by omega
  cases config with
  | other => exact absurd rfl hconfig
  | p8_32x32_8x16 =>
      simp only [pipeIndexBits, List.cons.injEq, and_true, xor_and_one,
        Nat.shiftRight_eq_div_pow, Nat.reducePow, hrow, hrow4, hrow5] at hbits
      obtain ⟨hzero, hone, htwo⟩ := hbits
      simp only [getPipeCount] at hcolumn
      have hx5 := parity_cancel htwo rfl
      have hx4 := parity_cancel (xor_parity (parity_cancel hzero hx5)) rfl
      have hx3 := parity_cancel hone rfl
      omega
  | p8_32x32_16x16 =>
      simp only [pipeIndexBits, List.cons.injEq, and_true, xor_and_one,
        Nat.shiftRight_eq_div_pow, Nat.reducePow, hrow, hrow4, hrow5] at hbits
      obtain ⟨hzero, hone, htwo⟩ := hbits
      simp only [getPipeCount] at hcolumn
      have hx5 := parity_cancel htwo rfl
      have hx4 := parity_cancel hone rfl
      have hx3 := parity_cancel (xor_parity (parity_cancel hzero hx4)) rfl
      omega
  | p16 =>
      simp only [pipeIndexBits, List.cons.injEq, and_true, xor_and_one,
        Nat.shiftRight_eq_div_pow, Nat.reducePow, hrow, hrow4, hrow5] at hbits
      obtain ⟨hzero, hone, htwo, hthree⟩ := hbits
      simp only [getPipeCount] at hcolumn
      have hx6 := parity_cancel hthree rfl
      have hx5 := parity_cancel htwo rfl
      have hx4 := parity_cancel hone rfl
      have hx3 := parity_cancel (xor_parity (parity_cancel hzero hx4)) rfl
      omega

theorem bankBits_inj {xs xs' ys ys' aspect numBanks : Nat}
    (hshape : (aspect, numBanks) ∈ [(4, 16), (2, 16), (1, 8)])
    (hcolumn : xs / 8 / aspect = xs' / 8 / aspect)
    (hrow : ys / 8 / (numBanks / aspect) = ys' / 8 / (numBanks / aspect))
    (h : bankBits xs ys numBanks = bankBits xs' ys' numBanks) :
    xs / 8 = xs' / 8 ∧ ys / 8 = ys' / 8 := by
  simp only [List.mem_cons, Prod.mk.injEq, List.not_mem_nil, or_false] at hshape
  rcases hshape with ⟨rfl, rfl⟩ | ⟨rfl, rfl⟩ | ⟨rfl, rfl⟩
  · simp only [Nat.reduceDiv] at hrow
    have hx5 : xs / 32 = xs' / 32 := by omega
    have hx6 : xs / 64 = xs' / 64 := by omega
    have hy5 : ys / 32 = ys' / 32 := by omega
    have hy6 : ys / 64 = ys' / 64 := by omega
    simp only [bankBits, List.cons.injEq, and_true, xor_and_one, Nat.shiftRight_eq_div_pow,
      Nat.reducePow] at h
    obtain ⟨hzero, hone, htwo, hthree⟩ := h
    rw [hy6] at hzero hone
    rw [hy5] at hone
    rw [hx5] at htwo
    rw [hx6] at hthree
    have hx3 := parity_cancel hzero rfl
    have hx4 := parity_cancel (xor_parity (parity_cancel hone rfl)) rfl
    have hy4 := parity_cancel_left htwo rfl
    have hy3 := parity_cancel_left hthree rfl
    omega
  · simp only [Nat.reduceDiv] at hrow
    have hx4 : xs / 16 = xs' / 16 := by omega
    have hx5 : xs / 32 = xs' / 32 := by omega
    have hx6 : xs / 64 = xs' / 64 := by omega
    have hy6 : ys / 64 = ys' / 64 := by omega
    simp only [bankBits, List.cons.injEq, and_true, xor_and_one, Nat.shiftRight_eq_div_pow,
      Nat.reducePow] at h
    obtain ⟨hzero, hone, htwo, hthree⟩ := h
    rw [hy6] at hzero hone
    rw [hx4] at hone
    rw [hx5] at htwo
    rw [hx6] at hthree
    have hx3 := parity_cancel hzero rfl
    have hy5 := parity_cancel_left (xor_parity (parity_cancel hone rfl)) rfl
    have hy4 := parity_cancel_left htwo rfl
    have hy3 := parity_cancel_left hthree rfl
    omega
  · simp only [Nat.reduceDiv] at hrow
    have hx3 : xs / 8 = xs' / 8 := by omega
    have hx4 : xs / 16 = xs' / 16 := by omega
    have hx5 : xs / 32 = xs' / 32 := by omega
    simp only [bankBits, List.cons.injEq, and_true, xor_and_one, Nat.shiftRight_eq_div_pow,
      Nat.reducePow] at h
    obtain ⟨hzero, hone, htwo⟩ := h
    rw [hx3] at hzero
    rw [hx4] at hone
    rw [hx5] at htwo
    have hy5 := parity_cancel_left hzero rfl
    have hy4 := parity_cancel_left (xor_parity (parity_cancel hone hy5)) rfl
    have hy3 := parity_cancel_left htwo rfl
    omega

def tileSizes : List Nat := [64, 128, 256, 512, 1024]

theorem tileSplitBytes_mem {tileMode : TileMode} {split tileBytes1x : Nat}
    (h : tileBytes1x ∈ tileSizes) : tileSplitBytes tileMode split tileBytes1x ∈ tileSizes := by
  have hlarge : ∀ n k, 64 ≤ n → kDramRowSize ≤ n * 1 <<< (k + 1 + 1 + 1 + 1) := fun n k hn => by
    have hone := Nat.one_le_two_pow (n := k)
    rw [Nat.shiftLeft_eq, Nat.one_mul, show k + 1 + 1 + 1 + 1 = k + 4 from rfl, Nat.pow_add]
    calc
      kDramRowSize ≤ 64 * (1 * 2 ^ 4) := by decide
      _ ≤ n * (2 ^ k * 2 ^ 4) := Nat.mul_le_mul hn (Nat.mul_le_mul_right _ hone)
  have hatLeast : 64 ≤ tileBytes1x := by
    simp only [tileSizes, List.mem_cons, List.not_mem_nil, or_false] at h
    omega
  unfold tileSplitBytes
  split_ifs
  · rcases split with _ | _ | _ | _ | split
    · decide
    · decide
    · decide
    · decide
    · have hmax := hlarge 64 split (Nat.le_refl 64)
      rw [Nat.shiftLeft_eq, Nat.one_mul, ← Nat.shiftLeft_eq] at hmax
      rw [Nat.min_eq_left hmax]
      decide
  · rcases hsplit : tileMode.sampleSplit with _ | _ | _ | _ | sampleSplit
    · simp only [tileSizes, List.mem_cons, List.not_mem_nil, or_false] at h
      rcases h with rfl | rfl | rfl | rfl | rfl <;> decide
    · simp only [tileSizes, List.mem_cons, List.not_mem_nil, or_false] at h
      rcases h with rfl | rfl | rfl | rfl | rfl <;> decide
    · simp only [tileSizes, List.mem_cons, List.not_mem_nil, or_false] at h
      rcases h with rfl | rfl | rfl | rfl | rfl <;> decide
    · simp only [tileSizes, List.mem_cons, List.not_mem_nil, or_false] at h
      rcases h with rfl | rfl | rfl | rfl | rfl <;> decide
    · have hmax := hlarge tileBytes1x sampleSplit hatLeast
      rw [Nat.min_eq_left (hmax.trans (Nat.le_max_right ..))]
      decide

-- The macro tile modes that surfaces of thin tiles get: bank height, aspect and banks.
def MacroShape (m : MacroTileMode) : Prop :=
  m.bankWidth = 0 ∧ (m.bankHeight, m.macroTileAspect, m.numBanks) ∈
    [(3, 2, 3), (2, 2, 3), (1, 1, 3), (0, 1, 3), (0, 0, 2)]

instance (m : MacroTileMode) : Decidable (MacroShape m) :=
  inferInstanceAs (Decidable (_ ∧ _))

theorem macroShape_of_index {tileMode : TileMode} {m : MacroTileMode} {bitsPerElement : Nat}
    (hthin : getMicroTileThickness tileMode.arrayMode = 1)
    (hsize : bitsPerElement ∈ [8, 16, 32, 64, 128])
    (h : getDefaultMacroTileModes[computeMacroTileIndex tileMode bitsPerElement 1]? = some m) :
    MacroShape m := by
  have hbytes : bitsPerElement * kMicroTileWidth * kMicroTileHeight * 1 / 8 ∈ tileSizes := by
    simp only [List.mem_cons, List.not_mem_nil, or_false] at hsize
    rcases hsize with rfl | rfl | rfl | rfl | rfl <;> decide
  have hsplit : tileSplitBytes tileMode tileMode.tileSplit
      (bitsPerElement * kMicroTileWidth * kMicroTileHeight * 1 / 8) ∈ tileSizes :=
    tileSplitBytes_mem hbytes
  have htile : min (tileSplitBytes tileMode tileMode.tileSplit
      (bitsPerElement * kMicroTileWidth * kMicroTileHeight * 1 / 8))
      (1 * (bitsPerElement * kMicroTileWidth * kMicroTileHeight * 1 / 8)) ∈ tileSizes := by
    rw [Nat.one_mul]
    rcases Nat.le_total (tileSplitBytes tileMode tileMode.tileSplit
      (bitsPerElement * kMicroTileWidth * kMicroTileHeight * 1 / 8))
      (bitsPerElement * kMicroTileWidth * kMicroTileHeight * 1 / 8) with hle | hle
    · rwa [Nat.min_eq_left hle]
    · rwa [Nat.min_eq_right hle]
  simp only [computeMacroTileIndex, hthin] at h
  generalize min (tileSplitBytes tileMode tileMode.tileSplit
      (bitsPerElement * kMicroTileWidth * kMicroTileHeight * 1 / 8))
      (1 * (bitsPerElement * kMicroTileWidth * kMicroTileHeight * 1 / 8)) = tile at h htile
  simp only [tileSizes, List.mem_cons, List.not_mem_nil, or_false] at htile
  cases hprt : isPrt tileMode.arrayMode with
  | false =>
      simp only [hprt, Bool.false_eq_true, if_false] at h
      rcases htile with rfl | rfl | rfl | rfl | rfl <;>
        (obtain rfl := Option.some.inj h; decide)
  | true =>
      simp only [hprt, if_true] at h
      rcases htile with rfl | rfl | rfl | rfl | rfl <;>
        (obtain rfl := Option.some.inj h; decide)

-- The height, the aspect and the banks of a macro tile as numbers.
theorem MacroShape.cases {m : MacroTileMode} (h : MacroShape m) :
    1 <<< m.bankWidth = 1 ∧
      (1 <<< m.macroTileAspect, 2 <<< m.numBanks) ∈ [(4, 16), (2, 16), (1, 8)] ∧
      1 <<< m.bankHeight ∈ [1, 2, 4, 8] := by
  obtain ⟨hwidth, hshape⟩ := h
  simp only [List.mem_cons, Prod.mk.injEq, List.not_mem_nil, or_false] at hshape
  rw [hwidth]
  refine ⟨rfl, ?_⟩
  rcases hshape with ⟨h1, h2, h3⟩ | ⟨h1, h2, h3⟩ | ⟨h1, h2, h3⟩ | ⟨h1, h2, h3⟩ | ⟨h1, h2, h3⟩ <;>
    (rw [h1, h2, h3]; decide)

-- The banks of a macro tile as the product of its aspect and the rows of banks.
theorem MacroShape.banks {m : MacroTileMode} (h : MacroShape m) :
    1 <<< m.macroTileAspect * (2 <<< m.numBanks / 1 <<< m.macroTileAspect) = 2 <<< m.numBanks ∧
      0 < 1 <<< m.macroTileAspect ∧ 0 < 2 <<< m.numBanks / 1 <<< m.macroTileAspect := by
  obtain ⟨-, hshape, -⟩ := h.cases
  simp only [List.mem_cons, Prod.mk.injEq, List.not_mem_nil, or_false] at hshape
  rcases hshape with ⟨h1, h2⟩ | ⟨h1, h2⟩ | ⟨h1, h2⟩ <;> (rw [h1, h2]; decide)

section Position

variable {tileMode : TileMode} {m : MacroTileMode} {x y x' y' : Nat}

theorem macroTileWidth_eq (hm : MacroShape m) : macroTileWidth tileMode m =
    8 * (getPipeCount tileMode.pipeConfig * 1 <<< m.macroTileAspect) := by
  rw [macroTileWidth, hm.cases.1, kMicroTileWidth, Nat.mul_one, Nat.mul_assoc]

theorem macroTileHeight_eq (hm : MacroShape m) : macroTileHeight m =
    8 * (1 <<< m.bankHeight * (2 <<< m.numBanks / 1 <<< m.macroTileAspect)) := by
  have hdvd : 1 <<< m.macroTileAspect ∣ 2 <<< m.numBanks := Dvd.intro _ hm.banks.1
  rw [macroTileHeight, kMicroTileHeight, Nat.mul_div_assoc _ hdvd, Nat.mul_assoc]

theorem getPipeCount_pos (h : tileMode.pipeConfig ≠ .other) :
    0 < getPipeCount tileMode.pipeConfig := by
  cases hconfig : tileMode.pipeConfig with
  | other => exact absurd hconfig h
  | p8_32x32_8x16 | p8_32x32_16x16 | p16 => decide

-- A coordinate, or its part inside a macro tile of `a * b` tiles.
def localTo (prt : Bool) (a b n : Nat) : Nat := if prt then n % (8 * (a * b)) else n

theorem localTo_div_mod (prt : Bool) (a b n : Nat) : localTo prt a b n / 8 % a = n / 8 % a := by
  cases prt with
  | false => rfl
  | true =>
      simp only [localTo, if_true]
      rw [Nat.mod_mul_right_div_self, Nat.mod_mul_right_mod]

theorem localTo_div_div {a b n n' : Nat} (hpos : 0 < a * b)
    (h : n / (8 * (a * b)) = n' / (8 * (a * b))) (prt : Bool) :
    localTo prt a b n / 8 / a / b = localTo prt a b n' / 8 / a / b := by
  cases prt with
  | false =>
      simp only [localTo, Bool.false_eq_true, if_false, Nat.div_div_eq_div_mul]
      rwa [Nat.mul_assoc]
  | true =>
      have hzero : ∀ v, v % (8 * (a * b)) / 8 / a / b = 0 := fun v => by
        rw [Nat.mod_mul_right_div_self, Nat.div_div_eq_div_mul]
        exact Nat.div_eq_of_lt (Nat.mod_lt _ hpos)
      simp only [localTo, if_true, hzero]

theorem div_eq_of_localTo {prt : Bool} {a b n n' : Nat}
    (h : n / (8 * (a * b)) = n' / (8 * (a * b)))
    (hlocal : localTo prt a b n / 8 = localTo prt a b n' / 8) : n / 8 = n' / 8 := by
  cases prt with
  | false => exact hlocal
  | true =>
      simp only [localTo, if_true, Nat.mod_mul_right_div_self] at hlocal
      have hquot : n / 8 / (a * b) = n' / 8 / (a * b) := by
        rw [Nat.div_div_eq_div_mul, Nat.div_div_eq_div_mul]
        exact h
      rw [← Nat.div_add_mod (n / 8) (a * b), ← Nat.div_add_mod (n' / 8) (a * b), hquot, hlocal]

def prtThin (tileMode : TileMode) : Bool :=
  tileMode.arrayMode = .tiledThinPrt ∨ tileMode.arrayMode = .tiledThickPrt

theorem xh_eq (hm : MacroShape m) : xh tileMode m x =
    localTo (prtThin tileMode) (getPipeCount tileMode.pipeConfig) (1 <<< m.macroTileAspect) x := by
  simp only [xh, localTo, prtThin, decide_eq_true_eq, macroTileWidth_eq hm]

theorem yh_eq (hm : MacroShape m) : yh tileMode m y =
    localTo (prtThin tileMode) (1 <<< m.bankHeight) (2 <<< m.numBanks / 1 <<< m.macroTileAspect) y := by
  simp only [yh, localTo, prtThin, decide_eq_true_eq, macroTileHeight_eq hm]

theorem countrZero_shift {n v : Nat} (h : n ∈ [1, 2, 4, 8, 16]) : v >>> countrZero n = v / n := by
  rw [Nat.shiftRight_eq_div_pow]
  simp only [List.mem_cons, List.not_mem_nil, or_false] at h
  rcases h with rfl | rfl | rfl | rfl | rfl <;> rfl

theorem getPipeCount_mem (h : tileMode.pipeConfig ≠ .other) :
    getPipeCount tileMode.pipeConfig ∈ [8, 16] := by
  cases hconfig : tileMode.pipeConfig with
  | other => exact absurd hconfig h
  | p8_32x32_8x16 | p8_32x32_16x16 | p16 => decide

-- Pipe, bank and the row in the bank find the tile in its macro tile.
theorem tile_eq_of_position (hm : MacroShape m) (hpipes : tileMode.pipeConfig ≠ .other)
    (hcolumn : x / macroTileWidth tileMode m = x' / macroTileWidth tileMode m)
    (hrow : y / macroTileHeight m = y' / macroTileHeight m)
    (hbankRow : y / 8 % 1 <<< m.bankHeight = y' / 8 % 1 <<< m.bankHeight)
    (hpipe : getPipeIndex (xh tileMode m x) (yh tileMode m y) tileMode.pipeConfig =
      getPipeIndex (xh tileMode m x') (yh tileMode m y') tileMode.pipeConfig)
    (hbank : getBankIndex (xh tileMode m x) (yh tileMode m y) (1 <<< m.bankWidth)
        (1 <<< m.bankHeight) (2 <<< m.numBanks) (getPipeCount tileMode.pipeConfig) =
      getBankIndex (xh tileMode m x') (yh tileMode m y') (1 <<< m.bankWidth)
        (1 <<< m.bankHeight) (2 <<< m.numBanks) (getPipeCount tileMode.pipeConfig)) :
    x / 8 = x' / 8 ∧ y / 8 = y' / 8 := by
  obtain ⟨hwidth, hshape, hheight⟩ := hm.cases
  have hpipePos := getPipeCount_pos hpipes
  obtain ⟨-, haspect⟩ := hm.banks
  have hbankHeight : 0 < 1 <<< m.bankHeight := by
    rw [Nat.shiftLeft_eq, Nat.one_mul]
    exact Nat.two_pow_pos _
  rw [macroTileWidth_eq hm] at hcolumn
  rw [macroTileHeight_eq hm] at hrow
  rw [xh_eq hm, xh_eq hm, yh_eq hm, yh_eq hm] at hpipe hbank
  have hcolumns := localTo_div_div (Nat.mul_pos hpipePos haspect.1) hcolumn
  have hrows := localTo_div_div (Nat.mul_pos hbankHeight haspect.2) hrow
  -- the banks
  have hbits := place_inj (isBits_bankBits _ _ _) (isBits_bankBits _ _ _)
    (length_bankBits _ _ _ _ _) hbank
  rw [hwidth, Nat.one_mul] at hbits
  have hpipeMem : getPipeCount tileMode.pipeConfig ∈ [1, 2, 4, 8, 16] := by
    have hmem := getPipeCount_mem hpipes
    simp only [List.mem_cons, List.not_mem_nil, or_false] at hmem ⊢
    omega
  have hheightMem : 1 <<< m.bankHeight ∈ [1, 2, 4, 8, 16] := by
    simp only [List.mem_cons, List.not_mem_nil, or_false] at hheight ⊢
    omega
  rw [countrZero_shift hpipeMem, countrZero_shift hpipeMem, countrZero_shift hheightMem,
    countrZero_shift hheightMem] at hbits
  have hswap : ∀ v k : Nat, v / k / 8 = v / 8 / k := fun v k => by
    rw [Nat.div_div_eq_div_mul, Nat.div_div_eq_div_mul, Nat.mul_comm]
  obtain ⟨hX, hY⟩ := bankBits_inj hshape (by rw [hswap, hswap]; exact hcolumns _)
    (by rw [hswap, hswap]; exact hrows _) hbits
  rw [hswap, hswap] at hX hY
  -- the row, then the column
  have hy : localTo (prtThin tileMode) (1 <<< m.bankHeight)
        (2 <<< m.numBanks / 1 <<< m.macroTileAspect) y / 8 =
      localTo (prtThin tileMode) (1 <<< m.bankHeight)
        (2 <<< m.numBanks / 1 <<< m.macroTileAspect) y' / 8 := by
    rw [← Nat.div_add_mod (localTo _ _ _ y / 8) (1 <<< m.bankHeight),
      ← Nat.div_add_mod (localTo _ _ _ y' / 8) (1 <<< m.bankHeight), hY, localTo_div_mod,
      localTo_div_mod, hbankRow]
  have hx := getPipeIndex_inj hpipes hX hy hpipe
  exact ⟨div_eq_of_localTo hcolumn hx, div_eq_of_localTo hrow hy⟩

theorem pipe2d_zero : pipe2d tileMode m 0 x y =
    getPipeIndex (xh tileMode m x) (yh tileMode m y) tileMode.pipeConfig := by
  simp only [pipe2d, pipeRotation, Nat.zero_div, Nat.mul_zero, ite_self, Nat.zero_and, Nat.xor_zero]

-- What the slices of a split tile turn the banks by.
def splitRotation (tileMode : TileMode) (m : MacroTileMode) (split : Nat) : Nat :=
  if rotatesTileSplits tileMode.arrayMode then (2 <<< m.numBanks / 2 + 1) * split else 0

theorem bank2d_zero (split : Nat) : bank2d tileMode m 0 split x y =
    (getBankIndex (xh tileMode m x) (yh tileMode m y) (1 <<< m.bankWidth) (1 <<< m.bankHeight)
      (2 <<< m.numBanks) (getPipeCount tileMode.pipeConfig) ^^^ splitRotation tileMode m split) %
      2 ^ (m.numBanks + 1) := by
  have hbanks : 2 <<< m.numBanks = 2 ^ (m.numBanks + 1) := by
    rw [Nat.shiftLeft_eq, Nat.pow_succ, Nat.mul_comm]
  rw [← Nat.and_two_pow_sub_one_eq_mod, ← hbanks]
  simp only [bank2d, splitRotation, pipeRotation, Nat.zero_div, Nat.mul_zero, ite_self,
    Nat.xor_zero]

theorem bank2d_inj {split : Nat} (hm : MacroShape m)
    (h : bank2d tileMode m 0 split x y = bank2d tileMode m 0 split x' y') :
    getBankIndex (xh tileMode m x) (yh tileMode m y) (1 <<< m.bankWidth) (1 <<< m.bankHeight)
        (2 <<< m.numBanks) (getPipeCount tileMode.pipeConfig) =
      getBankIndex (xh tileMode m x') (yh tileMode m y') (1 <<< m.bankWidth) (1 <<< m.bankHeight)
        (2 <<< m.numBanks) (getPipeCount tileMode.pipeConfig) := by
  have hlt : ∀ v w, getBankIndex v w (1 <<< m.bankWidth) (1 <<< m.bankHeight) (2 <<< m.numBanks)
      (getPipeCount tileMode.pipeConfig) < 2 ^ (m.numBanks + 1) := fun v w => by
    refine (place_lt (isBits_bankBits _ _ _)).trans_le (Nat.pow_le_pow_right (by decide) ?_)
    obtain ⟨-, hshape⟩ := hm
    simp only [List.mem_cons, Prod.mk.injEq, List.not_mem_nil, or_false] at hshape
    rcases hshape with ⟨-, -, h3⟩ | ⟨-, -, h3⟩ | ⟨-, -, h3⟩ | ⟨-, -, h3⟩ | ⟨-, -, h3⟩ <;>
      (rw [h3]; exact Nat.le_refl _)
  rw [bank2d_zero, bank2d_zero, Nat.xor_mod_two_pow, Nat.xor_mod_two_pow,
    Nat.mod_eq_of_lt (hlt _ _), Nat.mod_eq_of_lt (hlt _ _)] at h
  exact Nat.xor_left_injective h

end Position

section Offset

variable {tileMode : TileMode} {m : MacroTileMode} {x y dataWidth dataHeight bytes : Nat}

-- The bytes of a micro tile that stay in one piece.
def pieceBytes (tileMode : TileMode) (bytes : Nat) : Nat :=
  min (tileSplitBytes tileMode tileMode.tileSplit (64 * bytes)) (64 * bytes)

def macroTileNumber (tileMode : TileMode) (m : MacroTileMode) (dataWidth x y : Nat) : Nat :=
  y / macroTileHeight m * (dataWidth / macroTileWidth tileMode m) + x / macroTileWidth tileMode m

-- The offset of an element in its pipe and bank.
def bankOffset (tileMode : TileMode) (m : MacroTileMode) (dataWidth dataHeight bytes x y element : Nat) :
    Nat :=
  ((element / pieceBytes tileMode bytes *
        (dataWidth / macroTileWidth tileMode m * (dataHeight / macroTileHeight m)) +
      macroTileNumber tileMode m dataWidth x y) * 1 <<< m.bankHeight +
    y / kMicroTileHeight % 1 <<< m.bankHeight) * pieceBytes tileMode bytes +
    element % pieceBytes tileMode bytes

theorem macroTileBytes_eq (hm : MacroShape m) (hpipes : tileMode.pipeConfig ≠ .other) (tile : Nat) :
    macroTileWidth tileMode m / kMicroTileWidth * (macroTileHeight m / kMicroTileHeight) * tile /
        (getPipeCount tileMode.pipeConfig * 2 <<< m.numBanks) = 1 <<< m.bankHeight * tile := by
  obtain ⟨hbanks, haspect, hrows⟩ := hm.banks
  rw [macroTileWidth_eq hm, macroTileHeight_eq hm, kMicroTileWidth, kMicroTileHeight,
    Nat.mul_div_cancel_left _ (by decide : 0 < 8), Nat.mul_div_cancel_left _ (by decide : 0 < 8)]
  have hproduct : getPipeCount tileMode.pipeConfig * 1 <<< m.macroTileAspect *
      (1 <<< m.bankHeight * (2 <<< m.numBanks / 1 <<< m.macroTileAspect)) * tile =
      getPipeCount tileMode.pipeConfig * 2 <<< m.numBanks * (1 <<< m.bankHeight * tile) := by
    generalize 2 <<< m.numBanks / 1 <<< m.macroTileAspect = rows at hbanks ⊢
    rw [← hbanks]
    ring
  have hbankPos : 0 < 2 <<< m.numBanks := hbanks ▸ Nat.mul_pos haspect hrows
  rw [hproduct, Nat.mul_div_cancel_left _ (Nat.mul_pos (getPipeCount_pos hpipes) hbankPos)]

theorem tiledByteOffset2d_eq (hm : MacroShape m) (hpipes : tileMode.pipeConfig ≠ .other)
    (hthin : getMicroTileThickness tileMode.arrayMode = 1)
    (hindex : shaderElementIndex x y 0 (8 * bytes) tileMode.microTileMode tileMode.arrayMode < 64) :
    getTiledBitOffset2D tileMode m dataWidth dataHeight 0 0 (8 * bytes) x y 0 0 =
      interleave (getPipeCount tileMode.pipeConfig) (2 <<< m.numBanks)
        (pipe2d tileMode m 0 x y)
        (bank2d tileMode m 0
          (shaderElementIndex x y 0 (8 * bytes) tileMode.microTileMode tileMode.arrayMode * bytes /
            pieceBytes tileMode bytes) x y)
        (bankOffset tileMode m dataWidth dataHeight bytes x y
          (shaderElementIndex x y 0 (8 * bytes) tileMode.microTileMode tileMode.arrayMode * bytes) *
            8) := by
  have hbytes1x : (1 * (8 * bytes) * kMicroTileWidth * kMicroTileHeight + 7) / 8 = 64 * bytes := by
    simp only [kMicroTileWidth, kMicroTileHeight]
    omega
  have hbytesAll : (kMicroTileWidth * kMicroTileHeight * 1 * (8 * bytes) * 1 <<< 0 + 7) / 8 =
      64 * bytes := by
    simp only [kMicroTileWidth, kMicroTileHeight, Nat.shiftLeft_zero]
    omega
  simp only [getTiledBitOffset2D, hthin, hbytes1x, hbytesAll, macroTileBytes_eq hm hpipes]
  generalize shaderElementIndex x y 0 (8 * bytes) tileMode.microTileMode tileMode.arrayMode = index
    at hindex ⊢
  have helement : (if tileMode.microTileMode = .depth then
        index * (8 * bytes) * 1 <<< 0 + 0 * (8 * bytes)
      else 0 * (64 * bytes / 1 <<< 0) * 8 + index * (8 * bytes)) = index * bytes * 8 := by
    rw [Nat.shiftLeft_zero]
    split_ifs <;> ring
  simp only [helement, and_true, gt_iff_lt, ne_eq, not_true_eq_false, if_false, Nat.mul_zero,
    Nat.zero_div, Nat.add_zero, hm.cases.1, Nat.mod_one, Nat.mul_one]
  by_cases hsplit : tileSplitBytes tileMode tileMode.tileSplit (64 * bytes) < 64 * bytes
  · have hpiece : pieceBytes tileMode bytes =
        tileSplitBytes tileMode tileMode.tileSplit (64 * bytes) := Nat.min_eq_left hsplit.le
    simp only [if_pos hsplit, bankOffset, hpiece, macroTileNumber,
      Nat.mul_div_mul_right _ _ (by decide : 0 < 8), Nat.mul_mod_mul_right]
    congr 1
    ring
  · have hpiece : pieceBytes tileMode bytes = 64 * bytes := Nat.min_eq_right (by omega)
    have hbytes : 0 < bytes ∨ bytes = 0 := by omega
    have hquot : index * bytes / (64 * bytes) = 0 := by
      rcases hbytes with hpos | rfl
      · exact Nat.div_eq_of_lt (Nat.mul_lt_mul_of_pos_right hindex hpos)
      · simp
    have hrest : index * bytes % (64 * bytes) = index * bytes := by
      rcases hbytes with hpos | rfl
      · exact Nat.mod_eq_of_lt (Nat.mul_lt_mul_of_pos_right hindex hpos)
      · simp
    simp only [if_neg hsplit, bankOffset, hpiece, macroTileNumber, hquot, hrest]
    congr 1
    ring

theorem pipe2d_lt (hpipes : tileMode.pipeConfig ≠ .other) :
    pipe2d tileMode m 0 x y < getPipeCount tileMode.pipeConfig := by
  rw [pipe2d_zero]
  refine (place_lt (isBits_pipeIndexBits _ _ _)).trans_le ?_
  cases hconfig : tileMode.pipeConfig with
  | other => exact absurd hconfig hpipes
  | p8_32x32_8x16 | p8_32x32_16x16 | p16 => exact Nat.le_refl _

theorem numBanks_eq : 2 <<< m.numBanks = 2 ^ (m.numBanks + 1) := by
  rw [Nat.shiftLeft_eq, Nat.pow_succ, Nat.mul_comm]

theorem bank2d_lt (split : Nat) : bank2d tileMode m 0 split x y < 2 <<< m.numBanks := by
  rw [bank2d_zero, numBanks_eq]
  exact Nat.mod_lt _ (Nat.two_pow_pos _)

-- The index of an element in its micro tile, and its first byte there.
def elementByte (tileMode : TileMode) (bytes x y : Nat) : Nat :=
  shaderElementIndex x y 0 (8 * bytes) tileMode.microTileMode tileMode.arrayMode * bytes

def tiledByte2d (tileMode : TileMode) (m : MacroTileMode) (dataWidth dataHeight bytes x y : Nat) : Nat :=
  interleaved (getPipeCount tileMode.pipeConfig) (2 <<< m.numBanks) (pipe2d tileMode m 0 x y)
    (bank2d tileMode m 0 (elementByte tileMode bytes x y / pieceBytes tileMode bytes) x y)
    (bankOffset tileMode m dataWidth dataHeight bytes x y (elementByte tileMode bytes x y))

theorem tiledByte2d_eq (hm : MacroShape m) (hpipes : tileMode.pipeConfig ≠ .other)
    (hthin : getMicroTileThickness tileMode.arrayMode = 1)
    (hindex : shaderElementIndex x y 0 (8 * bytes) tileMode.microTileMode tileMode.arrayMode < 64) :
    getTiledBitOffset2D tileMode m dataWidth dataHeight 0 0 (8 * bytes) x y 0 0 / 8 =
      tiledByte2d tileMode m dataWidth dataHeight bytes x y := by
  have hbanks : countrZero (2 <<< m.numBanks) = m.numBanks + 1 := by
    obtain ⟨-, hshape⟩ := hm
    simp only [List.mem_cons, Prod.mk.injEq, List.not_mem_nil, or_false] at hshape
    rcases hshape with ⟨-, -, h3⟩ | ⟨-, -, h3⟩ | ⟨-, -, h3⟩ | ⟨-, -, h3⟩ | ⟨-, -, h3⟩ <;>
      (rw [h3]; decide)
  have hcount : getPipeCount tileMode.pipeConfig =
      2 ^ countrZero (getPipeCount tileMode.pipeConfig) := by
    cases hconfig : tileMode.pipeConfig with
    | other => exact absurd hconfig hpipes
    | p8_32x32_8x16 | p8_32x32_16x16 | p16 => decide
  rw [tiledByteOffset2d_eq hm hpipes hthin hindex,
    interleave_eq hcount numBanks_eq rfl hbanks (pipe2d_lt hpipes) (bank2d_lt _),
    Nat.mul_div_cancel _ (by decide : 0 < 8)]
  rfl

theorem dvd_of_mem_tileSizes {a b : Nat} (ha : a ∈ tileSizes) (hb : b ∈ tileSizes) (h : a ≤ b) :
    a ∣ b := by
  simp only [tileSizes, List.mem_cons, List.not_mem_nil, or_false] at ha hb
  rcases ha with rfl | rfl | rfl | rfl | rfl <;> rcases hb with rfl | rfl | rfl | rfl | rfl <;>
    first | decide | omega

theorem pieceBytes_mem (hbytes : 64 * bytes ∈ tileSizes) : pieceBytes tileMode bytes ∈ tileSizes := by
  have hsplit : tileSplitBytes tileMode tileMode.tileSplit (64 * bytes) ∈ tileSizes :=
    tileSplitBytes_mem hbytes
  unfold pieceBytes
  rcases Nat.le_total (tileSplitBytes tileMode tileMode.tileSplit (64 * bytes)) (64 * bytes)
    with hle | hle
  · rwa [Nat.min_eq_left hle]
  · rwa [Nat.min_eq_right hle]

theorem pieceBytes_dvd (hbytes : 64 * bytes ∈ tileSizes) :
    64 ∣ pieceBytes tileMode bytes ∧ pieceBytes tileMode bytes ∣ 64 * bytes ∧
      0 < pieceBytes tileMode bytes := by
  have hpiece : pieceBytes tileMode bytes ∈ tileSizes := pieceBytes_mem hbytes
  have hlarge : 64 ≤ pieceBytes tileMode bytes := by
    simp only [tileSizes, List.mem_cons, List.not_mem_nil, or_false] at hpiece
    omega
  exact ⟨dvd_of_mem_tileSizes (by decide) hpiece hlarge,
    dvd_of_mem_tileSizes hpiece hbytes (Nat.min_le_right ..), by omega⟩

theorem macroTile_pos (hm : MacroShape m) (hpipes : tileMode.pipeConfig ≠ .other) :
    0 < macroTileWidth tileMode m ∧ 0 < macroTileHeight m ∧ 0 < 1 <<< m.bankHeight := by
  obtain ⟨-, haspect, hrows⟩ := hm.banks
  have hpipePos := getPipeCount_pos hpipes
  have hbank : 0 < 1 <<< m.bankHeight := by
    rw [Nat.shiftLeft_eq, Nat.one_mul]
    exact Nat.two_pow_pos _
  rw [macroTileWidth_eq hm, macroTileHeight_eq hm]
  exact ⟨Nat.mul_pos (by decide) (Nat.mul_pos hpipePos haspect),
    Nat.mul_pos (by decide) (Nat.mul_pos hbank hrows), hbank⟩

theorem macroTileNumber_lt (hwide : macroTileWidth tileMode m ∣ dataWidth)
    (hhigh : macroTileHeight m ∣ dataHeight) (hx : x < dataWidth) (hy : y < dataHeight) :
    x / macroTileWidth tileMode m < dataWidth / macroTileWidth tileMode m ∧
      macroTileNumber tileMode m dataWidth x y <
        dataWidth / macroTileWidth tileMode m * (dataHeight / macroTileHeight m) := by
  have hcolumn : x / macroTileWidth tileMode m < dataWidth / macroTileWidth tileMode m :=
    Nat.div_lt_of_lt_mul (by rw [Nat.mul_div_cancel' hwide]; exact hx)
  have hrow : y / macroTileHeight m < dataHeight / macroTileHeight m :=
    Nat.div_lt_of_lt_mul (by rw [Nat.mul_div_cancel' hhigh]; exact hy)
  refine ⟨hcolumn, ?_⟩
  calc
    _ < y / macroTileHeight m * (dataWidth / macroTileWidth tileMode m) +
        dataWidth / macroTileWidth tileMode m := Nat.add_lt_add_left hcolumn _
    _ = dataWidth / macroTileWidth tileMode m * (y / macroTileHeight m + 1) := by ring
    _ ≤ dataWidth / macroTileWidth tileMode m * (dataHeight / macroTileHeight m) :=
      Nat.mul_le_mul_left _ hrow

theorem bankOffset_inj {x' y' element element' : Nat} (hm : MacroShape m)
    (hpipes : tileMode.pipeConfig ≠ .other) (hbytes : 64 * bytes ∈ tileSizes)
    (hwide : macroTileWidth tileMode m ∣ dataWidth) (hhigh : macroTileHeight m ∣ dataHeight)
    (hx : x < dataWidth) (hy : y < dataHeight) (hx' : x' < dataWidth) (hy' : y' < dataHeight)
    (h : bankOffset tileMode m dataWidth dataHeight bytes x y element =
      bankOffset tileMode m dataWidth dataHeight bytes x' y' element') :
    element = element' ∧ x / macroTileWidth tileMode m = x' / macroTileWidth tileMode m ∧
      y / macroTileHeight m = y' / macroTileHeight m ∧
      y / 8 % 1 <<< m.bankHeight = y' / 8 % 1 <<< m.bankHeight := by
  have hpiece : 0 < pieceBytes tileMode bytes := (pieceBytes_dvd hbytes).2.2
  obtain ⟨-, -, hbank⟩ := macroTile_pos hm hpipes
  obtain ⟨hcolumn, hnumber⟩ := macroTileNumber_lt hwide hhigh hx hy
  obtain ⟨hcolumn', hnumber'⟩ := macroTileNumber_lt hwide hhigh hx' hy'
  obtain ⟨htile, hbelow⟩ := radix_inj (Nat.mod_lt _ hpiece) (Nat.mod_lt _ hpiece) h
  obtain ⟨hslice, hrow⟩ := radix_inj (Nat.mod_lt _ hbank) (Nat.mod_lt _ hbank) htile
  obtain ⟨hsplit, hmacro⟩ := radix_inj hnumber hnumber' hslice
  obtain ⟨hmacroRow, hmacroColumn⟩ := radix_inj hcolumn hcolumn' hmacro
  refine ⟨?_, hmacroColumn, hmacroRow, hrow⟩
  rw [← Nat.div_add_mod element (pieceBytes tileMode bytes),
    ← Nat.div_add_mod element' (pieceBytes tileMode bytes), hsplit, hbelow]

-- Thin tiles on a plane of whole macro tiles do not share a byte offset.
theorem tiledByte2d_inj {x' y' : Nat} (hm : MacroShape m) (hpipes : tileMode.pipeConfig ≠ .other)
    (hthin : getMicroTileThickness tileMode.arrayMode = 1) (hbytes : bytes ∈ [1, 2, 4, 8, 16])
    (horder : SeparatesElements tileMode.microTileMode tileMode.arrayMode (8 * bytes) 1)
    (hwide : macroTileWidth tileMode m ∣ dataWidth) (hhigh : macroTileHeight m ∣ dataHeight)
    (hx : x < dataWidth) (hy : y < dataHeight) (hx' : x' < dataWidth) (hy' : y' < dataHeight)
    (h : tiledByte2d tileMode m dataWidth dataHeight bytes x y =
      tiledByte2d tileMode m dataWidth dataHeight bytes x' y') : x = x' ∧ y = y' := by
  have hsizes : 64 * bytes ∈ tileSizes ∧ 8 * bytes ∈ [8, 16, 32, 64, 128] ∧ 0 < bytes := by
    simp only [List.mem_cons, List.not_mem_nil, or_false] at hbytes
    rcases hbytes with rfl | rfl | rfl | rfl | rfl <;> decide
  obtain ⟨hpipe, hbank, htotal⟩ := interleaved_inj (pipe2d_lt hpipes) (pipe2d_lt hpipes)
    (bank2d_lt _) (bank2d_lt _) h
  obtain ⟨helement, hcolumn, hrow, hbankRow⟩ :=
    bankOffset_inj hm hpipes hsizes.1 hwide hhigh hx hy hx' hy' htotal
  rw [helement] at hbank
  rw [pipe2d_zero, pipe2d_zero] at hpipe
  obtain ⟨hxTile, hyTile⟩ :=
    tile_eq_of_position hm hpipes hcolumn hrow hbankRow hpipe (bank2d_inj hm hbank)
  have hindex := Nat.eq_of_mul_eq_mul_right hsizes.2.2 helement
  obtain ⟨hxPlace, hyPlace, -⟩ := shaderElementIndex_inj (Or.inl hthin) horder hsizes.2.1
    (by decide) (by decide) hindex
  exact ⟨by omega, by omega⟩

theorem elementByte_lt (hthin : getMicroTileThickness tileMode.arrayMode = 1) (hpos : 0 < bytes)
    (horder : SeparatesElements tileMode.microTileMode tileMode.arrayMode (8 * bytes) 1) :
    elementByte tileMode bytes x y < 64 * bytes := by
  have hindex : shaderElementIndex x y 0 (8 * bytes) tileMode.microTileMode tileMode.arrayMode <
      64 * getMicroTileThickness tileMode.arrayMode := shaderElementIndex_lt (Or.inl hthin) horder
  rw [hthin, Nat.mul_one] at hindex
  exact Nat.mul_lt_mul_of_pos_right hindex hpos

theorem bankOffset_lt {element : Nat} (hm : MacroShape m) (hpipes : tileMode.pipeConfig ≠ .other)
    (hbytes : 64 * bytes ∈ tileSizes) (helement : element < 64 * bytes)
    (hwide : macroTileWidth tileMode m ∣ dataWidth) (hhigh : macroTileHeight m ∣ dataHeight)
    (hx : x < dataWidth) (hy : y < dataHeight) :
    bankOffset tileMode m dataWidth dataHeight bytes x y element <
      dataWidth / macroTileWidth tileMode m * (dataHeight / macroTileHeight m) *
        1 <<< m.bankHeight * (64 * bytes) := by
  have hpiece : 0 < pieceBytes tileMode bytes := (pieceBytes_dvd hbytes).2.2
  have hdvd : pieceBytes tileMode bytes ∣ 64 * bytes := (pieceBytes_dvd hbytes).2.1
  obtain ⟨pieces, hpieces⟩ := hdvd
  obtain ⟨-, -, hbank⟩ := macroTile_pos hm hpipes
  obtain ⟨-, hnumber⟩ := macroTileNumber_lt hwide hhigh hx hy
  generalize hplane : dataWidth / macroTileWidth tileMode m * (dataHeight / macroTileHeight m) =
    plane at hnumber ⊢
  have hsplit : element / pieceBytes tileMode bytes + 1 ≤ pieces :=
    Nat.div_lt_of_lt_mul (hpieces ▸ helement)
  have hslice : element / pieceBytes tileMode bytes * plane +
      macroTileNumber tileMode m dataWidth x y + 1 ≤ pieces * plane := by
    calc
      _ ≤ element / pieceBytes tileMode bytes * plane + plane := Nat.add_le_add_left hnumber _
      _ = (element / pieceBytes tileMode bytes + 1) * plane := by ring
      _ ≤ pieces * plane := Nat.mul_le_mul_right _ hsplit
  have hrow := Nat.mod_lt (y / kMicroTileHeight) hbank
  have htile : (element / pieceBytes tileMode bytes * plane +
      macroTileNumber tileMode m dataWidth x y) * 1 <<< m.bankHeight +
      y / kMicroTileHeight % 1 <<< m.bankHeight + 1 ≤ pieces * plane * 1 <<< m.bankHeight := by
    calc
      _ ≤ (element / pieceBytes tileMode bytes * plane + macroTileNumber tileMode m dataWidth x y) *
          1 <<< m.bankHeight + 1 <<< m.bankHeight := Nat.add_le_add_left hrow _
      _ = (element / pieceBytes tileMode bytes * plane + macroTileNumber tileMode m dataWidth x y +
          1) * 1 <<< m.bankHeight := by ring
      _ ≤ _ := Nat.mul_le_mul_right _ hslice
  have hbelow := Nat.mod_lt element hpiece
  rw [bankOffset, hplane, hpieces]
  calc
    _ < ((element / pieceBytes tileMode bytes * plane + macroTileNumber tileMode m dataWidth x y) *
        1 <<< m.bankHeight + y / kMicroTileHeight % 1 <<< m.bankHeight) *
        pieceBytes tileMode bytes + pieceBytes tileMode bytes := Nat.add_lt_add_left hbelow _
    _ = ((element / pieceBytes tileMode bytes * plane + macroTileNumber tileMode m dataWidth x y) *
        1 <<< m.bankHeight + y / kMicroTileHeight % 1 <<< m.bankHeight + 1) *
        pieceBytes tileMode bytes := by ring
    _ ≤ pieces * plane * 1 <<< m.bankHeight * pieceBytes tileMode bytes :=
      Nat.mul_le_mul_right _ htile
    _ = _ := by ring

theorem tiledByte2d_lt (hm : MacroShape m) (hpipes : tileMode.pipeConfig ≠ .other)
    (hthin : getMicroTileThickness tileMode.arrayMode = 1) (hbytes : 64 * bytes ∈ tileSizes)
    (horder : SeparatesElements tileMode.microTileMode tileMode.arrayMode (8 * bytes) 1)
    (hwide : macroTileWidth tileMode m ∣ dataWidth) (hhigh : macroTileHeight m ∣ dataHeight)
    (hfull : 256 ∣ dataWidth / macroTileWidth tileMode m * (dataHeight / macroTileHeight m) *
      1 <<< m.bankHeight * (64 * bytes))
    (hx : x < dataWidth) (hy : y < dataHeight) :
    tiledByte2d tileMode m dataWidth dataHeight bytes x y < dataWidth * dataHeight * bytes := by
  have hpos : 0 < bytes := by
    have hlarge : 64 ≤ 64 * bytes := by
      simp only [tileSizes, List.mem_cons, List.not_mem_nil, or_false] at hbytes
      omega
    omega
  have hlt : tiledByte2d tileMode m dataWidth dataHeight bytes x y <
      dataWidth / macroTileWidth tileMode m * (dataHeight / macroTileHeight m) *
        1 <<< m.bankHeight * (64 * bytes) *
          (getPipeCount tileMode.pipeConfig * 2 <<< m.numBanks) :=
    interleaved_lt (pipe2d_lt hpipes) (bank2d_lt _) hfull
      (bankOffset_lt hm hpipes hbytes (elementByte_lt hthin hpos horder) hwide hhigh hx hy)
  refine hlt.trans_eq ?_
  have hbanks := hm.banks.1
  obtain ⟨columns, hcolumns⟩ := hwide
  obtain ⟨rows, hrows⟩ := hhigh
  obtain ⟨hposWidth, hposHeight, -⟩ := macroTile_pos hm hpipes
  rw [hcolumns, hrows, Nat.mul_div_cancel_left _ hposWidth, Nat.mul_div_cancel_left _ hposHeight,
    macroTileWidth_eq hm, macroTileHeight_eq hm]
  generalize 2 <<< m.numBanks / 1 <<< m.macroTileAspect = bankRows at hbanks ⊢
  rw [← hbanks]
  ring

-- The offset of an element is a multiple of the bytes of a copy.
theorem dvd_tiledByte2d {copy : Nat} (hbytes : 64 * bytes ∈ tileSizes) (hcopy : copy ∣ 64)
    (helement : copy ∣ elementByte tileMode bytes x y) :
    copy ∣ tiledByte2d tileMode m dataWidth dataHeight bytes x y := by
  have hpiece : copy ∣ pieceBytes tileMode bytes := hcopy.trans (pieceBytes_dvd hbytes).1
  have htotal : copy ∣ bankOffset tileMode m dataWidth dataHeight bytes x y
      (elementByte tileMode bytes x y) :=
    Nat.dvd_add (hpiece.mul_left _) ((Nat.dvd_mod_iff hpiece).mpr helement)
  have h256 : copy ∣ 256 := hcopy.trans (by decide)
  exact Nat.dvd_add ((Nat.dvd_mod_iff h256).mpr htotal) (h256.mul_right _)

end Offset

end Rpcsx.AmdgpuTiler
