import Mathlib.Data.BitVec
import Rpcsx.Data.Scatter
import Mathlib.Tactic.Ring

namespace Rpcsx.Rsx.TiledDma

open Data

structure DetilerConfig where
  prime : BitVec 32
  factor : BitVec 32
  numTilesPerRow : BitVec 32
  tileBaseAddress : BitVec 32
  tileSize : BitVec 32
  tileAddressOffset : BitVec 32
  tileRwOffset : BitVec 32
  tilePitch : BitVec 32
  tileBank : BitVec 32
  imageWidth : BitVec 32
  imageHeight : BitVec 32
  imagePitch : BitVec 32
  imageBpp : BitVec 32

inductive DmaOp where
  | encodeTile
  | decodeTile
deriving DecidableEq

def bankDistributionLookup : List (BitVec 32) := [0, 1, 2, 3, 2, 3, 0, 1, 1, 2, 3, 0, 3, 0, 1, 2]

namespace DetilerConfig

variable (conf : DetilerConfig) (row col : BitVec 32)

def thisAddress : BitVec 32 :=
  row * conf.tilePitch + conf.tileBaseAddress + conf.tileAddressOffset + col * conf.imageBpp

def texelOffset : BitVec 32 := (conf.thisAddress row col - conf.tileBaseAddress) / 256

def tileX : BitVec 32 := conf.texelOffset row col % conf.numTilesPerRow

def tileY : BitVec 32 := conf.texelOffset row col / conf.numTilesPerRow / 64

def tileId : BitVec 32 := conf.tileY row col * conf.numTilesPerRow + conf.tileX row col

def tileSelector : BitVec 32 :=
  (conf.tileId row col + (conf.tileBaseAddress >>> 14)) &&& 0x3ffff

def rowAddress : BitVec 32 := (conf.tileSelector row col >>> 2) &&& 0xffff

def lineOffsetInTile : BitVec 32 := conf.texelOffset row col / conf.numTilesPerRow % 64

end DetilerConfig

def bankOf (factor selector tileY : BitVec 32) : BitVec 32 :=
  if factor = 1 then selector &&& 3
  else if factor = 2 then
    let idx := ((selector + ((tileY &&& 1) <<< 1)) &&& 3) * 4 + (tileY &&& 3)
    bankDistributionLookup.getD idx.toNat 0
  else if factor ≥ 4 then
    let idx := (selector &&& 3) * 4 + (tileY &&& 3)
    bankDistributionLookup.getD idx.toNat 0
  else 0

def bankSelector (conf : DetilerConfig) (row col : BitVec 32) : BitVec 32 :=
  (bankOf conf.factor (conf.tileSelector row col) (conf.tileY row col) + conf.tileBank) &&& 3

def columnSelector (line address : BitVec 32) : BitVec 32 :=
  (((line >>> 3) &&& 0x7) <<< 7) ||| (((address >>> 5) &&& 0x7) <<< 4) ||| ((line &&& 0x3) <<< 2)

def partitionSelector (line address : BitVec 32) : BitVec 32 :=
  (((line >>> 2) &&& 1) + ((address >>> 6) &&& 1)) &&& 1

-- The address before bits 9 and 10 are twiddled.
def buildAddress (rowAddress bank line address : BitVec 32) : BitVec 32 :=
  ((rowAddress &&& 0xffff) <<< 16) ||| ((bank &&& 0x3) <<< 14) |||
    (((columnSelector line address >>> 4) &&& 0x3f) <<< 8) |||
    ((partitionSelector line address &&& 0x1) <<< 7) |||
    (((columnSelector line address >>> 2) &&& 0x3) <<< 5) ||| (address &&& 0x1f)

def twiddle9 (bank selector tileAddress : BitVec 32) : BitVec 32 :=
  tileAddress ^^^
    ((((tileAddress >>> 12) ^^^ ((bank ^^^ selector) &&& 1) ^^^ (tileAddress >>> 14)) &&& 1) <<< 9)

def twiddle10 (tileAddress : BitVec 32) : BitVec 32 :=
  tileAddress ^^^ (((tileAddress >>> 11) &&& 1) <<< 10)

def tileAddress (conf : DetilerConfig) (row col : BitVec 32) : BitVec 32 :=
  let bank := bankSelector conf row col
  twiddle10 (twiddle9 bank (conf.tileSelector row col)
    (buildAddress (conf.rowAddress row col) bank (conf.lineOffsetInTile row col)
      (conf.thisAddress row col)))

def linearImageOffset (conf : DetilerConfig) (row col : BitVec 32) : BitVec 32 :=
  row * conf.imagePitch + col * conf.imageBpp

def tileBaseOffset (conf : DetilerConfig) (row col : BitVec 32) : BitVec 32 :=
  tileAddress conf row col - conf.tileBaseAddress

abbrev Memory := Nat → BitVec 8

-- The buffer that is written to, after the copy of one texel.
def tiledDmaCopy (row col : BitVec 32) (conf : DetilerConfig) (op : DmaOp) (src dst : Memory) :
    Memory :=
  let tileDataOffset := tileBaseOffset conf row col - conf.tileRwOffset
  if tileBaseOffset conf row col ≥ conf.tileSize then dst
  else
    match op with
    | .encodeTile => copyCells conf.imageBpp.toNat src dst tileDataOffset.toNat
        (linearImageOffset conf row col).toNat
    | .decodeTile => copyCells conf.imageBpp.toNat src dst (linearImageOffset conf row col).toNat
        tileDataOffset.toNat

def getPrimeFactor (pitch : BitVec 32) : BitVec 32 × BitVec 32 :=
  let base := pitch >>> 8
  if pitch &&& (pitch - 1) = 0 then (1, base)
  else
    match [3, 5, 7, 11, 13].find? fun prime => base % prime = 0 with
    | some prime => (prime, base / prime)
    | none => (0, 0)

def detilerConfig (imageBpp baseAddress baseOffset tileSize : BitVec 32) (bankSense : BitVec 8)
    (rowPitchInBytes imageWidth imageHeight : BitVec 16) : DetilerConfig :=
  let pitch := rowPitchInBytes.setWidth 32
  let primeFactor := getPrimeFactor pitch
  { prime := primeFactor.1
    factor := primeFactor.2
    numTilesPerRow := primeFactor.1 * primeFactor.2
    tileBaseAddress := baseAddress
    tileSize := tileSize
    tileAddressOffset := baseOffset
    tileRwOffset := baseOffset
    tilePitch := pitch
    tileBank := bankSense.setWidth 32
    imageWidth := imageWidth.setWidth 32
    imageHeight := imageHeight.setWidth 32
    imagePitch := pitch
    imageBpp := imageBpp }

-- The two loops of `tile_texel_data`, for a destination and a source.
def texelData (conf : DetilerConfig) (op : DmaOp) (dst src : Memory) : Memory :=
  (List.range conf.imageHeight.toNat).foldl (fun dst row =>
    (List.range conf.imageWidth.toNat).foldl (fun dst col =>
      tiledDmaCopy (BitVec.ofNat 32 row) (BitVec.ofNat 32 col) conf op src dst) dst) dst

inductive TexelType where
  | u16
  | u32
deriving DecidableEq

def TexelType.size : TexelType → BitVec 32
  | .u16 => 2
  | .u32 => 4

def tileTexelData (t : TexelType) (dst src : Memory) (baseAddress baseOffset tileSize : BitVec 32)
    (bankSense : BitVec 8) (rowPitchInBytes imageWidth imageHeight : BitVec 16) : Memory :=
  texelData (detilerConfig t.size baseAddress baseOffset tileSize bankSense rowPitchInBytes
    imageWidth imageHeight) .encodeTile dst src

def detileTexelData (t : TexelType) (dst src : Memory)
    (baseAddress baseOffset tileSize : BitVec 32) (bankSense : BitVec 8)
    (rowPitchInBytes imageWidth imageHeight : BitVec 16) : Memory :=
  texelData (detilerConfig t.size baseAddress baseOffset tileSize bankSense rowPitchInBytes
    imageWidth imageHeight) .decodeTile dst src

end Rpcsx.Rsx.TiledDma

namespace Rpcsx.Rsx.TiledDma

theorem and_one_toNat (x : BitVec 32) : (x &&& 1).toNat = x.toNat % 2 :=
  Nat.and_two_pow_sub_one_eq_mod x.toNat 1

theorem and_three_toNat (x : BitVec 32) : (x &&& 3).toNat = x.toNat % 4 :=
  Nat.and_two_pow_sub_one_eq_mod x.toNat 2

-- The bank of a tile by the low bits of its selector and its tile row.
def bank2 (selector tileY : Nat) : Nat :=
  (bankDistributionLookup.getD ((selector + tileY % 2 * 2) % 4 * 4 + tileY) 0).toNat

def bank4 (selector tileY : Nat) : Nat := (bankDistributionLookup.getD (selector * 4 + tileY) 0).toNat

theorem bankOf_one (selector tileY : BitVec 32) :
    (bankOf 1 selector tileY).toNat = selector.toNat % 4 := by
  rw [bankOf, if_pos rfl, and_three_toNat]

theorem bankOf_two (selector tileY : BitVec 32) : (bankOf 2 selector tileY).toNat =
    bank2 (selector.toNat % 4) (tileY.toNat % 4) := by
  have hshift : ((tileY &&& 1) <<< 1).toNat = tileY.toNat % 2 * 2 := by
    rw [BitVec.toNat_shiftLeft, and_one_toNat, Nat.shiftLeft_eq]
    omega
  have hsum : ((selector + ((tileY &&& 1) <<< 1)) &&& 3).toNat =
      (selector.toNat % 4 + tileY.toNat % 4 % 2 * 2) % 4 := by
    rw [and_three_toNat, BitVec.toNat_add, hshift]
    omega
  have hsum_lt := Nat.mod_lt (selector.toNat % 4 + tileY.toNat % 4 % 2 * 2) (show 0 < 4 by decide)
  have hidx : (((selector + ((tileY &&& 1) <<< 1)) &&& 3) * 4 + (tileY &&& 3)).toNat =
      (selector.toNat % 4 + tileY.toNat % 4 % 2 * 2) % 4 * 4 + tileY.toNat % 4 := by
    rw [BitVec.toNat_add, BitVec.toNat_mul, hsum, and_three_toNat,
      show (4 : BitVec 32).toNat = 4 from rfl]
    omega
  rw [bankOf, if_neg (by decide), if_pos rfl]
  simp only [hidx, bank2]

theorem bankOf_of_four_le {factor : BitVec 32} (h : 4 ≤ factor) (selector tileY : BitVec 32) :
    (bankOf factor selector tileY).toNat = bank4 (selector.toNat % 4) (tileY.toNat % 4) := by
  have hidx : ((selector &&& 3) * 4 + (tileY &&& 3)).toNat =
      selector.toNat % 4 * 4 + tileY.toNat % 4 := by
    simp only [BitVec.toNat_add, BitVec.toNat_mul, and_three_toNat,
      show (4 : BitVec 32).toNat = 4 from rfl]
    omega
  have hone : factor ≠ 1 := by
    rintro rfl
    exact absurd h (by decide)
  have htwo : factor ≠ 2 := by
    rintro rfl
    exact absurd h (by decide)
  rw [bankOf, if_neg hone, if_neg htwo, if_pos h]
  simp only [hidx, bank4]

-- In one tile row the bank is a permutation of the selector.
theorem bank4_inj : ∀ y < 4, ∀ s < 4, ∀ s' < 4, bank4 s y = bank4 s' y → s = s' := by
  decide

theorem bank2_inj : ∀ y < 4, ∀ s < 4, ∀ s' < 4, bank2 s y = bank2 s' y → s = s' := by
  decide

-- A group of four tiles over an even tile row and the next one has two tiles in each.
theorem bank2_straddle : ∀ s < 2, ∀ s' < 2, ∀ y < 4, y % 2 = 0 →
    bank2 s y ≠ bank2 (2 + s') (y + 1) := by
  decide

-- How the tiles of a row are split into groups of four, by the factor of the pitch.
inductive Grouping (tilesPerRow : Nat) (factor : BitVec 32) : Prop where
  | one (h : factor = 1)
  | two (h : factor = 2) (hodd : tilesPerRow % 4 = 2)
  | four (h : 4 ≤ factor) (haligned : tilesPerRow % 4 = 0)

theorem getPrimeFactor_spec : ∀ p ∈ [1, 3, 5, 7, 11, 13], ∀ k < 8, p * 2 ^ k < 256 →
    (getPrimeFactor (BitVec.ofNat 32 (256 * (p * 2 ^ k)))).1.toNat *
      (getPrimeFactor (BitVec.ofNat 32 (256 * (p * 2 ^ k)))).2.toNat = p * 2 ^ k ∧
    ((getPrimeFactor (BitVec.ofNat 32 (256 * (p * 2 ^ k)))).2 = 1 ∨
      (getPrimeFactor (BitVec.ofNat 32 (256 * (p * 2 ^ k)))).2 = 2 ∧ p * 2 ^ k % 4 = 2 ∨
      4 ≤ (getPrimeFactor (BitVec.ofNat 32 (256 * (p * 2 ^ k)))).2 ∧ p * 2 ^ k % 4 = 0) := by
  decide

variable {n : Nat}

-- Two tiles of one group are in the same row, or the group straddles their rows.
theorem rows_of_group {x y x' y' : Nat} (hx : x < n) (hn : n % 4 = 2)
    (hgroup : (y * n + x) / 4 = (y' * n + x') / 4) (hlt : y < y') :
    y' = y + 1 ∧ y % 2 = 0 ∧ (y * n + x) % 4 < 2 ∧ 2 ≤ (y' * n + x') % 4 := by
  obtain ⟨j, rfl⟩ : ∃ j, n = 2 * (2 * j + 1) := ⟨n / 4, by omega⟩
  have hfirst : y * (2 * (2 * j + 1)) + 2 * (2 * j + 1) = 2 * ((2 * j + 1) * (y + 1)) := by ring
  have hsecond : y' * (2 * (2 * j + 1)) = 2 * ((2 * j + 1) * y') := by ring
  have hle : (2 * j + 1) * (y + 1) ≤ (2 * j + 1) * y' := Nat.mul_le_mul_left _ hlt
  -- the boundary between the rows is in the middle of the group
  have hmiddle : (2 * j + 1) * (y + 1) = (2 * j + 1) * y' := by omega
  have hrow : y + 1 = y' := Nat.eq_of_mul_eq_mul_left (Nat.succ_pos _) hmiddle
  have hodd : (2 * j + 1) * y' = 2 * (j * y') + y' := by ring
  exact ⟨hrow.symm, by omega, by omega, by omega⟩

theorem eq_of_same_row {x y x' y' : Nat} (hx : x < n) (hx' : x' < n)
    (h : y * n + x = y' * n + x') : x = x' ∧ y = y' := by
  have hn : 0 < n := Nat.zero_lt_of_lt hx
  have hy : (y * n + x) / n = (y' * n + x') / n := by rw [h]
  rw [Nat.mul_comm y, Nat.mul_comm y', Nat.mul_add_div hn, Nat.mul_add_div hn,
    Nat.div_eq_of_lt hx, Nat.div_eq_of_lt hx', Nat.add_zero, Nat.add_zero] at hy
  subst hy
  exact ⟨Nat.add_left_cancel h, rfl⟩

def bank (factor : BitVec 32) (selector tileY : Nat) : Nat :=
  if factor = 1 then selector % 4
  else if factor = 2 then bank2 (selector % 4) (tileY % 4)
  else bank4 (selector % 4) (tileY % 4)

theorem bank_congr {factor : BitVec 32} {selector selector' tileY : Nat}
    (h : selector % 4 = selector' % 4) :
    bank factor selector tileY = bank factor selector' tileY := by
  simp only [bank, h]

theorem bankOf_toNat {factor : BitVec 32} (h : Grouping n factor) (selector tileY : BitVec 32) :
    (bankOf factor selector tileY).toNat = bank factor selector.toNat tileY.toNat := by
  cases h with
  | one h => rw [h, bankOf_one, bank, if_pos rfl]
  | two h _ => rw [h, bankOf_two, bank, if_neg (by decide), if_pos rfl]
  | four h _ =>
      have hone : factor ≠ 1 := by
        rintro rfl
        exact absurd h (by decide)
      have htwo : factor ≠ 2 := by
        rintro rfl
        exact absurd h (by decide)
      rw [bankOf_of_four_le h, bank, if_neg hone, if_neg htwo]

theorem bank2_lt : ∀ s < 4, ∀ y < 4, bank2 s y < 4 := by
  decide

theorem bank4_lt : ∀ s < 4, ∀ y < 4, bank4 s y < 4 := by
  decide

theorem bank_lt (factor : BitVec 32) (selector tileY : Nat) : bank factor selector tileY < 4 := by
  have hs : selector % 4 < 4 := Nat.mod_lt _ (by decide)
  have hy : tileY % 4 < 4 := Nat.mod_lt _ (by decide)
  simp only [bank]
  split
  · exact hs
  · split
    · exact bank2_lt _ hs _ hy
    · exact bank4_lt _ hs _ hy

theorem bank2_ne_of_rows {t t' y y' : Nat} (hy : y' = y + 1) (heven : y % 2 = 0) (ht : t % 4 < 2)
    (ht' : 2 ≤ t' % 4) : bank2 (t % 4) (y % 4) ≠ bank2 (t' % 4) (y' % 4) := by
  obtain ⟨s', hs'⟩ := Nat.exists_eq_add_of_le ht'
  have hrow : y' % 4 = y % 4 + 1 := by omega
  rw [hs', hrow]
  exact bank2_straddle _ ht _ (by omega) _ (by omega) (by omega)

-- The tiles of one group of four are in different banks.
theorem tile_inj {factor : BitVec 32} (h : Grouping n factor) {x y x' y' : Nat} (hx : x < n)
    (hx' : x' < n) (hgroup : (y * n + x) / 4 = (y' * n + x') / 4)
    (hbank : bank factor (y * n + x) y = bank factor (y' * n + x') y') : x = x' ∧ y = y' := by
  have hs : (y * n + x) % 4 < 4 := Nat.mod_lt _ (by decide)
  have hs' : (y' * n + x') % 4 < 4 := Nat.mod_lt _ (by decide)
  have hy : y % 4 < 4 := Nat.mod_lt _ (by decide)
  cases h with
  | one h =>
      simp only [bank, if_pos h] at hbank
      exact eq_of_same_row hx hx' (by omega)
  | two h hodd =>
      subst h
      simp only [bank, if_neg (by decide : ¬(2 : BitVec 32) = 1), if_true] at hbank
      rcases Nat.lt_trichotomy y y' with hlt | rfl | hgt
      · obtain ⟨hrow, heven, hlow, hhigh⟩ := rows_of_group hx hodd hgroup hlt
        exact absurd hbank (bank2_ne_of_rows hrow heven hlow hhigh)
      · have hlow := bank2_inj _ hy _ hs _ hs' hbank
        exact eq_of_same_row hx hx' (by omega)
      · obtain ⟨hrow, heven, hlow, hhigh⟩ := rows_of_group hx' hodd hgroup.symm hgt
        exact absurd hbank.symm (bank2_ne_of_rows hrow heven hlow hhigh)
  | four h haligned =>
      have hone : factor ≠ 1 := by
        rintro rfl
        exact absurd h (by decide)
      have htwo : factor ≠ 2 := by
        rintro rfl
        exact absurd h (by decide)
      simp only [bank, if_neg hone, if_neg htwo] at hbank
      -- a group does not leave its tile row
      obtain ⟨j, rfl⟩ : ∃ j, n = 4 * j := ⟨n / 4, by omega⟩
      have hsplit : ∀ a b, (a * (4 * j) + b) / 4 = a * j + b / 4 := by
        intro a b
        rw [show a * (4 * j) = 4 * (a * j) by ring]
        omega
      rw [hsplit, hsplit] at hgroup
      obtain ⟨-, rfl⟩ := eq_of_same_row (show x / 4 < j by omega) (show x' / 4 < j by omega) hgroup
      have hlow := bank4_inj _ hy _ hs _ hs' hbank
      rw [← hsplit, ← hsplit] at hgroup
      exact eq_of_same_row hx hx' (by omega)

end Rpcsx.Rsx.TiledDma
