import Mathlib.Data.List.ProdSigma
import Rpcsx.Rsx.TiledDma.Address
import Rpcsx.Rsx.TiledDma

namespace Rpcsx.Rsx.TiledDma

open Data

-- The surfaces of a tiled region: the pitch is 256 * p * 2 ^ k for one of the primes.
structure Surface (t : TexelType) (base : BitVec 32) (pitch width height : BitVec 16) : Prop where
  aligned : base.toNat % 65536 = 0
  factors : ∃ p ∈ [1, 3, 5, 7, 11, 13], ∃ k, pitch.toNat = 256 * (p * 2 ^ k)
  inRow : width.toNat * t.size.toNat ≤ pitch.toNat
  inMemory : base.toNat + height.toNat * pitch.toNat < 2 ^ 32

abbrev surfaceConfig (t : TexelType) (base tileSize : BitVec 32) (bankSense : BitVec 8)
    (pitch width height : BitVec 16) : DetilerConfig :=
  detilerConfig t.size base 0 tileSize bankSense pitch width height

variable {t : TexelType} {base tileSize : BitVec 32} {bankSense : BitVec 8}
variable {pitch width height : BitVec 16}

theorem grouping (h : Surface t base pitch width height) :
    (surfaceConfig t base tileSize bankSense pitch width height).numTilesPerRow.toNat =
      pitch.toNat / 256 ∧
    Grouping (pitch.toNat / 256)
      (surfaceConfig t base tileSize bankSense pitch width height).factor := by
  obtain ⟨p, hp, k, hpitch⟩ := h.factors
  have hlt := pitch.isLt
  have hpos : 0 < p := by
    simp only [List.mem_cons, List.not_mem_nil, or_false] at hp
    omega
  have hbound : p * 2 ^ k < 256 := by
    simp only [Nat.reducePow] at hlt
    omega
  have hk : k < 8 := by
    have hle : 2 ^ k ≤ p * 2 ^ k := Nat.le_mul_of_pos_left _ hpos
    exact (Nat.pow_lt_pow_iff_right (by decide : 1 < 2)).mp (hle.trans_lt hbound)
  have hwide : pitch.setWidth 32 = BitVec.ofNat 32 (256 * (p * 2 ^ k)) := by
    apply BitVec.eq_of_toNat_eq
    rw [BitVec.toNat_setWidth, BitVec.toNat_ofNat, hpitch]
  have hn : pitch.toNat / 256 = p * 2 ^ k := by omega
  obtain ⟨hmul, hfactor⟩ := getPrimeFactor_spec p hp k hk hbound
  rw [hn]
  simp only [surfaceConfig, detilerConfig, hwide]
  refine ⟨?_, ?_⟩
  · rw [BitVec.toNat_mul, hmul]
    exact Nat.mod_eq_of_lt (by omega)
  · rcases hfactor with hone | ⟨htwo, hodd⟩ | ⟨hfour, haligned⟩
    · exact .one hone
    · exact .two htwo hodd
    · exact .four hfour haligned

-- The offset of a texel from the base.
def offset (t : TexelType) (pitch : BitVec 16) (row col : Nat) : Nat :=
  row * pitch.toNat + col * t.size.toNat

-- The place of a texel in the grid of tiles.
def tileOf (t : TexelType) (pitch : BitVec 16) (row col : Nat) : Nat :=
  row / 64 * (pitch.toNat / 256) + col * t.size.toNat / 256

section

variable (h : Surface t base pitch width height) {row col : Nat} (hrow : row < height.toNat)
  (hcol : col < width.toNat)

include h hcol in
theorem column_le : col * t.size.toNat + t.size.toNat ≤ pitch.toNat := by
  have hle : (col + 1) * t.size.toNat ≤ width.toNat * t.size.toNat := Nat.mul_le_mul_right _ hcol
  rw [Nat.add_mul, Nat.one_mul] at hle
  exact hle.trans h.inRow

include h hcol in
theorem piece_lt : col * t.size.toNat / 256 < pitch.toNat / 256 := by
  obtain ⟨p, -, k, hpitch⟩ := h.factors
  have hle := column_le h hcol
  have hpos : 0 < t.size.toNat := by cases t <;> decide
  omega

include h in
omit hrow hcol in
theorem size_dvd_offset (row col : Nat) : t.size.toNat ∣ offset t pitch row col := by
  obtain ⟨p, -, k, hpitch⟩ := h.factors
  have hpitch_dvd : t.size.toNat ∣ pitch.toNat := by
    rw [hpitch]
    exact Dvd.dvd.mul_right (by cases t <;> decide) _
  exact Nat.dvd_add (hpitch_dvd.mul_left row) (Nat.dvd_mul_left _ col)

include h hrow hcol

theorem offset_le : base.toNat + offset t pitch row col + t.size.toNat < 2 ^ 32 := by
  have hcolumn := column_le h hcol
  have hle : (row + 1) * pitch.toNat ≤ height.toNat * pitch.toNat := Nat.mul_le_mul_right _ hrow
  have hmemory := h.inMemory
  rw [Nat.add_mul, Nat.one_mul] at hle
  simp only [offset]
  omega

theorem rowBytes_toNat : (BitVec.ofNat 32 row * pitch.setWidth 32).toNat = row * pitch.toNat := by
  have hlt := offset_le h hrow hcol
  have hheight := height.isLt
  simp only [offset, Nat.reducePow] at hlt hheight
  have hrow32 : (BitVec.ofNat 32 row).toNat = row := Nat.mod_eq_of_lt (by omega)
  have hpitch32 : (pitch.setWidth 32).toNat = pitch.toNat :=
    BitVec.toNat_setWidth_of_le (by decide)
  rw [BitVec.toNat_mul, hrow32, hpitch32]
  exact Nat.mod_eq_of_lt (by omega)

theorem colBytes_toNat : (BitVec.ofNat 32 col * t.size).toNat = col * t.size.toNat := by
  have hlt := offset_le h hrow hcol
  have hwidth := width.isLt
  simp only [offset, Nat.reducePow] at hlt hwidth
  have hcol32 : (BitVec.ofNat 32 col).toNat = col := Nat.mod_eq_of_lt (by omega)
  rw [BitVec.toNat_mul, hcol32]
  exact Nat.mod_eq_of_lt (by omega)

theorem linearImageOffset_toNat :
    (linearImageOffset (surfaceConfig t base tileSize bankSense pitch width height)
      (BitVec.ofNat 32 row) (BitVec.ofNat 32 col)).toNat = offset t pitch row col := by
  have hlt := offset_le h hrow hcol
  simp only [linearImageOffset, surfaceConfig, detilerConfig]
  rw [BitVec.toNat_add, rowBytes_toNat h hrow hcol, colBytes_toNat h hrow hcol]
  exact Nat.mod_eq_of_lt (by simp only [offset] at hlt; omega)

theorem thisAddress_toNat :
    ((surfaceConfig t base tileSize bankSense pitch width height).thisAddress
      (BitVec.ofNat 32 row) (BitVec.ofNat 32 col)).toNat = base.toNat + offset t pitch row col := by
  have hlt := offset_le h hrow hcol
  simp only [DetilerConfig.thisAddress, surfaceConfig, detilerConfig]
  rw [BitVec.toNat_add, BitVec.toNat_add, BitVec.toNat_add, rowBytes_toNat h hrow hcol,
    colBytes_toNat h hrow hcol, show (0 : BitVec 32).toNat = 0 from rfl]
  simp only [offset] at hlt ⊢
  omega

-- The texel offset counts pieces of a line of 256 bytes.
theorem texelOffset_toNat :
    ((surfaceConfig t base tileSize bankSense pitch width height).texelOffset
      (BitVec.ofNat 32 row) (BitVec.ofNat 32 col)).toNat =
      row * (pitch.toNat / 256) + col * t.size.toNat / 256 := by
  obtain ⟨p, -, k, hpitch⟩ := h.factors
  have hthis : ((surfaceConfig t base tileSize bankSense pitch width height).thisAddress
      (BitVec.ofNat 32 row) (BitVec.ofNat 32 col)).toNat =
      base.toNat + offset t pitch row col := thisAddress_toNat h hrow hcol
  have hle : base ≤ (surfaceConfig t base tileSize bankSense pitch width height).thisAddress
      (BitVec.ofNat 32 row) (BitVec.ofNat 32 col) := by
    rw [BitVec.le_def, hthis]
    exact Nat.le_add_right _ _
  have hsub : ((surfaceConfig t base tileSize bankSense pitch width height).thisAddress
      (BitVec.ofNat 32 row) (BitVec.ofNat 32 col) - base).toNat = offset t pitch row col := by
    rw [BitVec.toNat_sub_of_le hle, hthis, Nat.add_sub_cancel_left]
  have hoffset : offset t pitch row col =
      256 * (row * (pitch.toNat / 256)) + col * t.size.toNat := by
    rw [offset, hpitch, Nat.mul_div_cancel_left _ (by decide)]
    ring
  have hdiv : ((surfaceConfig t base tileSize bankSense pitch width height).texelOffset
      (BitVec.ofNat 32 row) (BitVec.ofNat 32 col)).toNat = offset t pitch row col / 256 := by
    rw [← hsub]
    exact BitVec.toNat_udiv
  rw [hdiv]
  omega

theorem line_eq : ((surfaceConfig t base tileSize bankSense pitch width height).texelOffset
    (BitVec.ofNat 32 row) (BitVec.ofNat 32 col) /
    (surfaceConfig t base tileSize bankSense pitch width height).numTilesPerRow).toNat = row := by
  have hpiece := piece_lt h hcol
  rw [BitVec.toNat_udiv, texelOffset_toNat h hrow hcol, (grouping h).1, Nat.mul_comm row,
    Nat.mul_add_div (Nat.zero_lt_of_lt hpiece), Nat.div_eq_of_lt hpiece, Nat.add_zero]

theorem tileX_toNat : ((surfaceConfig t base tileSize bankSense pitch width height).tileX
    (BitVec.ofNat 32 row) (BitVec.ofNat 32 col)).toNat = col * t.size.toNat / 256 := by
  have hpiece := piece_lt h hcol
  rw [DetilerConfig.tileX, BitVec.toNat_umod, texelOffset_toNat h hrow hcol, (grouping h).1,
    Nat.mul_comm row, Nat.mul_add_mod, Nat.mod_eq_of_lt hpiece]

theorem tileY_toNat : ((surfaceConfig t base tileSize bankSense pitch width height).tileY
    (BitVec.ofNat 32 row) (BitVec.ofNat 32 col)).toNat = row / 64 := by
  rw [DetilerConfig.tileY, BitVec.toNat_udiv, line_eq h hrow hcol]
  rfl

theorem lineOffsetInTile_toNat :
    ((surfaceConfig t base tileSize bankSense pitch width height).lineOffsetInTile
      (BitVec.ofNat 32 row) (BitVec.ofNat 32 col)).toNat = row % 64 := by
  rw [DetilerConfig.lineOffsetInTile, BitVec.toNat_umod, line_eq h hrow hcol]
  rfl

-- At most 1024 rows of 255 tiles.
theorem tileOf_lt : tileOf t pitch row col < 2 ^ 18 := by
  have hpiece := piece_lt h hcol
  have hrow64 : row / 64 ≤ 1023 := by
    have hheight := height.isLt
    omega
  have hpitch : pitch.toNat / 256 ≤ 255 := by
    have hlt := pitch.isLt
    omega
  have hrows := Nat.mul_le_mul hrow64 hpitch
  simp only [tileOf]
  omega

theorem tileId_toNat : ((surfaceConfig t base tileSize bankSense pitch width height).tileId
    (BitVec.ofNat 32 row) (BitVec.ofNat 32 col)).toNat = tileOf t pitch row col := by
  have hlt := tileOf_lt h hrow hcol
  simp only [tileOf] at hlt ⊢
  rw [DetilerConfig.tileId, BitVec.toNat_add, BitVec.toNat_mul, tileY_toNat h hrow hcol,
    tileX_toNat h hrow hcol, (grouping h).1]
  omega

theorem tileSelector_toNat :
    ((surfaceConfig t base tileSize bankSense pitch width height).tileSelector
      (BitVec.ofNat 32 row) (BitVec.ofNat 32 col)).toNat =
      (tileOf t pitch row col + base.toNat / 2 ^ 14) % 2 ^ 18 := by
  have hlt := tileOf_lt h hrow hcol
  have hbase := base.isLt
  have hshift : (base >>> 14).toNat = base.toNat / 2 ^ 14 := by
    rw [BitVec.toNat_ushiftRight, Nat.shiftRight_eq_div_pow]
  have hmask : ∀ x : BitVec 32, (x &&& 0x3ffff).toNat = x.toNat % 2 ^ 18 :=
    fun x => Nat.and_two_pow_sub_one_eq_mod x.toNat 18
  rw [DetilerConfig.tileSelector, hmask, BitVec.toNat_add, tileId_toNat h hrow hcol]
  simp only [surfaceConfig, detilerConfig, hshift]
  omega

theorem rowAddress_toNat :
    ((surfaceConfig t base tileSize bankSense pitch width height).rowAddress
      (BitVec.ofNat 32 row) (BitVec.ofNat 32 col)).toNat =
      (tileOf t pitch row col / 4 + base.toNat / 65536) % 65536 := by
  have haligned := h.aligned
  have hmask : ∀ x : BitVec 32, (x &&& 0xffff).toNat = x.toNat % 2 ^ 16 :=
    fun x => Nat.and_two_pow_sub_one_eq_mod x.toNat 16
  rw [DetilerConfig.rowAddress, hmask, BitVec.toNat_ushiftRight, Nat.shiftRight_eq_div_pow,
    tileSelector_toNat h hrow hcol]
  omega

theorem bankSelector_toNat :
    (bankSelector (surfaceConfig t base tileSize bankSense pitch width height)
      (BitVec.ofNat 32 row) (BitVec.ofNat 32 col)).toNat =
      (bank (surfaceConfig t base tileSize bankSense pitch width height).factor
        (tileOf t pitch row col) (row / 64) + bankSense.toNat) % 4 := by
  have haligned := h.aligned
  have hgroups : Grouping (pitch.toNat / 256)
      (surfaceConfig t base tileSize bankSense pitch width height).factor := (grouping h).2
  -- the base is at the start of a group of four tiles
  have hselector : (tileOf t pitch row col + base.toNat / 2 ^ 14) % 2 ^ 18 % 4 =
      tileOf t pitch row col % 4 := by omega
  have hsense : (bankSense.setWidth 32).toNat = bankSense.toNat :=
    BitVec.toNat_setWidth_of_le (by decide)
  rw [bankSelector, and_three_toNat, BitVec.toNat_add, bankOf_toNat hgroups,
    tileSelector_toNat h hrow hcol, tileY_toNat h hrow hcol, bank_congr hselector]
  simp only [surfaceConfig, detilerConfig, hsense]
  omega

theorem tileAddress_group :
    (tileAddress (surfaceConfig t base tileSize bankSense pitch width height)
      (BitVec.ofNat 32 row) (BitVec.ofNat 32 col)).toNat / 65536 =
      (base.toNat / 65536 + tileOf t pitch row col / 4) % 65536 := by
  have hpacked := packed_row
    ((surfaceConfig t base tileSize bankSense pitch width height).rowAddress
      (BitVec.ofNat 32 row) (BitVec.ofNat 32 col))
    (bankSelector (surfaceConfig t base tileSize bankSense pitch width height)
      (BitVec.ofNat 32 row) (BitVec.ofNat 32 col))
    ((surfaceConfig t base tileSize bankSense pitch width height).tileSelector
      (BitVec.ofNat 32 row) (BitVec.ofNat 32 col))
    ((surfaceConfig t base tileSize bankSense pitch width height).lineOffsetInTile
      (BitVec.ofNat 32 row) (BitVec.ofNat 32 col))
    ((surfaceConfig t base tileSize bankSense pitch width height).thisAddress
      (BitVec.ofNat 32 row) (BitVec.ofNat 32 col))
  rw [rowAddress_toNat h hrow hcol, Nat.mod_mod, Nat.add_comm] at hpacked
  exact hpacked

theorem size_dvd_tileBaseOffset : t.size.toNat ∣
    (tileBaseOffset (surfaceConfig t base tileSize bankSense pitch width height)
      (BitVec.ofNat 32 row) (BitVec.ofNat 32 col)).toNat := by
  have hoffset := size_dvd_offset h row col
  have haligned := h.aligned
  have hbyte : (tileAddress (surfaceConfig t base tileSize bankSense pitch width height)
      (BitVec.ofNat 32 row) (BitVec.ofNat 32 col)).toNat % 32 =
      (base.toNat + offset t pitch row col) % 32 := by
    have hthis : ((surfaceConfig t base tileSize bankSense pitch width height).thisAddress
        (BitVec.ofNat 32 row) (BitVec.ofNat 32 col)).toNat =
        base.toNat + offset t pitch row col := thisAddress_toNat h hrow hcol
    rw [← hthis]
    exact packed_byte _ _ _ _ _
  have hsub : (tileBaseOffset (surfaceConfig t base tileSize bankSense pitch width height)
      (BitVec.ofNat 32 row) (BitVec.ofNat 32 col)).toNat % 32 = offset t pitch row col % 32 := by
    have hlt := base.isLt
    simp only [tileBaseOffset, BitVec.toNat_sub, surfaceConfig, detilerConfig] at hbyte ⊢
    simp only [Nat.reducePow] at hlt ⊢
    omega
  cases t with
  | u16 =>
      have htwo : TexelType.u16.size.toNat = 2 := rfl
      rw [htwo] at hoffset ⊢
      omega
  | u32 =>
      have hfour : TexelType.u32.size.toNat = 4 := rfl
      rw [hfour] at hoffset ⊢
      omega

end

section

variable (h : Surface t base pitch width height) {row col row' col' : Nat}
  (hrow : row < height.toNat) (hcol : col < width.toNat) (hrow' : row' < height.toNat)
  (hcol' : col' < width.toNat)

include h hrow hcol hrow' hcol'

theorem tile_of_tileAddress
    (heq : tileAddress (surfaceConfig t base tileSize bankSense pitch width height)
      (BitVec.ofNat 32 row) (BitVec.ofNat 32 col) =
      tileAddress (surfaceConfig t base tileSize bankSense pitch width height)
      (BitVec.ofNat 32 row') (BitVec.ofNat 32 col')) :
    col * t.size.toNat / 256 = col' * t.size.toNat / 256 ∧ row / 64 = row' / 64 := by
  have hgroups : Grouping (pitch.toNat / 256)
      (surfaceConfig t base tileSize bankSense pitch width height).factor := (grouping h).2
  have hlt := tileOf_lt h hrow hcol
  have hlt' := tileOf_lt h hrow' hcol'
  have hgroup : tileOf t pitch row col / 4 = tileOf t pitch row' col' / 4 := by
    have hrows := congrArg (fun a => a.toNat / 65536) heq
    simp only [tileAddress_group h hrow hcol, tileAddress_group h hrow' hcol'] at hrows
    omega
  have hbank : bank (surfaceConfig t base tileSize bankSense pitch width height).factor
      (tileOf t pitch row col) (row / 64) =
      bank (surfaceConfig t base tileSize bankSense pitch width height).factor
      (tileOf t pitch row' col') (row' / 64) := by
    have hbits := mod_eq_of_bits (fun i (hi : i < 2) => bank_of_packed heq hi)
    rw [bankSelector_toNat h hrow hcol, bankSelector_toNat h hrow' hcol'] at hbits
    have hbank_lt := bank_lt (surfaceConfig t base tileSize bankSense pitch width height).factor
      (tileOf t pitch row col) (row / 64)
    have hbank_lt' := bank_lt (surfaceConfig t base tileSize bankSense pitch width height).factor
      (tileOf t pitch row' col') (row' / 64)
    omega
  exact tile_inj hgroups (piece_lt h hcol) (piece_lt h hcol') hgroup hbank

theorem tileAddress_inj
    (heq : tileAddress (surfaceConfig t base tileSize bankSense pitch width height)
      (BitVec.ofNat 32 row) (BitVec.ofNat 32 col) =
      tileAddress (surfaceConfig t base tileSize bankSense pitch width height)
      (BitVec.ofNat 32 row') (BitVec.ofNat 32 col')) : row = row' ∧ col = col' := by
  obtain ⟨hpiece, htile⟩ := tile_of_tileAddress h hrow hcol hrow' hcol' heq
  have hselector : (surfaceConfig t base tileSize bankSense pitch width height).tileSelector
      (BitVec.ofNat 32 row) (BitVec.ofNat 32 col) =
      (surfaceConfig t base tileSize bankSense pitch width height).tileSelector
      (BitVec.ofNat 32 row') (BitVec.ofNat 32 col') := by
    apply BitVec.eq_of_toNat_eq
    rw [tileSelector_toNat h hrow hcol, tileSelector_toNat h hrow' hcol', tileOf, tileOf, hpiece,
      htile]
  have hbit := congrArg (fun s => s.getLsbD 0) hselector
  have hline := line_of_packed heq hbit
  have haddress := address_of_packed heq hbit
  rw [lineOffsetInTile_toNat h hrow hcol, lineOffsetInTile_toNat h hrow' hcol'] at hline
  rw [thisAddress_toNat h hrow hcol, thisAddress_toNat h hrow' hcol'] at haddress
  have hrows : row = row' := by omega
  subst hrows
  have hpos : 0 < t.size.toNat := by cases t <;> decide
  refine ⟨rfl, Nat.eq_of_mul_eq_mul_right hpos ?_⟩
  simp only [offset] at haddress
  omega

omit hrow hrow' in
theorem offset_inj (heq : offset t pitch row col = offset t pitch row' col') :
    row = row' ∧ col = col' := by
  have hpos : 0 < t.size.toNat := by cases t <;> decide
  have hcolumn := column_le h hcol
  have hcolumn' := column_le h hcol'
  obtain ⟨hcols, hrows⟩ := eq_of_same_row (by omega) (by omega) heq
  exact ⟨hrows, Nat.eq_of_mul_eq_mul_right hpos hcols⟩

end

-- The texels in the order of the two loops.
def texels (width height : Nat) : List (Nat × Nat) := List.range height ×ˢ List.range width

theorem foldl_product {α β γ : Type*} (f : γ → α × β → γ) (l : List α) (m : List β) (c : γ) :
    (l ×ˢ m).foldl f c = l.foldl (fun c a => m.foldl (fun c b => f c (a, b)) c) c := by
  induction l generalizing c with
  | nil => rfl
  | cons a l ih => rw [List.product_cons, List.foldl_append, List.foldl_map, ih, List.foldl_cons]

def tileDataOffset (conf : DetilerConfig) (p : Nat × Nat) : Nat :=
  (tileBaseOffset conf (BitVec.ofNat 32 p.1) (BitVec.ofNat 32 p.2) - conf.tileRwOffset).toNat

def linearOffset (conf : DetilerConfig) (p : Nat × Nat) : Nat :=
  (linearImageOffset conf (BitVec.ofNat 32 p.1) (BitVec.ofNat 32 p.2)).toNat

-- The texels that are not skipped.
def inTile (conf : DetilerConfig) (p : Nat × Nat) : Bool :=
  tileBaseOffset conf (BitVec.ofNat 32 p.1) (BitVec.ofNat 32 p.2) < conf.tileSize

def copied (conf : DetilerConfig) : List (Nat × Nat) :=
  (texels conf.imageWidth.toNat conf.imageHeight.toNat).filter (inTile conf)

def places (conf : DetilerConfig) : List (Nat × Nat) :=
  (copied conf).map fun p => (tileDataOffset conf p, linearOffset conf p)

theorem texelData_encode (conf : DetilerConfig) (dst src : Memory) :
    texelData conf .encodeTile dst src = copyAll conf.imageBpp.toNat src (places conf) dst := by
  rw [copyAll, places, List.foldl_map, copied, List.foldl_filter, texels, foldl_product]
  simp only [texelData, tiledDmaCopy, inTile, decide_eq_true_eq, ge_iff_le, tileDataOffset,
    linearOffset, ← BitVec.not_lt, ite_not]

theorem texelData_decode (conf : DetilerConfig) (dst src : Memory) :
    texelData conf .decodeTile dst src =
      copyAll conf.imageBpp.toNat src ((places conf).map Prod.swap) dst := by
  rw [copyAll, places, List.map_map, List.foldl_map, copied, List.foldl_filter, texels,
    foldl_product]
  simp only [texelData, tiledDmaCopy, inTile, decide_eq_true_eq, ge_iff_le, tileDataOffset,
    linearOffset, ← BitVec.not_lt, ite_not, Function.comp_apply, Prod.swap_prod_mk]

theorem mem_copied {conf : DetilerConfig} {p : Nat × Nat} : p ∈ copied conf ↔
    (p.1 < conf.imageHeight.toNat ∧ p.2 < conf.imageWidth.toNat) ∧
      tileBaseOffset conf (BitVec.ofNat 32 p.1) (BitVec.ofNat 32 p.2) < conf.tileSize := by
  rw [copied, List.mem_filter, texels, List.mem_product, List.mem_range, List.mem_range, inTile,
    decide_eq_true_eq]

theorem nodup_copied (conf : DetilerConfig) : (copied conf).Nodup :=
  (List.Nodup.product List.nodup_range List.nodup_range).filter _

theorem tileDataOffset_eq (p : Nat × Nat) :
    tileDataOffset (surfaceConfig t base tileSize bankSense pitch width height) p =
      (tileBaseOffset (surfaceConfig t base tileSize bankSense pitch width height)
        (BitVec.ofNat 32 p.1) (BitVec.ofNat 32 p.2)).toNat := by
  rw [tileDataOffset]
  exact congrArg BitVec.toNat (BitVec.sub_zero _)

theorem mem_surface {p : Nat × Nat}
    (hp : p ∈ copied (surfaceConfig t base tileSize bankSense pitch width height)) :
    p.1 < height.toNat ∧ p.2 < width.toNat := by
  have hmem := (mem_copied.mp hp).1
  simp only [surfaceConfig, detilerConfig, BitVec.toNat_setWidth_of_le (by decide : 16 ≤ 32)]
    at hmem
  exact hmem

section

variable (h : Surface t base pitch width height)

include h

-- No two texels share a byte of the tiled buffer.
theorem places_apart :
    (places (surfaceConfig t base tileSize bankSense pitch width height)).Pairwise
      fun p q => CellsApart t.size.toNat p.1 q.1 := by
  rw [places, List.pairwise_map]
  refine (nodup_copied _).imp_of_mem ?_
  intro p q hp hq hne
  obtain ⟨hrow, hcol⟩ := mem_surface hp
  obtain ⟨hrow', hcol'⟩ := mem_surface hq
  simp only [tileDataOffset_eq]
  refine cellsApart_of_dvd (size_dvd_tileBaseOffset h hrow hcol)
    (size_dvd_tileBaseOffset h hrow' hcol') ?_
  intro heq
  have hsub := BitVec.eq_of_toNat_eq heq
  have haddress := (BitVec.sub_left_inj _).mp hsub
  obtain ⟨hrows, hcols⟩ := tileAddress_inj h hrow hcol hrow' hcol' haddress
  exact hne (Prod.ext hrows hcols)

theorem places_apart_linear :
    (places (surfaceConfig t base tileSize bankSense pitch width height)).Pairwise
      fun p q => CellsApart t.size.toNat p.2 q.2 := by
  rw [places, List.pairwise_map]
  refine (nodup_copied _).imp_of_mem ?_
  intro p q hp hq hne
  obtain ⟨hrow, hcol⟩ := mem_surface hp
  obtain ⟨hrow', hcol'⟩ := mem_surface hq
  simp only [linearOffset]
  rw [linearImageOffset_toNat h hrow hcol, linearImageOffset_toNat h hrow' hcol']
  refine cellsApart_of_dvd (size_dvd_offset h _ _) (size_dvd_offset h _ _) ?_
  intro heq
  obtain ⟨hrows, hcols⟩ := offset_inj h hcol hcol' heq
  exact hne (Prod.ext hrows hcols)

theorem detile_tile {row col : Nat} (hrow : row < height.toNat) (hcol : col < width.toNat)
    (hin : tileBaseOffset (surfaceConfig t base tileSize bankSense pitch width height)
      (BitVec.ofNat 32 row) (BitVec.ofNat 32 col) < tileSize) (src tiled linear : Memory)
    {i : Nat} (hi : i < t.size.toNat) :
    detileTexelData t linear
        (tileTexelData t tiled src base 0 tileSize bankSense pitch width height)
        base 0 tileSize bankSense pitch width height (offset t pitch row col + i) =
      src (offset t pitch row col + i) := by
  have hmem : (row, col) ∈
      copied (surfaceConfig t base tileSize bankSense pitch width height) := by
    refine mem_copied.mpr ⟨?_, hin⟩
    simp only [surfaceConfig, detilerConfig, BitVec.toNat_setWidth_of_le (by decide : 16 ≤ 32)]
    exact ⟨hrow, hcol⟩
  have hplace : (tileDataOffset (surfaceConfig t base tileSize bankSense pitch width height)
      (row, col), offset t pitch row col) ∈
      places (surfaceConfig t base tileSize bankSense pitch width height) := by
    refine List.mem_map.mpr ⟨(row, col), hmem, ?_⟩
    rw [linearOffset, linearImageOffset_toNat h hrow hcol]
  rw [detileTexelData, tileTexelData, texelData_encode, texelData_decode]
  exact copyAll_swap (places_apart h) (places_apart_linear h) hplace hi

end

-- The addresses of the texels are distinct, each is in the 64 KiB of its group of four tiles, and
-- detiling gives back what is inside the tiled region.
theorem tiled_dma_sound (h : Surface t base pitch width height) :
    (∀ row col row' col', row < height.toNat → col < width.toNat → row' < height.toNat →
      col' < width.toNat →
      tileAddress (surfaceConfig t base tileSize bankSense pitch width height)
        (BitVec.ofNat 32 row) (BitVec.ofNat 32 col) =
      tileAddress (surfaceConfig t base tileSize bankSense pitch width height)
        (BitVec.ofNat 32 row') (BitVec.ofNat 32 col') → row = row' ∧ col = col') ∧
    (∀ row col, row < height.toNat → col < width.toNat →
      (tileAddress (surfaceConfig t base tileSize bankSense pitch width height)
        (BitVec.ofNat 32 row) (BitVec.ofNat 32 col)).toNat / 65536 =
        (base.toNat / 65536 + tileOf t pitch row col / 4) % 65536) ∧
    (∀ row col, row < height.toNat → col < width.toNat →
      tileBaseOffset (surfaceConfig t base tileSize bankSense pitch width height)
        (BitVec.ofNat 32 row) (BitVec.ofNat 32 col) < tileSize →
      ∀ (src tiled linear : Memory), ∀ i < t.size.toNat,
        detileTexelData t linear
          (tileTexelData t tiled src base 0 tileSize bankSense pitch width height)
          base 0 tileSize bankSense pitch width height (offset t pitch row col + i) =
        src (offset t pitch row col + i)) :=
  ⟨fun _ _ _ _ hrow hcol hrow' hcol' heq => tileAddress_inj h hrow hcol hrow' hcol' heq,
    fun _ _ hrow hcol => tileAddress_group h hrow hcol,
    fun _ _ hrow hcol hin src tiled linear _ hi =>
      detile_tile h hrow hcol hin src tiled linear hi⟩

-- Six tiles per row: the tiles 4, ..., 7 are in two tile rows.
theorem surface_straddling : Surface .u32 0x10000 1536 384 200 :=
  ⟨by decide, ⟨3, by decide, 1, by decide⟩, by decide, by decide⟩

theorem tiled_dma_sound_straddling :
    (tileAddress (surfaceConfig .u32 0x10000 0x100000 1 1536 384 200) (BitVec.ofNat 32 100)
      (BitVec.ofNat 32 127)).toNat / 65536 = 2 :=
  (tiled_dma_sound surface_straddling).2.1 100 127 (by decide) (by decide)

end Rpcsx.Rsx.TiledDma
