import Mathlib.Tactic.Ring
import Rpcsx.AmdgpuTiler.ElementOrder
import Rpcsx.AmdgpuTiler.Surface1d

namespace Rpcsx.AmdgpuTiler

open Data.Alignment

-- A number is determined by its quotient and its remainder.
theorem radix_inj {a a' b b' q : Nat} (hb : b < q) (hb' : b' < q) (h : a * q + b = a' * q + b') :
    a = a' ∧ b = b' := by
  have hpos : 0 < q := by omega
  have hdiv : (a * q + b) / q = (a' * q + b') / q := by rw [h]
  rw [Nat.mul_comm a, Nat.mul_comm a', Nat.mul_add_div hpos, Nat.mul_add_div hpos,
    Nat.div_eq_of_lt hb, Nat.div_eq_of_lt hb'] at hdiv
  have ha : a = a' := by omega
  subst ha
  exact ⟨rfl, by omega⟩

theorem radix_inj_low {a a' b b' q : Nat} (hb : b < q) (hb' : b' < q)
    (h : b + q * a = b' + q * a') : b = b' ∧ a = a' := by
  have hswap : a * q + b = a' * q + b' := by
    rw [Nat.mul_comm a, Nat.mul_comm a']
    omega
  obtain ⟨ha, hb⟩ := radix_inj hb hb' hswap
  exact ⟨hb, ha⟩

variable {arrayMode : ArrayMode} {tileMode : TileMode} {x y z x' y' z' : Nat}
  {width height depth dataWidth dataHeight bytes : Nat}

theorem tileThickness_eq (h : arrayMode = .tiled1dThin ∨ arrayMode = .tiled1dThick) :
    tileThickness arrayMode = getMicroTileThickness arrayMode := by
  rcases h with rfl | rfl <;> rfl

theorem tileThickness_cases (arrayMode : ArrayMode) :
    tileThickness arrayMode = 1 ∨ tileThickness arrayMode = 4 := by
  unfold tileThickness
  split_ifs <;> simp

-- The tile of an element, counted through the rows and planes of a level.
def tileNumber (arrayMode : ArrayMode) (dataWidth dataHeight x y z : Nat) : Nat :=
  z / tileThickness arrayMode * tilesPerSlice dataWidth dataHeight +
    (y / kMicroTileHeight * (dataWidth / kMicroTileWidth) + x / kMicroTileWidth)

-- The rows of tiles do not overlap: there is one of them, or none has a tile that is cut off.
def RowsApart (width height dataWidth : Nat) : Prop :=
  height ≤ kMicroTileHeight ∨ width ≤ dataWidth / kMicroTileWidth * kMicroTileWidth

-- Nor do the planes: there is one, or the tiles of a plane are no more than it counts.
def PlanesApart (arrayMode : ArrayMode) (width height depth dataWidth dataHeight : Nat) : Prop :=
  depth ≤ tileThickness arrayMode ∨
    (height - 1) / kMicroTileHeight * (dataWidth / kMicroTileWidth) +
      (width - 1) / kMicroTileWidth < tilesPerSlice dataWidth dataHeight

theorem tileInPlane_le (hx : x < width) (hy : y < height) :
    y / kMicroTileHeight * (dataWidth / kMicroTileWidth) + x / kMicroTileWidth ≤
      (height - 1) / kMicroTileHeight * (dataWidth / kMicroTileWidth) +
        (width - 1) / kMicroTileWidth :=
  Nat.add_le_add (Nat.mul_le_mul_right _ (Nat.div_le_div_right (by omega)))
    (Nat.div_le_div_right (by omega))

theorem tileNumber_inj (hrows : RowsApart width height dataWidth)
    (hplanes : PlanesApart arrayMode width height depth dataWidth dataHeight)
    (hx : x < width) (hy : y < height) (hz : z < depth)
    (hx' : x' < width) (hy' : y' < height) (hz' : z' < depth)
    (h : tileNumber arrayMode dataWidth dataHeight x y z =
      tileNumber arrayMode dataWidth dataHeight x' y' z') :
    x / kMicroTileWidth = x' / kMicroTileWidth ∧ y / kMicroTileHeight = y' / kMicroTileHeight ∧
      z / tileThickness arrayMode = z' / tileThickness arrayMode := by
  have hplane : z / tileThickness arrayMode = z' / tileThickness arrayMode ∧
      y / kMicroTileHeight * (dataWidth / kMicroTileWidth) + x / kMicroTileWidth =
        y' / kMicroTileHeight * (dataWidth / kMicroTileWidth) + x' / kMicroTileWidth := by
    rcases hplanes with hflat | hfit
    · have hzero : z / tileThickness arrayMode = 0 := Nat.div_eq_of_lt (by omega)
      have hzero' : z' / tileThickness arrayMode = 0 := Nat.div_eq_of_lt (by omega)
      simp only [tileNumber, hzero, hzero', Nat.zero_mul, Nat.zero_add] at h
      exact ⟨hzero.trans hzero'.symm, h⟩
    · exact radix_inj ((tileInPlane_le hx hy).trans_lt hfit) ((tileInPlane_le hx' hy').trans_lt hfit) h
  obtain ⟨hz, hplane⟩ := hplane
  rcases hrows with hflat | hfit
  · have hzero : y / kMicroTileHeight = 0 := Nat.div_eq_of_lt (by omega)
    have hzero' : y' / kMicroTileHeight = 0 := Nat.div_eq_of_lt (by omega)
    simp only [hzero, hzero', Nat.zero_mul, Nat.zero_add] at hplane
    exact ⟨hplane, hzero.trans hzero'.symm, hz⟩
  · have hlt : ∀ v < width, v / kMicroTileWidth < dataWidth / kMicroTileWidth := fun v hv =>
      Nat.div_lt_of_lt_mul (by rw [Nat.mul_comm]; omega)
    obtain ⟨hy, hx⟩ := radix_inj (hlt x hx) (hlt x' hx') hplane
    exact ⟨hx, hy, hz⟩

theorem tilesPerSlice_le {pitch padded : Nat} (hpitch : dataWidth ≤ pitch) (hpos : 0 < pitch)
    (hwide : kMicroTileWidth ∣ pitch) (hpadded : dataHeight ≤ padded) (hhigh : kMicroTileHeight ∣ padded)
    (hposHeight : 0 < padded) :
    tilesPerSlice dataWidth dataHeight ≤
      pitch / kMicroTileWidth * (padded / kMicroTileHeight) := by
  have hone : 1 ≤ pitch / kMicroTileWidth * (padded / kMicroTileHeight) :=
    Nat.mul_pos (Nat.div_pos (Nat.le_of_dvd hpos hwide) (by decide))
      (Nat.div_pos (Nat.le_of_dvd hposHeight hhigh) (by decide))
  have hproduct : dataWidth / kMicroTileWidth * (dataHeight / kMicroTileHeight) ≤
      pitch / kMicroTileWidth * (padded / kMicroTileHeight) :=
    Nat.mul_le_mul (Nat.div_le_div_right hpitch) (Nat.div_le_div_right hpadded)
  have hmod := Nat.mod_le (dataWidth / kMicroTileWidth * (dataHeight / kMicroTileHeight)) (2 ^ 32)
  simp only [tilesPerSlice]
  omega

-- A level padded to whole tiles has room for the tile of every element.
theorem tileNumber_lt {pitch padded planes : Nat} (hpitch : dataWidth ≤ pitch)
    (hwide : kMicroTileWidth ∣ pitch) (hpadded : dataHeight ≤ padded)
    (hhigh : kMicroTileHeight ∣ padded) (hx : x < pitch) (hy : y < padded)
    (hz : z / tileThickness arrayMode < planes) :
    tileNumber arrayMode dataWidth dataHeight x y z <
      planes * (pitch / kMicroTileWidth * (padded / kMicroTileHeight)) := by
  have htiles := tilesPerSlice_le hpitch (by omega) hwide hpadded hhigh (by omega)
  have hcolumn : x / kMicroTileWidth < pitch / kMicroTileWidth :=
    Nat.div_lt_of_lt_mul (by rw [Nat.mul_div_cancel' hwide]; exact hx)
  have hrow : y / kMicroTileHeight < padded / kMicroTileHeight :=
    Nat.div_lt_of_lt_mul (by rw [Nat.mul_div_cancel' hhigh]; exact hy)
  have hplane : y / kMicroTileHeight * (dataWidth / kMicroTileWidth) + x / kMicroTileWidth <
      pitch / kMicroTileWidth * (padded / kMicroTileHeight) := by
    calc
      _ < y / kMicroTileHeight * (pitch / kMicroTileWidth) + pitch / kMicroTileWidth :=
        Nat.add_lt_add_of_le_of_lt (Nat.mul_le_mul_left _ (Nat.div_le_div_right hpitch)) hcolumn
      _ = (y / kMicroTileHeight + 1) * (pitch / kMicroTileWidth) := by
        rw [Nat.add_mul, Nat.one_mul]
      _ ≤ padded / kMicroTileHeight * (pitch / kMicroTileWidth) := Nat.mul_le_mul_right _ hrow
      _ = _ := Nat.mul_comm _ _
  calc
    _ < z / tileThickness arrayMode * (pitch / kMicroTileWidth * (padded / kMicroTileHeight)) +
        pitch / kMicroTileWidth * (padded / kMicroTileHeight) :=
      Nat.add_lt_add_of_le_of_lt (Nat.mul_le_mul_left _ htiles) hplane
    _ = (z / tileThickness arrayMode + 1) *
        (pitch / kMicroTileWidth * (padded / kMicroTileHeight)) := by
      rw [Nat.add_mul, Nat.one_mul]
    _ ≤ planes * (pitch / kMicroTileWidth * (padded / kMicroTileHeight)) :=
      Nat.mul_le_mul_right _ hz

theorem planeProduct_lt (hz : z < depth) (hdepth : depth ≤ 2 ^ 32)
    (hwords : depth * (dataWidth * dataHeight) ≤ 2 ^ 32) :
    z / tileThickness arrayMode * tilesPerSlice dataWidth dataHeight < 2 ^ 32 := by
  have hplane : z / tileThickness arrayMode ≤ z := Nat.div_le_self ..
  have hproduct : dataWidth / kMicroTileWidth * (dataHeight / kMicroTileHeight) ≤
      dataWidth * dataHeight :=
    Nat.mul_le_mul (Nat.div_le_self ..) (Nat.div_le_self ..)
  have hmod := Nat.mod_le (dataWidth / kMicroTileWidth * (dataHeight / kMicroTileHeight)) (2 ^ 32)
  have htiles : tilesPerSlice dataWidth dataHeight ≤ max (dataWidth * dataHeight) 1 := by
    simp only [tilesPerSlice]
    omega
  calc
    _ ≤ z * max (dataWidth * dataHeight) 1 := Nat.mul_le_mul hplane htiles
    _ < depth * max (dataWidth * dataHeight) 1 := Nat.mul_lt_mul_of_pos_right hz (by omega)
    _ ≤ 2 ^ 32 := by
      rcases Nat.le_total (dataWidth * dataHeight) 1 with hsmall | hlarge
      · rw [Nat.max_eq_right hsmall, Nat.mul_one]
        exact hdepth
      · rw [Nat.max_eq_left hlarge]
        exact hwords

-- The byte of an element: its tile and its place in the tile, of `bytes` each.
theorem tiledByteOffset1d_eq
    (hproduct : z / tileThickness tileMode.arrayMode * tilesPerSlice dataWidth dataHeight < 2 ^ 32) :
    getTiledBitOffset1D tileMode x y z dataWidth dataHeight (8 * bytes) / 8 =
      (tileNumber tileMode.arrayMode dataWidth dataHeight x y z *
          (64 * tileThickness tileMode.arrayMode) +
        shaderElementIndex x y z (8 * bytes) tileMode.microTileMode tileMode.arrayMode) * bytes := by
  have htile : tileBytes tileMode.arrayMode (8 * bytes) =
      64 * tileThickness tileMode.arrayMode * bytes := by
    simp only [tileBytes, kMicroTileWidth, kMicroTileHeight]
    have hcomm : 8 * 8 * tileThickness tileMode.arrayMode * (8 * bytes) =
        8 * (64 * tileThickness tileMode.arrayMode * bytes) := by ring
    omega
  have hbits : getTiledBitOffset1D tileMode x y z dataWidth dataHeight (8 * bytes) =
      8 * ((tileNumber tileMode.arrayMode dataWidth dataHeight x y z *
          (64 * tileThickness tileMode.arrayMode) +
        shaderElementIndex x y z (8 * bytes) tileMode.microTileMode tileMode.arrayMode) * bytes) := by
    simp only [getTiledBitOffset1D, tileOffset, Nat.mod_eq_of_lt hproduct, htile, tileNumber]
    ring
  rw [hbits, Nat.mul_div_cancel_left _ (by decide : 0 < 8)]

end Rpcsx.AmdgpuTiler
