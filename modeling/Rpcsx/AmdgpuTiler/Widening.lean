import Mathlib.Algebra.BigOperators.Group.Finset.Basic
import Rpcsx.AmdgpuTiler.Surface1d

namespace Rpcsx.AmdgpuTiler

open Data.Alignment

variable {n pitch height bitsPerElement fragments thickness : Nat}

-- The bytes of the slices of all levels before `mipLevel`.
def prefixSize (arraySliceCount : Nat) (sizes : Nat → Nat) (mipLevel : Nat) : Nat :=
  ∑ i ∈ Finset.range mipLevel, arraySliceCount * sizes i

-- Induction on the levels: the offsets are the sums of the sizes before them.
theorem walkLevels_eq (arraySliceCount count : Nat) (level : Nat → Nat → Nat → SubresourceInfo)
    (htiled : ∀ i a b, (level i a b).tiledSize = (level i 0 0).tiledSize)
    (hlinear : ∀ i a b, (level i a b).linearSize = (level i 0 0).linearSize) :
    walkLevels arraySliceCount count level =
      { surfaceOffset := prefixSize arraySliceCount (fun i => (level i 0 0).tiledSize) count
        linearOffset := prefixSize arraySliceCount (fun i => (level i 0 0).linearSize) count
        levels := (List.range count).map fun i =>
          level i (prefixSize arraySliceCount (fun j => (level j 0 0).tiledSize) i)
            (prefixSize arraySliceCount (fun j => (level j 0 0).linearSize) i) } := by
  induction count with
  | zero => rfl
  | succ count ih =>
      unfold walkLevels at ih ⊢
      rw [List.range_succ, List.foldl_append, ih, List.map_append]
      simp only [List.foldl_cons, List.foldl_nil, List.map_cons, List.map_nil, htiled count,
        hlinear count, prefixSize, Finset.sum_range_succ]

theorem bitCeil_pos (n : Nat) : 0 < bitCeil n := Nat.two_pow_pos _

theorem padPow2_pos {pow2pad : Bool} (h : 0 < n) : 0 < padPow2 pow2pad n := by
  cases pow2pad with
  | false => exact h
  | true => exact bitCeil_pos n

theorem elementsWide_pos {dfmt : DataFormat} (h : 0 < n) : 0 < elementsWide dfmt n := by
  unfold elementsWide
  split
  · split <;> omega
  · exact h

theorem elementsHigh_pos {dfmt : DataFormat} (h : 0 < n) : 0 < elementsHigh dfmt n := by
  unfold elementsHigh
  split
  · split <;> omega
  · exact h

theorem levelWidth_pos (dfmt : DataFormat) (pow2pad : Bool) (texels mipLevel : Nat) :
    0 < levelWidth dfmt pow2pad texels mipLevel :=
  padPow2_pos (elementsWide_pos (by omega))

theorem levelHeight_pos (dfmt : DataFormat) (pow2pad : Bool) (texels mipLevel : Nat) :
    0 < levelHeight dfmt pow2pad texels mipLevel :=
  padPow2_pos (elementsHigh_pos (by omega))

theorem levelDepth_pos (type : TextureType) (pow2pad : Bool) (depth mipLevel : Nat) :
    0 < levelDepth type pow2pad depth mipLevel :=
  padPow2_pos (by omega)

-- The pitches whose slices of tiles fill the pipe interleave are the multiples of one unit.
def interleaveUnit (height bitsPerElement fragments thickness : Nat) : Nat :=
  kMicroTileWidth * (kPipeInterleaveBytes /
    Nat.gcd kPipeInterleaveBytes (height * bitsPerElement * fragments * thickness))

theorem interleaveUnit_pos (height bitsPerElement fragments thickness : Nat) :
    0 < interleaveUnit height bitsPerElement fragments thickness := by
  apply Nat.mul_pos (by decide)
  exact Nat.div_pos (Nat.gcd_le_left _ (by decide)) (Nat.gcd_pos_of_pos_left _ (by decide))

theorem dvd_interleaveUnit (height bitsPerElement fragments thickness : Nat) :
    kMicroTileWidth ∣ interleaveUnit height bitsPerElement fragments thickness :=
  Nat.dvd_mul_right ..

theorem interleaveUnit_le (hheight : kMicroTileHeight ∣ height) :
    interleaveUnit height bitsPerElement fragments thickness ≤ kMicroTileWidth * 32 := by
  have hdvd : 8 ∣ Nat.gcd kPipeInterleaveBytes (height * bitsPerElement * fragments * thickness) := by
    apply Nat.dvd_gcd (by decide)
    exact ((hheight.mul_right _).mul_right _).mul_right _
  have hpos : 0 < Nat.gcd kPipeInterleaveBytes (height * bitsPerElement * fragments * thickness) :=
    Nat.gcd_pos_of_pos_left _ (by decide)
  have hle : kPipeInterleaveBytes /
      Nat.gcd kPipeInterleaveBytes (height * bitsPerElement * fragments * thickness) ≤ 32 :=
    Nat.div_le_div_left (Nat.le_of_dvd hpos hdvd) (by decide)
  exact Nat.mul_le_mul_left _ hle

theorem logicalSliceSizeBytes_eq (hpitch : kMicroTileWidth ∣ pitch) :
    logicalSliceSizeBytes pitch height bitsPerElement fragments =
      pitch / kMicroTileWidth * (height * bitsPerElement * fragments) := by
  obtain ⟨tiles, rfl⟩ := hpitch
  have hdiv : kMicroTileWidth * tiles / kMicroTileWidth = tiles :=
    Nat.mul_div_cancel_left _ (by decide)
  have hbits : kMicroTileWidth * tiles * height * bitsPerElement * fragments =
      8 * (tiles * (height * bitsPerElement * fragments)) := by
    simp only [kMicroTileWidth, Nat.mul_assoc]
  rw [logicalSliceSizeBytes, hdiv, hbits]
  omega

theorem fills_interleave_iff (hpitch : kMicroTileWidth ∣ pitch) :
    logicalSliceSizeBytes pitch height bitsPerElement fragments * thickness %
        kPipeInterleaveBytes = 0 ↔
      interleaveUnit height bitsPerElement fragments thickness ∣ pitch := by
  obtain ⟨tiles, rfl⟩ := hpitch
  have hdiv : kMicroTileWidth * tiles / kMicroTileWidth = tiles :=
    Nat.mul_div_cancel_left _ (by decide)
  have hpos : 0 < Nat.gcd kPipeInterleaveBytes (height * bitsPerElement * fragments * thickness) :=
    Nat.gcd_pos_of_pos_left _ (by decide)
  rw [logicalSliceSizeBytes_eq (Nat.dvd_mul_right ..), hdiv, ← Nat.dvd_iff_mod_eq_zero, interleaveUnit,
    Nat.mul_dvd_mul_iff_left (by decide), Nat.div_dvd_iff_dvd_mul (Nat.gcd_dvd_left ..) hpos,
    Nat.dvd_gcd_mul_iff_dvd_mul, Nat.mul_assoc tiles, Nat.mul_comm tiles]

theorem ceilTo_of_dvd {align : Nat} (h : 0 < align) (hdvd : align ∣ n) : ceilTo align n = n :=
  Nat.le_antisymm (ceilTo_le h hdvd (Nat.le_refl n)) (le_ceilTo h)

-- Induction on the rounds: a round that does not stop stays below the next multiple of the unit.
theorem widenPitch_eq (rounds : Nat) (hpitch : kMicroTileWidth ∣ pitch)
    (hrounds : ceilTo (interleaveUnit height bitsPerElement fragments thickness) pitch ≤
      pitch + kMicroTileWidth * rounds) :
    widenPitch height bitsPerElement fragments thickness rounds pitch =
      ceilTo (interleaveUnit height bitsPerElement fragments thickness) pitch := by
  have hpos := interleaveUnit_pos height bitsPerElement fragments thickness
  have hle : pitch ≤ ceilTo (interleaveUnit height bitsPerElement fragments thickness) pitch :=
    le_ceilTo hpos
  induction rounds generalizing pitch with
  | zero => exact Nat.le_antisymm hle hrounds
  | succ rounds ih =>
      simp only [widenPitch]
      split
      next hfills =>
        have hnot : ¬interleaveUnit height bitsPerElement fragments thickness ∣ pitch :=
          fun hdvd => hfills ((fills_interleave_iff hpitch).mpr hdvd)
        have hne : pitch ≠ ceilTo (interleaveUnit height bitsPerElement fragments thickness) pitch :=
          fun heq => hnot (heq ▸ ceilTo_dvd _ _)
        have hstep : kMicroTileWidth ∣
            ceilTo (interleaveUnit height bitsPerElement fragments thickness) pitch - pitch :=
          Nat.dvd_sub ((dvd_interleaveUnit ..).trans (ceilTo_dvd _ _)) hpitch
        have hge := Nat.le_of_dvd (by omega) hstep
        have hsame : ceilTo (interleaveUnit height bitsPerElement fragments thickness)
            (pitch + kMicroTileWidth) =
              ceilTo (interleaveUnit height bitsPerElement fragments thickness) pitch :=
          ceilTo_eq_of_between hpos (Nat.le_add_right ..) (by omega)
        rw [Nat.mul_add, Nat.mul_one] at hrounds
        rw [ih (Nat.dvd_add hpitch (Nat.dvd_refl _)) (by omega) (le_ceilTo hpos), hsame]
      next hfills =>
        have hdvd := (fills_interleave_iff hpitch).mp (not_not.mp hfills)
        exact (ceilTo_of_dvd hpos hdvd).symm

theorem tempPitch_eq (hpitch : kMicroTileWidth ∣ pitch) (hheight : kMicroTileHeight ∣ height) :
    tempPitch pitch height bitsPerElement fragments thickness =
      ceilTo (interleaveUnit height bitsPerElement fragments thickness) pitch := by
  apply widenPitch_eq 32 hpitch
  have hlt : ceilTo (interleaveUnit height bitsPerElement fragments thickness) pitch <
      pitch + interleaveUnit height bitsPerElement fragments thickness :=
    ceilTo_lt (interleaveUnit_pos ..)
  have hle : interleaveUnit height bitsPerElement fragments thickness ≤ kMicroTileWidth * 32 :=
    interleaveUnit_le hheight
  omega

-- The loop of the source ends: a slice of tiles fills the interleave after its rounds.
theorem tempPitch_fills (hpitch : kMicroTileWidth ∣ pitch) (hheight : kMicroTileHeight ∣ height) :
    logicalSliceSizeBytes (tempPitch pitch height bitsPerElement fragments thickness) height
      bitsPerElement fragments * thickness % kPipeInterleaveBytes = 0 := by
  have hdvd := ceilTo_dvd (interleaveUnit height bitsPerElement fragments thickness) pitch
  rw [tempPitch_eq hpitch hheight]
  exact (fills_interleave_iff ((dvd_interleaveUnit ..).trans hdvd)).mpr hdvd

end Rpcsx.AmdgpuTiler
