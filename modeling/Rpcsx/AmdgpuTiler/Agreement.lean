import Mathlib.Data.Nat.ModEq
import Rpcsx.AmdgpuTiler.Widening

namespace Rpcsx.AmdgpuTiler

open Data.Alignment

-- A 1D-tiled surface that `computeSurfaceInfo` accepts.
structure Surface where
  tileMode : TileMode
  type : TextureType
  dfmt : DataFormat
  width : Nat
  height : Nat
  depth : Nat
  pitch : Nat
  baseArrayLayer : Nat
  arrayCount : Nat
  baseMipLevel : Nat
  mipCount : Nat
  pow2pad : Bool
  bitsPerElement : Nat
  tiled1d : tileMode.arrayMode = .tiled1dThin ∨ tileMode.arrayMode = .tiled1dThick
  width_le_pitch : width ≤ pitch
  accepted : surfaceBits dfmt = some bitsPerElement

namespace Surface

variable (s : Surface)

def levels : Nat := s.baseMipLevel + s.mipCount

def layers : Nat := arraySlices s.type s.pow2pad s.depth

def numFragments : Nat := getNumFragments s.type s.baseArrayLayer s.arrayCount

def thickness : Nat := tileThickness s.tileMode.arrayMode

def info : Option SurfaceInfo :=
  computeTexture1dInfo s.tileMode.arrayMode s.type s.dfmt s.width s.height s.depth s.pitch
    s.baseArrayLayer s.arrayCount s.baseMipLevel s.mipCount s.pow2pad

def cpuOffset (mipLevel arraySlice x y z : Nat) : Option Nat :=
  getTiledOffset1D s.type s.pow2pad s.dfmt s.tileMode mipLevel arraySlice s.numFragments s.width
    s.height s.depth s.pitch x y z

-- Both tilers address the same bit for every element of every level and slice.
def Agrees : Prop :=
  ∃ info, s.info = some info ∧
    ∀ mipLevel sub, info.subresources[mipLevel]? = some sub →
      ∀ slice < info.arrayLayerCount,
        ∀ x < sub.linearWidth, ∀ y < sub.linearHeight, ∀ z < sub.linearDepth,
          s.cpuOffset mipLevel slice x y z =
            some (8 * (sub.tiledOffset + slice * sub.tiledSize) +
              getTiledBitOffset1D s.tileMode x y z sub.tiledWidth sub.tiledHeight
                info.bitsPerElement)

-- The width of a level in the walk of either tiler: the two take the other one of width and pitch.
def cpuWidth (mipLevel : Nat) : Nat :=
  levelWidth s.dfmt s.pow2pad (if mipLevel > 0 then s.pitch else s.width) mipLevel

def gpuWidth (mipLevel : Nat) : Nat :=
  levelWidth s.dfmt s.pow2pad (if mipLevel > 0 then s.width else s.pitch) mipLevel

def heightAt (mipLevel : Nat) : Nat := levelHeight s.dfmt s.pow2pad s.height mipLevel

def depthAt (mipLevel : Nat) : Nat := levelDepth s.type s.pow2pad s.depth mipLevel

-- Only the CPU pads the depth of a cube map.
def cpuDepth (mipLevel : Nat) : Nat := ceilTo s.thickness (s.depthAt mipLevel)

def gpuDepth (mipLevel : Nat) : Nat :=
  if s.type = .cube then s.depthAt mipLevel else ceilTo s.thickness (s.depthAt mipLevel)

def unit (mipLevel : Nat) : Nat :=
  interleaveUnit (ceilTo kMicroTileHeight (s.heightAt mipLevel)) s.bitsPerElement
    (2 ^ s.numFragments) s.thickness

-- The bytes of a plane of micro tiles.
def planeBytes (width mipLevel : Nat) : Nat :=
  tilesPerSlice width (s.heightAt mipLevel) * tileBytes s.tileMode.arrayMode s.bitsPerElement

-- The CPU has an element order for the micro tile mode.
def ElementOrder : Prop :=
  match s.tileMode.microTileMode with
  | .display => s.bitsPerElement = 8 ∨ s.bitsPerElement = 16 ∨ s.bitsPerElement = 32 ∨
      s.bitsPerElement = 64
  | .thick => s.tileMode.arrayMode = .tiled1dThick ∧
      (s.bitsPerElement = 8 ∨ s.bitsPerElement = 16 ∨ s.bitsPerElement = 32 ∨
        s.bitsPerElement = 64 ∨ s.bitsPerElement = 128)
  | _ => True

-- What width, pitch, height and depth must satisfy for the two walks to agree.
structure SameWalk : Prop where
  -- a level that another level or slice follows has one padded size
  sizes : ∀ i, i + 1 < s.levels ∨ i < s.levels ∧ 1 < s.layers →
    ceilTo (s.unit i) (s.cpuWidth i) * s.cpuDepth i = ceilTo (s.unit i) (s.gpuWidth i) * s.gpuDepth i
  -- a level of several rows of tiles has one number of tiles in a row
  rows : ∀ i < s.levels, kMicroTileHeight < s.heightAt i →
    s.cpuWidth i / kMicroTileWidth = s.gpuWidth i / kMicroTileWidth
  -- a level of several planes of tiles has one size of a plane, and fewer than 2^32 bytes
  -- before the last one
  planes : ∀ i < s.levels, s.thickness < s.depthAt i →
    s.planeBytes (s.cpuWidth i) i ≡ s.planeBytes (s.gpuWidth i) i [MOD 2 ^ 32] ∧
      (s.depthAt i - 1) / s.thickness * s.planeBytes (s.gpuWidth i) i < 2 ^ 32

def SameAddresses : Prop :=
  s.levels = 0 ∨ s.layers = 0 ∨ s.ElementOrder ∧ (s.bitsPerElement = 0 ∨ s.SameWalk)

theorem thickness_eq : getMicroTileThickness s.tileMode.arrayMode = s.thickness := by
  rcases s.tiled1d with h | h <;> simp [thickness, tileThickness, getMicroTileThickness, h]

theorem thickness_pos : 0 < s.thickness := by
  rcases s.tiled1d with h | h <;> simp [thickness, tileThickness, h]

theorem tileBytes_eq :
    tileBytes s.tileMode.arrayMode s.bitsPerElement = 8 * s.thickness * s.bitsPerElement := by
  simp only [tileBytes, thickness, kMicroTileWidth, kMicroTileHeight, Nat.mul_assoc]
  omega

theorem depthAt_of_cube (h : s.type = .cube) (mipLevel : Nat) : s.depthAt mipLevel = 1 := by
  have hone : max (1 >>> mipLevel) 1 = 1 := by
    rw [Nat.shiftRight_eq_div_pow]
    have := Nat.div_le_self 1 (2 ^ mipLevel)
    omega
  have hceil : padPow2 s.pow2pad 1 = 1 := by cases s.pow2pad <;> rfl
  simp [depthAt, levelDepth, h, hone, hceil]

-- One level of `computeTexture1dInfo` in terms of the surface.
def levelAt (mipLevel surfaceOffset linearOffset : Nat) : SubresourceInfo :=
  computeLevel1d s.tileMode.arrayMode s.type s.dfmt s.width s.height s.depth s.pitch s.numFragments
    s.bitsPerElement s.pow2pad mipLevel surfaceOffset linearOffset

def gpuSize (mipLevel : Nat) : Nat := (s.levelAt mipLevel 0 0).tiledSize

def linearSize (mipLevel : Nat) : Nat := (s.levelAt mipLevel 0 0).linearSize

def cpuSize (mipLevel : Nat) : Nat :=
  levelSizeBytes s.type s.pow2pad s.dfmt s.tileMode.arrayMode s.numFragments s.width s.height
    s.depth s.pitch s.bitsPerElement mipLevel

def offsetAt (sizes : Nat → Nat) (mipLevel : Nat) : Nat := prefixSize s.layers sizes mipLevel

theorem cpuWalk_eq (count : Nat) :
    (List.range (count + 1)).foldl
      (fun walk i =>
        { finalSurfaceOffset := walk.finalSurfaceOffset + s.layers * walk.finalSurfaceSize
          finalSurfaceSize := s.cpuSize i })
      ({ finalSurfaceOffset := 0, finalSurfaceSize := 0 } : Walk) =
    { finalSurfaceOffset := s.offsetAt s.cpuSize count, finalSurfaceSize := s.cpuSize count } := by
  induction count with
  | zero => rfl
  | succ count ih =>
      rw [List.range_succ, List.foldl_append, ih]
      simp only [List.foldl_cons, List.foldl_nil, offsetAt, prefixSize, Finset.sum_range_succ]

theorem info_eq : ∃ info, s.info = some info ∧ info.arrayLayerCount = s.layers ∧
    info.bitsPerElement = s.bitsPerElement ∧
    info.subresources = (List.range s.levels).map fun i =>
      s.levelAt i (s.offsetAt s.gpuSize i) (s.offsetAt s.linearSize i) := by
  refine ⟨_, by simp only [info, computeTexture1dInfo, s.accepted]; rfl, rfl, rfl, ?_⟩
  exact congrArg LevelWalk.levels (walkLevels_eq s.layers s.levels s.levelAt
    (fun _ _ _ => rfl) (fun _ _ _ => rfl))

theorem cpuOffset_eq (mipLevel slice x y z : Nat) :
    s.cpuOffset mipLevel slice x y z =
      (getElementIndex x y z s.bitsPerElement s.tileMode.microTileMode s.tileMode.arrayMode).map
        fun elementIndex =>
          (z / s.thickness * tilesPerSlice (s.cpuWidth mipLevel) (s.heightAt mipLevel) *
              tileBytes s.tileMode.arrayMode s.bitsPerElement % 2 ^ 32 +
            tileOffset s.tileMode.arrayMode x y (s.cpuWidth mipLevel) s.bitsPerElement) * 8 +
            elementIndex * s.bitsPerElement +
            (s.offsetAt s.cpuSize mipLevel + s.cpuSize mipLevel * slice) * 8 := by
  have hwalk := s.cpuWalk_eq mipLevel
  simp only [cpuSize, layers] at hwalk
  simp only [cpuOffset, getTiledOffset1D, s.accepted, Option.bind_eq_bind, Option.bind_some, hwalk]
  have hwidth : levelWidth s.dfmt s.pow2pad (if mipLevel ≠ 0 then s.pitch else s.width) mipLevel =
      s.cpuWidth mipLevel := by
    simp only [cpuWidth, Nat.pos_iff_ne_zero, gt_iff_lt]
  rw [hwidth]
  cases getElementIndex x y z s.bitsPerElement s.tileMode.microTileMode s.tileMode.arrayMode <;> rfl

def sliceBits (mipLevel : Nat) : Nat :=
  ceilTo kMicroTileHeight (s.heightAt mipLevel) * s.bitsPerElement * 2 ^ s.numFragments

-- The padded pitch of either walk, after the widening.
def paddedPitch (width mipLevel : Nat) : Nat := ceilTo (s.unit mipLevel) width

theorem unit_pos (mipLevel : Nat) : 0 < s.unit mipLevel := interleaveUnit_pos ..

theorem tempPitch_paddedPitch (width mipLevel : Nat) :
    tempPitch (ceilTo kMicroTileWidth width) (ceilTo kMicroTileHeight (s.heightAt mipLevel))
      s.bitsPerElement (2 ^ s.numFragments) s.thickness = s.paddedPitch width mipLevel := by
  rw [tempPitch_eq (ceilTo_dvd ..) (ceilTo_dvd ..)]
  have hpos := s.unit_pos mipLevel
  have hdvd : kMicroTileWidth ∣ s.unit mipLevel := dvd_interleaveUnit ..
  refine ceilTo_eq_of_between hpos (le_ceilTo (by decide)) ?_
  exact ceilTo_le (by decide) (hdvd.trans (ceilTo_dvd ..)) (le_ceilTo hpos)

theorem slice_eq (width mipLevel : Nat) :
    logicalSliceSizeBytes (s.paddedPitch width mipLevel)
      (ceilTo kMicroTileHeight (s.heightAt mipLevel)) s.bitsPerElement (2 ^ s.numFragments) =
    s.paddedPitch width mipLevel / kMicroTileWidth * s.sliceBits mipLevel :=
  logicalSliceSizeBytes_eq ((dvd_interleaveUnit ..).trans (ceilTo_dvd ..))

theorem cpuSize_eq (mipLevel : Nat) :
    s.cpuSize mipLevel = s.paddedPitch (s.cpuWidth mipLevel) mipLevel / kMicroTileWidth *
      s.sliceBits mipLevel * s.cpuDepth mipLevel := by
  rw [← s.slice_eq, ← s.tempPitch_paddedPitch]
  simp only [cpuSize, levelSizeBytes, s.thickness_eq]
  rfl

theorem tiledWidth_eq (mipLevel surfaceOffset linearOffset : Nat) :
    (s.levelAt mipLevel surfaceOffset linearOffset).tiledWidth = s.gpuWidth mipLevel := by
  have hle := s.width_le_pitch
  show (if mipLevel > 0 ∧ s.pitch > 0 then _ else _) = levelWidth _ _ (if _ then _ else _) _
  by_cases hlevel : mipLevel > 0
  · by_cases hpitch : s.pitch > 0
    · rw [if_pos ⟨hlevel, hpitch⟩, if_pos hlevel]
    · -- a surface without a pitch has no width either
      have hpitch : s.pitch = 0 := by omega
      have hwidth : s.width = 0 := by omega
      simp [hlevel, hpitch, hwidth]
  · simp [hlevel]

theorem linearDepth_eq (mipLevel surfaceOffset linearOffset : Nat) :
    (s.levelAt mipLevel surfaceOffset linearOffset).linearDepth = s.depthAt mipLevel := by
  -- the depth of a cube map is one, the code never rounds it
  have hnot : ¬((s.type ≠ .cube ∨ mipLevel > 0 ∧ s.depthAt mipLevel > 1) ∧ s.type = .cube) := by
    rintro ⟨hcase, hcube⟩
    rcases hcase with hne | ⟨_, hdepth⟩
    · exact hne hcube
    · rw [s.depthAt_of_cube hcube] at hdepth
      omega
  exact if_neg hnot

theorem gpuSize_eq (mipLevel : Nat) :
    s.gpuSize mipLevel = s.paddedPitch (s.gpuWidth mipLevel) mipLevel / kMicroTileWidth *
      s.sliceBits mipLevel * s.gpuDepth mipLevel := by
  have hwidth := s.tiledWidth_eq mipLevel 0 0
  have hdepth := s.linearDepth_eq mipLevel 0 0
  rw [← s.slice_eq, ← s.tempPitch_paddedPitch, ← hwidth]
  have hpadded : (if s.type ≠ .cube ∨ mipLevel > 0 ∧ s.depthAt mipLevel > 1 then
      ceilTo s.thickness (s.levelAt mipLevel 0 0).linearDepth
      else (s.levelAt mipLevel 0 0).linearDepth) = s.gpuDepth mipLevel := by
    rw [hdepth, gpuDepth]
    by_cases hcube : s.type = .cube
    · simp [hcube, s.depthAt_of_cube hcube mipLevel]
    · simp [hcube]
  rw [← hpadded, ← s.thickness_eq]
  rfl

theorem sliceBits_eq_zero_iff (mipLevel : Nat) :
    s.sliceBits mipLevel = 0 ↔ s.bitsPerElement = 0 := by
  have hheight : 0 < ceilTo kMicroTileHeight (s.heightAt mipLevel) :=
    (levelHeight_pos ..).trans_le (le_ceilTo (by decide))
  have hfragments : 0 < 2 ^ s.numFragments := Nat.two_pow_pos _
  simp only [sliceBits, Nat.mul_eq_zero]
  omega

-- The padded sizes of a level agree where the padded pitches and depths do.
theorem sizes_eq_iff (mipLevel : Nat) :
    s.cpuSize mipLevel = s.gpuSize mipLevel ↔ s.bitsPerElement = 0 ∨
      s.paddedPitch (s.cpuWidth mipLevel) mipLevel * s.cpuDepth mipLevel =
        s.paddedPitch (s.gpuWidth mipLevel) mipLevel * s.gpuDepth mipLevel := by
  have hdvd : kMicroTileWidth ∣ s.unit mipLevel := dvd_interleaveUnit ..
  obtain ⟨cpuTiles, hcpu⟩ := hdvd.trans (ceilTo_dvd (s.unit mipLevel) (s.cpuWidth mipLevel))
  obtain ⟨gpuTiles, hgpu⟩ := hdvd.trans (ceilTo_dvd (s.unit mipLevel) (s.gpuWidth mipLevel))
  rw [s.cpuSize_eq, s.gpuSize_eq]
  simp only [paddedPitch, hcpu, hgpu, Nat.mul_div_cancel_left _ (by decide : 0 < kMicroTileWidth)]
  rw [Nat.mul_right_comm cpuTiles, Nat.mul_right_comm gpuTiles, Nat.mul_assoc kMicroTileWidth,
    Nat.mul_assoc kMicroTileWidth, mul_eq_mul_right_iff,
    Nat.mul_left_cancel_iff (by decide : 0 < kMicroTileWidth), s.sliceBits_eq_zero_iff mipLevel]
  exact or_comm

-- The two element orders agree wherever the CPU has one.
theorem shaderElementIndex_eq {x y z bitsPerElement index : Nat} {mode : MicroTileMode}
    {arrayMode : ArrayMode}
    (h : getElementIndex x y z bitsPerElement mode arrayMode = some index) :
    shaderElementIndex x y z bitsPerElement mode arrayMode = index := by
  cases mode with
  | display =>
      simp only [getElementIndex, Option.map_eq_some_iff] at h
      obtain ⟨bits, hbits, rfl⟩ := h
      simp [shaderElementIndex, hbits]
  | thin | depth | rotated | other => simpa [getElementIndex, shaderElementIndex] using h
  | thick =>
      simp only [getElementIndex] at h
      split at h
      next hthick =>
        simp only [Option.map_eq_some_iff] at h
        obtain ⟨bits, hbits, rfl⟩ := h
        simp [shaderElementIndex, hthick, hbits]
      next hthick =>
        simp only [Option.map_eq_some_iff] at h
        obtain ⟨bits, hbits, rfl⟩ := h
        simp [shaderElementIndex, hthick, hbits]
      next => cases h

theorem thickBits_isSome_iff (x y z bitsPerElement : Nat) :
    (thickBits x y z bitsPerElement).isSome ↔ bitsPerElement = 8 ∨ bitsPerElement = 16 ∨
      bitsPerElement = 32 ∨ bitsPerElement = 64 ∨ bitsPerElement = 128 := by
  unfold thickBits
  split
  · simp; omega
  split
  · simp; omega
  split
  · simp; omega
  · simp; omega

theorem displayBits_isSome_iff (x y bitsPerElement : Nat) :
    (displayBits x y bitsPerElement).isSome ↔ bitsPerElement = 8 ∨ bitsPerElement = 16 ∨
      bitsPerElement = 32 ∨ bitsPerElement = 64 := by
  unfold displayBits
  split
  · simp; omega
  split
  · simp; omega
  split
  · simp; omega
  split
  · simp; omega
  · simp; omega

theorem getElementIndex_isSome_iff (x y z : Nat) :
    (getElementIndex x y z s.bitsPerElement s.tileMode.microTileMode
      s.tileMode.arrayMode).isSome ↔ s.ElementOrder := by
  unfold ElementOrder getElementIndex
  cases s.tileMode.microTileMode with
  | display => simp only [Option.isSome_map, displayBits_isSome_iff]
  | thin | depth | rotated | other => simp
  | thick =>
      rcases s.tiled1d with h | h
      · simp [h, getMicroTileThickness]
      · simp only [h, getMicroTileThickness, Option.isSome_map, thickBits_isSome_iff, true_and]

-- The bytes before the tile of an element, in the walk of the CPU and of the shader.
def cpuTile (mipLevel slice x y z : Nat) : Nat :=
  z / s.thickness * tilesPerSlice (s.cpuWidth mipLevel) (s.heightAt mipLevel) *
      tileBytes s.tileMode.arrayMode s.bitsPerElement % 2 ^ 32 +
    tileOffset s.tileMode.arrayMode x y (s.cpuWidth mipLevel) s.bitsPerElement +
    (s.offsetAt s.cpuSize mipLevel + s.cpuSize mipLevel * slice)

def gpuTile (mipLevel slice x y z : Nat) : Nat :=
  z / s.thickness * tilesPerSlice (s.gpuWidth mipLevel) (s.heightAt mipLevel) % 2 ^ 32 *
      tileBytes s.tileMode.arrayMode s.bitsPerElement +
    tileOffset s.tileMode.arrayMode x y (s.gpuWidth mipLevel) s.bitsPerElement +
    (s.offsetAt s.gpuSize mipLevel + s.gpuSize mipLevel * slice)

-- The elements of the levels and slices of the surface.
def Element (mipLevel slice x y z : Nat) : Prop :=
  mipLevel < s.levels ∧ slice < s.layers ∧
    x < levelWidth s.dfmt s.pow2pad s.width mipLevel ∧ y < s.heightAt mipLevel ∧
    z < s.depthAt mipLevel

theorem cpuOffset_eq_some_iff (mipLevel slice x y z : Nat) :
    s.cpuOffset mipLevel slice x y z =
        some (8 * (s.offsetAt s.gpuSize mipLevel + slice * s.gpuSize mipLevel) +
          getTiledBitOffset1D s.tileMode x y z (s.gpuWidth mipLevel) (s.heightAt mipLevel)
            s.bitsPerElement) ↔
      s.ElementOrder ∧ s.cpuTile mipLevel slice x y z = s.gpuTile mipLevel slice x y z := by
  rw [s.cpuOffset_eq, ← s.getElementIndex_isSome_iff x y z]
  cases hindex : getElementIndex x y z s.bitsPerElement s.tileMode.microTileMode
      s.tileMode.arrayMode with
  | none => simp
  | some index =>
      have hshader := shaderElementIndex_eq hindex
      simp only [Option.map_some, Option.some.injEq, Option.isSome_some, true_and,
        getTiledBitOffset1D, hshader, cpuTile, gpuTile]
      have hthickness : tileThickness s.tileMode.arrayMode = s.thickness := rfl
      rw [hthickness, Nat.mul_comm slice]
      omega

theorem agrees_iff : s.Agrees ↔ ∀ mipLevel slice x y z, s.Element mipLevel slice x y z →
    s.ElementOrder ∧ s.cpuTile mipLevel slice x y z = s.gpuTile mipLevel slice x y z := by
  obtain ⟨info, hinfo, hlayers, hbits, hlevels⟩ := s.info_eq
  constructor
  · rintro ⟨found, hfound, h⟩ mipLevel slice x y z ⟨hlevel, hslice, hx, hy, hz⟩
    obtain rfl : info = found := Option.some.inj (hinfo.symm.trans hfound)
    have hsub : info.subresources[mipLevel]? = some (s.levelAt mipLevel
        (s.offsetAt s.gpuSize mipLevel) (s.offsetAt s.linearSize mipLevel)) := by
      simp [hlevels, hlevel]
    have hdepth := s.linearDepth_eq mipLevel (s.offsetAt s.gpuSize mipLevel)
      (s.offsetAt s.linearSize mipLevel)
    have hsame := h mipLevel _ hsub slice (hlayers ▸ hslice) x hx y hy z (hdepth ▸ hz)
    rw [s.tiledWidth_eq, hbits] at hsame
    exact (s.cpuOffset_eq_some_iff mipLevel slice x y z).mp hsame
  · intro h
    refine ⟨info, hinfo, ?_⟩
    intro mipLevel sub hsub slice hslice x hx y hy z hz
    rw [hlevels, List.getElem?_map, Option.map_eq_some_iff] at hsub
    obtain ⟨level, hlevel, rfl⟩ := hsub
    obtain ⟨hlt, hval⟩ := List.getElem?_eq_some_iff.mp hlevel
    rw [List.length_range] at hlt
    obtain rfl : mipLevel = level := by simpa using hval
    rw [s.linearDepth_eq] at hz
    rw [s.tiledWidth_eq, hbits]
    exact (s.cpuOffset_eq_some_iff mipLevel slice x y z).mpr
      (h mipLevel slice x y z ⟨hlt, hlayers ▸ hslice, hx, hy, hz⟩)

-- Planes of `cpu` and `gpu` tiles begin at the same bytes of 32-bit products up to plane `last`.
theorem planes_eq_iff {cpu gpu bytes last : Nat} (hbytes : 2 ≤ bytes) (hgpu : gpu < 2 ^ 32)
    (hlast : 0 < last) :
    (∀ plane ≤ last, plane * cpu * bytes % 2 ^ 32 = plane * gpu % 2 ^ 32 * bytes) ↔
      cpu * bytes ≡ gpu * bytes [MOD 2 ^ 32] ∧ last * (gpu * bytes) < 2 ^ 32 := by
  have hpos : 0 < 2 ^ 32 := Nat.two_pow_pos 32
  have hdouble : ∀ tiles, tiles * 2 ≤ tiles * bytes := fun tiles => Nat.mul_le_mul_left tiles hbytes
  constructor
  · intro h
    have hone := h 1 hlast
    rw [Nat.one_mul, Nat.one_mul, Nat.mod_eq_of_lt hgpu] at hone
    have hsmall : gpu * bytes < 2 ^ 32 := hone ▸ Nat.mod_lt _ hpos
    refine ⟨hone.trans (Nat.mod_eq_of_lt hsmall).symm, ?_⟩
    -- induction on the planes: one more plane does not wrap before the product with the bytes
    have hplanes : ∀ plane ≤ last, plane * gpu * bytes < 2 ^ 32 := by
      intro plane
      induction plane with
      | zero => intro _; simp
      | succ plane ih =>
          intro hle
          have hbefore := ih (by omega)
          have htwice := hdouble (plane * gpu)
          have htwice' := hdouble gpu
          have hnext : (plane + 1) * gpu < 2 ^ 32 := by
            rw [Nat.add_mul, Nat.one_mul]
            omega
          have hsame := h (plane + 1) hle
          rw [Nat.mod_eq_of_lt hnext] at hsame
          exact hsame ▸ Nat.mod_lt _ hpos
    rw [← Nat.mul_assoc]
    exact hplanes last (Nat.le_refl _)
  · rintro ⟨hmod, hsmall⟩ plane hle
    have hbelow : plane * (gpu * bytes) < 2 ^ 32 :=
      (Nat.mul_le_mul_right _ hle).trans_lt hsmall
    have htiles : plane * gpu < 2 ^ 32 := by
      have htwice := hdouble (plane * gpu)
      rw [Nat.mul_assoc plane gpu bytes] at htwice
      omega
    rw [Nat.mod_eq_of_lt htiles, Nat.mul_assoc, Nat.mul_assoc]
    exact Eq.trans (hmod.mul_left plane) (Nat.mod_eq_of_lt hbelow)

theorem planeBytes_eq (width mipLevel : Nat) :
    s.planeBytes width mipLevel = tilesPerSlice width (s.heightAt mipLevel) *
      tileBytes s.tileMode.arrayMode s.bitsPerElement := rfl

theorem tilesPerSlice_lt (width height : Nat) : tilesPerSlice width height < 2 ^ 32 := by
  have hlt := Nat.mod_lt (width / kMicroTileWidth * (height / kMicroTileHeight)) (Nat.two_pow_pos 32)
  have hone : 1 < 2 ^ 32 := by decide
  simp only [tilesPerSlice]
  omega

theorem two_le_tileBytes (hbits : s.bitsPerElement ≠ 0) :
    2 ≤ tileBytes s.tileMode.arrayMode s.bitsPerElement := by
  have hpos : 0 < s.thickness * s.bitsPerElement :=
    Nat.mul_pos s.thickness_pos (Nat.pos_of_ne_zero hbits)
  rw [s.tileBytes_eq, Nat.mul_assoc]
  omega

section Agreeing

variable {s : Surface} {mipLevel slice : Nat}

-- The element at the origin of a slice shows the offsets of the level.
theorem Agrees.offsets (h : s.Agrees) (hlevel : mipLevel < s.levels) (hslice : slice < s.layers) :
    s.offsetAt s.cpuSize mipLevel + s.cpuSize mipLevel * slice =
      s.offsetAt s.gpuSize mipLevel + s.gpuSize mipLevel * slice := by
  have htile := (s.agrees_iff.mp h mipLevel slice 0 0 0
    ⟨hlevel, hslice, levelWidth_pos .., levelHeight_pos .., levelDepth_pos ..⟩).2
  simpa [cpuTile, gpuTile, tileOffset] using htile

theorem Agrees.sizes (h : s.Agrees) (hlayers : 0 < s.layers)
    (hlevel : mipLevel + 1 < s.levels ∨ mipLevel < s.levels ∧ 1 < s.layers) :
    s.cpuSize mipLevel = s.gpuSize mipLevel := by
  have hhere : s.offsetAt s.cpuSize mipLevel + s.cpuSize mipLevel * 0 =
      s.offsetAt s.gpuSize mipLevel + s.gpuSize mipLevel * 0 := h.offsets (by omega) hlayers
  rcases hlevel with hnext | ⟨hlast, hmany⟩
  · have hafter := h.offsets hnext hlayers
    simp only [offsetAt, prefixSize, Finset.sum_range_succ, Nat.mul_zero, Nat.add_zero] at hhere hafter
    exact Nat.eq_of_mul_eq_mul_left hlayers (by omega)
  · have hsecond := h.offsets hlast hmany
    omega

theorem Agrees.rows (h : s.Agrees) (hlayers : 0 < s.layers) (hbits : s.bitsPerElement ≠ 0)
    (hlevel : mipLevel < s.levels) (hheight : kMicroTileHeight < s.heightAt mipLevel) :
    s.cpuWidth mipLevel / kMicroTileWidth = s.gpuWidth mipLevel / kMicroTileWidth := by
  have htile := (s.agrees_iff.mp h mipLevel 0 0 kMicroTileHeight 0
    ⟨hlevel, hlayers, levelWidth_pos .., hheight, levelDepth_pos ..⟩).2
  have hoffsets := h.offsets hlevel hlayers
  have hbytes := s.two_le_tileBytes hbits
  have hself : kMicroTileHeight / kMicroTileHeight = 1 := by decide
  simp only [cpuTile, gpuTile, tileOffset, Nat.zero_div, Nat.zero_mul, Nat.zero_mod, hself,
    Nat.one_mul, Nat.add_zero, Nat.zero_add] at htile
  exact Nat.eq_of_mul_eq_mul_right (by omega) (Nat.add_right_cancel (hoffsets ▸ htile))

theorem Agrees.planes (h : s.Agrees) (hlayers : 0 < s.layers) (hbits : s.bitsPerElement ≠ 0)
    (hlevel : mipLevel < s.levels) (hdepth : s.thickness < s.depthAt mipLevel) :
    s.planeBytes (s.cpuWidth mipLevel) mipLevel ≡ s.planeBytes (s.gpuWidth mipLevel) mipLevel
        [MOD 2 ^ 32] ∧
      (s.depthAt mipLevel - 1) / s.thickness * s.planeBytes (s.gpuWidth mipLevel) mipLevel <
        2 ^ 32 := by
  have hthickness := s.thickness_pos
  have hlast : 0 < (s.depthAt mipLevel - 1) / s.thickness := Nat.div_pos (by omega) hthickness
  refine (planes_eq_iff (s.two_le_tileBytes hbits) (tilesPerSlice_lt _ _) hlast).mp ?_
  intro plane hplane
  have hz : plane * s.thickness < s.depthAt mipLevel := by
    have hle := (Nat.le_div_iff_mul_le hthickness).mp hplane
    omega
  have htile := (s.agrees_iff.mp h mipLevel 0 0 0 (plane * s.thickness)
    ⟨hlevel, hlayers, levelWidth_pos .., levelHeight_pos .., hz⟩).2
  have hoffsets := h.offsets hlevel hlayers
  simp only [cpuTile, gpuTile, tileOffset, Nat.zero_div, Nat.zero_mul, Nat.add_zero,
    Nat.mul_div_cancel _ hthickness] at htile
  exact Nat.add_right_cancel (hoffsets ▸ htile)

theorem Agrees.sameAddresses (h : s.Agrees) : s.SameAddresses := by
  by_cases hlevels : s.levels = 0
  · exact .inl hlevels
  by_cases hlayers : s.layers = 0
  · exact .inr (.inl hlayers)
  have hlayers := Nat.pos_of_ne_zero hlayers
  have horder := (s.agrees_iff.mp h 0 0 0 0 0 ⟨Nat.pos_of_ne_zero hlevels, hlayers,
    levelWidth_pos .., levelHeight_pos .., levelDepth_pos ..⟩).1
  refine .inr (.inr ⟨horder, ?_⟩)
  by_cases hbits : s.bitsPerElement = 0
  · exact .inl hbits
  refine .inr ⟨fun i hi => ?_, fun i hi hheight => ?_, fun i hi hdepth => ?_⟩
  · exact ((s.sizes_eq_iff i).mp (h.sizes hlayers hi)).resolve_left hbits
  · exact h.rows hlayers hbits hi hheight
  · exact h.planes hlayers hbits hi hdepth

theorem offsetAt_congr {cpu gpu : Nat → Nat} (h : ∀ i < mipLevel, cpu i = gpu i) :
    s.offsetAt cpu mipLevel = s.offsetAt gpu mipLevel := by
  unfold offsetAt prefixSize
  exact Finset.sum_congr rfl fun i hi => by rw [h i (Finset.mem_range.mp hi)]

theorem SameWalk.tile (h : s.SameWalk) (hbits : s.bitsPerElement ≠ 0) {x y z : Nat}
    (helement : s.Element mipLevel slice x y z) :
    s.cpuTile mipLevel slice x y z = s.gpuTile mipLevel slice x y z := by
  obtain ⟨hlevel, hslice, -, hy, hz⟩ := helement
  have hthickness := s.thickness_pos
  have hoffset : s.offsetAt s.cpuSize mipLevel = s.offsetAt s.gpuSize mipLevel :=
    offsetAt_congr fun i hi => (s.sizes_eq_iff i).mpr (.inr (h.sizes i (.inl (by omega))))
  have hslices : s.cpuSize mipLevel * slice = s.gpuSize mipLevel * slice := by
    by_cases hfirst : slice = 0
    · rw [hfirst, Nat.mul_zero, Nat.mul_zero]
    · rw [(s.sizes_eq_iff mipLevel).mpr (.inr (h.sizes mipLevel (.inr ⟨hlevel, by omega⟩)))]
  have hrows : tileOffset s.tileMode.arrayMode x y (s.cpuWidth mipLevel) s.bitsPerElement =
      tileOffset s.tileMode.arrayMode x y (s.gpuWidth mipLevel) s.bitsPerElement := by
    by_cases hfirst : y < kMicroTileHeight
    · simp only [tileOffset, Nat.div_eq_of_lt hfirst, Nat.zero_mul]
    · rw [tileOffset, h.rows mipLevel hlevel (by omega), tileOffset]
  have hplanes : z / s.thickness * tilesPerSlice (s.cpuWidth mipLevel) (s.heightAt mipLevel) *
        tileBytes s.tileMode.arrayMode s.bitsPerElement % 2 ^ 32 =
      z / s.thickness * tilesPerSlice (s.gpuWidth mipLevel) (s.heightAt mipLevel) % 2 ^ 32 *
        tileBytes s.tileMode.arrayMode s.bitsPerElement := by
    by_cases hfirst : z < s.thickness
    · simp only [Nat.div_eq_of_lt hfirst, Nat.zero_mul, Nat.zero_mod]
    · have hlast : 0 < (s.depthAt mipLevel - 1) / s.thickness := Nat.div_pos (by omega) hthickness
      exact (planes_eq_iff (s.two_le_tileBytes hbits) (tilesPerSlice_lt _ _) hlast).mpr
        (h.planes mipLevel hlevel (by omega)) _ (Nat.div_le_div_right (by omega))
  rw [cpuTile, gpuTile, hplanes, hrows, hoffset, hslices]

-- Without bits every tile is empty.
theorem tile_of_no_bits (hbits : s.bitsPerElement = 0) (x y z : Nat) :
    s.cpuTile mipLevel slice x y z = s.gpuTile mipLevel slice x y z := by
  have hsizes : ∀ i, s.cpuSize i = s.gpuSize i := fun i => (s.sizes_eq_iff i).mpr (.inl hbits)
  have hoffset : s.offsetAt s.cpuSize mipLevel = s.offsetAt s.gpuSize mipLevel :=
    offsetAt_congr fun i _ => hsizes i
  have hbytes : tileBytes s.tileMode.arrayMode s.bitsPerElement = 0 := by
    rw [s.tileBytes_eq, hbits, Nat.mul_zero]
  simp only [cpuTile, gpuTile, tileOffset, hbytes, hoffset, hsizes, Nat.mul_zero, Nat.zero_mod]

theorem SameAddresses.agrees (h : s.SameAddresses) : s.Agrees := by
  rw [s.agrees_iff]
  intro mipLevel slice x y z helement
  rcases h with hlevels | hlayers | ⟨horder, hbits | hwalk⟩
  · exact absurd helement.1 (by omega)
  · exact absurd helement.2.1 (by omega)
  · exact ⟨horder, tile_of_no_bits hbits x y z⟩
  · refine ⟨horder, ?_⟩
    by_cases hbits : s.bitsPerElement = 0
    · exact tile_of_no_bits hbits x y z
    · exact hwalk.tile hbits helement

end Agreeing

-- A surface without padding in its pitch, of less than 4 GiB, is addressed by both alike unless it
-- is a thick cube map.
theorem agrees_of_pitch_eq (horder : s.ElementOrder) (hpitch : s.pitch = s.width)
    (hcube : s.type = .cube → s.thickness = 1)
    (hsmall : ∀ i < s.levels,
      (s.depthAt i - 1) / s.thickness * s.planeBytes (s.gpuWidth i) i < 2 ^ 32) : s.Agrees := by
  have hwidth : ∀ i, s.cpuWidth i = s.gpuWidth i := fun i => by
    simp only [cpuWidth, gpuWidth, hpitch, ite_self]
  have hdepth : ∀ i, s.cpuDepth i = s.gpuDepth i := fun i => by
    by_cases htype : s.type = .cube
    · simp [cpuDepth, gpuDepth, htype, hcube htype, ceilTo]
    · simp [cpuDepth, gpuDepth, htype]
  refine SameAddresses.agrees (.inr (.inr ⟨horder, .inr ⟨?_, ?_, ?_⟩⟩))
  · intro i _
    rw [hwidth, hdepth]
  · intro i _ _
    rw [hwidth]
  · intro i hi _
    rw [hwidth]
    exact ⟨rfl, hsmall i hi⟩

-- The two tilers address the same bits exactly where their two widths lead to the same walk.
theorem tilers_agree_iff : s.Agrees ↔ s.SameAddresses :=
  ⟨Agrees.sameAddresses, SameAddresses.agrees⟩

-- Two rows of tiles of 64 texels, with the pitch of a surface of 128.
def padded : Surface where
  tileMode :=
    { arrayMode := .tiled1dThin
      pipeConfig := .p8_32x32_16x16
      tileSplit := 0
      microTileMode := .thin
      sampleSplit := 0 }
  type := .dim2D
  dfmt := .f8_8_8_8
  width := 64
  height := 16
  depth := 1
  pitch := 128
  baseArrayLayer := 0
  arrayCount := 1
  baseMipLevel := 0
  mipCount := 1
  pow2pad := false
  bitsPerElement := 32
  tiled1d := .inl rfl
  width_le_pitch := by decide
  accepted := rfl

-- The second row begins eight tiles into the surface for the CPU and sixteen for the shader.
theorem padded_differs : ¬padded.Agrees ∧
    padded.cpuOffset 0 0 0 8 0 = some (8 * 2048) ∧
    getTiledBitOffset1D padded.tileMode 0 8 0 128 16 32 = 8 * 4096 := by
  refine ⟨?_, by decide, by decide⟩
  intro h
  have hrows : padded.cpuWidth 0 / kMicroTileWidth = padded.gpuWidth 0 / kMicroTileWidth :=
    h.rows (by decide) (by decide) (by decide) (by decide)
  exact absurd hrows (by decide)

end Surface

end Rpcsx.AmdgpuTiler
