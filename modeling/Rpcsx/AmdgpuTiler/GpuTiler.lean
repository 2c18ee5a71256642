import Rpcsx.AmdgpuTiler.Surface1d
import Rpcsx.Data.Scatter

namespace Rpcsx.AmdgpuTiler

open Data.Alignment

-- The sizes of a level in elements, before any padding; all three layouts compute them alike.
def levelPitch (dfmt : DataFormat) (pow2pad : Bool) (width pitch mipLevel : Nat) : Nat :=
  if mipLevel > 0 ∧ pitch > 0 then levelWidth dfmt pow2pad width mipLevel
  else levelWidth dfmt pow2pad pitch mipLevel

def linearSizeBytes (pitch height depth bitsPerElement fragments : Nat) : Nat :=
  depth * ((pitch * height * bitsPerElement * fragments + 7) / 8)

-- One round of the loop of `computeTexture2dInfo`. The alignments are powers of two.
def computeLevel2d (tileMode : TileMode) (macroTileMode : MacroTileMode) (type : TextureType)
    (dfmt : DataFormat) (width height depth pitch numFragments bitsPerElement : Nat)
    (pow2pad : Bool) (mipLevel surfaceOffset linearOffset : Nat) : SubresourceInfo :=
  let numPipes := getPipeCount tileMode.pipeConfig
  let thickness := getMicroTileThickness tileMode.arrayMode
  let linearWidth := levelWidth dfmt pow2pad width mipLevel
  let linearPitch := levelPitch dfmt pow2pad width pitch mipLevel
  let linearHeight := levelHeight dfmt pow2pad height mipLevel
  let linearDepth := levelDepth type pow2pad depth mipLevel
  let fragments := 1 <<< numFragments
  let numBanks := 2 <<< macroTileMode.numBanks
  let tileBytes1x := (thickness * bitsPerElement * kMicroTileWidth * kMicroTileHeight + 7) / 8
  -- the sample split stands here for a depth tile, where the shader takes the tile split
  let tileSplitC := tileSplitBytes tileMode tileMode.sampleSplit tileBytes1x
  let bankWidth := 1 <<< macroTileMode.bankWidth
  let tileSize := min tileSplitC
    ((thickness * bitsPerElement * fragments * kMicroTileWidth * kMicroTileHeight + 7) / 8)
  let bankHeightAlign := max 1 (kPipeInterleaveBytes / (tileSize * bankWidth))
  let bankHeight := ceilTo bankHeightAlign (1 <<< macroTileMode.bankHeight)
  let macroAspectAlign := max 1 (kPipeInterleaveBytes / (tileSize * numPipes * bankWidth))
  let macroAspect :=
    if fragments = 1 then ceilTo macroAspectAlign (1 <<< macroTileMode.macroTileAspect)
    else 1 <<< macroTileMode.macroTileAspect
  let macroTileWidth := kMicroTileWidth * bankWidth * numPipes * macroAspect
  let macroTileHeight := kMicroTileHeight * bankHeight * numBanks / macroAspect
  let outPitch := ceilTo macroTileWidth linearPitch
  let outHeight := ceilTo macroTileHeight linearHeight
  { tiledWidth := outPitch
    tiledHeight := outHeight
    tiledDepth := ceilTo thickness linearDepth
    tiledOffset := surfaceOffset
    tiledSize := (outPitch * outHeight * bitCeil bitsPerElement * fragments + 7) / 8
    linearPitch := linearPitch
    linearWidth := linearWidth
    linearHeight := linearHeight
    linearDepth := linearDepth
    linearOffset := linearOffset
    linearSize := linearSizeBytes linearPitch linearHeight linearDepth bitsPerElement fragments }

def computeTexture2dInfo (tileMode : TileMode) (type : TextureType) (dfmt : DataFormat)
    (width height depth pitch baseArrayLayer arrayCount baseMipLevel mipCount : Nat)
    (pow2pad : Bool) : Option SurfaceInfo := do
  let bitsPerElement ← surfaceBits dfmt
  let numFragments := getNumFragments type baseArrayLayer arrayCount
  let arraySliceCount := arraySlices type pow2pad depth
  let macroTileMode ←
    getDefaultMacroTileModes[computeMacroTileIndex tileMode bitsPerElement (1 <<< numFragments)]?
  if tileMode.pipeConfig = .other then none
  let walk := walkLevels arraySliceCount (baseMipLevel + mipCount)
    (computeLevel2d tileMode macroTileMode type dfmt width height depth pitch numFragments
      bitsPerElement pow2pad)
  return {
    width := width
    height := height
    depth := if type = .dim3D then depth else 1
    pitch := pitch
    macroTileMode := some macroTileMode
    arrayLayerCount := arraySliceCount
    numFragments := numFragments
    bitsPerElement := bitsPerElement
    totalTiledSize := walk.surfaceOffset
    totalLinearSize := walk.linearOffset
    subresources := walk.levels }

-- The pitch of an aligned linear level grows until a slice fills the interleave of the pipes.
def alignPitch (pitchAlign sliceAlign height fragments : Nat) : Nat → Nat → Nat
  | 0, pitch => pitch
  | rounds + 1, pitch =>
      if pitch * height * fragments % sliceAlign ≠ 0 then
        alignPitch pitchAlign sliceAlign height fragments rounds (pitch + pitchAlign)
      else pitch

def computeLevelLinear (arrayMode : ArrayMode) (type : TextureType) (dfmt : DataFormat)
    (width height depth pitch numFragments bitsPerElement : Nat) (pow2pad : Bool)
    (mipLevel surfaceOffset linearOffset : Nat) : SubresourceInfo :=
  let linearWidth := levelWidth dfmt pow2pad width mipLevel
  let linearPitch := levelPitch dfmt pow2pad width pitch mipLevel
  let linearHeight := levelHeight dfmt pow2pad height mipLevel
  let linearDepth := levelDepth type pow2pad depth mipLevel
  let fragments := 1 <<< numFragments
  let bytes := (bitsPerElement + 7) / 8
  let pitchAlign := max 8 (64 / bytes)
  let sliceAlign := max 64 (kPipeInterleaveBytes / bytes)
  let linearSize := linearSizeBytes linearPitch linearHeight linearDepth bitsPerElement fragments
  if arrayMode = .linearGeneral then
    { tiledWidth := linearPitch
      tiledHeight := linearHeight
      tiledDepth := linearDepth
      tiledOffset := surfaceOffset
      tiledSize := linearSize
      linearPitch := linearPitch
      linearWidth := linearWidth
      linearHeight := linearHeight
      linearDepth := linearDepth
      linearOffset := linearOffset
      linearSize := linearSize }
  else
    -- 32 rounds are enough, see `alignPitch_fills`; the thickness of a linear mode is one
    let paddedPitch :=
      alignPitch pitchAlign sliceAlign linearHeight fragments 32 (ceilTo pitchAlign linearPitch)
    { tiledWidth := paddedPitch
      tiledHeight := linearHeight
      tiledDepth := linearDepth
      tiledOffset := surfaceOffset
      tiledSize :=
        (paddedPitch * linearHeight * fragments * bitsPerElement + 7) / 8 * linearDepth
      linearPitch := linearPitch
      linearWidth := linearWidth
      linearHeight := linearHeight
      linearDepth := linearDepth
      linearOffset := linearOffset
      linearSize := linearSize }

def computeTextureLinearInfo (arrayMode : ArrayMode) (type : TextureType) (dfmt : DataFormat)
    (width height depth pitch baseArrayLayer arrayCount baseMipLevel mipCount : Nat)
    (pow2pad : Bool) : Option SurfaceInfo := do
  let bitsPerElement ← surfaceBits dfmt
  let numFragments := getNumFragments type baseArrayLayer arrayCount
  let arraySliceCount := arraySlices type pow2pad depth
  let walk := walkLevels arraySliceCount (baseMipLevel + mipCount)
    (computeLevelLinear arrayMode type dfmt width height depth pitch numFragments bitsPerElement
      pow2pad)
  return {
    width := width
    height := height
    depth := if type = .dim3D then depth else 1
    pitch := pitch
    macroTileMode := none
    arrayLayerCount := arraySliceCount
    numFragments := numFragments
    bitsPerElement := bitsPerElement
    totalTiledSize := walk.surfaceOffset
    totalLinearSize := walk.linearOffset
    subresources := walk.levels }

def computeSurfaceInfo (tileMode : TileMode) (type : TextureType) (dfmt : DataFormat)
    (width height depth pitch baseArrayLayer arrayCount baseMipLevel mipCount : Nat)
    (pow2pad : Bool) : Option SurfaceInfo :=
  match tileMode.arrayMode with
  | .linearGeneral | .linearAligned =>
      computeTextureLinearInfo tileMode.arrayMode type dfmt width height depth pitch baseArrayLayer
        arrayCount baseMipLevel mipCount pow2pad
  | .tiled1dThin | .tiled1dThick =>
      computeTexture1dInfo tileMode.arrayMode type dfmt width height depth pitch baseArrayLayer
        arrayCount baseMipLevel mipCount pow2pad
  | _ =>
      computeTexture2dInfo tileMode type dfmt width height depth pitch baseArrayLayer arrayCount
        baseMipLevel mipCount pow2pad

end Rpcsx.AmdgpuTiler

namespace Rpcsx.AmdgpuTiler

open Data

inductive Shader where
  | linear | tiled1d | tiled2d
deriving DecidableEq

-- The shader that `detile` binds.
def detileShader : ArrayMode → Shader
  | .linearGeneral | .linearAligned => .linear
  | .tiled1dThin | .tiled1dThick => .tiled1d
  | _ => .tiled2d

-- The shader that `tile` binds: its pipeline for linear surfaces is made of the 2D shader.
def tileShader : ArrayMode → Shader
  | .linearGeneral | .linearAligned => .tiled2d
  | .tiled1dThin | .tiled1dThick => .tiled1d
  | _ => .tiled2d

structure Config where
  tiledAddress : Nat
  linearAddress : Nat
  dataWidth : Nat
  dataHeight : Nat
  linearDataWidth : Nat
  linearDataHeight : Nat
  tileMode : TileMode
  macroTileMode : MacroTileMode
  numFragments : Nat
  bitsPerElement : Nat
  tiledSurfaceSize : Nat
  linearSurfaceSize : Nat

-- The configuration of both passes. `stale` is what an uninitialised macro tile mode holds; the
-- addresses are those inside the two buffers.
def configOf (info : SurfaceInfo) (tileMode : TileMode) (stale : MacroTileMode)
    (sub : SubresourceInfo) (baseArray arrayCount : Nat) : Config where
  tiledAddress := sub.tiledOffset + baseArray * sub.tiledSize
  linearAddress := sub.linearOffset + baseArray * sub.linearSize
  dataWidth := sub.tiledWidth
  dataHeight := sub.tiledHeight
  linearDataWidth := sub.linearPitch
  linearDataHeight := sub.linearHeight
  tileMode := tileMode
  macroTileMode := info.macroTileMode.getD stale
  numFragments := info.numFragments
  bitsPerElement := info.bitsPerElement
  tiledSurfaceSize := if arrayCount > 1 then sub.tiledSize % 2 ^ 32 else 0
  linearSurfaceSize := if arrayCount > 1 then sub.linearSize % 2 ^ 32 else 0

def groupCountZ (sub : SubresourceInfo) (arrayCount : Nat) : Nat :=
  if arrayCount > 1 then arrayCount else sub.tiledDepth

-- The index of an element has 32 bits.
def computeLinearElementByteOffset (x y z fragmentIndex pitch slicePitchElems bitsPerElement
    numFragmentsPerPixel : Nat) : Nat :=
  let absoluteElementIndex := (z * slicePitchElems + y * pitch + x) % 2 ^ 32
  (absoluteElementIndex * bitsPerElement * numFragmentsPerPixel + bitsPerElement * fragmentIndex) / 8

def computeLinearOffset (bitsPerElement height pitch x y z : Nat) : Nat :=
  let bits := if bitsPerElement = 1 then bitsPerElement * 8 else bitsPerElement
  let paddedWidth := if bitsPerElement = 1 then max ((pitch + 7) / 8) 1 else pitch
  paddedWidth * height * bits * z + bits * paddedWidth * y + bits * x

def tiledBitOffset (shader : Shader) (config : Config) (x y z : Nat) : Nat :=
  match shader with
  | .linear =>
      computeLinearOffset config.bitsPerElement config.dataHeight config.dataWidth x y z
  | .tiled1d =>
      getTiledBitOffset1D config.tileMode x y z config.dataWidth config.dataHeight
        config.bitsPerElement
  | .tiled2d =>
      getTiledBitOffset2D config.tileMode config.macroTileMode config.dataWidth config.dataHeight 0
        config.numFragments config.bitsPerElement x y z 0

-- `main` of the shaders up to the copy: the tiled and the linear address of an element. Of two
-- bytes only the one at the even address copies, for both.
def invocation (shader : Shader) (config : Config) (x y z : Nat) : Option (Nat × Nat) :=
  let slices := config.tiledSurfaceSize ≠ 0
  let tiledSliceOffset := if slices then z * config.tiledSurfaceSize % 2 ^ 32 else 0
  let linearSliceOffset := if slices then z * config.linearSurfaceSize % 2 ^ 32 else 0
  let z := if slices then 0 else z
  let tiledByteOffset := tiledBitOffset shader config x y z / 8 + tiledSliceOffset
  let linearByteOffset :=
    computeLinearElementByteOffset x y z 0 config.linearDataWidth
      (config.linearDataWidth * config.linearDataHeight) config.bitsPerElement
      (1 <<< config.numFragments) + linearSliceOffset
  let bpp := (config.bitsPerElement + 7) / 8
  if bpp = 1 ∧ linearByteOffset &&& 1 ≠ 0 then none
  else some (config.tiledAddress + tiledByteOffset, config.linearAddress + linearByteOffset)

def copyBytes (bitsPerElement : Nat) : Nat :=
  match (bitsPerElement + 7) / 8 with
  | 1 | 2 => 2
  | 4 => 4
  | 8 => 8
  | 16 => 16
  | 32 => 32
  | _ => 0

-- The positions of a dispatch and the copies it makes.
def positions (width height groups : Nat) : List (Nat × Nat × Nat) :=
  (List.range width).product ((List.range height).product (List.range groups))

def copies (shader : Shader) (config : Config) (sub : SubresourceInfo) (arrayCount : Nat) :
    List (Nat × Nat) :=
  (positions sub.linearWidth sub.linearHeight (groupCountZ sub arrayCount)).filterMap
    fun p => invocation shader config p.1 p.2.1 p.2.2

-- A surface without multisampling, with elements of 8 to 128 bits, that has a layout.
structure Texture where
  tileMode : TileMode
  type : TextureType
  dfmt : DataFormat
  width : Nat
  height : Nat
  depth : Nat
  pitch : Nat
  baseArrayLayer : Nat
  arrayCount : Nat
  baseMipLevel : Nat
  mipCount : Nat
  pow2pad : Bool
  info : SurfaceInfo
  accepted : computeSurfaceInfo tileMode type dfmt width height depth pitch baseArrayLayer arrayCount
    baseMipLevel mipCount pow2pad = some info
  width_le_pitch : width ≤ pitch
  not_multisampled : type ≠ .msaa2D ∧ type ≠ .msaaArray2D
  not_rotated : tileMode.microTileMode ≠ .rotated
  element_size : info.bitsPerElement ∈ [8, 16, 32, 64, 128]

namespace Texture

variable (t : Texture)

def config (stale : MacroTileMode) (sub : SubresourceInfo) (baseArray arrayCount : Nat) : Config :=
  configOf t.info t.tileMode stale sub baseArray arrayCount

def tileCopies (stale : MacroTileMode) (sub : SubresourceInfo) (baseArray arrayCount : Nat) :
    List (Nat × Nat) :=
  copies (tileShader t.tileMode.arrayMode) (t.config stale sub baseArray arrayCount) sub arrayCount

def detileCopies (stale : MacroTileMode) (sub : SubresourceInfo) (baseArray arrayCount : Nat) :
    List (Nat × Nat) :=
  copies (detileShader t.tileMode.arrayMode) (t.config stale sub baseArray arrayCount) sub arrayCount

-- The copies of a pass, in the order the device makes them.
def tile {Byte : Type} (order : List (Nat × Nat)) (linear tiled : Nat → Byte) : Nat → Byte :=
  copyAll (copyBytes t.info.bitsPerElement) linear order tiled

def detile {Byte : Type} (order : List (Nat × Nat)) (tiled linear : Nat → Byte) : Nat → Byte :=
  copyAll (copyBytes t.info.bitsPerElement) tiled (order.map Prod.swap) linear

def linearAddress (sub : SubresourceInfo) (slice x y z : Nat) : Nat :=
  sub.linearOffset + slice * sub.linearSize +
    ((z * sub.linearHeight + y) * sub.linearPitch + x) * (t.info.bitsPerElement / 8)

-- The copies stay in the two ranges of the level.
def InRange (sub : SubresourceInfo) (copies : List (Nat × Nat)) : Prop :=
  ∀ c ∈ copies,
    (sub.tiledOffset ≤ c.1 ∧ c.1 + copyBytes t.info.bitsPerElement ≤
      sub.tiledOffset + t.info.arrayLayerCount * sub.tiledSize) ∧
    (sub.linearOffset ≤ c.2 ∧ c.2 + copyBytes t.info.bitsPerElement ≤
      sub.linearOffset + t.info.arrayLayerCount * sub.linearSize)

-- Detiling what was tiled restores every byte of every element, in whatever order the two passes
-- make their copies.
def Restores (stale : MacroTileMode) (sub : SubresourceInfo) (baseArray arrayCount : Nat) : Prop :=
  ∀ tileOrder detileOrder : List (Nat × Nat),
    tileOrder.Perm (t.tileCopies stale sub baseArray arrayCount) →
    detileOrder.Perm (t.detileCopies stale sub baseArray arrayCount) →
    ∀ linear tiled back : Nat → UInt8,
      ∀ slice < arrayCount, ∀ x < sub.linearWidth, ∀ y < sub.linearHeight, ∀ z < sub.linearDepth,
        ∀ byte < t.info.bitsPerElement / 8,
          t.detile detileOrder (t.tile tileOrder linear tiled) back
              (t.linearAddress sub (baseArray + slice) x y z + byte) =
            linear (t.linearAddress sub (baseArray + slice) x y z + byte)

-- Tiling a level of some slices is undone by detiling it.
def RoundTrips (stale : MacroTileMode) (sub : SubresourceInfo) (baseArray arrayCount : Nat) : Prop :=
  t.InRange sub (t.tileCopies stale sub baseArray arrayCount) ∧
    t.InRange sub (t.detileCopies stale sub baseArray arrayCount) ∧
    t.Restores stale sub baseArray arrayCount

end Texture

end Rpcsx.AmdgpuTiler
