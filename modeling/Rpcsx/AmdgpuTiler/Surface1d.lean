import Mathlib.Data.Nat.GCD.Basic
import Rpcsx.AmdgpuTiler.MacroTile
import Rpcsx.Data.Alignment

namespace Rpcsx.AmdgpuTiler

open Data.Alignment

-- The sizes of a texture descriptor have at most 14 bits, so that the words of the sources hold
-- every size, offset and number of bits below.
structure SubresourceInfo where
  tiledWidth : Nat
  tiledHeight : Nat
  tiledDepth : Nat
  tiledOffset : Nat
  tiledSize : Nat
  linearPitch : Nat
  linearWidth : Nat
  linearHeight : Nat
  linearDepth : Nat
  linearOffset : Nat
  linearSize : Nat
deriving DecidableEq

-- The macro tile mode stays uninitialised for surfaces without macro tiles.
structure SurfaceInfo where
  width : Nat
  height : Nat
  depth : Nat
  pitch : Nat
  macroTileMode : Option MacroTileMode
  arrayLayerCount : Nat
  numFragments : Nat
  bitsPerElement : Nat
  totalTiledSize : Nat
  totalLinearSize : Nat
  subresources : List SubresourceInfo
deriving DecidableEq

-- The bits of an element of a surface. A block compressed element holds a block; nothing is
-- returned where the code aborts.
def surfaceBits (dfmt : DataFormat) : Option Nat :=
  if getTexelsPerElement dfmt > 1 then
    match getBitsPerElement dfmt with
    | 1 => some (1 * 8)
    | 4 => some (4 * 16)
    | 8 => some (8 * 16)
    | _ => none
  else some (getBitsPerElement dfmt)

-- A width or a pitch of texels, and a height, in elements.
def elementsWide (dfmt : DataFormat) (texels : Nat) : Nat :=
  if getTexelsPerElement dfmt > 1 then
    match getBitsPerElement dfmt with
    | 1 => max ((texels + 7) / 8) 1
    | 4 | 8 => max ((texels + 3) / 4) 1
    | _ => texels
  else texels

def elementsHigh (dfmt : DataFormat) (texels : Nat) : Nat :=
  if getTexelsPerElement dfmt > 1 then
    match getBitsPerElement dfmt with
    | 4 | 8 => max ((texels + 3) / 4) 1
    | _ => texels
  else texels

def padPow2 (pow2pad : Bool) (n : Nat) : Nat := if pow2pad then bitCeil n else n

def levelWidth (dfmt : DataFormat) (pow2pad : Bool) (texels mipLevel : Nat) : Nat :=
  padPow2 pow2pad (elementsWide dfmt (max (texels >>> mipLevel) 1))

def levelHeight (dfmt : DataFormat) (pow2pad : Bool) (texels mipLevel : Nat) : Nat :=
  padPow2 pow2pad (elementsHigh dfmt (max (texels >>> mipLevel) 1))

def levelDepth (type : TextureType) (pow2pad : Bool) (depth mipLevel : Nat) : Nat :=
  padPow2 pow2pad (max ((if type = .dim3D then depth else 1) >>> mipLevel) 1)

def arraySlices (type : TextureType) (pow2pad : Bool) (depth : Nat) : Nat :=
  padPow2 pow2pad (if type = .cube then depth * 6 else if type = .dim3D then 1 else depth)

def logicalSliceSizeBytes (pitch height bitsPerElement fragments : Nat) : Nat :=
  (pitch * height * bitsPerElement * fragments + 7) / 8

-- The pitch grows by a micro tile until a slice of tiles fills the pipe interleave.
def widenPitch (height bitsPerElement fragments thickness : Nat) : Nat → Nat → Nat
  | 0, pitch => pitch
  | rounds + 1, pitch =>
      if logicalSliceSizeBytes pitch height bitsPerElement fragments * thickness %
          kPipeInterleaveBytes ≠ 0 then
        widenPitch height bitsPerElement fragments thickness rounds (pitch + kMicroTileWidth)
      else pitch

-- Every 32 rounds add a multiple of the interleave, see `widenPitch_eq`.
def tempPitch (pitch height bitsPerElement fragments thickness : Nat) : Nat :=
  widenPitch height bitsPerElement fragments thickness 32 pitch

def getNumFragments (type : TextureType) (baseArrayLayer arrayCount : Nat) : Nat :=
  if type = .msaa2D ∨ type = .msaaArray2D then baseArrayLayer + arrayCount - 1 else 0

-- One round of the loop of `computeTexture1dInfo` over the levels.
def computeLevel1d (arrayMode : ArrayMode) (type : TextureType) (dfmt : DataFormat)
    (width height depth pitch numFragments bitsPerElement : Nat) (pow2pad : Bool)
    (mipLevel surfaceOffset linearOffset : Nat) : SubresourceInfo :=
  let thickness := getMicroTileThickness arrayMode
  let linearWidth := levelWidth dfmt pow2pad width mipLevel
  let linearHeight := levelHeight dfmt pow2pad height mipLevel
  let linearPitch :=
    if mipLevel > 0 ∧ pitch > 0 then linearWidth else levelWidth dfmt pow2pad pitch mipLevel
  let paddedPitch := ceilTo kMicroTileWidth linearPitch
  let paddedHeight := ceilTo kMicroTileHeight linearHeight
  let depth := levelDepth type pow2pad depth mipLevel
  let padded := type ≠ .cube ∨ mipLevel > 0 ∧ depth > 1
  let linearDepth := if padded ∧ type = .cube then bitCeil depth else depth
  let paddedDepth := if padded then ceilTo thickness linearDepth else linearDepth
  let fragments := 2 ^ numFragments
  let pitchInTiles := tempPitch paddedPitch paddedHeight bitsPerElement fragments thickness
  { tiledWidth := linearPitch
    tiledHeight := linearHeight
    tiledDepth := linearDepth
    tiledOffset := surfaceOffset
    tiledSize :=
      logicalSliceSizeBytes pitchInTiles paddedHeight bitsPerElement fragments * paddedDepth
    linearPitch := linearPitch
    linearWidth := linearWidth
    linearHeight := linearHeight
    linearDepth := linearDepth
    linearOffset := linearOffset
    linearSize :=
      linearDepth * logicalSliceSizeBytes linearPitch linearHeight bitsPerElement fragments }

structure LevelWalk where
  surfaceOffset : Nat
  linearOffset : Nat
  levels : List SubresourceInfo

-- The loop over the levels, `level` makes one from its index and offsets.
def walkLevels (arraySliceCount count : Nat) (level : Nat → Nat → Nat → SubresourceInfo) : LevelWalk :=
  (List.range count).foldl
    (fun walk mipLevel =>
      let sub := level mipLevel walk.surfaceOffset walk.linearOffset
      { surfaceOffset := walk.surfaceOffset + arraySliceCount * sub.tiledSize
        linearOffset := walk.linearOffset + arraySliceCount * sub.linearSize
        levels := walk.levels ++ [sub] })
    { surfaceOffset := 0, linearOffset := 0, levels := [] }

def computeTexture1dInfo (arrayMode : ArrayMode) (type : TextureType) (dfmt : DataFormat)
    (width height depth pitch baseArrayLayer arrayCount baseMipLevel mipCount : Nat)
    (pow2pad : Bool) : Option SurfaceInfo := do
  let bitsPerElement ← surfaceBits dfmt
  let numFragments := getNumFragments type baseArrayLayer arrayCount
  let arraySliceCount := arraySlices type pow2pad depth
  let walk := walkLevels arraySliceCount (baseMipLevel + mipCount)
    (computeLevel1d arrayMode type dfmt width height depth pitch numFragments bitsPerElement pow2pad)
  return {
    width := width
    height := height
    depth := if type = .dim3D then depth else 1
    pitch := pitch
    macroTileMode := none
    arrayLayerCount := arraySliceCount
    numFragments := numFragments
    bitsPerElement := bitsPerElement
    totalTiledSize := walk.surfaceOffset
    totalLinearSize := walk.linearOffset
    subresources := walk.levels }

end Rpcsx.AmdgpuTiler

namespace Rpcsx.AmdgpuTiler

open Data.Alignment

-- `tileThickness`, in the code of the offset inside a level.
def tileThickness (arrayMode : ArrayMode) : Nat := if arrayMode = .tiled1dThick then 4 else 1

def tileBytes (arrayMode : ArrayMode) (bitsPerElement : Nat) : Nat :=
  (kMicroTileWidth * kMicroTileHeight * tileThickness arrayMode * bitsPerElement + 7) / 8

-- A product of 32 bits.
def tilesPerSlice (paddedWidth paddedHeight : Nat) : Nat :=
  max (paddedWidth / kMicroTileWidth * (paddedHeight / kMicroTileHeight) % 2 ^ 32) 1

def tileOffset (arrayMode : ArrayMode) (x y paddedWidth bitsPerElement : Nat) : Nat :=
  (y / kMicroTileHeight * (paddedWidth / kMicroTileWidth) + x / kMicroTileWidth) *
    tileBytes arrayMode bitsPerElement

-- The size of level `mipLevel`, as one round of the loop of `getTiledOffset1D` computes it.
def levelSizeBytes (texType : TextureType) (isPow2Padded : Bool) (dfmt : DataFormat)
    (arrayMode : ArrayMode) (numFragments width height depth pitch bitsPerElement mipLevel : Nat) :
    Nat :=
  let thickness := getMicroTileThickness arrayMode
  let texels := if mipLevel > 0 then pitch else width
  let elemWidth := ceilTo kMicroTileWidth (levelWidth dfmt isPow2Padded texels mipLevel)
  let elemHeight := ceilTo kMicroTileHeight (levelHeight dfmt isPow2Padded height mipLevel)
  let elemDepth := ceilTo thickness (levelDepth texType isPow2Padded depth mipLevel)
  let fragments := 2 ^ numFragments
  let pitchInTiles := tempPitch elemWidth elemHeight bitsPerElement fragments thickness
  logicalSliceSizeBytes pitchInTiles elemHeight bitsPerElement fragments * elemDepth

structure Walk where
  finalSurfaceOffset : Nat
  finalSurfaceSize : Nat

-- Nothing is returned where the code aborts.
def getTiledOffset1D (texType : TextureType) (isPow2Padded : Bool) (dfmt : DataFormat)
    (tileMode : TileMode) (mipLevel arraySlice numFragments width height depth pitch x y z : Nat) :
    Option Nat := do
  let arrayMode := tileMode.arrayMode
  let bitsPerElement ← surfaceBits dfmt
  let arraySliceCount := arraySlices texType isPow2Padded depth
  let texels := if mipLevel ≠ 0 then pitch else width
  let paddedWidth := levelWidth dfmt isPow2Padded texels mipLevel
  let paddedHeight := levelHeight dfmt isPow2Padded height mipLevel
  let walk := (List.range (mipLevel + 1)).foldl
    (fun walk i =>
      { finalSurfaceOffset := walk.finalSurfaceOffset + arraySliceCount * walk.finalSurfaceSize
        finalSurfaceSize := levelSizeBytes texType isPow2Padded dfmt arrayMode numFragments width
          height depth pitch bitsPerElement i })
    ({ finalSurfaceOffset := 0, finalSurfaceSize := 0 } : Walk)
  let finalSurfaceOffset := walk.finalSurfaceOffset + walk.finalSurfaceSize * arraySlice
  let elementIndex ← getElementIndex x y z bitsPerElement tileMode.microTileMode arrayMode
  -- a product of 32 bits
  let sliceOffset := z / tileThickness arrayMode * tilesPerSlice paddedWidth paddedHeight *
    tileBytes arrayMode bitsPerElement % 2 ^ 32
  let elementOffset := elementIndex * bitsPerElement
  let finalOffset :=
    (sliceOffset + tileOffset arrayMode x y paddedWidth bitsPerElement) * 8 + elementOffset
  return finalOffset + finalSurfaceOffset * 8

-- Of the shader. Only the product with the number of tiles has 32 bits.
def getTiledBitOffset1D (tileMode : TileMode) (x y z dataWidth dataHeight bitsPerElement : Nat) :
    Nat :=
  let arrayMode := tileMode.arrayMode
  let elementIndex := shaderElementIndex x y z bitsPerElement tileMode.microTileMode arrayMode
  let sliceOffset := z / tileThickness arrayMode * tilesPerSlice dataWidth dataHeight % 2 ^ 32 *
    tileBytes arrayMode bitsPerElement
  let elementOffset := elementIndex * bitsPerElement
  (sliceOffset + tileOffset arrayMode x y dataWidth bitsPerElement) * 8 + elementOffset

end Rpcsx.AmdgpuTiler
