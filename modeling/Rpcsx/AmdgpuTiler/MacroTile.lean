import Rpcsx.AmdgpuTiler

namespace Rpcsx.AmdgpuTiler

structure MacroTileMode where
  raw : Nat
deriving DecidableEq

namespace MacroTileMode

def bankWidth (m : MacroTileMode) : Nat := (m.raw &&& 0x3) >>> 0

def bankHeight (m : MacroTileMode) : Nat := (m.raw &&& 0xc) >>> 2

def macroTileAspect (m : MacroTileMode) : Nat := (m.raw &&& 0x30) >>> 4

def numBanks (m : MacroTileMode) : Nat := (m.raw &&& 0xc0) >>> 6

end MacroTileMode

def getDefaultMacroTileModes : List MacroTileMode :=
  [⟨0x26e8⟩, ⟨0x26d4⟩, ⟨0x21d0⟩, ⟨0x21d0⟩, ⟨0x2080⟩, ⟨0x2040⟩, ⟨0x1000⟩, ⟨0x0000⟩,
    ⟨0x36ec⟩, ⟨0x26e8⟩, ⟨0x21d4⟩, ⟨0x20d0⟩, ⟨0x1080⟩, ⟨0x1040⟩, ⟨0x0000⟩, ⟨0x0000⟩]

def isPrt : ArrayMode → Bool
  | .tiledThinPrt | .tiled2dThinPrt | .tiledThickPrt | .tiled2dThickPrt | .tiled3dThinPrt
  | .tiled3dThickPrt => true
  | _ => false

-- `std::countr_zero` of 32 bits.
def countrZero (n : Nat) : Nat := ((List.range 32).find? fun i => n.testBit i).getD 32

-- The part of a micro tile that stays in one piece, before the limit of a row of memory.
def tileSplitBytes (tileMode : TileMode) (depthSplit tileBytes1x : Nat) : Nat :=
  min kDramRowSize
    (if tileMode.microTileMode = .depth then 64 <<< depthSplit
    else max 256 (tileBytes1x * 1 <<< tileMode.sampleSplit))

def computeMacroTileIndex (tileMode : TileMode) (bitsPerElement numFragmentsPerPixel : Nat) : Nat :=
  let tileThickness := getMicroTileThickness tileMode.arrayMode
  let tileBytes1x := bitsPerElement * kMicroTileWidth * kMicroTileHeight * tileThickness / 8
  let tileSplitC := tileSplitBytes tileMode tileMode.tileSplit tileBytes1x
  let tileBytes := min tileSplitC (numFragmentsPerPixel * tileBytes1x)
  let mtmIndex := countrZero (tileBytes / 64)
  if isPrt tileMode.arrayMode then mtmIndex + 8 else mtmIndex

-- The tiler of the CPU aborts for another configuration, the shader counts no pipe.
def getPipeCount : PipeConfig → Nat
  | .p8_32x32_8x16 | .p8_32x32_16x16 => 8
  | .p16 => 16
  | .other => 0

def pipeIndexBits (x y : Nat) : PipeConfig → List Nat
  | .p8_32x32_8x16 =>
      [(x >>> 4 ^^^ y >>> 3 ^^^ x >>> 5) &&& 1, (x >>> 3 ^^^ y >>> 4) &&& 1,
        (x >>> 5 ^^^ y >>> 5) &&& 1]
  | .p8_32x32_16x16 =>
      [(x >>> 3 ^^^ y >>> 3 ^^^ x >>> 4) &&& 1, (x >>> 4 ^^^ y >>> 4) &&& 1,
        (x >>> 5 ^^^ y >>> 5) &&& 1]
  | .p16 =>
      [(x >>> 3 ^^^ y >>> 3 ^^^ x >>> 4) &&& 1, (x >>> 4 ^^^ y >>> 4) &&& 1,
        (x >>> 5 ^^^ y >>> 5) &&& 1, (x >>> 6 ^^^ y >>> 5) &&& 1]
  | .other => []

def getPipeIndex (x y : Nat) (pipeConfig : PipeConfig) : Nat :=
  place (pipeIndexBits x y pipeConfig)

-- The banks, from the coordinates shifted to tiles of a bank.
def bankBits (xs ys numBanks : Nat) : List Nat :=
  match numBanks with
  | 2 => [(xs >>> 3 ^^^ ys >>> 3) &&& 1]
  | 4 => [(xs >>> 3 ^^^ ys >>> 4) &&& 1, (xs >>> 4 ^^^ ys >>> 3) &&& 1]
  | 8 => [(xs >>> 3 ^^^ ys >>> 5) &&& 1, (xs >>> 4 ^^^ ys >>> 4 ^^^ ys >>> 5) &&& 1,
      (xs >>> 5 ^^^ ys >>> 3) &&& 1]
  | 16 => [(xs >>> 3 ^^^ ys >>> 6) &&& 1, (xs >>> 4 ^^^ ys >>> 5 ^^^ ys >>> 6) &&& 1,
      (xs >>> 5 ^^^ ys >>> 4) &&& 1, (xs >>> 6 ^^^ ys >>> 3) &&& 1]
  | _ => []

def getBankIndex (x y bankWidth bankHeight numBanks numPipes : Nat) : Nat :=
  place (bankBits (x >>> countrZero (bankWidth * numPipes)) (y >>> countrZero bankHeight) numBanks)

def is2dTiled : ArrayMode → Bool
  | .tiled2dThin | .tiled2dThick | .tiled2dXThick => true
  | _ => false

def is3dTiled : ArrayMode → Bool
  | .tiled3dThin | .tiled3dThick | .tiled3dXThick => true
  | _ => false

def rotatesTileSplits : ArrayMode → Bool
  | .tiled2dThin | .tiled3dThin | .tiled2dThinPrt | .tiled3dThinPrt => true
  | _ => false

def macroTileWidth (tileMode : TileMode) (m : MacroTileMode) : Nat :=
  kMicroTileWidth * 1 <<< m.bankWidth * getPipeCount tileMode.pipeConfig * 1 <<< m.macroTileAspect

def macroTileHeight (m : MacroTileMode) : Nat :=
  kMicroTileHeight * 1 <<< m.bankHeight * 2 <<< m.numBanks / 1 <<< m.macroTileAspect

-- The coordinates that choose pipe and bank.
def xh (tileMode : TileMode) (m : MacroTileMode) (x : Nat) : Nat :=
  if tileMode.arrayMode = .tiledThinPrt ∨ tileMode.arrayMode = .tiledThickPrt then
    x % macroTileWidth tileMode m
  else x

def yh (tileMode : TileMode) (m : MacroTileMode) (y : Nat) : Nat :=
  if tileMode.arrayMode = .tiledThinPrt ∨ tileMode.arrayMode = .tiledThickPrt then
    y % macroTileHeight m
  else y

-- The rotation of the pipes from slice to slice.
def pipeRotation (numPipes slice tileThickness : Nat) : Nat :=
  max 1 (numPipes / 2 - 1) * (slice / tileThickness)

-- `pipe` and `bank` of `getTiledBitOffset2D`.
def pipe2d (tileMode : TileMode) (m : MacroTileMode) (slice x y : Nat) : Nat :=
  let numPipes := getPipeCount tileMode.pipeConfig
  let rotation := pipeRotation numPipes slice (getMicroTileThickness tileMode.arrayMode)
  let pipeSwizzle := (if is3dTiled tileMode.arrayMode then rotation else 0) &&& (numPipes - 1)
  getPipeIndex (xh tileMode m x) (yh tileMode m y) tileMode.pipeConfig ^^^ pipeSwizzle

def bank2d (tileMode : TileMode) (m : MacroTileMode) (slice tileSplitSlice x y : Nat) : Nat :=
  let numPipes := getPipeCount tileMode.pipeConfig
  let numBanks := 2 <<< m.numBanks
  let tileThickness := getMicroTileThickness tileMode.arrayMode
  let sliceRotation :=
    if is2dTiled tileMode.arrayMode then (numBanks / 2 - 1) * (slice / tileThickness)
    else if is3dTiled tileMode.arrayMode then pipeRotation numPipes slice tileThickness / numPipes
    else 0
  let tileSplitSliceRotation :=
    if rotatesTileSplits tileMode.arrayMode then (numBanks / 2 + 1) * tileSplitSlice else 0
  (getBankIndex (xh tileMode m x) (yh tileMode m y) (1 <<< m.bankWidth) (1 <<< m.bankHeight)
    numBanks numPipes ^^^ sliceRotation ^^^ tileSplitSliceRotation) &&& (numBanks - 1)

-- The end of `getTiledBitOffset2D`: pipe and bank are put between the bits of the offset.
def interleave (numPipes numBanks pipe bank totalBits : Nat) : Nat :=
  let pipeInterleaveBits := countrZero kPipeInterleaveBytes
  let pipeBits := countrZero numPipes
  let bankBits := countrZero numBanks
  let bitOffset := totalBits &&& 7
  let totalOffset := totalBits / 8
  let pipeInterleaveOffset := totalOffset &&& (1 <<< pipeInterleaveBits - 1)
  let offset := totalOffset >>> pipeInterleaveBits
  let finalByteOffset := pipeInterleaveOffset ||| pipe <<< pipeInterleaveBits |||
    bank <<< (pipeInterleaveBits + pipeBits) |||
    offset <<< (pipeInterleaveBits + pipeBits + bankBits)
  finalByteOffset <<< 3 ||| bitOffset

-- `getTiledBitOffset2D` of the shaders, for sizes of which no product reaches 32 bits.
def getTiledBitOffset2D (tileMode : TileMode) (m : MacroTileMode)
    (dataWidth dataHeight arraySlice numFragments bitsPerElement x y z fragmentIndex : Nat) : Nat :=
  let numFragmentsPerPixel := 1 <<< numFragments
  let tileThickness := getMicroTileThickness tileMode.arrayMode
  let bankWidth := 1 <<< m.bankWidth
  let bankHeight := 1 <<< m.bankHeight
  let numBanks := 2 <<< m.numBanks
  let numPipes := getPipeCount tileMode.pipeConfig
  let tileBytes1x := (tileThickness * bitsPerElement * kMicroTileWidth * kMicroTileHeight + 7) / 8
  let tileSplit := tileSplitBytes tileMode tileMode.tileSplit tileBytes1x
  let elementIndex :=
    shaderElementIndex x y z bitsPerElement tileMode.microTileMode tileMode.arrayMode
  let tileBytesAll := (kMicroTileWidth * kMicroTileHeight * tileThickness * bitsPerElement *
    numFragmentsPerPixel + 7) / 8
  let elementOffset :=
    if tileMode.microTileMode = .depth then
      elementIndex * bitsPerElement * numFragmentsPerPixel + fragmentIndex * bitsPerElement
    else fragmentIndex * (tileBytesAll / numFragmentsPerPixel) * 8 + elementIndex * bitsPerElement
  let split := tileBytesAll > tileSplit ∧ tileThickness = 1
  let slicesPerTile := if split then tileBytesAll / tileSplit else 1
  let tileSplitSlice := if split then elementOffset / (tileSplit * 8) else 0
  let elementOffset := if split then elementOffset % (tileSplit * 8) else elementOffset
  let tileBytes := if split then tileSplit else tileBytesAll
  let macroTileBytes := macroTileWidth tileMode m / kMicroTileWidth *
    (macroTileHeight m / kMicroTileHeight) * tileBytes / (numPipes * numBanks)
  let macroTilesPerRow := dataWidth / macroTileWidth tileMode m
  let macroTileIndex := y / macroTileHeight m * macroTilesPerRow + x / macroTileWidth tileMode m
  let sliceBytes := macroTilesPerRow * (dataHeight / macroTileHeight m) * macroTileBytes
  let sliceOffset := (tileSplitSlice + slicesPerTile * z / tileThickness) * sliceBytes
  let slice := if arraySlice ≠ 0 then arraySlice else z
  let tileRowIndex := y / kMicroTileHeight % bankHeight
  let tileColumnIndex := x / kMicroTileWidth / numPipes % bankWidth
  let tileOffset := (tileRowIndex * bankWidth + tileColumnIndex) * tileBytes
  interleave numPipes numBanks (pipe2d tileMode m slice x y)
    (bank2d tileMode m slice tileSplitSlice x y)
    ((sliceOffset + macroTileIndex * macroTileBytes + tileOffset) * 8 + elementOffset)

end Rpcsx.AmdgpuTiler
