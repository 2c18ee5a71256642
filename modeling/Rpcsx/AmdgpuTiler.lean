import Mathlib

namespace Rpcsx.AmdgpuTiler

def kMicroTileWidth : Nat := 8

def kMicroTileHeight : Nat := 8

def kDramRowSize : Nat := 0x400

def kPipeInterleaveBytes : Nat := 256

inductive DataFormat where
  | invalid | f8 | f16 | f8_8 | f32 | f16_16 | f10_11_11 | f11_11_10 | f10_10_10_2 | f2_10_10_10
  | f8_8_8_8 | f32_32 | f16_16_16_16 | f32_32_32 | f32_32_32_32 | f5_6_5 | f1_5_5_5 | f5_5_5_1
  | f4_4_4_4 | f8_24 | f24_8 | fX24_8_32 | gbGr | bgRg | f5_9_9_9 | bc1 | bc2 | bc3 | bc4 | bc5
  | bc6 | bc7 | fmask8S2F1 | fmask8S4F1 | fmask8S8F1 | fmask8S2F2 | fmask8S4F2 | fmask8S4F4
  | fmask16S16F1 | fmask16S8F2 | fmask32S16F2 | fmask32S8F4 | fmask32S8F8 | fmask64S16F4
  | fmask64S16F8 | f4_4 | f6_5_5 | f1 | f1Reversed
deriving DecidableEq

def getTexelsPerElement : DataFormat → Nat
  | .bc1 | .bc2 | .bc3 | .bc4 | .bc5 | .bc6 | .bc7 => 16
  | .f1 | .f1Reversed => 8
  | .gbGr | .bgRg => 2
  | _ => 1

def getBitsPerElement : DataFormat → Nat
  | .invalid => 0
  | .f1 | .f1Reversed => 1
  | .bc1 | .bc4 => 4
  | .f8 | .bc2 | .bc3 | .bc5 | .bc6 | .bc7 | .fmask8S2F1 | .fmask8S4F1 | .fmask8S8F1 | .fmask8S2F2
  | .fmask8S4F2 | .fmask8S4F4 | .f4_4 => 8
  | .f16 | .f8_8 | .f5_6_5 | .f1_5_5_5 | .f5_5_5_1 | .f4_4_4_4 | .gbGr | .bgRg | .fmask16S16F1
  | .fmask16S8F2 | .f6_5_5 => 16
  | .f32 | .f16_16 | .f10_11_11 | .f11_11_10 | .f10_10_10_2 | .f2_10_10_10 | .f8_8_8_8 | .f8_24
  | .f24_8 | .f5_9_9_9 | .fmask32S16F2 | .fmask32S8F4 | .fmask32S8F8 => 32
  | .f32_32 | .f16_16_16_16 | .fX24_8_32 | .fmask64S16F4 | .fmask64S16F8 => 64
  | .f32_32_32 => 96
  | .f32_32_32_32 => 128

inductive TextureType where
  | dim1D | dim2D | dim3D | cube | array1D | array2D | msaa2D | msaaArray2D
deriving DecidableEq

inductive ArrayMode where
  | linearGeneral | linearAligned | tiled1dThin | tiled1dThick | tiled2dThin | tiledThinPrt
  | tiled2dThinPrt | tiled2dThick | tiled2dXThick | tiledThickPrt | tiled2dThickPrt
  | tiled3dThinPrt | tiled3dThin | tiled3dThick | tiled3dXThick | tiled3dThickPrt
deriving DecidableEq

def getMicroTileThickness : ArrayMode → Nat
  | .tiled1dThick | .tiled2dThick | .tiled3dThick | .tiledThickPrt | .tiled2dThickPrt
  | .tiled3dThickPrt => 4
  | .tiled2dXThick | .tiled3dXThick => 8
  | _ => 1

-- `other` stands for the values of the field without a name.
inductive MicroTileMode where
  | display | thin | depth | rotated | thick | other
deriving DecidableEq

inductive PipeConfig where
  | p8_32x32_8x16 | p8_32x32_16x16 | p16 | other
deriving DecidableEq

structure TileMode where
  arrayMode : ArrayMode
  pipeConfig : PipeConfig
  tileSplit : Nat
  microTileMode : MicroTileMode
  sampleSplit : Nat
deriving DecidableEq

-- `std::bit_ceil`.
def bitCeil (n : Nat) : Nat := 2 ^ Nat.clog 2 n

def bit (v k : Nat) : Nat := (v >>> k) &&& 1

-- The bits of an element index, from bit 0 on.
def place (bits : List Nat) : Nat :=
  (bits.zipIdx.map fun b => b.1 <<< b.2).foldl (· ||| ·) 0

-- The bits of the z coordinate above the thin order, by the array mode.
def thinDepthBits (z : Nat) : ArrayMode → List Nat
  | .tiled2dXThick | .tiled3dXThick => [bit z 0, bit z 1, bit z 2]
  | .tiled1dThick | .tiled2dThick | .tiled3dThick | .tiledThickPrt | .tiled2dThickPrt
  | .tiled3dThickPrt => [bit z 0, bit z 1]
  | _ => []

-- The order of a thick micro tile, for the element sizes that have one.
def thickBits (x y z bitsPerElement : Nat) : Option (List Nat) :=
  if bitsPerElement = 8 ∨ bitsPerElement = 16 then
    some [bit x 0, bit y 0, bit x 1, bit y 1, bit z 0, bit z 1, bit x 2, bit y 2]
  else if bitsPerElement = 32 then
    some [bit x 0, bit y 0, bit x 1, bit z 0, bit y 1, bit z 1, bit x 2, bit y 2]
  else if bitsPerElement = 64 ∨ bitsPerElement = 128 then
    some [bit x 0, bit y 0, bit z 0, bit x 1, bit y 1, bit z 1, bit x 2, bit y 2]
  else none

def displayBits (x y bitsPerElement : Nat) : Option (List Nat) :=
  if bitsPerElement = 8 then some [bit x 0, bit x 1, bit x 2, bit y 1, bit y 0, bit y 2]
  else if bitsPerElement = 16 then some [bit x 0, bit x 1, bit x 2, bit y 0, bit y 1, bit y 2]
  else if bitsPerElement = 32 then some [bit x 0, bit x 1, bit y 0, bit x 2, bit y 1, bit y 2]
  else if bitsPerElement = 64 then some [bit x 0, bit y 0, bit x 1, bit x 2, bit y 1, bit y 2]
  else none

def thinBits (x y : Nat) : List Nat := [bit x 0, bit y 0, bit x 1, bit y 1, bit x 2, bit y 2]

-- `getElementIndex` of tiler.hpp. Nothing is returned where it aborts.
def getElementIndex (x y z bitsPerElement : Nat) (microTileMode : MicroTileMode)
    (arrayMode : ArrayMode) : Option Nat :=
  match microTileMode with
  | .display => (displayBits x y bitsPerElement).map place
  | .thin | .depth => some (place (thinBits x y ++ thinDepthBits z arrayMode))
  | .thick =>
      match getMicroTileThickness arrayMode with
      | 8 => (thickBits x y z bitsPerElement).map fun bits => place (bits ++ [bit z 2])
      | 4 => (thickBits x y z bitsPerElement).map place
      | _ => none
  | .rotated | .other => some 0

-- `getElementIndex` of tiler.glsl: without an order the bits stay zero.
def shaderElementIndex (x y z bitsPerElement : Nat) (microTileMode : MicroTileMode)
    (arrayMode : ArrayMode) : Nat :=
  match microTileMode with
  | .display => place ((displayBits x y bitsPerElement).getD [])
  | .thin | .depth => place (thinBits x y ++ thinDepthBits z arrayMode)
  | .thick =>
      match getMicroTileThickness arrayMode with
      | 8 => place ((thickBits x y z bitsPerElement).getD (List.replicate 8 0) ++ [bit z 2])
      | 4 => place ((thickBits x y z bitsPerElement).getD [])
      | _ => 0
  | .rotated | .other => 0

end Rpcsx.AmdgpuTiler
