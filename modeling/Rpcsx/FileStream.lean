import Rpcsx.Data.Bytes

namespace Rpcsx

open Rpcsx.Data Rpcsx.Data.Bytes

-- `fs::container_stream` over a vector of bytes.
structure FileStream where
  obj : List Byte
  pos : Nat

namespace FileStream

-- `obj.resize(length)`.
def resize (obj : List Byte) (length : Nat) : List Byte :=
  obj.take length ++ List.replicate (length - obj.length) 0

def ofBytes (obj : List Byte) : FileStream := ⟨obj, 0⟩

def size (s : FileStream) : Nat := s.obj.length

def seek (s : FileStream) (offset : Nat) : FileStream := { s with pos := offset }

def seekCur (s : FileStream) (offset : Nat) : FileStream := { s with pos := s.pos + offset }

def trunc (s : FileStream) (length : Nat) : FileStream := { s with obj := resize s.obj length }

def read (s : FileStream) (count : Nat) : List Byte × FileStream :=
  let data := slice s.obj s.pos count
  (data, { s with pos := s.pos + data.length })

def write (s : FileStream) (data : List Byte) : FileStream :=
  let obj := if s.size < s.pos then resize s.obj s.pos else s.obj
  ⟨obj.take s.pos ++ data ++ obj.drop (s.pos + data.length), s.pos + data.length⟩

def strictReadCheck (s : FileStream) (offset count typeSize : Nat) : Bool :=
  ¬((if s.size ≤ offset then 0 else s.size - offset) / typeSize < count)

-- `read` of a fixed number of bytes: none when they are not all there.
def readPod (s : FileStream) (count : Nat) : Option (List Byte × FileStream) :=
  let (data, s) := s.read count
  if data.length = count then some (data, s) else none

-- `read` of a vector or string with a given number of elements.
def readVector (s : FileStream) (count typeSize : Nat) : Option (List Byte × FileStream) :=
  if 0x100000 / typeSize ≤ count ∧ ¬s.strictReadCheck s.pos count typeSize then none
  else s.readPod (typeSize * count)

theorem readPod_eq (s : FileStream) (count : Nat) :
    s.readPod count = if s.pos + count ≤ s.size ∨ count = 0 then
      some (slice s.obj s.pos count, { s with pos := s.pos + count }) else none := by
  unfold readPod read size
  simp only [length_slice]
  by_cases h : s.pos + count ≤ s.obj.length ∨ count = 0
  · have hmin : min count (s.obj.length - s.pos) = count := by omega
    simp [h, hmin]
  · have hmin : min count (s.obj.length - s.pos) ≠ count := by omega
    simp [h, hmin]

-- The early check of a large read only refuses what the read itself would refuse.
theorem readVector_eq (s : FileStream) (count : Nat) {typeSize : Nat} (ht : 0 < typeSize) :
    s.readVector count typeSize = s.readPod (typeSize * count) := by
  unfold readVector strictReadCheck
  by_cases h : (if s.size ≤ s.pos then 0 else s.size - s.pos) / typeSize < count
  · have hpos : 0 < count := Nat.zero_lt_of_lt h
    have hz : typeSize * count ≠ 0 := (Nat.mul_pos ht hpos).ne'
    have hgt : ¬(s.pos + typeSize * count ≤ s.size ∨ typeSize * count = 0) := by
      have hmul := (Nat.div_lt_iff_lt_mul ht).mp h
      rw [Nat.mul_comm] at hmul
      split at hmul <;> omega
    rw [readPod_eq, if_neg hgt, ite_self]
  · simp [h]

end FileStream

end Rpcsx
