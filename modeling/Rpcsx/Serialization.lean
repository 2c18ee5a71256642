import Mathlib

namespace Rpcsx.Serialization

abbrev Byte := BitVec 8

-- A value as the program sees it: the bytes of a scalar, or the parts of a container or a tuple
-- in the order in which they are iterated.
inductive Val where
  | scalar (bytes : List Byte)
  | items (parts : List Val)

namespace Val

def bytes : Val → List Byte
  | .scalar bytes => bytes
  | .items _ => []

def parts : Val → List Val
  | .scalar _ => []
  | .items parts => parts

end Val

-- A hash table decides for itself where it puts an element that no other keeps out.
structure HashTable where
  conflict : Val → Val → Bool
  insert : List Val → Val → List Val
  insert_perm : ∀ parts v, (∀ w ∈ parts, conflict w v = false) → (insert parts v).Perm (parts ++ [v])

-- list and deque, (multi)set and (multi)map, and their unordered forms.
inductive Kind where
  | sequence
  | sorted (lt : Val → Val → Bool) (unique : Bool)
  | hashed (table : HashTable)

-- obj.insert(obj.end(), value)
def Kind.insert : Kind → List Val → Val → List Val
  | .sequence, parts, v => parts ++ [v]
  | .sorted lt unique, parts, v =>
      if unique && parts.any fun w => !lt w v && !lt v w then parts
      else parts.takeWhile (!lt v ·) ++ v :: parts.dropWhile (!lt v ·)
  | .hashed table, parts, v => table.insert parts v

mutual

inductive Ty where
  | scalar (size : Nat)
  | vector (elem : Ty)
  | container (kind : Kind) (elem : Ty)
  | tuple (elems : Tys)

inductive Tys where
  | nil
  | cons (first : Ty) (rest : Tys)

end

-- Bitcopy: the size of a type that is copied bit by bit.
def Ty.bitcopy : Ty → Option Nat
  | .scalar size => some size
  | _ => none

structure Serial where
  data : List Byte := []
  pos : Nat := 0

abbrev Access := StateT Serial Option

-- raw_serialize while writing.
def rawWrite (bytes : List Byte) : Access Unit := fun s =>
  if bytes = [] then some ((), s)
  else if s.pos + bytes.length ≤ 2 ^ 64 then
    if s.pos ≤ s.data.length then
      if s.pos ≠ s.data.length then
        some ((), ⟨s.data.take s.pos ++ bytes ++ s.data.drop s.pos,
          (s.pos + bytes.length) % 2 ^ 64⟩)
      else some ((), ⟨s.data ++ bytes, (s.pos + bytes.length) % 2 ^ 64⟩)
    else none
  else none

-- raw_serialize while reading, where there is no file to load from.
def rawRead (size : Nat) : Access (List Byte) := fun s =>
  if size = 0 then some ([], s)
  else if s.pos + size ≤ 2 ^ 64 then
    if s.data = [] ∨ s.pos + (size - 1) > s.data.length - 1 then none
    else some ((s.data.drop s.pos).take size, { s with pos := (s.pos + size) % 2 ^ 64 })
  else none

def vleByte (i : Nat) : Byte :=
  .ofNat 8 (i % 2 ^ 8 % 0x80 ||| if i / 2 ^ 7 ≠ 0 then 0x80 else 0)

def serializeVle (i : Nat) : Access Unit := do
  rawWrite [vleByte i]
  if i / 2 ^ 7 ≠ 0 then serializeVle (i / 2 ^ 7)
termination_by i
decreasing_by omega

def vleLoop : Nat → Nat → Nat → Access Nat
  | 0, _, _ => fun _ => none
  | fuel + 1, i, value => do
      let byte := ((← rawRead 1).headD 0).toNat
      let value := (value ||| (byte % 0x80) <<< i) % 2 ^ 64
      if byte &&& 0x80 ≠ 0 then vleLoop fuel (i + 7) value else pure value

-- Each turn takes a byte of the data.
def deserializeVle : Access Nat := fun s => vleLoop (s.data.length + 1) 0 0 s

mutual

-- serialize(T&) while writing.
def write : Ty → Val → Access Unit
  | .scalar _, v => rawWrite v.bytes
  | .vector elem, v => do
      serializeVle v.parts.length
      match elem.bitcopy with
      | some _ => rawWrite (v.parts.flatMap Val.bytes)
      | none => v.parts.forM (write elem)
  | .container _ (.tuple (.cons key (.cons mapped .nil))), v => do
      serializeVle v.parts.length
      v.parts.forM fun part => do
        write key (part.parts.getD 0 (.items []))
        write mapped (part.parts.getD 1 (.items []))
  | .container _ elem, v => do
      serializeVle v.parts.length
      v.parts.forM (write elem)
  | .tuple elems, v => writeTuple elems v.parts

def writeTuple : Tys → List Val → Access Unit
  | .nil, _ => pure ()
  | .cons first rest, parts => do
      write first (parts.headD (.items []))
      writeTuple rest parts.tail

end

def chunks (size : Nat) : Nat → List Byte → List Val
  | 0, _ => []
  | count + 1, bytes => .scalar (bytes.take size) :: chunks size count (bytes.drop size)

def readParts (elem : Access Val) : Nat → Access (List Val)
  | 0 => pure []
  | count + 1 => do
      let v ← elem
      let rest ← readParts elem count
      pure (v :: rest)

def insertParts (kind : Kind) (elem : Access Val) : Nat → List Val → Access (List Val)
  | 0, parts => pure parts
  | count + 1, parts => do
      let v ← elem
      insertParts kind elem count (kind.insert parts v)

mutual

-- serialize(T&) while reading, or operator T().
def read (pop : Bool) : Ty → Access Val
  | .scalar size => do
      let bytes ← rawRead size
      pure (.scalar bytes)
  | .vector elem => do
      let count ← deserializeVle
      match elem.bitcopy with
      | some size =>
          let bytes ← rawRead (size * count % 2 ^ 64)
          pure (.items (chunks size count bytes))
      | none =>
          let parts ← readParts (read false elem) count
          pure (.items parts)
  | .container kind elem => do
      let count ← deserializeVle
      let parts ← insertParts kind (read true elem) count []
      pure (.items parts)
  | .tuple elems => do
      let parts ← readTuple pop elems
      pure (.items parts)

def readTuple (pop : Bool) : Tys → Access (List Val)
  | .nil => pure []
  | .cons first rest => do
      let v ← read pop first
      let parts ← readTuple pop rest
      pure (v :: parts)

end

def Serial.setReadingState (s : Serial) : Serial := { s with pos := 0 }

-- The same values of containers in which the order of iteration is not part of the value.
def Kind.SameParts (same : Val → Val → Prop) : Kind → List Val → List Val → Prop
  | .hashed _, parts, parts' => ∃ between, List.Forall₂ same parts between ∧ between.Perm parts'
  | _, parts, parts' => List.Forall₂ same parts parts'

mutual

def Same : Ty → Val → Val → Prop
  | .scalar _, .scalar bytes, .scalar bytes' => bytes = bytes'
  | .vector elem, .items parts, .items parts' => List.Forall₂ (Same elem) parts parts'
  | .container kind elem, .items parts, .items parts' => kind.SameParts (Same elem) parts parts'
  | .tuple elems, .items parts, .items parts' => SameAll elems parts parts'
  | _, _, _ => False

def SameAll : Tys → List Val → List Val → Prop
  | .nil, [], [] => True
  | .cons first rest, v :: parts, v' :: parts' => Same first v v' ∧ SameAll rest parts parts'
  | _, _, _ => False

end

-- What holds of the elements of a container in the order of iteration.
def Kind.Holds : Kind → List Val → Prop
  | .sequence, _ => True
  | .sorted lt unique, parts =>
      parts.Pairwise fun v w => lt w v = false ∧ (unique = true → lt v w = true)
  | .hashed table, parts => parts.Pairwise fun v w => table.conflict v w = false

mutual

def HasType : Ty → Val → Prop
  | .scalar size, .scalar bytes => bytes.length = size
  | .vector elem, .items parts => parts.length < 2 ^ 64 ∧ ∀ v ∈ parts, HasType elem v
  | .container kind elem, .items parts =>
      parts.length < 2 ^ 64 ∧ (∀ v ∈ parts, HasType elem v) ∧ kind.Holds parts
  | .tuple elems, .items parts => HasTypes elems parts
  | _, _ => False

def HasTypes : Tys → List Val → Prop
  | .nil, [] => True
  | .cons first rest, v :: parts => HasType first v ∧ HasTypes rest parts
  | _, _ => False

end

-- An order or a hash of elements is one of values.
def Kind.Respects (same : Val → Val → Prop) : Kind → Prop
  | .sequence => True
  | .sorted lt _ => ∀ v v' w w', same v v' → same w w' → lt v w = lt v' w'
  | .hashed table =>
      ∀ v v' w w', same v v' → same w w' → table.conflict v w = table.conflict v' w'

mutual

def Lawful : Ty → Prop
  | .scalar _ => True
  | .vector elem => Lawful elem
  | .container kind elem => Lawful elem ∧ kind.Respects (Same elem)
  | .tuple elems => AllLawful elems

def AllLawful : Tys → Prop
  | .nil => True
  | .cons first rest => Lawful first ∧ AllLawful rest

end

end Rpcsx.Serialization
