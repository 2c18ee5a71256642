import Rpcsx.FileStream
import Rpcsx.Data.OrderedMap
import Mathlib.Data.List.Lex

namespace Rpcsx.Psf

open Rpcsx.Data Rpcsx.Data.Bytes

inductive Format where
  | array
  | string
  | integer
  deriving DecidableEq, Repr

namespace Format

def code : Format → Nat
  | array => 0x0004
  | string => 0x0204
  | integer => 0x0404

def ofCode (code : Nat) : Option Format :=
  if code = 0x0004 then some .array
  else if code = 0x0204 then some .string
  else if code = 0x0404 then some .integer
  else none

end Format

inductive Error where
  | ok
  | stream
  | notPsf
  | corrupt
  deriving DecidableEq, Repr

-- What does not return: a failed ensure() or narrow(), and an access outside a buffer.
inductive Fault where
  | ensure
  | narrow
  | outOfBounds
  deriving DecidableEq, Repr

-- `psf::entry`. The constructors of the class let no smaller `m_max_size` through.
inductive Entry where
  | string (maxSize : Nat) (value : List Byte) (hmin : 1 < maxSize) (hmax : maxSize < 2 ^ 32)
  | array (maxSize : Nat) (value : List Byte) (hmin : 0 < maxSize) (hmax : maxSize < 2 ^ 32)
  | integer (value : Nat) (hmax : value < 2 ^ 32)
  deriving DecidableEq

namespace Entry

def type : Entry → Format
  | string _ _ _ _ => .string
  | array _ _ _ _ => .array
  | integer _ _ => .integer

def maxSize : Entry → Nat
  | string maxSize _ _ _ => maxSize
  | array maxSize _ _ _ => maxSize
  | integer _ _ => 4

def max (e : Entry) (withNts : Bool) : Nat :=
  e.maxSize - if !withNts ∧ e.type = .string then 1 else 0

def size : Entry → Nat
  | string maxSize value _ _ => min maxSize (value.length + 1)
  | array maxSize value _ _ => min maxSize value.length
  | integer _ _ => 4

def isValid : Entry → Bool
  | string maxSize value _ _ => value.length ≤ maxSize - 1
  | array maxSize value _ _ => value.length ≤ maxSize
  | integer _ _ => true

-- The constructor for string and array entries, with a `u32` for the maximal size.
def make (type : Format) (maxSize : Nat) (value : List Byte) : Except Fault Entry :=
  have hmax := Nat.mod_lt maxSize (Nat.two_pow_pos 32)
  match type with
  | .string =>
      if hmin : 1 < maxSize % 2 ^ 32 then .ok (string (maxSize % 2 ^ 32) value hmin hmax)
      else .error .ensure
  | .array =>
      if hmin : 0 < maxSize % 2 ^ 32 then .ok (array (maxSize % 2 ^ 32) value hmin hmax)
      else .error .ensure
  | .integer => .error .ensure

end Entry

-- `std::map<std::string, entry>`: keys compare as unsigned bytes.
abbrev Registry := OrderedMap (List Byte) Entry

def getString (psf : Registry) (key default : List Byte) : List Byte :=
  match psf.find? key with
  | some (.string _ value _ _) => value
  | some (.array _ value _ _) => value
  | _ => default

structure Header where
  magic : Nat
  version : Nat
  offKeyTable : Nat
  offDataTable : Nat
  entriesNum : Nat
  deriving DecidableEq, Repr

structure DefTable where
  keyOff : Nat
  paramFmt : Nat
  paramLen : Nat
  paramMax : Nat
  dataOff : Nat
  deriving DecidableEq, Repr

def magic : Nat := leValue (0 :: ascii "PSF")

namespace Header

def sizeOf : Nat := 20

def encode (h : Header) : List Byte :=
  leBytes 4 h.magic ++ (leBytes 4 h.version ++ (leBytes 4 h.offKeyTable ++
    (leBytes 4 h.offDataTable ++ leBytes 4 h.entriesNum)))

def decode (raw : List Byte) : Header where
  magic := leValue (slice raw 0 4)
  version := leValue (slice raw 4 4)
  offKeyTable := leValue (slice raw 8 4)
  offDataTable := leValue (slice raw 12 4)
  entriesNum := leValue (slice raw 16 4)

end Header

namespace DefTable

def sizeOf : Nat := 16

def encode (t : DefTable) : List Byte :=
  leBytes 2 t.keyOff ++ (leBytes 2 t.paramFmt ++ (leBytes 4 t.paramLen ++
    (leBytes 4 t.paramMax ++ leBytes 4 t.dataOff)))

def decode (raw : List Byte) : DefTable where
  keyOff := leValue (slice raw 0 2)
  paramFmt := leValue (slice raw 2 2)
  paramLen := leValue (slice raw 4 4)
  paramMax := leValue (slice raw 8 4)
  dataOff := leValue (slice raw 12 4)

-- The records of a vector, one after the other.
def decodeAll : Nat → List Byte → List DefTable
  | 0, _ => []
  | count + 1, raw => decode raw :: decodeAll count (raw.drop sizeOf)

end DefTable

section Load

-- How `load` ends early: `PSF_CHECK` returns an error code, a fault does not return.
inductive Stop where
  | error (errc : Error)
  | fault (fault : Fault)
  deriving DecidableEq, Repr

def check (condition : Prop) [Decidable condition] (errc : Error) : Except Stop Unit :=
  if condition then .ok () else .error (.error errc)

def checkRead {α : Type} (value : Option α) (errc : Error) : Except Stop α :=
  match value with
  | some value => .ok value
  | none => .error (.error errc)

def ensured {α : Type} (value : Except Fault α) : Except Stop α :=
  match value with
  | .ok value => .ok value
  | .error fault => .error (.fault fault)

-- `std::string key(keys.data() + key_off)`: a string ends with a NUL of its own.
def keyAt (keys : List Byte) (keyOff : Nat) : Except Fault (List Byte) :=
  if keyOff ≤ keys.length then .ok (cString (keys.drop keyOff)) else .error .outOfBounds

-- `indices[i]`.
def indexAt (indices : List DefTable) (i : Nat) : Except Stop DefTable :=
  match indices[i]? with
  | some index => .ok index
  | none => .error (.fault .outOfBounds)

-- The entry at the position of the stream. An unsupported format gives none.
def loadValue (stream : FileStream) (index : DefTable) : Except Stop (Option Entry) := do
  if index.paramFmt = Format.integer.code ∧ index.paramMax = 4 ∧ index.paramLen = 4 then
    let (raw, _) ← checkRead (stream.readPod 4) .corrupt
    return some (.integer (leValue raw % 2 ^ 32) (Nat.mod_lt _ (Nat.two_pow_pos 32)))
  else
    match Format.ofCode index.paramFmt with
    | some .string =>
        let (raw, _) ← checkRead (stream.readVector index.paramLen 1) .corrupt
        return some (← ensured (Entry.make .string index.paramMax (cString raw)))
    | some .array =>
        let (raw, _) ← checkRead (stream.readVector index.paramLen 1) .corrupt
        return some (← ensured (Entry.make .array index.paramMax raw))
    | _ => return none

-- The body of the loop over the index table.
def loadEntry (stream : FileStream) (header : Header) (keys : List Byte) (sfo : Registry)
    (index : DefTable) : Except Stop Registry := do
  check (index.keyOff < header.offDataTable - header.offKeyTable) .corrupt
  let key ← ensured (keyAt keys index.keyOff)
  check (sfo.find? key = none) .corrupt
  check (index.paramLen ≤ index.paramMax) .corrupt
  check (index.dataOff < stream.size - header.offDataTable) .corrupt
  check (index.paramMax < stream.size - index.dataOff) .corrupt
  let stream := stream.seek ((header.offDataTable + index.dataOff) % 2 ^ 32)
  match ← loadValue stream index with
  | some entry => return (sfo.emplace key entry).1
  | none => return sfo

def validCats : List (List Byte) :=
  ["GD", "DG", "HG", "AM", "AP", "AS", "AT", "AV", "BV", "WT", "HM", "CB", "SF", "2P", "2G", "1P",
    "PP", "MN", "PE", "2D", "SD", "MS"].map ascii

-- `load` from the index table on.
def loadTables (stream : FileStream) (header : Header) : Except Stop Registry := do
  let (raw, stream) ← checkRead (stream.readVector header.entriesNum DefTable.sizeOf) .corrupt
  let indices := DefTable.decodeAll header.entriesNum raw
  let (keys, stream) ← checkRead ((stream.seek header.offKeyTable).readVector
    (header.offDataTable - header.offKeyTable) 1) .corrupt
  let sfo ← (List.range header.entriesNum).foldlM (fun sfo i => do
    loadEntry stream header keys sfo (← indexAt indices i)) OrderedMap.empty
  check (getString sfo (ascii "CATEGORY") [] ∈ validCats) .corrupt
  return sfo

def loadRegistry (stream : FileStream) : Except Stop Registry := do
  let (raw, stream) ← checkRead ((stream.seek 0).readPod Header.sizeOf) .notPsf
  let header := Header.decode raw
  check (header.magic = magic) .notPsf
  check (header.version = 0x101) .notPsf
  check (Header.sizeOf ≤ header.offKeyTable) .corrupt
  check (header.offKeyTable ≤ header.offDataTable) .corrupt
  check (header.offDataTable ≤ stream.size) .corrupt
  loadTables stream header

-- `load` on an open stream: a registry and an error code.
def load (stream : FileStream) : Except Fault (Registry × Error) :=
  match loadRegistry stream with
  | .ok sfo => .ok (sfo, .ok)
  | .error (.error errc) => .ok (.empty, errc)
  | .error (.fault fault) => .error fault

end Load

section Save

-- `::narrow<u32>`.
def narrow (value : Nat) : Except Fault Nat :=
  if value < 2 ^ 32 then .ok value else .error .narrow

-- The loop that generates the indices: the offsets so far and the indices so far.
def makeIndex (offsets : Nat × Nat × List DefTable) (entry : List Byte × Entry) :
    Except Fault (Nat × Nat × List DefTable) := do
  let (keyOffset, dataOffset, indices) := offsets
  -- `key_off` has 16 bits
  let keyOff := (← narrow keyOffset) % 2 ^ 16
  let index : DefTable := {
    keyOff := keyOff
    paramFmt := entry.2.type.code
    paramLen := ← narrow entry.2.size
    paramMax := entry.2.max true
    dataOff := ← narrow dataOffset }
  return (keyOffset + (← narrow (entry.1.length + 1)), dataOffset + index.paramMax,
    indices ++ [index])

def alignUp (value alignment : Nat) : Nat := (value + (alignment - 1)) / alignment * alignment

def writeKey (stream : FileStream) (entry : List Byte × Entry) : FileStream :=
  (stream.write entry.1).write [0]

def writeText (stream : FileStream) (entry : Entry) (value : List Byte) : FileStream :=
  let value := if entry.isValid then value else value.take (entry.max false)
  let stream := (stream.write value).seekCur (entry.max true - value.length)
  stream.trunc stream.pos

def writeData (stream : FileStream) (entry : List Byte × Entry) : FileStream :=
  match entry.2 with
  | .integer value _ => stream.write (leBytes 4 value)
  | .string maxSize value hmin hmax => writeText stream (.string maxSize value hmin hmax) value
  | .array maxSize value hmin hmax => writeText stream (.array maxSize value hmin hmax) value

def saveObject (psf : Registry) : Except Fault (List Byte) := do
  let (keyOffset, _, indices) ← psf.entries.foldlM makeIndex (0, 0, [])
  let keyOffset := alignUp keyOffset 4
  let offKeyTable ← narrow (Header.sizeOf + DefTable.sizeOf * psf.size)
  let header : Header := {
    magic := magic
    version := 0x101
    offKeyTable := offKeyTable
    offDataTable := ← narrow (offKeyTable + keyOffset)
    entriesNum := ← narrow psf.size }
  let stream := (FileStream.ofBytes []).write header.encode
  let stream := stream.write (indices.flatMap DefTable.encode)
  let stream := psf.entries.foldl writeKey stream
  let stream := (stream.seek header.offDataTable).trunc header.offDataTable
  return (psf.entries.foldl writeData stream).obj

end Save

end Rpcsx.Psf

namespace Rpcsx.Psf

open Rpcsx.Data Rpcsx.Data.Bytes

-- A loop over the positions of the index table is a loop over its entries.
theorem foldlM_indexAt {σ : Type} (f : σ → DefTable → Except Stop σ) (indices : List DefTable)
    (s : σ) :
    (List.range indices.length).foldlM (fun s i => do f s (← indexAt indices i)) s =
      indices.foldlM f s := by
  induction indices generalizing s with
  | nil => rfl
  | cons index rest ih =>
      rw [List.length_cons, List.range_succ_eq_map, List.foldlM_cons, List.foldlM_cons]
      have hzero : indexAt (index :: rest) 0 = .ok index := rfl
      have hsucc (i : Nat) : indexAt (index :: rest) (i + 1) = indexAt rest i := rfl
      simp only [hzero, List.foldlM_map, Nat.succ_eq_add_one, hsucc]
      cases hf : f s index with
      | error e => simp [bind, Except.bind, hf]
      | ok s' =>
          simp only [bind, Except.bind, hf]
          exact ih s'

theorem DefTable.length_decodeAll (count : Nat) (raw : List Byte) :
    (decodeAll count raw).length = count := by
  induction count generalizing raw with
  | zero => rfl
  | succ count ih => simp [decodeAll, ih]

-- The conditions on the header and on the sizes of the tables.
structure HeaderOk (file : List Byte) (header : Header) : Prop where
  complete : Header.sizeOf ≤ file.length
  magic_eq : header.magic = magic
  version_eq : header.version = 0x101
  keys_after : Header.sizeOf ≤ header.offKeyTable
  data_after : header.offKeyTable ≤ header.offDataTable
  data_in : header.offDataTable ≤ file.length
  indices_in : Header.sizeOf + DefTable.sizeOf * header.entriesNum ≤ file.length

def fileHeader (file : List Byte) : Header := Header.decode (slice file 0 Header.sizeOf)

def fileIndices (file : List Byte) : List DefTable :=
  DefTable.decodeAll (fileHeader file).entriesNum
    (slice file Header.sizeOf (DefTable.sizeOf * (fileHeader file).entriesNum))

def fileKeys (file : List Byte) : List Byte :=
  slice file (fileHeader file).offKeyTable
    ((fileHeader file).offDataTable - (fileHeader file).offKeyTable)

-- Past the header, `load` is the loop over the index table and the test of the category.
theorem loadRegistry_eq {file : List Byte} (h : HeaderOk file (fileHeader file)) (pos : Nat) :
    ∃ stream : FileStream, stream.obj = file ∧
      loadRegistry ⟨file, pos⟩ = (do
        let sfo ← (fileIndices file).foldlM
          (loadEntry stream (fileHeader file) (fileKeys file)) OrderedMap.empty
        check (getString sfo (ascii "CATEGORY") [] ∈ validCats) .corrupt
        return sfo) := by
  obtain ⟨h₁, h₂, h₃, h₄, h₅, h₆, h₇⟩ := h
  have hread₁ : FileStream.readPod ⟨file, 0⟩ Header.sizeOf =
      some (slice file 0 Header.sizeOf, ⟨file, Header.sizeOf⟩) := by
    rw [FileStream.readPod_eq, if_pos (.inl (by simpa [FileStream.size] using h₁))]
    simp
  have hread₂ : FileStream.readVector ⟨file, Header.sizeOf⟩ (fileHeader file).entriesNum
      DefTable.sizeOf = some (slice file Header.sizeOf
        (DefTable.sizeOf * (fileHeader file).entriesNum),
        ⟨file, Header.sizeOf + DefTable.sizeOf * (fileHeader file).entriesNum⟩) := by
    rw [FileStream.readVector_eq _ _ (by decide), FileStream.readPod_eq, if_pos (.inl h₇)]
  have hread₃ : FileStream.readVector ⟨file, (fileHeader file).offKeyTable⟩
      ((fileHeader file).offDataTable - (fileHeader file).offKeyTable) 1 =
        some (fileKeys file, ⟨file, (fileHeader file).offDataTable⟩) := by
    rw [FileStream.readVector_eq _ _ (by decide), FileStream.readPod_eq, Nat.one_mul,
      if_pos (.inl (by simp only [FileStream.size]; omega))]
    simp only [fileKeys]
    rw [Nat.add_sub_cancel' h₅]
  refine ⟨⟨file, (fileHeader file).offDataTable⟩, rfl, ?_⟩
  have hloop := foldlM_indexAt (loadEntry ⟨file, (fileHeader file).offDataTable⟩ (fileHeader file)
    (fileKeys file)) (fileIndices file) OrderedMap.empty
  rw [fileIndices, DefTable.length_decodeAll, ← fileIndices] at hloop
  have hh : Header.decode (slice file 0 Header.sizeOf) = fileHeader file := rfl
  have hi : DefTable.decodeAll (fileHeader file).entriesNum (slice file Header.sizeOf
    (DefTable.sizeOf * (fileHeader file).entriesNum)) = fileIndices file := rfl
  simp only [loadRegistry, loadTables, FileStream.seek, hread₁, checkRead, bind, Except.bind, hh, check, h₂, h₃,
    h₄, h₅, FileStream.size, h₆, if_true, hread₂, hread₃, hi]
  rw [← hloop]
  rfl

end Rpcsx.Psf
