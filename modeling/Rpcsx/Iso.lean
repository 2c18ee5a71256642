import Rpcsx.Data.Bytes

namespace Rpcsx.Iso

open Data Data.Bytes

def blockSize : Nat := 2048

-- An image file holds whole sectors.
structure Image where
  sectors : List (List Byte)
  length_sector : ∀ sector ∈ sectors, sector.length = blockSize

-- file_block_dev::read, as the list of the blocks it delivers.
def Image.read (image : Image) (block count : Nat) : List (List Byte) :=
  (image.sectors.drop block).take count

def byteAt (bytes : List Byte) (offset : Nat) : Nat := (bytes.getD offset 0).val

-- sizeof(iso::DirEntry)
def dirEntrySize : Nat := 33

structure DirEntry where
  entryLength : Nat
  lba : Nat
  length : Nat
  flags : Nat
  filenameLength : Nat
deriving DecidableEq, Repr

namespace DirEntry

-- The packed record that starts at offset.
def ofBytes (bytes : List Byte) (offset : Nat) : DirEntry where
  entryLength := byteAt bytes offset
  lba := leValue (slice bytes (offset + 2) 4)
  length := leValue (slice bytes (offset + 10) 4)
  flags := byteAt bytes (offset + 25)
  filenameLength := byteAt bytes (offset + 32)

def isDirectory (entry : DirEntry) : Bool := entry.flags.testBit 1

def isMultiExtent (entry : DirEntry) : Bool := entry.flags.testBit 7

def filenameEnd (entry : DirEntry) : Nat := dirEntrySize + (entry.filenameLength + 1) / 2 * 2

end DirEntry

structure Entry where
  extents : List DirEntry
deriving DecidableEq, Repr

namespace Entry

def isDirectory (entry : Entry) : Bool :=
  match entry.extents with
  | [] => false
  | front :: _ => front.isDirectory

def size (entry : Entry) : Nat := (entry.extents.map DirEntry.length).sum

end Entry

inductive StringEncoding where
  | ascii
  | utf16Be
deriving DecidableEq, Repr

def appendUtf8 (codepoint : Nat) : List Byte :=
  if codepoint ≤ 0x7f then [Fin.ofNat 256 codepoint]
  else if codepoint ≤ 0x7ff then
    [Fin.ofNat 256 (0xc0 ||| (codepoint >>> 6)), Fin.ofNat 256 (0x80 ||| (codepoint &&& 0x3f))]
  else if codepoint ≤ 0xffff then
    [Fin.ofNat 256 (0xe0 ||| (codepoint >>> 12)),
      Fin.ofNat 256 (0x80 ||| ((codepoint >>> 6) &&& 0x3f)),
      Fin.ofNat 256 (0x80 ||| (codepoint &&& 0x3f))]
  else
    [Fin.ofNat 256 (0xf0 ||| (codepoint >>> 18)),
      Fin.ofNat 256 (0x80 ||| ((codepoint >>> 12) &&& 0x3f)),
      Fin.ofNat 256 (0x80 ||| ((codepoint >>> 6) &&& 0x3f)),
      Fin.ofNat 256 (0x80 ||| (codepoint &&& 0x3f))]

-- Unpaired surrogates become U+FFFD.
def u16ToString : List Nat → List Byte
  | [] => []
  | unit :: rest =>
      if 0xd800 ≤ unit ∧ unit ≤ 0xdbff then
        match rest with
        | trail :: rest' =>
            if 0xdc00 ≤ trail ∧ trail ≤ 0xdfff then
              appendUtf8 (0x10000 + (((unit - 0xd800) <<< 10) ||| (trail - 0xdc00))) ++
                u16ToString rest'
            else appendUtf8 0xfffd ++ u16ToString (trail :: rest')
        | [] => appendUtf8 0xfffd
      else if 0xdc00 ≤ unit ∧ unit ≤ 0xdfff then appendUtf8 0xfffd ++ u16ToString rest
      else appendUtf8 unit ++ u16ToString rest

-- An odd last byte is not part of any unit.
def u16BeUnits : List Byte → List Nat
  | high :: low :: rest => (high.val * 256 + low.val) :: u16BeUnits rest
  | _ => []

def decodeString (encoding : StringEncoding) (data : List Byte) : List Byte :=
  match encoding with
  | .ascii => data
  | .utf16Be => u16ToString (u16BeUnits data)

-- The name and the extents of each directory item; read_dir keeps them in two vectors.
abbrev Listing := List (List Byte × Entry)

-- A record that continues a file of more than one extent joins the first entry of its name.
def Listing.add (listing : Listing) (filename : List Byte) (item : DirEntry) : Listing :=
  match listing with
  | [] => [(filename, { extents := [item] })]
  | (name, entry) :: rest =>
      if name = filename ∧ (entry.extents.getLast?.any DirEntry.isMultiExtent) = true then
        (name, { extents := entry.extents ++ [item] }) :: rest
      else (name, entry) :: add rest filename item

-- Identifiers of one byte are the directory itself and its parent, or they are dropped.
def itemName (encoding : StringEncoding) (identifier : List Byte) : List Byte :=
  let filename :=
    if identifier = [0] then ascii "."
    else if identifier = [1] then ascii ".."
    else if identifier.length = 1 then []
    else decodeString encoding identifier
  filename.takeWhile (· ≠ 59)

-- The loop of read_dir over the blocks of one buffer. The result is none where an item
-- reaches behind the buffer.
def walkBuffer (encoding : StringEncoding) (buffer : List Byte) (bufferSize offset : Nat)
    (listing : Listing) : Option Listing :=
  if offset < bufferSize then
    let item := DirEntry.ofBytes buffer offset
    if item.entryLength = 0 then
      walkBuffer encoding buffer bufferSize ((offset + blockSize) / blockSize * blockSize) listing
    else if buffer.length < offset + dirEntrySize then none
    else if item.entryLength < item.filenameEnd then
      walkBuffer encoding buffer bufferSize (offset + item.entryLength) listing
    else if item.filenameLength = 0 ∨ item.entryLength < item.filenameLength + dirEntrySize then
      walkBuffer encoding buffer bufferSize (offset + item.entryLength) listing
    else if buffer.length < offset + dirEntrySize + item.filenameLength then none
    else
      let filename :=
        itemName encoding (slice buffer (offset + dirEntrySize) item.filenameLength)
      if filename = [] then
        walkBuffer encoding buffer bufferSize (offset + item.entryLength) listing
      else
        walkBuffer encoding buffer bufferSize (offset + item.entryLength)
          (listing.add filename item)
  else some listing
termination_by bufferSize - offset
decreasing_by
  · simp only [blockSize]
    omega
  all_goals
    have hpos : (DirEntry.ofBytes buffer offset).entryLength ≠ 0 := by assumption
    omega

-- A read that ends early leaves the rest of the buffer as it was.
def readBlocks (encoding : StringEncoding) (image : Image) (bufferBlocks lastBlock block : Nat)
    (buffer : List Byte) (listing : Listing) : Option Listing :=
  if block < lastBlock then
    let blocks := image.read block bufferBlocks
    if blocks.length = 0 then some listing
    else
      let buffer := blocks.flatten ++ buffer.drop blocks.flatten.length
      match walkBuffer encoding buffer (blocks.length * blockSize) 0 listing with
      | none => none
      | some listing =>
          readBlocks encoding image bufferBlocks lastBlock (block + blocks.length) buffer listing
  else some listing
termination_by lastBlock - block
decreasing_by
  have hpos : (image.read block bufferBlocks).length ≠ 0 := by assumption
  omega

def readExtents (encoding : StringEncoding) (image : Image) :
    List DirEntry → Listing → Option Listing
  | [], listing => some listing
  | extent :: rest, listing =>
      let totalBlockCount := (extent.length + blockSize - 1) / blockSize
      let totalBufferBlockCount := min totalBlockCount 10
      if totalBufferBlockCount = 0 then readExtents encoding image rest listing
      else
        match readBlocks encoding image totalBufferBlockCount (extent.lba + totalBlockCount)
            extent.lba (List.replicate (totalBufferBlockCount * blockSize) 0) listing with
        | none => none
        | some listing => readExtents encoding image rest listing

def readDir (encoding : StringEncoding) (image : Image) (entry : Entry) : Option Listing :=
  if entry.isDirectory then readExtents encoding image entry.extents [] else some []

def tolower (b : Byte) : Byte := if 65 ≤ b.val ∧ b.val ≤ 90 then Fin.ofNat 256 (b.val + 32) else b

def isStringEqNoCase (left right : List Byte) : Bool := left.map tolower = right.map tolower

structure Device where
  image : Image
  root : DirEntry
  encoding : StringEncoding

structure VolumeScan where
  primary : Option DirEntry := none
  supplementary : Option DirEntry := none

def descriptorId (block : List Byte) : List Byte := slice block 1 5

def rootOffset : Nat := 156

-- The descriptor loop of iso_dev::initialize: later descriptors replace earlier ones.
def scanVolumes : List (List Byte) → VolumeScan → VolumeScan
  | [], scan => scan
  | block :: rest, scan =>
      if byteAt block 0 = 255 then scan
      else if descriptorId block ≠ ascii "CD001" then scanVolumes rest scan
      else if byteAt block 0 = 1 then
        scanVolumes rest { scan with primary := some (DirEntry.ofBytes block rootOffset) }
      else if byteAt block 0 = 2 then
        scanVolumes rest { scan with supplementary := some (DirEntry.ofBytes block rootOffset) }
      else scanVolumes rest scan

def initializeDevice (image : Image) : Option Device :=
  let scan := scanVolumes (image.read 16 256) {}
  match scan.primary, scan.supplementary with
  | none, _ => none
  | some _, some root => some { image := image, root := root, encoding := .utf16Be }
  | some root, none => some { image := image, root := root, encoding := .ascii }

def isSeparator (b : Byte) : Bool := b = 47 ∨ b = 92

-- The inner none is "no such entry", the outer one an item behind the buffer.
def openPath (device : Device) (item : Entry) (path : List Byte) : Option (Option Entry) :=
  if path = [] then some (some item)
  else
    let dirName := path.takeWhile fun b => !isSeparator b
    if dirName = [] then openPath device item path.tail
    else if item.isDirectory = false then some none
    else
      match readDir device.encoding device.image item with
      | none => none
      | some items =>
          match items.find? fun entry => isStringEqNoCase entry.1 dirName with
          | none => some none
          | some entry => openPath device entry.2 (path.dropWhile fun b => !isSeparator b)
termination_by path.length
decreasing_by
  · simp only [List.length_tail]
    have := List.length_pos_of_ne_nil (by assumption : path ≠ [])
    omega
  · have hsplit := congrArg List.length 
      (List.takeWhile_append_dropWhile : path.takeWhile (fun b => !isSeparator b) ++ _ = path)
    have hname : path.takeWhile (fun b => !isSeparator b) ≠ [] := by assumption
    have := List.length_pos_of_ne_nil hname
    simp only [List.length_append] at hsplit
    omega

def openEntry (device : Device) (path : List Byte) : Option (Option Entry) :=
  if path = ascii "/" ∨ path = ascii "\\" ∨ path = [] then
    some (some { extents := [device.root] })
  else openPath device { extents := [device.root] } path

end Rpcsx.Iso
