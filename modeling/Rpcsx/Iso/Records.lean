import Rpcsx.Data.Text
import Rpcsx.Iso

namespace Rpcsx.Iso.MetadataReader

open Data Data.Bytes

def maxDirectoryBytes : Nat := 16 * 1024 * 1024

structure IsoEntry where
  name : Text
  extent : Nat
  size : Nat
  isDirectory : Bool
deriving DecidableEq, Repr

def u32Le (data : List Byte) (offset : Nat) : Nat :=
  if data.length < offset + 4 then 0 else leValue (slice data offset 4)

def recordName (rawName : List Byte) : Text :=
  if rawName = [0] then ".".toList
  else if rawName = [1] then "..".toList
  else Text.trimEnd (· = '.') (Text.substringBefore ';' (Text.decodeAscii rawName))

def parseDirectoryRecord (data : List Byte) (offset : Nat) : Option IsoEntry :=
  if data.length < offset + 34 then none
  else if byteAt data offset < 34 ∨ data.length < offset + byteAt data offset then none
  else if data.length < offset + 33 + byteAt data (offset + 32) then none
  else some {
    name := recordName (slice data (offset + 33) (byteAt data (offset + 32)))
    extent := u32Le data (offset + 2)
    size := u32Le data (offset + 10)
    isDirectory := (byteAt data (offset + 25)).testBit 1 }

-- The entry of a record that is neither the directory itself nor its parent.
def namedEntry (entry : IsoEntry) : Option IsoEntry :=
  if entry.name ≠ ".".toList ∧ entry.name ≠ "..".toList then some entry else none

def walkSector (data : List Byte) (offset : Nat) : List IsoEntry :=
  if offset < blockSize then
    if byteAt data offset = 0 then []
    else if blockSize < offset + byteAt data offset then []
    else
      ((parseDirectoryRecord data offset).bind namedEntry).toList ++
        walkSector data (offset + byteAt data offset)
  else []
termination_by blockSize - offset

def readSectors (image : Image) (extent bytesToRead sector : Nat) : List IsoEntry :=
  if sector * blockSize < bytesToRead then
    match image.sectors[extent + sector]? with
    | some data => walkSector data 0 ++ readSectors image extent bytesToRead (sector + 1)
    | none => []
  else []
termination_by bytesToRead - sector * blockSize
decreasing_by
  simp only [blockSize] at *
  omega

def listDirectory (image : Image) (directory : IsoEntry) : List IsoEntry :=
  if directory.isDirectory then
    readSectors image directory.extent (min directory.size maxDirectoryBytes) 0
  else []

def readRootFrom : List (List Byte) → Option IsoEntry
  | [] => none
  | descriptor :: rest =>
      if descriptorId descriptor ≠ ascii "CD001" then readRootFrom rest
      else if byteAt descriptor 0 = 1 then parseDirectoryRecord descriptor rootOffset
      else if byteAt descriptor 0 = 255 then none
      else readRootFrom rest

-- Sectors 16 until 256, up to the first one that the file does not hold.
def readRootEntry (image : Image) : Option IsoEntry := readRootFrom (image.read 16 240)

def findParts (image : Image) : IsoEntry → List Text → Option IsoEntry
  | current, [] => some current
  | current, part :: rest =>
      if current.isDirectory then
        match (listDirectory image current).find? fun entry =>
            Text.equalsIgnoreCase entry.name part with
        | some entry => findParts image entry rest
        | none => none
      else none

def pathParts (path : Text) : List Text :=
  ((Text.trim (· = '/') path).splitOn '/').filter fun part => !Text.isBlank part

def findEntry (image : Image) (path : Text) : Option IsoEntry :=
  match readRootEntry image with
  | some root => findParts image root (pathParts path)
  | none => none

end Rpcsx.Iso.MetadataReader

namespace Rpcsx.Iso

open Data Data.Bytes

-- A directory record as it lies in a sector.
structure Record where
  entry : DirEntry
  identifier : List Byte
deriving DecidableEq, Repr

namespace Record

def ofBytes (data : List Byte) (offset : Nat) : Record where
  entry := DirEntry.ofBytes data offset
  identifier := slice data (offset + dirEntrySize) (byteAt data (offset + 32))

-- The identifier without its version.
def name (record : Record) : List Byte := record.identifier.takeWhile (· ≠ 59)

-- Whether a path component names the record. A trailing dot is no part of the name, and
-- the records of the directory itself and of its parent have none.
def answers (part : List Byte) (record : Record) : Bool :=
  record.identifier ≠ [0] ∧ record.identifier ≠ [1] ∧
    isStringEqNoCase (record.name.rdropWhile (· = 46)) part

-- What read_dir lists for the record: nothing where the identifier has an odd length, since
-- the name is then expected to end one byte behind the record.
def item? (record : Record) : Option (List Byte × DirEntry) :=
  let filename := itemName .ascii record.identifier
  if record.entry.filenameLength % 2 = 0 ∧ filename ≠ [] then some (filename, record.entry)
  else none

-- What listDirectory lists for the record.
def isoEntryOf (record : Record) : Option MetadataReader.IsoEntry :=
  if record.identifier = [0] ∨ record.identifier = [1] then none
  else some {
    name := MetadataReader.recordName record.identifier
    extent := record.entry.lba
    size := record.entry.length
    isDirectory := record.entry.isDirectory }

end Record

-- The records from offset to the end of the sector or to the first free byte.
def sectorRecords (data : List Byte) (offset : Nat) : List Record :=
  if offset < blockSize then
    if byteAt data offset = 0 then []
    else Record.ofBytes data offset :: sectorRecords data (offset + byteAt data offset)
  else []
termination_by blockSize - offset

-- A record is as long as its identifier asks for, one pad byte makes its length even.
structure RecordOk (data : List Byte) (offset : Nat) : Prop where
  identifier_ne : 0 < byteAt data (offset + 32)
  length_eq : byteAt data offset =
    dirEntrySize + byteAt data (offset + 32) + (1 - byteAt data (offset + 32) % 2)
  fits : offset + byteAt data offset ≤ blockSize
  ascii : ∀ b ∈ (Record.ofBytes data offset).identifier, b.val < 128

inductive SectorOk (data : List Byte) : Nat → Prop where
  | full : SectorOk data blockSize
  | free {offset : Nat} (ho : offset < blockSize) (hz : byteAt data offset = 0) :
      SectorOk data offset
  | record {offset : Nat} (hr : RecordOk data offset)
      (rest : SectorOk data (offset + byteAt data offset)) : SectorOk data offset

-- The blocks in which listDirectory looks for records.
def maxDirectoryBlocks : Nat := MetadataReader.maxDirectoryBytes / blockSize

def blockCount (directory : DirEntry) : Nat := (directory.length + blockSize - 1) / blockSize

-- The records in the first blocks of a directory, at most limit of them.
def recordsWithin (image : Image) (directory : DirEntry) (limit : Nat) : List Record :=
  (image.read directory.lba (min (blockCount directory) limit)).flatMap (sectorRecords · 0)

def records (image : Image) (directory : DirEntry) : List Record :=
  (image.read directory.lba (blockCount directory)).flatMap (sectorRecords · 0)

structure DirectoryOk (image : Image) (directory : DirEntry) : Prop where
  length_blocks : (image.read directory.lba (blockCount directory)).length = blockCount directory
  sectors : ∀ sector ∈ image.read directory.lba (blockCount directory), SectorOk sector 0

inductive Reachable (image : Image) (root : DirEntry) : DirEntry → Prop where
  | root : Reachable image root root
  | child {directory : DirEntry} {record : Record} (hd : Reachable image root directory)
      (hdir : directory.isDirectory = true) (hr : record ∈ records image directory) :
      Reachable image root record.entry

def notTerminator (block : List Byte) : Bool := byteAt block 0 ≠ 255

def descriptors (image : Image) : List (List Byte) := (image.read 16 256).takeWhile notTerminator

-- The volume descriptors: no supplementary one, and every primary one has the same root.
structure VolumeOk (image : Image) (root : DirEntry) : Prop where
  ids : ∀ block ∈ descriptors image, descriptorId block = ascii "CD001"
  primary : ∃ block ∈ (descriptors image).take 240, byteAt block 0 = 1
  primary_root : ∀ block ∈ descriptors image, byteAt block 0 = 1 →
    DirEntry.ofBytes block rootOffset = root
  no_supplementary : ∀ block ∈ descriptors image, byteAt block 0 ≠ 2

structure WellFormed (image : Image) (root : DirEntry) : Prop where
  volume : VolumeOk image root
  root_length : root.entryLength = 34
  root_identifier : root.filenameLength = 1
  root_directory : root.isDirectory = true
  directories : ∀ directory, Reachable image root directory → directory.isDirectory = true →
    DirectoryOk image directory

-- The items that read_dir takes from one buffer.
def bufferItems (encoding : StringEncoding) (buffer : List Byte) (bufferSize offset : Nat) :
    Option (List (List Byte × DirEntry)) :=
  if offset < bufferSize then
    let item := DirEntry.ofBytes buffer offset
    if item.entryLength = 0 then
      bufferItems encoding buffer bufferSize ((offset + blockSize) / blockSize * blockSize)
    else if buffer.length < offset + dirEntrySize then none
    else if item.entryLength < item.filenameEnd then
      bufferItems encoding buffer bufferSize (offset + item.entryLength)
    else if item.filenameLength = 0 ∨ item.entryLength < item.filenameLength + dirEntrySize then
      bufferItems encoding buffer bufferSize (offset + item.entryLength)
    else if buffer.length < offset + dirEntrySize + item.filenameLength then none
    else
      let filename :=
        itemName encoding (slice buffer (offset + dirEntrySize) item.filenameLength)
      if filename = [] then bufferItems encoding buffer bufferSize (offset + item.entryLength)
      else
        (bufferItems encoding buffer bufferSize (offset + item.entryLength)).map
          ((filename, item) :: ·)
  else some []
termination_by bufferSize - offset
decreasing_by
  · simp only [blockSize]
    omega
  all_goals
    have hpos : (DirEntry.ofBytes buffer offset).entryLength ≠ 0 := by assumption
    omega

-- The items behind the directory's own blocks: every read asks for a whole buffer, so the
-- last one may go on past the end. What it does not fill keeps the blocks read before.
def strayItems (image : Image) (directory : DirEntry) :
    Option (List (List Byte × DirEntry)) :=
  let total := blockCount directory
  if total ≤ 10 ∨ total % 10 = 0 then some []
  else
    let first := directory.lba + total / 10 * 10
    let blocks := image.read first 10
    let buffer := blocks.flatten ++ (image.read (first - 10) 10).flatten.drop blocks.flatten.length
    bufferItems .ascii buffer (blocks.length * blockSize) (total % 10 * blockSize)

-- Everything read_dir takes as an item, in its order.
def nativeItems (image : Image) (directory : DirEntry) : Option (List (List Byte × DirEntry)) :=
  (strayItems image directory).map ((records image directory).filterMap Record.item? ++ ·)

def Listing.addAll (listing : Listing) (items : List (List Byte × DirEntry)) : Listing :=
  items.foldl (fun listing item => listing.add item.1 item.2) listing

-- A record and a sector as an image writer lays them out.
def recordBytes (identifier : List Byte) (lba length flags : Nat) : List Byte :=
  let pad := 1 - identifier.length % 2
  [Fin.ofNat 256 (dirEntrySize + identifier.length + pad), 0] ++
    leBytes 4 lba ++ (leBytes 4 lba).reverse ++ leBytes 4 length ++ (leBytes 4 length).reverse ++
    List.replicate 7 0 ++ [Fin.ofNat 256 flags] ++ List.replicate 2 0 ++ [1, 0, 0, 1] ++
    [Fin.ofNat 256 identifier.length] ++ identifier ++ List.replicate pad 0

def fillSector (bytes : List Byte) : List Byte :=
  (bytes ++ List.replicate blockSize 0).take blockSize

theorem length_fillSector (bytes : List Byte) : (fillSector bytes).length = blockSize := by
  simp [fillSector]

end Rpcsx.Iso
