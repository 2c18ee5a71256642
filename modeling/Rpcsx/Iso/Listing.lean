import Rpcsx.Iso.Extents

namespace Rpcsx.Iso

open Data Data.Bytes

namespace RecordOk

variable {data : List Byte} {offset : Nat}

theorem length_pos (hr : RecordOk data offset) : byteAt data offset ≠ 0 := by
  have := hr.length_eq
  unfold dirEntrySize at this
  omega

theorem offset_lt (hr : RecordOk data offset) : offset < blockSize := by
  have := hr.fits
  have := hr.length_pos
  omega

theorem header_fits (hr : RecordOk data offset) : offset + 34 ≤ blockSize := by
  have := hr.fits
  have := hr.length_eq
  have := hr.identifier_ne
  unfold dirEntrySize at *
  omega

theorem identifier_fits (hr : RecordOk data offset) :
    offset + dirEntrySize + byteAt data (offset + 32) ≤ blockSize := by
  have := hr.fits
  have := hr.length_eq
  omega

theorem sectorRecords_eq (hr : RecordOk data offset) :
    sectorRecords data offset =
      Record.ofBytes data offset :: sectorRecords data (offset + byteAt data offset) := by
  rw [sectorRecords, if_pos hr.offset_lt, if_neg hr.length_pos]

end RecordOk

theorem SectorOk.whole {data : List Byte} {offset : Nat} (hk : SectorOk data offset) :
    WholeRecords data offset := by
  induction hk with
  | full => exact .full
  | free ho hz => exact .free ho hz
  | record hr rest ih =>
      refine .record hr.length_pos ?_ hr.fits ih
      have := hr.header_fits
      unfold dirEntrySize
      omega

-- Where a record has no room behind its identifier but for the pad byte, only an identifier
-- of even length is taken.
theorem RecordOk.taken?_eq {data : List Byte} {offset : Nat} (hr : RecordOk data offset) :
    (Record.ofBytes data offset).taken? .ascii = (Record.ofBytes data offset).item? := by
  have hlength := hr.length_eq
  unfold Record.taken? Record.item?
  have hiff : (Record.ofBytes data offset).entry.filenameEnd ≤
      (Record.ofBytes data offset).entry.entryLength ↔
        (Record.ofBytes data offset).entry.filenameLength % 2 = 0 := by
    simp only [Record.ofBytes, DirEntry.filenameEnd, DirEntry.ofBytes_entryLength,
      DirEntry.ofBytes_filenameLength]
    omega
  simp only [hiff]

theorem SectorOk.taken?_eq {data : List Byte} {offset : Nat} (hk : SectorOk data offset) :
    (sectorRecords data offset).filterMap (Record.taken? .ascii) =
      (sectorRecords data offset).filterMap Record.item? := by
  induction hk with
  | full => simp [sectorRecords_full]
  | free ho hz => simp [sectorRecords_free hz]
  | record hr rest ih =>
      rw [hr.sectorRecords_eq, List.filterMap_cons, List.filterMap_cons, hr.taken?_eq, ih]

section ReadDir

variable {image : Image} {directory : DirEntry} (hd : DirectoryOk image directory)
include hd

theorem DirectoryOk.extentOk : ExtentOk image directory :=
  ⟨hd.length_blocks, fun sector hmem => (hd.sectors sector hmem).whole⟩

theorem DirectoryOk.takenItems_eq : takenItems .ascii (ownBlocks image directory) =
    (records image directory).filterMap Record.item? := by
  have hsectors := hd.sectors
  rw [takenItems, ownBlocks, records]
  generalize image.read directory.lba (blockCount directory) = sectors at hsectors
  induction sectors with
  | nil => rfl
  | cons sector sectors ih =>
      obtain ⟨hsector, hrest⟩ := List.forall_mem_cons.mp hsectors
      rw [List.flatMap_cons, List.filterMap_append, List.filterMap_append, hsector.taken?_eq,
        ih hrest]

theorem readDir_eq (hdir : directory.isDirectory = true) :
    readDir .ascii image { extents := [directory] } =
      (nativeItems image directory).map (Listing.addAll []) := by
  have hentry : Entry.isDirectory { extents := [directory] } = true := hdir
  have hok : ∀ extent ∈ [directory], ExtentOk image extent := by simpa using hd.extentOk
  have hitems : extentItems .ascii image directory = nativeItems image directory := by
    rw [extentItems, hd.takenItems_eq]
    rfl
  rw [readDir, if_pos hentry, readExtents_eq .ascii hok, dirItems, dirItems, hitems]
  cases nativeItems image directory with
  | none => rfl
  | some items => simp

end ReadDir

namespace MetadataReader

theorem recordName_ne_dots {rawName : List Byte} (h0 : rawName ≠ [0]) (h1 : rawName ≠ [1]) :
    recordName rawName ≠ ".".toList ∧ recordName rawName ≠ "..".toList := by
  rw [recordName, if_neg h0, if_neg h1]
  have hlast := List.rdropWhile_last_not (fun c : Char => decide (c = '.'))
    (Text.substringBefore ';' (Text.decodeAscii rawName))
  unfold Text.trimEnd
  constructor
  · intro h
    exact hlast (by rw [h]; decide) (by simp [h])
  · intro h
    exact hlast (by rw [h]; decide) (by simp [h])

theorem parseDirectoryRecord_eq {data : List Byte} {offset : Nat} (hr : RecordOk data offset)
    (hl : data.length = blockSize) :
    (parseDirectoryRecord data offset).bind namedEntry = (Record.ofBytes data offset).isoEntryOf := by
  have hh := hr.header_fits
  have hi := hr.identifier_fits
  have hle := hr.length_eq
  have hne := hr.identifier_ne
  have hfits := hr.fits
  unfold dirEntrySize at hi hle
  have hlong : ¬(byteAt data offset < 34 ∨ blockSize < offset + byteAt data offset) := by omega
  have hextent : u32Le data (offset + 2) = (DirEntry.ofBytes data offset).lba :=
    if_neg (by omega)
  have hsize : u32Le data (offset + 10) = (DirEntry.ofBytes data offset).length :=
    if_neg (by omega)
  rw [parseDirectoryRecord, hl, if_neg (by omega), if_neg hlong, if_neg (by omega), hextent, hsize,
    Option.bind_some, namedEntry, Record.isoEntryOf]
  by_cases h0 : (Record.ofBytes data offset).identifier = [0]
  · have h0' : slice data (offset + 33) (byteAt data (offset + 32)) = [0] := h0
    simp [h0, h0', recordName]
  · by_cases h1 : (Record.ofBytes data offset).identifier = [1]
    · have h1' : slice data (offset + 33) (byteAt data (offset + 32)) = [1] := h1
      simp [h1, h1', recordName]
    · exact (if_pos (recordName_ne_dots h0 h1)).trans (if_neg (by simp [h0, h1])).symm

theorem walkSector_eq {data : List Byte} {offset : Nat} (hk : SectorOk data offset)
    (hl : data.length = blockSize) :
    walkSector data offset = (sectorRecords data offset).filterMap Record.isoEntryOf := by
  induction hk with
  | full => rw [walkSector, if_neg (Nat.lt_irrefl _), sectorRecords_full, List.filterMap_nil]
  | free ho hz =>
      rw [walkSector, if_pos ho, if_pos hz, sectorRecords_free hz, List.filterMap_nil]
  | record hr rest ih =>
      rw [walkSector, if_pos hr.offset_lt, if_neg hr.length_pos,
        if_neg (Nat.not_lt.mpr hr.fits), parseDirectoryRecord_eq hr hl, ih, hr.sectorRecords_eq,
        List.filterMap_cons]
      cases (Record.ofBytes _ _).isoEntryOf <;> rfl

theorem readSectors_eq (image : Image) (extent bytesToRead sector : Nat) :
    readSectors image extent bytesToRead sector =
      (image.read (extent + sector)
        ((bytesToRead + blockSize - 1) / blockSize - sector)).flatMap (walkSector · 0) := by
  fun_induction readSectors image extent bytesToRead sector with
  | case1 sector hlt data hdata ih =>
      have hcount : (bytesToRead + blockSize - 1) / blockSize - sector =
          ((bytesToRead + blockSize - 1) / blockSize - (sector + 1)) + 1 := by
        simp only [blockSize] at *
        omega
      obtain ⟨hin, rfl⟩ := List.getElem?_eq_some_iff.mp hdata
      rw [ih, hcount, Image.read, Image.read, List.drop_eq_getElem_cons hin, List.take_succ_cons,
        List.flatMap_cons, Nat.add_assoc]
  | case2 sector hlt hnone =>
      rw [Image.read, List.drop_of_length_le (List.getElem?_eq_none_iff.mp hnone), List.take_nil,
        List.flatMap_nil]
  | case3 sector hge =>
      have hcount : (bytesToRead + blockSize - 1) / blockSize - sector = 0 := by
        simp only [blockSize] at *
        omega
      rw [hcount, Image.read, List.take_zero, List.flatMap_nil]

theorem listDirectory_eq {image : Image} {directory : DirEntry} (hd : DirectoryOk image directory)
    {entry : IsoEntry} (he : entry.extent = directory.lba) (hs : entry.size = directory.length)
    (hdir : entry.isDirectory = true) :
    listDirectory image entry =
      (recordsWithin image directory maxDirectoryBlocks).filterMap Record.isoEntryOf := by
  have hcount : (min directory.length maxDirectoryBytes + blockSize - 1) / blockSize - 0 =
      min (blockCount directory) maxDirectoryBlocks := by
    simp only [blockCount, blockSize, maxDirectoryBlocks, maxDirectoryBytes]
    omega
  rw [listDirectory, if_pos hdir, readSectors_eq, he, hs, hcount, recordsWithin,
    List.filterMap_flatMap, Nat.add_zero]
  apply List.flatMap_congr
  intro sector hmem
  have hown : sector ∈ image.read directory.lba (blockCount directory) := by
    unfold Image.read at hmem ⊢
    rw [Nat.min_comm, ← List.take_take] at hmem
    exact List.mem_of_mem_take hmem
  exact walkSector_eq (hd.sectors sector hown) (length_of_read hown)

end MetadataReader

end Rpcsx.Iso
