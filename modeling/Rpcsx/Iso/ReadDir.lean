import Rpcsx.Iso.Extents

namespace Rpcsx.Iso

open Data Data.Bytes

-- The number of blocks that the reads of an extent ask for: every read asks for a buffer.
def requestedBlocks (extent : DirEntry) : Nat :=
  if blockCount extent ≤ 10 then blockCount extent else (blockCount extent + 9) / 10 * 10

-- The device has all of them.
def Served (image : Image) (extent : DirEntry) : Prop :=
  ∀ index < requestedBlocks extent, extent.lba + index < image.sectors.length

def behindBlocks (image : Image) (extent : DirEntry) : List (List Byte) :=
  image.read (extent.lba + blockCount extent) (requestedBlocks extent - blockCount extent)

-- The blocks that are read from behind the extent have nothing that read_dir takes.
def NothingBehind (encoding : StringEncoding) (image : Image) (extent : DirEntry) : Prop :=
  bufferItems encoding (behindBlocks image extent).flatten
    ((behindBlocks image extent).length * blockSize) 0 = some []

-- The records stored in the blocks of the directory, in order.
def ownItems (encoding : StringEncoding) (image : Image) (entry : Entry) :
    List (List Byte × DirEntry) :=
  entry.extents.flatMap fun extent => (records image extent).filterMap (Record.named? encoding)

section Shift

variable {left : List Byte} (rest : List Byte)

theorem byteAt_behind (offset : Nat) :
    byteAt (left ++ rest) (left.length + offset) = byteAt rest offset := by
  unfold byteAt
  rw [List.getD_eq_getElem?_getD, List.getD_eq_getElem?_getD,
    List.getElem?_append_right (Nat.le_add_right _ _), Nat.add_sub_cancel_left]

theorem slice_behind (offset count : Nat) :
    slice (left ++ rest) (left.length + offset) count = slice rest offset count := by
  unfold slice
  rw [List.drop_append, Nat.add_sub_cancel_left, List.drop_of_length_le (Nat.le_add_right _ _),
    List.nil_append]

theorem ofBytes_behind (offset : Nat) :
    DirEntry.ofBytes (left ++ rest) (left.length + offset) = DirEntry.ofBytes rest offset := by
  simp only [DirEntry.ofBytes, Nat.add_assoc, byteAt_behind, slice_behind]

-- Whole blocks in front do not change the walk.
theorem bufferItems_shift (encoding : StringEncoding) {index : Nat}
    (hleft : left.length = index * blockSize) (size offset : Nat) :
    bufferItems encoding (left ++ rest) (left.length + size) (left.length + offset) =
      bufferItems encoding rest size offset := by
  have hlength (offset count : Nat) : (left ++ rest).length < left.length + offset + count ↔
      rest.length < offset + count := by
    rw [List.length_append]
    omega
  have hroom (offset header count : Nat) :
      (left ++ rest).length < left.length + offset + header + count ↔
        rest.length < offset + header + count := by
    rw [List.length_append]
    omega
  have hname (offset header count : Nat) :
      slice (left ++ rest) (left.length + offset + header) count = slice rest (offset + header) count := by
    rw [Nat.add_assoc, slice_behind]
  have hinside (offset : Nat) : left.length + offset < left.length + size ↔ offset < size := by omega
  have hnext (offset : Nat) : (left.length + offset + blockSize) / blockSize * blockSize =
      left.length + (offset + blockSize) / blockSize * blockSize := by
    have hfront : left.length + offset + blockSize = offset + blockSize + blockSize * index := by
      rw [hleft, Nat.mul_comm blockSize]
      omega
    rw [hfront, Nat.add_mul_div_left _ _ (by decide), Nat.add_mul, hleft, Nat.add_comm]
  fun_induction bufferItems encoding rest size offset with
  | case1 offset ho item hz ih =>
      rw [bufferItems, if_pos ((hinside offset).mpr ho), ofBytes_behind, hnext]
      simp only
      rw [if_pos hz]
      exact ih
  | case2 offset ho item hz hl =>
      rw [bufferItems, if_pos ((hinside offset).mpr ho), ofBytes_behind]
      simp only
      rw [if_neg hz, if_pos ((hlength _ _).mpr hl)]
  | case3 offset ho item hz hl he ih =>
      rw [bufferItems, if_pos ((hinside offset).mpr ho), ofBytes_behind]
      simp only
      rw [if_neg hz, if_neg ((hlength _ _).not.mpr hl), if_pos he, Nat.add_assoc]
      exact ih
  | case4 offset ho item hz hl he hn ih =>
      rw [bufferItems, if_pos ((hinside offset).mpr ho), ofBytes_behind]
      simp only
      rw [if_neg hz, if_neg ((hlength _ _).not.mpr hl), if_neg he, if_pos hn, Nat.add_assoc]
      exact ih
  | case5 offset ho item hz hl he hn hb =>
      rw [bufferItems, if_pos ((hinside offset).mpr ho), ofBytes_behind]
      simp only
      rw [if_neg hz, if_neg ((hlength _ _).not.mpr hl), if_neg he, if_neg hn,
        if_pos ((hroom _ _ _).mpr hb)]
  | case6 offset ho item hz hl he hn hb filename hf ih =>
      rw [bufferItems, if_pos ((hinside offset).mpr ho), ofBytes_behind]
      simp only [hname]
      rw [if_neg hz, if_neg ((hlength _ _).not.mpr hl), if_neg he, if_neg hn,
        if_neg ((hroom _ _ _).not.mpr hb), if_pos hf, Nat.add_assoc]
      exact ih
  | case7 offset ho item hz hl he hn hb filename hf ih =>
      rw [bufferItems, if_pos ((hinside offset).mpr ho), ofBytes_behind]
      simp only [hname]
      rw [if_neg hz, if_neg ((hlength _ _).not.mpr hl), if_neg he, if_neg hn,
        if_neg ((hroom _ _ _).not.mpr hb), if_neg hf, Nat.add_assoc, ih]
  | case8 offset ho => rw [bufferItems, if_neg ((hinside offset).not.mpr ho)]

end Shift

section Served

variable {image : Image} {extent : DirEntry}

theorem read_append (image : Image) (block count more : Nat) :
    image.read block (count + more) = image.read block count ++ image.read (block + count) more := by
  unfold Image.read
  rw [List.take_add, List.drop_drop]

theorem length_read {block count : Nat} (h : ∀ index < count, block + index < image.sectors.length) :
    (image.read block count).length = count := by
  rw [Image.read, List.length_take, List.length_drop]
  rcases Nat.eq_zero_or_pos count with rfl | hpos
  · omega
  · have hlast := h (count - 1) (by omega)
    omega

theorem blockCount_le (extent : DirEntry) : blockCount extent ≤ requestedBlocks extent := by
  unfold requestedBlocks
  split <;> omega

theorem Served.extentOk (hserved : Served image extent)
    (hwhole : ∀ sector ∈ ownBlocks image extent, WholeRecords sector 0) : ExtentOk image extent where
  length_blocks := length_read fun index hindex =>
    hserved index (Nat.lt_of_lt_of_le hindex (blockCount_le extent))
  sectors := hwhole

theorem overrunItems_eq (encoding : StringEncoding) (hserved : Served image extent) :
    overrunItems encoding image extent = bufferItems encoding (behindBlocks image extent).flatten
      ((behindBlocks image extent).length * blockSize) 0 := by
  rw [overrunItems]
  by_cases hfit : blockCount extent ≤ 10 ∨ blockCount extent % 10 = 0
  · have hrequest : requestedBlocks extent - blockCount extent = 0 := by
      unfold requestedBlocks
      split <;> omega
    have hbehind : behindBlocks image extent = [] := by
      rw [behindBlocks, hrequest]
      rfl
    simp only
    rw [if_pos hfit, hbehind, bufferItems_end _ _ (by simp)]
  · have hrequest : requestedBlocks extent = blockCount extent / 10 * 10 + 10 := by
      unfold requestedBlocks
      rw [if_neg fun h => hfit (.inl h)]
      omega
    have hten : 10 = blockCount extent % 10 + (requestedBlocks extent - blockCount extent) := by omega
    have hread (block : Nat) (hblock : extent.lba ≤ block)
        (hlast : block + 10 ≤ extent.lba + requestedBlocks extent) :
        (image.read block 10).flatten.length = 10 * blockSize := by
      rw [length_flatten_read, length_read fun index hindex => ?_]
      have hindex := hserved (block + index - extent.lba) (by omega)
      omega
    have hblocks : image.read (extent.lba + blockCount extent / 10 * 10) 10 =
        image.read (extent.lba + blockCount extent / 10 * 10) (blockCount extent % 10) ++
          behindBlocks image extent := by
      have hsplit := read_append image (extent.lba + blockCount extent / 10 * 10)
        (blockCount extent % 10) (requestedBlocks extent - blockCount extent)
      have hend : extent.lba + blockCount extent / 10 * 10 + blockCount extent % 10 =
          extent.lba + blockCount extent := by omega
      rw [← hten, hend] at hsplit
      exact hsplit
    have hfirst : (image.read (extent.lba + blockCount extent / 10 * 10)
        (blockCount extent % 10)).flatten.length = blockCount extent % 10 * blockSize := by
      rw [length_flatten_read, length_read fun index hindex => ?_]
      have hindex := hserved (blockCount extent / 10 * 10 + index) (by omega)
      omega
    have hlast := hread (extent.lba + blockCount extent / 10 * 10) (by omega) (by omega)
    have hprevious := hread (extent.lba + blockCount extent / 10 * 10 - 10) (by omega) (by omega)
    simp only
    rw [if_neg hfit, hlast, List.drop_of_length_le (Nat.le_of_eq hprevious), List.append_nil, hblocks,
      List.flatten_append, List.length_append, Nat.add_mul, ← length_flatten_read, hfirst]
    have hshift := bufferItems_shift (behindBlocks image extent).flatten encoding hfirst
      ((behindBlocks image extent).length * blockSize) 0
    rw [hfirst, Nat.add_zero] at hshift
    exact hshift

end Served

-- The records of a listing, whatever entry they have joined.
def Listing.extents (listing : Listing) : List DirEntry := listing.flatMap fun item => item.2.extents

theorem add_extents (listing : Listing) (filename : List Byte) (item : DirEntry) :
    (listing.add filename item).extents.Perm (item :: listing.extents) := by
  induction listing with
  | nil => exact List.Perm.refl _
  | cons first rest ih =>
      obtain ⟨name, entry⟩ := first
      rw [Listing.add]
      split
      · have hjoin : Listing.extents ((name, { extents := entry.extents ++ [item] }) :: rest) =
            entry.extents ++ item :: Listing.extents rest := by
          simp [Listing.extents]
        rw [hjoin]
        exact List.perm_middle
      · have hkeep : Listing.extents ((name, entry) :: Listing.add rest filename item) =
            entry.extents ++ Listing.extents (Listing.add rest filename item) := rfl
        rw [hkeep]
        exact (List.Perm.append_left entry.extents ih).trans List.perm_middle

theorem addAll_extents (items : List (List Byte × DirEntry)) (listing : Listing) :
    (listing.addAll items).extents.Perm (items.map Prod.snd ++ listing.extents) := by
  induction items generalizing listing with
  | nil => exact List.Perm.refl _
  | cons item items ih =>
      have hadd := add_extents listing item.1 item.2
      exact ((ih (listing.add item.1 item.2)).trans (List.Perm.append_left _ hadd)).trans
        List.perm_middle

theorem extents_of_addAll {left right : List (List Byte × DirEntry)}
    (h : Listing.addAll [] left = Listing.addAll [] right) :
    (left.map Prod.snd).Perm (right.map Prod.snd) := by
  have hleft := addAll_extents left []
  have hright := addAll_extents right []
  rw [h] at hleft
  simp only [Listing.extents, List.flatMap_nil, List.append_nil] at hleft hright
  exact hleft.symm.trans hright

-- Every item has room for its identifier and a pad byte.
def HasRoom (entry : DirEntry) : Prop := entry.filenameEnd ≤ entry.entryLength

theorem bufferItems_room (encoding : StringEncoding) (buffer : List Byte)
    (bufferSize offset : Nat) (items : List (List Byte × DirEntry))
    (h : bufferItems encoding buffer bufferSize offset = some items) :
    ∀ item ∈ items, HasRoom item.2 := by
  fun_induction bufferItems encoding buffer bufferSize offset generalizing items with
  | case1 offset ho item hz ih => exact ih items h
  | case2 offset ho item hz hl => cases h
  | case3 offset ho item hz hl he ih => exact ih items h
  | case4 offset ho item hz hl he hn ih => exact ih items h
  | case5 offset ho item hz hl he hn hb => cases h
  | case6 offset ho item hz hl he hn hb filename hf ih => exact ih items h
  | case7 offset ho item hz hl he hn hb filename hf ih =>
      obtain ⟨rest, hrest, rfl⟩ := Option.map_eq_some_iff.mp h
      exact List.forall_mem_cons.mpr ⟨Nat.le_of_not_lt he, ih rest hrest⟩
  | case8 offset ho =>
      obtain rfl := Option.some.inj h
      exact List.forall_mem_nil _

theorem takenItems_room (encoding : StringEncoding) (sectors : List (List Byte)) :
    ∀ item ∈ takenItems encoding sectors, HasRoom item.2 := by
  intro item hitem
  obtain ⟨record, -, htaken⟩ := List.mem_filterMap.mp hitem
  rw [Record.taken?, Option.ite_none_right_eq_some, Option.some.injEq] at htaken
  obtain ⟨⟨hroom, -⟩, rfl⟩ := htaken
  exact hroom

theorem overrunItems_room {encoding : StringEncoding} {image : Image} {extent : DirEntry}
    {items : List (List Byte × DirEntry)} (h : overrunItems encoding image extent = some items) :
    ∀ item ∈ items, HasRoom item.2 := by
  rw [overrunItems] at h
  simp only at h
  split at h
  · obtain rfl := Option.some.inj h
    exact List.forall_mem_nil _
  · exact bufferItems_room _ _ _ _ _ h

-- What the items of a directory are made of.
theorem dirItems_parts {encoding : StringEncoding} {image : Image} {extents : List DirEntry}
    {items : List (List Byte × DirEntry)} (h : dirItems encoding image extents = some items) :
    (∀ item ∈ items, HasRoom item.2) ∧
      (extents.flatMap fun extent => takenItems encoding (ownBlocks image extent)).length ≤
        items.length ∧
      (items.length = (extents.flatMap fun extent =>
          takenItems encoding (ownBlocks image extent)).length →
        ∀ extent ∈ extents, overrunItems encoding image extent = some []) := by
  induction extents generalizing items with
  | nil =>
      obtain rfl := Option.some.inj h
      exact ⟨List.forall_mem_nil _, Nat.le_refl _, fun _ => List.forall_mem_nil _⟩
  | cons extent extents ih =>
      rw [dirItems, Option.bind_eq_some_iff] at h
      obtain ⟨first, hfirst, hbehind⟩ := h
      obtain ⟨rest, hrest, rfl⟩ := Option.map_eq_some_iff.mp hbehind
      obtain ⟨stray, hstray, rfl⟩ := Option.map_eq_some_iff.mp hfirst
      obtain ⟨hroom, hle, hequal⟩ := ih hrest
      simp only [List.flatMap_cons, List.length_append]
      refine ⟨?_, by omega, ?_⟩
      · intro item hitem
        rcases List.mem_append.mp hitem with hitem | hitem
        · rcases List.mem_append.mp hitem with hitem | hitem
          · exact takenItems_room encoding _ item hitem
          · exact overrunItems_room hstray item hitem
        · exact hroom item hitem
      · intro hlength
        have hnil : stray = [] := List.length_eq_zero_iff.mp (by omega)
        exact List.forall_mem_cons.mpr ⟨by rw [hstray, hnil], hequal (by omega)⟩

theorem dirItems_own {encoding : StringEncoding} {image : Image} {extents : List DirEntry}
    (h : ∀ extent ∈ extents, overrunItems encoding image extent = some []) :
    dirItems encoding image extents =
      some (extents.flatMap fun extent => takenItems encoding (ownBlocks image extent)) := by
  induction extents with
  | nil => rfl
  | cons extent extents ih =>
      obtain ⟨hextent, hrest⟩ := List.forall_mem_cons.mp h
      rw [dirItems, extentItems, hextent, ih hrest]
      simp

-- A record with room is taken under its name.
theorem taken?_eq_named? {encoding : StringEncoding} {record : Record}
    (h : (record.named? encoding).isSome → HasRoom record.entry) :
    record.taken? encoding = record.named? encoding := by
  have hle : record.entry.filenameLength + dirEntrySize ≤ record.entry.filenameEnd := by
    unfold DirEntry.filenameEnd
    omega
  by_cases hroom : HasRoom record.entry
  · have hfits : record.entry.filenameLength + dirEntrySize ≤ record.entry.entryLength :=
      Nat.le_trans hle hroom
    have hroom : record.entry.filenameEnd ≤ record.entry.entryLength := hroom
    simp only [Record.taken?, Record.named?, hroom, hfits]
  · have hnone : record.named? encoding = none := by
      by_contra hsome
      exact hroom (h (Option.isSome_iff_ne_none.mpr hsome))
    rw [hnone]
    exact if_neg fun hboth => hroom hboth.1

theorem takenItems_eq {encoding : StringEncoding} {image : Image} {extent : DirEntry}
    (h : ∀ record ∈ records image extent, (record.named? encoding).isSome → HasRoom record.entry) :
    takenItems encoding (ownBlocks image extent) =
      (records image extent).filterMap (Record.named? encoding) :=
  List.filterMap_congr fun record hrecord => taken?_eq_named? (h record hrecord)

-- The listing of a directory is that of its own records exactly when the blocks behind its
-- extents have no items and every record has room for a pad byte.
theorem readDir_own_iff {encoding : StringEncoding} {image : Image} {entry : Entry}
    (hdir : entry.isDirectory = true) (hserved : ∀ extent ∈ entry.extents, Served image extent)
    (hwhole : ∀ extent ∈ entry.extents, ∀ sector ∈ ownBlocks image extent,
      WholeRecords sector 0) :
    readDir encoding image entry = some (Listing.addAll [] (ownItems encoding image entry)) ↔
      (∀ extent ∈ entry.extents, NothingBehind encoding image extent) ∧
        ∀ extent ∈ entry.extents, ∀ record ∈ records image extent,
          (record.named? encoding).isSome → HasRoom record.entry := by
  have hok : ∀ extent ∈ entry.extents, ExtentOk image extent := fun extent hextent =>
    (hserved extent hextent).extentOk (hwhole extent hextent)
  have hover : ∀ extent ∈ entry.extents, NothingBehind encoding image extent ↔
      overrunItems encoding image extent = some [] := by
    intro extent hextent
    rw [overrunItems_eq encoding (hserved extent hextent), NothingBehind]
  have hread : readDir encoding image entry =
      (dirItems encoding image entry.extents).map (Listing.addAll []) := by
    rw [readDir, if_pos hdir, readExtents_eq encoding hok]
  have htaken (hroom : ∀ extent ∈ entry.extents, ∀ record ∈ records image extent,
      (record.named? encoding).isSome → HasRoom record.entry) :
      entry.extents.flatMap (fun extent => takenItems encoding (ownBlocks image extent)) =
        ownItems encoding image entry :=
    List.flatMap_congr fun extent hextent => takenItems_eq (hroom extent hextent)
  rw [hread, Option.map_eq_some_iff]
  constructor
  · rintro ⟨items, hitems, hlisting⟩
    obtain ⟨hroom, -, hequal⟩ := dirItems_parts hitems
    have hperm := extents_of_addAll hlisting
    have hrecords : ∀ extent ∈ entry.extents, ∀ record ∈ records image extent,
        (record.named? encoding).isSome → HasRoom record.entry := by
      intro extent hextent record hrecord hsome
      obtain ⟨item, hitem⟩ := Option.isSome_iff_exists.mp hsome
      have hmem : item ∈ ownItems encoding image entry :=
        List.mem_flatMap.mpr ⟨extent, hextent, List.mem_filterMap.mpr ⟨record, hrecord, hitem⟩⟩
      obtain ⟨taken, htaken, hsame⟩ := List.mem_map.mp
        (hperm.mem_iff.mpr (List.mem_map_of_mem hmem))
      rw [Record.named?, Option.ite_none_right_eq_some, Option.some.injEq] at hitem
      rw [← hitem.2] at hsame
      have htakenRoom := hroom taken htaken
      rwa [hsame] at htakenRoom
    refine ⟨?_, hrecords⟩
    intro extent hextent
    have hlength := hperm.length_eq
    rw [List.length_map, List.length_map, ← htaken hrecords] at hlength
    exact (hover extent hextent).mpr (hequal hlength extent hextent)
  · rintro ⟨hbehind, hroom⟩
    have hown := dirItems_own fun extent hextent => (hover extent hextent).mp (hbehind extent hextent)
    exact ⟨_, hown, by rw [htaken hroom]⟩

-- A directory of eleven free blocks, with a file record in the block behind it

def freeSector : List Byte := fillSector []

def straySector : List Byte := fillSector (recordBytes (ascii "FILE.BIN;1") 30 5 0)

def strayImage : Image where
  sectors := List.replicate 11 freeSector ++ straySector :: List.replicate 8 freeSector
  length_sector := by
    intro sector hmem
    simp only [List.mem_append, List.mem_replicate, List.mem_cons] at hmem
    rcases hmem with ⟨-, rfl⟩ | rfl | ⟨-, rfl⟩ <;> exact length_fillSector _

def strayDirectory : DirEntry :=
  { entryLength := 34, lba := 0, length := 22528, flags := 2, filenameLength := 1 }

def strayFile : DirEntry :=
  { entryLength := 44, lba := 30, length := 5, flags := 0, filenameLength := 10 }

theorem freeSector_free : byteAt freeSector 0 = 0 := by decide

theorem stray_served : Served strayImage strayDirectory := by
  intro index hindex
  have hlength : strayImage.sectors.length = 20 := rfl
  have hrequest : requestedBlocks strayDirectory = 20 := by decide
  have hlba : strayDirectory.lba = 0 := rfl
  omega

theorem stray_own : ownBlocks strayImage strayDirectory = List.replicate 11 freeSector := by
  have hcount : blockCount strayDirectory = 11 := by decide
  rw [ownBlocks, hcount, Image.read]
  rfl

theorem stray_whole : ∀ sector ∈ ownBlocks strayImage strayDirectory, WholeRecords sector 0 := by
  intro sector hmem
  rw [stray_own] at hmem
  rw [List.eq_of_mem_replicate hmem]
  exact .free (by decide) freeSector_free

theorem stray_behind : behindBlocks strayImage strayDirectory =
    straySector :: List.replicate 8 freeSector := by
  have hcount : blockCount strayDirectory = 11 := by decide
  have hrequest : requestedBlocks strayDirectory = 20 := by decide
  rw [behindBlocks, hcount, hrequest, Image.read]
  rfl

theorem stray_items : dirItems .ascii strayImage [strayDirectory] =
    some [(ascii "FILE.BIN", strayFile)] := by
  have hfree : sectorRecords freeSector 0 = [] := sectorRecords_free freeSector_free
  have hrecord : Record.ofBytes straySector 0 = ⟨strayFile, ascii "FILE.BIN;1"⟩ := by decide
  have hlength : byteAt straySector 0 = 44 := by decide
  have hend : byteAt straySector 44 = 0 := by decide
  have hsector : sectorRecords straySector 0 = [⟨strayFile, ascii "FILE.BIN;1"⟩] := by
    rw [sectorRecords, if_pos (by decide), if_neg (by rw [hlength]; decide), hrecord, hlength,
      sectorRecords_free hend]
  have hwhole : ∀ sector ∈ behindBlocks strayImage strayDirectory, WholeRecords sector 0 := by
    intro sector hmem
    rw [stray_behind] at hmem
    rcases List.mem_cons.mp hmem with rfl | hmem
    · refine .record (by rw [hlength]; decide) (by decide) (by rw [hlength]; decide) ?_
      rw [hlength]
      exact .free (by decide) hend
    · rw [List.eq_of_mem_replicate hmem]
      exact .free (by decide) freeSector_free
  have hover : overrunItems .ascii strayImage strayDirectory =
      some [(ascii "FILE.BIN", strayFile)] := by
    have hown := bufferItems_own .ascii [] hwhole (fun _ hmem => length_of_read hmem) le_rfl
    have htaken : takenItems .ascii (behindBlocks strayImage strayDirectory) =
        [(ascii "FILE.BIN", strayFile)] := by
      rw [stray_behind, takenItems, List.flatMap_cons, hsector]
      have hnone : (List.replicate 8 freeSector).flatMap (sectorRecords · 0) = [] := by
        simp [hfree]
      rw [hnone]
      decide
    rw [overrunItems_eq .ascii stray_served]
    rw [List.append_nil, bufferItems_end _ _ le_rfl, htaken] at hown
    simpa using hown
  have hnone : takenItems .ascii (ownBlocks strayImage strayDirectory) = [] := by
    rw [stray_own, takenItems]
    simp [hfree]
  rw [dirItems, dirItems, extentItems, hover, hnone]
  rfl

theorem stray_listed :
    readDir .ascii strayImage { extents := [strayDirectory] } =
        some [(ascii "FILE.BIN", { extents := [strayFile] })] ∧
      ownItems .ascii strayImage { extents := [strayDirectory] } = [] := by
  have hok : ∀ extent ∈ [strayDirectory], ExtentOk strayImage extent := by
    simpa using stray_served.extentOk stray_whole
  refine ⟨?_, ?_⟩
  · rw [readDir, if_pos (by decide), readExtents_eq .ascii hok, stray_items]
    rfl
  · have hrecords : records strayImage strayDirectory = [] := by
      rw [records, show strayImage.read strayDirectory.lba (blockCount strayDirectory) = _ from
        stray_own]
      simp [sectorRecords_free freeSector_free]
    simp [ownItems, hrecords]

theorem readDir_own_iff_stray :
    readDir .ascii strayImage { extents := [strayDirectory] } =
        some (Listing.addAll [] (ownItems .ascii strayImage { extents := [strayDirectory] })) ↔
      (∀ extent ∈ [strayDirectory], NothingBehind .ascii strayImage extent) ∧
        ∀ extent ∈ [strayDirectory], ∀ record ∈ records strayImage extent,
          (record.named? .ascii).isSome → HasRoom record.entry :=
  readDir_own_iff rfl (by simpa using stray_served) (by simpa using stray_whole)

end Rpcsx.Iso
