import Rpcsx.Iso.Records

namespace Rpcsx.Iso

open Data Data.Bytes

namespace Record

-- A record that holds its identifier, with the name that it has then.
def named? (encoding : StringEncoding) (record : Record) : Option (List Byte × DirEntry) :=
  if record.entry.filenameLength + dirEntrySize ≤ record.entry.entryLength ∧
      itemName encoding record.identifier ≠ [] then
    some (itemName encoding record.identifier, record.entry)
  else none

-- What read_dir takes: there must also be room for a pad byte behind an odd identifier.
def taken? (encoding : StringEncoding) (record : Record) : Option (List Byte × DirEntry) :=
  if record.entry.filenameEnd ≤ record.entry.entryLength ∧
      itemName encoding record.identifier ≠ [] then
    some (itemName encoding record.identifier, record.entry)
  else none

end Record

-- From offset on, the block holds whole records up to its end or to the first free byte.
inductive WholeRecords (data : List Byte) : Nat → Prop where
  | full : WholeRecords data blockSize
  | free {offset : Nat} (ho : offset < blockSize) (hz : byteAt data offset = 0) :
      WholeRecords data offset
  | record {offset : Nat} (hn : byteAt data offset ≠ 0) (hh : offset + dirEntrySize ≤ blockSize)
      (fits : offset + byteAt data offset ≤ blockSize)
      (rest : WholeRecords data (offset + byteAt data offset)) : WholeRecords data offset

abbrev ownBlocks (image : Image) (extent : DirEntry) : List (List Byte) :=
  image.read extent.lba (blockCount extent)

structure ExtentOk (image : Image) (extent : DirEntry) : Prop where
  length_blocks : (ownBlocks image extent).length = blockCount extent
  sectors : ∀ sector ∈ ownBlocks image extent, WholeRecords sector 0

-- The items of the blocks that the last read of an extent brings in from behind its end.
def overrunItems (encoding : StringEncoding) (image : Image) (extent : DirEntry) :
    Option (List (List Byte × DirEntry)) :=
  let total := blockCount extent
  if total ≤ 10 ∨ total % 10 = 0 then some []
  else
    let first := extent.lba + total / 10 * 10
    let blocks := image.read first 10
    let buffer := blocks.flatten ++ (image.read (first - 10) 10).flatten.drop blocks.flatten.length
    bufferItems encoding buffer (blocks.length * blockSize) (total % 10 * blockSize)

theorem walkBuffer_eq (encoding : StringEncoding) (buffer : List Byte) (bufferSize offset : Nat)
    (listing : Listing) :
    walkBuffer encoding buffer bufferSize offset listing =
      (bufferItems encoding buffer bufferSize offset).map listing.addAll := by
  fun_induction bufferItems encoding buffer bufferSize offset generalizing listing with
  | case1 offset ho item hz ih =>
      rw [walkBuffer, if_pos ho, if_pos hz]
      exact ih listing
  | case2 offset ho item hz hl => 
      rw [walkBuffer, if_pos ho, if_neg hz, if_pos hl, Option.map_none]
  | case3 offset ho item hz hl he ih => 
      rw [walkBuffer, if_pos ho, if_neg hz, if_neg hl, if_pos he]
      exact ih listing
  | case4 offset ho item hz hl he hn ih =>
      rw [walkBuffer, if_pos ho, if_neg hz, if_neg hl, if_neg he, if_pos hn]
      exact ih listing
  | case5 offset ho item hz hl he hn hb =>
      rw [walkBuffer, if_pos ho, if_neg hz, if_neg hl, if_neg he, if_neg hn, if_pos hb, Option.map_none]
  | case6 offset ho item hz hl he hn hb filename hf ih =>
      rw [walkBuffer, if_pos ho, if_neg hz, if_neg hl, if_neg he, if_neg hn, if_neg hb, if_pos hf]
      exact ih listing
  | case7 offset ho item hz hl he hn hb filename hf ih =>
      rw [walkBuffer, if_pos ho, if_neg hz, if_neg hl, if_neg he, if_neg hn, if_neg hb, if_neg hf,
        Option.map_map]
      exact ih _
  | case8 offset ho => rw [walkBuffer, if_neg ho, Option.map_some, Listing.addAll, List.foldl_nil]

theorem bufferItems_end (encoding : StringEncoding) (buffer : List Byte)
    {bufferSize offset : Nat} (h : bufferSize ≤ offset) :
    bufferItems encoding buffer bufferSize offset = some [] := by
  rw [bufferItems, if_neg (by omega)]

@[simp] theorem DirEntry.ofBytes_entryLength (bytes : List Byte) (offset : Nat) :
    (DirEntry.ofBytes bytes offset).entryLength = byteAt bytes offset := rfl

@[simp] theorem DirEntry.ofBytes_filenameLength (bytes : List Byte) (offset : Nat) :
    (DirEntry.ofBytes bytes offset).filenameLength = byteAt bytes (offset + 32) := rfl

-- Reading inside the middle part of a buffer.
section Inside

variable (left middle right : List Byte) {offset count : Nat}

theorem byteAt_inside (h : offset < middle.length) :
    byteAt (left ++ (middle ++ right)) (left.length + offset) = byteAt middle offset := by
  unfold byteAt
  rw [List.getD_eq_getElem?_getD, List.getD_eq_getElem?_getD,
    List.getElem?_append_right (Nat.le_add_right _ _), Nat.add_sub_cancel_left,
    List.getElem?_append_left h]

theorem slice_inside (h : offset + count ≤ middle.length) :
    slice (left ++ (middle ++ right)) (left.length + offset) count = slice middle offset count := by
  unfold slice
  rw [List.drop_append, Nat.add_sub_cancel_left, List.drop_of_length_le (Nat.le_add_right _ _),
    List.nil_append, List.drop_append_of_le_length (by omega),
    List.take_append_of_le_length (by simp only [List.length_drop]; omega)]

theorem ofBytes_inside (h : offset + dirEntrySize ≤ middle.length) :
    DirEntry.ofBytes (left ++ (middle ++ right)) (left.length + offset) =
      DirEntry.ofBytes middle offset := by
  unfold dirEntrySize at h
  simp only [DirEntry.ofBytes, Nat.add_assoc, DirEntry.mk.injEq]
  refine ⟨byteAt_inside _ _ _ (by omega), ?_, ?_, byteAt_inside _ _ _ (by omega),
    byteAt_inside _ _ _ (by omega)⟩
  · rw [slice_inside _ _ _ (by omega)]
  · rw [slice_inside _ _ _ (by omega)]

end Inside

theorem sectorRecords_free {data : List Byte} {offset : Nat} (hz : byteAt data offset = 0) :
    sectorRecords data offset = [] := by
  rw [sectorRecords]
  simp [hz]

theorem sectorRecords_full (data : List Byte) : sectorRecords data blockSize = [] := by
  rw [sectorRecords, if_neg (Nat.lt_irrefl _)]

section Walk

variable (encoding : StringEncoding) {left sector : List Byte} (right : List Byte) {bufferSize index offset : Nat}

-- One record of the middle sector.
theorem bufferItems_record (hn : byteAt sector offset ≠ 0) (hh : offset + dirEntrySize ≤ blockSize)
    (fits : offset + byteAt sector offset ≤ blockSize) (hl : sector.length = blockSize)
    (hs : left.length + blockSize ≤ bufferSize) :
    bufferItems encoding (left ++ (sector ++ right)) bufferSize (left.length + offset) =
      (bufferItems encoding (left ++ (sector ++ right)) bufferSize
        (left.length + (offset + byteAt sector offset))).map
          (((Record.ofBytes sector offset).taken? encoding).toList ++ ·) := by
  have hitem : DirEntry.ofBytes (left ++ (sector ++ right)) (left.length + offset) =
      DirEntry.ofBytes sector offset := ofBytes_inside _ _ _ (by rw [hl]; exact hh)
  have hbuf : (left ++ (sector ++ right)).length = left.length + blockSize + right.length := by
    simp only [List.length_append, hl]
    omega
  have hend : left.length + (offset + byteAt sector offset) =
      left.length + offset + byteAt sector offset := by omega
  rw [bufferItems, if_pos (by unfold dirEntrySize at hh; omega), hend]
  simp only [hitem, hbuf, DirEntry.ofBytes_entryLength, DirEntry.ofBytes_filenameLength]
  rw [if_neg hn, if_neg (by omega)]
  by_cases hroom : byteAt sector offset < (DirEntry.ofBytes sector offset).filenameEnd
  · have htaken : (Record.ofBytes sector offset).taken? encoding = none := by
      refine if_neg fun h => ?_
      have hle : (DirEntry.ofBytes sector offset).filenameEnd ≤ byteAt sector offset := h.1
      omega
    rw [if_pos hroom, htaken]
    simp
  · have hfilename : (DirEntry.ofBytes sector offset).filenameEnd =
        dirEntrySize + (byteAt sector (offset + 32) + 1) / 2 * 2 := rfl
    have hlen : byteAt sector (offset + 32) + dirEntrySize ≤ byteAt sector offset := by omega
    have hname : slice (left ++ (sector ++ right)) (left.length + offset + dirEntrySize)
        (byteAt sector (offset + 32)) = (Record.ofBytes sector offset).identifier := by
      rw [Nat.add_assoc, slice_inside _ _ _ (by omega)]
      rfl
    rw [if_neg hroom]
    by_cases hzero : byteAt sector (offset + 32) = 0
    · have hnil : itemName encoding (Record.ofBytes sector offset).identifier = [] := by
        have hid : (Record.ofBytes sector offset).identifier = [] := by
          simp [Record.ofBytes, slice, hzero]
        rw [hid]
        cases encoding <;> rfl
      have htaken : (Record.ofBytes sector offset).taken? encoding = none :=
        if_neg fun h => h.2 hnil
      rw [if_pos (.inl hzero), htaken]
      simp
    · rw [if_neg (by omega), if_neg (by omega), hname]
      by_cases hf : itemName encoding (Record.ofBytes sector offset).identifier = []
      · have htaken : (Record.ofBytes sector offset).taken? encoding = none :=
          if_neg fun h => h.2 hf
        rw [if_pos hf, htaken]
        simp
      · have htaken : (Record.ofBytes sector offset).taken? encoding =
            some (itemName encoding (Record.ofBytes sector offset).identifier,
              DirEntry.ofBytes sector offset) :=
          if_pos ⟨Nat.le_of_not_lt hroom, hf⟩
        rw [if_neg hf, htaken]
        rfl

-- The rest of the middle sector, up to the next block.
theorem bufferItems_sector (hk : WholeRecords sector offset) (hl : sector.length = blockSize)
    (hs : left.length + blockSize ≤ bufferSize) (hleft : left.length = index * blockSize) :
    bufferItems encoding (left ++ (sector ++ right)) bufferSize (left.length + offset) =
      (bufferItems encoding (left ++ (sector ++ right)) bufferSize (left.length + blockSize)).map
        ((sectorRecords sector offset).filterMap (Record.taken? encoding) ++ ·) := by
  induction hk with
  | full => simp [sectorRecords_full]
  | @free offset ho hz =>
      have hb : byteAt (left ++ (sector ++ right)) (left.length + offset) = 0 := by
        rw [byteAt_inside _ _ _ (by omega), hz]
      have hnext : (left.length + offset + blockSize) / blockSize * blockSize =
          left.length + blockSize := by
        rw [hleft, show index * blockSize + offset + blockSize = offset + blockSize * (index + 1) by
          rw [Nat.mul_succ, Nat.mul_comm index]; omega, Nat.add_mul_div_left _ _ (by decide),
          Nat.div_eq_of_lt ho]
        rw [Nat.zero_add, Nat.succ_mul]
      rw [bufferItems, if_pos (by omega)]
      simp only [DirEntry.ofBytes_entryLength, hb, if_true, hnext, sectorRecords_free hz]
      simp
  | @record offset hn hh fits rest ih =>
      have hrecords : sectorRecords sector offset = Record.ofBytes sector offset ::
          sectorRecords sector (offset + byteAt sector offset) := by
        rw [sectorRecords, if_pos (by unfold dirEntrySize at hh; omega), if_neg hn]
      rw [bufferItems_record encoding right hn hh fits hl hs, ih, hrecords, Option.map_map]
      congr 1
      funext items
      cases hi : (Record.ofBytes sector offset).taken? encoding with
      | none => simp [hi]
      | some item => simp [hi]

-- Any number of whole sectors.
theorem bufferItems_sectors (sectors : List (List Byte)) (left : List Byte) (index : Nat)
    (hk : ∀ sector ∈ sectors, WholeRecords sector 0)
    (hl : ∀ sector ∈ sectors, sector.length = blockSize)
    (hs : left.length + sectors.length * blockSize ≤ bufferSize)
    (hleft : left.length = index * blockSize) :
    bufferItems encoding (left ++ (sectors.flatten ++ right)) bufferSize left.length =
      (bufferItems encoding (left ++ (sectors.flatten ++ right)) bufferSize
        (left.length + sectors.length * blockSize)).map
          ((sectors.flatMap (sectorRecords · 0)).filterMap (Record.taken? encoding) ++ ·) := by
  induction sectors generalizing left index with
  | nil => simp
  | cons sector sectors ih =>
      have hlen := hl sector (by simp)
      have hbuf : left ++ ((sector :: sectors).flatten ++ right) =
          left ++ (sector ++ (sectors.flatten ++ right)) := by simp
      have hbuf' : left ++ (sector ++ (sectors.flatten ++ right)) =
          (left ++ sector) ++ (sectors.flatten ++ right) := by simp
      have hl' : (left ++ sector).length = left.length + blockSize := by simp [hlen]
      simp only [List.length_cons, Nat.succ_mul] at hs
      have hfirst := bufferItems_sector encoding (sectors.flatten ++ right) (hk sector (by simp))
        hlen
        (show left.length + blockSize ≤ bufferSize by omega) hleft
      have hrest := ih (left ++ sector) (index + 1) (fun s h => hk s (by simp [h]))
        (fun s h => hl s (by simp [h])) (by rw [hl']; omega) (by rw [hl', hleft, Nat.succ_mul])
      rw [Nat.add_zero] at hfirst
      rw [hl', ← hbuf'] at hrest
      rw [hbuf, hfirst, hrest, Option.map_map, List.length_cons, Nat.succ_mul,
        Nat.add_comm (sectors.length * blockSize), ← Nat.add_assoc]
      congr 1
      funext items
      simp

end Walk

theorem Listing.addAll_append (listing : Listing) (left right : List (List Byte × DirEntry)) :
    listing.addAll (left ++ right) = (listing.addAll left).addAll right := List.foldl_append

section Read

variable {image : Image} {start total index count : Nat}

theorem read_within (h : index + count ≤ total) :
    image.read (start + index) count = ((image.read start total).drop index).take count := by
  unfold Image.read
  rw [List.drop_take, List.drop_drop, List.take_take, Nat.min_eq_left (by omega)]

theorem read_past (h : total ≤ index + count) :
    (image.read (start + index) count).take (total - index) =
      (image.read start total).drop index := by
  unfold Image.read
  rw [List.drop_take, List.drop_drop, List.take_take, Nat.min_eq_left (by omega)]

theorem length_of_read {sector : List Byte} (h : sector ∈ image.read start count) :
    sector.length = blockSize :=
  image.length_sector sector (List.mem_of_mem_drop (List.mem_of_mem_take h))

theorem length_flatten_read :
    (image.read start count).flatten.length = (image.read start count).length * blockSize := by
  rw [List.length_flatten, List.map_eq_replicate_iff.mpr fun _ h => length_of_read h,
    List.sum_replicate_nat]

end Read

section ReadBlocks

variable (encoding : StringEncoding) {image : Image} {extent : DirEntry}

def takenItems (encoding : StringEncoding) (sectors : List (List Byte)) :
    List (List Byte × DirEntry) :=
  (sectors.flatMap (sectorRecords · 0)).filterMap (Record.taken? encoding)

theorem takenItems_append (left right : List (List Byte)) :
    takenItems encoding (left ++ right) =
      takenItems encoding left ++ takenItems encoding right := by
  simp [takenItems]

-- A buffer that begins with sectors of the extent.
theorem bufferItems_own {sectors : List (List Byte)} (right : List Byte) {bufferSize : Nat}
    (hk : ∀ sector ∈ sectors, WholeRecords sector 0)
    (hl : ∀ sector ∈ sectors, sector.length = blockSize)
    (hs : sectors.length * blockSize ≤ bufferSize) :
    bufferItems encoding (sectors.flatten ++ right) bufferSize 0 =
      (bufferItems encoding (sectors.flatten ++ right) bufferSize
        (sectors.length * blockSize)).map (takenItems encoding sectors ++ ·) := by
  have h := bufferItems_sectors encoding right sectors [] 0 hk hl
    (show ([] : List Byte).length + sectors.length * blockSize ≤ bufferSize by simpa using hs)
    (by simp)
  simpa [takenItems] using h

variable (hd : ExtentOk image extent)
include hd

theorem length_drop_own (index : Nat) :
    ((ownBlocks image extent).drop index).length =
      blockCount extent - index := by
  rw [List.length_drop, hd.length_blocks]

-- The round that reads only blocks of the extent.
theorem readBlocks_round {index count : Nat} (hc : 0 < count)
    (h : index + count ≤ blockCount extent) {buffer : List Byte}
    (hb : buffer.length = count * blockSize) (listing : Listing) :
    readBlocks encoding image count (extent.lba + blockCount extent) (extent.lba + index)
      buffer listing =
    readBlocks encoding image count (extent.lba + blockCount extent)
      (extent.lba + (index + count)) (image.read (extent.lba + index) count).flatten
      (listing.addAll (takenItems encoding (image.read (extent.lba + index) count))) := by
  have hread : image.read (extent.lba + index) count = _ := read_within h
  have hlen : (image.read (extent.lba + index) count).length = count := by
    rw [hread, List.length_take, length_drop_own hd]
    omega
  have hk : ∀ sector ∈ image.read (extent.lba + index) count, WholeRecords sector 0 := by
    intro sector hmem
    rw [hread] at hmem
    exact hd.sectors sector (List.mem_of_mem_drop (List.mem_of_mem_take hmem))
  have hitems := bufferItems_own encoding [] hk (fun _ hmem => length_of_read hmem)
    (Nat.le_of_eq (congrArg (· * blockSize) hlen))
  rw [hlen, bufferItems_end _ _ (Nat.le_refl (count * blockSize))] at hitems
  have hrest : buffer.drop (image.read (extent.lba + index) count).flatten.length = [] := by
    rw [length_flatten_read, hlen, ← hb, List.drop_length]
  rw [readBlocks, if_pos (by omega)]
  simp only [hlen, Nat.pos_iff_ne_zero.mp hc, if_false, hrest, walkBuffer_eq, hitems]
  simp [Nat.add_assoc]

-- The round that goes on behind the extent, and is the last one.
theorem readBlocks_last {index : Nat} (hi : index < blockCount extent)
    (h : blockCount extent ≤ index + 10) (buffer : List Byte) (listing : Listing) :
    readBlocks encoding image 10 (extent.lba + blockCount extent) (extent.lba + index)
      buffer listing =
    (bufferItems encoding
      ((image.read (extent.lba + index) 10).flatten ++
        buffer.drop (image.read (extent.lba + index) 10).flatten.length)
      ((image.read (extent.lba + index) 10).length * blockSize)
      ((blockCount extent - index) * blockSize)).map fun items =>
        listing.addAll (takenItems encoding
          ((ownBlocks image extent).drop index) ++ items) := by
  have hown : (image.read (extent.lba + index) 10).take _ = _ := read_past h
  have hlen := congrArg List.length hown
  rw [length_drop_own hd, List.length_take] at hlen
  obtain ⟨others, hsplit⟩ : ∃ others, image.read (extent.lba + index) 10 =
      (ownBlocks image extent).drop index ++ others :=
    ⟨_, by rw [← hown, List.take_append_drop]⟩
  generalize hblocks : image.read (extent.lba + index) 10 = blocks at *
  have hitems := bufferItems_own encoding
    (others.flatten ++ buffer.drop blocks.flatten.length)
    (fun sector hmem => hd.sectors sector (List.mem_of_mem_drop hmem))
    (fun sector hmem => length_of_read (List.mem_of_mem_drop hmem))
    (show ((ownBlocks image extent).drop index).length * blockSize ≤
      blocks.length * blockSize by
        rw [hsplit, List.length_append]
        exact Nat.mul_le_mul_right _ (Nat.le_add_right _ _))
  rw [← List.append_assoc, ← List.flatten_append, ← hsplit, length_drop_own hd] at hitems
  rw [readBlocks, if_pos (by omega)]
  simp only [hblocks]
  rw [if_neg (by omega), walkBuffer_eq, hitems]
  cases hstray : bufferItems encoding (blocks.flatten ++ buffer.drop blocks.flatten.length)
      (blocks.length * blockSize) ((blockCount extent - index) * blockSize) with
  | none => rfl
  | some items =>
      simp only [Option.map_some]
      rw [readBlocks, if_neg (by omega)]

-- The rounds from one block of the extent on.
theorem readBlocks_eq {count index : Nat} (hcount : count = min (blockCount extent) 10)
    (hc : 0 < count) (hi : index ≤ blockCount extent) (hmul : count ∣ index)
    {buffer : List Byte} (hb : buffer.length = count * blockSize)
    (hprev : 0 < index → buffer = (image.read (extent.lba + index - count) count).flatten)
    (listing : Listing) :
    readBlocks encoding image count (extent.lba + blockCount extent) (extent.lba + index)
      buffer listing =
    (overrunItems encoding image extent).map fun stray =>
      listing.addAll (takenItems encoding
        ((ownBlocks image extent).drop index) ++ stray) := by
  induction hn : blockCount extent - index using Nat.strong_induction_on
    generalizing index buffer listing with
  | _ n ih =>
    obtain ⟨rounds, hrounds⟩ := hmul
    rcases Nat.lt_or_ge index (blockCount extent) with hlt | hge
    · rcases Nat.lt_or_ge (blockCount extent) (index + count) with hpast | hwithin
      · -- The buffer is shorter than the extent only when it has ten blocks.
        have hten : count = 10 := by
          by_contra hne
          have hall : count = blockCount extent := by omega
          cases rounds with
          | zero => omega
          | succ rounds => rw [hrounds, Nat.mul_succ] at hlt; omega
        subst hten
        have hfirst : blockCount extent / 10 * 10 = index := by omega
        have hmod : blockCount extent % 10 = blockCount extent - index := by omega
        have hpos : 0 < index := by omega
        rw [readBlocks_last encoding hd hlt (by omega), hprev hpos, overrunItems,
          if_neg (by omega), hfirst, hmod]
      · have hround := readBlocks_round encoding hd hc hwithin hb listing
        have hread : image.read (extent.lba + index) count = _ := read_within hwithin
        have hlen : (image.read (extent.lba + index) count).length = count := by
          rw [hread, List.length_take, length_drop_own hd]
          omega
        have hbuf : (image.read (extent.lba + index) count).flatten.length =
            count * blockSize := by rw [length_flatten_read, hlen]
        have hsplit : (ownBlocks image extent).drop index =
            image.read (extent.lba + index) count ++
              (ownBlocks image extent).drop (index + count) := by
          rw [hread, ← List.drop_drop, List.take_append_drop]
        rw [hround, ih _ (by omega) hwithin ⟨rounds + 1, by rw [hrounds, Nat.mul_succ]⟩ hbuf
          (fun _ => by rw [← Nat.add_assoc, Nat.add_sub_cancel]) _ rfl, hsplit]
        simp only [takenItems_append, List.append_assoc, Listing.addAll_append]
    · have hend : index = blockCount extent := by omega
      have hstray : overrunItems encoding image extent = some [] := by
        apply if_pos
        by_cases hle : blockCount extent ≤ 10
        · exact Or.inl hle
        · have hten : count = 10 := by omega
          rw [hten] at hrounds
          exact Or.inr (by omega)
      rw [readBlocks, if_neg (by omega), hstray, hend,
        List.drop_of_length_le (Nat.le_of_eq hd.length_blocks)]
      simp [takenItems, Listing.addAll]

end ReadBlocks

-- Everything read_dir takes from one extent, in its order.
def extentItems (encoding : StringEncoding) (image : Image) (extent : DirEntry) :
    Option (List (List Byte × DirEntry)) :=
  (overrunItems encoding image extent).map (takenItems encoding (ownBlocks image extent) ++ ·)

theorem readExtents_cons (encoding : StringEncoding) {image : Image} {extent : DirEntry}
    (hok : ExtentOk image extent) (rest : List DirEntry) (listing : Listing) :
    readExtents encoding image (extent :: rest) listing =
      (extentItems encoding image extent).bind fun items =>
        readExtents encoding image rest (listing.addAll items) := by
  have hblocks : (extent.length + blockSize - 1) / blockSize = blockCount extent := rfl
  rw [readExtents, hblocks]
  by_cases hz : min (blockCount extent) 10 = 0
  · have hcount : blockCount extent = 0 := by omega
    have hover : overrunItems encoding image extent = some [] := if_pos (Or.inl (by omega))
    rw [if_pos hz, extentItems, hover, ownBlocks, hcount]
    simp [Image.read, takenItems, Listing.addAll]
  · have h := readBlocks_eq encoding hok rfl (Nat.pos_of_ne_zero hz) (Nat.zero_le _) ⟨0, rfl⟩
      (List.length_replicate (a := (0 : Byte))) (fun h => absurd h (Nat.lt_irrefl 0)) listing
    rw [Nat.add_zero] at h
    rw [if_neg hz, h, extentItems, List.drop_zero]
    cases overrunItems encoding image extent with
    | none => rfl
    | some items => rfl

-- The items of all extents, or none where one of them runs out of the buffer.
def dirItems (encoding : StringEncoding) (image : Image) :
    List DirEntry → Option (List (List Byte × DirEntry))
  | [] => some []
  | extent :: rest =>
      (extentItems encoding image extent).bind fun items =>
        (dirItems encoding image rest).map (items ++ ·)

theorem readExtents_eq (encoding : StringEncoding) {image : Image} {extents : List DirEntry}
    (hok : ∀ extent ∈ extents, ExtentOk image extent) (listing : Listing) :
    readExtents encoding image extents listing =
      (dirItems encoding image extents).map listing.addAll := by
  induction extents generalizing listing with
  | nil => rfl
  | cons extent rest ih =>
      obtain ⟨hextent, hrest⟩ := List.forall_mem_cons.mp hok
      rw [readExtents_cons encoding hextent, dirItems]
      cases extentItems encoding image extent with
      | none => rfl
      | some items =>
          rw [Option.bind_some, Option.bind_some, ih hrest, Option.map_map]
          congr 1
          funext behind
          exact (Listing.addAll_append listing items behind).symm

end Rpcsx.Iso
