import Rpcsx.Iso

namespace Rpcsx.Iso

open Data Data.Bytes

-- What the blocks of a device hold, and how many of the requested blocks a read delivers.
structure BlockDev (σ : Type) where
  blockSize : Nat
  block : Nat → List Byte
  read : Nat → Nat → σ → Nat × σ
  blockSize_pos : 0 < blockSize
  length_block : ∀ index, (block index).length = blockSize
  read_le : ∀ index count state, (read index count state).1 ≤ count

def BlockDev.bytes {σ : Type} (dev : BlockDev σ) (index count : Nat) : List Byte :=
  (List.range count).flatMap fun i => dev.block (index + i)

section Bytes

variable {σ : Type} {dev : BlockDev σ}

theorem length_bytes (index count : Nat) :
    (dev.bytes index count).length = count * dev.blockSize := by
  rw [BlockDev.bytes, List.length_flatMap]
  simp [dev.length_block]

theorem bytes_add (index count more : Nat) :
    dev.bytes index (count + more) = dev.bytes index count ++ dev.bytes (index + count) more := by
  rw [BlockDev.bytes, List.range_add, List.flatMap_append, List.flatMap_map, BlockDev.bytes,
    BlockDev.bytes]
  simp only [Nat.add_assoc]

theorem bytes_one (index : Nat) : dev.bytes index 1 = dev.block index := by
  simp [BlockDev.bytes]

-- Whole blocks inside a run of blocks.
theorem slice_blocks {index first count total : Nat} (h : first + count ≤ total) :
    slice (dev.bytes index total) (first * dev.blockSize) (count * dev.blockSize) =
      dev.bytes (index + first) count := by
  obtain ⟨rest, rfl⟩ := Nat.exists_eq_add_of_le h
  rw [bytes_add, bytes_add, List.append_assoc]
  exact slice_append _ _ _ (length_bytes _ _).symm (length_bytes _ _).symm

-- A part of one block.
theorem slice_block {index first total offset count : Nat} (hfirst : first < total)
    (hoffset : offset + count ≤ dev.blockSize) :
    slice (dev.bytes index total) (first * dev.blockSize + offset) count =
      slice (dev.block (index + first)) offset count := by
  obtain ⟨rest, rfl⟩ := Nat.exists_eq_add_of_le (Nat.succ_le_of_lt hfirst)
  have hblock := dev.length_block (index + first)
  rw [Nat.succ_eq_add_one, Nat.add_assoc, bytes_add, bytes_add, bytes_one]
  have hfront : (dev.bytes index first).length = first * dev.blockSize := length_bytes _ _
  rw [slice, List.drop_append, hfront, Nat.add_sub_cancel_left,
    List.drop_of_length_le (by rw [hfront]; exact Nat.le_add_right _ _), List.nil_append]
  exact slice_of_le_length (by rw [hblock]; exact hoffset)

theorem slice_take {bytes : List Byte} {offset count limit : Nat} (h : offset + count ≤ limit) :
    slice (bytes.take limit) offset count = slice bytes offset count := by
  rw [slice, slice, List.drop_take, List.take_take, Nat.min_eq_left (by omega)]

theorem slice_add (bytes : List Byte) (offset count more : Nat) :
    slice bytes offset (count + more) =
      slice bytes offset count ++ slice bytes (offset + count) more := by
  rw [slice, List.take_add, List.drop_drop]
  rfl

end Bytes

section FileView

variable {σ : Type} (dev : BlockDev σ) (extents : List DirEntry)

def extentAt : List DirEntry → Nat → Option (DirEntry × Nat)
  | [], _ => none
  | extent :: rest, offset =>
      if offset < extent.length then some (extent, offset)
      else extentAt rest (offset - extent.length)

def fileSize (extents : List DirEntry) : Nat := (extents.map DirEntry.length).sum

-- One round of the loop of read_at: the bytes read, whether the loop goes on, and the device.
def readPiece (extent : DirEntry) (extentOffset remaining : Nat) (state : σ) :
    List Byte × Bool × σ :=
  let blockIndex := extentOffset / dev.blockSize
  let blockOffset := extentOffset % dev.blockSize
  let firstLba := extent.lba
  if blockOffset = 0 ∧ dev.blockSize ≤ remaining then
    let blockCount := min (remaining / dev.blockSize) 64
    let readBlocks := dev.read (firstLba + blockIndex) blockCount state
    if readBlocks.1 = 0 then ([], false, readBlocks.2)
    else
      (dev.bytes (firstLba + blockIndex) readBlocks.1, !decide (readBlocks.1 < blockCount),
        readBlocks.2)
  else
    let readBlocks := dev.read (firstLba + blockIndex) 1 state
    if readBlocks.1 ≠ 1 then ([], false, readBlocks.2)
    else
      let chunk := min remaining (dev.blockSize - blockOffset)
      (slice (dev.block (firstLba + blockIndex)) blockOffset chunk, true, readBlocks.2)

theorem extentAt_lt {extents : List DirEntry} {offset : Nat} {found : DirEntry × Nat}
    (h : extentAt extents offset = some found) : found.2 < found.1.length := by
  induction extents generalizing offset with
  | nil => cases h
  | cons extent rest ih =>
      rw [extentAt] at h
      split at h
      · obtain rfl := Option.some.inj h
        assumption
      · exact ih h

-- A round that goes on has read something.
theorem readPiece_pos {extent : DirEntry} {extentOffset remaining : Nat} (hpos : 0 < remaining)
    (state : σ) (h : (readPiece dev extent extentOffset remaining state).2.1 = true) :
    0 < (readPiece dev extent extentOffset remaining state).1.length := by
  have hsize := dev.blockSize_pos
  have hmod := Nat.mod_lt extentOffset hsize
  simp only [readPiece] at h ⊢
  split at h
  · next hbulk =>
      rw [if_pos hbulk]
      split at h
      · cases h
      · next hread =>
          rw [if_neg hread, length_bytes]
          exact Nat.mul_pos (Nat.pos_of_ne_zero hread) hsize
  · next hbulk =>
      rw [if_neg hbulk]
      split at h
      · cases h
      · next hread =>
          rw [if_neg hread, length_slice, dev.length_block]
          omega

-- The loop of read_at. The length of the data read so far is total in the source.
def readLoop (offset readable : Nat) (data : List Byte) (state : σ) : List Byte × σ :=
  if data.length < readable then
    match _hfound : extentAt extents (offset + data.length) with
    | none => (data, state)
    | some found =>
        let remaining := min (readable - data.length) (found.1.length - found.2)
        let piece := readPiece dev found.1 found.2 remaining state
        if piece.2.1 = true then readLoop offset readable (data ++ piece.1) piece.2.2
        else (data ++ piece.1, piece.2.2)
  else (data, state)
termination_by readable - data.length
decreasing_by
  have hlt := extentAt_lt _hfound
  have hremaining : 0 < min (readable - data.length) (found.1.length - found.2) := by omega
  have hgrows := readPiece_pos dev hremaining state (by assumption)
  rw [List.length_append]
  omega

-- iso_file_view::read_at with a buffer, the delivered bytes.
def readAt (offset count : Nat) (state : σ) : List Byte × σ :=
  if count = 0 then ([], state)
  else if fileSize extents ≤ offset then ([], state)
  else readLoop dev extents offset (min count (fileSize extents - offset)) [] state

-- iso_file_view::read
def readNext (count pos : Nat) (state : σ) : List Byte × Nat × σ :=
  let result := readAt dev extents pos count state
  (result.1, pos + result.1.length, result.2)

-- Reads one after the other, and the position behind them.
def readAll : List Nat → Nat → σ → List (List Byte) × Nat × σ
  | [], pos, state => ([], pos, state)
  | count :: rest, pos, state =>
      let result := readNext dev extents count pos state
      let behind := readAll rest result.2.1 result.2.2
      (result.1 :: behind.1, behind.2)

-- The blocks of an extent, and the bytes of the file in them.
def blocksOf (extent : DirEntry) : Nat := (extent.length + dev.blockSize - 1) / dev.blockSize

def extentBytes (extent : DirEntry) : List Byte :=
  (dev.bytes extent.lba (blocksOf dev extent)).take extent.length

def content : List Byte := extents.flatMap (extentBytes dev)

-- The device returns all blocks of the extents that are requested.
def DevServes : Prop := ∀ extent ∈ extents, ∀ index count state,
  index + count ≤ blocksOf dev extent → (dev.read (extent.lba + index) count state).1 = count

end FileView

section Content

variable {σ : Type} {dev : BlockDev σ} {extents : List DirEntry}

theorem length_le_blocks (dev : BlockDev σ) (extent : DirEntry) :
    extent.length ≤ blocksOf dev extent * dev.blockSize := by
  have hpos := dev.blockSize_pos
  have hdiv : extent.length + dev.blockSize - 1 < blocksOf dev extent * dev.blockSize +
      dev.blockSize := Nat.lt_div_mul_add hpos
  omega

theorem length_extentBytes (extent : DirEntry) :
    (extentBytes dev extent).length = extent.length := by
  rw [extentBytes, List.length_take, length_bytes, Nat.min_eq_left (length_le_blocks dev extent)]

theorem length_content (dev : BlockDev σ) (extents : List DirEntry) :
    (content dev extents).length = fileSize extents := by
  rw [content, List.length_flatMap, fileSize]
  simp only [length_extentBytes]

theorem extentAt_none {offset : Nat} (h : extentAt extents offset = none) :
    fileSize extents ≤ offset := by
  induction extents generalizing offset with
  | nil => exact Nat.zero_le _
  | cons extent rest ih =>
      rw [extentAt] at h
      split at h
      · cases h
      · have hrest := ih h
        rw [fileSize] at hrest
        rw [fileSize, List.map_cons, List.sum_cons]
        omega

-- The bytes of the file from an offset on are those of the extent found for it.
theorem extentAt_some (dev : BlockDev σ) {offset : Nat} {found : DirEntry × Nat}
    (h : extentAt extents offset = some found) : found.1 ∈ extents ∧
      ∀ count, found.2 + count ≤ found.1.length →
        slice (content dev extents) offset count =
          slice (extentBytes dev found.1) found.2 count := by
  induction extents generalizing offset with
  | nil => cases h
  | cons extent rest ih =>
      have hcontent : content dev (extent :: rest) = extentBytes dev extent ++ content dev rest := rfl
      have hlength : (extentBytes dev extent).length = extent.length := length_extentBytes extent
      rw [extentAt] at h
      split at h
      · obtain rfl := Option.some.inj h
        refine ⟨List.mem_cons_self, fun count hcount => ?_⟩
        rw [hcontent]
        exact slice_of_le_length (by rw [hlength]; exact hcount)
      · next hlt =>
          obtain ⟨hmem, hslice⟩ := ih h
          refine ⟨List.mem_cons_of_mem extent hmem, fun count hcount => ?_⟩
          rw [← hslice count hcount, hcontent, slice, slice, List.drop_append,
            List.drop_of_length_le (by omega), List.nil_append, hlength]

-- What one round reads is the next part of the extent.
theorem readPiece_spec (dev : BlockDev σ) {extent : DirEntry} {extentOffset remaining : Nat} (hpos : 0 < remaining)
    (hremaining : extentOffset + remaining ≤ extent.length) (state : σ) :
    ∃ count ≤ remaining, (readPiece dev extent extentOffset remaining state).1 =
      slice (extentBytes dev extent) extentOffset count := by
  have hsize := dev.blockSize_pos
  have hdiv := Nat.div_add_mod extentOffset dev.blockSize
  have hmod := Nat.mod_lt extentOffset hsize
  have hblocks := length_le_blocks dev extent
  rw [Nat.mul_comm] at hdiv
  simp only [readPiece]
  split
  · next hbulk =>
      split
      · exact ⟨0, Nat.zero_le _, by simp [slice]⟩
      · next hread =>
          generalize hcount : (dev.read (extent.lba + extentOffset / dev.blockSize)
            (min (remaining / dev.blockSize) 64) state).1 = count at hread
          have hle : count ≤ min (remaining / dev.blockSize) 64 := hcount ▸ dev.read_le _ _ _
          have hfits : count * dev.blockSize ≤ remaining :=
            (Nat.mul_le_mul_right _ (Nat.le_trans hle (Nat.min_le_left _ _))).trans
              (Nat.div_mul_le_self _ _)
          refine ⟨count * dev.blockSize, hfits, ?_⟩
          have hinside : extentOffset / dev.blockSize + count ≤ blocksOf dev extent := by
            have hmul : (extentOffset / dev.blockSize + count) * dev.blockSize ≤
                blocksOf dev extent * dev.blockSize := by
              rw [Nat.add_mul]
              omega
            exact Nat.le_of_mul_le_mul_right hmul hsize
          have hstart : extentOffset / dev.blockSize * dev.blockSize = extentOffset := by
            rw [hbulk.1, Nat.add_zero] at hdiv
            exact hdiv
          rw [extentBytes, slice_take (by omega), ← slice_blocks hinside, hstart]
  · next hbulk =>
      split
      · exact ⟨0, Nat.zero_le _, by simp [slice]⟩
      · next hread =>
          refine ⟨min remaining (dev.blockSize - extentOffset % dev.blockSize), Nat.min_le_left _ _, ?_⟩
          have hinside : extentOffset / dev.blockSize < blocksOf dev extent := by
            rw [Nat.div_lt_iff_lt_mul hsize]
            omega
          rw [extentBytes, slice_take (by omega), ← slice_block hinside (by omega), hdiv]

-- A device that returns all blocks never ends the loop early.
theorem readPiece_serves (hserves : DevServes dev extents) {extent : DirEntry}
    (hextent : extent ∈ extents) {extentOffset remaining : Nat} (hpos : 0 < remaining)
    (hremaining : extentOffset + remaining ≤ extent.length) (state : σ) :
    (readPiece dev extent extentOffset remaining state).2.1 = true := by
  have hsize := dev.blockSize_pos
  have hdiv := Nat.div_add_mod extentOffset dev.blockSize
  have hblocks := length_le_blocks dev extent
  rw [Nat.mul_comm] at hdiv
  simp only [readPiece]
  split
  · next hbulk =>
      have hone : 1 ≤ remaining / dev.blockSize := (Nat.one_le_div_iff hsize).mpr hbulk.2
      have hread : (dev.read (extent.lba + extentOffset / dev.blockSize)
          (min (remaining / dev.blockSize) 64) state).1 = min (remaining / dev.blockSize) 64 := by
        refine hserves extent hextent _ _ _ ?_
        have hfits := Nat.div_mul_le_self remaining dev.blockSize
        have hmul : (extentOffset / dev.blockSize + min (remaining / dev.blockSize) 64) *
            dev.blockSize ≤ blocksOf dev extent * dev.blockSize := by
          have hmin := Nat.mul_le_mul_right dev.blockSize
            (Nat.min_le_left (remaining / dev.blockSize) 64)
          rw [Nat.add_mul]
          omega
        exact Nat.le_of_mul_le_mul_right hmul hsize
      rw [hread, if_neg (by omega)]
      simp
  · next hbulk =>
      have hread : (dev.read (extent.lba + extentOffset / dev.blockSize) 1 state).1 = 1 := by
        refine hserves extent hextent _ _ _ ?_
        have hlt : extentOffset / dev.blockSize < blocksOf dev extent := by
          rw [Nat.div_lt_iff_lt_mul hsize]
          omega
        omega
      rw [if_neg (by rw [hread]; decide)]

section Loop

-- The data read so far are the first bytes from the offset on.
structure ReadUpTo (dev : BlockDev σ) (extents : List DirEntry) (offset readable : Nat)
    (data : List Byte) : Prop where
  length_le : data.length ≤ readable
  eq_slice : data = slice (content dev extents) offset data.length

variable {offset readable : Nat} {data : List Byte}

theorem ReadUpTo.round (h : ReadUpTo dev extents offset readable data) {found : DirEntry × Nat}
    (hlt : data.length < readable) (hfound : extentAt extents (offset + data.length) = some found)
    (state : σ) :
    ReadUpTo dev extents offset readable (data ++ (readPiece dev found.1 found.2
      (min (readable - data.length) (found.1.length - found.2)) state).1) := by
  have hinside := extentAt_lt hfound
  obtain ⟨-, hslice⟩ := extentAt_some dev hfound
  have hpos : 0 < min (readable - data.length) (found.1.length - found.2) := by omega
  have hremaining : found.2 + min (readable - data.length) (found.1.length - found.2) ≤
      found.1.length := by omega
  obtain ⟨count, hcount, hpiece⟩ := readPiece_spec dev hpos hremaining state
  have hlength : (slice (extentBytes dev found.1) found.2 count).length = count := by
    rw [length_slice, length_extentBytes]
    omega
  rw [hpiece]
  refine ⟨?_, ?_⟩
  · rw [List.length_append, hlength]
    omega
  · rw [List.length_append, hlength, slice_add, ← h.eq_slice, hslice count (by omega)]

theorem readLoop_spec (h : ReadUpTo dev extents offset readable data) (state : σ) :
    ReadUpTo dev extents offset readable
        (readLoop dev extents offset readable data state).1 ∧
      (DevServes dev extents → offset + readable ≤ fileSize extents →
        (readLoop dev extents offset readable data state).1.length = readable) := by
  induction hn : readable - data.length using Nat.strong_induction_on generalizing data state with
  | _ n ih =>
    rw [readLoop]
    split
    · next hlt =>
        split
        · next hnone =>
            have hend := extentAt_none hnone
            exact ⟨h, fun _ hfits => by omega⟩
        · next found hfound =>
            have hinside := extentAt_lt hfound
            have hpos : 0 < min (readable - data.length) (found.1.length - found.2) := by omega
            have hround := h.round hlt hfound state
            simp only
            split
            · next hgo =>
                have hgrows := readPiece_pos dev hpos state hgo
                refine ih _ ?_ hround _ rfl
                have hle := hround.length_le
                rw [List.length_append] at hle ⊢
                omega
            · next hstop =>
                refine ⟨hround, fun hserves _ => absurd ?_ hstop⟩
                exact readPiece_serves hserves (extentAt_some dev hfound).1 hpos
                  (by omega) state
    · next hge => exact ⟨h, fun _ _ => Nat.le_antisymm h.length_le (Nat.le_of_not_lt hge)⟩

end Loop

-- Bytes behind the end of the file are not there to be asked for.
theorem slice_readable (dev : BlockDev σ) (extents : List DirEntry) (offset count : Nat) :
    slice (content dev extents) offset (min count (fileSize extents - offset)) =
      slice (content dev extents) offset count := by
  rw [slice, slice, ← length_content dev, ← List.length_drop]
  exact List.take_eq_take_min.symm

theorem slice_past {bytes : List Byte} {offset : Nat} (h : bytes.length ≤ offset) (count : Nat) :
    slice bytes offset count = [] := by
  rw [slice, List.drop_of_length_le h, List.take_nil]

-- What read_at delivers: a first part of the requested bytes, and all of them on a device that
-- returns all blocks.
theorem readAt_spec (dev : BlockDev σ) (extents : List DirEntry) (offset count : Nat) (state : σ) :
    (∃ delivered ≤ count, (readAt dev extents offset count state).1 =
        slice (content dev extents) offset delivered ∧
      (readAt dev extents offset count state).1.length = delivered) ∧
    (DevServes dev extents → (readAt dev extents offset count state).1 =
      slice (content dev extents) offset (min count (fileSize extents - offset))) := by
  rw [readAt]
  split
  · next hzero =>
      subst hzero
      exact ⟨⟨0, Nat.le_refl 0, by simp [slice]⟩, fun _ => by simp [slice]⟩
  · split
    · next hend =>
        have hnil (count : Nat) : slice (content dev extents) offset count = [] :=
          slice_past (by rw [length_content]; exact hend) count
        exact ⟨⟨0, Nat.zero_le _, (hnil 0).symm, rfl⟩, fun _ => (hnil _).symm⟩
    · next hinside =>
        have hstart : ReadUpTo dev extents offset (min count (fileSize extents - offset)) [] :=
          ⟨Nat.zero_le _, by simp [slice]⟩
        obtain ⟨hspec, hall⟩ := readLoop_spec hstart state
        refine ⟨⟨_, hspec.length_le.trans (Nat.min_le_left _ _), hspec.eq_slice, rfl⟩, ?_⟩
        intro hserves
        have hlength := hall hserves (by omega)
        have hslice := hspec.eq_slice
        rw [hlength] at hslice
        exact hslice

-- The parts of the file that reads of the given sizes ask for, one behind the other.
def parts (bytes : List Byte) : Nat → List Nat → List (List Byte)
  | _, [] => []
  | pos, count :: rest =>
      slice bytes pos count :: parts bytes (pos + (slice bytes pos count).length) rest

-- Consecutive reads deliver consecutive parts of the file.
theorem readAll_spec (dev : BlockDev σ) (extents : List DirEntry) (counts : List Nat) (pos : Nat) (state : σ) :
    (readAll dev extents counts pos state).1.flatten = slice (content dev extents) pos
        (readAll dev extents counts pos state).1.flatten.length ∧
      (readAll dev extents counts pos state).2.1 =
        pos + (readAll dev extents counts pos state).1.flatten.length ∧
      (DevServes dev extents →
        (readAll dev extents counts pos state).1 = parts (content dev extents) pos counts) := by
  induction counts generalizing pos state with
  | nil => exact ⟨by simp [readAll, slice], rfl, fun _ => rfl⟩
  | cons count counts ih =>
      obtain ⟨⟨delivered, -, hfirst, hlength⟩, hall⟩ :=
        readAt_spec dev extents pos count state
      obtain ⟨hflatten, hpos, hparts⟩ := ih (readNext dev extents count pos state).2.1
        (readNext dev extents count pos state).2.2
      rw [readAll]
      simp only [List.flatten_cons, List.length_append]
      have hdata : (readNext dev extents count pos state).1 = (readAt dev extents pos count state).1 :=
        rfl
      have hnext : (readNext dev extents count pos state).2.1 =
          pos + (readAt dev extents pos count state).1.length := rfl
      refine ⟨?_, ?_, ?_⟩
      · rw [slice_add, hdata, hlength, ← hfirst]
        congr 1
        rw [hnext, hlength] at hflatten
        rw [hnext, hlength]
        exact hflatten
      · rw [hpos, hnext, hdata]
        omega
      · intro hserves
        rw [hparts hserves, hnext, hdata, hall hserves, slice_readable, parts]

end Content

-- read_at delivers a first part of the bytes asked for, all of them on a device that returns all
-- requested blocks, and calls of read deliver one part of the file behind the other.
theorem read_delivers {σ : Type} (dev : BlockDev σ) (extents : List DirEntry) :
    (∀ offset count state, (readAt dev extents offset count state).1 <+:
      slice (content dev extents) offset (min count (fileSize extents - offset))) ∧
    (DevServes dev extents → ∀ offset count state, (readAt dev extents offset count state).1 =
      slice (content dev extents) offset (min count (fileSize extents - offset))) ∧
    ∀ counts pos state,
      (readAll dev extents counts pos state).1.flatten = slice (content dev extents) pos
          (readAll dev extents counts pos state).1.flatten.length ∧
        (readAll dev extents counts pos state).2.1 =
          pos + (readAll dev extents counts pos state).1.flatten.length ∧
        (DevServes dev extents → (readAll dev extents counts pos state).1 =
          parts (content dev extents) pos counts) := by
  refine ⟨?_, ?_, readAll_spec dev extents⟩
  · intro offset count state
    obtain ⟨⟨delivered, hle, hdata, -⟩, -⟩ := readAt_spec dev extents offset count state
    rw [slice_readable, hdata]
    exact List.take_prefix_take_left hle
  · intro hserves offset count state
    exact (readAt_spec dev extents offset count state).2 hserves

-- The image as a device, and when it has all blocks of a file.
def Image.blockDev (image : Image) : BlockDev Unit where
  blockSize := blockSize
  block index := image.sectors.getD index (List.replicate blockSize 0)
  read index count _ := ((image.read index count).length, ())
  blockSize_pos := by decide
  length_block index := by
    rw [List.getD_eq_getElem?_getD]
    cases hsector : image.sectors[index]? with
    | none => exact List.length_replicate
    | some sector => exact image.length_sector sector (List.mem_of_getElem? hsector)
  read_le index count _ := List.length_take_le _ _

theorem Image.blockDev_serves {image : Image} {extents : List DirEntry}
    (h : ∀ extent ∈ extents,
      extent.lba + (extent.length + blockSize - 1) / blockSize ≤ image.sectors.length) :
    DevServes image.blockDev extents := by
  intro extent hextent index count state hinside
  have hblocks : index + count ≤ (extent.length + blockSize - 1) / blockSize := hinside
  have himage := h extent hextent
  show (image.read (extent.lba + index) count).length = count
  rw [Image.read, List.length_take, List.length_drop]
  omega

def smallImage : Image where
  sectors := [List.replicate blockSize 1, List.replicate blockSize 2]
  length_sector := by
    intro sector hmem
    simp only [List.mem_cons, List.not_mem_nil, or_false] at hmem
    rcases hmem with rfl | rfl <;> exact List.length_replicate

def smallExtents : List DirEntry :=
  [{ entryLength := 44, lba := 1, length := 3, flags := 128, filenameLength := 10 },
    { entryLength := 44, lba := 0, length := 0, flags := 128, filenameLength := 10 },
    { entryLength := 44, lba := 0, length := 2, flags := 0, filenameLength := 10 }]

theorem read_delivers_small : (readAt smallImage.blockDev smallExtents 1 9 ()).1 =
    slice (content smallImage.blockDev smallExtents) 1 (min 9 (fileSize smallExtents - 1)) :=
  (read_delivers smallImage.blockDev smallExtents).2.1
    (Image.blockDev_serves (by decide)) 1 9 ()

end Rpcsx.Iso
