import Rpcsx.Psf.ParamSfo

namespace Rpcsx.ParamSfo

open Data Data.Bytes Data.Text

-- The exceptions that array accesses of the parser could throw.
inductive ArrayFault where
  | indexOutOfBounds
  | badRange
deriving DecidableEq, Repr

def getByte (bytes : List Byte) (index : Int) : Except ArrayFault Byte :=
  if h : 0 ≤ index ∧ index.toNat < bytes.length then .ok (bytes.get ⟨index.toNat, h.2⟩)
  else .error .indexOutOfBounds

def copyOfRange (bytes : List Byte) (fromIndex toIndex : Int) : Except ArrayFault (List Byte) :=
  if 0 ≤ fromIndex ∧ fromIndex ≤ toIndex ∧ toIndex ≤ bytes.length then
    .ok (slice bytes fromIndex.toNat (toIndex - fromIndex).toNat)
  else .error .badRange

-- The bytes at `offset`, `offset + 1` and so on.
def readBytes (bytes : List Byte) (offset : Int) (width : Nat) : Except ArrayFault (List Byte) :=
  (List.range width).mapM fun i : Nat => getByte bytes (toInt (offset + i))

def readU16Le (bytes : List Byte) (offset : Int) : Except ArrayFault Nat := do
  if offset < 0 ∨ bytes.length < toInt (offset + 2) then return 0
  return leValue (← readBytes bytes offset 2)

def readU32Le (bytes : List Byte) (offset : Int) : Except ArrayFault Nat := do
  if offset < 0 ∨ bytes.length < toInt (offset + 4) then return 0
  return leValue (← readBytes bytes offset 4)

-- `while (end < size && this[end] != 0)` of cString.
def cStringEnd (bytes : List Byte) : Nat → Nat → Except ArrayFault Nat
  | 0, last => .ok last
  | rounds + 1, last =>
      if last < bytes.length then do
        let byte ← getByte bytes last
        if byte ≠ 0 then cStringEnd bytes rounds (last + 1) else return last
      else .ok last

def readCString (bytes : List Byte) (offset : Int) : Except ArrayFault Text := do
  if offset < 0 ∨ bytes.length ≤ offset then return []
  let last ← cStringEnd bytes (bytes.length - offset.toNat) offset.toNat
  return Utf8.decode (← copyOfRange bytes offset last)

def readEntry (bytes : List Byte) (keyTableOffset dataTableOffset : Int) (metadata : SfoMetadata)
    (index : Nat) : Except ArrayFault SfoMetadata := do
  let entryOffset := toInt (20 + index * 16)
  if bytes.length < toInt (entryOffset + 16) then return metadata
  let keyOffset ← readU16Le bytes entryOffset
  let dataLength := toInt (← readU32Le bytes (toInt (entryOffset + 4)))
  let dataOffset := toInt (← readU32Le bytes (toInt (entryOffset + 12)))
  let key ← readCString bytes (toInt (keyTableOffset + keyOffset))
  let valueOffset := toInt (dataTableOffset + dataOffset)
  if isBlank key ∨ valueOffset < 0 ∨ bytes.length ≤ valueOffset ∨ dataLength ≤ 0 then
    return metadata
  let valueLength := min dataLength (toInt (bytes.length - valueOffset))
  let value ← copyOfRange bytes valueOffset (toInt (valueOffset + valueLength))
  return assignField metadata key (trimmedText value)

-- parseParamSfo with the exceptions of its array accesses.
def readParamSfo (bytes : List Byte) : Except ArrayFault SfoMetadata := do
  if bytes.length < 20 then return {}
  let magic ← readBytes bytes 0 4
  if magic ≠ 0 :: ascii "PSF" then return {}
  let keyTableOffset := toInt (← readU32Le bytes 8)
  let dataTableOffset := toInt (← readU32Le bytes 12)
  let entryCount := toInt (← readU32Le bytes 16)
  (List.range entryCount.toNat).foldlM (readEntry bytes keyTableOffset dataTableOffset) {}

theorem toInt_range (value : Int) : -2 ^ 31 ≤ toInt value ∧ toInt value < 2 ^ 31 := by
  unfold toInt
  omega

theorem toInt_of_range {value : Int} (h : -2 ^ 31 ≤ value ∧ value < 2 ^ 31) :
    toInt value = value := by
  unfold toInt
  omega

section Faults

variable {bytes : List Byte} (hsize : bytes.length < 2 ^ 31)

theorem getByte_eq {index : Nat} (h : index < bytes.length) :
    getByte bytes index = .ok (bytes.get ⟨index, h⟩) := by
  simp [getByte, h]

theorem mapM_ok {α β ε : Type} {f : α → Except ε β} {g : α → β} {list : List α}
    (h : ∀ a ∈ list, f a = .ok (g a)) : list.mapM f = .ok (list.map g) := by
  induction list with
  | nil => rfl
  | cons a list ih =>
      rw [List.mapM_cons, h a (by simp), ih fun b hb => h b (by simp [hb])]
      rfl

theorem foldlM_ok {α σ ε : Type} {f : σ → α → Except ε σ} {g : σ → α → σ} {list : List α}
    (h : ∀ s, ∀ a ∈ list, f s a = .ok (g s a)) (s : σ) :
    list.foldlM f s = .ok (list.foldl g s) := by
  induction list generalizing s with
  | nil => rfl
  | cons a list ih =>
      rw [List.foldlM_cons, h s a (by simp)]
      exact ih (fun s b hb => h s b (by simp [hb])) (g s a)

include hsize

theorem readBytes_eq {offset width : Nat} (h : offset + width ≤ bytes.length) :
    readBytes bytes offset width = .ok (slice bytes offset width) := by
  have hall : ∀ i ∈ List.range width, getByte bytes (toInt ((offset : Int) + (i : Nat))) =
      .ok ((bytes.drop offset).getD i 0) := by
    intro i hi
    have hlt := List.mem_range.mp hi
    have hin : offset + i < bytes.length := by omega
    have hget : (bytes.drop offset).getD i 0 = bytes.get ⟨offset + i, hin⟩ := by
      simp [hin]
    rw [toInt_add hsize (by omega), getByte_eq hin, hget]
  rw [readBytes, mapM_ok hall]
  congr 1
  apply List.ext_getElem
  · rw [length_slice, List.length_map, List.length_range]
    omega
  · intro i hi _
    have hlt : i < width := by simpa using hi
    have hin : offset + i < bytes.length := by omega
    simp [slice, hin]

-- The guards of u16Le and u32Le hold off every access outside of the array.
theorem readLe_eq {offset : Int} {width : Nat} (hend : offset + width < 2 ^ 31)
    (h : ¬(offset < 0 ∨ bytes.length < toInt (offset + width))) :
    readBytes bytes offset width = .ok (slice bytes offset.toNat width) := by
  obtain ⟨position, rfl⟩ : ∃ position : Nat, offset = position := ⟨offset.toNat, by omega⟩
  rw [toInt_of_range (by omega)] at h
  exact readBytes_eq hsize (by omega)

theorem readU16Le_eq {offset : Int} (hend : offset + 2 < 2 ^ 31) :
    readU16Le bytes offset = .ok (u16Le bytes offset) := by
  unfold readU16Le u16Le
  by_cases h : offset < 0 ∨ bytes.length < toInt (offset + 2)
  · rw [if_pos h, if_pos h]
    rfl
  · have hread : readBytes bytes offset 2 = .ok (slice bytes offset.toNat 2) :=
      readLe_eq hsize hend h
    rw [if_neg h, if_neg h, hread]
    rfl

theorem readU32Le_eq {offset : Int} (hend : offset + 4 < 2 ^ 31) :
    readU32Le bytes offset = .ok (u32Le bytes offset) := by
  unfold readU32Le u32Le
  by_cases h : offset < 0 ∨ bytes.length < toInt (offset + 4)
  · rw [if_pos h, if_pos h]
    rfl
  · have hread : readBytes bytes offset 4 = .ok (slice bytes offset.toNat 4) :=
      readLe_eq hsize hend h
    rw [if_neg h, if_neg h, hread]
    rfl

omit hsize in
theorem cStringEnd_eq {rounds last : Nat} (h : rounds = bytes.length - last) :
    cStringEnd bytes rounds last = .ok (last + (cString (bytes.drop last)).length) := by
  induction rounds generalizing last with
  | zero =>
      have hnil : bytes.drop last = [] := List.drop_of_length_le (by omega)
      rw [cStringEnd, hnil]
      rfl
  | succ rounds ih =>
      have hlt : last < bytes.length := by omega
      rw [cStringEnd, if_pos hlt, getByte_eq hlt, List.drop_eq_getElem_cons hlt, cString,
        List.takeWhile_cons]
      simp only [bind, Except.bind, List.get_eq_getElem]
      by_cases hzero : bytes[last] = 0
      · simp [hzero, pure, Except.pure]
      · rw [if_pos hzero, ih (by omega), if_pos (by simpa using hzero), List.length_cons, cString]
        congr 1
        omega

omit hsize in
theorem readCString_eq (offset : Int) :
    readCString bytes offset = .ok (cStringAt bytes offset) := by
  unfold readCString cStringAt
  by_cases h : offset < 0 ∨ bytes.length ≤ offset
  · rw [if_pos h, if_pos h]
    rfl
  · obtain ⟨position, rfl⟩ : ∃ position : Nat, offset = position := ⟨offset.toNat, by omega⟩
    have hlength : (cString (bytes.drop position)).length ≤ bytes.length - position := by
      rw [← List.length_drop]
      exact (List.takeWhile_prefix _).length_le
    have htake : slice bytes position (cString (bytes.drop position)).length =
        cString (bytes.drop position) :=
      (List.prefix_iff_eq_take.mp (List.takeWhile_prefix _)).symm
    have hlast : cStringEnd bytes (bytes.length - position) position =
        .ok (position + (cString (bytes.drop position)).length) := cStringEnd_eq rfl
    rw [if_neg h, if_neg h]
    simp only [Int.toNat_natCast, hlast, bind, Except.bind]
    rw [copyOfRange, if_pos (by omega)]
    have hcount : (((position + (cString (bytes.drop position)).length : Nat) : Int) -
        (position : Int)).toNat = (cString (bytes.drop position)).length := by omega
    rw [hcount, Int.toNat_natCast, htake]
    rfl

omit hsize in
-- The entries start four bytes behind a multiple of 16, so 2^31 - 12 is the greatest offset.
theorem entryOffset_spec (index : Nat) : ∃ k : Int, toInt (20 + index * 16) = 16 * k + 4 ∧
    -2 ^ 27 ≤ k ∧ k < 2 ^ 27 := by
  refine ⟨(toInt (20 + index * 16) - 4) / 16, ?_, ?_, ?_⟩
  · unfold toInt
    omega
  · unfold toInt
    omega
  · unfold toInt
    omega

theorem readEntry_eq (keyTableOffset dataTableOffset : Int) (metadata : SfoMetadata)
    (index : Nat) : readEntry bytes keyTableOffset dataTableOffset metadata index =
      .ok (parseEntry bytes keyTableOffset dataTableOffset metadata index) := by
  obtain ⟨k, hoffset, hlow, hhigh⟩ := entryOffset_spec index
  unfold readEntry parseEntry
  rw [hoffset]
  by_cases hguard : bytes.length < toInt (16 * k + 4 + 16)
  · rw [if_pos hguard, if_pos hguard]
    rfl
  · have hlength : toInt (16 * k + 4 + 4) + 4 < 2 ^ 31 := by
      rw [toInt_of_range (by omega)]
      omega
    have hdata : toInt (16 * k + 4 + 12) + 4 < 2 ^ 31 := by
      unfold toInt
      omega
    rw [if_neg hguard, if_neg hguard, readU16Le_eq hsize (by omega), readU32Le_eq hsize hlength,
      readU32Le_eq hsize hdata]
    simp only [bind, Except.bind, readCString_eq]
    split
    · rfl
    · next hvalue =>
        -- the copied range ends inside of the array
        obtain ⟨-, hpos, hin, hlen⟩ : _ ∧ _ ∧ _ ∧ _ := by simpa only [not_or] using hvalue
        generalize toInt (dataTableOffset +
          toInt (u32Le bytes (toInt (16 * k + 4 + 12)))) = valueOffset at *
        generalize toInt (u32Le bytes (toInt (16 * k + 4 + 4))) = dataLength at *
        have hrest : toInt (bytes.length - valueOffset) = bytes.length - valueOffset :=
          toInt_of_range (by omega)
        have hstop : toInt (valueOffset + min dataLength (bytes.length - valueOffset)) =
            valueOffset + min dataLength (bytes.length - valueOffset) :=
          toInt_of_range (by omega)
        rw [hrest, hstop, copyOfRange, if_pos (by omega)]
        have hcount : (valueOffset + min dataLength (bytes.length - valueOffset) -
            valueOffset) = min dataLength (bytes.length - valueOffset) := by omega
        rw [hcount]
        rfl

theorem readParamSfo_eq : readParamSfo bytes = .ok (parseParamSfo bytes) := by
  unfold readParamSfo parseParamSfo
  by_cases hshort : bytes.length < 20
  · rw [if_pos hshort, if_pos (.inl hshort)]
    rfl
  · have hmagic : readBytes bytes 0 4 = .ok (slice bytes 0 4) :=
      readBytes_eq hsize (show 0 + 4 ≤ bytes.length by omega)
    rw [if_neg hshort]
    simp only [bind, Except.bind, hmagic]
    by_cases hwrong : slice bytes 0 4 ≠ 0 :: ascii "PSF"
    · rw [if_pos hwrong, if_pos (.inr hwrong)]
      rfl
    · rw [if_neg hwrong, if_neg (by tauto), readU32Le_eq hsize (by decide),
        readU32Le_eq hsize (by decide), readU32Le_eq hsize (by decide)]
      exact foldlM_ok (fun metadata index _ => readEntry_eq hsize _ _ metadata index) {}

end Faults

-- What the entry at an offset stores: a key that names one of the two fields, and its value.
def storeAt (bytes : List Byte) (entryOffset : Int) : Option (Text × Option Text) :=
  let keyTableOffset := toInt (u32Le bytes 8)
  let dataTableOffset := toInt (u32Le bytes 12)
  if bytes.length < toInt (entryOffset + 16) then none
  else
    let keyOffset := u16Le bytes entryOffset
    let dataLength := toInt (u32Le bytes (toInt (entryOffset + 4)))
    let dataOffset := toInt (u32Le bytes (toInt (entryOffset + 12)))
    let key := cStringAt bytes (toInt (keyTableOffset + keyOffset))
    let valueOffset := toInt (dataTableOffset + dataOffset)
    if isBlank key ∨ valueOffset < 0 ∨ bytes.length ≤ valueOffset ∨ dataLength ≤ 0 then none
    else if uppercase key = titleIdKey ∨ uppercase key = titleKey then
      let valueLength := min dataLength (bytes.length - valueOffset)
      some (key, trimmedText (slice bytes valueOffset.toNat valueLength.toNat))
    else none

def assign (metadata : SfoMetadata) (store : Text × Option Text) : SfoMetadata :=
  assignField metadata store.1 store.2

-- The rounds of the loop.
def rounds (bytes : List Byte) : Nat :=
  if bytes.length < 20 ∨ slice bytes 0 4 ≠ 0 :: ascii "PSF" then 0
  else (toInt (u32Le bytes 16)).toNat

-- What the rounds of the loop store, one after the other.
def loopStores (bytes : List Byte) : List (Text × Option Text) :=
  (List.range (rounds bytes)).filterMap fun index : Nat => storeAt bytes (toInt (20 + index * 16))

-- The index entries that the file has room for.
def tableEntries (bytes : List Byte) : Nat := (bytes.length - 20) / 16

-- What the entries of the table store, each at its own offset.
def tableStores (bytes : List Byte) : List (Text × Option Text) :=
  (List.range (min (rounds bytes) (tableEntries bytes))).filterMap fun index : Nat =>
    storeAt bytes ((20 + 16 * index : Nat) : Int)

theorem assignField_other {metadata : SfoMetadata} {key : Text} {value : Option Text}
    (h : ¬(uppercase key = titleIdKey ∨ uppercase key = titleKey)) :
    assignField metadata key value = metadata := by
  rw [not_or] at h
  rw [assignField, if_neg h.1, if_neg h.2]

theorem parseEntry_store (bytes : List Byte) (metadata : SfoMetadata) (index : Nat) :
    parseEntry bytes (toInt (u32Le bytes 8)) (toInt (u32Le bytes 12)) metadata index =
      (storeAt bytes (toInt (20 + index * 16))).elim metadata (assign metadata) := by
  unfold parseEntry storeAt
  dsimp only
  generalize toInt (20 + (index : Int) * 16) = entryOffset
  generalize cStringAt bytes _ = key
  generalize toInt (toInt (u32Le bytes 12) + _) = valueOffset
  generalize toInt (u32Le bytes (toInt (entryOffset + 4))) = dataLength
  by_cases hend : bytes.length < toInt (entryOffset + 16)
  · rw [if_pos hend, if_pos hend, Option.elim_none]
  · rw [if_neg hend, if_neg hend]
    by_cases hskip : isBlank key ∨ valueOffset < 0 ∨ bytes.length ≤ valueOffset ∨ dataLength ≤ 0
    · rw [if_pos hskip, if_pos hskip, Option.elim_none]
    · rw [if_neg hskip, if_neg hskip]
      by_cases hkey : uppercase key = titleIdKey ∨ uppercase key = titleKey
      · rw [if_pos hkey, Option.elim_some, assign]
      · rw [if_neg hkey, Option.elim_none, assignField_other hkey]

theorem foldl_elim {σ : Type} {apply : σ → Text × Option Text → σ}
    {store : Nat → Option (Text × Option Text)} (list : List Nat) (s : σ) :
    list.foldl (fun s index => (store index).elim s (apply s)) s =
      (list.filterMap store).foldl apply s := by
  induction list generalizing s with
  | nil => rfl
  | cons index list ih =>
      rw [List.foldl_cons, ih, List.filterMap_cons]
      cases store index with
      | none => rfl
      | some value => rfl

-- The result is what the stores leave behind.
theorem parseParamSfo_eq_stores (bytes : List Byte) :
    parseParamSfo bytes = (loopStores bytes).foldl assign {} := by
  have hround : parseEntry bytes (toInt (u32Le bytes 8)) (toInt (u32Le bytes 12)) =
      fun metadata (index : Nat) =>
        (storeAt bytes (toInt (20 + index * 16))).elim metadata (assign metadata) := by
    funext metadata index
    exact parseEntry_store bytes metadata index
  unfold loopStores rounds parseParamSfo
  by_cases hmagic : bytes.length < 20 ∨ slice bytes 0 4 ≠ 0 :: ascii "PSF"
  · rw [if_pos hmagic, if_pos hmagic, List.range_zero, List.filterMap_nil, List.foldl_nil]
  · rw [if_neg hmagic, if_neg hmagic]
    dsimp only
    rw [hround, foldl_elim]

section Rounds

variable {bytes : List Byte} (hsize : bytes.length < 2 ^ 31)

-- Offsets repeat after 2^28 rounds.
theorem toInt_period (index : Nat) :
    toInt (20 + ((2 ^ 28 + index : Nat) : Int) * 16) = toInt (20 + (index : Int) * 16) := by
  unfold toInt
  omega

-- The wrapped offset inside of the header, and the greatest offset.
theorem toInt_header : toInt (20 + ((2 ^ 28 - 1 : Nat) : Int) * 16) = 4 := by
  unfold toInt
  omega

theorem toInt_greatest : toInt (20 + ((2 ^ 27 - 2 : Nat) : Int) * 16) = 2 ^ 31 - 12 := by
  unfold toInt
  omega

include hsize

theorem toInt_inside {index : Nat} (h : index < tableEntries bytes) :
    toInt (20 + (index : Int) * 16) = ((20 + 16 * index : Nat) : Int) := by
  unfold tableEntries at h
  rw [toInt_of_range (by omega)]
  omega

-- Up to the first offset that wraps around to a positive one, no round behind the table stores
-- anything, apart from the last one with a positive offset.
theorem storeAt_behind {index : Nat} (hbehind : tableEntries bytes ≤ index)
    (hmax : index < 2 ^ 28 - 1) (hne : index ≠ 2 ^ 27 - 2) :
    storeAt bytes (toInt (20 + index * 16)) = none := by
  unfold tableEntries at hbehind
  by_cases hpos : index < 2 ^ 27 - 2
  · have hoffset : toInt (20 + (index : Int) * 16) = 20 + index * 16 := toInt_of_range (by omega)
    have hend : toInt (20 + (index : Int) * 16 + 16) = 20 + index * 16 + 16 :=
      toInt_of_range (by omega)
    unfold storeAt
    dsimp only
    rw [hoffset, hend, if_pos (by omega)]
  · have hoffset : toInt (20 + (index : Int) * 16) = 20 + index * 16 - 2 ^ 32 := by
      unfold toInt
      omega
    have hlength : toInt (20 + (index : Int) * 16 - 2 ^ 32 + 4) < 0 := by
      rw [toInt_of_range (by omega)]
      omega
    have hzero : toInt (u32Le bytes (toInt (20 + (index : Int) * 16 - 2 ^ 32 + 4))) ≤ 0 := by
      rw [u32Le, if_pos (.inl hlength)]
      decide
    unfold storeAt
    dsimp only
    rw [hoffset]
    split
    · rfl
    · rw [if_pos (.inr (.inr (.inr hzero)))]

omit hsize in
theorem rounds_lt : rounds bytes < 2 ^ 31 := by
  unfold rounds
  split
  · decide
  · have := toInt_range (u32Le bytes 16)
    omega

-- The rounds whose offsets have wrapped around store nothing: the one that reads the header as an
-- entry and those that read the table again. The third offset is the one of a truncated entry, which
-- only an array of at least 2^31 - 4 bytes holds.
def WrapsHarmless (bytes : List Byte) : Prop :=
  (2 ^ 28 ≤ rounds bytes → storeAt bytes 4 = none) ∧
    (∀ index < tableEntries bytes, 2 ^ 28 + index < rounds bytes →
      storeAt bytes ((20 + 16 * index : Nat) : Int) = none) ∧
    (2 ^ 27 - 1 ≤ rounds bytes → storeAt bytes (2 ^ 31 - 12) = none)

theorem storeAt_rounds (h : WrapsHarmless bytes) (index : Nat)
    (hbehind : tableEntries bytes ≤ index) (hround : index < rounds bytes) :
    storeAt bytes (toInt (20 + index * 16)) = none := by
  obtain ⟨hheader, hagain, htruncated⟩ := h
  induction index using Nat.strong_induction_on with
  | _ index ih =>
      by_cases hwrapped : 2 ^ 28 ≤ index
      · obtain ⟨rest, rfl⟩ : ∃ rest, index = 2 ^ 28 + rest := ⟨index - 2 ^ 28, by omega⟩
        rw [toInt_period]
        by_cases hinside : rest < tableEntries bytes
        · rw [toInt_inside hsize hinside]
          exact hagain rest hinside hround
        · exact ih rest (by omega) (by omega) (by omega)
      · by_cases hlast : index = 2 ^ 28 - 1
        · subst hlast
          exact hheader (by omega)
        · by_cases hgreatest : index = 2 ^ 27 - 2
          · subst hgreatest
            rw [toInt_greatest]
            exact htruncated (by omega)
          · exact storeAt_behind hsize hbehind (by omega) hgreatest

theorem wrapsHarmless_iff : WrapsHarmless bytes ↔
    ∀ index, tableEntries bytes ≤ index → index < rounds bytes →
      storeAt bytes (toInt (20 + index * 16)) = none := by
  have hentries : tableEntries bytes ≤ 2 ^ 27 - 2 := by
    unfold tableEntries
    omega
  constructor
  · exact fun h index hbehind hround => storeAt_rounds hsize h index hbehind hround
  · intro h
    refine ⟨?_, ?_, ?_⟩
    · intro hrounds
      have hstore := h (2 ^ 28 - 1) (by omega) (by omega)
      rwa [toInt_header] at hstore
    · intro index hindex hround
      have hstore := h (2 ^ 28 + index) (by omega) hround
      rwa [toInt_period, toInt_inside hsize hindex] at hstore
    · intro hrounds
      have hstore := h (2 ^ 27 - 2) (by omega) (by omega)
      rwa [toInt_greatest] at hstore

theorem loopStores_eq_iff : loopStores bytes = tableStores bytes ↔
    ∀ index, tableEntries bytes ≤ index → index < rounds bytes →
      storeAt bytes (toInt (20 + index * 16)) = none := by
  have hfirst : (List.range (min (rounds bytes) (tableEntries bytes))).filterMap
      (fun index : Nat => storeAt bytes (toInt (20 + index * 16))) = tableStores bytes := by
    apply List.filterMap_congr
    intro index hindex
    have hlt := List.mem_range.mp hindex
    rw [toInt_inside hsize (by omega)]
  obtain ⟨rest, hrest⟩ := Nat.exists_eq_add_of_le (Nat.min_le_left (rounds bytes)
    (tableEntries bytes))
  have hsplit : List.range (rounds bytes) =
      List.range (min (rounds bytes) (tableEntries bytes)) ++
        (List.range rest).map (min (rounds bytes) (tableEntries bytes) + ·) := by
    conv_lhs => rw [hrest]
    exact List.range_add
  rw [loopStores, hsplit, List.filterMap_append, hfirst, List.append_right_eq_self,
    List.filterMap_eq_nil_iff]
  simp only [List.forall_mem_map, List.mem_range]
  constructor
  · intro h index hbehind hround
    have hstore := h (index - min (rounds bytes) (tableEntries bytes)) (by omega)
    rwa [Nat.add_sub_cancel' (by omega)] at hstore
  · intro h index hindex
    exact h _ (by omega) (by omega)

end Rounds

-- The result is that of the entries of the table, and no other round stores anything.
structure ReadsTable (bytes : List Byte) : Prop where
  returns : readParamSfo bytes = .ok ((tableStores bytes).foldl assign {})
  stores : loopStores bytes = tableStores bytes

-- No byte array makes the parser throw, and it reads the table alone where no round with a wrapped
-- offset stores a field.
theorem readParamSfo_table_iff (bytes : List Byte) (hsize : bytes.length < 2 ^ 31) :
    (∃ metadata, readParamSfo bytes = .ok metadata) ∧
      (ReadsTable bytes ↔ WrapsHarmless bytes) := by
  refine ⟨⟨_, readParamSfo_eq hsize⟩, ?_⟩
  rw [wrapsHarmless_iff hsize, ← loopStores_eq_iff hsize]
  constructor
  · exact fun h => h.stores
  · intro h
    refine ⟨?_, h⟩
    rw [readParamSfo_eq hsize, parseParamSfo_eq_stores, h]

-- A file without index entries whose header reads as an entry from offset 4 on.
def headerEntryFile : List Byte :=
  0 :: ascii "PSF" ++ [0, 0, 0, 0] ++ [20, 0, 0, 0] ++ [26, 0, 0, 0xf0] ++ [0, 0, 0, 0x10] ++
    ascii "TITLE" ++ [0] ++ ascii "Header"

theorem readParamSfo_table_iff_header :
    (∃ metadata, readParamSfo headerEntryFile = .ok metadata) ∧
      (ReadsTable headerEntryFile ↔ WrapsHarmless headerEntryFile) :=
  readParamSfo_table_iff headerEntryFile (by decide)

-- The round 2^28 - 1 stores a title that no entry of the table holds.
theorem header_read_as_entry : ¬ReadsTable headerEntryFile := by
  intro h
  have hempty : tableStores headerEntryFile = [] := by
    have hnone : tableEntries headerEntryFile = 0 := by decide
    rw [tableStores, hnone, Nat.min_zero]
    rfl
  have hrounds : rounds headerEntryFile = 2 ^ 28 := by decide +kernel
  have hstore : storeAt headerEntryFile 4 = some ("TITLE".toList, some "Header".toList) := by
    decide +kernel
  have hmem : ("TITLE".toList, some "Header".toList) ∈ loopStores headerEntryFile := by
    refine List.mem_filterMap.mpr ⟨2 ^ 28 - 1, ?_, ?_⟩
    · rw [hrounds, List.mem_range]
      decide
    · rw [toInt_header, hstore]
  rw [h.stores, hempty] at hmem
  cases hmem

end Rpcsx.ParamSfo
