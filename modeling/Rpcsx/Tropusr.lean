import Rpcsx.Data.Bytes
import Rpcsx.FileStream

namespace Rpcsx.Tropusr

open Data Data.Bytes

def tropusrMagic : Nat := 0x818F54AD

abbrev TropusrHeader := Record 0x30

def TropusrHeader.magic (header : TropusrHeader) : Nat := header.field 0 4

def TropusrHeader.tablesCount (header : TropusrHeader) : Nat := header.field 8 4

abbrev TropusrTableHeader := Record 0x20

def TropusrTableHeader.type (header : TropusrTableHeader) : Nat := header.field 0 4

def TropusrTableHeader.entriesCount (header : TropusrTableHeader) : Nat := header.field 12 4

def TropusrTableHeader.offset (header : TropusrTableHeader) : Nat := header.field 16 8

abbrev TropusrEntry4 := Record 0x60

abbrev TropusrEntry6 := Record 0x70

def TropusrEntry6.trophyState (entry : TropusrEntry6) : Nat := entry.field 20 4

def TropusrEntry6.timestamp1 (entry : TropusrEntry6) : Nat := entry.field 32 8

def TropusrEntry6.timestamp2 (entry : TropusrEntry6) : Nat := entry.field 40 8

def TropusrEntry6.set (entry : TropusrEntry6) (trophyState timestamp1 timestamp2 : Nat) :
    TropusrEntry6 :=
  ((entry.setField 20 4 trophyState).setField 32 8 timestamp1).setField 40 8 timestamp2

structure Tables where
  table4 : List TropusrEntry4 := []
  table6 : List TropusrEntry6 := []
deriving DecidableEq

structure TropusrLoader where
  header : TropusrHeader
  tableHeaders : List TropusrTableHeader
  tables : Tables
deriving DecidableEq

-- The offset is a signed number to the file; a negative one leaves the position as it is.
def seekSet (file : FileStream) (offset : Nat) : FileStream :=
  if offset < 2 ^ 63 then file.seek offset else file

def readRecords (size count : Nat) (file : FileStream) : Option (List (Record size) × FileStream) :=
  match file.readVector count size with
  | none => none
  | some (data, file) => some (Record.parse size count data, file)

def loadHeader (file : FileStream) : Option (TropusrHeader × FileStream) :=
  match (file.seek 0).readPod 0x30 with
  | none => none
  | some (data, file) =>
      let header : TropusrHeader := Record.ofBytes 0x30 data
      if TropusrHeader.magic header ≠ tropusrMagic then none else some (header, file)

def loadTableHeaders (tablesCount : Nat) (file : FileStream) :
    Option (List TropusrTableHeader × FileStream) :=
  readRecords 0x20 tablesCount (file.seek 0x30)

-- One table header; the tables of other types are not read.
def loadTable (tableHeader : TropusrTableHeader) (tables : Tables) (file : FileStream) :
    Option (Tables × FileStream) :=
  let file := seekSet file (TropusrTableHeader.offset tableHeader)
  let count := TropusrTableHeader.entriesCount tableHeader
  if TropusrTableHeader.type tableHeader = 4 then
    match readRecords 0x60 count file with
    | none => none
    | some (entries, file) => some ({ tables with table4 := entries }, file)
  else if TropusrTableHeader.type tableHeader = 6 then
    match readRecords 0x70 count file with
    | none => none
    | some (entries, file) => some ({ tables with table6 := entries }, file)
  else some (tables, file)

def loadTables : List TropusrTableHeader → Tables → FileStream → Option Tables
  | [], tables, _ => some tables
  | tableHeader :: rest, tables, file =>
      match loadTable tableHeader tables file with
      | none => none
      | some (tables, file) => loadTables rest tables file

-- Load of a new loader on an existing file: none when the file is discarded.
def load (bytes : List Byte) : Option TropusrLoader :=
  match loadHeader (FileStream.ofBytes bytes) with
  | none => none
  | some (header, file) =>
      match loadTableHeaders (TropusrHeader.tablesCount header) file with
      | none => none
      | some (tableHeaders, file) =>
          match loadTables tableHeaders {} file with
          | none => none
          | some tables => some ⟨header, tableHeaders, tables⟩

-- The bytes that Save commits.
def save (loader : TropusrLoader) : List Byte :=
  loader.header.bytes ++ (Record.flatten loader.tableHeaders ++
    (Record.flatten loader.tables.table4 ++ Record.flatten loader.tables.table6))

def setTrophy (loader : TropusrLoader) (id trophyState timestamp1 timestamp2 : Nat) :
    TropusrLoader :=
  { loader with
    tables := { loader.tables with
      table6 := loader.tables.table6.modify id fun entry =>
        TropusrEntry6.set entry trophyState timestamp1 timestamp2 } }

def unlockTrophy (loader : TropusrLoader) (id timestamp1 timestamp2 : Nat) :
    TropusrLoader × Bool :=
  if loader.tables.table6.length ≤ id then (loader, false)
  else (setTrophy loader id 1 timestamp1 timestamp2, true)

def lockTrophy (loader : TropusrLoader) (id : Nat) : TropusrLoader × Bool :=
  if loader.tables.table6.length ≤ id then (loader, false)
  else (setTrophy loader id 0 0 0, true)

inductive Call where
  | unlockTrophy (id timestamp1 timestamp2 : Nat)
  | lockTrophy (id : Nat)
deriving DecidableEq, Repr

def step (loader : TropusrLoader) : Call → TropusrLoader
  | .unlockTrophy id timestamp1 timestamp2 => (unlockTrophy loader id timestamp1 timestamp2).1
  | .lockTrophy id => (lockTrophy loader id).1

def run (calls : List Call) (loader : TropusrLoader) : TropusrLoader := calls.foldl step loader

end Rpcsx.Tropusr

namespace Rpcsx.Tropusr

open Data Data.Bytes

-- The position a table is read from, and how many bytes are read there.
def place (pos : Nat) (tableHeader : TropusrTableHeader) : Nat :=
  if TropusrTableHeader.offset tableHeader < 2 ^ 63 then TropusrTableHeader.offset tableHeader
  else pos

def tableSize (tableHeader : TropusrTableHeader) : Nat :=
  if TropusrTableHeader.type tableHeader = 4 then
    0x60 * TropusrTableHeader.entriesCount tableHeader
  else if TropusrTableHeader.type tableHeader = 6 then
    0x70 * TropusrTableHeader.entriesCount tableHeader
  else 0

def places : Nat → List TropusrTableHeader → List (TropusrTableHeader × Nat)
  | _, [] => []
  | pos, tableHeader :: rest =>
      (tableHeader, place pos tableHeader) ::
        places (place pos tableHeader + tableSize tableHeader) rest

-- Every table that is read lies in a file of the given size.
def InFile (size : Nat) (entries : List (TropusrTableHeader × Nat)) : Prop :=
  ∀ entry ∈ entries, tableSize entry.1 = 0 ∨ entry.2 + tableSize entry.1 ≤ size

-- The last table of a type is the one that stays.
def lastOf (type : Nat) : List (TropusrTableHeader × Nat) → Option (TropusrTableHeader × Nat)
  | [] => none
  | entry :: rest =>
      (lastOf type rest).or (if TropusrTableHeader.type entry.1 = type then some entry else none)

def tableAt (size : Nat) (obj : List Byte) (entry : TropusrTableHeader × Nat) :
    List (Record size) :=
  let count := TropusrTableHeader.entriesCount entry.1
  Record.parse size count (slice obj entry.2 (size * count))

def lastTable (size type : Nat) (obj : List Byte) (before : List (Record size))
    (entries : List (TropusrTableHeader × Nat)) : List (Record size) :=
  ((lastOf type entries).map (tableAt size obj)).getD before

section Load

variable {obj : List Byte} {pos : Nat} {tables : Tables}

theorem readRecords_eq {size : Nat} (count : Nat) (hsize : 0 < size) (obj : List Byte)
    (pos : Nat) :
    readRecords size count ⟨obj, pos⟩ =
      if pos + size * count ≤ obj.length ∨ size * count = 0 then
        some (Record.parse size count (slice obj pos (size * count)), ⟨obj, pos + size * count⟩)
      else none := by
  rw [readRecords, FileStream.readVector_eq _ _ hsize, FileStream.readPod_eq]
  by_cases h : pos + size * count ≤ FileStream.size ⟨obj, pos⟩ ∨ size * count = 0
  · rw [if_pos h]
    exact (if_pos h).symm
  · rw [if_neg h]
    exact (if_neg h).symm

theorem seekSet_eq (tableHeader : TropusrTableHeader) :
    seekSet ⟨obj, pos⟩ (TropusrTableHeader.offset tableHeader) = ⟨obj, place pos tableHeader⟩ := by
  unfold seekSet place
  split
  · rfl
  · rfl

-- One table: nothing but the header decides where it is read from and how much is read.
theorem loadTable_eq (tableHeader : TropusrTableHeader) :
    loadTable tableHeader tables ⟨obj, pos⟩ =
      if place pos tableHeader + tableSize tableHeader ≤ obj.length ∨ tableSize tableHeader = 0 then
        some ({
          table4 := if TropusrTableHeader.type tableHeader = 4 then
            tableAt 0x60 obj (tableHeader, place pos tableHeader) else tables.table4
          table6 := if TropusrTableHeader.type tableHeader = 6 then
            tableAt 0x70 obj (tableHeader, place pos tableHeader) else tables.table6 },
          ⟨obj, place pos tableHeader + tableSize tableHeader⟩)
      else none := by
  unfold loadTable tableSize
  dsimp only
  rw [seekSet_eq]
  by_cases h4 : TropusrTableHeader.type tableHeader = 4
  · have h6 : TropusrTableHeader.type tableHeader ≠ 6 := by omega
    simp only [if_pos h4, if_neg h6]
    rw [readRecords_eq _ (by decide)]
    by_cases hfit : place pos tableHeader + 0x60 * TropusrTableHeader.entriesCount tableHeader ≤
        obj.length ∨ 0x60 * TropusrTableHeader.entriesCount tableHeader = 0
    · rw [if_pos hfit, if_pos hfit]
      rfl
    · rw [if_neg hfit, if_neg hfit]
  · simp only [if_neg h4]
    by_cases h6 : TropusrTableHeader.type tableHeader = 6
    · simp only [if_pos h6]
      rw [readRecords_eq _ (by decide)]
      by_cases hfit : place pos tableHeader + 0x70 * TropusrTableHeader.entriesCount tableHeader ≤
          obj.length ∨ 0x70 * TropusrTableHeader.entriesCount tableHeader = 0
      · rw [if_pos hfit, if_pos hfit]
        rfl
      · rw [if_neg hfit, if_neg hfit]
    · simp only [if_neg h6]
      simp

theorem lastTable_cons (size type : Nat) (before : List (Record size))
    (entry : TropusrTableHeader × Nat) (rest : List (TropusrTableHeader × Nat)) :
    lastTable size type obj before (entry :: rest) =
      lastTable size type obj
        (if TropusrTableHeader.type entry.1 = type then tableAt size obj entry else before) rest := by
  unfold lastTable
  rw [lastOf]
  cases lastOf type rest with
  | some later => rfl
  | none =>
      split
      · rfl
      · rfl

theorem loadTables_eq_some {tableHeaders : List TropusrTableHeader} {result : Tables} :
    loadTables tableHeaders tables ⟨obj, pos⟩ = some result ↔
      InFile obj.length (places pos tableHeaders) ∧
        result = ⟨lastTable 0x60 4 obj tables.table4 (places pos tableHeaders),
          lastTable 0x70 6 obj tables.table6 (places pos tableHeaders)⟩ := by
  induction tableHeaders generalizing pos tables with
  | nil => simp [loadTables, places, InFile, lastTable, lastOf, eq_comm]
  | cons tableHeader rest ih =>
      rw [loadTables, loadTable_eq, places, lastTable_cons, lastTable_cons]
      by_cases h : place pos tableHeader + tableSize tableHeader ≤ obj.length ∨
          tableSize tableHeader = 0
      · rw [if_pos h]
        dsimp only
        rw [ih]
        simp only [InFile, List.forall_mem_cons, or_comm.mp h, true_and]
      · rw [if_neg h]
        constructor
        · intro hnone
          cases hnone
        · rintro ⟨hin, -⟩
          exact absurd (or_comm.mp (hin _ List.mem_cons_self)) h

theorem loadHeader_eq_some {header : TropusrHeader} {file : FileStream} :
    loadHeader (FileStream.ofBytes obj) = some (header, file) ↔
      (∃ rest, obj = header.bytes ++ rest) ∧ TropusrHeader.magic header = tropusrMagic ∧
        file = ⟨obj, 0x30⟩ := by
  have hread : ((FileStream.ofBytes obj).seek 0).readPod 0x30 =
      if 0x30 ≤ obj.length then some (slice obj 0 0x30, ⟨obj, 0x30⟩) else none := by
    rw [FileStream.readPod_eq]
    simp [FileStream.ofBytes, FileStream.seek, FileStream.size]
  rw [loadHeader, hread]
  constructor
  · intro h
    by_cases hlen : 0x30 ≤ obj.length
    · rw [if_pos hlen] at h
      dsimp only at h
      split at h
      · cases h
      · rename_i hmagic
        cases h
        refine ⟨⟨obj.drop 0x30, ?_⟩, not_not.mp hmagic, rfl⟩
        rw [Record.ofBytes_bytes (by rw [length_slice]; omega)]
        exact (List.take_append_drop 0x30 obj).symm
    · rw [if_neg hlen] at h
      cases h
  · rintro ⟨⟨rest, rfl⟩, hmagic, rfl⟩
    have hlen : 0x30 ≤ (header.bytes ++ rest).length := by
      rw [List.length_append, header.length_eq]
      omega
    have hheader : Record.ofBytes 0x30 (slice (header.bytes ++ rest) 0 0x30) = header := by
      rw [slice_front _ _ header.length_eq.symm]
      exact Record.ext (Record.ofBytes_bytes header.length_eq)
    rw [if_pos hlen]
    dsimp only
    rw [hheader, if_neg (not_not.mpr hmagic)]

theorem loadTableHeaders_eq_some {tablesCount : Nat} {header : TropusrHeader} {rest : List Byte}
    {tableHeaders : List TropusrTableHeader} {file : FileStream} :
    loadTableHeaders tablesCount ⟨header.bytes ++ rest, pos⟩ = some (tableHeaders, file) ↔
      (∃ rest', rest = Record.flatten tableHeaders ++ rest') ∧ tableHeaders.length = tablesCount ∧
        file = ⟨header.bytes ++ rest, 0x30 + 0x20 * tablesCount⟩ := by
  have hslice : slice (header.bytes ++ rest) 0x30 (0x20 * tablesCount) =
      rest.take (0x20 * tablesCount) := by
    rw [slice, List.drop_append_of_le_length header.length_eq.ge,
      List.drop_of_length_le header.length_eq.le, List.nil_append]
  have hseek : FileStream.seek ⟨header.bytes ++ rest, pos⟩ 0x30 = ⟨header.bytes ++ rest, 0x30⟩ := rfl
  rw [loadTableHeaders, hseek, readRecords_eq _ (by decide), hslice, List.length_append,
    header.length_eq]
  constructor
  · intro h
    split at h
    · rename_i hfit
      cases h
      refine ⟨⟨rest.drop (0x20 * tablesCount), ?_⟩, Record.length_parse _ _, rfl⟩
      rw [Record.flatten_parse (by rw [List.length_take]; omega), List.take_append_drop]
    · cases h
  · rintro ⟨⟨rest', rfl⟩, rfl, rfl⟩
    have hlen := Record.length_flatten tableHeaders
    rw [if_pos (by rw [List.length_append]; omega), ← hlen, List.take_left,
      Record.parse_flatten]

-- An accepted file starts with the headers; the tables are where these say.
theorem load_eq_some {loader : TropusrLoader} :
    load obj = some loader ↔
      (∃ rest, obj = loader.header.bytes ++ (Record.flatten loader.tableHeaders ++ rest)) ∧
      TropusrHeader.magic loader.header = tropusrMagic ∧
      loader.tableHeaders.length = TropusrHeader.tablesCount loader.header ∧
      InFile obj.length (places (0x30 + 0x20 * loader.tableHeaders.length) loader.tableHeaders) ∧
      loader.tables =
        ⟨lastTable 0x60 4 obj []
            (places (0x30 + 0x20 * loader.tableHeaders.length) loader.tableHeaders),
          lastTable 0x70 6 obj []
            (places (0x30 + 0x20 * loader.tableHeaders.length) loader.tableHeaders)⟩ := by
  unfold load
  constructor
  · intro h
    split at h
    · cases h
    rename_i header file hheader
    obtain ⟨⟨rest, rfl⟩, hmagic, rfl⟩ := loadHeader_eq_some.mp hheader
    split at h
    · cases h
    rename_i tableHeaders file htables
    obtain ⟨⟨rest', rfl⟩, hcount, rfl⟩ := loadTableHeaders_eq_some.mp htables
    split at h
    · cases h
    rename_i tables hload
    rw [← hcount] at hload
    obtain ⟨hin, htables'⟩ := loadTables_eq_some.mp hload
    cases h
    exact ⟨⟨rest', rfl⟩, hmagic, hcount, hin, htables'⟩
  · rintro ⟨⟨rest, rfl⟩, hmagic, hcount, hin, htables⟩
    rw [loadHeader_eq_some.mpr ⟨⟨_, rfl⟩, hmagic, rfl⟩]
    dsimp only
    rw [loadTableHeaders_eq_some.mpr ⟨⟨rest, rfl⟩, hcount, rfl⟩, ← hcount]
    dsimp only
    rw [loadTables_eq_some.mpr ⟨hin, htables⟩]

end Load

-- The calls change entries of table 6 in place, and nothing else.
structure SameShape (before after : TropusrLoader) : Prop where
  header : after.header = before.header
  tableHeaders : after.tableHeaders = before.tableHeaders
  table4 : after.tables.table4 = before.tables.table4
  table6 : after.tables.table6.length = before.tables.table6.length

section Calls

variable {loader before after : TropusrLoader}

theorem SameShape.refl (loader : TropusrLoader) : SameShape loader loader := ⟨rfl, rfl, rfl, rfl⟩

theorem SameShape.trans {last : TropusrLoader} (h : SameShape before after)
    (h' : SameShape after last) : SameShape before last :=
  ⟨h'.header.trans h.header, h'.tableHeaders.trans h.tableHeaders, h'.table4.trans h.table4,
    h'.table6.trans h.table6⟩

theorem sameShape_setTrophy (loader : TropusrLoader) (id trophyState timestamp1 timestamp2 : Nat) :
    SameShape loader (setTrophy loader id trophyState timestamp1 timestamp2) :=
  ⟨rfl, rfl, rfl, List.length_modify _ _ _⟩

theorem sameShape_step (loader : TropusrLoader) (call : Call) :
    SameShape loader (step loader call) := by
  cases call with
  | unlockTrophy id timestamp1 timestamp2 =>
      unfold step unlockTrophy
      dsimp only
      split
      · exact .refl loader
      · exact sameShape_setTrophy loader ..
  | lockTrophy id =>
      unfold step lockTrophy
      dsimp only
      split
      · exact .refl loader
      · exact sameShape_setTrophy loader ..

theorem sameShape_run (calls : List Call) (loader : TropusrLoader) :
    SameShape loader (run calls loader) := by
  induction calls generalizing loader with
  | nil => exact .refl loader
  | cons call rest ih => exact (sameShape_step loader call).trans (ih _)

def tablesStart (loader : TropusrLoader) : Nat := 0x30 + 0x20 * loader.tableHeaders.length

def tablePlaces (loader : TropusrLoader) : List (TropusrTableHeader × Nat) :=
  places (tablesStart loader) loader.tableHeaders

def tables6Start (loader : TropusrLoader) : Nat :=
  tablesStart loader + 0x60 * loader.tables.table4.length

theorem save_length (loader : TropusrLoader) :
    (save loader).length = tables6Start loader + 0x70 * loader.tables.table6.length := by
  simp only [save, List.length_append, Record.length_flatten, loader.header.length_eq, tables6Start,
    tablesStart]
  omega

-- The table headers fit the way Save lays the tables out: every table that Load reads lies in the
-- saved file, and the last one of either type is empty or at the place where Save puts it.
structure TablesInFile (loader : TropusrLoader) : Prop where
  inFile : InFile (save loader).length (tablePlaces loader)
  table6 : ∀ entry, lastOf 6 (tablePlaces loader) = some entry →
    TropusrTableHeader.entriesCount entry.1 = 0 ∨ entry.2 = tables6Start loader

-- A table 4 among the headers is found again as well: Save writes these as they were.
def Table4InPlace (loader : TropusrLoader) : Prop :=
  ∀ entry, lastOf 4 (tablePlaces loader) = some entry →
    TropusrTableHeader.entriesCount entry.1 = 0 ∨ entry.2 = tablesStart loader ∨
      entry.2 + 0x60 * TropusrTableHeader.entriesCount entry.1 ≤ tablesStart loader

-- The saved file is accepted and gives the tables that were saved.
def Reloads (loader : TropusrLoader) : Prop :=
  ∃ again, load (save loader) = some again ∧ again.tables.table4 = loader.tables.table4 ∧
    again.tables.table6 = loader.tables.table6

theorem tableAt_eq {size : Nat} {records : List (Record size)} {obj : List Byte}
    {entry : TropusrTableHeader × Nat}
    (hcount : TropusrTableHeader.entriesCount entry.1 = records.length)
    (hslice : slice obj entry.2 (size * records.length) = Record.flatten records) :
    tableAt size obj entry = records := by
  unfold tableAt
  dsimp only
  rw [hcount, hslice, Record.parse_flatten]

theorem slice_save_table4 (loader : TropusrLoader) :
    slice (save loader) (tablesStart loader) (0x60 * loader.tables.table4.length) =
      Record.flatten loader.tables.table4 := by
  unfold save
  rw [← List.append_assoc loader.header.bytes]
  apply slice_append
  · rw [List.length_append, loader.header.length_eq, Record.length_flatten, tablesStart]
  · rw [Record.length_flatten]

theorem slice_save_table6 (loader : TropusrLoader) :
    slice (save loader) (tables6Start loader) (0x70 * loader.tables.table6.length) =
      Record.flatten loader.tables.table6 := by
  have happend : save loader = (loader.header.bytes ++ Record.flatten loader.tableHeaders ++
      Record.flatten loader.tables.table4) ++ (Record.flatten loader.tables.table6 ++ []) := by
    simp only [save, List.append_assoc, List.append_nil]
  rw [happend]
  apply slice_append
  · simp only [List.length_append, loader.header.length_eq, Record.length_flatten, tables6Start,
      tablesStart]
  · rw [Record.length_flatten]

-- What Load made of a table header: the entries it announces.
theorem lastTable_length {size type : Nat} {obj : List Byte}
    {entries : List (TropusrTableHeader × Nat)} {entry : TropusrTableHeader × Nat}
    (h : lastOf type entries = some entry) :
    (lastTable size type obj [] entries).length = TropusrTableHeader.entriesCount entry.1 := by
  rw [lastTable, h]
  exact Record.length_parse _ _

theorem lastTable_none {size type : Nat} {obj : List Byte}
    {entries : List (TropusrTableHeader × Nat)} (h : lastOf type entries = none) :
    lastTable size type obj [] entries = [] := by
  rw [lastTable, h]
  rfl

-- A table that is read back from a place where its bytes are.
theorem lastTable_save {size type : Nat} (obj : List Byte) {saved : List Byte}
    {entries : List (TropusrTableHeader × Nat)} {records : List (Record size)}
    (hlength : records.length = (lastTable size type obj [] entries).length)
    (hplace : ∀ entry, lastOf type entries = some entry →
      TropusrTableHeader.entriesCount entry.1 = 0 ∨
        slice saved entry.2 (size * records.length) = Record.flatten records) :
    lastTable size type saved [] entries = records := by
  cases hlast : lastOf type entries with
  | none =>
      rw [lastTable_none hlast] at hlength ⊢
      exact (List.length_eq_zero_iff.mp hlength).symm
  | some entry =>
      rw [lastTable_length hlast] at hlength
      rw [lastTable, hlast]
      rcases hplace entry hlast with hzero | hslice
      · rw [hzero] at hlength
        have hnil := List.length_eq_zero_iff.mp hlength
        subst hnil
        exact List.length_eq_zero_iff.mp ((Record.length_parse _ _).trans hzero)
      · exact tableAt_eq hlength.symm hslice

theorem load_save {obj : List Byte} (hload : load obj = some before)
    (hshape : SameShape before after) (hpacked : TablesInFile before)
    (htable4 : Table4InPlace before) : load (save after) = some after := by
  obtain ⟨⟨rest, hrest⟩, hmagic, hcount, -, htables⟩ := load_eq_some.mp hload
  have hstart : tablesStart after = tablesStart before := by
    rw [tablesStart, tablesStart, hshape.tableHeaders]
  have hstart6 : tables6Start after = tables6Start before := by
    rw [tables6Start, tables6Start, hstart, hshape.table4]
  have hsave : (save after).length = (save before).length := by
    rw [save_length, save_length, hstart6, hshape.table6]
  have hplaces : tablePlaces after = tablePlaces before := by
    rw [tablePlaces, tablePlaces, hstart, hshape.tableHeaders]
  have hbefore4 : before.tables.table4 = lastTable 0x60 4 obj [] (tablePlaces before) := by
    rw [htables]
    rfl
  have hbefore6 : before.tables.table6 = lastTable 0x70 6 obj [] (tablePlaces before) := by
    rw [htables]
    rfl
  have h4 : lastTable 0x60 4 (save after) [] (tablePlaces after) = after.tables.table4 := by
    rw [hplaces]
    apply lastTable_save obj
    · rw [hshape.table4, hbefore4]
    · intro entry hlast
      apply (htable4 entry hlast).imp_right
      rintro (hplace | hplace)
      · rw [hplace, ← hstart]
        exact slice_save_table4 after
      · -- Both files start with the headers, and the table ends before they do.
        have hheaders : (before.header.bytes ++ Record.flatten before.tableHeaders).length =
            tablesStart before := by
          rw [List.length_append, before.header.length_eq, Record.length_flatten, tablesStart]
        have hlength : before.tables.table4.length =
            TropusrTableHeader.entriesCount entry.1 := by
          rw [hbefore4]
          exact lastTable_length hlast
        rw [hshape.table4, save, hshape.header, hshape.tableHeaders, ← List.append_assoc, hlength,
          slice_of_le_length (by omega), hbefore4, lastTable, hlast]
        symm
        rw [hrest, ← List.append_assoc]
        apply (Record.flatten_parse _).trans
        · exact slice_of_le_length (by omega)
        · rw [length_slice, List.length_append]
          omega
  have h6 : lastTable 0x70 6 (save after) [] (tablePlaces after) = after.tables.table6 := by
    rw [hplaces]
    apply lastTable_save obj
    · rw [hshape.table6, hbefore6]
    · intro entry hlast
      apply (hpacked.table6 entry hlast).imp_right
      intro hplace
      rw [hplace, ← hstart6]
      exact slice_save_table6 after
  apply load_eq_some.mpr
  refine ⟨⟨_, rfl⟩, ?_, ?_, ?_, ?_⟩
  · rw [hshape.header]
    exact hmagic
  · rw [hshape.header, hshape.tableHeaders]
    exact hcount
  · have hin := hpacked.inFile
    rw [← hsave, ← hplaces] at hin
    exact hin
  · exact (congr (congrArg Tables.mk h4) h6).symm

theorem flatten_injective {size : Nat} {left right : List (Record size)}
    (hlength : left.length = right.length) (h : Record.flatten left = Record.flatten right) :
    left = right := by
  rw [← Record.parse_flatten left, ← Record.parse_flatten right, h, hlength]

-- Reading a saved file finds its headers again.
theorem tablePlaces_of_load_save {again : TropusrLoader} (hload : load (save loader) = some again)
    (hcount : loader.tableHeaders.length = TropusrHeader.tablesCount loader.header) :
    tablePlaces again = tablePlaces loader := by
  obtain ⟨⟨rest, hrest⟩, -, hcount', -, -⟩ := load_eq_some.mp hload
  obtain ⟨hheader, htables⟩ := List.append_inj hrest
    (loader.header.length_eq.trans again.header.length_eq.symm)
  have hheader' : loader.header = again.header := Record.ext hheader
  have hlength : loader.tableHeaders.length = again.tableHeaders.length := by
    rw [hcount, hcount', hheader']
  have hflatten := (List.append_inj htables
    (by rw [Record.length_flatten, Record.length_flatten, hlength])).1
  rw [tablePlaces, tablePlaces, tablesStart, tablesStart, flatten_injective hlength hflatten]

theorem lastOf_spec {type : Nat} {entries : List (TropusrTableHeader × Nat)}
    {entry : TropusrTableHeader × Nat} (h : lastOf type entries = some entry) :
    entry ∈ entries ∧ TropusrTableHeader.type entry.1 = type := by
  induction entries with
  | nil => cases h
  | cons head rest ih =>
      rw [lastOf] at h
      cases hrest : lastOf type rest with
      | some later =>
          rw [hrest] at h
          obtain ⟨hmem, htype⟩ := ih (hrest.trans h)
          exact ⟨List.mem_cons_of_mem _ hmem, htype⟩
      | none =>
          rw [hrest, Option.none_or] at h
          split at h
          · rename_i htype
            cases h
            exact ⟨List.mem_cons_self, htype⟩
          · cases h

-- The bytes at the place of table 6 in a saved file that reloads.
theorem Reloads.slice_table6 (h : Reloads loader)
    (hcount : loader.tableHeaders.length = TropusrHeader.tablesCount loader.header)
    {entry : TropusrTableHeader × Nat} (hlast : lastOf 6 (tablePlaces loader) = some entry) :
    slice (save loader) entry.2 (0x70 * TropusrTableHeader.entriesCount entry.1) =
      Record.flatten loader.tables.table6 := by
  obtain ⟨again, hload, -, htable6⟩ := h
  have hplaces := tablePlaces_of_load_save hload hcount
  obtain ⟨-, -, -, hin, htables⟩ := load_eq_some.mp hload
  obtain ⟨hmem, htype⟩ := lastOf_spec hlast
  have hentry := hin entry (by rw [← hplaces] at hmem; exact hmem)
  have hsize : tableSize entry.1 = 0x70 * TropusrTableHeader.entriesCount entry.1 := by
    rw [tableSize, htype]
    rfl
  rw [hsize] at hentry
  have hagain : again.tables.table6 = tableAt 0x70 (save loader) entry := by
    rw [htables]
    change lastTable 0x70 6 (save loader) [] (tablePlaces again) = _
    rw [hplaces, lastTable, hlast]
    rfl
  rw [← htable6, hagain]
  symm
  apply Record.flatten_parse
  rw [length_slice]
  omega

-- The last byte of timestamp1 is byte 39 of an entry.
theorem set_bytes (entry : TropusrEntry6) :
    ∃ left right : List Byte, left.length = 39 ∧ ∀ timestamp1 < 256,
      (TropusrEntry6.set entry 1 timestamp1 0).bytes =
        left ++ Fin.ofNat 256 timestamp1 :: right := by
  let first := (entry.setField 20 4 1).bytes
  have hfirst : first.length = 0x70 := (entry.setField 20 4 1).length_eq
  refine ⟨first.take 32 ++ (leBytes 7 0).reverse, Record.beBytes 8 0 ++ first.drop 48, ?_, ?_⟩
  · rw [List.length_append, List.length_take, List.length_reverse, length_leBytes, hfirst]
    rfl
  · intro timestamp1 hlt
    have hbytes : Record.beBytes 8 timestamp1 = (leBytes 7 0).reverse ++ [Fin.ofNat 256 timestamp1] := by
      rw [Record.beBytes, leBytes, Nat.div_eq_of_lt hlt, List.reverse_cons]
    have hsecond : ((entry.setField 20 4 1).setField 32 8 timestamp1).bytes =
        (first.take 32 ++ Record.beBytes 8 timestamp1) ++ first.drop 40 := by
      rw [Record.setField_bytes _ _ (by decide), List.append_assoc]
    have hlen : (first.take 32 ++ Record.beBytes 8 timestamp1).length = 40 := by
      rw [List.length_append, List.length_take, Record.length_beBytes, hfirst]
      rfl
    rw [TropusrEntry6.set, Record.setField_bytes _ _ (by decide), hsecond,
      List.take_append_of_le_length hlen.ge, List.take_of_length_le hlen.le, List.drop_append, hlen,
      List.drop_of_length_le (by rw [hlen]; decide), List.drop_drop, hbytes]
    simp only [List.append_assoc, List.nil_append, List.cons_append]

-- Saving after the first trophy was unlocked: timestamp1 shows in one byte of the file.
theorem save_unlock (hne : loader.tables.table6 ≠ []) :
    ∃ left right rest : List Byte, left.length = 39 ∧ ∀ timestamp1 < 256,
      Record.flatten (run [.unlockTrophy 0 timestamp1 0] loader).tables.table6 =
        left ++ Fin.ofNat 256 timestamp1 :: right ∧
      save (run [.unlockTrophy 0 timestamp1 0] loader) =
        rest ++ (left ++ Fin.ofNat 256 timestamp1 :: right) ∧
      rest.length = tables6Start loader := by
  obtain ⟨entry, entries, hentries⟩ := List.exists_cons_of_ne_nil hne
  obtain ⟨left, right, hleft, hset⟩ := set_bytes entry
  refine ⟨left, right ++ Record.flatten entries, loader.header.bytes ++
    (Record.flatten loader.tableHeaders ++ Record.flatten loader.tables.table4), hleft, ?_⟩
  intro timestamp1 hlt
  have hrun : run [.unlockTrophy 0 timestamp1 0] loader = setTrophy loader 0 1 timestamp1 0 := by
    have hlen : ¬loader.tables.table6.length ≤ 0 := by
      rw [hentries, List.length_cons]
      omega
    change (unlockTrophy loader 0 timestamp1 0).1 = _
    rw [unlockTrophy, if_neg hlen]
  have hflatten : Record.flatten (setTrophy loader 0 1 timestamp1 0).tables.table6 =
      left ++ Fin.ofNat 256 timestamp1 :: (right ++ Record.flatten entries) := by
    change Record.flatten (loader.tables.table6.modify 0 _) = _
    rw [hentries, List.modify_zero_cons, Record.flatten_cons, hset timestamp1 hlt,
      List.append_assoc, List.cons_append]
  rw [hrun, hflatten]
  refine ⟨rfl, ?_, ?_⟩
  · rw [save, hflatten]
    simp only [setTrophy, List.append_assoc]
  · simp only [List.length_append, loader.header.length_eq, Record.length_flatten, tables6Start,
      tablesStart]
    omega

-- Replacing one element is not seen at another index.
theorem getElem?_append_cons_of_ne {left right : List Byte} {index : Nat} (first second : Byte)
    (h : index ≠ left.length) :
    (left ++ first :: right)[index]? = (left ++ second :: right)[index]? := by
  by_cases hlt : index < left.length
  · rw [List.getElem?_append_left hlt, List.getElem?_append_left hlt]
  · obtain ⟨more, hmore⟩ : ∃ more, index - left.length = more + 1 := ⟨index - left.length - 1, by omega⟩
    rw [List.getElem?_append_right (by omega), List.getElem?_append_right (by omega), hmore,
      List.getElem?_cons_succ, List.getElem?_cons_succ]

theorem tablesInFile_of_reloads {obj : List Byte} (hload : load obj = some loader)
    (h : ∀ calls, Reloads (run calls loader)) : TablesInFile loader := by
  obtain ⟨-, -, hcount, -, htables⟩ := load_eq_some.mp hload
  constructor
  · obtain ⟨again, hagain, -, -⟩ := h []
    have hin := (load_eq_some.mp hagain).2.2.2.1
    change InFile (save loader).length (tablePlaces again) at hin
    rw [tablePlaces_of_load_save hagain hcount] at hin
    exact hin
  · intro entry hlast
    by_cases hzero : TropusrTableHeader.entriesCount entry.1 = 0
    · exact Or.inl hzero
    right
    have hlength : loader.tables.table6.length = TropusrTableHeader.entriesCount entry.1 := by
      rw [htables]
      exact lastTable_length hlast
    obtain ⟨left, right, rest, hleft, hsave⟩ :=
      save_unlock (List.ne_nil_of_length_pos (by omega) : loader.tables.table6 ≠ [])
    -- In the file saved after an unlock, byte 39 behind the place of table 6 is the timestamp.
    have hbyte : ∀ timestamp1 < 256, (rest ++ (left ++ Fin.ofNat 256 timestamp1 :: right))[entry.2 +
        39]? = some (Fin.ofNat 256 timestamp1) := by
      intro timestamp1 hlt
      obtain ⟨hflatten, hbytes, -⟩ := hsave timestamp1 hlt
      have hshape := sameShape_run [.unlockTrophy 0 timestamp1 0] loader
      have hslice := (h [.unlockTrophy 0 timestamp1 0]).slice_table6
        (by rw [hshape.header, hshape.tableHeaders]; exact hcount)
        (by rw [tablePlaces, tablesStart, hshape.tableHeaders]; exact hlast)
      rw [hflatten, hbytes, slice] at hslice
      have hget := congrArg (fun bytes => bytes[39]?) hslice
      have htimestamp : (left ++ Fin.ofNat 256 timestamp1 :: right)[39]? =
          some (Fin.ofNat 256 timestamp1) := by
        rw [List.getElem?_append_right (by omega), hleft]
        rfl
      rw [List.getElem?_take_of_lt (by omega), List.getElem?_drop, htimestamp] at hget
      exact hget
    by_contra hne
    have hrest := (hsave 0 (by decide)).2.2
    have hlen : (rest ++ left).length = tables6Start loader + 39 := by
      rw [List.length_append, hrest, hleft]
    have h0 := hbyte 0 (by decide)
    have h1 := hbyte 1 (by decide)
    rw [← List.append_assoc] at h0 h1
    rw [getElem?_append_cons_of_ne _ (Fin.ofNat 256 1) (by omega), h1] at h0
    exact absurd h0 (by decide)

-- Saving and loading again after any calls gives the saved tables when the table headers agree
-- with the way Save lays the tables out, and it takes that for table 6 and for the file's size.
theorem save_reloads (obj : List Byte) (loader : TropusrLoader) (hload : load obj = some loader) :
    (TablesInFile loader ∧ Table4InPlace loader → ∀ calls, Reloads (run calls loader)) ∧
      ((∀ calls, Reloads (run calls loader)) → TablesInFile loader) := by
  refine ⟨?_, tablesInFile_of_reloads hload⟩
  intro hpacked calls
  exact ⟨_, load_save hload (sameShape_run calls loader) hpacked.1 hpacked.2, rfl, rfl⟩

end Calls

-- A loader with one table: one locked trophy of table 6, read from the given offset.
def oneTrophy (offset : Nat) : TropusrLoader where
  header := ((Record.ofBytes 0x30 []).setField 0 4 tropusrMagic).setField 8 4 1
  tableHeaders := [(((Record.ofBytes 0x20 []).setField 0 4 6).setField 12 4 1).setField 16 8 offset]
  tables := ⟨[], [Record.ofBytes 0x70 []]⟩

theorem save_reloads_oneTrophy :
    load (save (oneTrophy 0x50)) = some (oneTrophy 0x50) ∧
      ∀ calls, Reloads (run calls (oneTrophy 0x50)) := by
  have hload : load (save (oneTrophy 0x50)) = some (oneTrophy 0x50) := by decide +kernel
  refine ⟨hload, (save_reloads _ _ hload).1 ⟨⟨?_, ?_⟩, ?_⟩⟩
  · unfold InFile
    decide +kernel
  · intro entry hlast
    have hplace : (lastOf 6 (tablePlaces (oneTrophy 0x50))).map Prod.snd =
        some (tables6Start (oneTrophy 0x50)) := by decide
    rw [hlast] at hplace
    exact Or.inr (Option.some.inj hplace)
  · intro entry hlast
    have hnone : lastOf 4 (tablePlaces (oneTrophy 0x50)) = none := by decide
    rw [hnone] at hlast
    cases hlast

-- The same file with sixteen more bytes in front of its only table: Save drops them and keeps the
-- offset, and the table no longer ends inside the file.
def gapFile : List Byte :=
  (oneTrophy 0x60).header.bytes ++ (Record.flatten (oneTrophy 0x60).tableHeaders ++
    (List.replicate 16 0 ++ Record.flatten (oneTrophy 0x60).tables.table6))

theorem gap_is_not_saved :
    load gapFile = some (oneTrophy 0x60) ∧ load (save (oneTrophy 0x60)) = none ∧
      ¬∀ calls, Reloads (run calls (oneTrophy 0x60)) := by
  have hnone : load (save (oneTrophy 0x60)) = none := by decide +kernel
  refine ⟨by decide +kernel, hnone, ?_⟩
  intro h
  obtain ⟨again, hload, -⟩ := h []
  change load (save (oneTrophy 0x60)) = some again at hload
  rw [hnone] at hload
  cases hload

end Rpcsx.Tropusr
