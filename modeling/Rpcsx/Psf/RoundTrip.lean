import Rpcsx.Psf

namespace Rpcsx.FileStream

open Rpcsx.Data Rpcsx.Data.Bytes

-- A stream whose position is at its end.
def atEnd (obj : List Byte) : FileStream := ⟨obj, obj.length⟩

theorem write_atEnd (obj data : List Byte) : (atEnd obj).write data = atEnd (obj ++ data) := by
  simp [write, atEnd, size]

theorem extend_atEnd (obj : List Byte) (length : Nat) (h : obj.length ≤ length) :
    (⟨resize obj length, length⟩ : FileStream) =
      atEnd (obj ++ List.replicate (length - obj.length) 0) := by
  simp [atEnd, resize, List.take_of_length_le h, Nat.add_sub_cancel' h]

end Rpcsx.FileStream

namespace Rpcsx.Psf

open Rpcsx.Data Rpcsx.Data.Bytes
open FileStream (atEnd write_atEnd extend_atEnd)

variable {entries : List (List Byte × Entry)}

theorem Header.decode_encode (h : Header) (hm : h.magic < 2 ^ 32) (hv : h.version < 2 ^ 32)
    (hk : h.offKeyTable < 2 ^ 32) (hd : h.offDataTable < 2 ^ 32) (hn : h.entriesNum < 2 ^ 32) :
    decode h.encode = h := by
  obtain ⟨magic, version, offKeyTable, offDataTable, entriesNum⟩ := h
  have hlast : slice (leBytes 4 entriesNum ++ []) 0 4 = leBytes 4 entriesNum :=
    slice_leBytes entriesNum []
  rw [List.append_nil] at hlast
  simp only [Nat.reducePow] at hm hv hk hd hn
  simp (disch := omega) only [decode, encode, slice_skip, slice_leBytes, leValue_leBytes, hlast,
    Nat.reduceSub, Nat.reducePow, Nat.mod_eq_of_lt hm, Nat.mod_eq_of_lt hv, Nat.mod_eq_of_lt hk,
    Nat.mod_eq_of_lt hd, Nat.mod_eq_of_lt hn]

theorem Header.length_encode (h : Header) : h.encode.length = sizeOf := by
  simp [encode, sizeOf]

theorem DefTable.length_encode (t : DefTable) : t.encode.length = sizeOf := by
  simp [encode, sizeOf]

theorem DefTable.decode_encode (t : DefTable) (rest : List Byte) (hk : t.keyOff < 2 ^ 16)
    (hf : t.paramFmt < 2 ^ 16) (hl : t.paramLen < 2 ^ 32) (hm : t.paramMax < 2 ^ 32)
    (hd : t.dataOff < 2 ^ 32) : decode (t.encode ++ rest) = t := by
  obtain ⟨keyOff, paramFmt, paramLen, paramMax, dataOff⟩ := t
  simp only [Nat.reducePow] at hk hf hl hm hd
  simp (disch := omega) only [decode, encode, List.append_assoc, slice_skip, slice_leBytes,
    leValue_leBytes, Nat.reduceSub, Nat.reducePow, Nat.mod_eq_of_lt hk, Nat.mod_eq_of_lt hf,
    Nat.mod_eq_of_lt hl, Nat.mod_eq_of_lt hm, Nat.mod_eq_of_lt hd]

theorem DefTable.decodeAll_encode (tables : List DefTable)
    (h : ∀ t ∈ tables, t.keyOff < 2 ^ 16 ∧ t.paramFmt < 2 ^ 16 ∧ t.paramLen < 2 ^ 32 ∧
      t.paramMax < 2 ^ 32 ∧ t.dataOff < 2 ^ 32) :
    decodeAll tables.length (tables.flatMap encode) = tables := by
  induction tables with
  | nil => rfl
  | cons t rest ih =>
      obtain ⟨hk, hf, hl, hm, hd⟩ := h t (by simp)
      have hdrop : (t.encode ++ rest.flatMap encode).drop sizeOf = rest.flatMap encode := by
        rw [← t.length_encode, List.drop_left]
      simp only [List.length_cons, List.flatMap_cons, decodeAll, hdrop,
        t.decode_encode _ hk hf hl hm hd, ih fun u hu => h u (by simp [hu])]

-- The sections of a saved file.
def keyBlob (entries : List (List Byte × Entry)) : List Byte :=
  entries.flatMap fun entry => entry.1 ++ [0]

def Entry.image : Entry → List Byte
  | string maxSize value _ _ => value ++ List.replicate (maxSize - value.length) 0
  | array maxSize value _ _ => value ++ List.replicate (maxSize - value.length) 0
  | integer value _ => leBytes 4 value

def dataBlob (entries : List (List Byte × Entry)) : List Byte :=
  entries.flatMap fun entry => entry.2.image

theorem Entry.length_image {entry : Entry} (h : entry.isValid = true) :
    entry.image.length = entry.maxSize := by
  cases entry with
  | string maxSize value hmin hmax =>
      simp only [isValid, decide_eq_true_eq] at h
      simp only [image, Entry.maxSize, List.length_append, List.length_replicate]
      omega
  | array maxSize value hmin hmax =>
      simp only [isValid, decide_eq_true_eq] at h
      simp only [image, Entry.maxSize, List.length_append, List.length_replicate]
      omega
  | integer value hmax => simp [image, maxSize]

theorem Entry.maxSize_pos (entry : Entry) : 0 < entry.maxSize := by
  cases entry <;> simp only [maxSize] <;> omega

theorem Entry.maxSize_lt (entry : Entry) : entry.maxSize < 2 ^ 32 := by
  cases entry <;> simp only [maxSize] <;> omega

theorem Entry.size_le (entry : Entry) : entry.size ≤ entry.maxSize := by
  cases entry <;> simp only [maxSize, size] <;> omega

def makeDefTable (keyOffset dataOffset : Nat) (entry : Entry) : DefTable :=
  ⟨keyOffset % 2 ^ 16, entry.type.code, entry.size, entry.maxSize, dataOffset⟩

def defTables (keyOffset dataOffset : Nat) : List (List Byte × Entry) → List DefTable
  | [] => []
  | entry :: rest => makeDefTable keyOffset dataOffset entry.2 ::
      defTables (keyOffset + (entry.1.length + 1)) (dataOffset + entry.2.maxSize) rest

theorem length_defTables (keyOffset dataOffset : Nat) (entries : List (List Byte × Entry)) :
    (defTables keyOffset dataOffset entries).length = entries.length := by
  induction entries generalizing keyOffset dataOffset with
  | nil => rfl
  | cons entry rest ih => simp [defTables, ih]

section Offsets

variable (entries)

-- Where the entry behind a number of others starts in the key table and in the data table.
def keyOffset (count : Nat) : Nat := ((entries.take count).map fun entry => entry.1.length + 1).sum

def dataOffset (count : Nat) : Nat := ((entries.take count).map fun entry => entry.2.maxSize).sum

def dataTable : Nat :=
  Header.sizeOf + DefTable.sizeOf * entries.length + alignUp (keyOffset entries entries.length) 4

end Offsets

theorem length_keyBlob (entries : List (List Byte × Entry)) :
    (keyBlob entries).length = (entries.map fun entry => entry.1.length + 1).sum := by
  simp [keyBlob, List.length_flatMap]

theorem length_dataBlob (hvalid : ∀ entry ∈ entries, entry.2.isValid = true) :
    (dataBlob entries).length = (entries.map fun entry => entry.2.maxSize).sum := by
  rw [dataBlob, List.length_flatMap]
  congr 1
  apply List.map_congr_left
  intro entry he
  exact Entry.length_image (hvalid entry he)

-- The loop that generates the indices.
theorem makeIndex_spec (entries : List (List Byte × Entry)) (keyOffset dataOffset : Nat)
    (indices : List DefTable)
    (hk : keyOffset + (entries.map fun entry => entry.1.length + 1).sum < 2 ^ 32)
    (hd : ∀ pre entry post, entries = pre ++ entry :: post →
      dataOffset + (pre.map fun entry => entry.2.maxSize).sum < 2 ^ 32) :
    entries.foldlM makeIndex (keyOffset, dataOffset, indices) =
      .ok (keyOffset + (entries.map fun entry => entry.1.length + 1).sum,
        dataOffset + (entries.map fun entry => entry.2.maxSize).sum,
        indices ++ defTables keyOffset dataOffset entries) := by
  induction entries generalizing keyOffset dataOffset indices with
  | nil => simp [defTables, pure, Except.pure]
  | cons entry rest ih =>
      simp only [List.map_cons, List.sum_cons] at hk ⊢
      have hd₀ : dataOffset < 2 ^ 32 := by simpa using hd [] entry rest rfl
      have hsize : entry.2.size < 2 ^ 32 := entry.2.size_le.trans_lt entry.2.maxSize_lt
      have hmax : entry.2.max true = entry.2.maxSize := by simp [Entry.max]
      have hstep : makeIndex (keyOffset, dataOffset, indices) entry =
          .ok (keyOffset + (entry.1.length + 1), dataOffset + entry.2.maxSize,
            indices ++ [makeDefTable keyOffset dataOffset entry.2]) := by
        have hk₀ : keyOffset < 2 ^ 32 := by omega
        have hk₁ : entry.1.length + 1 < 2 ^ 32 := by omega
        simp only [Nat.reducePow] at hk₀ hk₁ hsize hd₀
        simp [makeIndex, narrow, hk₀, hk₁, hsize, hd₀, hmax, makeDefTable, bind, Except.bind, pure,
          Except.pure]
      rw [List.foldlM_cons, hstep]
      simp only [bind, Except.bind]
      rw [ih _ _ _ (by omega) ?_]
      · simp [defTables, Nat.add_assoc]
      · intro pre entry' post hsplit
        have h := hd (entry :: pre) entry' post (by simp [hsplit])
        simpa [Nat.add_assoc] using h

theorem writeKeys_spec (obj : List Byte) (entries : List (List Byte × Entry)) :
    entries.foldl writeKey (atEnd obj) = atEnd (obj ++ keyBlob entries) := by
  induction entries generalizing obj with
  | nil => simp [keyBlob]
  | cons entry rest ih =>
      simp [writeKey, write_atEnd, ih, keyBlob]

theorem writeData_spec {entry : List Byte × Entry} (obj : List Byte)
    (hvalid : entry.2.isValid = true) :
    writeData (atEnd obj) entry = atEnd (obj ++ entry.2.image) := by
  obtain ⟨key, entry⟩ := entry
  have htext (value : List Byte) (hle : value.length ≤ entry.maxSize) :
      writeText (atEnd obj) entry value =
        atEnd (obj ++ (value ++ List.replicate (entry.maxSize - value.length) 0)) := by
    have hmax : entry.max true = entry.maxSize := by simp [Entry.max]
    have hext := extend_atEnd (obj ++ value)
      ((obj ++ value).length + (entry.maxSize - value.length)) (by omega)
    simp only at hvalid
    simp only [writeText, hvalid, if_true, write_atEnd, hmax]
    simpa [FileStream.seekCur, FileStream.trunc, atEnd] using hext
  cases entry with
  | integer value hmax => simp [writeData, Entry.image, write_atEnd]
  | string maxSize value hmin hmax =>
      simp only [Entry.isValid, decide_eq_true_eq] at hvalid
      exact htext value (by simp only [Entry.maxSize]; omega)
  | array maxSize value hmin hmax =>
      simp only [Entry.isValid, decide_eq_true_eq] at hvalid
      exact htext value (by simp only [Entry.maxSize]; omega)

theorem writeDatas_spec (obj : List Byte) (hvalid : ∀ entry ∈ entries, entry.2.isValid = true) :
    entries.foldl writeData (atEnd obj) = atEnd (obj ++ dataBlob entries) := by
  induction entries generalizing obj with
  | nil => simp [dataBlob]
  | cons entry rest ih =>
      rw [List.foldl_cons, writeData_spec obj (hvalid entry (by simp)),
        ih _ fun e he => hvalid e (by simp [he])]
      simp [dataBlob]

theorem le_alignUp (value : Nat) : value ≤ alignUp value 4 := by
  unfold alignUp
  omega

-- The header and the bytes in front of the data table.
def savedHeader (entries : List (List Byte × Entry)) : Header where
  magic := magic
  version := 0x101
  offKeyTable := Header.sizeOf + DefTable.sizeOf * entries.length
  offDataTable := dataTable entries
  entriesNum := entries.length

def padding (entries : List (List Byte × Entry)) : List Byte :=
  List.replicate (alignUp (keyOffset entries entries.length) 4 - keyOffset entries entries.length) 0

def savedFile (entries : List (List Byte × Entry)) : List Byte :=
  (savedHeader entries).encode ++ ((defTables 0 0 entries).flatMap DefTable.encode ++
    ((keyBlob entries ++ padding entries) ++ dataBlob entries))

-- Every key and every value of the file starts at a position that its field can hold.
def OffsetsFit (psf : Registry) : Prop :=
  ∀ i < psf.size, keyOffset psf.entries i < 2 ^ 16 ∧
    dataTable psf.entries + dataOffset psf.entries i < 2 ^ 32

theorem length_flatMap_encode (tables : List DefTable) :
    (tables.flatMap DefTable.encode).length = DefTable.sizeOf * tables.length := by
  induction tables with
  | nil => rfl
  | cons t rest ih =>
      simp only [List.flatMap_cons, List.length_append, t.length_encode, ih, List.length_cons,
        Nat.mul_succ]
      omega

theorem keyOffset_all (entries : List (List Byte × Entry)) :
    keyOffset entries entries.length = (keyBlob entries).length := by
  rw [keyOffset, List.take_length, length_keyBlob]

theorem saveObject_eq (psf : Registry) (hvalid : ∀ entry ∈ psf.entries, entry.2.isValid = true)
    (hne : psf.entries ≠ []) (hfit : OffsetsFit psf) :
    saveObject psf = .ok (savedFile psf.entries) := by
  have hpos : 0 < psf.size := List.length_pos_iff.mpr hne
  have htable : dataTable psf.entries < 2 ^ 32 := by
    have h := (hfit 0 hpos).2
    omega
  have hkey : keyOffset psf.entries psf.entries.length =
      (psf.entries.map fun entry => entry.1.length + 1).sum := by
    rw [keyOffset, List.take_length]
  have halign := le_alignUp (keyOffset psf.entries psf.entries.length)
  have hindex := makeIndex_spec psf.entries 0 0 [] ?_ ?_
  · simp only [Nat.zero_add, List.nil_append, ← hkey] at hindex
    have hk : Header.sizeOf + DefTable.sizeOf * psf.size < 2 ^ 32 := by
      have h : Header.sizeOf + DefTable.sizeOf * psf.size ≤ dataTable psf.entries :=
        Nat.le_add_right _ _
      omega
    have hn : psf.size < 2 ^ 32 := by
      simp only [Header.sizeOf, DefTable.sizeOf] at hk
      omega
    have hd : Header.sizeOf + DefTable.sizeOf * psf.size +
        alignUp (keyOffset psf.entries psf.entries.length) 4 < 2 ^ 32 := htable
    have hstart : ∀ data, (FileStream.ofBytes []).write data = atEnd data := by
      intro data
      exact write_atEnd [] data
    -- the stream up to the key table, extended to the data table
    have hext := extend_atEnd ((savedHeader psf.entries).encode ++
      (defTables 0 0 psf.entries).flatMap DefTable.encode ++ keyBlob psf.entries)
      (dataTable psf.entries) ?_
    · have hpad : dataTable psf.entries - ((savedHeader psf.entries).encode ++
          (defTables 0 0 psf.entries).flatMap DefTable.encode ++ keyBlob psf.entries).length =
          alignUp (keyOffset psf.entries psf.entries.length) 4 -
            keyOffset psf.entries psf.entries.length := by
        simp only [List.length_append, Header.length_encode, length_flatMap_encode,
          length_defTables, ← keyOffset_all, dataTable]
        omega
      rw [hpad] at hext
      simp only [saveObject, hindex, narrow, hk, hd, hn, if_true, bind, Except.bind, hstart,
        write_atEnd, writeKeys_spec]
      have hseek : ∀ (s : FileStream) (n : Nat), (s.seek n).trunc n =
          ⟨FileStream.resize s.obj n, n⟩ := fun _ _ => rfl
      change Except.ok (psf.entries.foldl writeData
        (FileStream.trunc (FileStream.seek (atEnd ((savedHeader psf.entries).encode ++
          (defTables 0 0 psf.entries).flatMap DefTable.encode ++ keyBlob psf.entries))
            (dataTable psf.entries)) (dataTable psf.entries))).obj = _
      rw [hseek, atEnd, hext, writeDatas_spec _ hvalid]
      simp [atEnd, savedFile, padding]
    · simp only [List.length_append, Header.length_encode, length_flatMap_encode,
        length_defTables, ← keyOffset_all, dataTable]
      omega
  · rw [Nat.zero_add, ← hkey]
    have h : alignUp (keyOffset psf.entries psf.entries.length) 4 ≤ dataTable psf.entries :=
      Nat.le_add_left _ _
    omega
  · intro pre entry post hsplit
    have hlt : pre.length < psf.size := by
      simp [OrderedMap.size, hsplit]
    have h := (hfit pre.length hlt).2
    rw [dataOffset, hsplit, List.take_left] at h
    omega

theorem Entry.make_string {maxSize : Nat} (value : List Byte) (hmin : 1 < maxSize)
    (hmax : maxSize < 2 ^ 32) : make .string maxSize value = .ok (string maxSize value hmin hmax) := by
  have hm : maxSize % 2 ^ 32 = maxSize := Nat.mod_eq_of_lt hmax
  simp only [make, hm, dif_pos hmin]

theorem Entry.make_array {maxSize : Nat} (value : List Byte) (hmin : 0 < maxSize)
    (hmax : maxSize < 2 ^ 32) : make .array maxSize value = .ok (array maxSize value hmin hmax) := by
  have hm : maxSize % 2 ^ 32 = maxSize := Nat.mod_eq_of_lt hmax
  simp only [make, hm, dif_pos hmin]

-- A string value with its terminator, as it stands in the file.
def Entry.NulFree : Entry → Prop
  | string _ value _ _ => 0 ∉ value
  | _ => True

-- A value is loaded back from the bytes that `save_object` wrote for it.
theorem loadValue_image (stream : FileStream) (front rest : List Byte) {entry : Entry}
    (keyOff dataOff : Nat) (hobj : stream.obj = front ++ (entry.image ++ rest))
    (hpos : stream.pos = front.length) (hnul : entry.NulFree) (hvalid : entry.isValid = true) :
    loadValue stream (makeDefTable keyOff dataOff entry) = .ok (some entry) := by
  have hread (raw more : List Byte) (himage : entry.image = raw ++ more) :
      ∃ s, stream.readPod raw.length = some (raw, s) := by
    have hle : stream.pos + raw.length ≤ stream.size := by
      simp only [FileStream.size, hobj, himage, hpos, List.length_append]
      omega
    have hslice : slice stream.obj stream.pos raw.length = raw := by
      rw [hobj, himage, List.append_assoc, slice_append _ _ _ hpos rfl]
    rw [FileStream.readPod_eq, if_pos (.inl hle), hslice]
    exact ⟨_, rfl⟩
  cases entry with
  | integer value hmax =>
      obtain ⟨s, hs⟩ := hread (leBytes 4 value) [] (by simp [Entry.image])
      have hval : leValue (leBytes 4 value) % 2 ^ 32 = value := by
        rw [leValue_leBytes]
        simp only [Nat.reducePow] at hmax ⊢
        omega
      rw [length_leBytes] at hs
      simp only [Nat.reducePow] at hval
      simp [loadValue, makeDefTable, Entry.type, Entry.maxSize, Entry.size, hs, checkRead, hval, bind,
        Except.bind, pure, Except.pure]
  | string maxSize value hmin hmax =>
      simp only [Entry.isValid, decide_eq_true_eq] at hvalid
      have hsize : min maxSize (value.length + 1) = (value ++ [0]).length := by
        simp only [List.length_append, List.length_singleton]
        omega
      have hrep : List.replicate (maxSize - value.length) (0 : Byte) =
          0 :: List.replicate (maxSize - value.length - 1) 0 := by
        rw [← List.replicate_succ]
        congr 1
        omega
      obtain ⟨s, hs⟩ := hread (value ++ [0]) (List.replicate (maxSize - value.length - 1) 0)
        (by simp [Entry.image, hrep])
      have hcode : Format.string.code ≠ Format.integer.code := by decide
      have hof : Format.ofCode Format.string.code = some .string := rfl
      simp only [loadValue, makeDefTable, Entry.type, Entry.maxSize, Entry.size, hcode, false_and,
        if_false, hof, hsize, FileStream.readVector_eq _ _ Nat.one_pos, Nat.one_mul, hs, checkRead,
        bind, Except.bind, cString_append hnul, Entry.make_string value hmin hmax, ensured, pure,
        Except.pure]
  | array maxSize value hmin hmax =>
      simp only [Entry.isValid, decide_eq_true_eq] at hvalid
      have hsize : min maxSize value.length = value.length := by omega
      obtain ⟨s, hs⟩ := hread value (List.replicate (maxSize - value.length) 0) rfl
      have hcode : Format.array.code ≠ Format.integer.code := by decide
      have hof : Format.ofCode Format.array.code = some .array := rfl
      simp only [loadValue, makeDefTable, Entry.type, Entry.maxSize, Entry.size, hcode, false_and,
        if_false, hof, hsize, FileStream.readVector_eq _ _ Nat.one_pos, Nat.one_mul, hs, checkRead,
        bind, Except.bind, Entry.make_array value hmin hmax, ensured, pure, Except.pure]

-- What the loop body needs to know about the file around the entry it loads.
structure EntryAt (stream : FileStream) (header : Header) (keys : List Byte)
    (pre : List (List Byte × Entry)) (entry : List Byte × Entry) : Prop where
  keys_eq : ∃ rest, keys = keyBlob pre ++ (entry.1 ++ 0 :: rest)
  keys_length : keys.length = header.offDataTable - header.offKeyTable
  data_eq : ∃ front rest, stream.obj = front ++ (dataBlob pre ++ (entry.2.image ++ rest)) ∧
    front.length = header.offDataTable
  table_pos : 0 < header.offDataTable
  key_lt : (keyBlob pre).length < 2 ^ 16
  data_lt : header.offDataTable + (dataBlob pre).length < 2 ^ 32

theorem loadEntry_spec {stream : FileStream} {header : Header} {keys : List Byte} {sfo : Registry}
    {entry : List Byte × Entry} (h : EntryAt stream header keys sfo.entries entry)
    (hkey : 0 ∉ entry.1) (hnul : entry.2.NulFree) (hvalid : entry.2.isValid = true)
    (hgt : ∀ e ∈ sfo.entries, e.1 < entry.1) :
    ∃ sfo', loadEntry stream header keys sfo (makeDefTable (keyBlob sfo.entries).length
        (dataBlob sfo.entries).length entry.2) = .ok sfo' ∧
      sfo'.entries = sfo.entries ++ [entry] := by
  obtain ⟨⟨keyRest, hkeys⟩, hlen, ⟨front, rest, hobj, hfront⟩, hpos, hklt, hdlt⟩ := h
  obtain ⟨key, entry⟩ := entry
  simp only at hkey hnul hvalid hgt hkeys hobj
  have hkeyAt : keyAt keys (keyBlob sfo.entries).length = .ok key := by
    simp [keyAt, hkeys, cString_append hkey]
  have hfind : sfo.find? key = none := by
    simp only [OrderedMap.find?, Option.map_eq_none_iff, List.find?_eq_none]
    intro e he
    simpa using (hgt e he).ne
  have hsize : stream.size = header.offDataTable + (dataBlob sfo.entries).length +
      (entry.maxSize + rest.length) := by
    simp only [FileStream.size, hobj, List.length_append, hfront, Entry.length_image hvalid]
    omega
  have hmax := entry.maxSize_pos
  have hle := entry.size_le
  have h₁ : (keyBlob sfo.entries).length < header.offDataTable - header.offKeyTable := by
    rw [← hlen, hkeys]
    simp only [List.length_append, List.length_cons]
    omega
  have h₂ : (dataBlob sfo.entries).length < stream.size - header.offDataTable := by omega
  have h₃ : entry.maxSize < stream.size - (dataBlob sfo.entries).length := by omega
  have hvalue := loadValue_image
    (stream.seek (header.offDataTable + (dataBlob sfo.entries).length))
    (front ++ dataBlob sfo.entries) rest (keyBlob sfo.entries).length (dataBlob sfo.entries).length
    (by simp [FileStream.seek, hobj]) (by simp [FileStream.seek, hfront]) hnul hvalid
  refine ⟨(sfo.emplace key entry).1, ?_,
    OrderedMap.emplace_between (List.append_nil _).symm hgt (by simp) entry⟩
  simp only [makeDefTable, Nat.mod_eq_of_lt hklt] at hvalue
  simp only [loadEntry, makeDefTable, Nat.mod_eq_of_lt hklt, Nat.mod_eq_of_lt hdlt, check, h₁, h₂,
    h₃, hle, hfind, hkeyAt, ensured, if_true, bind, Except.bind, hvalue, pure, Except.pure]

-- What the theorem asks of the registry: keys and strings end at their first NUL, and the
-- values fit their maximal sizes.
structure Storable (psf : Registry) : Prop where
  keys : ∀ entry ∈ psf.entries, 0 ∉ entry.1
  strings : ∀ entry ∈ psf.entries, entry.2.NulFree
  valid : ∀ entry ∈ psf.entries, entry.2.isValid = true

-- The loop over the index table, from the entry behind `pre` on.
theorem loadEntries_spec {stream : FileStream} {header : Header} {keys : List Byte} {psf : Registry}
    (hs : Storable psf)
    (hat : ∀ pre entry post, psf.entries = pre ++ entry :: post →
      EntryAt stream header keys pre entry)
    (sfo : Registry) {post : List (List Byte × Entry)} (hsplit : psf.entries = sfo.entries ++ post) :
    ∃ sfo', (defTables (keyBlob sfo.entries).length (dataBlob sfo.entries).length post).foldlM
        (loadEntry stream header keys) sfo = .ok sfo' ∧ sfo'.entries = psf.entries := by
  induction post generalizing sfo with
  | nil => exact ⟨sfo, rfl, by simp [hsplit]⟩
  | cons entry post ih =>
      have hmem : entry ∈ psf.entries := by simp [hsplit]
      have hvalid := hs.valid entry hmem
      obtain ⟨sfo₁, hload, hent⟩ := loadEntry_spec (hat _ _ _ hsplit) (hs.keys entry hmem)
        (hs.strings entry hmem) hvalid (OrderedMap.lt_of_before hsplit)
      obtain ⟨sfo', hrest, hent'⟩ := ih sfo₁ (by simp [hent, hsplit])
      refine ⟨sfo', ?_, hent'⟩
      have hk : (keyBlob sfo₁.entries).length =
          (keyBlob sfo.entries).length + (entry.1.length + 1) := by simp [hent, keyBlob]
      have hd : (dataBlob sfo₁.entries).length =
          (dataBlob sfo.entries).length + entry.2.maxSize := by
        rw [← Entry.length_image hvalid]
        simp [hent, dataBlob]
      rw [hk, hd] at hrest
      rw [defTables, List.foldlM_cons, hload]
      exact hrest

section Saved

variable {psf : Registry}

theorem length_saved_keys (entries : List (List Byte × Entry)) :
    (keyBlob entries ++ padding entries).length = alignUp (keyOffset entries entries.length) 4 := by
  have h := le_alignUp (keyOffset entries entries.length)
  simp only [padding, List.length_append, List.length_replicate, ← keyOffset_all]
  omega

theorem fileHeader_saved (hne : psf.entries ≠ []) (hfit : OffsetsFit psf) :
    fileHeader (savedFile psf.entries) = savedHeader psf.entries := by
  have hpos : 0 < psf.size := List.length_pos_iff.mpr hne
  have htable : dataTable psf.entries < 2 ^ 32 := by
    have h := (hfit 0 hpos).2
    omega
  have hk : Header.sizeOf + DefTable.sizeOf * psf.entries.length ≤ dataTable psf.entries :=
    Nat.le_add_right _ _
  have hslice : slice (savedFile psf.entries) 0 Header.sizeOf = (savedHeader psf.entries).encode := by
    have h := slice_append [] (savedHeader psf.entries).encode
      ((defTables 0 0 psf.entries).flatMap DefTable.encode ++
        ((keyBlob psf.entries ++ padding psf.entries) ++ dataBlob psf.entries)) rfl
      (Header.length_encode _).symm
    exact h
  rw [fileHeader, hslice]
  apply Header.decode_encode
  · change magic < 2 ^ 32
    decide
  · simp [savedHeader]
  · exact hk.trans_lt htable
  · exact htable
  · simp only [savedHeader]
    simp only [Header.sizeOf, DefTable.sizeOf] at hk
    omega

theorem dataOffset_split {pre post : List (List Byte × Entry)} {entry : List Byte × Entry}
    (hs : Storable psf) (hsplit : psf.entries = pre ++ entry :: post) :
    (dataBlob pre).length = dataOffset psf.entries pre.length := by
  rw [dataOffset, hsplit, List.take_left, length_dataBlob]
  intro e he
  exact hs.valid e (by simp [hsplit, he])

theorem keyOffset_split {pre post : List (List Byte × Entry)} {entry : List Byte × Entry}
    (hsplit : psf.entries = pre ++ entry :: post) :
    (keyBlob pre).length = keyOffset psf.entries pre.length := by
  rw [keyOffset, hsplit, List.take_left, length_keyBlob]

theorem size_split {pre post : List (List Byte × Entry)} {entry : List Byte × Entry}
    (hsplit : psf.entries = pre ++ entry :: post) : pre.length < psf.size := by
  simp [OrderedMap.size, hsplit]

-- The index table holds 16-bit and 32-bit fields only.
theorem defTables_fields (hs : Storable psf) (hfit : OffsetsFit psf)
    {pre post : List (List Byte × Entry)} (hsplit : psf.entries = pre ++ post) :
    ∀ t ∈ defTables (keyBlob pre).length (dataBlob pre).length post,
      t.keyOff < 2 ^ 16 ∧ t.paramFmt < 2 ^ 16 ∧ t.paramLen < 2 ^ 32 ∧ t.paramMax < 2 ^ 32 ∧
        t.dataOff < 2 ^ 32 := by
  induction post generalizing pre with
  | nil => simp [defTables]
  | cons entry post ih =>
      intro t ht
      have hvalid := hs.valid entry (by simp [hsplit])
      rcases List.mem_cons.mp ht with rfl | ht
      · have hd := (hfit _ (size_split hsplit)).2
        rw [← dataOffset_split hs hsplit] at hd
        have hsize := entry.2.size_le.trans_lt entry.2.maxSize_lt
        refine ⟨Nat.mod_lt _ (Nat.two_pow_pos 16), ?_, hsize, entry.2.maxSize_lt, ?_⟩
        · simp only [makeDefTable]
          cases entry.2.type <;> decide
        · simp only [makeDefTable]
          omega
      · have hrest := ih (show psf.entries = (pre ++ [entry]) ++ post by simp [hsplit]) t
        apply hrest
        have hk : (keyBlob (pre ++ [entry])).length =
            (keyBlob pre).length + (entry.1.length + 1) := by simp [keyBlob]
        have hd : (dataBlob (pre ++ [entry])).length =
            (dataBlob pre).length + entry.2.maxSize := by
          rw [← Entry.length_image hvalid]
          simp [dataBlob]
        rwa [hk, hd]

theorem entryAt_saved (hs : Storable psf) (hfit : OffsetsFit psf)
    {pre post : List (List Byte × Entry)} {entry : List Byte × Entry}
    (hsplit : psf.entries = pre ++ entry :: post) {stream : FileStream}
    (hobj : stream.obj = savedFile psf.entries) :
    EntryAt stream (savedHeader psf.entries) (keyBlob psf.entries ++ padding psf.entries) pre
      entry := by
  obtain ⟨hk, hd⟩ := hfit _ (size_split hsplit)
  rw [← keyOffset_split hsplit] at hk
  rw [← dataOffset_split hs hsplit] at hd
  refine ⟨⟨keyBlob post ++ padding psf.entries, by simp [hsplit, keyBlob]⟩, ?_,
    ⟨(savedHeader psf.entries).encode ++ ((defTables 0 0 psf.entries).flatMap DefTable.encode ++
      (keyBlob psf.entries ++ padding psf.entries)), dataBlob post, ?_, ?_⟩, ?_, hk, hd⟩
  · rw [length_saved_keys]
    simp only [savedHeader, dataTable]
    omega
  · have hblob : dataBlob psf.entries = dataBlob pre ++ (entry.2.image ++ dataBlob post) := by
      simp [hsplit, dataBlob]
    rw [hobj, savedFile, hblob]
    simp only [List.append_assoc]
  · simp only [List.length_append, Header.length_encode, length_flatMap_encode, length_defTables]
    rw [← List.length_append, length_saved_keys]
    simp only [savedHeader, dataTable]
    omega
  · simp only [savedHeader, dataTable, Header.sizeOf]
    omega

-- Loading what was saved gives the registry back.
theorem load_saveObject (psf : Registry) (hs : Storable psf) (hfit : OffsetsFit psf)
    (hcat : getString psf (ascii "CATEGORY") [] ∈ validCats) :
    ∃ bytes, saveObject psf = .ok bytes ∧ load (.ofBytes bytes) = .ok (psf, .ok) := by
  have hne : psf.entries ≠ [] := by
    intro hnil
    have hget : getString psf (ascii "CATEGORY") [] = [] := by
      simp [getString, OrderedMap.find?, hnil]
    rw [hget] at hcat
    revert hcat
    decide
  refine ⟨savedFile psf.entries, saveObject_eq psf hs.valid hne hfit, ?_⟩
  have hheader := fileHeader_saved hne hfit
  have hlen : (savedFile psf.entries).length = dataTable psf.entries +
      (dataBlob psf.entries).length := by
    simp only [savedFile, List.length_append, Header.length_encode, length_flatMap_encode,
      length_defTables, dataTable]
    rw [← length_saved_keys, List.length_append]
    omega
  have hok : HeaderOk (savedFile psf.entries) (fileHeader (savedFile psf.entries)) := by
    rw [hheader]
    have hk : Header.sizeOf + DefTable.sizeOf * psf.entries.length ≤ dataTable psf.entries :=
      Nat.le_add_right _ _
    refine ⟨?_, rfl, rfl, Nat.le_add_right _ _, hk, ?_, ?_⟩
    · omega
    · simp only [savedHeader]
      omega
    · simp only [savedHeader]
      omega
  have hindices : fileIndices (savedFile psf.entries) = defTables 0 0 psf.entries := by
    have hn : (savedHeader psf.entries).entriesNum = (defTables 0 0 psf.entries).length :=
      (length_defTables 0 0 psf.entries).symm
    have hslice := slice_append (savedHeader psf.entries).encode
      ((defTables 0 0 psf.entries).flatMap DefTable.encode)
      ((keyBlob psf.entries ++ padding psf.entries) ++ dataBlob psf.entries)
      (Header.length_encode _).symm (length_flatMap_encode (defTables 0 0 psf.entries)).symm
    rw [fileIndices, hheader, hn, savedFile, hslice]
    exact DefTable.decodeAll_encode _ (defTables_fields hs hfit (List.nil_append _).symm)
  have hkeys : fileKeys (savedFile psf.entries) = keyBlob psf.entries ++ padding psf.entries := by
    have hfile : savedFile psf.entries = ((savedHeader psf.entries).encode ++
        (defTables 0 0 psf.entries).flatMap DefTable.encode) ++
          ((keyBlob psf.entries ++ padding psf.entries) ++ dataBlob psf.entries) := by
      simp only [savedFile, List.append_assoc]
    rw [fileKeys, hheader, hfile, slice_append]
    · simp only [savedHeader, List.length_append, Header.length_encode, length_flatMap_encode,
        length_defTables]
    · rw [length_saved_keys]
      simp only [savedHeader, dataTable]
      omega
  obtain ⟨stream, hobj, hload⟩ := loadRegistry_eq hok 0
  rw [hheader, hindices, hkeys] at hload
  obtain ⟨sfo, hloop, hent⟩ := loadEntries_spec hs
    (fun pre entry post hsplit => entryAt_saved hs hfit hsplit hobj) OrderedMap.empty
    (List.nil_append psf.entries).symm
  obtain rfl : sfo = psf := OrderedMap.ext hent
  have hzero : (keyBlob (OrderedMap.empty : Registry).entries).length = 0 := rfl
  have hzero' : (dataBlob (OrderedMap.empty : Registry).entries).length = 0 := rfl
  rw [hzero, hzero'] at hloop
  have hresult : loadRegistry (.ofBytes (savedFile sfo.entries)) = .ok sfo := by
    rw [FileStream.ofBytes, hload, hloop]
    simp [check, hcat, bind, Except.bind, pure, Except.pure]
  simp only [load, hresult]

end Saved

theorem load_saveObject_game_data :
    ∃ psf : Registry, psf.size = 3 ∧
      ∃ bytes, saveObject psf = .ok bytes ∧ load (.ofBytes bytes) = .ok (psf, .ok) := by
  refine ⟨⟨[(ascii "CATEGORY", .string 4 (ascii "GD") (by decide) (by decide)),
    (ascii "ICON", .array 2 [0, 1] (by decide) (by decide)),
    (ascii "LEVEL", .integer 77 (by decide))], by decide⟩, rfl, ?_⟩
  apply load_saveObject
  · refine ⟨by decide, ?_, by decide⟩
    simp only [List.mem_cons, List.not_mem_nil, or_false, forall_eq_or_imp, forall_eq, Entry.NulFree,
      and_true]
    decide
  · unfold OffsetsFit
    decide
  · decide

-- Arrays may be declared with sizes that leave no 32-bit offset for the entries behind them.
theorem saveObject_refuses_large_offsets :
    ∃ psf : Registry, (∀ entry ∈ psf.entries, entry.1 ≠ []) ∧
      (psf.entries.map fun entry => entry.1.length).sum < 2 ^ 16 ∧ Storable psf ∧
      getString psf (ascii "CATEGORY") [] ∈ validCats ∧
      ¬∃ bytes, saveObject psf = .ok bytes ∧ load (.ofBytes bytes) = .ok (psf, .ok) := by
  refine ⟨⟨[(ascii "A", .array 0xFFFFFFFF [] (by decide) (by decide)),
    (ascii "B", .array 1 [] (by decide) (by decide)),
    (ascii "CATEGORY", .string 3 (ascii "GD") (by decide) (by decide))], by decide⟩,
    by decide, by decide, ⟨by decide, ?_, by decide⟩, by decide, ?_⟩
  · simp only [List.mem_cons, List.not_mem_nil, or_false, forall_eq_or_imp, forall_eq, Entry.NulFree,
      true_and]
    decide
  · rintro ⟨bytes, hsave, -⟩
    have hrefused : saveObject ⟨[(ascii "A", .array 0xFFFFFFFF [] (by decide) (by decide)),
      (ascii "B", .array 1 [] (by decide) (by decide)),
      (ascii "CATEGORY", .string 3 (ascii "GD") (by decide) (by decide))], by decide⟩ =
        .error .narrow := rfl
    rw [hrefused] at hsave
    cases hsave

end Rpcsx.Psf
