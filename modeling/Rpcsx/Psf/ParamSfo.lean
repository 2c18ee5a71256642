import Rpcsx.Data.Text
import Rpcsx.Psf.Accepted

namespace Rpcsx.ParamSfo

open Data Data.Bytes Data.Text

-- Int of the Kotlin code, which wraps around.
def toInt (value : Int) : Int := (value + 2 ^ 31) % 2 ^ 32 - 2 ^ 31

def u16Le (bytes : List Byte) (offset : Int) : Nat :=
  if offset < 0 ∨ bytes.length < toInt (offset + 2) then 0
  else leValue (slice bytes offset.toNat 2)

def u32Le (bytes : List Byte) (offset : Int) : Nat :=
  if offset < 0 ∨ bytes.length < toInt (offset + 4) then 0
  else leValue (slice bytes offset.toNat 4)

def cStringAt (bytes : List Byte) (offset : Int) : Text :=
  if offset < 0 ∨ bytes.length ≤ offset then []
  else Utf8.decode (cString (bytes.drop offset.toNat))

-- uppercase(Locale.US), as far as a comparison with capital ASCII letters can tell: the dotless i
-- and the long s are the letters outside of ASCII that have such a capital.
def uppercase (text : Text) : Text :=
  text.map fun c => if c = 'ı' then 'I' else if c = 'ſ' then 'S' else c.toUpper

def isTrimmed (c : Char) : Bool := c = '\x00' ∨ c = ' ' ∨ c = '\n' ∨ c = '\r' ∨ c = '\t'

def trimmedText (bytes : List Byte) : Option Text :=
  let text := trim isTrimmed (Utf8.decode bytes)
  if isBlank text then none else some text

structure SfoMetadata where
  titleId : Option Text := none
  title : Option Text := none
deriving DecidableEq, Repr

def titleIdKey : Text := ['T', 'I', 'T', 'L', 'E', '_', 'I', 'D']

def titleKey : Text := ['T', 'I', 'T', 'L', 'E']

def assignField (metadata : SfoMetadata) (key : Text) (value : Option Text) : SfoMetadata :=
  if uppercase key = titleIdKey then { metadata with titleId := value }
  else if uppercase key = titleKey then { metadata with title := value }
  else metadata

-- One round of the loop over the entries.
def parseEntry (bytes : List Byte) (keyTableOffset dataTableOffset : Int) (metadata : SfoMetadata)
    (index : Nat) : SfoMetadata :=
  let entryOffset := toInt (20 + index * 16)
  if bytes.length < toInt (entryOffset + 16) then metadata
  else
    let keyOffset := u16Le bytes entryOffset
    let dataLength := toInt (u32Le bytes (toInt (entryOffset + 4)))
    let dataOffset := toInt (u32Le bytes (toInt (entryOffset + 12)))
    let key := cStringAt bytes (toInt (keyTableOffset + keyOffset))
    let valueOffset := toInt (dataTableOffset + dataOffset)
    if isBlank key ∨ valueOffset < 0 ∨ bytes.length ≤ valueOffset ∨ dataLength ≤ 0 then metadata
    else
      let valueLength := min dataLength (bytes.length - valueOffset)
      assignField metadata key (trimmedText (slice bytes valueOffset.toNat valueLength.toNat))

def parseParamSfo (bytes : List Byte) : SfoMetadata :=
  if bytes.length < 20 ∨ slice bytes 0 4 ≠ 0 :: ascii "PSF" then {}
  else
    let keyTableOffset := toInt (u32Le bytes 8)
    let dataTableOffset := toInt (u32Le bytes 12)
    let entryCount := toInt (u32Le bytes 16)
    (List.range entryCount.toNat).foldl (parseEntry bytes keyTableOffset dataTableOffset) {}

end Rpcsx.ParamSfo

namespace Rpcsx.ParamSfo

open Data Data.Bytes Data.Text Psf

theorem leValue_inj {left right : List Byte} (hlen : left.length = right.length)
    (h : leValue left = leValue right) : left = right := by
  induction left generalizing right with
  | nil =>
      cases right with
      | nil => rfl
      | cons b right => cases hlen
  | cons a left ih =>
      cases right with
      | nil => cases hlen
      | cons b right =>
          unfold leValue at h
          have ha := a.isLt
          have hb := b.isLt
          have hhead : a.val = b.val := by omega
          have htail : leValue left = leValue right := by omega
          rw [Fin.ext hhead, ih (Nat.succ.inj hlen) htail]

section Slices

variable {bytes : List Byte} {offset count inner width : Nat}

theorem drop_slice : (slice bytes offset count).drop inner =
    slice bytes (offset + inner) (count - inner) := by
  rw [slice, slice, List.drop_take, List.drop_drop]

theorem slice_slice (h : inner + width ≤ count) :
    slice (slice bytes offset count) inner width = slice bytes (offset + inner) width := by
  have hmin : min width (count - inner) = width := by omega
  rw [slice, drop_slice, slice, slice, List.take_take, hmin]

end Slices

theorem toInt_natCast {value : Nat} (h : value < 2 ^ 31) : toInt (value : Int) = value := by
  unfold toInt
  omega

theorem toNat_clamp {length size position : Nat} (h : position ≤ size) :
    (min (length : Int) ((size : Int) - (position : Int))).toNat = min length (size - position) := by
  omega

section Reading

variable {bytes : List Byte} {offset : Nat} (hsize : bytes.length < 2 ^ 31)

theorem cStringAt_eq (h : offset < bytes.length) :
    cStringAt bytes offset = Utf8.decode (cString (bytes.drop offset)) := by
  rw [cStringAt, if_neg (by omega), Int.toNat_natCast]

include hsize

-- Sums of positions stay positions.
theorem toInt_add {a b : Nat} (h : a + b ≤ bytes.length) :
    toInt ((a : Int) + (b : Int)) = ((a + b : Nat) : Int) := by
  rw [← Int.natCast_add]
  exact toInt_natCast (by omega)

theorem u16Le_eq (h : offset + 2 ≤ bytes.length) :
    u16Le bytes offset = leValue (slice bytes offset 2) := by
  have hend : toInt ((offset : Int) + 2) = ((offset + 2 : Nat) : Int) := toInt_add hsize h
  rw [u16Le, hend, if_neg (by omega), Int.toNat_natCast]

theorem u32Le_eq (h : offset + 4 ≤ bytes.length) :
    u32Le bytes offset = leValue (slice bytes offset 4) := by
  have hend : toInt ((offset : Int) + 4) = ((offset + 4 : Nat) : Int) := toInt_add hsize h
  rw [u32Le, hend, if_neg (by omega), Int.toNat_natCast]

end Reading

-- The record at a position of the index table.
theorem decodeAll_getElem? (count : Nat) (raw : List Byte) {i : Nat} (h : i < count) :
    (DefTable.decodeAll count raw)[i]? = some (DefTable.decode (raw.drop (DefTable.sizeOf * i))) := by
  induction count generalizing raw i with
  | zero => omega
  | succ count ih =>
      cases i with
      | zero => rfl
      | succ i =>
          rw [DefTable.decodeAll, List.getElem?_cons_succ, ih _ (by omega), List.drop_drop]
          rw [Nat.mul_succ, Nat.add_comm]

theorem foldl_range_length {α σ : Type} {f : σ → Nat → σ} {g : σ → α → σ} {list : List α}
    (h : ∀ i a, list[i]? = some a → ∀ s, f s i = g s a) (s : σ) :
    (List.range list.length).foldl f s = list.foldl g s := by
  induction list using List.reverseRecOn generalizing s with
  | nil => rfl
  | append_singleton list a ih =>
      have hinit : ∀ i b, list[i]? = some b → ∀ s, f s i = g s b := by
        intro i b hb
        have hi : i < list.length := (List.getElem?_eq_some_iff.mp hb).1
        exact h i b (by rw [List.getElem?_append_left hi, hb])
      have hlast := h list.length a (by simp)
      rw [List.length_append, List.length_singleton, List.range_succ, List.foldl_append,
        List.foldl_append, ih hinit, List.foldl_cons, List.foldl_cons, hlast]
      rfl

section Accepted

variable (file : List Byte)

-- The key that parseParamSfo reads for an entry.
def entryKey (t : DefTable) : Text :=
  Utf8.decode (cString (file.drop ((fileHeader file).offKeyTable + t.keyOff)))

-- A round of the loop of parseParamSfo on an accepted file.
def visit (metadata : SfoMetadata) (t : DefTable) : SfoMetadata :=
  if isBlank (entryKey file t) ∨ t.paramLen = 0 then metadata
  else assignField metadata (entryKey file t) (trimmedText (fileValue file t))

end Accepted

-- The fields of a record, read from the file.
theorem fileIndices_getElem? {file : List Byte} (hh : HeaderOk file (fileHeader file)) {i : Nat}
    {t : DefTable} (ht : (fileIndices file)[i]? = some t) :
    36 + 16 * i ≤ file.length ∧
      t.keyOff = leValue (slice file (20 + 16 * i) 2) ∧
      t.paramLen = leValue (slice file (20 + 16 * i + 4) 4) ∧
      t.dataOff = leValue (slice file (20 + 16 * i + 12) 4) := by
  have hi : i < (fileHeader file).entriesNum := by
    have := (List.getElem?_eq_some_iff.mp ht).1
    rwa [fileIndices, DefTable.length_decodeAll] at this
  have hend := hh.indices_in
  unfold Header.sizeOf DefTable.sizeOf at hend
  have ht' : t = DefTable.decode (slice file (20 + 16 * i)
      (16 * (fileHeader file).entriesNum - 16 * i)) := by
    rw [fileIndices, decodeAll_getElem? _ _ hi, drop_slice] at ht
    exact (Option.some.inj ht).symm
  subst ht'
  unfold DefTable.decode
  dsimp only
  refine ⟨by omega, ?_, ?_, ?_⟩
  · rw [slice_slice (by omega), Nat.add_zero]
  · rw [slice_slice (by omega)]
  · rw [slice_slice (by omega)]

section Parse

variable {file : List Byte} {sfo : Registry} (hsize : file.length < 2 ^ 31)
  (hok : Accepted file sfo)

include hsize hok

theorem parseEntry_eq {i : Nat} {t : DefTable} (ht : (fileIndices file)[i]? = some t)
    (metadata : SfoMetadata) :
    parseEntry file (fileHeader file).offKeyTable (fileHeader file).offDataTable metadata i =
      visit file metadata t := by
  obtain ⟨hkey, hlen, hdata, hmax⟩ := hok.ranges t (List.mem_of_getElem? ht)
  obtain ⟨hend, hk, hl, hd⟩ := fileIndices_getElem? hok.header ht
  have hin := hok.header.data_in
  have hafter := hok.header.data_after
  have hvalue : (fileHeader file).offDataTable + t.dataOff < file.length := by omega
  have hkeyEnd : (fileHeader file).offKeyTable + t.keyOff < file.length := by omega
  have hlenEnd : t.paramLen < 2 ^ 31 := by omega
  have hdataEnd : t.dataOff < 2 ^ 31 := by omega
  have hfits : ¬(file.length : Int) < ((20 + 16 * i + 16 : Nat) : Int) := by omega
  have hoff : toInt (20 + (i : Int) * 16) = ((20 + 16 * i : Nat) : Int) := by
    have hmul : (20 + (i : Int) * 16) = ((20 + 16 * i : Nat) : Int) := by omega
    rw [hmul]
    exact toInt_natCast (by omega)
  have hnext : toInt (((20 + 16 * i : Nat) : Int) + 16) = ((20 + 16 * i + 16 : Nat) : Int) :=
    toInt_add hsize (b := 16) (by omega)
  have hlenAt : toInt (((20 + 16 * i : Nat) : Int) + 4) = ((20 + 16 * i + 4 : Nat) : Int) :=
    toInt_add hsize (b := 4) (by omega)
  have hdataAt : toInt (((20 + 16 * i : Nat) : Int) + 12) = ((20 + 16 * i + 12 : Nat) : Int) :=
    toInt_add hsize (b := 12) (by omega)
  unfold parseEntry
  dsimp only
  rw [hoff, hnext, if_neg hfits, hlenAt, hdataAt, u16Le_eq hsize (by omega),
    u32Le_eq hsize (by omega), u32Le_eq hsize (by omega), ← hk, ← hl, ← hd,
    toInt_natCast hlenEnd, toInt_natCast hdataEnd, toInt_add hsize hvalue.le,
    toInt_add hsize hkeyEnd.le, cStringAt_eq hkeyEnd, ← entryKey]
  unfold visit
  by_cases hskip : isBlank (entryKey file t) ∨ t.paramLen = 0
  · rw [if_pos hskip, if_pos]
    rcases hskip with h | h
    · exact .inl h
    · exact .inr (.inr (.inr (by omega)))
  · rw [if_neg hskip, if_neg]
    · have hclamp : slice file ((fileHeader file).offDataTable + t.dataOff)
          (min t.paramLen (file.length - ((fileHeader file).offDataTable + t.dataOff))) =
            fileValue file t := by
        rw [fileValue, slice, slice, ← List.length_drop, ← List.take_eq_take_min]
      rw [Int.toNat_natCast, toNat_clamp hvalue.le, hclamp]
    · rintro (h | h | h | h)
      · exact hskip (.inl h)
      · omega
      · omega
      · exact hskip (.inr (by omega))

theorem parseParamSfo_eq : parseParamSfo file = (fileIndices file).foldl (visit file) {} := by
  have hlen := hok.header.complete
  have hcountMax := hok.header.indices_in
  have hkeyMax := hok.header.data_after
  have hdataMax := hok.header.data_in
  unfold Header.sizeOf at hlen hcountMax
  unfold DefTable.sizeOf at hcountMax
  have hfield (offset : Nat) (h : offset + 4 ≤ 20) :
      leValue (slice file offset 4) = leValue (slice (slice file 0 20) offset 4) := by
    rw [slice_slice h, Nat.zero_add]
  have hmagic : slice file 0 4 = 0 :: ascii "PSF" := by
    apply leValue_inj
    · rw [length_slice]
      have : (0 :: ascii "PSF").length = 4 := by decide
      omega
    · rw [hfield 0 (by decide)]
      exact hok.header.magic_eq
  have hkeys : toInt (u32Le file 8) = (fileHeader file).offKeyTable := by
    rw [show (8 : Int) = (8 : Nat) from rfl, u32Le_eq hsize (by omega), hfield 8 (by decide)]
    exact toInt_natCast (show (fileHeader file).offKeyTable < 2 ^ 31 by omega)
  have hdata : toInt (u32Le file 12) = (fileHeader file).offDataTable := by
    rw [show (12 : Int) = (12 : Nat) from rfl, u32Le_eq hsize (by omega), hfield 12 (by decide)]
    exact toInt_natCast (show (fileHeader file).offDataTable < 2 ^ 31 by omega)
  have hcount : toInt (u32Le file 16) = (fileHeader file).entriesNum := by
    rw [show (16 : Int) = (16 : Nat) from rfl, u32Le_eq hsize (by omega), hfield 16 (by decide)]
    exact toInt_natCast (show (fileHeader file).entriesNum < 2 ^ 31 by omega)
  have hstart : ¬(file.length < 20 ∨ slice file 0 4 ≠ 0 :: ascii "PSF") := by
    rintro (h | h)
    · omega
    · exact h hmagic
  rw [parseParamSfo, if_neg hstart]
  dsimp only
  rw [hkeys, hdata, hcount, Int.toNat_natCast]
  have hindices : (fileIndices file).length = (fileHeader file).entriesNum :=
    DefTable.length_decodeAll _ _
  rw [← hindices]
  exact foldl_range_length (fun i t ht metadata => parseEntry_eq hsize hok ht metadata) {}

end Parse

-- The two fields that are read.
inductive Field where
  | titleId
  | title
deriving DecidableEq, Repr

namespace Field

def key : Field → Text
  | titleId => titleIdKey
  | title => titleKey

def name : Field → List Byte
  | titleId => ascii "TITLE_ID"
  | title => ascii "TITLE"

def get : Field → SfoMetadata → Option Text
  | titleId => SfoMetadata.titleId
  | title => SfoMetadata.title

theorem decode_name (field : Field) : Utf8.decode field.name = field.key := by
  cases field with
  | titleId => decide +kernel
  | title => decide +kernel

theorem uppercase_key (field : Field) : uppercase field.key = field.key := by
  cases field with
  | titleId => decide
  | title => decide

theorem get_assignField (field : Field) (metadata : SfoMetadata) (key : Text)
    (value : Option Text) :
    field.get (assignField metadata key value) =
      if uppercase key = field.key then value else field.get metadata := by
  have hne : titleKey ≠ titleIdKey := by decide
  unfold assignField
  cases field with
  | titleId =>
      by_cases hid : uppercase key = titleIdKey
      · simp [Field.key, Field.get, hid]
      · by_cases ht : uppercase key = titleKey
        · simp [Field.key, Field.get, ht, hne]
        · simp [Field.key, Field.get, hid, ht]
  | title =>
      by_cases hid : uppercase key = titleIdKey
      · simp [Field.key, Field.get, hid, hne.symm]
      · by_cases ht : uppercase key = titleKey
        · simp [Field.key, Field.get, ht, hne]
        · simp [Field.key, Field.get, hid, ht]

end Field

theorem not_isWhitespace_of_upper {c : Char} (h : c.toUpper = 'T') : isWhitespace c = false := by
  unfold Char.toUpper at h
  split at h
  · rename_i hlower
    have hlow : 97 ≤ c.toNat := UInt32.le_iff_toNat_le.mp hlower.1
    have hhigh : c.toNat ≤ 122 := UInt32.le_iff_toNat_le.mp hlower.2
    simp only [isWhitespace, Bool.or_eq_false_iff, Bool.and_eq_false_iff, decide_eq_false_iff_not,
      beq_eq_false_iff_ne]
    omega
  · subst h
    decide

theorem not_isBlank_of_uppercase {field : Field} {key : Text} (h : uppercase key = field.key) :
    isBlank key = false := by
  obtain ⟨rest, hrest⟩ : ∃ rest, field.key = 'T' :: rest := by
    cases field with
    | titleId => exact ⟨_, rfl⟩
    | title => exact ⟨_, rfl⟩
  cases key with
  | nil => rw [hrest] at h; cases h
  | cons c key =>
      rw [hrest] at h
      have hc : (if c = 'ı' then 'I' else if c = 'ſ' then 'S' else c.toUpper) = 'T' :=
        (List.cons.inj h).1
      split at hc
      · exact absurd hc (by decide)
      · split at hc
        · exact absurd hc (by decide)
        · simp [isBlank, not_isWhitespace_of_upper hc]

theorem trim_append {p : Char → Bool} (text : Text) {tail : Text} (h : ∀ c ∈ tail, p c) :
    trim p (text ++ tail) = trim p text := by
  have hend (front : Text) : trimEnd p (front ++ tail) = trimEnd p front := by
    have hrev : ∀ c ∈ tail.reverse, p c := fun c hc => h c (List.mem_reverse.mp hc)
    rw [trimEnd, trimEnd, List.rdropWhile, List.rdropWhile, List.reverse_append,
      List.dropWhile_append_of_pos hrev]
  unfold trim trimStart
  rw [List.dropWhile_append]
  by_cases hnil : text.dropWhile p = []
  · rw [hnil, List.isEmpty_nil, if_pos rfl, List.dropWhile_eq_nil_iff.mpr h]
  · rw [if_neg (by simpa using hnil), hend]

theorem cString_take {bytes : List Byte} {count : Nat} (h : 0 ∈ bytes.take count) :
    cString (bytes.take count) = cString bytes := by
  obtain ⟨left, right, hsplit, hleft⟩ := List.eq_append_cons_of_mem h
  have hbytes : bytes = left ++ 0 :: (right ++ bytes.drop count) := by
    rw [← List.cons_append, ← List.append_assoc, ← hsplit, List.take_append_drop]
  rw [hsplit, cString_append hleft]
  rw [hbytes, cString_append hleft]

section Fields

variable {file : List Byte} {field : Field} {t : DefTable} (metadata : SfoMetadata)

theorem get_visit_ne (h : uppercase (entryKey file t) ≠ field.key) :
    field.get (visit file metadata t) = field.get metadata := by
  unfold visit
  split
  · rfl
  · rw [field.get_assignField, if_neg h]

theorem trimmedText_nil : trimmedText [] = none := by
  simp [trimmedText, Utf8.decode, trim, trimStart, trimEnd, isBlank]

theorem get_visit_eq (h : uppercase (entryKey file t) = field.key)
    (hmetadata : field.get metadata = none) :
    field.get (visit file metadata t) = trimmedText (fileValue file t) := by
  unfold visit
  split
  · rename_i hskip
    rcases hskip with hblank | hlen
    · rw [not_isBlank_of_uppercase h] at hblank
      cases hblank
    · rw [hmetadata, fileValue, hlen, slice, List.take_zero, trimmedText_nil]
  · rw [field.get_assignField, if_pos h]

theorem get_foldl_visit_ne {indices : List DefTable}
    (h : ∀ t ∈ indices, uppercase (entryKey file t) ≠ field.key) :
    field.get (indices.foldl (visit file) metadata) = field.get metadata := by
  induction indices generalizing metadata with
  | nil => rfl
  | cons t rest ih =>
      rw [List.foldl_cons, ih (visit file metadata t) (fun t ht => h t (List.mem_cons_of_mem _ ht)),
        get_visit_ne metadata (h t List.mem_cons_self)]

end Fields

-- The bytes that trim takes away.
def padding : List Byte := [0, 0x20, 0x0a, 0x0d, 0x09]

-- A field whose key ends inside the key table, belongs to one index entry only, in whatever case,
-- and whose value has nothing but padding behind its end.
structure Plain (file : List Byte) (field : Field) : Prop where
  terminated : ∀ t ∈ fileIndices file, fileKey file t = field.name →
    0 ∈ (fileKeys file).drop t.keyOff
  single : ((fileIndices file).filter fun t => uppercase (entryKey file t) = field.key).length ≤ 1
  padded : ∀ t ∈ fileIndices file, fileKey file t = field.name →
    ∀ b ∈ (fileValue file t).drop (cString (fileValue file t)).length, b ∈ padding

instance (file : List Byte) (field : Field) : Decidable (Plain file field) :=
  decidable_of_iff (_ ∧ _ ∧ _) ⟨fun ⟨h₁, h₂, h₃⟩ => ⟨h₁, h₂, h₃⟩, fun ⟨h₁, h₂, h₃⟩ => ⟨h₁, h₂, h₃⟩⟩

theorem trimmedText_cString {raw : List Byte}
    (h : ∀ b ∈ raw.drop (cString raw).length, b ∈ padding) :
    trimmedText raw = trimmedText (cString raw) := by
  have hraw : raw = cString raw ++ raw.drop (cString raw).length := by
    have hfront : cString raw <+: raw := List.takeWhile_prefix _
    exact (List.prefix_iff_eq_append.mp hfront).symm
  have hascii : ∀ b ∈ raw.drop (cString raw).length, b.val < 0x80 := by
    intro b hb
    have hpadding : ∀ b ∈ padding, b.val < 0x80 := by decide +kernel
    exact hpadding b (h b hb)
  have htrimmed : ∀ c ∈ (raw.drop (cString raw).length).map fun b => Char.ofNat b.val,
      isTrimmed c := by
    intro c hc
    obtain ⟨b, hb, rfl⟩ := List.mem_map.mp hc
    have hpadding : ∀ b ∈ padding, isTrimmed (Char.ofNat b.val) := by decide +kernel
    exact hpadding b (h b hb)
  have hdecode := Utf8.decode_append_of_ascii (cString raw) hascii
  rw [← hraw] at hdecode
  unfold trimmedText
  rw [hdecode, trim_append _ htrimmed]

theorem entryKey_eq {file : List Byte} {t : DefTable} (h : 0 ∈ (fileKeys file).drop t.keyOff) :
    entryKey file t = Utf8.decode (fileKey file t) := by
  rw [fileKeys, drop_slice, slice] at h
  rw [entryKey, fileKey, fileKeys, drop_slice, slice, cString_take h]

-- What an accepted file gives for one of the fields.
theorem get_parseParamSfo {file : List Byte} {sfo : Registry} (hsize : file.length < 2 ^ 31)
    (hok : Accepted file sfo) {field : Field} (hplain : Plain file field) {t : DefTable}
    (ht : t ∈ fileIndices file) (hname : fileKey file t = field.name) :
    field.get (parseParamSfo file) = trimmedText (cString (fileValue file t)) := by
  have hkey : uppercase (entryKey file t) = field.key := by
    rw [entryKey_eq (hplain.terminated t ht hname), hname, field.decode_name, field.uppercase_key]
  obtain ⟨before, after, hsplit⟩ := List.append_of_mem ht
  have hsingle := hplain.single
  rw [hsplit, List.filter_append, List.filter_cons_of_pos (by simpa using hkey), List.length_append,
    List.length_cons] at hsingle
  have hbefore : ∀ t ∈ before, uppercase (entryKey file t) ≠ field.key := by
    have hnil := List.length_eq_zero_iff.mp (show (before.filter fun t =>
      uppercase (entryKey file t) = field.key).length = 0 by omega)
    simpa using List.filter_eq_nil_iff.mp hnil
  have hafter : ∀ t ∈ after, uppercase (entryKey file t) ≠ field.key := by
    have hnil := List.length_eq_zero_iff.mp (show (after.filter fun t =>
      uppercase (entryKey file t) = field.key).length = 0 by omega)
    simpa using List.filter_eq_nil_iff.mp hnil
  have hnone : field.get (before.foldl (visit file) {}) = none := by
    rw [get_foldl_visit_ne _ hbefore]
    cases field with
    | titleId => rfl
    | title => rfl
  rw [parseParamSfo_eq hsize hok, hsplit, List.foldl_append, List.foldl_cons,
    get_foldl_visit_ne _ hafter, get_visit_eq _ hkey hnone,
    trimmedText_cString (hplain.padded t ht hname)]

-- The value of a string entry of the registry.
def stringEntry (sfo : Registry) (key : List Byte) : Option (List Byte) :=
  match sfo.find? key with
  | some (.string _ value _ _) => some value
  | _ => none

theorem FromFile.find {file : List Byte} {sfo : Registry} (h : FromFile file sfo)
    {key value : List Byte} (hentry : stringEntry sfo key = some value) :
    ∃ t ∈ fileIndices file, fileKey file t = key ∧ value = cString (fileValue file t) := by
  unfold stringEntry at hentry
  split at hentry
  · rename_i maxSize found hmin hmax hfind
    cases hentry
    exact h key maxSize _ hmin hmax hfind
  · cases hentry

-- Both parsers agree on plain fields.
theorem parseParamSfo_agrees (file : List Byte) (hsize : file.length < 2 ^ 31) (sfo : Registry)
    (hload : load (.ofBytes file) = .ok (sfo, .ok)) (titleId title : List Byte)
    (htitleId : stringEntry sfo (ascii "TITLE_ID") = some titleId)
    (htitle : stringEntry sfo (ascii "TITLE") = some title)
    (hplain : ∀ field, Plain file field) :
    parseParamSfo file = { titleId := trimmedText titleId, title := trimmedText title } := by
  have hne : sfo ≠ OrderedMap.empty := by
    rintro rfl
    cases htitle
  have hok := accepted_of_load hsize hload hne
  obtain ⟨t, ht, hname, rfl⟩ := FromFile.find hok.strings htitleId
  obtain ⟨t', ht', hname', rfl⟩ := FromFile.find hok.strings htitle
  have hid := get_parseParamSfo hsize hok (hplain .titleId) ht hname
  have htext := get_parseParamSfo hsize hok (hplain .title) ht' hname'
  rw [← hid, ← htext]
  rfl

section Files

-- A file with the given tables.
def sfoFile (indices : List DefTable) (keys data : List Byte) : List Byte :=
  let offKeyTable := Header.sizeOf + DefTable.sizeOf * indices.length
  (Header.mk magic 0x101 offKeyTable (offKeyTable + keys.length) indices.length).encode ++
    indices.flatMap DefTable.encode ++ keys ++ data

-- The TITLE_ID and the TITLE that psf::load gives.
def nativeStrings (file : List Byte) : Option (List Byte × List Byte) :=
  match load (.ofBytes file) with
  | .ok (sfo, .ok) => do
      let titleId ← stringEntry sfo (ascii "TITLE_ID")
      let title ← stringEntry sfo (ascii "TITLE")
      return (titleId, title)
  | _ => none

theorem nativeStrings_spec (file titleId title : List Byte)
    (h : nativeStrings file = some (titleId, title)) :
    ∃ sfo, load (.ofBytes file) = .ok (sfo, .ok) ∧
      stringEntry sfo (ascii "TITLE_ID") = some titleId ∧
      stringEntry sfo (ascii "TITLE") = some title := by
  unfold nativeStrings at h
  split at h
  · rename_i sfo hload
    obtain ⟨first, hfirst, h⟩ := Option.bind_eq_some_iff.mp h
    obtain ⟨second, hsecond, h⟩ := Option.bind_eq_some_iff.mp h
    cases h
    exact ⟨sfo, hload, hfirst, hsecond⟩
  · cases h

def plainFile : List Byte :=
  sfoFile [⟨0, 0x204, 3, 4, 0⟩, ⟨9, 0x204, 6, 8, 4⟩, ⟨15, 0x204, 10, 16, 12⟩]
    (ascii "CATEGORY" ++ 0 :: ascii "TITLE" ++ 0 :: ascii "TITLE_ID" ++ [0])
    (ascii "HG" ++ [0, 0] ++ ascii " Game" ++ [0, 0, 0] ++ ascii "BLUS00001" ++ [0, 0, 0, 0, 0, 0, 0])

theorem parseParamSfo_agrees_plainFile :
    parseParamSfo plainFile = { titleId := some "BLUS00001".toList, title := some "Game".toList } := by
  obtain ⟨sfo, hload, hid, ht⟩ := nativeStrings_spec plainFile (ascii "BLUS00001")
    (ascii " Game") (by decide +kernel)
  have hplain : ∀ field, Plain plainFile field := by
    intro field
    cases field with
    | titleId => decide +kernel
    | title => decide +kernel
  rw [parseParamSfo_agrees plainFile (by decide +kernel) sfo hload _ _ hid ht hplain]
  decide +kernel

-- The trimmed text, null only when it is empty.
def trimmedOrNull (bytes : List Byte) : Option Text :=
  let text := trim isTrimmed (Utf8.decode bytes)
  if text = [] then none else some text

-- A second key in small letters, and a title that is one ideographic space.
def caseFile : List Byte :=
  sfoFile [⟨0, 0x204, 3, 4, 0⟩, ⟨9, 0x204, 6, 8, 4⟩, ⟨15, 0x204, 10, 16, 12⟩, ⟨24, 0x204, 6, 8, 28⟩]
    (ascii "CATEGORY" ++ 0 :: ascii "TITLE" ++ 0 :: ascii "TITLE_ID" ++ 0 :: ascii "title" ++ [0])
    (ascii "HG" ++ [0, 0] ++ ascii "Right" ++ [0, 0, 0] ++ ascii "BLUS00001" ++
      [0, 0, 0, 0, 0, 0, 0] ++ ascii "Wrong" ++ [0, 0, 0])

def spaceFile : List Byte :=
  sfoFile [⟨0, 0x204, 3, 4, 0⟩, ⟨9, 0x204, 4, 8, 4⟩, ⟨15, 0x204, 10, 16, 12⟩]
    (ascii "CATEGORY" ++ 0 :: ascii "TITLE" ++ 0 :: ascii "TITLE_ID" ++ [0])
    (ascii "HG" ++ [0, 0] ++ [0xe3, 0x80, 0x80, 0, 0, 0, 0, 0] ++ ascii "BLUS00001" ++
      [0, 0, 0, 0, 0, 0, 0])

theorem parseParamSfo_differs :
    (nativeStrings caseFile = some (ascii "BLUS00001", ascii "Right") ∧
      (parseParamSfo caseFile).title = some "Wrong".toList ∧
      trimmedOrNull (ascii "Right") = some "Right".toList) ∧
    (nativeStrings spaceFile = some (ascii "BLUS00001", [0xe3, 0x80, 0x80]) ∧
      (parseParamSfo spaceFile).title = none ∧
      trimmedOrNull [0xe3, 0x80, 0x80] = some ['\u3000']) := by
  decide +kernel

end Files

end Rpcsx.ParamSfo
