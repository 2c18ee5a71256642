import Mathlib.Data.List.Nodup
import Rpcsx.Iso.Listing

namespace Rpcsx.Iso

open Data Data.Bytes

-- Names

def asciiChar (b : Byte) : Char := if b.val < 128 then Char.ofNat b.val else '\ufffd'

theorem decodeAscii_eq (bytes : List Byte) : Text.decodeAscii bytes = bytes.map asciiChar := rfl

theorem toNat_ofNat_ascii {n : Nat} (h : n < 128) : (Char.ofNat n).toNat = n := by
  rw [Char.ofNat, dif_pos (show n.isValidChar from Or.inl (by omega))]
  rfl

theorem asciiChar_toNat (b : Byte) (hb : b.val < 128) : (asciiChar b).toNat = b.val := by
  rw [asciiChar, if_pos hb, toNat_ofNat_ascii hb]

theorem asciiChar_toLower : ∀ b : Byte, (asciiChar b).toLower = asciiChar (tolower b) := by decide +kernel

-- The other bytes are decoded as the replacement character, which no ASCII byte is.
theorem asciiChar_eq_iff {b c : Byte} (hc : c.val < 128) :
    asciiChar b = Char.ofNat c.val ↔ b = c := by
  constructor
  · intro h
    have hnat := congrArg Char.toNat h
    rw [toNat_ofNat_ascii hc] at hnat
    by_cases hb : b.val < 128
    · rw [asciiChar_toNat b hb] at hnat
      exact Fin.ext hnat
    · rw [asciiChar, if_neg hb] at hnat
      have hreplacement : ('\ufffd').toNat = 65533 := rfl
      omega
  · rintro rfl
    rw [asciiChar, if_pos hc]

theorem asciiChar_semicolon (b : Byte) : asciiChar b = ';' ↔ b = 59 :=
  asciiChar_eq_iff (c := 59) (by decide)

theorem asciiChar_dot (b : Byte) : asciiChar b = '.' ↔ b = 46 :=
  asciiChar_eq_iff (c := 46) (by decide)

theorem asciiChar_slash (b : Byte) : asciiChar b = '/' ↔ b = 47 :=
  asciiChar_eq_iff (c := 47) (by decide)

theorem tolower_val (b : Byte) :
    (tolower b).val = if 65 ≤ b.val ∧ b.val ≤ 90 then b.val + 32 else b.val := by
  unfold tolower
  split
  · exact Nat.mod_eq_of_lt (by omega)
  · rfl

theorem tolower_lt (b : Byte) (hb : b.val < 128) : (tolower b).val < 128 := by
  rw [tolower_val]
  split <;> omega

theorem tolower_dot (b : Byte) : tolower b = 46 ↔ b = 46 := by
  have hdot : (46 : Byte).val = 46 := rfl
  rw [Fin.ext_iff, Fin.ext_iff, tolower_val, hdot]
  split <;> omega

theorem map_asciiChar_injective {left right : List Byte} (hl : ∀ b ∈ left, b.val < 128)
    (hr : ∀ b ∈ right, b.val < 128) (h : left.map asciiChar = right.map asciiChar) :
    left = right := by
  induction left generalizing right with
  | nil =>
      cases right with
      | nil => rfl
      | cons c right => simp at h
  | cons b left ih =>
      cases right with
      | nil => simp at h
      | cons c right =>
          simp only [List.map_cons, List.cons.injEq] at h
          have hb := asciiChar_toNat b (hl b (by simp))
          have hc := asciiChar_toNat c (hr c (by simp))
          have hbc : b = c := by
            apply Fin.ext
            rw [← hb, ← hc, h.1]
          rw [hbc, ih (fun x hx => hl x (by simp [hx])) (fun x hx => hr x (by simp [hx])) h.2]

theorem equalsIgnoreCase_decodeAscii {left right : List Byte} (hl : ∀ b ∈ left, b.val < 128)
    (hr : ∀ b ∈ right, b.val < 128) :
    Text.equalsIgnoreCase (Text.decodeAscii left) (Text.decodeAscii right) =
      isStringEqNoCase left right := by
  have hlower (bytes : List Byte) :
      (bytes.map asciiChar).map Char.toLower = (bytes.map tolower).map asciiChar := by
    simp [Function.comp_def, asciiChar_toLower]
  have hascii {bytes : List Byte} (hb : ∀ b ∈ bytes, b.val < 128) :
      ∀ b ∈ bytes.map tolower, b.val < 128 := by
    intro b hmem
    obtain ⟨c, hc, rfl⟩ := List.mem_map.mp hmem
    exact tolower_lt c (hb c hc)
  simp only [Text.equalsIgnoreCase, isStringEqNoCase, decodeAscii_eq, hlower]
  congr 1
  apply propext
  constructor
  · exact map_asciiChar_injective (hascii hl) (hascii hr)
  · exact congrArg (List.map asciiChar)

theorem takeWhile_decodeAscii (bytes : List Byte) :
    Text.substringBefore ';' (Text.decodeAscii bytes) =
      Text.decodeAscii (bytes.takeWhile (· ≠ 59)) := by
  simp only [Text.substringBefore, decodeAscii_eq, List.takeWhile_map]
  congr 2
  funext b
  simp [asciiChar_semicolon]

theorem rdropWhile_decodeAscii (bytes : List Byte) :
    Text.trimEnd (· = '.') (Text.decodeAscii bytes) =
      Text.decodeAscii (bytes.rdropWhile (· = 46)) := by
  simp only [Text.trimEnd, decodeAscii_eq, List.rdropWhile, ← List.map_reverse, List.dropWhile_map]
  congr 3
  funext b
  simp [asciiChar_dot]

theorem recordName_eq {rawName : List Byte} (h0 : rawName ≠ [0]) (h1 : rawName ≠ [1]) :
    MetadataReader.recordName rawName =
      Text.decodeAscii ((rawName.takeWhile (· ≠ 59)).rdropWhile (· = 46)) := by
  rw [MetadataReader.recordName, if_neg h0, if_neg h1, takeWhile_decodeAscii,
    rdropWhile_decodeAscii]

-- Records

structure Record.Ok (record : Record) : Prop where
  length_identifier : record.identifier.length = record.entry.filenameLength
  identifier_ne : record.identifier ≠ []
  ascii : ∀ b ∈ record.identifier, b.val < 128

theorem RecordOk.ok {data : List Byte} {offset : Nat} (hr : RecordOk data offset)
    (hl : data.length = blockSize) : (Record.ofBytes data offset).Ok := by
  have hi := hr.identifier_fits
  have hne := hr.identifier_ne
  have hlen : (Record.ofBytes data offset).identifier.length = byteAt data (offset + 32) := by
    simp only [Record.ofBytes, length_slice, hl]
    omega
  refine ⟨hlen, ?_, hr.ascii⟩
  intro h
  rw [h, List.length_nil] at hlen
  omega

theorem sectorRecords_ok {data : List Byte} {offset : Nat} (hk : SectorOk data offset)
    (hl : data.length = blockSize) : ∀ record ∈ sectorRecords data offset, record.Ok := by
  induction hk with
  | full => simp [sectorRecords_full]
  | free ho hz => simp [sectorRecords_free hz]
  | record hr rest ih =>
      intro record hmem
      rw [hr.sectorRecords_eq, List.mem_cons] at hmem
      rcases hmem with rfl | hmem
      · exact hr.ok hl
      · exact ih record hmem

theorem DirectoryOk.record_ok {image : Image} {directory : DirEntry}
    (hd : DirectoryOk image directory) : ∀ record ∈ records image directory, record.Ok := by
  intro record hmem
  obtain ⟨sector, hs, hr⟩ := List.mem_flatMap.mp hmem
  exact sectorRecords_ok (hd.sectors sector hs) (length_of_read hs) record hr

-- The records that only read_dir looks at come behind the others.
theorem records_split (image : Image) (directory : DirEntry) (limit : Nat) :
    ∃ later, records image directory = recordsWithin image directory limit ++ later := by
  refine ⟨((image.read directory.lba (blockCount directory)).drop limit).flatMap
    (sectorRecords · 0), ?_⟩
  rw [records, recordsWithin, ← List.flatMap_append]
  congr 1
  have h := List.take_append_drop limit (image.read directory.lba (blockCount directory))
  rw [← h]
  congr 1
  · rw [Image.read, Image.read, List.take_take, Nat.min_comm]
  · rw [h]

-- Path components

structure PartOk (part : List Byte) : Prop where
  ne_nil : part ≠ []
  ascii : ∀ b ∈ part, b.val < 128
  no_separator : ∀ b ∈ part, isSeparator b = false
  not_blank : Text.isBlank (Text.decodeAscii part) = false
  no_dot : part.getLast? ≠ some 46

theorem getLast?_tolower (bytes : List Byte) :
    (bytes.map tolower).getLast? = some 46 ↔ bytes.getLast? = some 46 := by
  rw [List.getLast?_map]
  cases bytes.getLast? with
  | none => simp
  | some b => simp [tolower_dot]

-- Names that a component without a trailing dot may have.
theorem getLast?_of_eqNoCase {name part : List Byte} (hp : PartOk part)
    (h : isStringEqNoCase name part = true) : name.getLast? ≠ some 46 := by
  simp only [isStringEqNoCase, decide_eq_true_eq] at h
  rw [Ne, ← getLast?_tolower, h, getLast?_tolower]
  exact hp.no_dot

theorem rdropWhile_of_getLast? {name : List Byte} (h : name.getLast? ≠ some 46) :
    name.rdropWhile (· = 46) = name := by
  rw [List.rdropWhile_eq_self_iff]
  intro hne
  rw [List.getLast?_eq_some_getLast hne] at h
  simpa using h

variable {record : Record} {part : List Byte}

theorem itemName_of_even (hr : record.Ok) (he : record.entry.filenameLength % 2 = 0) :
    itemName .ascii record.identifier = record.name := by
  have hlen := hr.length_identifier
  have h0 : record.identifier ≠ [0] := by
    intro h
    rw [h, List.length_singleton] at hlen
    omega
  have h1 : record.identifier ≠ [1] := by
    intro h
    rw [h, List.length_singleton] at hlen
    omega
  rw [itemName, if_neg h0, if_neg h1, if_neg (by omega)]
  rfl

theorem item?_eq_some {item : List Byte × DirEntry} (hr : record.Ok)
    (h : record.item? = some item) :
    record.entry.filenameLength % 2 = 0 ∧ item = (record.name, record.entry) := by
  unfold Record.item? at h
  simp only [Option.ite_none_right_eq_some, Option.some.injEq] at h
  obtain ⟨⟨he, hne⟩, rfl⟩ := h
  exact ⟨he, by rw [itemName_of_even hr he]⟩

theorem answers_of_item {item : List Byte × DirEntry} (hr : record.Ok) (hp : PartOk part)
    (hi : record.item? = some item) (h : isStringEqNoCase item.1 part = true) :
    record.answers part = true := by
  obtain ⟨he, rfl⟩ := item?_eq_some hr hi
  have hlen := hr.length_identifier
  have hname := rdropWhile_of_getLast? (getLast?_of_eqNoCase hp h)
  simp only [Record.answers, hname, h, and_true, decide_eq_true_eq]
  constructor
  · intro h0
    rw [h0, List.length_singleton] at hlen
    omega
  · intro h1
    rw [h1, List.length_singleton] at hlen
    omega

theorem item?_of_answers (hr : record.Ok) (hp : PartOk part) (h : record.answers part = true)
    (he : record.entry.filenameLength % 2 = 0) (hdot : record.name.getLast? ≠ some 46) :
    record.item? = some (record.name, record.entry) ∧
      isStringEqNoCase record.name part = true := by
  simp only [Record.answers, decide_eq_true_eq, rdropWhile_of_getLast? hdot] at h
  obtain ⟨-, -, h⟩ := h
  have hne : record.name ≠ [] := by
    intro hnil
    simp only [isStringEqNoCase, hnil, List.map_nil, decide_eq_true_eq] at h
    exact hp.ne_nil (List.map_eq_nil_iff.mp h.symm)
  refine ⟨?_, h⟩
  rw [Record.item?, itemName_of_even hr he]
  exact if_pos ⟨he, hne⟩

-- The entry that the directory listing has under a component.
theorem isoEntryOf_any (hr : record.Ok) (hp : PartOk part) :
    (record.isoEntryOf.any fun entry =>
      Text.equalsIgnoreCase entry.name (Text.decodeAscii part)) = record.answers part := by
  unfold Record.isoEntryOf
  by_cases h0 : record.identifier = [0]
  · simp [h0, Record.answers]
  · by_cases h1 : record.identifier = [1]
    · simp [h1, Record.answers]
    · have hascii : ∀ b ∈ record.name.rdropWhile (· = 46), b.val < 128 := by
        intro b hb
        exact hr.ascii b (List.takeWhile_subset _ ((List.rdropWhile_prefix _ _).subset hb))
      rw [if_neg (by simp [h0, h1])]
      simp only [Option.any_some, recordName_eq h0 h1]
      rw [show record.identifier.takeWhile (· ≠ 59) = record.name from rfl,
        equalsIgnoreCase_decodeAscii hascii hp.ascii]
      simp [Record.answers, h0, h1]

-- Finding a name in a listing

section Find

variable {listing : Listing} {q : List Byte → Bool} {filename name : List Byte} {item : DirEntry}
  {entry : Entry}

theorem find?_add_other (hq : q filename = false) :
    (listing.add filename item).find? (fun e => q e.1) = listing.find? (fun e => q e.1) := by
  induction listing with
  | nil => simp [Listing.add, hq]
  | cons first rest ih =>
      rw [Listing.add]
      split
      · next h =>
          have hfirst : q first.1 = false := by rw [h.1, hq]
          simp [hfirst]
      · simp only [List.find?_cons, ih]

theorem find?_add_new (hn : listing.find? (fun e => q e.1) = none) (hq : q filename = true) :
    (listing.add filename item).find? (fun e => q e.1) =
      some (filename, { extents := [item] }) := by
  induction listing with
  | nil => simp [Listing.add, hq]
  | cons first rest ih =>
      simp only [List.find?_cons] at hn
      cases hf : q first.1 with
      | true => simp [hf] at hn
      | false =>
          simp only [hf] at hn
          rw [Listing.add, if_neg]
          · simp only [List.find?_cons, hf, ih hn]
          · rintro ⟨h, -⟩
            rw [h, hq] at hf
            simp at hf

theorem find?_add_old (hs : listing.find? (fun e => q e.1) = some (name, entry))
    (h : name ≠ filename ∨ entry.extents.getLast?.any DirEntry.isMultiExtent = false) :
    (listing.add filename item).find? (fun e => q e.1) = some (name, entry) := by
  induction listing with
  | nil => simp at hs
  | cons first rest ih =>
      simp only [List.find?_cons] at hs
      rw [Listing.add]
      cases hf : q first.1 with
      | true =>
          simp only [hf, Option.some.injEq] at hs
          subst hs
          rw [if_neg]
          · simp [hf]
          · rintro ⟨hname, hmulti⟩
            rcases h with h | h
            · exact h hname
            · rw [h] at hmulti
              simp at hmulti
      | false =>
          simp only [hf] at hs
          split
          · simp only [List.find?_cons, hf, hs]
          · simp only [List.find?_cons, hf, ih hs]

theorem mem_names_add :
    name ∈ (listing.add filename item).map Prod.fst ↔
      name ∈ listing.map Prod.fst ∨ name = filename := by
  induction listing with
  | nil => simp [Listing.add]
  | cons first rest ih =>
      rw [Listing.add]
      split
      · next h =>
          simp only [List.map_cons, List.mem_cons, h.1]
          tauto
      · rw [List.map_cons, List.map_cons, List.mem_cons, List.mem_cons, ih]
        tauto

theorem mem_names_addAll {items : List (List Byte × DirEntry)} :
    name ∈ (listing.addAll items).map Prod.fst ↔
      name ∈ listing.map Prod.fst ∨ name ∈ items.map Prod.fst := by
  induction items generalizing listing with
  | nil => simp [Listing.addAll]
  | cons i items ih =>
      change name ∈ ((listing.add i.1 i.2).addAll items).map Prod.fst ↔ _
      rw [ih, mem_names_add, List.map_cons, List.mem_cons]
      tauto

-- Nothing is found under names that no item has.
theorem find?_addAll_eq_none {items : List (List Byte × DirEntry)} :
    (Listing.addAll [] items).find? (fun e => q e.1) = none ↔ ∀ i ∈ items, q i.1 = false := by
  have hleft : (Listing.addAll [] items).find? (fun e => q e.1) = none ↔
      ∀ n ∈ (Listing.addAll [] items).map Prod.fst, q n = false := by simp
  have hright : (∀ i ∈ items, q i.1 = false) ↔ ∀ n ∈ items.map Prod.fst, q n = false := by simp
  rw [hleft, hright]
  simp only [mem_names_addAll, List.map_nil, List.not_mem_nil, false_or]

theorem find?_addAll_some {items : List (List Byte × DirEntry)}
    (hs : listing.find? (fun e => q e.1) = some (name, { extents := [item] }))
    (h : item.isMultiExtent = true → ∀ i ∈ items, i.1 ≠ name) :
    (listing.addAll items).find? (fun e => q e.1) = some (name, { extents := [item] }) := by
  induction items generalizing listing with
  | nil => exact hs
  | cons i items ih =>
      refine ih ?_ fun hm j hj => h hm j (by simp [hj])
      apply find?_add_old hs
      by_cases hm : item.isMultiExtent = true
      · exact Or.inl (h hm i (by simp)).symm
      · exact Or.inr (by simpa using hm)

-- The first item of a name, unless it is continued.
theorem find?_addAll_first {left right : List (List Byte × DirEntry)}
    (hl : ∀ i ∈ left, q i.1 = false) (hq : q name = true)
    (h : item.isMultiExtent = true → ∀ i ∈ right, i.1 ≠ name) :
    (Listing.addAll [] (left ++ (name, item) :: right)).find? (fun e => q e.1) =
      some (name, { extents := [item] }) := by
  rw [Listing.addAll_append]
  apply find?_addAll_some _ h
  exact find?_add_new (find?_addAll_eq_none.mpr hl) hq

end Find

end Rpcsx.Iso
