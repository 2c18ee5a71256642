import Mathlib.Data.Bool.AllAny
import Mathlib.Data.List.Find
import Mathlib.Data.List.Pairwise
import Rpcsx.Iso.Paths

namespace Rpcsx.Iso

open Data Data.Bytes MetadataReader

-- The volume descriptors

section Volume

variable {blocks : List (List Byte)} {root : DirEntry}

theorem scanVolumes_eq (scan : VolumeScan)
    (hids : ∀ block ∈ blocks.takeWhile notTerminator,
      descriptorId block = ascii "CD001")
    (hroot : ∀ block ∈ blocks.takeWhile notTerminator,
      byteAt block 0 = 1 → DirEntry.ofBytes block rootOffset = root)
    (htwo : ∀ block ∈ blocks.takeWhile notTerminator, byteAt block 0 ≠ 2) :
    (scanVolumes blocks scan).supplementary = scan.supplementary ∧
      ((scan.primary = some root ∨
          ∃ block ∈ blocks.takeWhile notTerminator, byteAt block 0 = 1) →
        (scanVolumes blocks scan).primary = some root) := by
  induction blocks generalizing scan with
  | nil => simp [scanVolumes]
  | cons block rest ih =>
      by_cases hend : byteAt block 0 = 255
      · simp [scanVolumes, hend, notTerminator]
      · have htake : (block :: rest).takeWhile notTerminator =
            block :: rest.takeWhile notTerminator := by
          rw [List.takeWhile_cons, if_pos (by simpa [notTerminator] using hend)]
        rw [htake] at hids hroot htwo ⊢
        have hid := hids block (by simp)
        have htwo' := htwo block (by simp)
        have ih' (scan : VolumeScan) := ih scan (fun b hb => hids b (List.mem_cons_of_mem _ hb))
          (fun b hb => hroot b (List.mem_cons_of_mem _ hb))
          (fun b hb => htwo b (List.mem_cons_of_mem _ hb))
        rw [scanVolumes, if_neg hend, if_neg (by simp [hid])]
        by_cases hone : byteAt block 0 = 1
        · rw [if_pos hone, hroot block (by simp) hone]
          refine ⟨(ih' _).1, fun _ => (ih' _).2 (Or.inl rfl)⟩
        · rw [if_neg hone, if_neg htwo']
          refine ⟨(ih' _).1, fun h => (ih' _).2 ?_⟩
          simpa [hone] using h

theorem readRootFrom_eq {count : Nat}
    (hids : ∀ block ∈ blocks.takeWhile notTerminator,
      descriptorId block = ascii "CD001")
    (hone : ∃ block ∈ (blocks.takeWhile notTerminator).take count,
      byteAt block 0 = 1) :
    ∃ block ∈ blocks.takeWhile notTerminator, byteAt block 0 = 1 ∧
      readRootFrom (blocks.take count) = parseDirectoryRecord block rootOffset := by
  induction blocks generalizing count with
  | nil => simp at hone
  | cons block rest ih =>
      cases count with
      | zero => simp at hone
      | succ count =>
          by_cases hend : byteAt block 0 = 255
          · simp [hend, notTerminator] at hone
          · have htake : (block :: rest).takeWhile notTerminator =
                block :: rest.takeWhile notTerminator := by
              rw [List.takeWhile_cons, if_pos (by simpa [notTerminator] using hend)]
            rw [htake] at hids hone ⊢
            rw [List.take_succ_cons] at hone ⊢
            rw [readRootFrom, if_neg (by simp [hids block (by simp)])]
            by_cases hfirst : byteAt block 0 = 1
            · exact ⟨block, by simp, hfirst, if_pos hfirst⟩
            · rw [if_neg hfirst, if_neg hend]
              obtain ⟨b, hb, h⟩ := ih (fun b hb => hids b (List.mem_cons_of_mem _ hb))
                (by simpa [hfirst] using hone)
              exact ⟨b, List.mem_cons_of_mem _ hb, h⟩

end Volume

-- The two readers stand at the same entry.
structure SameEntry (entry : IsoEntry) (extent : DirEntry) : Prop where
  extent_eq : entry.extent = extent.lba
  size_eq : entry.size = extent.length
  isDirectory_eq : entry.isDirectory = extent.isDirectory

section Root

variable {image : Image} {root : DirEntry} (hwf : WellFormed image root)
include hwf

theorem initializeDevice_eq :
    initializeDevice image = some { image := image, root := root, encoding := .ascii } := by
  have hv := hwf.volume
  obtain ⟨hs, hp⟩ := scanVolumes_eq {} hv.ids hv.primary_root hv.no_supplementary
  obtain ⟨block, hmem, hone⟩ := hv.primary
  have hprimary := hp (Or.inr ⟨block, List.mem_of_mem_take hmem, hone⟩)
  rw [initializeDevice, hprimary, hs]

theorem readRootEntry_eq : ∃ entry, readRootEntry image = some entry ∧ SameEntry entry root := by
  have hv := hwf.volume
  obtain ⟨block, hmem, hone, hread⟩ := readRootFrom_eq hv.ids hv.primary
  have hlen : block.length = blockSize := length_of_read (List.takeWhile_subset _ hmem)
  have hroot := hv.primary_root block hmem hone
  have hl : byteAt block rootOffset = 34 := by rw [← hwf.root_length, ← hroot]; rfl
  have hi : byteAt block (rootOffset + 32) = 1 := by rw [← hwf.root_identifier, ← hroot]; rfl
  have htake : (image.read 16 256).take 240 = image.read 16 240 := by
    rw [Image.read, Image.read, List.take_take]
    rfl
  unfold blockSize at hlen
  rw [htake] at hread
  rw [readRootEntry, hread, parseDirectoryRecord, hlen, hl, hi, if_neg (by decide),
    if_neg (by decide), if_neg (by decide)]
  have hextent : u32Le block (rootOffset + 2) = leValue (slice block (rootOffset + 2) 4) :=
    if_neg (by rw [hlen]; decide)
  have hsize : u32Le block (rootOffset + 10) = leValue (slice block (rootOffset + 10) 4) :=
    if_neg (by rw [hlen]; decide)
  rw [hextent, hsize, ← hroot]
  exact ⟨_, rfl, rfl, rfl, rfl⟩

end Root

-- When the two readers agree on a path below a directory. The first record that a component
-- names needs an identifier of even length without a dot at its end, and no further extents;
-- where the component names no record, none may lie in the blocks that only read_dir reads.
def Clear (image : Image) : DirEntry → List (List Byte) → Prop
  | _, [] => True
  | directory, part :: rest =>
      directory.isDirectory = true →
        ∃ items, nativeItems image directory = some items ∧
          match (recordsWithin image directory maxDirectoryBlocks).find? (Record.answers part) with
          | none => ∀ item ∈ items, isStringEqNoCase item.1 part = false
          | some record =>
              record.entry.filenameLength % 2 = 0 ∧ record.name.getLast? ≠ some 46 ∧
                (record.entry.isMultiExtent = true → (items.map Prod.fst).count record.name = 1) ∧
                Clear image record.entry rest

-- Both find the entry with the same extent and size, or both find nothing.
def Agree : Option (Option Entry) → Option IsoEntry → Prop
  | some (some entry), some isoEntry =>
      entry.extents.head?.map DirEntry.lba = some isoEntry.extent ∧ entry.size = isoEntry.size
  | some none, none => True
  | _, _ => False

section Step

variable {image : Image} {directory : DirEntry} {part : List Byte} {rest : List (List Byte)}
  {entry : IsoEntry} {items : List (List Byte × DirEntry)} {record : Record} {root : DirEntry}

theorem openParts_cons (hd : DirectoryOk image directory) (hdir : directory.isDirectory = true) :
    openParts { image := image, root := root, encoding := .ascii } { extents := [directory] }
      (part :: rest) =
    match nativeItems image directory with
    | none => none
    | some items =>
        match (Listing.addAll [] items).find? fun e => isStringEqNoCase e.1 part with
        | none => some none
        | some e => openParts { image := image, root := root, encoding := .ascii } e.2 rest := by
  have hentry : Entry.isDirectory { extents := [directory] } = true := hdir
  rw [openParts, if_neg (by simp [hentry])]
  simp only [readDir_eq hd hdir]
  cases nativeItems image directory with
  | none => rfl
  | some items => rfl

section Parts

variable (hd : DirectoryOk image directory) (hp : PartOk part)
include hd hp

theorem findParts_cons (hdir : directory.isDirectory = true) (he : SameEntry entry directory)
    (texts : List Text) :
    findParts image entry (Text.decodeAscii part :: texts) =
      match ((recordsWithin image directory maxDirectoryBlocks).find?
        (Record.answers part)).bind Record.isoEntryOf with
      | some e => findParts image e texts
      | none => none := by
  have hfind : (listDirectory image entry).find? (fun e =>
      Text.equalsIgnoreCase e.name (Text.decodeAscii part)) =
      ((recordsWithin image directory maxDirectoryBlocks).find? (Record.answers part)).bind
        Record.isoEntryOf := by
    rw [listDirectory_eq hd he.extent_eq he.size_eq (by rw [he.isDirectory_eq, hdir]),
      List.find?_filterMap]
    congr 1
    apply List.find?_congr
    intro record hmem
    obtain ⟨later, hsplit⟩ := records_split image directory maxDirectoryBlocks
    exact isoEntryOf_any (hd.record_ok record (by rw [hsplit]; simp [hmem])) hp
  rw [findParts, if_pos (by rw [he.isDirectory_eq, hdir]), hfind] <;> rfl

-- The record that a component names is the first item of its name.
theorem items_first (hi : nativeItems image directory = some items)
    (hf : (recordsWithin image directory maxDirectoryBlocks).find? (Record.answers part) =
      some record)
    (heven : record.entry.filenameLength % 2 = 0) (hdot : record.name.getLast? ≠ some 46) :
    ∃ left right, items = left ++ (record.name, record.entry) :: right ∧
      (∀ i ∈ left, isStringEqNoCase i.1 part = false) ∧
      isStringEqNoCase record.name part = true := by
  obtain ⟨hanswers, before, behind, hwithin, hbefore⟩ := List.find?_eq_some_iff_append.mp hf
  obtain ⟨later, hsplit⟩ := records_split image directory maxDirectoryBlocks
  rw [hwithin] at hsplit
  have hok : ∀ r ∈ records image directory, r.Ok := hd.record_ok
  have hrecord := item?_of_answers (hok record (by rw [hsplit]; simp)) hp hanswers heven hdot
  obtain ⟨stray, -, rfl⟩ := Option.map_eq_some_iff.mp hi
  refine ⟨before.filterMap Record.item?, (behind ++ later).filterMap Record.item? ++ stray, ?_, ?_,
    hrecord.2⟩
  · rw [hsplit]
    simp [hrecord.1]
  · intro i hmem
    obtain ⟨r, hr, hri⟩ := List.mem_filterMap.mp hmem
    by_contra hne
    have hans := answers_of_item (hok r (by rw [hsplit]; simp [hr])) hp hri (by simpa using hne)
    have hnot := hbefore r hr
    simp [hans] at hnot

theorem openParts_found (hdir : directory.isDirectory = true)
    (hi : nativeItems image directory = some items)
    (hf : (recordsWithin image directory maxDirectoryBlocks).find? (Record.answers part) =
      some record)
    (heven : record.entry.filenameLength % 2 = 0) (hdot : record.name.getLast? ≠ some 46)
    (hmulti : record.entry.isMultiExtent = true → (items.map Prod.fst).count record.name = 1) :
    openParts { image := image, root := root, encoding := .ascii } { extents := [directory] }
      (part :: rest) =
    openParts { image := image, root := root, encoding := .ascii } { extents := [record.entry] }
      rest := by
  obtain ⟨left, right, rfl, hleft, hname⟩ := items_first hd hp hi hf heven hdot
  have hright : record.entry.isMultiExtent = true → ∀ i ∈ right, i.1 ≠ record.name := by
    intro hm i hmem hn
    have hcount := hmulti hm
    rw [List.map_append, List.map_cons, List.count_append, List.count_cons_self] at hcount
    have hpos : 0 < (right.map Prod.fst).count record.name :=
      List.count_pos_iff.mpr (List.mem_map.mpr ⟨i, hmem, hn⟩)
    omega
  have hfound := find?_addAll_first (q := fun n => isStringEqNoCase n part) hleft hname hright
  rw [openParts_cons hd hdir, hi]
  simp only [hfound]

end Parts

theorem isoEntryOf_of_answers (h : record.answers part = true) :
    ∃ e, record.isoEntryOf = some e ∧ SameEntry e record.entry := by
  simp only [Record.answers, decide_eq_true_eq] at h
  refine ⟨_, if_neg ?_, rfl, rfl, rfl⟩
  rintro (h0 | h1)
  · exact h.1 h0
  · exact h.2.1 h1

theorem not_directory (he : SameEntry entry directory) (hdir : directory.isDirectory = false)
    (texts : List Text) (text : Text) :
    Agree (openParts { image := image, root := root, encoding := .ascii }
      { extents := [directory] } (part :: rest)) (findParts image entry (text :: texts)) := by
  have hentry : Entry.isDirectory { extents := [directory] } = false := hdir
  rw [openParts, if_pos hentry, findParts, if_neg (by simp [he.isDirectory_eq, hdir])]
  trivial

end Step

-- A directory has one record for each name, and the blocks behind it that are read with it
-- do not repeat one.
def NamesDistinct (image : Image) (root : DirEntry) : Prop :=
  ∀ directory, Reachable image root directory → directory.isDirectory = true →
    ∀ stray, strayItems image directory = some stray →
      ((records image directory).map Record.name ++ stray.map Prod.fst).Pairwise fun a b =>
        isStringEqNoCase (a.rdropWhile (· = 46)) (b.rdropWhile (· = 46)) = false

theorem eqNoCase_of_both {left right part : List Byte} (hl : isStringEqNoCase left part = true)
    (hr : isStringEqNoCase right part = true) : isStringEqNoCase left right = true := by
  simp only [isStringEqNoCase, decide_eq_true_eq] at *
  rw [hl, hr]

-- read_dir lists some of the records, in order.
theorem itemNames_sublist (l : List Record) (hok : ∀ record ∈ l, record.Ok) :
    ((l.filterMap Record.item?).map Prod.fst).Sublist (l.map Record.name) := by
  induction l with
  | nil => simp
  | cons record rest ih =>
      have ih' := ih fun r hr => hok r (List.mem_cons_of_mem _ hr)
      rw [List.filterMap_cons, List.map_cons]
      cases hi : record.item? with
      | none => exact ih'.cons _
      | some item =>
          obtain ⟨-, rfl⟩ := item?_eq_some (hok record (by simp)) hi
          exact ih'.cons_cons _

section Distinct

variable {image : Image} {directory : DirEntry} {items : List (List Byte × DirEntry)}
  {stray : List (List Byte × DirEntry)}
  (hd : DirectoryOk image directory) (hs : strayItems image directory = some stray)
  (hpair : ((records image directory).map Record.name ++ stray.map Prod.fst).Pairwise fun a b =>
    isStringEqNoCase (a.rdropWhile (· = 46)) (b.rdropWhile (· = 46)) = false)
include hd hpair

theorem nodup_names :
    (((records image directory).filterMap Record.item? ++ stray).map Prod.fst).Nodup := by
  have hsub := itemNames_sublist (records image directory) hd.record_ok
  rw [List.map_append]
  refine (hpair.sublist (hsub.append_right _)).imp ?_
  intro a b h hab
  rw [hab] at h
  simp [isStringEqNoCase] at h

-- Where a name has one record, an item that a component names is that record's.
theorem item_of_answers {part : List Byte} {record : Record} {i : List Byte × DirEntry}
    (hp : PartOk part) (hr : record ∈ records image directory)
    (ha : record.answers part = true)
    (hi : i ∈ (records image directory).filterMap Record.item? ++ stray)
    (hn : isStringEqNoCase i.1 part = true) : record.item? = some i := by
  rw [List.pairwise_append] at hpair
  obtain ⟨hrecords, hstray, hcross⟩ := hpair
  have hkey : isStringEqNoCase (record.name.rdropWhile (· = 46)) part = true := by
    simp only [Record.answers, decide_eq_true_eq] at ha
    exact ha.2.2
  rcases List.mem_append.mp hi with hi | hi
  · obtain ⟨other, hother, hitem⟩ := List.mem_filterMap.mp hi
    have hother' := answers_of_item (hd.record_ok other hother) hp hitem hn
    simp only [Record.answers, decide_eq_true_eq] at hother'
    have hsame : record = other := by
      by_contra hne
      have hsymm : Std.Symm fun a b : Record =>
          isStringEqNoCase (a.name.rdropWhile (· = 46)) (b.name.rdropWhile (· = 46)) = false :=
        ⟨fun a b h => by simpa [isStringEqNoCase, eq_comm] using h⟩
      have h := (List.pairwise_map.mp hrecords).forall hr hother hne
      rw [eqNoCase_of_both hkey hother'.2.2] at h
      cases h
    rw [hsame, hitem]
  · have hbare := rdropWhile_of_getLast? (getLast?_of_eqNoCase hp hn)
    have h := hcross record.name (List.mem_map_of_mem hr) i.1 (List.mem_map_of_mem hi)
    rw [hbare, eqNoCase_of_both hkey hn] at h
    cases h

end Distinct

section Walk

variable {image : Image} {root : DirEntry} (hwf : WellFormed image root)
include hwf

theorem agree_of_clear (parts : List (List Byte)) (hp : ∀ part ∈ parts, PartOk part)
    {directory : DirEntry} {entry : IsoEntry} (hr : Reachable image root directory)
    (he : SameEntry entry directory) (hc : Clear image directory parts) :
    Agree (openParts { image := image, root := root, encoding := .ascii }
      { extents := [directory] } parts)
      (findParts image entry (parts.map Text.decodeAscii)) := by
  induction parts generalizing directory entry with
  | nil => simp [openParts, findParts, Agree, Entry.size, he.extent_eq, he.size_eq]
  | cons part rest ih =>
      have hpart := hp part (by simp)
      cases hdir : directory.isDirectory with
      | false => exact not_directory he hdir _ _
      | true =>
          have hd := hwf.directories directory hr hdir
          obtain ⟨items, hi, hm⟩ := hc hdir
          rw [List.map_cons, findParts_cons hd hpart hdir he]
          cases hf : (recordsWithin image directory maxDirectoryBlocks).find?
              (Record.answers part) with
          | none =>
              simp only [hf] at hm
              have hnone := find?_addAll_eq_none (q := fun n => isStringEqNoCase n part).mpr hm
              rw [openParts_cons hd hdir, hi]
              simp only [hnone, Option.bind_none, Agree]
          | some record =>
              simp only [hf] at hm
              obtain ⟨heven, hdot, hmulti, hrest⟩ := hm
              obtain ⟨e, hsome, hsame⟩ := isoEntryOf_of_answers (List.find?_some hf)
              obtain ⟨later, hsplit⟩ := records_split image directory maxDirectoryBlocks
              have hmem : record ∈ records image directory := by
                rw [hsplit]
                exact List.mem_append_left _ (List.mem_of_find?_eq_some hf)
              rw [openParts_found hd hpart hdir hi hf heven hdot hmulti]
              simp only [Option.bind_some, hsome]
              exact ih (fun p h => hp p (by simp [h])) (.child hr hdir hmem) hsame hrest

theorem clear_of_agree (hn : NamesDistinct image root) (parts : List (List Byte))
    (hp : ∀ part ∈ parts, PartOk part) {directory : DirEntry} {entry : IsoEntry}
    (hr : Reachable image root directory) (he : SameEntry entry directory)
    (ha : ∀ parts, (∀ part ∈ parts, PartOk part) →
      Agree (openParts { image := image, root := root, encoding := .ascii }
        { extents := [directory] } parts)
        (findParts image entry (parts.map Text.decodeAscii))) :
    Clear image directory parts := by
  induction parts generalizing directory entry with
  | nil => trivial
  | cons part rest ih =>
      intro hdir
      have hpart := hp part (by simp)
      have hd := hwf.directories directory hr hdir
      have hone := ha [part] (by simpa using hpart)
      rw [List.map_cons, findParts_cons hd hpart hdir he, openParts_cons hd hdir] at hone
      cases hi : nativeItems image directory with
      | none => simp [hi, Agree] at hone
      | some items =>
          refine ⟨items, rfl, ?_⟩
          obtain ⟨stray, hs, rfl⟩ := Option.map_eq_some_iff.mp hi
          have hpair := hn directory hr hdir stray hs
          cases hf : (recordsWithin image directory maxDirectoryBlocks).find?
              (Record.answers part) with
          | none =>
              apply (find?_addAll_eq_none (q := fun n => isStringEqNoCase n part)).mp
              by_contra hne
              obtain ⟨e, hsome⟩ := Option.ne_none_iff_exists'.mp hne
              simp [hi, hf, hsome, openParts, Agree] at hone
          | some record =>
              have hanswers := List.find?_some hf
              obtain ⟨e, hsome, hsame⟩ := isoEntryOf_of_answers hanswers
              obtain ⟨later, hsplit⟩ := records_split image directory maxDirectoryBlocks
              have hmem : record ∈ records image directory := by
                rw [hsplit]
                exact List.mem_append_left _ (List.mem_of_find?_eq_some hf)
              -- Some item has the name, since the other reader finds an entry.
              obtain ⟨i, hmemi, hni⟩ :
                  ∃ i ∈ (records image directory).filterMap Record.item? ++ stray,
                    isStringEqNoCase i.1 part = true := by
                by_contra hnone
                have hall : ∀ i ∈ (records image directory).filterMap Record.item? ++ stray,
                    isStringEqNoCase i.1 part = false := by
                  intro i hmemi
                  by_contra h
                  exact hnone ⟨i, hmemi, by simpa using h⟩
                have hfind :=
                  (find?_addAll_eq_none (q := fun n => isStringEqNoCase n part)).mpr hall
                simp [hi, hf, hsome, hfind, findParts, Agree] at hone
              have hitem := item_of_answers hd hpair hpart hmem hanswers hmemi hni
              obtain ⟨heven, rfl⟩ := item?_eq_some (hd.record_ok record hmem) hitem
              have hdot := getLast?_of_eqNoCase hpart hni
              have hmulti := List.count_eq_one_of_mem (nodup_names hd hpair)
                (List.mem_map_of_mem hmemi)
              refine ⟨heven, hdot, fun _ => hmulti, ?_⟩
              refine ih (fun p h => hp p (by simp [h])) (.child hr hdir hmem) hsame ?_
              intro parts' hp'
              have hall := ha (part :: parts') (by
                intro p h
                rcases List.mem_cons.mp h with rfl | h
                · exact hpart
                · exact hp' p h)
              rw [openParts_found hd hpart hdir hi hf heven hdot fun _ => hmulti, List.map_cons,
                findParts_cons hd hpart hdir he] at hall
              simpa [hf, hsome] using hall

end Walk

-- iso_dev::open and open_entry of the device; without a volume nothing is found.
def nativeOpen (image : Image) (path : List Byte) : Option (Option Entry) :=
  match initializeDevice image with
  | some device => openEntry device path
  | none => some none

theorem nativeOpen_join {image : Image} {root : DirEntry} (hwf : WellFormed image root)
    {parts : List (List Byte)} (hp : ∀ part ∈ parts, PartOk part) :
    nativeOpen image (joinPath parts) =
      openParts { image := image, root := root, encoding := .ascii } { extents := [root] }
        parts := by
  rw [nativeOpen, initializeDevice_eq hwf]
  exact openEntry_join _ parts hp

theorem findEntry_join {image : Image} {entry : IsoEntry} (he : readRootEntry image = some entry)
    {parts : List (List Byte)} (hp : ∀ part ∈ parts, PartOk part) :
    findEntry image (Text.decodeAscii (joinPath parts)) =
      findParts image entry (parts.map Text.decodeAscii) := by
  rw [findEntry, he, ← pathParts_joinPath parts hp]

theorem open_agree_iff {image : Image} {root : DirEntry} (hwf : WellFormed image root) :
    (∀ parts, (∀ part ∈ parts, PartOk part) → Clear image root parts →
      Agree (nativeOpen image (joinPath parts))
        (findEntry image (Text.decodeAscii (joinPath parts)))) ∧
    (NamesDistinct image root →
      (∀ parts, (∀ part ∈ parts, PartOk part) →
        Agree (nativeOpen image (joinPath parts))
          (findEntry image (Text.decodeAscii (joinPath parts)))) →
      ∀ parts, (∀ part ∈ parts, PartOk part) → Clear image root parts) := by
  obtain ⟨entry, hentry, hsame⟩ := readRootEntry_eq hwf
  constructor
  · intro parts hp hc
    rw [nativeOpen_join hwf hp, findEntry_join hentry hp]
    exact agree_of_clear hwf parts hp .root hsame hc
  · intro hn ha parts hp
    refine clear_of_agree hwf hn parts hp .root hsame fun parts' hp' => ?_
    have h := ha parts' hp'
    rwa [nativeOpen_join hwf hp', findEntry_join hentry hp'] at h

-- A disc with one directory and one file in it, as an image writer lays it out.
def discVolumeSector : List Byte :=
  fillSector (1 :: ascii "CD001" ++ List.replicate 150 0 ++ recordBytes [0] 18 2048 2)

def discRootSector : List Byte :=
  fillSector (recordBytes [0] 18 2048 2 ++ recordBytes [1] 18 2048 2 ++
    recordBytes (ascii "PS3_GAME") 19 2048 2)

def discGameSector : List Byte :=
  fillSector (recordBytes [0] 19 2048 2 ++ recordBytes [1] 18 2048 2 ++
    recordBytes (ascii "PARAM.SFO;1") 20 64 0)

def discImage : Image where
  sectors := List.replicate 16 (fillSector []) ++
    [discVolumeSector, fillSector (255 :: ascii "CD001"), discRootSector, discGameSector,
      fillSector []]
  length_sector := by
    intro sector hmem
    simp only [List.mem_append, List.mem_replicate, List.mem_cons, List.not_mem_nil, or_false,
      discVolumeSector, discRootSector, discGameSector] at hmem
    rcases hmem with ⟨-, rfl⟩ | rfl | rfl | rfl | rfl | rfl
    all_goals exact length_fillSector _

def discRoot : DirEntry :=
  { entryLength := 34, lba := 18, length := 2048, flags := 2, filenameLength := 1 }

def discSelf : DirEntry := { discRoot with lba := 19 }

def discGame : Record where
  entry := { entryLength := 42, lba := 19, length := 2048, flags := 2, filenameLength := 8 }
  identifier := ascii "PS3_GAME"

def discParam : Record where
  entry := { entryLength := 44, lba := 20, length := 64, flags := 0, filenameLength := 11 }
  identifier := ascii "PARAM.SFO;1"

theorem sectorRecords_step {data : List Byte} {offset : Nat} (record : Record) (next : Nat)
    (hr : RecordOk data offset) (ho : Record.ofBytes data offset = record)
    (hn : offset + byteAt data offset = next) :
    sectorRecords data offset = record :: sectorRecords data next := by
  rw [hr.sectorRecords_eq, ho, hn]

theorem discRoot_records :
    SectorOk discRootSector 0 ∧
      sectorRecords discRootSector 0 = [⟨discRoot, [0]⟩, ⟨discRoot, [1]⟩, discGame] := by
  have h0 : RecordOk discRootSector 0 := ⟨by decide, by decide, by decide,
    List.all_iff_forall_prop.mp (by decide)⟩
  have h1 : RecordOk discRootSector 34 := ⟨by decide, by decide, by decide,
    List.all_iff_forall_prop.mp (by decide)⟩
  have h2 : RecordOk discRootSector 68 := ⟨by decide, by decide, by decide,
    List.all_iff_forall_prop.mp (by decide)⟩
  have hfree : byteAt discRootSector 110 = 0 := by decide
  constructor
  · exact .record h0 (.record h1 (.record h2 (.free (by decide) hfree)))
  · rw [sectorRecords_step ⟨discRoot, [0]⟩ 34 h0 (by decide) rfl,
      sectorRecords_step ⟨discRoot, [1]⟩ 68 h1 (by decide) rfl,
      sectorRecords_step discGame 110 h2 (by decide) rfl, sectorRecords_free hfree]

theorem discGame_records :
    SectorOk discGameSector 0 ∧
      sectorRecords discGameSector 0 = [⟨discSelf, [0]⟩, ⟨discRoot, [1]⟩, discParam] := by
  have h0 : RecordOk discGameSector 0 := ⟨by decide, by decide, by decide,
    List.all_iff_forall_prop.mp (by decide)⟩
  have h1 : RecordOk discGameSector 34 := ⟨by decide, by decide, by decide,
    List.all_iff_forall_prop.mp (by decide)⟩
  have h2 : RecordOk discGameSector 68 := ⟨by decide, by decide, by decide,
    List.all_iff_forall_prop.mp (by decide)⟩
  have hfree : byteAt discGameSector 112 = 0 := by decide
  constructor
  · exact .record h0 (.record h1 (.record h2 (.free (by decide) hfree)))
  · rw [sectorRecords_step ⟨discSelf, [0]⟩ 34 h0 (by decide) rfl,
      sectorRecords_step ⟨discRoot, [1]⟩ 68 h1 (by decide) rfl,
      sectorRecords_step discParam 112 h2 (by decide) rfl, sectorRecords_free hfree]

-- A directory of one block at the given place.
theorem disc_directory {directory : DirEntry} {sector : List Byte} {list : List Record}
    (hread : discImage.read directory.lba (blockCount directory) = [sector])
    (hone : blockCount directory = 1) (h : SectorOk sector 0 ∧ sectorRecords sector 0 = list) :
    DirectoryOk discImage directory ∧ records discImage directory = list ∧
      recordsWithin discImage directory maxDirectoryBlocks = list ∧
      strayItems discImage directory = some [] := by
  refine ⟨⟨?_, ?_⟩, ?_, ?_, ?_⟩
  · rw [hread, hone, List.length_singleton]
  · intro s hs
    rw [hread, List.mem_singleton] at hs
    rw [hs]
    exact h.1
  · rw [records, hread, List.flatMap_singleton, h.2]
  · rw [recordsWithin, hone, show min 1 maxDirectoryBlocks = 1 by decide, ← hone, hread,
      List.flatMap_singleton, h.2]
  · exact if_pos (Or.inl (by omega))

theorem disc_reachable {directory : DirEntry} (h : Reachable discImage discRoot directory) :
    directory = discRoot ∨ directory = discSelf ∨ directory = discGame.entry ∨
      directory = discParam.entry := by
  induction h with
  | root => exact Or.inl rfl
  | @child directory record hd hdir hr ih =>
      have hroot := (disc_directory (show discImage.read discRoot.lba _ = _ from rfl) rfl
        discRoot_records).2.1
      have hself := (disc_directory (show discImage.read discSelf.lba _ = _ from rfl) rfl
        discGame_records).2.1
      have hgame := (disc_directory (show discImage.read discGame.entry.lba _ = _ from rfl) rfl
        discGame_records).2.1
      rcases ih with rfl | rfl | rfl | rfl
      · rw [hroot] at hr
        simp only [List.mem_cons, List.not_mem_nil, or_false] at hr
        rcases hr with rfl | rfl | rfl <;> simp
      · rw [hself] at hr
        simp only [List.mem_cons, List.not_mem_nil, or_false] at hr
        rcases hr with rfl | rfl | rfl <;> simp
      · rw [hgame] at hr
        simp only [List.mem_cons, List.not_mem_nil, or_false] at hr
        rcases hr with rfl | rfl | rfl <;> simp
      · exact absurd hdir (by decide)

theorem disc_descriptors : descriptors discImage = [discVolumeSector] := by
  have hread : discImage.read 16 256 = [discVolumeSector, fillSector (255 :: ascii "CD001"),
      discRootSector, discGameSector, fillSector []] := rfl
  rw [descriptors, hread, List.takeWhile_cons, if_pos (by decide), List.takeWhile_cons,
    if_neg (by decide)]

theorem disc_wellFormed : WellFormed discImage discRoot where
  volume := by
    have hroot : DirEntry.ofBytes discVolumeSector rootOffset = discRoot := by decide
    constructor <;> rw [disc_descriptors]
    · simp only [List.mem_singleton, forall_eq]
      decide
    · exact ⟨discVolumeSector, by simp, by decide⟩
    · simp only [List.mem_singleton, forall_eq, hroot, implies_true]
    · simp only [List.mem_singleton, forall_eq]
      decide
  root_length := rfl
  root_identifier := rfl
  root_directory := rfl
  directories := by
    intro directory hr hdir
    rcases disc_reachable hr with rfl | rfl | rfl | rfl
    · exact (disc_directory rfl rfl discRoot_records).1
    · exact (disc_directory rfl rfl discGame_records).1
    · exact (disc_directory rfl rfl discGame_records).1
    · exact absurd hdir (by decide)

theorem disc_partOk : ∀ part ∈ [ascii "PS3_GAME", ascii "PARAM.SFO"], PartOk part := by
  have h1 : PartOk (ascii "PS3_GAME") :=
    ⟨by decide, List.all_iff_forall_prop.mp (by decide), List.all_iff_forall_prop.mp (by decide),
      by decide, by decide⟩
  have h2 : PartOk (ascii "PARAM.SFO") :=
    ⟨by decide, List.all_iff_forall_prop.mp (by decide), List.all_iff_forall_prop.mp (by decide),
      by decide, by decide⟩
  simp [h1, h2]

theorem disc_items : nativeItems discImage discRoot = some [(ascii "PS3_GAME", discGame.entry)] ∧
    nativeItems discImage discGame.entry = some [] := by
  obtain ⟨-, hroot, -, hstray⟩ :=
    disc_directory (show discImage.read discRoot.lba _ = _ from rfl) rfl discRoot_records
  obtain ⟨-, hgame, -, hstray'⟩ :=
    disc_directory (show discImage.read discGame.entry.lba _ = _ from rfl) rfl discGame_records
  constructor
  · rw [nativeItems, hroot, hstray]
    decide
  · rw [nativeItems, hgame, hstray']
    decide

theorem disc_find :
    (recordsWithin discImage discRoot maxDirectoryBlocks).find?
      (Record.answers (ascii "PS3_GAME")) = some discGame ∧
    (recordsWithin discImage discGame.entry maxDirectoryBlocks).find?
      (Record.answers (ascii "PARAM.SFO")) = some discParam := by
  obtain ⟨-, -, hroot, -⟩ :=
    disc_directory (show discImage.read discRoot.lba _ = _ from rfl) rfl discRoot_records
  obtain ⟨-, -, hgame, -⟩ :=
    disc_directory (show discImage.read discGame.entry.lba _ = _ from rfl) rfl discGame_records
  constructor
  · rw [hroot]
    decide
  · rw [hgame]
    decide

-- The directory, whose identifier has eight bytes, is found by both readers.
theorem open_agree_iff_directory :
    WellFormed discImage discRoot ∧
      Agree (nativeOpen discImage (joinPath [ascii "PS3_GAME"]))
        (findEntry discImage (Text.decodeAscii (joinPath [ascii "PS3_GAME"]))) := by
  refine ⟨disc_wellFormed, (open_agree_iff disc_wellFormed).1 _ ?_ ?_⟩
  · intro part h
    exact disc_partOk part (List.mem_cons.mpr (Or.inl (List.mem_singleton.mp h)))
  · intro _
    refine ⟨_, disc_items.1, ?_⟩
    simp only [disc_find.1]
    exact ⟨by decide, by decide, by decide, trivial⟩

-- The file in it has an identifier of eleven bytes, and only the metadata reader finds it.
theorem open_misses_odd_identifier :
    WellFormed discImage discRoot ∧
      (∀ part ∈ [ascii "PS3_GAME", ascii "PARAM.SFO"], PartOk part) ∧
      joinPath [ascii "PS3_GAME", ascii "PARAM.SFO"] = ascii "PS3_GAME/PARAM.SFO" ∧
      ¬Agree (nativeOpen discImage (ascii "PS3_GAME/PARAM.SFO"))
        (findEntry discImage (Text.decodeAscii (ascii "PS3_GAME/PARAM.SFO"))) := by
  have hjoin : joinPath [ascii "PS3_GAME", ascii "PARAM.SFO"] = ascii "PS3_GAME/PARAM.SFO" := by
    decide
  refine ⟨disc_wellFormed, disc_partOk, hjoin, ?_⟩
  obtain ⟨hroot, -, -, -⟩ :=
    disc_directory (show discImage.read discRoot.lba _ = _ from rfl) rfl discRoot_records
  obtain ⟨hgame, -, -, -⟩ :=
    disc_directory (show discImage.read discGame.entry.lba _ = _ from rfl) rfl discGame_records
  obtain ⟨entry, hentry, hsame⟩ := readRootEntry_eq disc_wellFormed
  obtain ⟨game, hgame?, hgamesame⟩ := isoEntryOf_of_answers (List.find?_some disc_find.1)
  obtain ⟨param, hparam?, -⟩ := isoEntryOf_of_answers (List.find?_some disc_find.2)
  have h1 := disc_partOk (ascii "PS3_GAME") (by simp)
  have h2 := disc_partOk (ascii "PARAM.SFO") (by simp)
  have hopen : nativeOpen discImage (ascii "PS3_GAME/PARAM.SFO") = some none := by
    rw [← hjoin, nativeOpen_join disc_wellFormed disc_partOk,
      openParts_found hroot h1 rfl disc_items.1 disc_find.1 rfl (by decide) (by decide),
      openParts_cons hgame rfl, disc_items.2]
    rfl
  have hfind : findEntry discImage (Text.decodeAscii (ascii "PS3_GAME/PARAM.SFO")) =
      some param := by
    rw [← hjoin, findEntry_join hentry disc_partOk, List.map_cons, List.map_singleton,
      findParts_cons hroot h1 rfl hsame, disc_find.1]
    simp only [Option.bind_some, hgame?]
    rw [findParts_cons hgame h2 rfl hgamesame, disc_find.2]
    simp only [Option.bind_some, hparam?, findParts]
  rw [hopen, hfind]
  exact fun h => h

end Rpcsx.Iso
