import Rpcsx.Tar
import Rpcsx.Tar.Theorems

namespace Rpcsx.Tar

open Data Data.Bytes

theorem overlay_eq {buffer data : List Byte} {offset : Nat}
    (hfit : offset + data.length ≤ buffer.length) :
    overlay buffer offset data =
      buffer.take offset ++ (data ++ buffer.drop (offset + data.length)) := by
  unfold overlay
  rw [List.append_assoc]
  apply List.take_of_length_le
  simp only [List.length_append, List.length_take, List.length_drop]
  omega

theorem slice_overlay_of_disjoint {buffer data : List Byte} {offset start count : Nat}
    (hfit : offset + data.length ≤ buffer.length)
    (h : offset + data.length ≤ start ∨ start + count ≤ offset) :
    slice (overlay buffer offset data) start count = slice buffer start count := by
  have hlen : (buffer.take offset).length = offset := by
    rw [List.length_take]
    omega
  rw [overlay_eq hfit]
  rcases h with h | h
  · unfold slice
    congr 1
    rw [← List.append_assoc, List.drop_append, List.length_append, hlen,
      List.drop_of_length_le (by rw [List.length_append]; omega), List.nil_append, List.drop_drop]
    congr 1
    omega
  · rw [slice_of_le_length (by omega)]
    unfold slice
    rw [List.drop_take, List.take_take]
    congr 1
    omega

theorem slice_overlay_self {buffer data : List Byte} {offset count : Nat}
    (hfit : offset + data.length ≤ buffer.length) (hcount : data.length ≤ count) :
    slice (overlay buffer offset data) offset count =
      data ++ slice buffer (offset + data.length) (count - data.length) := by
  have hlen : (buffer.take offset).length = offset := by
    rw [List.length_take]
    omega
  rw [overlay_eq hfit]
  unfold slice
  rw [List.drop_append, hlen, List.drop_of_length_le hlen.le, List.nil_append, Nat.sub_self,
    List.drop_zero, List.take_append, List.take_of_length_le hcount]

theorem slice_replicate {size start count : Nat} (h : start + count ≤ size) :
    slice (List.replicate size 0) start count = List.replicate count 0 := by
  unfold slice
  rw [List.drop_replicate, List.take_replicate]
  congr 1
  omega

-- A buffer that is written to several times.
def overlays (buffer : List Byte) (writes : List (Nat × List Byte)) : List Byte :=
  writes.foldl (fun buffer write => overlay buffer write.1 write.2) buffer

-- A write inside a buffer that stays away from a field.
def Outside (size start count : Nat) (write : Nat × List Byte) : Prop :=
  write.1 + write.2.length ≤ size ∧
    (write.1 + write.2.length ≤ start ∨ start + count ≤ write.1)

theorem length_overlays (buffer : List Byte) (writes : List (Nat × List Byte)) :
    (overlays buffer writes).length = buffer.length := by
  induction writes generalizing buffer with
  | nil => rfl
  | cons write rest ih => exact (ih _).trans (length_overlay ..)

theorem slice_overlays_of_outside {buffer : List Byte} {start count : Nat}
    {writes : List (Nat × List Byte)}
    (h : ∀ write ∈ writes, Outside buffer.length start count write) :
    slice (overlays buffer writes) start count = slice buffer start count := by
  induction writes generalizing buffer with
  | nil => rfl
  | cons write rest ih =>
      obtain ⟨hfit, hdisjoint⟩ := h write List.mem_cons_self
      have hrest : slice (overlays (overlay buffer write.1 write.2) rest) start count =
          slice (overlay buffer write.1 write.2) start count := by
        apply ih
        intro other hother
        rw [length_overlay]
        exact h other (List.mem_cons_of_mem _ hother)
      exact hrest.trans (slice_overlay_of_disjoint hfit hdisjoint)

-- A field that one of the writes fills from its start.
theorem slice_overlays_field {size start count : Nat} {data : List Byte}
    (before after : List (Nat × List Byte)) (hdata : data.length ≤ count)
    (hfit : start + count ≤ size)
    (h : ∀ write ∈ before ++ after, Outside size start count write) :
    slice (overlays (List.replicate size 0) (before ++ (start, data) :: after)) start count =
      data ++ List.replicate (count - data.length) 0 := by
  have hbefore : ∀ write ∈ before, Outside size start count write := fun write hwrite =>
    h write (List.mem_append_left _ hwrite)
  have hlen : (overlays (List.replicate size 0) before).length = size := by
    rw [length_overlays, List.length_replicate]
  have hsplit : overlays (List.replicate size 0) (before ++ (start, data) :: after) =
      overlays (overlay (overlays (List.replicate size 0) before) start data) after := by
    unfold overlays
    rw [List.foldl_append, List.foldl_cons]
  rw [hsplit, slice_overlays_of_outside, slice_overlay_self (by omega) hdata]
  · congr 1
    rw [slice_overlays_of_outside, slice_replicate (by omega)]
    intro write hwrite
    obtain ⟨hsize, hout⟩ := hbefore write hwrite
    rw [List.length_replicate]
    exact ⟨hsize, by omega⟩
  · intro write hwrite
    rw [length_overlay, hlen]
    exact h write (List.mem_append_right _ hwrite)

structure Field where
  start : Nat
  count : Nat
  data : List Byte

def Field.Apart (left right : Field) : Prop :=
  left.start + left.count ≤ right.start ∨ right.start + right.count ≤ left.start

def writeFields (size : Nat) (fields : List Field) : List Byte :=
  overlays (List.replicate size 0) (fields.map fun field => (field.start, field.data))

-- Fields that do not meet keep what was written to them, with zeroes behind.
theorem slice_writeFields {size : Nat} {fields : List Field}
    (hfit : ∀ field ∈ fields, field.start + field.count ≤ size ∧ field.data.length ≤ field.count)
    (hapart : fields.Pairwise Field.Apart) {field : Field} (hfield : field ∈ fields) :
    slice (writeFields size fields) field.start field.count =
      field.data ++ List.replicate (field.count - field.data.length) 0 := by
  obtain ⟨before, after, rfl⟩ := List.append_of_mem hfield
  rw [List.pairwise_append, List.pairwise_cons] at hapart
  obtain ⟨-, ⟨hafter, -⟩, hbefore⟩ := hapart
  obtain ⟨hsize, hdata⟩ := hfit field hfield
  unfold writeFields
  rw [List.map_append, List.map_cons]
  apply slice_overlays_field _ _ hdata hsize
  intro write hwrite
  rw [← List.map_append] at hwrite
  obtain ⟨other, hother, rfl⟩ := List.mem_map.mp hwrite
  have hmem : other ∈ before ++ field :: after := by
    simp only [List.mem_append, List.mem_cons] at hother ⊢
    tauto
  obtain ⟨hsize', hdata'⟩ := hfit other hmem
  have hfar : Field.Apart other field ∨ Field.Apart field other := by
    rcases List.mem_append.mp hother with h | h
    · exact Or.inl (hbefore other h field List.mem_cons_self)
    · exact Or.inr (hafter other h)
  unfold Field.Apart at hfar
  unfold Outside
  dsimp only
  omega

theorem octalDigits_length {number count : Nat} (hpos : 0 < count) (h : number < 8 ^ count) :
    (octalDigits number).length ≤ count := by
  induction count generalizing number with
  | zero => omega
  | succ count ih =>
      rw [octalDigits]
      split
      · simp
      · rename_i hlarge
        have hcount : 0 < count := by
          rcases Nat.eq_zero_or_pos count with rfl | hcount
          · omega
          · exact hcount
        have hdiv : number / 8 < 8 ^ count := by
          rw [Nat.pow_succ] at h
          omega
        have := ih hcount hdiv
        rw [List.length_append, List.length_singleton]
        omega

theorem octalDigits_isOctalDigit (number : Nat) :
    ∀ digit ∈ octalDigits number, isOctalDigit digit = true := by
  fun_induction octalDigits number with
  | case1 number hsmall =>
      intro digit hdigit
      rw [List.mem_singleton] at hdigit
      subst hdigit
      simp only [isOctalDigit, Fin.val_ofNat, decide_eq_true_eq]
      omega
  | case2 number hlarge ih =>
      intro digit hdigit
      rcases List.mem_append.mp hdigit with hdigit | hdigit
      · exact ih digit hdigit
      · rw [List.mem_singleton] at hdigit
        subst hdigit
        simp only [isOctalDigit, Fin.val_ofNat, decide_eq_true_eq]
        omega

theorem octalDigits_ne_nil (number : Nat) : octalDigits number ≠ [] := by
  rw [octalDigits]
  split <;> simp

theorem octalValue_octalDigits (number : Nat) : octalValue (octalDigits number) = number := by
  fun_induction octalDigits number with
  | case1 number hsmall =>
      simp only [octalValue, List.foldl_cons, List.foldl_nil, Fin.val_ofNat]
      omega
  | case2 number hlarge ih =>
      unfold octalValue at ih ⊢
      rw [List.foldl_append, ih]
      simp only [List.foldl_cons, List.foldl_nil, Fin.val_ofNat]
      omega

-- A number of at most eleven digits in a field of twelve bytes.
theorem octalTextToU64_octalDigits {number count : Nat} (h : number < 2 ^ 33)
    (hcount : 0 < count) :
    octalTextToU64 (octalDigits number ++ List.replicate count 0) = number := by
  obtain ⟨count, rfl⟩ : ∃ more, count = more + 1 := ⟨count - 1, by omega⟩
  have hdigits := octalDigits_isOctalDigit number
  have hrest : isOctalDigit 0 = false := by decide
  unfold octalTextToU64
  rw [List.replicate_succ, List.takeWhile_append_of_pos hdigits,
    List.dropWhile_append_of_pos hdigits, List.takeWhile_cons_of_neg (by simp [hrest]),
    List.dropWhile_cons_of_neg (by simp [hrest]), List.append_nil]
  dsimp only
  rw [if_neg (by simp), octalValue_octalDigits, if_neg]
  rintro (hnil | hbig)
  · exact octalDigits_ne_nil number hnil
  · unfold umax at hbig
    omega

-- What the numbers of an entry have to satisfy to fit their fields.
structure Fits (path : Name) (entry : DirEntry) : Prop where
  path_ne : path ≠ []
  path_length : path.length ≤ 255
  path_nul : 0 ∉ path
  size : entry.content.length < 2 ^ 33
  mtime : entry.times.mtime < 2 ^ 33
  atime : entry.times.atime < 2 ^ 33

section Header

variable {path : Name} {entry : DirEntry}

def savedSize (entry : DirEntry) : Nat := if entry.isDirectory then 0 else entry.content.length

theorem Fits.savedSize_lt (h : Fits path entry) : savedSize entry < 2 ^ 33 := by
  unfold savedSize
  split
  · decide
  · exact h.size

theorem octalDigits_field {number : Nat} (h : number < 2 ^ 33) :
    (octalDigits number).length ≤ 11 := octalDigits_length (by decide) (by omega)

theorem prefixSize_le (path : Name) : prefixSize path ≤ 155 := by
  unfold prefixSize
  omega

theorem prefix_length (h : path.length ≤ 255) : (path.take (prefixSize path)).length =
    prefixSize path := by
  rw [List.length_take]
  unfold prefixSize
  omega

theorem name_eq (h : path.length ≤ 255) :
    (path.drop (prefixSize path)).take (nameSize path) = path.drop (prefixSize path) := by
  apply List.take_of_length_le
  rw [List.length_drop]
  unfold nameSize
  omega

theorem name_length (h : path.length ≤ 255) : (path.drop (prefixSize path)).length ≤ 100 := by
  rw [List.length_drop]
  unfold prefixSize
  omega

def headerFields (path : Name) (entry : DirEntry) : List Field :=
  [⟨257, 6, ascii "ustar "⟩, ⟨345, 155, path.take (prefixSize path)⟩,
    ⟨0, 100, path.drop (prefixSize path)⟩, ⟨124, 12, octalDigits (savedSize entry)⟩,
    ⟨136, 12, octalDigits entry.times.mtime⟩, ⟨500, 12, octalDigits entry.times.atime⟩,
    ⟨156, 1, [if entry.isDirectory then 0x35 else 0x30]⟩]

theorem tarHeader_eq (h : path.length ≤ 255) :
    tarHeader path entry = writeFields 512 (headerFields path entry) := by
  unfold tarHeader
  rw [name_eq h]
  simp only [writeFields, overlays, headerFields, List.map_cons, List.map_nil, List.foldl_cons,
    List.foldl_nil, savedSize]

theorem headerFields_apart (path : Name) (entry : DirEntry) :
    (headerFields path entry).Pairwise Field.Apart := by
  simp [headerFields, Field.Apart]

theorem headerFields_fit (h : Fits path entry) : ∀ field ∈ headerFields path entry,
    field.start + field.count ≤ 512 ∧ field.data.length ≤ field.count := by
  have hpre := prefix_length h.path_length
  have hpreSize := prefixSize_le path
  have hname := name_length h.path_length
  have hsize := octalDigits_field h.savedSize_lt
  have hmtime := octalDigits_field h.mtime
  have hatime := octalDigits_field h.atime
  have hustar : (ascii "ustar ").length = 6 := by decide
  simp only [headerFields, List.forall_mem_cons]
  refine ⟨?_, ?_, ?_, ?_, ?_, ?_, ⟨by decide, le_refl 1⟩, List.forall_mem_nil _⟩ <;> omega

theorem slice_tarHeader (h : Fits path entry) (field : Field)
    (hfield : field ∈ headerFields path entry) :
    slice (tarHeader path entry) field.start field.count =
      field.data ++ List.replicate (field.count - field.data.length) 0 := by
  rw [tarHeader_eq h.path_length]
  exact slice_writeFields (headerFields_fit h) (headerFields_apart path entry) hfield

theorem cString_append_replicate {text : List Byte} (h : 0 ∉ text) (count : Nat) :
    cString (text ++ List.replicate count 0) = text := by
  have hzeroes : (List.replicate count (0 : Byte)).takeWhile (· ≠ 0) = [] := by
    cases count <;> simp [List.replicate_succ]
  unfold cString
  rw [List.takeWhile_append_of_pos, hzeroes, List.append_nil]
  intro b hb
  simp only [ne_eq, decide_eq_true_eq]
  rintro rfl
  exact h hb

def TarEntry.ofDirEntry (path : Name) (entry : DirEntry) : TarEntry where
  name := path
  size := savedSize entry
  mtime := entry.times.mtime
  atime := entry.times.atime
  filetype := if entry.isDirectory then 0x35 else 0x30

-- A header is read back as it was written.
theorem emplaceSingleEntry_tarHeader (h : Fits path entry) {offset maxSize : Nat}
    (hsize : offset + savedSize entry ≤ maxSize) :
    emplaceSingleEntry (tarHeader path entry) offset maxSize =
      some (TarEntry.ofDirEntry path entry) := by
  have hmagic : slice (tarHeader path entry) 257 5 = ascii "ustar" := by
    have hfield := slice_tarHeader h ⟨257, 6, ascii "ustar "⟩ (by simp [headerFields])
    have htake : slice (tarHeader path entry) 257 5 = (slice (tarHeader path entry) 257 6).take 5 := by
      simp [slice, List.take_take]
    rw [htake, hfield]
    decide
  have hpre := slice_tarHeader h ⟨345, 155, path.take (prefixSize path)⟩ (by simp [headerFields])
  have hname := slice_tarHeader h ⟨0, 100, path.drop (prefixSize path)⟩ (by simp [headerFields])
  have hsizeField := slice_tarHeader h ⟨124, 12, octalDigits (savedSize entry)⟩
    (by simp [headerFields])
  have hmtime := slice_tarHeader h ⟨136, 12, octalDigits entry.times.mtime⟩ (by simp [headerFields])
  have hatime := slice_tarHeader h ⟨500, 12, octalDigits entry.times.atime⟩ (by simp [headerFields])
  have htype := slice_tarHeader h ⟨156, 1, [if entry.isDirectory then 0x35 else 0x30]⟩
    (by simp [headerFields])
  have hlt := h.savedSize_lt
  have hnul : ∀ part : List Byte, part ⊆ path → 0 ∉ part := fun part hpart hzero =>
    h.path_nul (hpart hzero)
  -- The name never is empty: at least the last byte of the path goes there.
  have hhead : (path.drop (prefixSize path) ++ List.replicate
      (100 - (path.drop (prefixSize path)).length) (0 : Byte)).head? ≠ some 0 := by
    have hpos := List.length_pos_of_ne_nil h.path_ne
    have hlen : 0 < (path.drop (prefixSize path)).length := by
      rw [List.length_drop]
      unfold prefixSize
      omega
    obtain ⟨b, rest, hb⟩ := List.exists_cons_of_ne_nil (List.ne_nil_of_length_pos hlen)
    rw [hb, List.cons_append, List.head?_cons]
    rintro ⟨rfl⟩
    refine hnul (path.drop (prefixSize path)) (List.drop_subset _ _) ?_
    rw [hb]
    exact List.mem_cons_self
  have hvalue : ∀ number, number < 2 ^ 33 → octalTextToU64 (octalDigits number ++
      List.replicate (12 - (octalDigits number).length) 0) = number := by
    intro number hnumber
    have := octalDigits_field hnumber
    exact octalTextToU64_octalDigits hnumber (by omega)
  dsimp only at hpre hname hsizeField hmtime hatime htype
  unfold emplaceSingleEntry
  rw [if_pos hmagic, hpre, hname, hsizeField, hmtime, hatime, htype, hvalue _ hlt,
    hvalue _ h.mtime, hvalue _ h.atime]
  dsimp only
  rw [if_pos ⟨Or.inl hhead, by unfold umax; omega, by omega, by omega⟩,
    cString_append_replicate (hnul _ (List.take_subset _ _)),
    cString_append_replicate (hnul _ (List.drop_subset _ _)), List.take_append_drop]
  rfl

end Header

end Rpcsx.Tar
