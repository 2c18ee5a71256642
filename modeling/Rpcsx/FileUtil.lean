import Mathlib.Data.List.DropRight
import Rpcsx.Data.Text

namespace Rpcsx.FileUtil

open Data Data.Text

def storageRoot : Text := "/storage/".toList

def primaryRoot : Text := "/storage/emulated/0".toList

-- The letters that equals(ignoreCase = true) takes for one of "primary": the dotless i and the
-- dotted I are those outside of ASCII.
def lowercase (c : Char) : Char := if c = 'ı' ∨ c = 'İ' then 'i' else c.toLower

def isPrimary (volume : Text) : Bool := volume.map lowercase = "primary".toList

def isSlash (c : Char) : Bool := c = '/'

def externalStorageDocumentIdToFilePath (documentId : Text) : Option Text :=
  let volume := substringBefore ':' documentId
  if isBlank volume then none
  else
    let relativePath := trim isSlash (substringAfter ':' documentId)
    let root := if isPrimary volume then primaryRoot else storageRoot ++ volume
    some (if isBlank relativePath then root else root ++ '/' :: relativePath)

def normalizedPath (path : Text) : Text :=
  trimEnd isSlash (path.map fun c => if c = '\\' then '/' else c)

def externalStoragePathToDocumentId (path : Text) : Option Text :=
  let normalized := normalizedPath path
  if normalized = primaryRoot then some "primary:".toList
  else if primaryRoot ++ ['/'] <+: normalized then
    some ("primary:".toList ++ normalized.drop (primaryRoot ++ ['/']).length)
  else if ¬storageRoot <+: normalized then none
  else
    let remaining := normalized.drop storageRoot.length
    let volume := substringBefore '/' remaining
    if isBlank volume ∨ volume = "emulated".toList then none
    else
      let relativePath := substringAfter '/' remaining
      some (if isBlank relativePath then volume ++ [':'] else volume ++ ':' :: relativePath)

-- Slashes at the ends

theorem trimEnd_self {text : Text} (h : text.getLast? ≠ some '/') : trimEnd isSlash text = text := by
  rw [trimEnd, List.rdropWhile_eq_self_iff]
  intro hne hlast
  simp only [isSlash, decide_eq_true_eq] at hlast
  exact h (by rw [List.getLast?_eq_some_getLast hne, hlast])

theorem trimEnd_last (text : Text) : (trimEnd isSlash text).getLast? ≠ some '/' := by
  intro h
  have hne : trimEnd isSlash text ≠ [] := by
    intro hnil
    rw [hnil] at h
    cases h
  rw [List.getLast?_eq_some_getLast hne, Option.some.injEq] at h
  have hlast : ¬isSlash ((trimEnd isSlash text).getLast hne) :=
    List.rdropWhile_last_not isSlash text hne
  rw [h] at hlast
  exact hlast rfl

theorem trim_self {text : Text} (hfirst : text.head? ≠ some '/') (hlast : text.getLast? ≠ some '/') :
    trim isSlash text = text := by
  have hstart : trimStart isSlash text = text := by
    cases text with
    | nil => rfl
    | cons c rest =>
        have hc : isSlash c = false := by
          simp only [isSlash, decide_eq_false_iff_not]
          rintro rfl
          exact hfirst rfl
        rw [trimStart, List.dropWhile_cons, hc]
        rfl
  rw [trim, hstart, trimEnd_self hlast]

theorem trim_last (text : Text) : (trim isSlash text).getLast? ≠ some '/' := trimEnd_last _

theorem normalizedPath_eq {path : Text} (h : '\\' ∉ path) :
    normalizedPath path = trimEnd isSlash path := by
  have hmap : (path.map fun c => if c = '\\' then '/' else c) = path := by
    conv_rhs => rw [← List.map_id path]
    apply List.map_congr_left
    intro c hc
    rw [if_neg]
    · rfl
    · rintro rfl
      exact h hc
  rw [normalizedPath, hmap]

theorem ne_nil_of_not_isBlank {text : Text} (h : ¬isBlank text) : text ≠ [] := by
  rintro rfl
  exact h rfl

-- Paths below the two roots

theorem primaryRoot_eq : primaryRoot = storageRoot ++ ("emulated".toList ++ '/' :: ['0']) := rfl

theorem toDocumentId_root {path : Text} (h : normalizedPath path = primaryRoot) :
    externalStoragePathToDocumentId path = some "primary:".toList := by
  unfold externalStoragePathToDocumentId
  exact if_pos h

theorem toDocumentId_primary {path relativePath : Text}
    (h : normalizedPath path = primaryRoot ++ '/' :: relativePath) :
    externalStoragePathToDocumentId path = some ("primary:".toList ++ relativePath) := by
  have hsplit : primaryRoot ++ '/' :: relativePath = primaryRoot ++ ['/'] ++ relativePath := by simp
  have hne : primaryRoot ++ '/' :: relativePath ≠ primaryRoot := by
    intro heq
    have hlength := congrArg List.length heq
    rw [List.length_append, List.length_cons] at hlength
    omega
  unfold externalStoragePathToDocumentId
  dsimp only
  rw [h, if_neg hne, hsplit, if_pos (List.prefix_append _ _), List.drop_left]

-- Whatever is not below the primary root.
theorem toDocumentId_storage {path remaining : Text}
    (h : normalizedPath path = storageRoot ++ remaining)
    (hv : substringBefore '/' remaining ≠ "emulated".toList) :
    externalStoragePathToDocumentId path =
      if isBlank (substringBefore '/' remaining) then none
      else some (if isBlank (substringAfter '/' remaining) then
          substringBefore '/' remaining ++ [':']
        else substringBefore '/' remaining ++ ':' :: substringAfter '/' remaining) := by
  have hslash : '/' ∉ "emulated".toList := by decide
  have hroot : storageRoot ++ remaining ≠ primaryRoot := by
    intro heq
    rw [primaryRoot_eq] at heq
    rw [List.append_cancel_left heq, substringBefore_append hslash] at hv
    exact hv rfl
  have hbelow : ¬primaryRoot ++ ['/'] <+: storageRoot ++ remaining := by
    rintro ⟨rest, heq⟩
    rw [primaryRoot_eq, List.append_assoc, List.append_assoc] at heq
    rw [← List.append_cancel_left heq, List.append_assoc, List.cons_append,
      substringBefore_append hslash] at hv
    exact hv rfl
  unfold externalStoragePathToDocumentId
  dsimp only
  rw [h, if_neg hroot, if_neg hbelow, if_neg (not_not.mpr (List.prefix_append _ _)), List.drop_left]
  simp only [hv, or_false]

theorem toDocumentId_cases {path documentId : Text}
    (h : externalStoragePathToDocumentId path = some documentId) :
    normalizedPath path = primaryRoot ∨
      (∃ relativePath, normalizedPath path = primaryRoot ++ '/' :: relativePath) ∨
      ∃ remaining, normalizedPath path = storageRoot ++ remaining ∧
        substringBefore '/' remaining ≠ "emulated".toList ∧
        ¬isBlank (substringBefore '/' remaining) := by
  unfold externalStoragePathToDocumentId at h
  dsimp only at h
  by_cases hroot : normalizedPath path = primaryRoot
  · exact .inl hroot
  · rw [if_neg hroot] at h
    by_cases hbelow : primaryRoot ++ ['/'] <+: normalizedPath path
    · obtain ⟨rest, hrest⟩ := hbelow
      exact .inr (.inl ⟨rest, by rw [← hrest]; simp⟩)
    · rw [if_neg hbelow] at h
      by_cases hstorage : storageRoot <+: normalizedPath path
      · obtain ⟨remaining, hremaining⟩ := hstorage
        rw [if_neg (not_not.mpr ⟨remaining, hremaining⟩), ← hremaining, List.drop_left] at h
        rw [Option.ite_none_left_eq_some, not_or] at h
        exact .inr (.inr ⟨remaining, hremaining.symm, h.1.2, h.1.1⟩)
      · rw [if_pos hstorage] at h
        cases h

theorem toFilePath_eq {volume : Text} (hcolon : ':' ∉ volume) (hblank : ¬isBlank volume)
    (relativePath : Text) :
    externalStorageDocumentIdToFilePath (volume ++ ':' :: relativePath) =
      some (if isBlank (trim isSlash relativePath) then
          (if isPrimary volume then primaryRoot else storageRoot ++ volume)
        else (if isPrimary volume then primaryRoot else storageRoot ++ volume) ++
          '/' :: trim isSlash relativePath) := by
  unfold externalStorageDocumentIdToFilePath
  dsimp only
  rw [substringBefore_append hcolon, substringAfter_append hcolon, if_neg hblank]

-- The round trips

theorem isPrimary_slash {volume : Text} (h : isPrimary volume = true) : '\\' ∉ volume := by
  intro hmem
  have hmap : volume.map lowercase = "primary".toList := of_decide_eq_true h
  have hslash : lowercase '\\' ∈ volume.map lowercase := List.mem_map_of_mem hmem
  rw [hmap] at hslash
  exact absurd hslash (by decide)

-- An id as the path maps it back: the volume in its normal form, and the path without slashes
-- at its ends.
def normalizedId (documentId : Text) : Text :=
  let volume := substringBefore ':' documentId
  (if isPrimary volume then "primary".toList else volume) ++
    ':' :: trim isSlash (substringAfter ':' documentId)

theorem not_mem_append_cons {c : Char} {left right : Text} (d : Char) (hd : c ≠ d) (hl : c ∉ left)
    (hr : c ∉ right) : c ∉ left ++ d :: right := by
  simp [hl, hd, hr]

theorem documentId_round_trip {documentId path : Text}
    (h : externalStorageDocumentIdToFilePath documentId = some path)
    (hslash : '/' ∉ substringBefore ':' documentId)
    (hemulated : substringBefore ':' documentId ≠ "emulated".toList)
    (hback : '\\' ∉ substringBefore ':' documentId)
    (hrelative : '\\' ∉ trim isSlash (substringAfter ':' documentId))
    (hblank : trim isSlash (substringAfter ':' documentId) = [] ∨
      ¬isBlank (trim isSlash (substringAfter ':' documentId))) :
    externalStoragePathToDocumentId path = some (normalizedId documentId) := by
  unfold externalStorageDocumentIdToFilePath at h
  dsimp only at h
  rw [Option.ite_none_left_eq_some] at h
  obtain ⟨hvolume, hpath⟩ := h
  rw [Option.some.injEq] at hpath
  unfold normalizedId
  dsimp only
  have hlast := trim_last (substringAfter ':' documentId)
  generalize substringBefore ':' documentId = volume at *
  generalize trim isSlash (substringAfter ':' documentId) = relativePath at *
  have hvlast : volume.getLast? ≠ some '/' := fun hl => hslash (List.mem_of_getLast? hl)
  cases hprimary : isPrimary volume with
  | true =>
      simp only [hprimary, if_true] at hpath ⊢
      rcases hblank with rfl | hblank
      · rw [if_pos (show isBlank [] = true from rfl)] at hpath
        subst hpath
        rw [toDocumentId_root (by decide)]
        rfl
      · rw [if_neg hblank] at hpath
        subst hpath
        rw [toDocumentId_primary]
        · rfl
        · rw [normalizedPath_eq (not_mem_append_cons '/' (by decide) (by decide) hrelative),
            trimEnd_self]
          rw [List.getLast?_append, List.getLast?_cons]
          obtain ⟨c, hc⟩ := Option.isSome_iff_exists.mp
            (List.getLast?_isSome.mpr (ne_nil_of_not_isBlank hblank))
          rw [hc] at hlast ⊢
          simpa using hlast
  | false =>
      simp only [hprimary, Bool.false_eq_true, if_false] at hpath ⊢
      have hvne := ne_nil_of_not_isBlank hvolume
      have hstorage : '\\' ∉ storageRoot ++ volume := by
        intro hmem
        rcases List.mem_append.mp hmem with hmem | hmem
        · exact absurd hmem (by decide)
        · exact hback hmem
      rcases hblank with rfl | hblank
      · rw [if_pos (show isBlank [] = true from rfl)] at hpath
        subst hpath
        have hnormal : normalizedPath (storageRoot ++ volume) = storageRoot ++ volume := by
          rw [normalizedPath_eq hstorage, trimEnd_self]
          obtain ⟨c, hc⟩ := Option.isSome_iff_exists.mp (List.getLast?_isSome.mpr hvne)
          rw [List.getLast?_append, hc]
          rwa [hc] at hvlast
        rw [toDocumentId_storage hnormal (by rwa [substringBefore_self hslash]),
          substringBefore_self hslash, substringAfter_none hslash, if_neg hvolume,
          if_pos (show isBlank [] = true from rfl)]
      · rw [if_neg hblank] at hpath
        subst hpath
        have hnormal : normalizedPath (storageRoot ++ volume ++ '/' :: relativePath) =
            storageRoot ++ (volume ++ '/' :: relativePath) := by
          rw [normalizedPath_eq (not_mem_append_cons '/' (by decide) hstorage hrelative),
            trimEnd_self, List.append_assoc]
          obtain ⟨c, hc⟩ := Option.isSome_iff_exists.mp
            (List.getLast?_isSome.mpr (ne_nil_of_not_isBlank hblank))
          rw [List.getLast?_append, List.getLast?_cons, hc]
          rw [hc] at hlast
          simpa using hlast
        rw [toDocumentId_storage hnormal (by rwa [substringBefore_append hslash]),
          substringBefore_append hslash, substringAfter_append hslash, if_neg hvolume,
          if_neg hblank]

-- The parts of a path below a root.
def pathVolume (path : Text) : Text := substringBefore '/' (path.drop storageRoot.length)

def pathRelative (path : Text) : Text :=
  if primaryRoot ++ ['/'] <+: path then path.drop (primaryRoot ++ ['/']).length
  else substringAfter '/' (path.drop storageRoot.length)

-- A relative path that neither starts with a slash nor is blank.
def IsPlain (relativePath : Text) : Prop :=
  ¬isBlank relativePath ∧ relativePath.head? ≠ some '/'

theorem toFilePath_plain {volume relativePath : Text} (hcolon : ':' ∉ volume)
    (hblank : ¬isBlank volume) (hplain : IsPlain relativePath)
    (hlast : relativePath.getLast? ≠ some '/') :
    externalStorageDocumentIdToFilePath (volume ++ ':' :: relativePath) =
      some ((if isPrimary volume then primaryRoot else storageRoot ++ volume) ++
        '/' :: relativePath) := by
  rw [toFilePath_eq hcolon hblank, trim_self hplain.2 hlast, if_neg hplain.1]

theorem getLast?_of_append {left right : Text} (h : (left ++ '/' :: right).getLast? ≠ some '/') :
    right ≠ [] ∧ right.getLast? ≠ some '/' := by
  rw [List.getLast?_append, List.getLast?_cons] at h
  cases hr : right.getLast? with
  | none =>
      rw [hr] at h
      exact absurd rfl h
  | some c =>
      rw [hr] at h
      refine ⟨?_, by simpa using h⟩
      rintro rfl
      cases hr

theorem path_round_trip {path documentId : Text}
    (h : externalStoragePathToDocumentId path = some documentId) (hback : '\\' ∉ path)
    (hcolon : ':' ∉ pathVolume (trimEnd isSlash path))
    (hprimary : ¬isPrimary (pathVolume (trimEnd isSlash path)))
    (hplain : pathRelative (trimEnd isSlash path) = [] ∨
      IsPlain (pathRelative (trimEnd isSlash path))) :
    externalStorageDocumentIdToFilePath documentId = some (trimEnd isSlash path) := by
  have hnormal := normalizedPath_eq hback
  have hlast := trimEnd_last path
  rw [← hnormal] at hcolon hprimary hplain hlast ⊢
  rcases toDocumentId_cases h with hn | ⟨relativePath, hn⟩ | ⟨remaining, hn, hv, hvolume⟩
  · rw [toDocumentId_root hn, Option.some.injEq] at h
    subst h
    rw [hn]
    decide
  · rw [toDocumentId_primary hn, Option.some.injEq] at h
    subst h
    have hsplit : primaryRoot ++ '/' :: relativePath = primaryRoot ++ ['/'] ++ relativePath := by
      simp
    rw [hn] at hlast hplain ⊢
    obtain ⟨hne, hrlast⟩ := getLast?_of_append hlast
    rw [pathRelative, hsplit, if_pos (List.prefix_append _ _), List.drop_left] at hplain
    have hrplain := hplain.resolve_left hne
    have hid : "primary:".toList ++ relativePath = "primary".toList ++ ':' :: relativePath := rfl
    rw [hid, toFilePath_plain (by decide) (by decide) hrplain hrlast,
      if_pos (show isPrimary "primary".toList = true by decide)]
  · rw [toDocumentId_storage hn hv, if_neg hvolume, Option.some.injEq] at h
    subst h
    have hbelow : ¬primaryRoot ++ ['/'] <+: storageRoot ++ remaining := by
      rintro ⟨rest, heq⟩
      rw [primaryRoot_eq, List.append_assoc, List.append_assoc] at heq
      rw [← List.append_cancel_left heq, List.append_assoc, List.cons_append,
        substringBefore_append (by decide)] at hv
      exact hv rfl
    rw [hn] at hlast hplain hcolon hprimary ⊢
    rw [pathRelative, if_neg hbelow, List.drop_left] at hplain
    rw [pathVolume, List.drop_left] at hcolon hprimary
    rcases substring_split '/' remaining with ⟨hself, hafter⟩ | hboth
    · rw [hafter, if_pos (show isBlank [] = true from rfl), toFilePath_eq hcolon hvolume,
        if_pos (show isBlank (trim isSlash []) = true from rfl), if_neg hprimary, ← hself]
    · have hend : (storageRoot ++ substringBefore '/' remaining ++
          '/' :: substringAfter '/' remaining).getLast? ≠ some '/' := by
        rwa [List.append_assoc, ← hboth]
      obtain ⟨hne, hrlast⟩ := getLast?_of_append hend
      have hrplain := hplain.resolve_left hne
      rw [if_neg hrplain.1, toFilePath_plain hcolon hvolume hrplain hrlast, if_neg hprimary,
        List.append_assoc, ← hboth]

-- Both directions, away from the names that the two functions normalise.
theorem externalStorage_round_trips :
    (∀ documentId path, externalStorageDocumentIdToFilePath documentId = some path →
      '/' ∉ substringBefore ':' documentId →
      substringBefore ':' documentId ≠ "emulated".toList →
      '\\' ∉ substringBefore ':' documentId →
      '\\' ∉ trim isSlash (substringAfter ':' documentId) →
      (trim isSlash (substringAfter ':' documentId) = [] ∨
        ¬isBlank (trim isSlash (substringAfter ':' documentId))) →
      externalStoragePathToDocumentId path = some (normalizedId documentId)) ∧
    ∀ path documentId, externalStoragePathToDocumentId path = some documentId →
      '\\' ∉ path → ':' ∉ pathVolume (trimEnd isSlash path) →
      ¬isPrimary (pathVolume (trimEnd isSlash path)) →
      (pathRelative (trimEnd isSlash path) = [] ∨
        IsPlain (pathRelative (trimEnd isSlash path))) →
      externalStorageDocumentIdToFilePath documentId = some (trimEnd isSlash path) :=
  ⟨fun _ _ h hslash hemulated hback hrelative hblank =>
      documentId_round_trip h hslash hemulated hback hrelative hblank,
    fun _ _ h hback hcolon hprimary hplain => path_round_trip h hback hcolon hprimary hplain⟩

theorem externalStorage_round_trips_card :
    externalStoragePathToDocumentId "/storage/ABCD-1234/roms/ps3".toList =
        some "ABCD-1234:roms/ps3".toList ∧
      externalStorageDocumentIdToFilePath "ABCD-1234:roms/ps3".toList =
        some "/storage/ABCD-1234/roms/ps3".toList := by
  have hid : externalStorageDocumentIdToFilePath "ABCD-1234:roms/ps3/".toList =
      some "/storage/ABCD-1234/roms/ps3".toList := by decide +kernel
  have hpath : externalStoragePathToDocumentId "/storage/ABCD-1234/roms/ps3/".toList =
      some "ABCD-1234:roms/ps3".toList := by decide +kernel
  have hrelative : IsPlain
      (pathRelative (trimEnd isSlash "/storage/ABCD-1234/roms/ps3/".toList)) :=
    ⟨by decide +kernel, by decide +kernel⟩
  refine ⟨?_, ?_⟩
  · exact externalStorage_round_trips.1 _ _ hid (by decide) (by decide) (by decide)
      (by decide +kernel) (.inr (by decide +kernel))
  · exact externalStorage_round_trips.2 _ _ hpath (by decide) (by decide +kernel)
      (by decide +kernel) (.inr hrelative)

-- A directory named by a blank, a backslash in a name, a volume called primary, a volume with a
-- colon and a doubled slash do not survive.
theorem externalStorage_names_lost :
    (externalStorageDocumentIdToFilePath "primary: ".toList = some "/storage/emulated/0".toList ∧
      externalStoragePathToDocumentId "/storage/emulated/0".toList = some "primary:".toList) ∧
    (externalStorageDocumentIdToFilePath "primary:a\\b".toList =
        some "/storage/emulated/0/a\\b".toList ∧
      externalStoragePathToDocumentId "/storage/emulated/0/a\\b".toList =
        some "primary:a/b".toList) ∧
    (externalStoragePathToDocumentId "/storage/primary/x".toList = some "primary:x".toList ∧
      externalStorageDocumentIdToFilePath "primary:x".toList =
        some "/storage/emulated/0/x".toList) ∧
    (externalStoragePathToDocumentId "/storage/a:b/x".toList = some "a:b:x".toList ∧
      externalStorageDocumentIdToFilePath "a:b:x".toList = some "/storage/a/b:x".toList) ∧
    externalStoragePathToDocumentId "/storage/a//x".toList = some "a:/x".toList ∧
      externalStorageDocumentIdToFilePath "a:/x".toList = some "/storage/a/x".toList := by
  decide +kernel

end Rpcsx.FileUtil
