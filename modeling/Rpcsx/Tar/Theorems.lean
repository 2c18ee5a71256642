import Rpcsx.Tar

namespace Rpcsx.Tar

open Data Data.Bytes

-- The entries of a directory and of those below it, without the skipped ones.
def listing (targetPath : Name) : Forest → List DirEntry
  | .nil => []
  | .file name times content rest =>
      if isSkipped name then listing targetPath rest
      else ⟨entryPath targetPath name, false, times, content⟩ :: listing targetPath rest
  | .directory name times children rest =>
      if isSkipped name then listing targetPath rest
      else ⟨entryPath targetPath name, true, times, []⟩ ::
        (listing (entryPath targetPath name) children ++ listing targetPath rest)

def SourceDir.listing (dir : SourceDir) : List DirEntry :=
  dir.entry :: Tar.listing dir.path dir.children

variable (func : Option ProcessFunc) (srcDirPos : Nat)

-- What a file adds to an archive that counts, and to one that keeps its data.
def fileAdvance (entry : DirEntry) : Nat :=
  if entry.content.length = 0 then 0
  else
    match func with
    | none => alignUp entry.content.length
    | some func =>
        match func entry.content (entry.name.drop srcDirPos) with
        | none => 0
        | some data => data.length + alignUp data.length

def fileBytes (entry : DirEntry) : List Byte :=
  if entry.content.length = 0 then []
  else
    match func with
    | none => entry.content ++ pad entry.content.length
    | some func =>
        match func entry.content (entry.name.drop srcDirPos) with
        | none => []
        | some data => data ++ pad data.length

def entryAdvance (entry : DirEntry) : Nat :=
  512 + if entry.isDirectory then 0 else fileAdvance func srcDirPos entry

def entryBytes (entry : DirEntry) : List Byte :=
  tarHeader (savedPath srcDirPos entry.name) entry ++
    if entry.isDirectory then [] else fileBytes func srcDirPos entry

variable {func srcDirPos}

theorem saveFile_null (entry : DirEntry) (pos : Nat) :
    saveFile func srcDirPos entry (.null pos) = .null (pos + fileAdvance func srcDirPos entry) := by
  unfold saveFile fileAdvance
  by_cases hsize : entry.content.length = 0
  · rw [if_pos hsize, if_pos hsize]
    rfl
  rw [if_neg hsize, if_neg hsize]
  cases func with
  | none => rfl
  | some func =>
      dsimp only
      cases func entry.content (entry.name.drop srcDirPos) with
      | none => rfl
      | some data =>
          dsimp only
          rw [Nat.add_assoc]

theorem saveFile_data (entry : DirEntry) (bytes : List Byte) :
    saveFile func srcDirPos entry (.data bytes) =
      .data (bytes ++ fileBytes func srcDirPos entry) := by
  unfold saveFile fileBytes
  by_cases hsize : entry.content.length = 0
  · rw [if_pos hsize, if_pos hsize, List.append_nil]
  rw [if_neg hsize, if_neg hsize]
  cases func with
  | none => rfl
  | some func =>
      dsimp only
      cases func entry.content (entry.name.drop srcDirPos) with
      | none => exact congrArg Archive.data (List.append_nil bytes).symm
      | some data => rfl

-- The evaluation counts along the listing and collects it.
theorem saveEntries_null (targetPath : Name) (forest : Forest) (pos : Nat)
    (entries : List DirEntry) :
    saveEntries func srcDirPos targetPath forest (.null pos, entries) =
      (.null (pos + ((listing targetPath forest).map (entryAdvance func srcDirPos)).sum),
        entries ++ listing targetPath forest) := by
  induction forest generalizing targetPath pos entries with
  | nil => simp [saveEntries, listing]
  | file name times content rest ih =>
      rw [saveEntries, listing]
      by_cases hskip : isSkipped name
      · rw [if_pos hskip, if_pos hskip, ih]
      · rw [if_neg hskip, if_neg hskip]
        dsimp only
        rw [saveHeader, saveFile_null, ih]
        simp [entryAdvance, Nat.add_assoc]
  | directory name times children rest ihChildren ihRest =>
      rw [saveEntries, listing]
      by_cases hskip : isSkipped name
      · rw [if_pos hskip, if_pos hskip, ihRest]
      · rw [if_neg hskip, if_neg hskip]
        dsimp only [Archive.isNull]
        rw [saveHeader, ihChildren, ihRest]
        simp [entryAdvance, Nat.add_assoc]

-- The pass over evaluated entries writes them one behind the other.
theorem saveEvaluated_data (entries : List DirEntry) (bytes : List Byte) :
    saveEvaluated func srcDirPos entries (.data bytes) =
      .data (bytes ++ entries.flatMap (entryBytes func srcDirPos)) := by
  induction entries generalizing bytes with
  | nil => simp [saveEvaluated]
  | cons entry rest ih =>
      have hstep : saveEvaluated func srcDirPos (entry :: rest) (.data bytes) =
          saveEvaluated func srcDirPos rest
            (.data (bytes ++ entryBytes func srcDirPos entry)) := by
        rw [saveEvaluated, List.foldl_cons, saveEvaluated]
        congr 1
        dsimp only [saveHeader]
        unfold entryBytes
        by_cases hdir : entry.isDirectory
        · rw [if_pos hdir, if_pos hdir, List.append_nil]
        · rw [if_neg hdir, if_neg hdir, saveFile_data, List.append_assoc]
      rw [hstep, ih, List.flatMap_cons, List.append_assoc]

@[simp] theorem length_overlay (buffer : List Byte) (offset : Nat) (data : List Byte) :
    (overlay buffer offset data).length = buffer.length := by
  simp only [overlay, List.length_take, List.length_append, List.length_drop]
  omega

@[simp] theorem length_tarHeader (path : Name) (entry : DirEntry) :
    (tarHeader path entry).length = 512 := by
  unfold tarHeader
  simp only [length_overlay, List.length_replicate]

theorem length_le_alignUp (count : Nat) : count ≤ alignUp count := by
  unfold alignUp
  omega

@[simp] theorem length_append_pad (data : List Byte) :
    (data ++ pad data.length).length = alignUp data.length := by
  have := length_le_alignUp data.length
  simp only [pad, List.length_append, List.length_replicate]
  omega

theorem isPrefix_entryPath (targetPath name : Name) : targetPath <+: entryPath targetPath name := by
  unfold entryPath
  split
  · exact List.prefix_append _ _
  · exact List.prefix_append _ _

theorem isPrefix_of_mem_listing {path targetPath : Name} {forest : Forest} {entry : DirEntry}
    (hpath : path <+: targetPath) (h : entry ∈ listing targetPath forest) :
    path <+: entry.name := by
  induction forest generalizing targetPath with
  | nil => cases h
  | file name times content rest ih =>
      rw [listing] at h
      split at h
      · exact ih hpath h
      · rcases List.mem_cons.mp h with rfl | hrest
        · exact hpath.trans (isPrefix_entryPath targetPath name)
        · exact ih hpath hrest
  | directory name times children rest ihChildren ihRest =>
      rw [listing] at h
      split at h
      · exact ihRest hpath h
      · have hentry := hpath.trans (isPrefix_entryPath targetPath name)
        rcases List.mem_cons.mp h with rfl | hrest
        · exact hentry
        · rcases List.mem_append.mp hrest with hchild | hrest
          · exact ihChildren hentry hchild
          · exact ihRest hpath hrest

-- The two calls of a saved directory: the first collects the listing, the second writes it.
theorem saveDirectory_null (dir : SourceDir) (func : Option ProcessFunc) (pos : Nat) :
    saveDirectory dir func (.null pos) [] false =
      some (.null (pos + (dir.listing.map (entryAdvance func dir.path.length)).sum),
        dir.listing) := by
  have hdir : entryAdvance func dir.path.length dir.entry = 512 := rfl
  unfold saveDirectory
  simp only [Archive.isNull, List.getLast?_nil, saveHeader, saveEntries_null, SourceDir.listing,
    List.map_cons, List.sum_cons, hdir]
  simp [Nat.add_assoc]

theorem saveDirectory_evaluated (dir : SourceDir) (func : Option ProcessFunc) (bytes : List Byte) :
    saveDirectory dir func (.data bytes) dir.listing true =
      some (.data (bytes ++ dir.listing.flatMap (entryBytes func dir.path.length)),
        dir.listing) := by
  have hpre : dir.listing.all (fun entry => dir.path.isPrefixOf entry.name) = true := by
    rw [List.all_eq_true]
    intro entry hentry
    rw [List.isPrefixOf_iff_prefix]
    rcases List.mem_cons.mp hentry with rfl | hrest
    · exact List.prefix_refl _
    · exact isPrefix_of_mem_listing (List.prefix_refl _) hrest
  unfold saveDirectory
  rw [if_neg (by simp [SourceDir.listing]), if_pos rfl, if_pos hpre, saveEvaluated_data]

end Rpcsx.Tar

namespace Rpcsx.Tar

open Data Data.Bytes

-- A process function that never refuses a file.
def appending (append : List Byte → Name → List Byte) : ProcessFunc :=
  fun content path => some (append content path)

-- What the function appends for an entry; it is not called for directories and empty files.
def appended (append : List Byte → Name → List Byte) (srcDirPos : Nat) (entry : DirEntry) :
    List Byte :=
  if entry.isDirectory ∨ entry.content.length = 0 then []
  else append entry.content (entry.name.drop srcDirPos)

variable {append : List Byte → Name → List Byte} {srcDirPos : Nat}

-- The evaluation counts the appended bytes of a file twice.
theorem entryAdvance_appending (entry : DirEntry) :
    entryAdvance (some (appending append)) srcDirPos entry =
      (entryBytes (some (appending append)) srcDirPos entry).length +
        (appended append srcDirPos entry).length := by
  unfold entryAdvance entryBytes appended
  rw [List.length_append, length_tarHeader]
  by_cases hdir : entry.isDirectory
  · simp [hdir]
  · by_cases hsize : entry.content.length = 0
    · simp [hdir, hsize, fileAdvance, fileBytes]
    · simp only [hdir, hsize, fileAdvance, fileBytes, appending, length_append_pad, if_false,
        false_or, Bool.false_eq_true]
      omega

theorem sum_entryAdvance_appending (entries : List DirEntry) :
    (entries.map (entryAdvance (some (appending append)) srcDirPos)).sum =
      (entries.flatMap (entryBytes (some (appending append)) srcDirPos)).length +
        (entries.flatMap (appended append srcDirPos)).length := by
  induction entries with
  | nil => rfl
  | cons entry rest ih =>
      rw [List.map_cons, List.sum_cons, List.flatMap_cons, List.flatMap_cons, List.length_append,
        List.length_append, entryAdvance_appending, ih]
      omega

theorem flatMap_appended_eq_nil {entries : List DirEntry} :
    entries.flatMap (appended append srcDirPos) = [] ↔
      ∀ entry ∈ entries, entry.isDirectory = false → entry.content ≠ [] →
        append entry.content (entry.name.drop srcDirPos) = [] := by
  rw [List.flatMap_eq_nil_iff]
  constructor
  · intro h entry hentry hdir hcontent
    have happended := h entry hentry
    rw [appended, if_neg (by simp [hdir, hcontent])] at happended
    exact happended
  · intro h entry hentry
    unfold appended
    split
    · rfl
    · rename_i hcond
      rw [not_or, Bool.not_eq_true, List.length_eq_zero_iff] at hcond
      exact h entry hentry hcond.1 hcond.2

-- The evaluation advances by what the pass on its entries writes exactly when the function appends
-- nothing to any file that is not empty.
theorem evaluation_exact_iff (dir : SourceDir) (append : List Byte → Name → List Byte) (pos : Nat)
    (bytes : List Byte) :
    ∃ advance entries written,
      saveDirectory dir (some (appending append)) (.null pos) [] false =
        some (.null (pos + advance), entries) ∧
      saveDirectory dir (some (appending append)) (.data bytes) entries true =
        some (.data (bytes ++ written), entries) ∧
      (advance = written.length ↔
        ∀ entry ∈ dir.listing, entry.isDirectory = false → entry.content ≠ [] →
          append entry.content (entry.name.drop dir.path.length) = []) := by
  refine ⟨_, _, _, saveDirectory_null dir _ pos, saveDirectory_evaluated dir _ bytes, ?_⟩
  rw [sum_entryAdvance_appending, ← flatMap_appended_eq_nil]
  constructor
  · intro h
    exact List.length_eq_zero_iff.mp (by omega)
  · intro h
    rw [h, List.length_nil, Nat.add_zero]

-- A directory with one file of one byte, which the function keeps as it is.
def oneByteDir : SourceDir where
  path := ascii "d"
  times := ⟨0, 0⟩
  children := .file (ascii "f") ⟨0, 0⟩ [7] .nil

theorem evaluation_counts_twice :
    saveDirectory oneByteDir (some (appending fun content _ => content)) (.null 0) [] false =
        some (.null 1537, oneByteDir.listing) ∧
      ∃ written, saveDirectory oneByteDir (some (appending fun content _ => content)) (.data [])
        oneByteDir.listing true = some (.data written, oneByteDir.listing) ∧
        written.length = 1536 := by
  refine ⟨by decide +kernel, _, saveDirectory_evaluated _ _ _, ?_⟩
  decide +kernel

end Rpcsx.Tar
