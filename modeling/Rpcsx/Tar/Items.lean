import Rpcsx.Tar.Reading

namespace Rpcsx.Tar

open Data Data.Bytes

-- A file or directory of a tree, by the names on the way to it.
structure Item where
  path : List Name
  node : FsNode
deriving DecidableEq, Repr

def FsNode.isDirectory : FsNode → Bool
  | .file _ _ => false
  | .directory _ => true

def FsNode.times : FsNode → Times
  | .file times _ => times
  | .directory times => times

def FsNode.content : FsNode → List Byte
  | .file _ content => content
  | .directory _ => []

def items (path : List Name) : Forest → List Item
  | .nil => []
  | .file name times content rest => ⟨path ++ [name], .file times content⟩ :: items path rest
  | .directory name times children rest =>
      ⟨path ++ [name], .directory times⟩ :: (items (path ++ [name]) children ++ items path rest)

-- The source directory itself comes first.
def SourceDir.items (dir : SourceDir) : List Item :=
  ⟨[], .directory dir.times⟩ :: Tar.items [] dir.children

def joinPath (path : List Name) : Name := [delim].intercalate path

def archiveName (path : List Name) : Name := if path = [] then [delim] else joinPath path

-- A name as file systems have it, and one that save_directory does not skip.
structure ValidName (name : Name) : Prop where
  notSkipped : isSkipped name = false
  noDelim : delim ∉ name
  noNul : 0 ∉ name

theorem ValidName.ne_nil {name : Name} (h : ValidName name) : name ≠ [] := by
  rintro rfl
  exact absurd h.notSkipped (by decide)

-- A tree that the format can hold.
structure Storable (dir : SourceDir) : Prop where
  names : ∀ item ∈ dir.items, ∀ name ∈ item.path, ValidName name
  paths : ∀ item ∈ dir.items, (archiveName item.path).length ≤ 255
  distinct : (dir.items.map Item.path).Nodup
  sizes : ∀ item ∈ dir.items, item.node.content.length < 2 ^ 33
  mtimes : ∀ item ∈ dir.items, item.node.times.mtime < 2 ^ 33
  atimes : ∀ item ∈ dir.items, item.node.times.atime < 2 ^ 33

section Paths

variable {path : List Name} {name : Name}

theorem joinPath_cons (name : Name) (path : List Name) (hpath : path ≠ []) :
    joinPath (name :: path) = name ++ (delim :: joinPath path) := by
  obtain ⟨first, rest, rfl⟩ := List.exists_cons_of_ne_nil hpath
  simp [joinPath, List.intercalate, List.intersperse]

theorem joinPath_singleton (name : Name) : joinPath [name] = name := by
  simp [joinPath, List.intercalate, List.intersperse]

theorem joinPath_concat (hpath : path ≠ []) :
    joinPath (path ++ [name]) = joinPath path ++ delim :: name := by
  induction path with
  | nil => exact absurd rfl hpath
  | cons first rest ih =>
      cases rest with
      | nil =>
          rw [List.singleton_append, joinPath_cons first [name] (by simp), joinPath_singleton,
            joinPath_singleton]
      | cons second rest =>
          rw [List.cons_append, joinPath_cons first (second :: rest ++ [name]) (by simp),
            ih (by simp), joinPath_cons first (second :: rest) (by simp), List.append_assoc,
            List.cons_append]

-- The last part of a path.
theorem joinPath_eq_append (hpath : path ≠ []) :
    ∃ front, joinPath path = front ++ path.getLast hpath := by
  obtain ⟨init, last, rfl⟩ : ∃ init last, path = init ++ [last] :=
    ⟨path.dropLast, path.getLast hpath, (List.dropLast_append_getLast hpath).symm⟩
  rw [List.getLast_append_singleton]
  by_cases hinit : init = []
  · subst hinit
    exact ⟨[], by rw [List.nil_append, joinPath_singleton, List.nil_append]⟩
  · exact ⟨joinPath init ++ [delim], by rw [joinPath_concat hinit]; simp⟩

theorem getLast?_joinPath (hpath : path ≠ []) (hvalid : ∀ name ∈ path, ValidName name) :
    (joinPath path).getLast? ≠ some delim := by
  obtain ⟨front, hfront⟩ := joinPath_eq_append hpath
  have hlast := hvalid _ (List.getLast_mem hpath)
  intro h
  rw [hfront, List.getLast?_append_of_ne_nil _ hlast.ne_nil] at h
  exact hlast.noDelim (List.mem_of_getLast? h)

theorem joinPath_ne_nil (hpath : path ≠ []) (hvalid : ∀ name ∈ path, ValidName name) :
    joinPath path ≠ [] := by
  obtain ⟨front, hfront⟩ := joinPath_eq_append hpath
  rw [hfront]
  exact List.append_ne_nil_of_right_ne_nil _ (hvalid _ (List.getLast_mem hpath)).ne_nil

-- The first byte of a path is the first byte of its first name.
theorem dropWhile_joinPath (hpath : path ≠ []) (hvalid : ∀ name ∈ path, ValidName name) :
    (joinPath path).dropWhile (· = delim) = joinPath path := by
  obtain ⟨first, rest, rfl⟩ := List.exists_cons_of_ne_nil hpath
  have hfirst := hvalid first List.mem_cons_self
  obtain ⟨b, more, rfl⟩ := List.exists_cons_of_ne_nil hfirst.ne_nil
  have hb : b ≠ delim := fun h => hfirst.noDelim (h ▸ List.mem_cons_self)
  obtain ⟨tail, htail⟩ : ∃ tail, joinPath ((b :: more) :: rest) = b :: tail := by
    cases rest with
    | nil => exact ⟨more, joinPath_singleton _⟩
    | cons second rest => exact ⟨_, by rw [joinPath_cons _ _ (by simp), List.cons_append]⟩
  rw [htail, List.dropWhile_cons_of_neg (by simpa using hb)]

theorem components_archiveName (hvalid : ∀ name ∈ path, ValidName name) :
    components (archiveName path) = path := by
  unfold components archiveName
  by_cases hpath : path = []
  · subst hpath
    decide
  · rw [if_neg hpath, joinPath, List.splitOn_intercalate delim]
    · apply List.filter_eq_self.mpr
      intro name hname
      simpa using (hvalid name hname).ne_nil
    · intro name hname
      exact (hvalid name hname).noDelim
    · exact hpath

theorem archiveName_ne_nil (hvalid : ∀ name ∈ path, ValidName name) : archiveName path ≠ [] := by
  unfold archiveName
  split
  · simp
  · exact joinPath_ne_nil ‹_› hvalid

theorem mem_joinPath {b : Byte} (h : b ∈ joinPath path) : b = delim ∨ ∃ name ∈ path, b ∈ name := by
  induction path with
  | nil => simp [joinPath, List.intercalate] at h
  | cons first rest ih =>
      cases rest with
      | nil =>
          rw [joinPath_singleton] at h
          exact Or.inr ⟨first, List.mem_cons_self, h⟩
      | cons second rest =>
          rw [joinPath_cons _ _ (by simp), List.mem_append, List.mem_cons] at h
          rcases h with h | h | h
          · exact Or.inr ⟨first, List.mem_cons_self, h⟩
          · exact Or.inl h
          · rcases ih h with h | ⟨name, hname, hb⟩
            · exact Or.inl h
            · exact Or.inr ⟨name, List.mem_cons_of_mem _ hname, hb⟩

theorem nul_notMem_archiveName (hvalid : ∀ name ∈ path, ValidName name) :
    0 ∉ archiveName path := by
  unfold archiveName
  split
  · decide
  · intro h
    rcases mem_joinPath h with h | ⟨name, hname, hb⟩
    · exact absurd h (by decide)
    · exact (hvalid name hname).noNul hb

-- The path of an item below the source directory.
def absolutePath (source : Name) (path : List Name) : Name :=
  if path = [] then source else entryPath source (joinPath path)

theorem absolutePath_of_ne (source : Name) (hpath : path ≠ []) :
    absolutePath source path = entryPath source (joinPath path) := if_neg hpath

theorem entryPath_absolutePath (source : Name) (hvalid : ∀ name ∈ path, ValidName name) :
    entryPath (absolutePath source path) name = absolutePath source (path ++ [name]) := by
  rw [absolutePath_of_ne source (List.append_ne_nil_of_right_ne_nil path (by simp))]
  by_cases hpath : path = []
  · subst hpath
    rw [List.nil_append, joinPath_singleton]
    rfl
  · have hlast : (entryPath source (joinPath path)).getLast? ≠ some delim := by
      have hne := joinPath_ne_nil hpath hvalid
      unfold entryPath
      split
      · rw [List.getLast?_append_of_ne_nil _ hne]
        exact getLast?_joinPath hpath hvalid
      · rw [List.getLast?_append_of_ne_nil _ (by simp), List.getLast?_cons_of_ne_nil hne]
        exact getLast?_joinPath hpath hvalid
    rw [absolutePath_of_ne source hpath, joinPath_concat hpath]
    conv_lhs => rw [entryPath, if_neg hlast]
    unfold entryPath
    split
    · rw [List.append_assoc]
    · rw [List.append_assoc, List.cons_append]

theorem savedPath_absolutePath (source : Name) (hvalid : ∀ name ∈ path, ValidName name) :
    savedPath source.length (absolutePath source path) = archiveName path := by
  unfold savedPath absolutePath archiveName
  by_cases hpath : path = []
  · rw [if_pos hpath, if_pos hpath, List.drop_length]
    rfl
  · have hdrop : ((entryPath source (joinPath path)).drop source.length).dropWhile (· = delim) =
        joinPath path := by
      unfold entryPath
      split
      · rw [List.drop_left]
        exact dropWhile_joinPath hpath hvalid
      · rw [List.drop_left, List.dropWhile_cons_of_pos (by simp)]
        exact dropWhile_joinPath hpath hvalid
    rw [if_neg hpath, if_neg hpath, hdrop]
    exact if_neg (joinPath_ne_nil hpath hvalid)

end Paths

def Item.entry (source : Name) (item : Item) : DirEntry :=
  ⟨absolutePath source item.path, item.node.isDirectory, item.node.times, item.node.content⟩

-- Without skipped names the listing is the tree.
theorem listing_eq (source : Name) {path : List Name} {forest : Forest}
    (hpath : ∀ name ∈ path, ValidName name)
    (hvalid : ∀ item ∈ items path forest, ∀ name ∈ item.path, ValidName name) :
    listing (absolutePath source path) forest = (items path forest).map (Item.entry source) := by
  induction forest generalizing path with
  | nil => rfl
  | file name times content rest ih =>
      have hhead := hvalid _ List.mem_cons_self
      have hname : ValidName name := hhead name (by simp)
      rw [listing, if_neg (by simp [hname.notSkipped]), items, List.map_cons,
        entryPath_absolutePath source hpath,
        ih hpath fun item hitem => hvalid item (List.mem_cons_of_mem _ hitem)]
      rfl
  | directory name times children rest ihChildren ihRest =>
      have hhead := hvalid _ List.mem_cons_self
      have hname : ValidName name := hhead name (by simp)
      rw [listing, if_neg (by simp [hname.notSkipped]), items, List.map_cons, List.map_append,
        entryPath_absolutePath source hpath, ihRest hpath, ihChildren hhead]
      · rfl
      · intro item hitem
        exact hvalid item (List.mem_cons_of_mem _ (List.mem_append_left _ hitem))
      · intro item hitem
        exact hvalid item (List.mem_cons_of_mem _ (List.mem_append_right _ hitem))

theorem Storable.listing_eq {dir : SourceDir} (h : Storable dir) :
    dir.listing = dir.items.map (Item.entry dir.path) := by
  rw [SourceDir.listing, SourceDir.items, List.map_cons]
  have hlisting : Tar.listing (absolutePath dir.path []) dir.children =
      (Tar.items [] dir.children).map (Item.entry dir.path) :=
    Tar.listing_eq dir.path (by simp) fun item hitem =>
      h.names item (List.mem_cons_of_mem _ hitem)
  exact congrArg _ hlisting

theorem Storable.fits {dir : SourceDir} (h : Storable dir) {item : Item}
    (hitem : item ∈ dir.items) : Fits (archiveName item.path) (item.entry dir.path) where
  path_ne := archiveName_ne_nil (h.names item hitem)
  path_length := h.paths item hitem
  path_nul := nul_notMem_archiveName (h.names item hitem)
  size := h.sizes item hitem
  mtime := h.mtimes item hitem
  atime := h.atimes item hitem

-- The data behind the header of an item, and the room both take.
def Item.data (item : Item) : List Byte := item.node.content ++ pad item.node.content.length

def Item.room (item : Item) : Nat := 512 + alignUp item.node.content.length

theorem entryBytes_item (source : Name) {item : Item}
    (hvalid : ∀ name ∈ item.path, ValidName name) :
    entryBytes none source.length (item.entry source) =
      tarHeader (archiveName item.path) (item.entry source) ++ item.data := by
  have hsaved : savedPath source.length (item.entry source).name = archiveName item.path :=
    savedPath_absolutePath source hvalid
  unfold entryBytes
  rw [hsaved]
  congr 1
  obtain ⟨path, node⟩ := item
  cases node with
  | directory times => exact (by decide : ([] : List Byte) = [] ++ pad 0)
  | file times content =>
      change (if content.length = 0 then [] else content ++ pad content.length) =
        content ++ pad content.length
      split
      · rename_i hempty
        rw [List.length_eq_zero_iff.mp hempty]
        rfl
      · rfl

theorem Item.length_data (item : Item) : item.data.length = alignUp item.node.content.length :=
  length_append_pad _

-- What extract does with an item that it reads at a time.
def placeItem (now : Nat) (item : Item) (fs : Fs) : Option Fs :=
  match item.node with
  | .file times content =>
      match createPath now item.path.dropLast fs with
      | none => none
      | some fs =>
          if containsMarker (archiveName item.path) then some fs
          else (writeFile now item.path content fs).bind (utime item.path times)
  | .directory times =>
      if containsMarker (archiveName item.path) then some fs
      else (createPath now item.path fs).bind (utime item.path times)

def placeAll : List (Item × Nat) → Fs → Option Fs
  | [], fs => some fs
  | (item, now) :: rest, fs =>
      match placeItem now item fs with
      | none => none
      | some fs => placeAll rest fs

-- The items of an archive with the times at which they are read.
def stamp (clock : Nat → Nat) : Nat → List Item → List (Item × Nat)
  | _, [] => []
  | offset, item :: rest => (item, clock offset) :: stamp clock (offset + item.room) rest

theorem extractEntry_item {source : Name} {item : Item} (now : Nat) (fs : Fs)
    (hvalid : ∀ name ∈ item.path, ValidName name)
    (hfits : Fits (archiveName item.path) (item.entry source)) :
    extractEntry now (TarEntry.ofDirEntry (archiveName item.path) (item.entry source))
      item.node.content fs = placeItem now item fs := by
  have hmtime : item.node.times.mtime ≠ umax := by
    have hlt : item.node.times.mtime < 2 ^ 33 := hfits.mtime
    unfold umax
    omega
  have hatime : item.node.times.atime ≠ umax := by
    have hlt : item.node.times.atime < 2 ^ 33 := hfits.atime
    unfold umax
    omega
  have htimes : restoreTimes item.path
      (TarEntry.ofDirEntry (archiveName item.path) (item.entry source)) =
        utime item.path item.node.times := by
    funext fs
    change (if item.node.times.mtime = umax then _ else utime _ ⟨if item.node.times.atime = umax then
      _ else item.node.times.atime, item.node.times.mtime⟩ fs) = _
    rw [if_neg hmtime, if_neg hatime]
  have hcomponents : components (TarEntry.ofDirEntry (archiveName item.path)
      (item.entry source)).name = item.path := components_archiveName hvalid
  unfold extractEntry
  dsimp only
  rw [hcomponents, htimes]
  obtain ⟨path, node⟩ := item
  cases node with
  | file times content => exact if_pos (Or.inr rfl)
  | directory times =>
      rw [if_neg]
      · exact if_pos rfl
      · change ¬((0x35 : Byte) = 0 ∨ (0x35 : Byte) = 0x30)
        decide

theorem savedSize_entry (source : Name) (item : Item) :
    savedSize (item.entry source) = item.node.content.length := by
  obtain ⟨path, node⟩ := item
  cases node with
  | file times content => rfl
  | directory times => rfl

-- Reading the archive of a list of items places them one after the other.
theorem extractFrom_items {source : Name} (clock : Nat → Nat) {list : List Item}
    (hvalid : ∀ item ∈ list, ∀ name ∈ item.path, ValidName name)
    (hfits : ∀ item ∈ list, Fits (archiveName item.path) (item.entry source))
    (before : List Byte) (fs : Fs) :
    extractFrom clock
      (before ++ list.flatMap fun item => entryBytes none source.length (item.entry source))
      before.length fs = placeAll (stamp clock before.length list) fs := by
  induction list generalizing before fs with
  | nil =>
      rw [extractFrom, List.flatMap_nil, List.append_nil, if_neg (Nat.lt_irrefl _)]
      rfl
  | cons item rest ih =>
      have hitem := hfits item List.mem_cons_self
      have hbytes := entryBytes_item source (hvalid item List.mem_cons_self)
      have hle := length_le_alignUp item.node.content.length
      let after := rest.flatMap fun item => entryBytes none source.length (item.entry source)
      let header := tarHeader (archiveName item.path) (item.entry source)
      have hheader : header.length = 512 := length_tarHeader _ _
      have harchive : before ++ (item :: rest).flatMap
          (fun item => entryBytes none source.length (item.entry source)) =
          before ++ (header ++ (item.data ++ after)) := by
        rw [List.flatMap_cons, hbytes, List.append_assoc]
      have hnext : before ++ (header ++ (item.data ++ after)) =
          (before ++ (header ++ item.data)) ++ after := by
        simp only [List.append_assoc]
      have hlength : (before ++ (header ++ (item.data ++ after))).length =
          before.length + item.room + after.length := by
        simp only [List.length_append, hheader, item.length_data, Item.room]
        omega
      have hread : slice (before ++ (header ++ (item.data ++ after))) before.length 512 = header :=
        slice_append before header _ rfl hheader.symm
      have hcontent : slice (before ++ (header ++ (item.data ++ after))) (before.length + 512)
          item.node.content.length = item.node.content := by
        have hoffset : before.length + 512 = (before ++ header).length := by
          rw [List.length_append, hheader]
        rw [← List.append_assoc, Item.data, List.append_assoc item.node.content]
        exact slice_append (before ++ header) item.node.content _ hoffset rfl
      have hroom : item.room = 512 + alignUp item.node.content.length := rfl
      rw [harchive, extractFrom, if_pos (by omega), if_pos (by omega), hread,
        emplaceSingleEntry_tarHeader hitem (by rw [savedSize_entry]; omega)]
      dsimp only
      have hsize : (TarEntry.ofDirEntry (archiveName item.path) (item.entry source)).size =
          item.node.content.length := savedSize_entry source item
      rw [hsize, hcontent, extractEntry_item _ _ (hvalid item List.mem_cons_self) hitem, stamp,
        placeAll]
      cases placeItem (clock before.length) item fs with
      | none => rfl
      | some fs =>
          have hoffset : before.length + 512 + alignUp item.node.content.length =
              (before ++ (header ++ item.data)).length := by
            simp only [List.length_append, hheader, item.length_data]
            omega
          have hstamp : before.length + item.room = (before ++ (header ++ item.data)).length := by
            rw [← hoffset, hroom, Nat.add_assoc]
          dsimp only
          rw [hnext, hoffset, hstamp]
          exact ih (fun item hitem => hvalid item (List.mem_cons_of_mem _ hitem))
            (fun item hitem => hfits item (List.mem_cons_of_mem _ hitem)) _ fs

end Rpcsx.Tar
