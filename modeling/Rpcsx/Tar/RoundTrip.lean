import Mathlib.Data.List.Nodup
import Rpcsx.Tar.Items

namespace Rpcsx.Tar

open Data Data.Bytes

variable {fs fs' : Fs} {now : Nat} {path other : List Name} {item : Item}

@[simp] theorem Fs.set_self (fs : Fs) (path : List Name) (node : FsNode) :
    fs.set path node path = some node := if_pos rfl

theorem Fs.set_of_ne (fs : Fs) (node : FsNode) (h : other ≠ path) :
    fs.set path node other = fs other := if_neg h

theorem dropLast_ne_self (hpath : path ≠ []) : path.dropLast ≠ path := by
  apply ne_of_apply_ne List.length
  have := List.length_pos_of_ne_nil hpath
  rw [List.length_dropLast]
  omega

-- A new entry of a directory that is there.
theorem addEntry_eq {times : Times} (node : FsNode) (hpath : path ≠ [])
    (hparent : fs path.dropLast = some (.directory times)) :
    addEntry now path node fs =
      some ((fs.set path.dropLast (.directory { times with mtime := now })).set path node) := by
  rw [addEntry, if_neg hpath, hparent]

theorem createPath_of_present {node : FsNode} (hnode : fs path = some node)
    (hparent : path ≠ [] → ∃ times, fs path.dropLast = some (.directory times)) :
    createPath now path fs = some fs := by
  have hcreate : createDir now fs path = some fs := by rw [createDir, hnode]
  rw [createPath]
  by_cases hpath : path = []
  · subst hpath
    rw [if_pos rfl]
    exact hcreate
  · obtain ⟨times, htimes⟩ := hparent hpath
    rw [if_neg hpath, htimes]
    exact hcreate

theorem createPath_of_absent {times : Times} (hpath : path ≠ []) (hnone : fs path = none)
    (hparent : fs path.dropLast = some (.directory times)) :
    createPath now path fs = some ((fs.set path.dropLast
      (.directory { times with mtime := now })).set path (.directory ⟨now, now⟩)) := by
  rw [createPath, if_neg hpath, hparent]
  dsimp only
  rw [createDir, hnone]
  exact addEntry_eq _ hpath hparent

-- What the file system looks like behind a new item whose directory is there.
def place (now : Nat) (item : Item) (times : Times) (fs : Fs) : Fs :=
  (fs.set item.path.dropLast (.directory { times with mtime := now })).set item.path item.node

theorem Fs.set_set (fs : Fs) (path : List Name) (first second : FsNode) :
    (fs.set path first).set path second = fs.set path second := by
  funext other
  unfold Fs.set
  split
  · rfl
  · rfl

theorem placeItem_eq {times : Times} (hclean : containsMarker (archiveName item.path) = false)
    (hpath : item.path ≠ []) (hnone : fs item.path = none)
    (hparent : fs item.path.dropLast = some (.directory times))
    (hgrand : item.path.dropLast ≠ [] →
      ∃ times, fs item.path.dropLast.dropLast = some (.directory times)) :
    placeItem now item fs = some (place now item times fs) := by
  obtain ⟨path, node⟩ := item
  cases node with
  | file fileTimes content =>
      unfold placeItem
      dsimp only at *
      rw [createPath_of_present hparent hgrand]
      dsimp only
      rw [if_neg (by simp [hclean]), writeFile, hnone]
      dsimp only
      rw [addEntry_eq _ hpath hparent, Option.bind_some, utime, Fs.set_self]
      dsimp only
      rw [Fs.set_set]
      rfl
  | directory dirTimes =>
      unfold placeItem
      dsimp only at *
      rw [if_neg (by simp [hclean]), createPath_of_absent hpath hnone hparent, Option.bind_some,
        utime, Fs.set_self]
      dsimp only
      rw [Fs.set_set]
      rfl

theorem place_self (now : Nat) (item : Item) (times : Times) (fs : Fs) :
    place now item times fs item.path = some item.node := Fs.set_self _ _ _

theorem place_parent (now : Nat) (times : Times) (fs : Fs) (hpath : item.path ≠ []) :
    place now item times fs item.path.dropLast =
      some (.directory { times with mtime := now }) := by
  unfold place
  rw [Fs.set_of_ne _ _ (dropLast_ne_self hpath), Fs.set_self]

theorem place_of_ne (now : Nat) (times : Times) (fs : Fs) (hself : other ≠ item.path)
    (hparent : other ≠ item.path.dropLast) : place now item times fs other = fs other := by
  unfold place
  rw [Fs.set_of_ne _ _ hself, Fs.set_of_ne _ _ hparent]

-- The time of the last item of a list that was put into a directory.
def lastTouch (done : List (Item × Nat)) (path : List Name) : Option Nat :=
  ((done.filter fun entry => entry.1.path ≠ [] ∧ entry.1.path.dropLast = path).getLast?).map
    Prod.snd

def touched (done : List (Item × Nat)) (item : Item) : FsNode :=
  match item.node with
  | .file times content => .file times content
  | .directory times =>
      .directory { times with mtime := (lastTouch done item.path).getD times.mtime }

theorem lastTouch_concat {done : List (Item × Nat)} (hpath : item.path ≠ []) (now : Nat) :
    lastTouch (done ++ [(item, now)]) path =
      if item.path.dropLast = path then some now else lastTouch done path := by
  unfold lastTouch
  rw [List.filter_append]
  by_cases h : item.path.dropLast = path
  · rw [if_pos h, List.filter_cons_of_pos (by simp [hpath, h])]
    simp
  · rw [if_neg h, List.filter_cons_of_neg (by simp [h]), List.filter_nil, List.append_nil]

-- The file system holds the items that were placed, and nothing else.
structure Holds (done : List (Item × Nat)) (fs : Fs) : Prop where
  placed : ∀ entry ∈ done, fs entry.1.path = some (touched done entry.1)
  only : ∀ path, fs path ≠ none → ∃ entry ∈ done, entry.1.path = path

-- Every item but the source directory was put into a directory of the list.
def Rooted (done : List (Item × Nat)) : Prop :=
  ∀ entry ∈ done, entry.1.path ≠ [] →
    ∃ parent ∈ done, ∃ times, parent.1 = ⟨entry.1.path.dropLast, .directory times⟩

theorem touched_of_none {done : List (Item × Nat)} (h : lastTouch done item.path = none) :
    touched done item = item.node := by
  obtain ⟨path, node⟩ := item
  unfold touched
  cases node with
  | file times content => rfl
  | directory times =>
      dsimp only at h ⊢
      rw [h]
      rfl

theorem Rooted.lastTouch_eq_none {done : List (Item × Nat)} (h : Rooted done)
    (hnew : ∀ entry ∈ done, entry.1.path ≠ path) : lastTouch done path = none := by
  unfold lastTouch
  rw [List.filter_eq_nil_iff.mpr]
  · rfl
  · intro entry hentry
    simp only [decide_eq_true_eq, not_and]
    intro hpath hparent
    obtain ⟨parent, hmem, times, hitem⟩ := h entry hentry hpath
    exact hnew parent hmem (by rw [hitem]; exact hparent)

theorem touched_directory {done : List (Item × Nat)} {times : Times}
    (h : item.node = .directory times) :
    touched done item = .directory { times with
      mtime := (lastTouch done item.path).getD times.mtime } := by
  unfold touched
  rw [h]

-- One more item: it gets its own node, and its directory the time of the change.
theorem Holds.step {done : List (Item × Nat)} (h : Holds done fs) (hrooted : Rooted done)
    (hnew : ∀ entry ∈ done, entry.1.path ≠ item.path) (hpath : item.path ≠ [])
    (hparent : ∃ parent ∈ done, ∃ times, parent.1 = ⟨item.path.dropLast, .directory times⟩)
    (hclean : containsMarker (archiveName item.path) = false) (now : Nat) :
    ∃ fs', placeItem now item fs = some fs' ∧ Holds (done ++ [(item, now)]) fs' := by
  have hdirectory : ∀ path, (∃ parent ∈ done, ∃ times, parent.1 = ⟨path, .directory times⟩) →
      ∃ times, fs path = some (.directory times) := by
    rintro path ⟨parent, hmem, times, hitem⟩
    have hplaced := h.placed parent hmem
    rw [touched_directory (by rw [hitem]), hitem] at hplaced
    exact ⟨_, hplaced⟩
  obtain ⟨times, htimes⟩ := hdirectory _ hparent
  have hnone : fs item.path = none := by
    by_contra hsome
    obtain ⟨entry, hentry, heq⟩ := h.only _ hsome
    exact hnew entry hentry heq
  have hgrand : item.path.dropLast ≠ [] →
      ∃ times, fs item.path.dropLast.dropLast = some (.directory times) := by
    intro hne
    obtain ⟨parent, hmem, _, hitem⟩ := hparent
    obtain ⟨grand, hgrand⟩ := hrooted parent hmem (by rw [hitem]; exact hne)
    rw [hitem] at hgrand
    exact hdirectory _ ⟨grand, hgrand⟩
  refine ⟨_, placeItem_eq hclean hpath hnone htimes hgrand, ?_, ?_⟩
  · intro entry hentry
    rcases List.mem_append.mp hentry with hentry | hentry
    · by_cases heq : entry.1.path = item.path.dropLast
      · -- The directory of the new item.
        have hplaced := h.placed entry hentry
        rw [heq, htimes] at hplaced
        cases hnode : entry.1.node with
        | file fileTimes content =>
            unfold touched at hplaced
            rw [hnode] at hplaced
            cases hplaced
        | directory dirTimes =>
            rw [touched_directory hnode] at hplaced ⊢
            rw [lastTouch_concat hpath, if_pos heq.symm, heq, place_parent now times fs hpath]
            cases hplaced
            rfl
      · rw [place_of_ne now times fs (hnew entry hentry) heq, h.placed entry hentry]
        unfold touched
        rw [lastTouch_concat hpath, if_neg (Ne.symm heq)]
    · rw [List.mem_singleton] at hentry
      subst hentry
      have hlast : lastTouch (done ++ [(item, now)]) item.path = none := by
        rw [lastTouch_concat hpath, if_neg (dropLast_ne_self hpath)]
        exact hrooted.lastTouch_eq_none hnew
      rw [place_self, touched_of_none hlast]
  · intro path hsome
    by_cases hself : path = item.path
    · exact ⟨_, List.mem_append_right _ (List.mem_singleton_self _), hself.symm⟩
    · by_cases hpar : path = item.path.dropLast
      · obtain ⟨parent, hmem, _, hitem⟩ := hparent
        exact ⟨parent, List.mem_append_left _ hmem, by rw [hitem, hpar]⟩
      · rw [place_of_ne now times fs hself hpar] at hsome
        obtain ⟨entry, hentry, heq⟩ := h.only path hsome
        exact ⟨entry, List.mem_append_left _ hentry, heq⟩

-- The directory of each item comes before it, in the list or among what was done before.
def ParentsFirst (done rest : List (Item × Nat)) : Prop :=
  ∀ before entry after, rest = before ++ entry :: after → entry.1.path ≠ [] ∧
    ∃ parent ∈ done ++ before, ∃ times, parent.1 = ⟨entry.1.path.dropLast, .directory times⟩

theorem ParentsFirst.tail {done rest : List (Item × Nat)} {entry : Item × Nat}
    (h : ParentsFirst done (entry :: rest)) : ParentsFirst (done ++ [entry]) rest := by
  intro before next after hrest
  obtain ⟨hpath, parent, hmem, hparent⟩ := h (entry :: before) next after (by rw [hrest]; rfl)
  refine ⟨hpath, parent, ?_, hparent⟩
  rw [List.append_assoc]
  exact hmem

theorem Rooted.concat {done : List (Item × Nat)} {entry : Item × Nat} (h : Rooted done)
    (hparent : ∃ parent ∈ done, ∃ times, parent.1 = ⟨entry.1.path.dropLast, .directory times⟩) :
    Rooted (done ++ [entry]) := by
  intro other hother hpath
  rcases List.mem_append.mp hother with hother | hother
  · obtain ⟨parent, hmem, hitem⟩ := h other hother hpath
    exact ⟨parent, List.mem_append_left _ hmem, hitem⟩
  · rw [List.mem_singleton] at hother
    subst hother
    obtain ⟨parent, hmem, hitem⟩ := hparent
    exact ⟨parent, List.mem_append_left _ hmem, hitem⟩

theorem Holds.run {done rest : List (Item × Nat)} (h : Holds done fs) (hrooted : Rooted done)
    (hparents : ParentsFirst done rest) (hnodup : ((done ++ rest).map (·.1.path)).Nodup)
    (hclean : ∀ entry ∈ rest, containsMarker (archiveName entry.1.path) = false) :
    ∃ fs', placeAll rest fs = some fs' ∧ Holds (done ++ rest) fs' := by
  induction rest generalizing done fs with
  | nil => exact ⟨fs, rfl, by rwa [List.append_nil]⟩
  | cons entry rest ih =>
      obtain ⟨item, now⟩ := entry
      obtain ⟨hpath, hparent⟩ := hparents [] (item, now) rest rfl
      rw [List.append_nil] at hparent
      have hnew : ∀ entry ∈ done, entry.1.path ≠ item.path := by
        rw [List.map_append, List.map_cons] at hnodup
        intro entry hentry heq
        exact (List.disjoint_of_nodup_append hnodup) (List.mem_map_of_mem hentry)
          (by rw [heq]; exact List.mem_cons_self)
      obtain ⟨fs', hplace, hholds⟩ := h.step hrooted hnew hpath hparent
        (hclean _ List.mem_cons_self) now
      obtain ⟨last, hrun, hlast⟩ := ih hholds (hrooted.concat hparent) hparents.tail
        (by rw [List.append_assoc]; exact hnodup)
        fun entry hentry => hclean entry (List.mem_cons_of_mem _ hentry)
      rw [List.append_assoc] at hlast
      refine ⟨last, ?_, hlast⟩
      rw [placeAll, hplace]
      exact hrun

-- The source directory is the first item; its target may be there already.
theorem Holds.root (target : Option Times) (times : Times) (now : Nat) :
    ∃ fs, placeItem now ⟨[], .directory times⟩ (targetDir target) = some fs ∧
      Holds [(⟨[], .directory times⟩, now)] fs := by
  have hroot : targetDir target [] = target.map .directory := if_pos rfl
  have hcreate : ∃ fs node, createPath now [] (targetDir target) = some fs ∧
      fs [] = some (.directory node) ∧ ∀ path ≠ [], fs path = none := by
    rw [createPath, if_pos rfl, createDir, hroot]
    cases target with
    | none =>
        refine ⟨_, _, rfl, Fs.set_self _ _ _, ?_⟩
        intro path hpath
        rw [Fs.set_of_ne _ _ hpath]
        exact if_neg hpath
    | some old => exact ⟨_, old, rfl, hroot, fun path hpath => if_neg hpath⟩
  obtain ⟨fs, old, hfs, hdir, hrest⟩ := hcreate
  refine ⟨fs.set [] (.directory times), ?_, ?_, ?_⟩
  · have hclean : containsMarker (archiveName []) = false := by decide
    unfold placeItem
    dsimp only
    rw [if_neg (by simp [hclean]), hfs, Option.bind_some, utime, hdir]
  · intro entry hentry
    rw [List.mem_singleton] at hentry
    subst hentry
    exact Fs.set_self _ _ _
  · intro path hsome
    by_cases hpath : path = []
    · exact ⟨_, List.mem_singleton_self _, hpath.symm⟩
    · rw [Fs.set_of_ne _ _ hpath, hrest path hpath] at hsome
      exact absurd rfl hsome

theorem items_path_ne {path : List Name} {forest : Forest} {item : Item}
    (h : item ∈ items path forest) : item.path ≠ [] := by
  induction forest generalizing path with
  | nil => cases h
  | file name times content rest ih =>
      rcases List.mem_cons.mp h with rfl | h
      · simp
      · exact ih h
  | directory name times children rest ihChildren ihRest =>
      rcases List.mem_cons.mp h with rfl | h
      · simp
      · rcases List.mem_append.mp h with h | h
        · exact ihChildren h
        · exact ihRest h

-- Where an item stands in a joined list.
theorem append_eq_append_cons {left right before after : List Item} {item : Item}
    (h : left ++ right = before ++ item :: after) :
    (∃ more, left = before ++ item :: more) ∨
      ∃ more, before = left ++ more ∧ right = more ++ item :: after := by
  rcases List.append_eq_append_iff.mp h with ⟨more, hbefore, hright⟩ | ⟨more, hleft, hafter⟩
  · exact Or.inr ⟨more, hbefore, hright⟩
  · cases more with
    | nil => exact Or.inr ⟨[], by rw [hleft]; simp, hafter.symm⟩
    | cons first more =>
        rw [List.cons_append] at hafter
        cases hafter
        exact Or.inl ⟨more, hleft⟩

-- An item of a directory is in it or in a directory listed before.
theorem items_parent {path : List Name} {forest : Forest} {before after : List Item} {item : Item}
    (h : items path forest = before ++ item :: after) :
    item.path.dropLast = path ∨ ∃ times, ⟨item.path.dropLast, .directory times⟩ ∈ before := by
  induction forest generalizing path before after with
  | nil => simp [items] at h
  | file name times content rest ih =>
      rw [items] at h
      cases before with
      | nil =>
          cases h
          exact Or.inl (List.dropLast_concat ..)
      | cons first before =>
          rw [List.cons_append, List.cons.injEq] at h
          apply (ih h.2).imp_right
          rintro ⟨times, hmem⟩
          exact ⟨times, List.mem_cons_of_mem _ hmem⟩
  | directory name times children rest ihChildren ihRest =>
      rw [items] at h
      cases before with
      | nil =>
          cases h
          exact Or.inl (List.dropLast_concat ..)
      | cons first before =>
          rw [List.cons_append, List.cons.injEq] at h
          obtain ⟨rfl, h⟩ := h
          rcases append_eq_append_cons h with ⟨more, hchildren⟩ | ⟨more, hbefore, hrest⟩
          · right
            rcases ihChildren hchildren with hpath | ⟨times', hmem⟩
            · exact ⟨times, by rw [hpath]; exact List.mem_cons_self⟩
            · exact ⟨times', List.mem_cons_of_mem _ hmem⟩
          · apply (ihRest hrest).imp_right
            rintro ⟨times', hmem⟩
            refine ⟨times', List.mem_cons_of_mem _ ?_⟩
            rw [hbefore]
            exact List.mem_append_right _ hmem

theorem stamp_map_fst (clock : Nat → Nat) (offset : Nat) (list : List Item) :
    (stamp clock offset list).map Prod.fst = list := by
  induction list generalizing offset with
  | nil => rfl
  | cons item rest ih => rw [stamp, List.map_cons, ih]

theorem parentsFirst_stamp (clock : Nat → Nat) (offset now : Nat) (times : Times)
    (forest : Forest) :
    ParentsFirst [(⟨[], .directory times⟩, now)] (stamp clock offset (items [] forest)) := by
  intro before entry after hstamp
  have hitems : items [] forest =
      before.map Prod.fst ++ entry.1 :: after.map Prod.fst := by
    rw [← stamp_map_fst clock offset (items [] forest), hstamp, List.map_append, List.map_cons]
  refine ⟨items_path_ne (by rw [hitems]; simp), ?_⟩
  rcases items_parent hitems with hroot | ⟨dirTimes, hmem⟩
  · exact ⟨_, List.mem_append_left _ (List.mem_singleton_self _), times, by rw [hroot]⟩
  · obtain ⟨parent, hparent, heq⟩ := List.mem_map.mp hmem
    exact ⟨parent, List.mem_append_right _ hparent, dirTimes, heq⟩

def IsFile (node : Option FsNode) : Prop := ∃ times content, node = some (.file times content)

-- What a step may add to a file system: entries at some paths, files at some of them.
structure Adds (entries files : List Name → Prop) (fs fs' : Fs) : Prop where
  present : ∀ path, fs' path ≠ none → fs path ≠ none ∨ entries path
  file : ∀ path, IsFile (fs' path) → IsFile (fs path) ∨ files path

section Adds

variable {entries files : List Name → Prop}

theorem Adds.refl (fs : Fs) : Adds entries files fs fs := ⟨fun _ => Or.inl, fun _ => Or.inl⟩

theorem Adds.trans {last : Fs} (h : Adds entries files fs fs') (h' : Adds entries files fs' last) :
    Adds entries files fs last where
  present path hpath := (h'.present path hpath).elim (h.present path) Or.inr
  file path hpath := (h'.file path hpath).elim (h.file path) Or.inr

theorem Adds.mono {entries' files' : List Name → Prop} (h : Adds entries files fs fs')
    (hentries : ∀ path, entries path → entries' path) (hfiles : ∀ path, files path → files' path) :
    Adds entries' files' fs fs' where
  present path hpath := (h.present path hpath).imp_right (hentries path)
  file path hpath := (h.file path hpath).imp_right (hfiles path)

theorem not_isFile_directory (times : Times) : ¬IsFile (some (.directory times)) := by
  rintro ⟨_, _, h⟩
  cases h

-- A directory that gets new attributes, or a path that is added.
theorem adds_set (fs : Fs) (path : List Name) (node : FsNode)
    (hentry : fs path ≠ none ∨ entries path)
    (hfile : node.isDirectory = true ∨ IsFile (fs path) ∨ files path) :
    Adds entries files fs (fs.set path node) where
  present other hother := by
    by_cases h : other = path
    · subst h
      exact hentry
    · rw [Fs.set_of_ne _ _ h] at hother
      exact Or.inl hother
  file other hother := by
    by_cases h : other = path
    · subst h
      rcases hfile with hdir | hfile
      · obtain ⟨times, content, hnode⟩ := hother
        rw [Fs.set_self] at hnode
        cases hnode
        cases hdir
      · exact hfile
    · rw [Fs.set_of_ne _ _ h] at hother
      exact Or.inl hother

theorem addEntry_adds {node : FsNode} (h : addEntry now path node fs = some fs')
    (hentry : entries path) (hfile : node.isDirectory = true ∨ files path) :
    Adds entries files fs fs' := by
  unfold addEntry at h
  split at h
  · rename_i hpath
    cases h
    subst hpath
    exact adds_set fs [] node (Or.inr hentry) (hfile.imp_right Or.inr)
  · split at h
    · rename_i times hparent
      cases h
      apply Adds.trans
      · exact adds_set fs path.dropLast (.directory { times with mtime := now })
          (Or.inl (by rw [hparent]; simp)) (Or.inl rfl)
      · exact adds_set _ path node (Or.inr hentry) (hfile.imp_right Or.inr)
    · cases h

theorem createDir_adds (h : createDir now fs path = some fs') (hentry : entries path) :
    Adds entries files fs fs' := by
  unfold createDir at h
  split at h
  · cases h
    exact .refl fs
  · exact addEntry_adds h hentry (Or.inl rfl)

-- createPath makes directories on the way to the path only.
theorem createPath_adds (h : createPath now path fs = some fs')
    (hentry : ∀ other, other <+: path → entries other) : Adds entries files fs fs' := by
  fun_induction createPath now path fs generalizing fs' with
  | case1 => exact createDir_adds h (hentry _ (List.prefix_refl _))
  | case2 path hpath times hparent => exact createDir_adds h (hentry _ (List.prefix_refl _))
  | case3 path hpath hparent hnone ih => cases h
  | case4 path hpath mid hmid hparent ih =>
      have hfirst := ih hmid fun other hother =>
        hentry other (hother.trans (List.dropLast_prefix path))
      exact hfirst.trans (createDir_adds h (hentry _ (List.prefix_refl _)))

theorem writeFile_adds {content : List Byte} (h : writeFile now path content fs = some fs')
    (hentry : entries path) (hfile : files path) : Adds entries files fs fs' := by
  unfold writeFile at h
  split at h
  · cases h
  · cases h
    exact adds_set fs path _ (Or.inr hentry) (Or.inr (Or.inr hfile))
  · exact addEntry_adds h hentry (Or.inr hfile)

theorem utime_adds {times : Times} (h : utime path times fs = some fs') :
    Adds entries files fs fs' := by
  unfold utime at h
  split at h
  · cases h
  · rename_i old content hold
    cases h
    exact adds_set fs path _ (Or.inl (by rw [hold]; simp)) (Or.inr (Or.inl ⟨old, content, hold⟩))
  · rename_i old hold
    cases h
    exact adds_set fs path _ (Or.inl (by rw [hold]; simp)) (Or.inl rfl)

-- Items with the marker never become files, and only as files do they make directories.
theorem placeItem_adds (h : placeItem now item fs = some fs')
    (hentries : containsMarker (archiveName item.path) = false ∨ item.node.isDirectory = false →
      ∀ other, other <+: item.path → entries other)
    (hfiles : containsMarker (archiveName item.path) = false → files item.path) :
    Adds entries files fs fs' := by
  obtain ⟨path, node⟩ := item
  unfold placeItem at h
  cases node with
  | file times content =>
      have hpre := hentries (Or.inr rfl)
      dsimp only at h
      split at h
      · cases h
      · rename_i mid hmid
        have hfirst : Adds entries files fs mid := createPath_adds hmid fun other hother =>
          hpre other (hother.trans (List.dropLast_prefix path))
        split at h
        · cases h
          exact hfirst
        · rename_i hclean
          rw [Bool.not_eq_true] at hclean
          obtain ⟨written, hwritten, hutime⟩ := Option.bind_eq_some_iff.mp h
          exact hfirst.trans ((writeFile_adds hwritten (hpre _ (List.prefix_refl _))
            (hfiles hclean)).trans (utime_adds hutime))
  | directory times =>
      dsimp only at h
      split at h
      · cases h
        exact .refl fs
      · rename_i hclean
        rw [Bool.not_eq_true] at hclean
        obtain ⟨created, hcreated, hutime⟩ := Option.bind_eq_some_iff.mp h
        exact (createPath_adds hcreated (hentries (Or.inl hclean))).trans (utime_adds hutime)

theorem placeAll_adds {list : List (Item × Nat)} (h : placeAll list fs = some fs')
    (hentries : ∀ entry ∈ list, containsMarker (archiveName entry.1.path) = false ∨
      entry.1.node.isDirectory = false → ∀ other, other <+: entry.1.path → entries other)
    (hfiles : ∀ entry ∈ list, containsMarker (archiveName entry.1.path) = false →
      files entry.1.path) : Adds entries files fs fs' := by
  induction list generalizing fs with
  | nil =>
      cases h
      exact .refl _
  | cons entry rest ih =>
      obtain ⟨item, now⟩ := entry
      rw [placeAll] at h
      split at h
      · cases h
      · rename_i mid hmid
        apply (placeItem_adds hmid (hentries _ List.mem_cons_self)
          (hfiles _ List.mem_cons_self)).trans
        exact ih h (fun entry hentry => hentries entry (List.mem_cons_of_mem _ hentry))
          (fun entry hentry => hfiles entry (List.mem_cons_of_mem _ hentry))

end Adds

section RoundTrip

variable {dir : SourceDir} {clock : Nat → Nat} {target : Option Times}

-- Reading the archive makes the files and directories of the tree, with their contents and
-- times, and no others.
def Restores (clock : Nat → Nat) (archive : List Byte) (target : Option Times)
    (dir : SourceDir) : Prop :=
  ∃ fs, extract clock archive target = some fs ∧
    ∀ path node, fs path = some node ↔ ⟨path, node⟩ ∈ dir.items

-- The marker is in no path.
def Unmarked (dir : SourceDir) : Prop :=
  ∀ item ∈ dir.items, containsMarker (archiveName item.path) = false

-- A directory that has entries was modified when the last of them is extracted.
def TimesKept (clock : Nat → Nat) (dir : SourceDir) : Prop :=
  ∀ item ∈ dir.items, ∀ times, item.node = .directory times → ∀ time,
    lastTouch (stamp clock 0 dir.items) item.path = some time → times.mtime = time

def archiveOf (dir : SourceDir) : List Byte :=
  dir.listing.flatMap (entryBytes none dir.path.length)

theorem Storable.extract_eq (h : Storable dir) :
    extract clock (archiveOf dir) target =
      placeAll (stamp clock 0 dir.items) (targetDir target) := by
  have hitems := extractFrom_items clock h.names (fun item hitem => h.fits hitem) []
    (targetDir target)
  rw [List.nil_append, List.length_nil] at hitems
  rw [extract, archiveOf, h.listing_eq, List.flatMap_map]
  exact hitems

theorem mem_stamp {list : List Item} {offset : Nat} {entry : Item × Nat}
    (h : entry ∈ stamp clock offset list) : entry.1 ∈ list := by
  rw [← stamp_map_fst clock offset list]
  exact List.mem_map_of_mem h

theorem exists_mem_stamp {list : List Item} (clock : Nat → Nat) (offset : Nat) (h : item ∈ list) :
    ∃ entry ∈ stamp clock offset list, entry.1 = item := by
  rw [← stamp_map_fst clock offset list] at h
  exact List.mem_map.mp h

-- Without marked paths every item is placed.
theorem Storable.placeAll_holds (h : Storable dir) (clock : Nat → Nat) (target : Option Times)
    (hunmarked : Unmarked dir) :
    ∃ fs, placeAll (stamp clock 0 dir.items) (targetDir target) = some fs ∧
      Holds (stamp clock 0 dir.items) fs := by
  obtain ⟨fs, hplace, hholds⟩ := Holds.root target dir.times (clock 0)
  have hstamp : stamp clock 0 dir.items = (⟨[], .directory dir.times⟩, clock 0) ::
      stamp clock (0 + Item.room ⟨[], .directory dir.times⟩) (items [] dir.children) := rfl
  have hnodup : (([((⟨[], .directory dir.times⟩ : Item), clock 0)] ++
      stamp clock (0 + Item.room ⟨[], .directory dir.times⟩) (items [] dir.children)).map
        (·.1.path)).Nodup := by
    rw [List.singleton_append, ← hstamp]
    have hpaths : (stamp clock 0 dir.items).map (·.1.path) = dir.items.map Item.path := by
      conv_rhs => rw [← stamp_map_fst clock 0 dir.items, List.map_map]
      rfl
    rw [hpaths]
    exact h.distinct
  obtain ⟨last, hrun, hlast⟩ := hholds.run
    (fun entry hentry hpath => absurd (by rw [List.mem_singleton.mp hentry]) hpath)
    (parentsFirst_stamp clock _ (clock 0) dir.times dir.children) hnodup
    fun entry hentry => hunmarked entry.1 (List.mem_cons_of_mem _ (mem_stamp hentry))
  refine ⟨last, ?_, ?_⟩
  · rw [hstamp, placeAll, hplace]
    exact hrun
  · rw [hstamp]
    exact hlast

theorem isPrefix_joinPath (hpath : path ≠ []) (more : List Name) :
    joinPath path <+: joinPath (path ++ more) := by
  induction more generalizing path with
  | nil => simp
  | cons name rest ih =>
      have hsplit : path ++ name :: rest = (path ++ [name]) ++ rest :=
        (List.append_assoc path [name] rest).symm
      rw [hsplit]
      apply List.IsPrefix.trans _ (ih (by simp))
      rw [joinPath_concat hpath]
      exact List.prefix_append _ _

-- What is below a marked path is marked.
theorem containsMarker_of_isPrefix (h : containsMarker (archiveName path) = true)
    (hpre : path <+: other) : containsMarker (archiveName other) = true := by
  obtain ⟨more, rfl⟩ := hpre
  by_cases hpath : path = []
  · subst hpath
    exact absurd h (by decide)
  · have hother : path ++ more ≠ [] := by simp [hpath]
    unfold containsMarker archiveName at *
    rw [if_neg hpath] at h
    rw [if_neg hother]
    rw [decide_eq_true_eq] at h ⊢
    exact h.trans (isPrefix_joinPath hpath more).isInfix

theorem not_isFile_targetDir (target : Option Times) (path : List Name) :
    ¬IsFile (targetDir target path) := by
  rintro ⟨times, content, h⟩
  unfold targetDir at h
  split at h
  · cases target with
    | none => cases h
    | some old => cases h
  · cases h

-- A marked path is lost: as a file, or as a directory without files.
theorem Storable.unmarked_of_restores (h : Storable dir)
    (hrestores : Restores clock (archiveOf dir) target dir) : Unmarked dir := by
  obtain ⟨fs, hextract, hfs⟩ := hrestores
  rw [h.extract_eq] at hextract
  have hnoFile : ∀ item ∈ dir.items, containsMarker (archiveName item.path) = true →
      item.node.isDirectory = true := by
    intro item hitem hmarked
    have hadds : Adds (fun _ => True) (fun path => ∃ item ∈ dir.items,
        item.path = path ∧ containsMarker (archiveName item.path) = false)
        (targetDir target) fs :=
      placeAll_adds hextract (fun _ _ _ _ _ => trivial)
        fun entry hentry hclean => ⟨entry.1, mem_stamp hentry, rfl, hclean⟩
    have hplaced := (hfs item.path item.node).mpr hitem
    cases hnode : item.node with
    | directory times => rfl
    | file times content =>
        rw [hnode] at hplaced
        rcases hadds.file item.path ⟨times, content, hplaced⟩ with hfile | ⟨other, -, hpath, hclean⟩
        · exact absurd hfile (not_isFile_targetDir target _)
        · rw [hpath, hmarked] at hclean
          cases hclean
  intro item hitem
  by_contra hmarked
  rw [Bool.not_eq_false] at hmarked
  have hadds : Adds (fun path => ∃ item ∈ dir.items,
      path <+: item.path ∧ containsMarker (archiveName item.path) = false) (fun _ => True)
      (targetDir target) fs := by
    refine placeAll_adds hextract ?_ fun _ _ _ => trivial
    intro entry hentry hcase other hother
    refine ⟨entry.1, mem_stamp hentry, hother, ?_⟩
    rcases hcase with hclean | hfile
    · exact hclean
    · by_contra hdirty
      rw [Bool.not_eq_false] at hdirty
      rw [hnoFile entry.1 (mem_stamp hentry) hdirty] at hfile
      cases hfile
  have hplaced := (hfs item.path item.node).mpr hitem
  rcases hadds.present item.path (by rw [hplaced]; simp) with hroot | ⟨other, -, hpre, hclean⟩
  · by_cases hpath : item.path = []
    · rw [hpath] at hmarked
      exact absurd hmarked (by decide)
    · exact hroot (if_neg hpath)
  · rw [containsMarker_of_isPrefix hmarked hpre] at hclean
    cases hclean

-- The tree comes back exactly when no path has the marker in it and every directory that has
-- entries was last modified at the time when the last one of them is created again.
theorem extract_save_iff (dir : SourceDir) (h : Storable dir) (clock : Nat → Nat)
    (target : Option Times) :
    ∃ pos entries archive,
      saveDirectory dir none (.null 0) [] false = some (.null pos, entries) ∧
      saveDirectory dir none (.data []) entries true = some (.data archive, entries) ∧
      (Restores clock archive target dir ↔ Unmarked dir ∧ TimesKept clock dir) := by
  refine ⟨_, _, _, saveDirectory_null dir none 0, saveDirectory_evaluated dir none [], ?_⟩
  rw [List.nil_append, ← archiveOf]
  constructor
  · intro hrestores
    have hunmarked := h.unmarked_of_restores hrestores
    refine ⟨hunmarked, ?_⟩
    obtain ⟨fs, hextract, hfs⟩ := hrestores
    obtain ⟨fs', hplace, hholds⟩ := h.placeAll_holds clock target hunmarked
    rw [h.extract_eq, hplace] at hextract
    cases hextract
    intro item hitem times hnode time htouch
    obtain ⟨entry, hentry, rfl⟩ := exists_mem_stamp clock 0 hitem
    have hplaced := hholds.placed entry hentry
    rw [(hfs entry.1.path entry.1.node).mpr hitem, hnode, touched_directory hnode, htouch] at hplaced
    have hmtime := congrArg (fun node => (node.map fun node => (FsNode.times node).mtime)) hplaced
    exact Option.some.inj hmtime
  · rintro ⟨hunmarked, htimes⟩
    obtain ⟨fs, hplace, hholds⟩ := h.placeAll_holds clock target hunmarked
    have htouched : ∀ entry ∈ stamp clock 0 dir.items,
        touched (stamp clock 0 dir.items) entry.1 = entry.1.node := by
      intro entry hentry
      cases htouch : lastTouch (stamp clock 0 dir.items) entry.1.path with
      | none => exact touched_of_none htouch
      | some time =>
          cases hnode : entry.1.node with
          | file times content =>
              unfold touched
              rw [hnode]
          | directory times =>
              have htime := htimes entry.1 (mem_stamp hentry) times hnode time htouch
              rw [touched_directory hnode, htouch, Option.getD_some, ← htime]
    refine ⟨fs, by rw [h.extract_eq]; exact hplace, ?_⟩
    intro path node
    constructor
    · intro hnode
      obtain ⟨entry, hentry, rfl⟩ := hholds.only path (by rw [hnode]; simp)
      rw [hholds.placed entry hentry, htouched entry hentry] at hnode
      cases hnode
      exact mem_stamp hentry
    · intro hmem
      obtain ⟨entry, hentry, heq⟩ := exists_mem_stamp clock 0 hmem
      have hplaced := hholds.placed entry hentry
      rw [htouched entry hentry, heq] at hplaced
      exact hplaced

end RoundTrip

-- A directory with one file of one byte.
def smallDir (name : Name) : SourceDir where
  path := ascii "d"
  times := ⟨3, 5⟩
  children := .file name ⟨1, 2⟩ [7] .nil

theorem smallDir_storable {name : Name} (hname : ValidName name) (hlength : name.length ≤ 255) :
    Storable (smallDir name) := by
  have hitems : (smallDir name).items =
      [⟨[], .directory ⟨3, 5⟩⟩, ⟨[name], .file ⟨1, 2⟩ [7]⟩] := rfl
  constructor
  all_goals rw [hitems]
  · intro item hitem other hother
    rw [List.mem_pair] at hitem
    rcases hitem with rfl | rfl
    · cases hother
    · rw [List.mem_singleton] at hother
      rw [hother]
      exact hname
  · intro item hitem
    rw [List.mem_pair] at hitem
    rcases hitem with rfl | rfl
    · decide
    · rw [archiveName, if_neg (by simp), joinPath_singleton]
      exact hlength
  · simp
  · intro item hitem
    rw [List.mem_pair] at hitem
    rcases hitem with rfl | rfl
    · exact (by decide : 0 < 2 ^ 33)
    · exact (by decide : 1 < 2 ^ 33)
  · intro item hitem
    rw [List.mem_pair] at hitem
    rcases hitem with rfl | rfl
    · exact (by decide : 5 < 2 ^ 33)
    · exact (by decide : 2 < 2 ^ 33)
  · intro item hitem
    rw [List.mem_pair] at hitem
    rcases hitem with rfl | rfl
    · exact (by decide : 3 < 2 ^ 33)
    · exact (by decide : 1 < 2 ^ 33)

def plainName : Name := ascii "f"

theorem plainName_valid : ValidName plainName := ⟨by decide, by decide, by decide⟩

theorem extract_save_iff_plainName :
    Storable (smallDir plainName) ∧
      ∃ pos entries archive,
        saveDirectory (smallDir plainName) none (.null 0) [] false = some (.null pos, entries) ∧
        saveDirectory (smallDir plainName) none (.data []) entries true =
          some (.data archive, entries) ∧
        (Restores (fun _ => 5) archive none (smallDir plainName) ↔
          Unmarked (smallDir plainName) ∧ TimesKept (fun _ => 5) (smallDir plainName)) := by
  have hstorable := smallDir_storable plainName_valid (by decide)
  exact ⟨hstorable, extract_save_iff (smallDir plainName) hstorable (fun _ => 5) none⟩

-- A name with the marker behind its first letter is saved, and skipped by extract.
def markedName : Name := ascii "a" ++ ignoredMarker

theorem markedName_valid : ValidName markedName := ⟨by decide, by decide, by decide⟩

theorem marked_file_is_lost :
    Storable (smallDir markedName) ∧ ∀ clock target, ∃ pos entries archive,
      saveDirectory (smallDir markedName) none (.null 0) [] false = some (.null pos, entries) ∧
      saveDirectory (smallDir markedName) none (.data []) entries true =
        some (.data archive, entries) ∧
      ¬Restores clock archive target (smallDir markedName) := by
  have hstorable := smallDir_storable markedName_valid (by decide)
  refine ⟨hstorable, fun clock target => ⟨_, _, _, saveDirectory_null _ none 0,
    saveDirectory_evaluated _ none [], ?_⟩⟩
  rw [List.nil_append, ← archiveOf]
  intro hrestores
  have hunmarked := hstorable.unmarked_of_restores hrestores
    ⟨[markedName], .file ⟨1, 2⟩ [7]⟩ (by decide)
  exact absurd hunmarked (by decide)

end Rpcsx.Tar
