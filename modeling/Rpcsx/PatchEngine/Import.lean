import Rpcsx.PatchEngine.LoadOrder

namespace Rpcsx.PatchEngine

open Data Yaml

section Model

-- The versions of a new patch, put in beside those that are there.
def mergeSerials (title : Text) : List (Sigma fun _ : Text => AppVersions) → Titles → Titles
  | [], titles => titles
  | ⟨serial, newAppVersions⟩ :: rest, titles =>
      if newAppVersions.entries = [] then mergeSerials title rest titles
      else
        let serials := (titles.lookup title).getD ∅
        let appVersions := (serials.lookup serial).getD ∅
        mergeSerials title rest
          (titles.insert title (serials.insert serial (appVersions ∪ newAppVersions)))

def mergeTitles : List (Sigma fun _ : Text => Serials) → Titles → Titles
  | [], titles => titles
  | ⟨title, newSerials⟩ :: rest, titles =>
      mergeTitles rest (mergeSerials title newSerials.entries titles)

def replaceInfo (info newInfo : PatchInfo) : PatchInfo :=
  { info with
    titles := mergeTitles newInfo.titles.entries info.titles
    patchVersion := if newInfo.patchVersion ≠ [] then newInfo.patchVersion else info.patchVersion
    author := if newInfo.author ≠ [] then newInfo.author else info.author
    notes := if newInfo.notes ≠ [] then newInfo.notes else info.notes
    dataList := if newInfo.dataList ≠ [] then newInfo.dataList else info.dataList
    sourcePath := if newInfo.sourcePath ≠ [] then newInfo.sourcePath else info.sourcePath }

def isBigger (newInfo info : PatchInfo) : Bool :=
  let compared := compareVersions newInfo.patchVersion info.patchVersion
  compared.2 && compared.1 > 0

-- The loop over the patches of a container that is there already.
def appendInfos : List (Sigma fun _ : Text => PatchInfo) → PatchContainer → Nat →
    PatchContainer × Nat
  | [], container, count => (container, count)
  | ⟨description, newInfo⟩ :: rest, container, count =>
      match container.patchInfoMap.lookup description with
      | none =>
          appendInfos rest { container with
            patchInfoMap := container.patchInfoMap.insert description newInfo } (count + 1)
      | some info =>
          if isBigger newInfo info then
            appendInfos rest { container with
              patchInfoMap := container.patchInfoMap.insert description (replaceInfo info newInfo) }
              (count + 1)
          else appendInfos rest container count

structure Appended where
  patches : PatchMap
  count : Nat
  total : Nat

def appendPatches : List (Sigma fun _ : Text => PatchContainer) → Appended → Appended
  | [], state => state
  | ⟨hash, newContainer⟩ :: rest, state =>
      let total := state.total + newContainer.patchInfoMap.entries.length
      match state.patches.lookup hash with
      | none =>
          appendPatches rest ⟨state.patches.insert hash newContainer,
            state.count + newContainer.patchInfoMap.entries.length, total⟩
      | some container =>
          let result := appendInfos newContainer.patchInfoMap.entries container state.count
          appendPatches rest ⟨state.patches.insert hash result.1, result.2, total⟩

-- savePatches tells whether the file could be written.
def importPatches (env : Environment) (savePatches : PatchMap → Text → Bool) (patches : PatchMap)
    (path : Text) (count total : Nat) : Bool × Appended :=
  let existing := load env ∅ path [] true
  if existing.1 then
    let appended := appendPatches patches.entries ⟨existing.2, count, total⟩
    (appended.count == 0 || savePatches appended.patches path, appended)
  else (false, ⟨existing.2, count, total⟩)

end Model

section Merge

-- The settings of one version of an application.
def appConfig (titles : Titles) (title serial appVersion : Text) : Option AppConfig :=
  ((titles.lookup title).bind (·.lookup serial)).bind (·.lookup appVersion)

theorem appConfig_insert (titles : Titles) (title serial : Text) (versions : AppVersions)
    (t s v : Text) :
    appConfig (titles.insert title (((titles.lookup title).getD ∅).insert serial versions)) t s v =
      if title = t ∧ serial = s then versions.lookup v else appConfig titles t s v := by
  rw [appConfig]
  by_cases ht : title = t
  · subst ht
    rw [AList.lookup_insert, Option.bind_some]
    by_cases hs : serial = s
    · subst hs
      rw [AList.lookup_insert, Option.bind_some, if_pos ⟨rfl, rfl⟩]
    · rw [AList.lookup_insert_ne (Ne.symm hs), if_neg fun hc => hs hc.2, appConfig]
      cases titles.lookup title with
      | none => rfl
      | some serials => rfl
  · rw [AList.lookup_insert_ne (Ne.symm ht), if_neg fun hc => ht hc.1, appConfig]

theorem lookup_union (first second : AppVersions) (v : Text) :
    (first ∪ second).lookup v = (first.lookup v).or (second.lookup v) := by
  by_cases hmem : v ∈ first
  · obtain ⟨config, hconfig⟩ := Option.isSome_iff_exists.mp (AList.lookup_isSome.mpr hmem)
    rw [AList.lookup_union_left hmem, hconfig, Option.some_or]
  · rw [AList.lookup_union_right hmem, AList.lookup_eq_none.mpr hmem, Option.none_or]

theorem appConfig_getD (titles : Titles) (title serial v : Text) :
    ((((titles.lookup title).getD ∅).lookup serial).getD ∅).lookup v =
      appConfig titles title serial v := by
  rw [appConfig]
  cases titles.lookup title with
  | none => rfl
  | some serials =>
      simp only [Option.getD_some, Option.bind_some]
      cases serials.lookup serial with
      | none => rfl
      | some versions => rfl

theorem mergeSerials_appConfig (title : Text) (serials : List (Sigma fun _ : Text => AppVersions))
    (hn : serials.NodupKeys) (titles : Titles) (t s v : Text) :
    appConfig (mergeSerials title serials titles) t s v =
      (appConfig titles t s v).or
        (if title = t then (serials.dlookup s).bind (·.lookup v) else none) := by
  induction serials generalizing titles with
  | nil => simp [mergeSerials]
  | cons entry rest ih =>
      obtain ⟨serial, versions⟩ := entry
      obtain ⟨hfresh, hrest⟩ := List.nodupKeys_cons.mp hn
      rw [mergeSerials]
      by_cases hempty : versions.entries = []
      · rw [if_pos hempty, ih hrest]
        by_cases hs : s = serial
        · subst hs
          have hnone : versions.lookup v = none := by
            rw [AList.lookup, hempty]
            rfl
          rw [List.dlookup_cons_eq, List.dlookup_eq_none.mpr hfresh, Option.bind_some, hnone]
          rfl
        · rw [List.dlookup_cons_ne _ _ hs]
      · rw [if_neg hempty]
        simp only
        rw [ih hrest, appConfig_insert, lookup_union, appConfig_getD]
        by_cases hs : s = serial
        · subst hs
          rw [List.dlookup_cons_eq, List.dlookup_eq_none.mpr hfresh]
          by_cases ht : title = t
          · subst ht
            simp
          · simp [ht]
        · rw [if_neg fun hc => hs hc.2.symm, List.dlookup_cons_ne _ _ hs]

-- The titles of a replaced patch are the union of both, as far as versions are concerned.
theorem mergeTitles_appConfig (entries : List (Sigma fun _ : Text => Serials))
    (hn : entries.NodupKeys) (titles : Titles) (t s v : Text) :
    appConfig (mergeTitles entries titles) t s v =
      (appConfig titles t s v).or (((entries.dlookup t).bind (·.lookup s)).bind (·.lookup v)) := by
  induction entries generalizing titles with
  | nil => simp [mergeTitles]
  | cons entry rest ih =>
      obtain ⟨title, serials⟩ := entry
      obtain ⟨hfresh, hrest⟩ := List.nodupKeys_cons.mp hn
      rw [mergeTitles, ih hrest, mergeSerials_appConfig title _ serials.nodupKeys]
      by_cases ht : t = title
      · subst ht
        rw [List.dlookup_cons_eq, List.dlookup_eq_none.mpr hfresh, if_pos rfl]
        simp [AList.lookup]
      · rw [List.dlookup_cons_ne _ _ ht, if_neg (Ne.symm ht), Option.or_none]

end Merge

section Append

-- What the map has after a patch has been appended to what it had.
def merged (existing : Option PatchInfo) (newInfo : PatchInfo) : PatchInfo :=
  match existing with
  | none => newInfo
  | some info => if isBigger newInfo info then replaceInfo info newInfo else info

theorem appendInfos_lookup (entries : List (Sigma fun _ : Text => PatchInfo))
    (hn : entries.NodupKeys) (container : PatchContainer) (count : Nat) (d : Text) :
    (appendInfos entries container count).1.patchInfoMap.lookup d =
      match entries.dlookup d with
      | none => container.patchInfoMap.lookup d
      | some newInfo => some (merged (container.patchInfoMap.lookup d) newInfo) := by
  induction entries generalizing container count with
  | nil => rfl
  | cons entry rest ih =>
      obtain ⟨description, newInfo⟩ := entry
      obtain ⟨hfresh, hrest⟩ := List.nodupKeys_cons.mp hn
      rw [appendInfos]
      by_cases hd : d = description
      · subst hd
        have hnone : rest.dlookup d = none := List.dlookup_eq_none.mpr hfresh
        rw [List.dlookup_cons_eq]
        simp only
        cases hold : container.patchInfoMap.lookup d with
        | none =>
            simp only
            rw [ih hrest, hnone, merged]
            exact AList.lookup_insert _
        | some info =>
            rw [merged]
            simp only
            by_cases hbigger : isBigger newInfo info = true
            · rw [if_pos hbigger, if_pos hbigger, ih hrest, hnone]
              exact AList.lookup_insert _
            · rw [if_neg hbigger, if_neg hbigger, ih hrest, hnone]
              exact hold
      · rw [List.dlookup_cons_ne _ _ hd]
        cases container.patchInfoMap.lookup description with
        | none =>
            rw [ih hrest]
            simp only [AList.lookup_insert_ne hd]
        | some info =>
            simp only
            by_cases hbigger : isBigger newInfo info = true
            · rw [if_pos hbigger, ih hrest]
              simp only [AList.lookup_insert_ne hd]
            · rw [if_neg hbigger, ih hrest]

theorem appendPatches_patch (entries : List (Sigma fun _ : Text => PatchContainer))
    (hn : entries.NodupKeys) (state : Appended) (h d : Text) :
    (appendPatches entries state).patches.patch h d =
      match (entries.dlookup h).bind (·.patchInfoMap.lookup d) with
      | none => state.patches.patch h d
      | some newInfo => some (merged (state.patches.patch h d) newInfo) := by
  induction entries generalizing state with
  | nil => rfl
  | cons entry rest ih =>
      obtain ⟨hash, newContainer⟩ := entry
      obtain ⟨hfresh, hrest⟩ := List.nodupKeys_cons.mp hn
      rw [appendPatches]
      by_cases hh : h = hash
      · subst hh
        have hnone : rest.dlookup h = none := List.dlookup_eq_none.mpr hfresh
        rw [List.dlookup_cons_eq, Option.bind_some]
        simp only
        cases hold : state.patches.lookup h with
        | none =>
            simp only
            rw [ih hrest, hnone, Option.bind_none]
            simp only
            rw [patch_insert, if_pos rfl, PatchMap.patch, hold]
            cases newContainer.patchInfoMap.lookup d with
            | none => rfl
            | some newInfo => rfl
        | some container =>
            simp only
            rw [ih hrest, hnone, Option.bind_none]
            simp only
            rw [patch_insert, if_pos rfl, PatchMap.patch, hold, Option.bind_some,
              appendInfos_lookup _ newContainer.patchInfoMap.nodupKeys]
            rfl
      · rw [List.dlookup_cons_ne _ _ hh]
        cases state.patches.lookup hash with
        | none =>
            simp only
            rw [ih hrest, patch_insert, if_neg (Ne.symm hh)]
        | some container =>
            simp only
            rw [ih hrest, patch_insert, if_neg (Ne.symm hh)]

end Append

section Consistent

-- All of a replaced patch is that of the new one, and the titles are those of both.
structure SelfConsistent (info newInfo result : PatchInfo) : Prop where
  dataList : result.dataList = newInfo.dataList
  patchGroup : result.patchGroup = newInfo.patchGroup
  defaultConfigValues : result.defaultConfigValues = newInfo.defaultConfigValues
  titles : ∀ t s v, appConfig result.titles t s v =
    (appConfig info.titles t s v).or (appConfig newInfo.titles t s v)

structure Imported (existing patches result : PatchMap) : Prop where
  present : ∀ h d newInfo, patches.patch h d = some newInfo → (result.patch h d).isSome = true
  replaced : ∀ h d info newInfo, existing.patch h d = some info →
    patches.patch h d = some newInfo → isBigger newInfo info = true →
    ∃ after, result.patch h d = some after ∧ SelfConsistent info newInfo after

theorem selfConsistent_iff (info newInfo : PatchInfo) :
    SelfConsistent info newInfo (replaceInfo info newInfo) ↔
      (newInfo.dataList = [] → info.dataList = []) ∧ info.patchGroup = newInfo.patchGroup ∧
        info.defaultConfigValues = newInfo.defaultConfigValues := by
  have hdata : (replaceInfo info newInfo).dataList = newInfo.dataList ↔
      (newInfo.dataList = [] → info.dataList = []) := by
    rw [replaceInfo]
    simp only
    by_cases hempty : newInfo.dataList = []
    · rw [if_neg (not_not.mpr hempty), hempty]
      exact ⟨fun h _ => h, fun h => h rfl⟩
    · rw [if_pos hempty]
      exact iff_of_true rfl fun hc => absurd hc hempty
  constructor
  · intro h
    exact ⟨hdata.mp h.dataList, h.patchGroup, h.defaultConfigValues⟩
  · rintro ⟨h, hgroup, hconfig⟩
    exact ⟨hdata.mpr h, hgroup, hconfig,
      fun t s v => mergeTitles_appConfig _ newInfo.titles.nodupKeys _ t s v⟩

variable (env : Environment) (savePatches : PatchMap → Text → Bool)

theorem importPatches_patch {patches : PatchMap} {path : Text} {count total : Nat}
    (hok : (importPatches env savePatches patches path count total).1 = true) (h d : Text) :
    (importPatches env savePatches patches path count total).2.patches.patch h d =
      match patches.patch h d with
      | none => (load env ∅ path [] true).2.patch h d
      | some newInfo => some (merged ((load env ∅ path [] true).2.patch h d) newInfo) := by
  rw [importPatches] at hok ⊢
  simp only at hok ⊢
  by_cases hload : (load env ∅ path [] true).1 = true
  · rw [if_pos hload]
    exact appendPatches_patch _ patches.nodupKeys _ h d
  · rw [if_neg hload] at hok
    cases hok

-- A replaced patch keeps its own group and configurable values, and where the new one has no data
-- its own data.
theorem importPatches_iff {patches : PatchMap} {path : Text} {count total : Nat}
    (hok : (importPatches env savePatches patches path count total).1 = true) :
    Imported (load env ∅ path [] true).2 patches
        (importPatches env savePatches patches path count total).2.patches ↔
      ∀ h d info newInfo, (load env ∅ path [] true).2.patch h d = some info →
        patches.patch h d = some newInfo → isBigger newInfo info = true →
          (newInfo.dataList = [] → info.dataList = []) ∧ info.patchGroup = newInfo.patchGroup ∧
            info.defaultConfigValues = newInfo.defaultConfigValues := by
  have hpatch := importPatches_patch env savePatches hok
  constructor
  · intro himported h d info newInfo hold hnew hbigger
    obtain ⟨after, hafter, hconsistent⟩ := himported.replaced h d info newInfo hold hnew hbigger
    rw [hpatch, hnew, hold] at hafter
    simp only [merged, hbigger, if_true, Option.some.injEq] at hafter
    subst hafter
    exact (selfConsistent_iff info newInfo).mp hconsistent
  · intro hall
    refine ⟨fun h d newInfo hnew => ?_, fun h d info newInfo hold hnew hbigger => ?_⟩
    · rw [hpatch, hnew]
      rfl
    · refine ⟨replaceInfo info newInfo, ?_, ?_⟩
      · rw [hpatch, hnew, hold]
        simp only [merged, hbigger, if_true]
      · exact (selfConsistent_iff info newInfo).mpr (hall h d info newInfo hold hnew hbigger)

end Consistent

section Example

-- A directory with one patch file that has version 1 of a patch.
def importEnv : Environment :=
  { versionEnv with files := fun _ => some (versionFile "1".toList).content }

-- Version 2 of that patch.
def nextInfo (config : ConfigValues) (data : List PatchData) : PatchInfo :=
  { description := "Speed".toList
    patchVersion := "2".toList
    defaultConfigValues := config
    dataList := data
    hash := "PPU-00".toList }

def nextPatches (config : ConfigValues) (data : List PatchData) : PatchMap :=
  AList.singleton "PPU-00".toList
    { patchInfoMap := AList.singleton "Speed".toList (nextInfo config data) }

theorem nextPatches_patch (config : ConfigValues) (data : List PatchData) (h d : Text) :
    (nextPatches config data).patch h d =
      if "PPU-00".toList = h ∧ "Speed".toList = d then some (nextInfo config data) else none := by
  rw [nextPatches, ← AList.insert_empty, patch_insert, ← AList.insert_empty]
  by_cases hh : "PPU-00".toList = h
  · rw [if_pos hh]
    by_cases hd : "Speed".toList = d
    · subst hd
      rw [if_pos ⟨hh, rfl⟩]
      exact AList.lookup_insert _
    · rw [if_neg fun hc => hd hc.2]
      exact (AList.lookup_insert_ne (Ne.symm hd)).trans (AList.lookup_empty d)
  · rw [if_neg hh, if_neg fun hc => hh hc.1, PatchMap.patch, AList.lookup_empty, Option.bind_none]

theorem importEnv_patch :
    ∃ info, (load importEnv ∅ "patch.yml".toList [] true).2.patch "PPU-00".toList "Speed".toList =
        some info ∧ info.patchVersion = "1".toList ∧ info.patchGroup = [] ∧
      info.defaultConfigValues = [] ∧ info.dataList = [] := by
  have hversion : ((load importEnv ∅ "patch.yml".toList [] true).2.patch "PPU-00".toList
      "Speed".toList).map PatchInfo.patchVersion = some "1".toList := by decide +kernel
  have hgroup : ((load importEnv ∅ "patch.yml".toList [] true).2.patch "PPU-00".toList
      "Speed".toList).map PatchInfo.patchGroup = some [] := by decide +kernel
  have hconfig : ((load importEnv ∅ "patch.yml".toList [] true).2.patch "PPU-00".toList
      "Speed".toList).map PatchInfo.defaultConfigValues = some [] := by decide +kernel
  have hdata : ((load importEnv ∅ "patch.yml".toList [] true).2.patch "PPU-00".toList
      "Speed".toList).map PatchInfo.dataList = some [] := by decide +kernel
  obtain ⟨info, hinfo, hversion⟩ := Option.map_eq_some_iff.mp hversion
  rw [hinfo] at hgroup hconfig hdata
  exact ⟨info, hinfo, hversion, Option.some.inj hgroup, Option.some.inj hconfig,
    Option.some.inj hdata⟩

theorem importEnv_ok (config : ConfigValues) (data : List PatchData) :
    (importPatches importEnv (fun _ _ => true) (nextPatches config data) "patch.yml".toList 0 0).1 =
      true := by
  have hload : (load importEnv ∅ "patch.yml".toList [] true).1 = true := by decide +kernel
  rw [importPatches]
  simp only
  rw [if_pos hload, Bool.or_true]

theorem importPatches_iff_next :
    Imported (load importEnv ∅ "patch.yml".toList [] true).2 (nextPatches [] [])
      (importPatches importEnv (fun _ _ => true) (nextPatches [] []) "patch.yml".toList 0
        0).2.patches := by
  refine (importPatches_iff _ _ (importEnv_ok [] [])).mpr fun h d info newInfo hold hnew _ => ?_
  obtain ⟨old, hold', -, hgroup, hconfig, hdata⟩ := importEnv_patch
  rw [nextPatches_patch] at hnew
  by_cases hkey : "PPU-00".toList = h ∧ "Speed".toList = d
  · obtain ⟨rfl, rfl⟩ := hkey
    rw [if_pos ⟨rfl, rfl⟩] at hnew
    cases hnew
    rw [hold'] at hold
    cases hold
    exact ⟨fun _ => hdata, hgroup, hconfig⟩
  · rw [if_neg hkey] at hnew
    cases hnew

-- The new data names a configurable value that the replaced patch does not have.
theorem configValue_lost :
    ¬∀ (env : Environment) (savePatches : PatchMap → Text → Bool) (patches : PatchMap)
      (path : Text) (count total : Nat),
      (importPatches env savePatches patches path count total).1 = true →
        Imported (load env ∅ path [] true).2 patches
          (importPatches env savePatches patches path count total).2.patches := by
  intro hall
  have hok := importEnv_ok [("Rate".toList, { value := 1 })]
    [⟨.be32, 0x10000, "0x10000".toList, "Rate".toList, 1⟩]
  have himported := hall importEnv _ _ _ 0 0 hok
  obtain ⟨old, hold, hversion, -, hconfig, -⟩ := importEnv_patch
  have hnew := nextPatches_patch [("Rate".toList, { value := 1 })]
    [⟨.be32, 0x10000, "0x10000".toList, "Rate".toList, 1⟩] "PPU-00".toList "Speed".toList
  rw [if_pos ⟨rfl, rfl⟩] at hnew
  have hbigger : isBigger (nextInfo [("Rate".toList, { value := 1 })]
      [⟨.be32, 0x10000, "0x10000".toList, "Rate".toList, 1⟩]) old = true := by
    have hints : ints "1".toList < ints "2".toList := lt_of_head (by decide +kernel)
    have hpos := (compareLoop_pos_iff "2".toList "1".toList).mpr hints
    have hvalid : isVersionText "2".toList = true ∧ isVersionText "1".toList = true := by
      decide +kernel
    simp only [isBigger, compareVersions, nextInfo, hversion, hvalid, Bool.and_self, if_true,
      Bool.true_and, decide_eq_true_eq]
    exact hpos
  obtain ⟨after, hafter, hconsistent⟩ := himported.replaced _ _ _ _ hold hnew hbigger
  rw [importPatches_patch _ _ hok, hnew, hold] at hafter
  simp only [merged, hbigger, if_true, Option.some.injEq] at hafter
  subst hafter
  have hsame := hconsistent.defaultConfigValues
  rw [show (replaceInfo old _).defaultConfigValues = old.defaultConfigValues from rfl, hconfig]
    at hsame
  cases hsame

end Example

end Rpcsx.PatchEngine
