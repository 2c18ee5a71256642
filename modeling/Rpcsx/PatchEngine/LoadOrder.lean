import Rpcsx.PatchEngine.Load
import Mathlib.Data.List.Pairwise

namespace Rpcsx.PatchEngine

open Data Yaml

-- A patch, and where it belongs.
structure Insertion where
  hash : Text
  description : Text
  info : PatchInfo

def Insertion.isFor (hash description : Text) (insertion : Insertion) : Bool :=
  insertion.hash = hash ∧ insertion.description = description

-- The patch that the engine keeps of an earlier and a later one.
def keep (existing : Option PatchInfo) (info : PatchInfo) : Option PatchInfo :=
  match existing with
  | some existing =>
      let compared := compareVersions info.patchVersion existing.patchVersion
      if ¬compared.2 ∨ ¬compared.1 > 0 then some existing else some info
  | none => some info

theorem patch_insert (patches : PatchMap) (hash : Text) (container : PatchContainer)
    (h d : Text) :
    PatchMap.patch (patches.insert hash container) h d =
      if hash = h then container.patchInfoMap.lookup d else patches.patch h d := by
  rw [PatchMap.patch]
  by_cases he : hash = h
  · subst he
    rw [if_pos rfl, AList.lookup_insert, Option.bind_some]
  · rw [if_neg he, AList.lookup_insert_ne (Ne.symm he), PatchMap.patch]

theorem patch_getD (patches : PatchMap) (hash d : Text) :
    ((patches.lookup hash).getD {}).patchInfoMap.lookup d = patches.patch hash d := by
  rw [PatchMap.patch]
  cases patches.lookup hash with
  | none => exact AList.lookup_empty d
  | some container => rfl

theorem insertPatch_patch (patches : PatchMap) (insertion : Insertion) (h d : Text) :
    (insertPatch patches insertion.hash insertion.description insertion.info).patch h d =
      if insertion.isFor h d then keep (patches.patch h d) insertion.info else patches.patch h d := by
  obtain ⟨hash, description, info⟩ := insertion
  have hinserted : PatchMap.patch (patches.insert hash
      { (patches.lookup hash).getD {} with
        patchInfoMap := ((patches.lookup hash).getD {}).patchInfoMap.insert description info }) h d =
      if hash = h ∧ description = d then some info else patches.patch h d := by
    rw [patch_insert]
    by_cases hh : hash = h
    · subst hh
      rw [if_pos rfl]
      by_cases hd : description = d
      · subst hd
        rw [if_pos ⟨rfl, rfl⟩, AList.lookup_insert]
      · rw [if_neg fun hc => hd hc.2, AList.lookup_insert_ne (Ne.symm hd), patch_getD]
    · rw [if_neg hh, if_neg fun hc => hh hc.1]
  rw [insertPatch]
  simp only [Insertion.isFor, decide_eq_true_eq]
  rw [patch_getD]
  by_cases hkey : hash = h ∧ description = d
  · obtain ⟨rfl, rfl⟩ := hkey
    rw [if_pos ⟨rfl, rfl⟩] at hinserted ⊢
    cases hold : patches.patch hash description with
    | none => exact hinserted
    | some existing =>
        rw [keep]
        simp only
        split
        · exact hold
        · exact hinserted
  · rw [if_neg hkey] at hinserted ⊢
    split
    · split
      · rfl
      · exact hinserted
    · exact hinserted

theorem openContainer_patch (patches : PatchMap) (hash version h d : Text) :
    (openContainer patches hash version).patch h d = patches.patch h d := by
  rw [openContainer, patch_insert]
  by_cases hh : hash = h
  · subst hh
    rw [if_pos rfl]
    exact patch_getD patches hash d
  · rw [if_neg hh]

section Walk

variable (yaml : YamlCpp) (toInteger : Nat → Nat → Nat) (doubles : Doubles)
  (config : Text → Text → Text → Text → Text → AppConfig) (path version : Text)

-- The patches of one key and of all keys of a file, in the order in which they are read.
def patchesOfKey (hash : Text) (entries : List (Node × Node)) : List Insertion :=
  entries.filterMap fun (key, node) =>
    if key.scalarText = [] ∨ ¬node.isMap then none
    else
      (readPatch yaml toInteger doubles config path hash version key.scalarText node).map
        fun info => ⟨hash, key.scalarText, info.2⟩

def patchesOfKeys (entries : List (Node × Node)) : List Insertion :=
  entries.flatMap fun (key, node) =>
    match node with
    | .map patches =>
        if key.scalarText = [] ∨ key.scalarText = PatchKey.anchors then []
        else patchesOfKey yaml toInteger doubles config path version key.scalarText patches
    | _ => []

-- What a list of patches leaves under a hash and a description.
def kept (insertions : List Insertion) (h d : Text) (existing : Option PatchInfo) :
    Option PatchInfo :=
  ((insertions.filter (·.isFor h d)).map (·.info)).foldl keep existing

theorem kept_append (first rest : List Insertion) (h d : Text) (existing : Option PatchInfo) :
    kept (first ++ rest) h d existing = kept rest h d (kept first h d existing) := by
  simp only [kept, List.filter_append, List.map_append, List.foldl_append]

theorem loadPatches_patch (hash : Text) (entries : List (Node × Node)) (patches : PatchMap)
    (h d : Text) :
    (loadPatches yaml toInteger doubles config path hash version entries patches).2.patch h d =
      kept (patchesOfKey yaml toInteger doubles config path version hash entries) h d
        (patches.patch h d) := by
  induction entries generalizing patches with
  | nil => rfl
  | cons entry rest ih =>
      obtain ⟨key, node⟩ := entry
      rw [loadPatches, patchesOfKey, List.filterMap_cons]
      simp only
      by_cases hkey : key.scalarText = []
      · rw [if_pos hkey, if_pos (Or.inl hkey)]
        exact ih patches
      · rw [if_neg hkey]
        by_cases hmap : node.isMap = true
        · rw [if_pos hmap, if_neg (by simp [hkey, hmap])]
          cases readPatch yaml toInteger doubles config path hash version key.scalarText node with
          | none => exact ih patches
          | some info =>
              have hstep := insertPatch_patch patches ⟨hash, key.scalarText, info.2⟩ h d
              simp only [Option.map_some]
              rw [also, ih, hstep]
              by_cases hfor : Insertion.isFor h d ⟨hash, key.scalarText, info.2⟩ = true
              · rw [if_pos hfor, kept, kept, List.filter_cons_of_pos hfor, List.map_cons,
                  List.foldl_cons]
                rfl
              · rw [if_neg hfor, kept, kept, List.filter_cons_of_neg hfor]
                rfl
        · rw [if_neg hmap, if_pos (Or.inr hmap)]
          exact ih patches

theorem loadKeys_patch (entries : List (Node × Node)) (patches : PatchMap) (h d : Text) :
    (loadKeys yaml toInteger doubles config path version entries patches).2.patch h d =
      kept (patchesOfKeys yaml toInteger doubles config path version entries) h d
        (patches.patch h d) := by
  induction entries generalizing patches with
  | nil => rfl
  | cons entry rest ih =>
      obtain ⟨key, node⟩ := entry
      rw [patchesOfKeys, List.flatMap_cons, kept_append]
      by_cases hkey : key.scalarText = []
      · cases node with
        | map entries =>
            rw [loadKeys, if_pos hkey, skipped, ih]
            simp only
            rw [if_pos (Or.inl hkey)]
            rfl
        | _ =>
            rw [loadKeys, if_pos hkey, skipped, ih]
            · rfl
            · rintro _ ⟨⟩
      · cases node with
        | map entries =>
            rw [loadKeys, if_neg hkey]
            simp only
            by_cases hanchors : key.scalarText = PatchKey.anchors
            · rw [if_pos hanchors, if_pos (Or.inr hanchors), ih]
              rfl
            · rw [if_neg hanchors, if_neg (by simp [hkey, hanchors]), also, ih, loadPatches_patch,
                openContainer_patch]
              rfl
        | _ =>
            rw [loadKeys, if_neg hkey, skipped, ih]
            · rfl
            · rintro _ ⟨⟩

end Walk

section Files

structure PatchFile where
  path : Text
  content : Text

variable (env : Environment) (importing : Bool)

-- The patches that a file brings in.
def patchesOfFile (file : PatchFile) : List Insertion :=
  match (if file.content = [] then env.files file.path else some file.content) with
  | none => []
  | some content =>
      match env.yaml.load content with
      | some (.map entries) =>
          if (Node.map entries).get PatchKey.version |>.isDefined then
            if ((Node.map entries).get PatchKey.version).scalarText = patchEngineVersion then
              patchesOfKeys env.yaml env.toInteger env.doubles
                (if importing then fun _ _ _ _ _ => {} else env.config) file.path
                patchEngineVersion
                (entries.eraseP fun entry => entry.1.scalarText = PatchKey.version)
            else []
          else []
      | _ => []

theorem load_patch (patches : PatchMap) (file : PatchFile) (h d : Text) :
    (load env patches file.path file.content importing).2.patch h d =
      kept (patchesOfFile env importing file) h d (patches.patch h d) := by
  rw [load, patchesOfFile]
  cases (if file.content = [] then env.files file.path else some file.content) with
  | none => rfl
  | some content =>
      simp only
      cases env.yaml.load content with
      | none => rfl
      | some root =>
          simp only
          cases root with
          | map entries =>
              simp only
              by_cases hdefined : ((Node.map entries).get PatchKey.version).isDefined = true
              · by_cases hversion : ((Node.map entries).get PatchKey.version).scalarText =
                    patchEngineVersion
                · rw [if_pos ⟨rfl, hdefined, hversion⟩, if_pos hdefined, if_pos hversion,
                    loadKeys_patch]
                · rw [if_neg fun hc => hversion hc.2.2, if_pos hdefined, if_neg hversion]
                  rfl
              · rw [if_neg fun hc => hdefined hc.2.1, if_neg hdefined]
                rfl
          | _ =>
              simp only [ite_self]
              rfl

-- Files loaded into one map, one after another.
def loadAll (patches : PatchMap) (files : List PatchFile) : PatchMap :=
  files.foldl (fun patches file => (load env patches file.path file.content importing).2) patches

theorem loadAll_patch (patches : PatchMap) (files : List PatchFile) (h d : Text) :
    (loadAll env importing patches files).patch h d =
      kept (files.flatMap (patchesOfFile env importing)) h d (patches.patch h d) := by
  induction files generalizing patches with
  | nil => rfl
  | cons file rest ih =>
      rw [loadAll, List.foldl_cons, List.flatMap_cons, kept_append, ← load_patch]
      exact ih _

-- All patches with a hash and a description.
def patchesFor (files : List PatchFile) (h d : Text) : List PatchInfo :=
  ((files.flatMap (patchesOfFile env importing)).filter (·.isFor h d)).map (·.info)

theorem loadAll_eq (files : List PatchFile) (h d : Text) :
    (loadAll env importing ∅ files).patch h d =
      (patchesFor env importing files h d).foldl keep none := by
  rw [loadAll_patch, kept, patchesFor, PatchMap.patch, AList.lookup_empty, Option.bind_none]

theorem patchesFor_perm {files order : List PatchFile} (hp : order.Perm files) (h d : Text) :
    (patchesFor env importing order h d).Perm (patchesFor env importing files h d) :=
  ((hp.flatMap_right _).filter _).map _

end Files

section Greatest

-- Two patches whose versions the engine compares, and does not call equal.
def Distinct (p q : PatchInfo) : Prop :=
  (compareVersions p.patchVersion q.patchVersion).2 = true ∧
    (compareVersions p.patchVersion q.patchVersion).1 ≠ 0

theorem distinct_iff (p q : PatchInfo) :
    Distinct p q ↔ isVersionText p.patchVersion = true ∧ isVersionText q.patchVersion = true ∧
      ints p.patchVersion ≠ ints q.patchVersion := by
  rw [Distinct, compareVersions]
  by_cases hv : (isVersionText p.patchVersion && isVersionText q.patchVersion) = true
  · rw [if_pos hv]
    rw [Bool.and_eq_true] at hv
    simp only [true_and, hv.1, hv.2, ne_eq, compareLoop_eq_zero_iff]
  · rw [if_neg hv]
    rw [Bool.and_eq_true, not_and] at hv
    refine iff_of_false (fun h => ?_) fun h => hv h.1 h.2.1
    cases h.1

theorem Distinct.symm {p q : PatchInfo} (h : Distinct p q) : Distinct q p := by
  rw [distinct_iff] at h ⊢
  exact ⟨h.2.1, h.1, h.2.2.symm⟩

theorem keep_of_lt {existing info : PatchInfo} (h : Distinct existing info)
    (hlt : ints existing.patchVersion < ints info.patchVersion) :
    keep (some existing) info = some info := by
  obtain ⟨hv, hv', -⟩ := (distinct_iff _ _).mp h
  have hpos := (compareLoop_pos_iff info.patchVersion existing.patchVersion).mpr hlt
  simp [keep, compareVersions, hv, hv', hpos]

theorem keep_of_not_lt {existing info : PatchInfo}
    (hlt : ¬ints existing.patchVersion < ints info.patchVersion) :
    keep (some existing) info = some existing := by
  have hpos := mt (compareLoop_pos_iff info.patchVersion existing.patchVersion).mp hlt
  rw [keep, compareVersions]
  split
  · rw [if_pos (Or.inr hpos)]
  · rw [if_pos (Or.inl Bool.false_ne_true)]

-- The fold keeps a patch whose version is the greatest as an `int` for each part.
theorem foldl_keep_some {patches : List PatchInfo} {existing : PatchInfo}
    (h : (existing :: patches).Pairwise Distinct) :
    ∃ p, patches.foldl keep (some existing) = some p ∧ p ∈ existing :: patches ∧
      ∀ q ∈ existing :: patches, ints q.patchVersion ≤ ints p.patchVersion := by
  induction patches generalizing existing with
  | nil =>
      refine ⟨existing, rfl, List.mem_cons_self, fun q hq => ?_⟩
      rw [List.mem_singleton.mp hq]
  | cons info rest ih =>
      obtain ⟨hfirst, hrest⟩ := List.pairwise_cons.mp h
      obtain ⟨hd, hothers⟩ := List.forall_mem_cons.mp hfirst
      rw [List.foldl_cons]
      by_cases hlt : ints existing.patchVersion < ints info.patchVersion
      · rw [keep_of_lt hd hlt]
        obtain ⟨p, hp, hmem, hmax⟩ := ih hrest
        refine ⟨p, hp, List.mem_cons_of_mem _ hmem, fun q hq => ?_⟩
        rcases List.mem_cons.mp hq with rfl | hq
        · exact le_trans hlt.le (hmax info List.mem_cons_self)
        · exact hmax q hq
      · rw [keep_of_not_lt hlt]
        have hpair : (existing :: rest).Pairwise Distinct :=
          List.pairwise_cons.mpr ⟨hothers, (List.pairwise_cons.mp hrest).2⟩
        obtain ⟨p, hp, hmem, hmax⟩ := ih hpair
        refine ⟨p, hp, ?_, fun q hq => ?_⟩
        · rcases List.mem_cons.mp hmem with rfl | hmem
          · exact List.mem_cons_self
          · exact List.mem_cons_of_mem _ (List.mem_cons_of_mem _ hmem)
        · rcases List.mem_cons.mp hq with rfl | hq
          · exact hmax _ List.mem_cons_self
          · rcases List.mem_cons.mp hq with rfl | hq
            · exact le_trans (not_lt.mp hlt) (hmax existing List.mem_cons_self)
            · exact hmax q (List.mem_cons_of_mem _ hq)

-- The patch of a list that has the greatest version, part by part as numbers of any size.
def KeepsGreatest (patches : List PatchInfo) : Option PatchInfo → Prop
  | none => patches = []
  | some p => p ∈ patches ∧ ∀ q ∈ patches, numbers q.patchVersion ≤ numbers p.patchVersion

-- What is greatest part by part as an `int` is greatest.
def IntsDecide (patches : List PatchInfo) : Prop :=
  ∀ p ∈ patches, (∀ q ∈ patches, ints q.patchVersion ≤ ints p.patchVersion) →
    ∀ q ∈ patches, numbers q.patchVersion ≤ numbers p.patchVersion

theorem keepsGreatest_iff {patches : List PatchInfo} (h : patches.Pairwise Distinct) :
    KeepsGreatest patches (patches.foldl keep none) ↔ IntsDecide patches := by
  cases patches with
  | nil => exact iff_of_true rfl fun p hp => nomatch hp
  | cons first rest =>
      obtain ⟨p, hp, hmem, hmax⟩ := foldl_keep_some h
      rw [List.foldl_cons, show keep none first = some first from rfl, hp]
      constructor
      · rintro ⟨-, hgreatest⟩ p' hmem' hmax'
        have hsame : p' = p := by
          by_contra hne
          have : Std.Symm Distinct := ⟨fun _ _ hd => hd.symm⟩
          exact ((distinct_iff _ _).mp (h.forall hmem' hmem hne)).2.2 (le_antisymm (hmax p' hmem') (hmax' p hmem))
        subst hsame
        exact hgreatest
      · exact fun hints => ⟨hmem, hints p hmem hmax⟩

theorem KeepsGreatest.perm {patches others : List PatchInfo} (hp : patches.Perm others)
    {kept : Option PatchInfo} (h : KeepsGreatest patches kept) : KeepsGreatest others kept := by
  cases kept with
  | none =>
      obtain rfl : patches = [] := h
      exact hp.symm.eq_nil
  | some p => exact ⟨hp.mem_iff.mp h.1, fun q hq => h.2 q (hp.mem_iff.mpr hq)⟩

theorem IntsDecide.perm {patches others : List PatchInfo} (hp : patches.Perm others)
    (h : IntsDecide patches) : IntsDecide others := fun p hmem hmax q hq =>
  h p (hp.mem_iff.mpr hmem) (fun q hq => hmax q (hp.mem_iff.mp hq)) q (hp.mem_iff.mpr hq)

-- Parts below 2^31 are compared as the numbers that they are.
theorem intsDecide_of_small {patches : List PatchInfo}
    (h : ∀ p ∈ patches, ∀ i, 0 ≤ ofLex (numbers p.patchVersion) i ∧
      ofLex (numbers p.patchVersion) i < 2 ^ 31) : IntsDecide patches := by
  intro p hp hmax q hq
  have hle := hmax q hq
  rwa [ints_eq_numbers (h p hp), ints_eq_numbers (h q hq)] at hle

variable (env : Environment) (importing : Bool)

-- In every order the files leave the patches with the greatest versions.
def KeepsGreatestInAnyOrder (files : List PatchFile) : Prop :=
  ∀ order, order.Perm files → ∀ h d, KeepsGreatest (patchesFor env importing files h d)
    ((loadAll env importing ∅ order).patch h d)

-- They do exactly when of the patches for one place that with the greatest parts as `int` has the
-- greatest version.
theorem load_order_iff (files : List PatchFile)
    (hd : ∀ h d, (patchesFor env importing files h d).Pairwise Distinct) :
    KeepsGreatestInAnyOrder env importing files ↔
      ∀ h d, IntsDecide (patchesFor env importing files h d) := by
  constructor
  · intro hall h d
    have hkept := hall files (List.Perm.refl _) h d
    rw [loadAll_eq] at hkept
    exact (keepsGreatest_iff (hd h d)).mp hkept
  · intro hints order hp h d
    have hperm := patchesFor_perm env importing hp h d
    have hpair : (patchesFor env importing order h d).Pairwise Distinct :=
      (hperm.pairwise_iff fun {_ _} hd => Distinct.symm hd).mpr (hd h d)
    rw [loadAll_eq]
    exact ((keepsGreatest_iff hpair).mpr ((hints h d).perm hperm.symm)).perm hperm

end Greatest

section Example

-- A patch file with one patch, which has nothing but a version.
def versionFront : Text :=
  "Version: 1.2\nPPU-00:\n  Speed:\n    Patch Version: ".toList

def versionFile (version : Text) : PatchFile :=
  ⟨"patch.yml".toList, versionFront ++ version ++ ['\n']⟩

def versionNode (version : Text) : Node :=
  .map [(.scalar "Version".toList, .scalar "1.2".toList),
    (.scalar "PPU-00".toList, .map [(.scalar "Speed".toList,
      .map [(.scalar "Patch Version".toList, .scalar version)])])]

-- A library that loads such files.
def versionYaml : YamlCpp where
  load text :=
    if versionFront <+: text then some (versionNode (text.drop versionFront.length).dropLast)
    else none
  unsigned _ _ := none
  signed _ _ := none
  real _ _ := none

def versionEnv : Environment where
  yaml := versionYaml
  toInteger _ bits := bits
  doubles := ⟨fun n => n.toNat, fun a b => a < b, fun a b => a ≤ b, fun a b => a = b⟩
  files _ := none
  config _ _ _ _ _ := {}

def versionFiles (first second : String) : List PatchFile :=
  [versionFile first.toList, versionFile second.toList]

-- What the patches of two such files have of a version.
def versionsOf (first second : String) : List (Text × Text × Text) :=
  ((versionFiles first second).flatMap (patchesOfFile versionEnv true)).map fun insertion =>
    (insertion.hash, insertion.description, insertion.info.patchVersion)

theorem patchesFor_versionFiles {first second : String}
    (hv : versionsOf first second = [("PPU-00".toList, "Speed".toList, first.toList),
      ("PPU-00".toList, "Speed".toList, second.toList)]) :
    ∃ p q, p.patchVersion = first.toList ∧ q.patchVersion = second.toList ∧ ∀ h d,
      patchesFor versionEnv true (versionFiles first second) h d =
        if "PPU-00".toList = h ∧ "Speed".toList = d then [p, q] else [] := by
  obtain ⟨i, rest, hlist, hi, hrest⟩ := List.map_eq_cons_iff.mp hv
  obtain ⟨j, rest', rfl, hj, hrest'⟩ := List.map_eq_cons_iff.mp hrest
  obtain rfl := List.map_eq_nil_iff.mp hrest'
  simp only [Prod.mk.injEq] at hi hj
  refine ⟨i.info, j.info, hi.2.2, hj.2.2, fun h d => ?_⟩
  rw [patchesFor, hlist]
  by_cases hkey : "PPU-00".toList = h ∧ "Speed".toList = d
  · have hi' : i.isFor h d = true := decide_eq_true ⟨hi.1.trans hkey.1, hi.2.1.trans hkey.2⟩
    have hj' : j.isFor h d = true := decide_eq_true ⟨hj.1.trans hkey.1, hj.2.1.trans hkey.2⟩
    rw [if_pos hkey, List.filter_cons_of_pos hi', List.filter_cons_of_pos hj']
    rfl
  · have hi' : ¬i.isFor h d = true := fun hc =>
      hkey ⟨hi.1.symm.trans (of_decide_eq_true hc).1, hi.2.1.symm.trans (of_decide_eq_true hc).2⟩
    have hj' : ¬j.isFor h d = true := fun hc =>
      hkey ⟨hj.1.symm.trans (of_decide_eq_true hc).1, hj.2.1.symm.trans (of_decide_eq_true hc).2⟩
    rw [if_neg hkey, List.filter_cons_of_neg hi', List.filter_cons_of_neg hj']
    rfl

theorem versionFiles_distinct {first second : String}
    (hv : versionsOf first second = [("PPU-00".toList, "Speed".toList, first.toList),
      ("PPU-00".toList, "Speed".toList, second.toList)])
    (hfirst : isVersionText first.toList = true) (hsecond : isVersionText second.toList = true)
    (hne : ints first.toList ≠ ints second.toList) (h d : Text) :
    (patchesFor versionEnv true (versionFiles first second) h d).Pairwise Distinct := by
  obtain ⟨p, q, hp, hq, hpatches⟩ := patchesFor_versionFiles hv
  rw [hpatches]
  split
  · rw [List.pairwise_pair, distinct_iff, hp, hq]
    exact ⟨hfirst, hsecond, hne⟩
  · exact List.Pairwise.nil

theorem load_order_iff_two : KeepsGreatestInAnyOrder versionEnv true (versionFiles "9" "10") := by
  have hv : versionsOf "9" "10" = [("PPU-00".toList, "Speed".toList, "9".toList),
      ("PPU-00".toList, "Speed".toList, "10".toList)] := by decide +kernel
  have hints : ints "9".toList < ints "10".toList := lt_of_head (by decide +kernel)
  refine (load_order_iff versionEnv true _ (versionFiles_distinct hv (by decide +kernel)
    (by decide +kernel) hints.ne)).mpr fun h d => ?_
  obtain ⟨p, q, hp, hq, hpatches⟩ := patchesFor_versionFiles hv
  rw [hpatches]
  split
  · have hnumbers : numbers p.patchVersion < numbers q.patchVersion := by
      rw [hp, hq]
      exact lt_of_head (by decide +kernel)
    rw [← hp, ← hq] at hints
    intro r hr hmax s hs
    rcases List.mem_pair.mp hr with rfl | rfl
    · exact absurd (hmax q (List.mem_pair.mpr (Or.inr rfl))) (not_le.mpr hints)
    · rcases List.mem_pair.mp hs with rfl | rfl
      · exact hnumbers.le
      · exact le_refl _
  · exact fun r hr => nomatch hr

-- Version 2147483648 is taken for an older one than 1.
theorem big_version_dropped :
    ¬∀ (env : Environment) (importing : Bool) (files : List PatchFile),
      (∀ h d, (patchesFor env importing files h d).Pairwise Distinct) →
        KeepsGreatestInAnyOrder env importing files := by
  intro hall
  have hv : versionsOf "2147483648" "1" = [("PPU-00".toList, "Speed".toList, "2147483648".toList),
      ("PPU-00".toList, "Speed".toList, "1".toList)] := by decide +kernel
  have hints : ints "2147483648".toList < ints "1".toList := lt_of_head (by decide +kernel)
  have hnumbers : numbers "1".toList < numbers "2147483648".toList :=
    lt_of_head (by decide +kernel)
  have hd := versionFiles_distinct hv (by decide +kernel) (by decide +kernel) hints.ne
  have hkept := hall versionEnv true (versionFiles "2147483648" "1") hd _ (List.Perm.refl _)
    "PPU-00".toList "Speed".toList
  obtain ⟨p, q, hp, hq, hpatches⟩ := patchesFor_versionFiles hv
  have hdecide := (keepsGreatest_iff (hd "PPU-00".toList "Speed".toList)).mp
    ((loadAll_eq versionEnv true _ _ _) ▸ hkept)
  rw [hpatches, if_pos ⟨rfl, rfl⟩] at hdecide
  have hle := hdecide q (List.mem_pair.mpr (Or.inr rfl)) (fun r hr => by
    rcases List.mem_pair.mp hr with rfl | rfl
    · rw [hp, hq]
      exact hints.le
    · exact le_refl _) p (List.mem_pair.mpr (Or.inl rfl))
  rw [hp, hq] at hle
  exact absurd hle (not_le.mpr hnumbers)

end Example

end Rpcsx.PatchEngine
