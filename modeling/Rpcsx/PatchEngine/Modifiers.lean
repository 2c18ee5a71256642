import Rpcsx.PatchEngine
import Mathlib.Data.List.Basic

namespace Rpcsx.PatchEngine

open Data Data.Hex Yaml

section Selection

variable {α β : Type} (f g : α → Option β) (marked : β → Bool)

-- Two selections from one list whose differences show: what only `f` selects is marked, what only
-- `g` selects is not.
theorem filterMap_lengths (l : List α)
    (h : ∀ a ∈ l, f a = g a ∨ (f a = none ∧ ∃ b, g a = some b ∧ marked b = false) ∨
      (g a = none ∧ ∃ b, f a = some b ∧ marked b = true)) :
    (l.filterMap f).countP marked =
        (l.filterMap g).countP marked + l.countP (fun a => (f a).isSome && (g a).isNone) ∧
      (l.filterMap f).length + l.countP (fun a => (f a).isNone && (g a).isSome) =
        (l.filterMap g).length + l.countP (fun a => (f a).isSome && (g a).isNone) := by
  induction l with
  | nil => simp
  | cons a rest ih =>
      obtain ⟨ha, hrest⟩ := List.forall_mem_cons.mp h
      obtain ⟨ih₁, ih₂⟩ := ih hrest
      rcases ha with heq | ⟨hf, b, hg, hb⟩ | ⟨hg, b, hf, hb⟩
      · cases hg : g a with
        | none =>
            rw [hg] at heq
            simp [heq, hg, ih₁, ih₂]
        | some b =>
            rw [hg] at heq
            simp only [List.filterMap_cons, List.countP_cons, heq, hg, List.length_cons]
            simp
            omega
      · simp only [List.filterMap_cons, List.countP_cons, hf, hg, List.length_cons]
        simp [hb]
        omega
      · simp only [List.filterMap_cons, List.countP_cons, hf, hg, List.length_cons]
        simp [hb]
        omega

theorem filterMap_eq_iff (l : List α)
    (h : ∀ a ∈ l, f a = g a ∨ (f a = none ∧ ∃ b, g a = some b ∧ marked b = false) ∨
      (g a = none ∧ ∃ b, f a = some b ∧ marked b = true)) :
    l.filterMap f = l.filterMap g ↔ ∀ a ∈ l, f a = g a := by
  constructor
  · intro heq a ha
    obtain ⟨hmarked, hlength⟩ := filterMap_lengths f g marked l h
    rw [heq] at hmarked hlength
    have hextra : l.countP (fun a => (f a).isSome && (g a).isNone) = 0 := by omega
    have hmissing : l.countP (fun a => (f a).isNone && (g a).isSome) = 0 := by omega
    rcases h a ha with he | ⟨hf, b, hg, -⟩ | ⟨hg, b, hf, -⟩
    · exact he
    · have hn := List.countP_eq_zero.mp hmissing a ha
      simp [hf, hg] at hn
    · have hn := List.countP_eq_zero.mp hextra a ha
      simp [hf, hg] at hn
  · exact fun hall => List.filterMap_congr hall

end Selection

-- An entry of a patch with the modifier of the innermost anchor around it.
structure Leaf where
  type : PatchType
  addr : Node
  value : Node
  modifier : Nat

namespace Leaf

-- File operations have a path in place of an address.
def ChecksAddress (leaf : Leaf) : Prop := leaf.type ≠ .moveFile ∧ leaf.type ≠ .hideFile

instance (leaf : Leaf) : Decidable leaf.ChecksAddress := instDecidableAnd

section

variable (yaml : YamlCpp) (toInteger : Nat → Nat → Nat) (config : ConfigValues)

def address (leaf : Leaf) : Option Nat :=
  match leaf.addr with
  | .scalar text => yaml.unsigned 32 text
  | _ => none

-- The value of an entry that passes every check but the one of the sum.
def otherChecks (leaf : Leaf) : Option Nat :=
  match leaf.value with
  | .scalar text =>
      if leaf.type.usesHexOffset ∧ ¬"0x".toList <+: leaf.addr.scalarText then none
      else if leaf.ChecksAddress ∧ leaf.address yaml = none then none
      else
        readValue yaml toInteger ((config.find? (·.1 = text)).map (·.2.value)) text
          leaf.type.valueKind
  | _ => none

def entry (leaf : Leaf) (offset value : Nat) : PatchData :=
  ⟨leaf.type, offset, leaf.addr.scalarText, leaf.value.scalarText, value⟩

-- What the engine appends for an entry.
def appended (leaf : Leaf) : Option PatchData :=
  (leaf.otherChecks yaml toInteger config).bind fun value =>
    let offset := ((leaf.address yaml).getD 0 + leaf.modifier) % 2 ^ 32
    if leaf.ChecksAddress ∧ 0xffffffff - leaf.modifier < offset then none
    else some (leaf.entry offset value)

-- What it is to append: the exact sum, where 32 bits hold it.
def summed (leaf : Leaf) : Option PatchData :=
  (leaf.otherChecks yaml toInteger config).bind fun value =>
    let sum := (leaf.address yaml).getD 0 + leaf.modifier
    if sum ≤ 0xffffffff then some (leaf.entry sum value) else none

theorem addEntry_scalar (leaf : Leaf) (info : PatchInfo) (text : Text) :
    addEntry yaml toInteger leaf.type leaf.addr (.scalar text) info leaf.modifier =
      if leaf.type.usesHexOffset ∧ ¬"0x".toList <+: leaf.addr.scalarText then (false, info)
      else if leaf.ChecksAddress ∧ leaf.address yaml = none then (false, info)
      else if leaf.ChecksAddress ∧ 0xffffffff - leaf.modifier <
          ((leaf.address yaml).getD 0 + leaf.modifier) % 2 ^ 32 then (false, info)
      else
        match readValue yaml toInteger
            ((info.defaultConfigValues.find? (·.1 = text)).map (·.2.value)) text
            leaf.type.valueKind with
        | some value =>
            (true, { info with dataList := info.dataList ++ [⟨leaf.type,
              ((leaf.address yaml).getD 0 + leaf.modifier) % 2 ^ 32, leaf.addr.scalarText, text,
              value⟩] })
        | none => (false, info) :=
  rfl

theorem addEntry_eq (leaf : Leaf) (info : PatchInfo) :
    addEntry yaml toInteger leaf.type leaf.addr leaf.value info leaf.modifier =
      match leaf.appended yaml toInteger info.defaultConfigValues with
      | some data => (true, { info with dataList := info.dataList ++ [data] })
      | none => (false, info) := by
  cases hv : leaf.value with
  | scalar text =>
      rw [addEntry_scalar, appended, otherChecks, hv]
      simp only
      by_cases hhex : leaf.type.usesHexOffset ∧ ¬"0x".toList <+: leaf.addr.scalarText
      · rw [if_pos hhex, if_pos hhex]
        rfl
      · rw [if_neg hhex, if_neg hhex]
        by_cases haddr : leaf.ChecksAddress ∧ leaf.address yaml = none
        · rw [if_pos haddr, if_pos haddr]
          rfl
        · rw [if_neg haddr, if_neg haddr]
          cases readValue yaml toInteger
              ((info.defaultConfigValues.find? (·.1 = text)).map (·.2.value)) text
              leaf.type.valueKind with
          | none => simp
          | some value =>
              rw [Option.bind_some, entry, hv]
              by_cases hsum : leaf.ChecksAddress ∧ 0xffffffff - leaf.modifier <
                  ((leaf.address yaml).getD 0 + leaf.modifier) % 2 ^ 32
              · rw [if_pos hsum, if_pos hsum]
              · rw [if_neg hsum, if_neg hsum]
                rfl
  | _ =>
      rw [appended, otherChecks, hv]
      rfl

end

end Leaf

section Walk

variable (yaml : YamlCpp) (toInteger : Nat → Nat → Nat)

mutual

-- The entries of a node in their order, none for a node that is not even an entry.
def leaves : Node → Nat → List (Option Leaf)
  | .sequence items, modifier =>
      let type := getPatchTypeNode (items.getD 0 .undefined)
      if type = .invalid then [none]
      else if type = .load then
        match items with
        | _ :: .sequence anchored :: rest =>
            let mod :=
              match rest.getD 0 .undefined with
              | .scalar text => (yaml.unsigned 32 text).getD 0
              | _ => 0
            anchoredLeaves anchored mod
        | _ => [none]
      else [some ⟨type, items.getD 1 .undefined, items.getD 2 .undefined, modifier⟩]
  | _, _ => [none]

def anchoredLeaves : List Node → Nat → List (Option Leaf)
  | [], _ => []
  | node :: rest, modifier => leaves node modifier ++ anchoredLeaves rest modifier

end

-- What is left of a patch when a list of entries has been added to it.
def added (select : Leaf → Option PatchData) (entries : List (Option Leaf)) (info : PatchInfo) :
    Bool × PatchInfo :=
  (entries.all fun leaf => (leaf.bind select).isSome,
    { info with dataList := info.dataList ++ entries.filterMap (·.bind select) })

theorem added_append (select : Leaf → Option PatchData) (first rest : List (Option Leaf))
    (info : PatchInfo) :
    added select (first ++ rest) info =
      ((added select first info).1 && (added select rest (added select first info).2).1,
        (added select rest (added select first info).2).2) := by
  simp [added, List.all_append, List.filterMap_append]

theorem added_none (select : Leaf → Option PatchData) (info : PatchInfo) :
    added select [none] info = (false, info) := by
  simp [added]

theorem added_leaf (leaf : Leaf) (info : PatchInfo) :
    added (Leaf.appended yaml toInteger info.defaultConfigValues) [some leaf] info =
      addEntry yaml toInteger leaf.type leaf.addr leaf.value info leaf.modifier := by
  rw [Leaf.addEntry_eq]
  cases hdata : leaf.appended yaml toInteger info.defaultConfigValues with
  | none => simp [added, hdata]
  | some data => simp [added, hdata]

-- A sequence that has no list of anchored nodes as its second item.
theorem plain_sequence (items : List Node) (info : PatchInfo) (modifier : Nat)
    (h : ∀ head anchored rest, items = head :: .sequence anchored :: rest → False) :
    addPatchData yaml toInteger (.sequence items) info modifier =
      added (Leaf.appended yaml toInteger info.defaultConfigValues)
        (leaves yaml (.sequence items) modifier) info := by
  rw [addPatchData.eq_2 _ _ _ _ _ h, leaves.eq_2 _ _ _ h]
  by_cases hinvalid : getPatchTypeNode (items.getD 0 .undefined) = .invalid
  · rw [if_pos hinvalid, if_pos hinvalid, added_none]
  · rw [if_neg hinvalid, if_neg hinvalid]
    by_cases hload : getPatchTypeNode (items.getD 0 .undefined) = .load
    · rw [if_pos hload, if_pos hload, added_none]
    · rw [if_neg hload, if_neg hload, added_leaf]

mutual

theorem addPatchData_eq (node : Node) (info : PatchInfo) (modifier : Nat) :
    addPatchData yaml toInteger node info modifier =
      added (Leaf.appended yaml toInteger info.defaultConfigValues) (leaves yaml node modifier)
        info := by
  match node with
  | .sequence (head :: .sequence anchored :: rest) =>
      rw [addPatchData, leaves]
      simp only
      by_cases hinvalid : getPatchTypeNode ((head :: .sequence anchored :: rest).getD 0 .undefined) =
          .invalid
      · rw [if_pos hinvalid, if_pos hinvalid, added_none]
      · rw [if_neg hinvalid, if_neg hinvalid]
        by_cases hload : getPatchTypeNode ((head :: .sequence anchored :: rest).getD 0 .undefined) =
            .load
        · rw [if_pos hload, if_pos hload]
          exact addAnchored_eq anchored info _
        · rw [if_neg hload, if_neg hload, added_leaf]
  | .sequence [] | .sequence [_] | .sequence (_ :: .undefined :: _) | .sequence (_ :: .null :: _) |
      .sequence (_ :: .scalar _ :: _) | .sequence (_ :: .map _ :: _) =>
      exact plain_sequence yaml toInteger _ info modifier (by simp)
  | .undefined | .null | .scalar _ | .map _ =>
      rw [addPatchData.eq_3 _ _ _ _ _ (by simp), leaves.eq_3 _ _ _ (by simp), added_none]

theorem addAnchored_eq (nodes : List Node) (info : PatchInfo) (modifier : Nat) :
    addAnchored yaml toInteger nodes info modifier =
      added (Leaf.appended yaml toInteger info.defaultConfigValues)
        (anchoredLeaves yaml nodes modifier) info := by
  match nodes with
  | [] => simp [addAnchored, anchoredLeaves, added]
  | node :: rest =>
      rw [addAnchored, anchoredLeaves, added_append, addPatchData_eq node info modifier,
        addAnchored_eq rest _ modifier]
      rfl

end

end Walk

section Sums

variable {yaml : YamlCpp} (toInteger : Nat → Nat → Nat) (config : ConfigValues)

-- A conversion to an unsigned type gives a value of that type.
def Typed (yaml : YamlCpp) : Prop :=
  ∀ width text value, yaml.unsigned width text = some value → value < 2 ^ width

theorem Typed.address_lt (h : Typed yaml) (leaf : Leaf) :
    (leaf.address yaml).getD 0 < 2 ^ 32 := by
  rw [Leaf.address]
  cases leaf.addr with
  | scalar text =>
      cases hu : yaml.unsigned 32 text with
      | none => simp [hu]
      | some value => simpa [hu] using h 32 text value hu
  | _ => simp

mutual

theorem Typed.modifier_lt (h : Typed yaml) (node : Node) {modifier : Nat}
    (hm : modifier < 2 ^ 32) : ∀ leaf, some leaf ∈ leaves yaml node modifier →
      leaf.modifier < 2 ^ 32 := by
  match node with
  | .sequence (head :: .sequence anchored :: rest) =>
      intro leaf hleaf
      rw [leaves] at hleaf
      simp only at hleaf
      split at hleaf
      · simp at hleaf
      · split at hleaf
        · refine h.anchored_lt anchored ?_ leaf hleaf
          split
          · next text _ =>
              cases hu : yaml.unsigned 32 text with
              | none => simp
              | some value => simpa using h 32 text value hu
          · omega
        · rw [List.mem_singleton, Option.some.injEq] at hleaf
          subst hleaf
          exact hm
  | .sequence [] | .sequence [_] | .sequence (_ :: .undefined :: _) | .sequence (_ :: .null :: _) |
      .sequence (_ :: .scalar _ :: _) | .sequence (_ :: .map _ :: _) =>
      intro leaf hleaf
      rw [leaves.eq_2 _ _ _ (by simp)] at hleaf
      split at hleaf
      · simp at hleaf
      · split at hleaf
        · simp at hleaf
        · rw [List.mem_singleton, Option.some.injEq] at hleaf
          subst hleaf
          exact hm
  | .undefined | .null | .scalar _ | .map _ =>
      intro leaf hleaf
      simp [leaves] at hleaf

theorem Typed.anchored_lt (h : Typed yaml) (nodes : List Node) {modifier : Nat}
    (hm : modifier < 2 ^ 32) : ∀ leaf, some leaf ∈ anchoredLeaves yaml nodes modifier →
      leaf.modifier < 2 ^ 32 := by
  match nodes with
  | [] =>
      intro leaf hleaf
      simp [anchoredLeaves] at hleaf
  | node :: rest =>
      intro leaf hleaf
      rw [anchoredLeaves, List.mem_append] at hleaf
      rcases hleaf with hleaf | hleaf
      · exact h.modifier_lt node hm leaf hleaf
      · exact h.anchored_lt rest hm leaf hleaf

end

-- The sum that the engine tests has the modifier in it twice.
def Leaf.SumHolds (yaml : YamlCpp) (leaf : Leaf) : Prop :=
  let address := (leaf.address yaml).getD 0
  if leaf.ChecksAddress then
    address + 2 * leaf.modifier ≤ 0xffffffff ∨
      (0xffffffff < address + leaf.modifier ∧ 2 ^ 33 ≤ address + 2 * leaf.modifier)
  else address + leaf.modifier ≤ 0xffffffff

theorem Leaf.appended_eq_summed_iff {leaf : Leaf} (ha : (leaf.address yaml).getD 0 < 2 ^ 32)
    (hm : leaf.modifier < 2 ^ 32) :
    leaf.appended yaml toInteger config = leaf.summed yaml toInteger config ↔
      ((leaf.otherChecks yaml toInteger config).isSome = true → leaf.SumHolds yaml) := by
  rw [appended, summed]
  cases leaf.otherChecks yaml toInteger config with
  | none => simp
  | some value =>
      simp only [Option.bind_some, Option.isSome_some, true_implies, SumHolds]
      by_cases hc : leaf.ChecksAddress
      · simp only [hc, true_and, if_true]
        by_cases hsum : (leaf.address yaml).getD 0 + leaf.modifier ≤ 0xffffffff
        · rw [if_pos hsum, Nat.mod_eq_of_lt (by omega)]
          by_cases hlt : 0xffffffff - leaf.modifier < (leaf.address yaml).getD 0 + leaf.modifier
          · rw [if_pos hlt]
            simp only [reduceCtorEq, false_iff]
            omega
          · rw [if_neg hlt]
            simp only [true_iff]
            omega
        · rw [if_neg hsum, show ((leaf.address yaml).getD 0 + leaf.modifier) % 2 ^ 32 =
            (leaf.address yaml).getD 0 + leaf.modifier - 2 ^ 32 by omega]
          by_cases hlt : 0xffffffff - leaf.modifier <
              (leaf.address yaml).getD 0 + leaf.modifier - 2 ^ 32
          · rw [if_pos hlt]
            simp only [true_iff]
            omega
          · rw [if_neg hlt]
            simp only [reduceCtorEq, false_iff]
            omega
      · simp only [hc, false_and, if_false]
        by_cases hsum : (leaf.address yaml).getD 0 + leaf.modifier ≤ 0xffffffff
        · rw [if_pos hsum, Nat.mod_eq_of_lt (by omega)]
          simp [hsum]
        · rw [if_neg hsum]
          simp [hsum]

-- A sum that has wrapped is smaller than the address that the entry names.
def wrapped (yaml : YamlCpp) (data : PatchData) : Bool :=
  data.offset < (yaml.unsigned 32 data.originalOffset).getD 0

theorem Leaf.appended_cases {leaf : Leaf} (ha : (leaf.address yaml).getD 0 < 2 ^ 32)
    (hm : leaf.modifier < 2 ^ 32) :
    leaf.appended yaml toInteger config = leaf.summed yaml toInteger config ∨
      (leaf.appended yaml toInteger config = none ∧
        ∃ data, leaf.summed yaml toInteger config = some data ∧ wrapped yaml data = false) ∨
      (leaf.summed yaml toInteger config = none ∧
        ∃ data, leaf.appended yaml toInteger config = some data ∧ wrapped yaml data = true) := by
  cases haddr : leaf.addr with
  | scalar text =>
      have haddress : leaf.address yaml = yaml.unsigned 32 text := by rw [address, haddr]
      rw [haddress] at ha
      rw [appended, summed, haddress]
      cases leaf.otherChecks yaml toInteger config with
      | none => simp
      | some value =>
          simp only [Option.bind_some]
          by_cases hsum : (yaml.unsigned 32 text).getD 0 + leaf.modifier ≤ 0xffffffff
          · rw [if_pos hsum, Nat.mod_eq_of_lt (by omega)]
            split
            · refine Or.inr (Or.inl ⟨rfl, _, rfl, ?_⟩)
              simp [wrapped, entry, haddr, Node.scalarText]
            · exact Or.inl rfl
          · rw [if_neg hsum]
            split
            · exact Or.inl rfl
            · refine Or.inr (Or.inr ⟨rfl, _, rfl, ?_⟩)
              simp only [wrapped, entry, haddr, Node.scalarText, decide_eq_true_eq]
              omega
  | _ =>
      have haddress : leaf.address yaml = none := by rw [address, haddr]
      left
      rw [appended_eq_summed_iff toInteger config ha hm, SumHolds, haddress]
      intro hchecks
      by_cases hc : leaf.ChecksAddress
      · rw [otherChecks, haddress] at hchecks
        cases hv : leaf.value <;> simp [hv, hc] at hchecks
      · simp only [hc, if_false, Option.getD_none]
        omega

-- The node with an entry for exactly those sums that 32 bits hold, and failure for the others.
def exactSums (yaml : YamlCpp) (toInteger : Nat → Nat → Nat) (node : Node) (info : PatchInfo)
    (modifier : Nat) : Bool × PatchInfo :=
  added (Leaf.summed yaml toInteger info.defaultConfigValues) (leaves yaml node modifier) info

theorem addPatchData_exact_iff (h : Typed yaml) (node : Node) (info : PatchInfo) {modifier : Nat}
    (hm : modifier < 2 ^ 32) :
    addPatchData yaml toInteger node info modifier =
        exactSums yaml toInteger node info modifier ↔
      ∀ leaf, some leaf ∈ leaves yaml node modifier →
        (leaf.otherChecks yaml toInteger info.defaultConfigValues).isSome = true →
          leaf.SumHolds yaml := by
  have hcases : ∀ leaf ∈ leaves yaml node modifier,
      leaf.bind (Leaf.appended yaml toInteger info.defaultConfigValues) =
          leaf.bind (Leaf.summed yaml toInteger info.defaultConfigValues) ∨
        (leaf.bind (Leaf.appended yaml toInteger info.defaultConfigValues) = none ∧
          ∃ data, leaf.bind (Leaf.summed yaml toInteger info.defaultConfigValues) = some data ∧
            wrapped yaml data = false) ∨
        (leaf.bind (Leaf.summed yaml toInteger info.defaultConfigValues) = none ∧
          ∃ data, leaf.bind (Leaf.appended yaml toInteger info.defaultConfigValues) = some data ∧
            wrapped yaml data = true) := by
    rintro (- | leaf) hleaf
    · exact Or.inl rfl
    · exact leaf.appended_cases toInteger _ (h.address_lt leaf) (h.modifier_lt node hm leaf hleaf)
  have hlists := filterMap_eq_iff _ _ _ _ hcases
  have hpoint (leaf : Leaf) (hleaf : some leaf ∈ leaves yaml node modifier) :=
    leaf.appended_eq_summed_iff toInteger info.defaultConfigValues (h.address_lt leaf)
      (h.modifier_lt node hm leaf hleaf)
  rw [addPatchData_eq, exactSums]
  constructor
  · intro heq leaf hleaf
    have hdata := congrArg (fun result => result.2.dataList) heq
    have hall := hlists.mp (List.append_cancel_left hdata)
    exact (hpoint leaf hleaf).mp (hall (some leaf) hleaf)
  · intro hall
    have hsame : ∀ leaf ∈ leaves yaml node modifier,
        leaf.bind (Leaf.appended yaml toInteger info.defaultConfigValues) =
          leaf.bind (Leaf.summed yaml toInteger info.defaultConfigValues) := by
      rintro (- | leaf) hleaf
      · rfl
      · exact (hpoint leaf hleaf).mpr (hall leaf hleaf)
    have hflags : (leaves yaml node modifier).all
          (fun leaf => (leaf.bind (Leaf.appended yaml toInteger info.defaultConfigValues)).isSome) =
        (leaves yaml node modifier).all
          (fun leaf => (leaf.bind (Leaf.summed yaml toInteger info.defaultConfigValues)).isSome) := by
      rw [Bool.eq_iff_iff, List.all_eq_true, List.all_eq_true]
      exact forall₂_congr fun leaf hleaf => by rw [hsame leaf hleaf]
    rw [added, added, hflags, hlists.mpr hsame]

end Sums

-- A library that knows hexadecimal numbers.
def hexYaml : YamlCpp where
  load _ := none
  unsigned width text :=
    match text with
    | '0' :: 'x' :: digits =>
        if digits ≠ [] ∧ digits.all isHexDigit ∧ hexValue digits < 2 ^ width then
          some (hexValue digits)
        else none
    | _ => none
  signed _ _ := none
  real _ _ := none

theorem hexYaml_typed : Typed hexYaml := by
  intro width text value hvalue
  simp only [hexYaml] at hvalue
  split at hvalue
  · split at hvalue
    · next hdigits =>
        cases hvalue
        exact hdigits.2.2
    · cases hvalue
  · cases hvalue

def wordEntry (address : String) : Node :=
  .sequence [.scalar "be32".toList, .scalar address.toList, .scalar "0x60000000".toList]

theorem addPatchData_exact_iff_anchor :
    addPatchData hexYaml (fun _ bits => bits)
        (.sequence [.scalar "load".toList, .sequence [wordEntry "0x1000"], .scalar "0x10".toList])
        {} 0 =
      exactSums hexYaml (fun _ bits => bits)
        (.sequence [.scalar "load".toList, .sequence [wordEntry "0x1000"], .scalar "0x10".toList])
        {} 0 := by
  refine (addPatchData_exact_iff _ hexYaml_typed _ _ (by decide)).mpr ?_
  intro leaf hleaf _
  have hload : getPatchTypeNode (.scalar "load".toList) = .load := by decide +kernel
  have hword : getPatchTypeNode (.scalar "be32".toList) = .be32 := by decide +kernel
  have hmod : hexYaml.unsigned 32 "0x10".toList = some 0x10 := by decide +kernel
  have haddress : hexYaml.unsigned 32 "0x1000".toList = some 0x1000 := by decide +kernel
  rw [leaves, List.getD_cons_zero, hload, if_neg (by decide), if_pos rfl, List.getD_cons_zero,
    anchoredLeaves, anchoredLeaves, wordEntry, leaves.eq_2 _ _ _ (by simp), List.getD_cons_zero,
    hword, if_neg (by decide), if_neg (by decide)] at hleaf
  simp only [hmod, List.append_nil, List.mem_singleton, Option.some.injEq, Option.getD_some,
    List.getD_cons_succ, List.getD_cons_zero] at hleaf
  subst hleaf
  rw [Leaf.SumHolds, Leaf.address]
  simp only [haddress, Option.getD_some]
  decide

-- 0xFFFFFFFF and 1 are appended as 0, while 0x10 and 0x80000000 are refused.
theorem modifier_counted_twice :
    ¬∀ (yaml : YamlCpp) (toInteger : Nat → Nat → Nat) (node : Node) (info : PatchInfo)
      (modifier : Nat), Typed yaml → modifier < 2 ^ 32 →
        addPatchData yaml toInteger node info modifier =
          exactSums yaml toInteger node info modifier := by
  intro hall
  have heq := hall hexYaml (fun _ bits => bits) (wordEntry "0xFFFFFFFF") {} 1 hexYaml_typed
    (by decide)
  have hdata : (addPatchData hexYaml (fun _ bits => bits) (wordEntry "0xFFFFFFFF") {} 1).2.dataList =
      [⟨.be32, 0, "0xFFFFFFFF".toList, "0x60000000".toList, 0x60000000⟩] := by
    decide +kernel
  rw [heq] at hdata
  revert hdata
  decide +kernel

end Rpcsx.PatchEngine
