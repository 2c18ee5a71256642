import Rpcsx.Artemis
import Rpcsx.PatchEngine

namespace Rpcsx.Artemis

open Data Data.Hex Data.Text Yaml PatchEngine

theorem matchCode_spec {code : Char → Bool} {first second : Nat → Bool} {line g1 g2 : Text}
    (h : matchCode code first second line = some (g1, g2)) :
    (∀ c ∈ g1, isHexDigit c = true) ∧ (∀ c ∈ g2, isHexDigit c = true) ∧
      first g1.length = true ∧ second g2.length = true := by
  cases line with
  | nil => simp [matchCode] at h
  | cons c rest =>
      simp only [matchCode, Option.ite_none_right_eq_some, Option.some.injEq, Prod.mk.injEq] at h
      obtain ⟨⟨-, -, hf, -, hs, -⟩, rfl, rfl⟩ := h
      exact ⟨fun c hc => List.mem_takeWhile_imp hc, fun c hc => List.mem_takeWhile_imp hc, hf, hs⟩

-- What the regular expressions promise about the groups of a static write.
def CodeLine.GroupsOk : CodeLine → Prop
  | .fixedWrite address value =>
      address.length = 8 ∧ (∀ c ∈ address, isHexDigit c = true) ∧
        value ≠ [] ∧ (∀ c ∈ value, isHexDigit c = true)
  | .serialWrite address value addressStep count =>
      address.length = 8 ∧ (∀ c ∈ address, isHexDigit c = true) ∧
        value ≠ [] ∧ (∀ c ∈ value, isHexDigit c = true) ∧
        addressStep.length = 8 ∧ (∀ c ∈ addressStep, isHexDigit c = true) ∧
        (∀ c ∈ count, isHexDigit c = true)
  | _ => True

theorem otherCodeLine_groupsOk (line : Text) : (otherCodeLine line).GroupsOk := by
  unfold otherCodeLine
  split
  · trivial
  · split
    · trivial
    · split <;> trivial

theorem static_groups {code : Char → Bool} {line g1 g2 : Text}
    (h : matchCode code (· = 8) (1 ≤ ·) line = some (g1, g2)) :
    g1.length = 8 ∧ (∀ c ∈ g1, isHexDigit c = true) ∧ g2 ≠ [] ∧
      (∀ c ∈ g2, isHexDigit c = true) := by
  obtain ⟨h1, h2, hf, hs⟩ := matchCode_spec h
  simp only [decide_eq_true_eq] at hf hs
  exact ⟨hf, h1, List.ne_nil_of_length_pos hs, h2⟩

theorem readCodeLines_groupsOk (lines : List Text) :
    ∀ code ∈ readCodeLines lines, code.GroupsOk := by
  fun_induction readCodeLines lines with
  | case1 => simp
  | case2 line rest h ih => exact List.forall_mem_cons.mpr ⟨trivial, ih⟩
  | case3 line rest h h' ih => exact List.forall_mem_cons.mpr ⟨trivial, ih⟩
  | case4 line rest h h' address value hm ih =>
      exact List.forall_mem_cons.mpr ⟨static_groups hm, ih⟩
  | case5 line h h' hf address value hm next behind addressStep count hn ih =>
      obtain ⟨ha, hax, hv, hvx⟩ := static_groups hm
      obtain ⟨hs, hsx, -, hcx⟩ := static_groups hn
      exact List.forall_mem_cons.mpr ⟨⟨ha, hax, hv, hvx, hs, hsx, hcx⟩, ih⟩
  | case6 line h h' hf address value hm next behind hn ih =>
      exact List.forall_mem_cons.mpr ⟨trivial, ih⟩
  | case7 line h h' hf address value hm => simp [CodeLine.GroupsOk]
  | case8 line rest h h' hf hm ih =>
      exact List.forall_mem_cons.mpr ⟨otherCodeLine_groupsOk line, ih⟩

-- The writes of one code line, where it has any.
def CodeLine.writes : CodeLine → Option (List ArtemisWrite)
  | .fixedWrite address value => staticWritesForValue address value
  | .serialWrite address value addressStep count => serialWrites address value addressStep count
  | _ => some []

theorem refuse_unsupported (state : CodeState) (reason : UnsupportedReason) :
    (state.refuse reason).unsupported ≠ [] := by
  unfold CodeState.refuse
  split
  · next h => exact List.ne_nil_of_mem h
  · simp

-- A line that is not refused adds exactly its writes.
theorem step_writes (state : CodeState) (code : CodeLine)
    (h : (state.step code).unsupported = []) :
    state.unsupported = [] ∧ ∃ writes, code.writes = some writes ∧
      (state.step code).writes = state.writes ++ writes := by
  cases code with
  | comment => exact ⟨h, [], rfl, by simp [CodeState.step]⟩
  | noCode => exact ⟨h, [], rfl, by simp [CodeState.step]⟩
  | placeholder => exact absurd h (refuse_unsupported _ _)
  | serialIncomplete => exact absurd h (refuse_unsupported _ _)
  | aobUnsupported => exact absurd h (refuse_unsupported _ _)
  | unsupportedType token => exact absurd h (refuse_unsupported _ _)
  | aobReplace searchPattern replacePattern =>
      simp only [CodeState.step] at h ⊢
      split at h
      · next hl => exact ⟨h, [], rfl, by rw [if_pos hl, List.append_nil]⟩
      · exact absurd h (refuse_unsupported _ _)
  | fixedWrite address value =>
      simp only [CodeState.step, CodeLine.writes] at h ⊢
      cases hw : staticWritesForValue address value with
      | none =>
          rw [hw] at h
          exact absurd h (refuse_unsupported _ _)
      | some parsedWrites =>
          rw [hw] at h
          simp only at h ⊢
          split at h
          · exact absurd h (refuse_unsupported _ _)
          · next hl => exact ⟨h, parsedWrites, rfl, by simp [hl]⟩
  | serialWrite address value addressStep count =>
      simp only [CodeState.step, CodeLine.writes] at h ⊢
      cases hw : serialWrites address value addressStep count with
      | none =>
          rw [hw] at h
          exact absurd h (refuse_unsupported _ _)
      | some parsedWrites =>
          rw [hw] at h
          exact ⟨h, parsedWrites, rfl, rfl⟩

theorem run_writes (codes : List CodeLine) (state : CodeState)
    (h : (codes.foldl CodeState.step state).unsupported = []) :
    state.unsupported = [] ∧ ∃ writes, codes.mapM CodeLine.writes = some writes ∧
      (codes.foldl CodeState.step state).writes = state.writes ++ writes.flatten := by
  induction codes generalizing state with
  | nil => exact ⟨h, [], rfl, by simp⟩
  | cons code codes ih =>
      rw [List.foldl_cons] at h ⊢
      obtain ⟨hs, rest, hrest, hwrites⟩ := ih (state.step code) h
      obtain ⟨hs', writes, hw, hstep⟩ := step_writes state code hs
      refine ⟨hs', writes :: rest, by simp [List.mapM_cons, hw, hrest], ?_⟩
      rw [hwrites, hstep, List.flatten_cons, List.append_assoc]

-- The writes of a supported cheat are those of its code lines.
theorem supported_writes {rawBlock : Text} {cheat : ArtemisCheat}
    (h : parseBlock rawBlock = some cheat) (hs : cheat.isSupported = true) :
    ∃ writes, (blockCode rawBlock).mapM CodeLine.writes = some writes ∧
      cheat.writes = writes.flatten := by
  unfold parseBlock at h
  split at h
  · cases h
  · simp only [Option.ite_none_left_eq_some] at h
    obtain ⟨-, -, hcheat⟩ := h
    cases hcheat
    simp only [ArtemisCheat.isSupported, decide_eq_true_eq] at hs ⊢
    obtain ⟨-, hreasons⟩ := hs
    split at hreasons
    · next haob =>
        obtain ⟨-, writes, hall, hwrites⟩ := run_writes _ _ hreasons
        exact ⟨writes, hall, by rw [if_pos haob, hwrites]; rfl⟩
    · exact absurd hreasons (refuse_unsupported _ _)

-- Acceptance by the patch engine

structure OperationAccepted (yaml : YamlCpp) (toInteger : Nat → Nat → Nat) (write : ArtemisWrite) :
    Prop where
  type_valid : getPatchType write.patchType ≠ .invalid
  address_fits : hexValue write.address < 2 ^ 32
  value_fits : ∀ width, (getPatchType write.patchType).valueKind = .integer width →
    hexValue write.value < 2 ^ width
  accepted : ∃ node, yaml.load (patchOperation write) = some node ∧
    ∀ info, info.defaultConfigValues = [] → (addPatchData yaml toInteger node info 0).1 = true

theorem getPatchType_be8 : getPatchType "be8".toList = .invalid := by decide

theorem getPatchType_be16 : getPatchType "be16".toList = .be16 := by decide

theorem getPatchType_be32 : getPatchType "be32".toList = .be32 := by decide

theorem patchOperation_eq (write : ArtemisWrite) :
    patchOperation write =
      flowSequence [write.patchType, hexLiteral write.address, hexLiteral write.value] := by
  simp [patchOperation, flowSequence, hexLiteral, List.intercalate_cons_cons]

theorem isPlainWord_hexLiteral {digits : Text} (h : ∀ c ∈ digits, isHexDigit c = true) :
    isPlainWord (hexLiteral digits) := by
  refine ⟨List.cons_ne_nil _ _, ?_⟩
  have hdigits : ∀ c ∈ digits, c.isAlphanum = true := fun c hc =>
    isAlphanum_of_isHexDigit (h c hc)
  simp only [hexLiteral, List.forall_mem_cons]
  exact ⟨by decide, by decide, hdigits⟩

section Accept

variable {yaml : YamlCpp} (hyaml : yaml.Lawful) (toInteger : Nat → Nat → Nat)
  {write : ArtemisWrite} (ht : isPlainWord write.patchType)
  (ha : ∀ c ∈ write.address, isHexDigit c = true) (hv : ∀ c ∈ write.value, isHexDigit c = true)
include hyaml ht ha hv

theorem load_patchOperation :
    yaml.load (patchOperation write) = some (.sequence [.scalar write.patchType,
      .scalar (hexLiteral write.address), .scalar (hexLiteral write.value)]) := by
  rw [patchOperation_eq, hyaml.load_flow _ (by simp)]
  · rfl
  · simp [ht, isPlainWord_hexLiteral ha, isPlainWord_hexLiteral hv]

-- A write of a known width whose value has as many digits is accepted for its address.
theorem accepted_iff {type : PatchType} {width : Nat}
    (htype : getPatchType write.patchType = type) (hwidth : type.valueKind = .integer width)
    (hi : type ≠ .invalid) (hl : type ≠ .load) (hw : 16 ≤ width) (hane : write.address ≠ [])
    (hvne : write.value ≠ []) (hfits : hexValue write.value < 2 ^ width) :
    OperationAccepted yaml toInteger write ↔ hexValue write.address < 2 ^ 32 := by
  constructor
  · exact fun h => h.address_fits
  · intro hlt
    have hvalue := hyaml.unsigned_hex width write.value hw hvne hv
    have haddr := hyaml.unsigned_hex 32 write.address (by decide) hane ha
    rw [if_pos hfits] at hvalue
    rw [if_pos hlt] at haddr
    refine ⟨by rw [htype]; exact hi, hlt, ?_, _, load_patchOperation hyaml ht ha hv, ?_⟩
    · intro width' h
      rw [htype, hwidth] at h
      cases h
      exact hfits
    · intro info hinfo
      have hprefix : "0x".toList <+: hexLiteral write.address := ⟨write.address, rfl⟩
      have hoffset : ¬0xffffffff - 0 < (hexValue write.address + 0) % 2 ^ 32 := by omega
      simp only [addPatchData, List.getD_cons_zero, List.getD_cons_succ, getPatchTypeNode, htype,
        if_neg hi, if_neg hl, addEntry, Node.scalarText, haddr, Option.getD_some]
      rw [if_neg (by tauto), if_neg (by simp), if_neg (by tauto)]
      simp [hinfo, hwidth, readValue, hvalue]

end Accept

theorem not_accepted_be8 {yaml : YamlCpp} {toInteger : Nat → Nat → Nat} {write : ArtemisWrite}
    (h8 : write.patchType = "be8".toList) : ¬OperationAccepted yaml toInteger write := by
  intro h
  apply h.type_valid
  rw [h8, getPatchType_be8]

-- Static writes

-- The bytes are written in halfwords or words that end below 4 GiB.
def BlockFits (startAddress byteCount : Nat) : Prop :=
  byteCount % 2 = 0 ∧ startAddress % 2 = 0 ∧ startAddress + byteCount ≤ 2 ^ 32

theorem chunkBytes_cases {byteCount : Nat} (h : 0 < byteCount) (startAddress : Nat) :
    (chunkBytes byteCount startAddress = 1 ∧ (byteCount % 2 = 1 ∨ startAddress % 2 = 1)) ∨
      (chunkBytes byteCount startAddress = 2 ∧ byteCount % 2 = 0 ∧ startAddress % 2 = 0) ∨
      (chunkBytes byteCount startAddress = 4 ∧ byteCount % 4 = 0 ∧ startAddress % 4 = 0) := by
  unfold chunkBytes
  split
  · omega
  · split
    · omega
    · split
      · omega
      · split <;> omega

theorem addressText_spec (address : Nat) :
    hexValue (addressText address) = address ∧
      (∀ c ∈ addressText address, isHexDigit c = true) ∧ addressText address ≠ [] := by
  have hhex := isHexDigit_hexText address
  refine ⟨?_, isHexDigit_padStart (isHexDigit_toUpper hhex), ?_⟩
  · rw [addressText, hexValue_padStart, uppercase, hexValue_toUpper hhex, hexValue_hexText]
  · rw [addressText, padStart, Ne, List.append_eq_nil_iff, not_and]
    intro h
    rw [List.replicate_eq_nil_iff] at h
    exact List.ne_nil_of_length_pos (by omega)

theorem toNumberOrNull_eq {bits value : Nat} {text : Text}
    (h : toNumberOrNull bits text = some value) : value = hexValue text := by
  simp only [toNumberOrNull, Option.ite_none_right_eq_some, Option.some.injEq] at h
  exact h.2.symm

theorem staticWrites_eq {address value : Text} {writes : List ArtemisWrite}
    (ha : ∀ c ∈ address, isHexDigit c = true)
    (h : staticWritesForValue address value = some writes) :
    value.length % 2 = 0 ∧
      writes = (chunked (chunkBytes (value.length / 2) (hexValue address) * 2)
        (uppercase value)).mapIdx fun index chunk =>
          { address := addressText
              (hexValue address + index * chunkBytes (value.length / 2) (hexValue address))
            value := chunk
            patchType := patchTypeName (chunkBytes (value.length / 2) (hexValue address)) } := by
  have hlen : (uppercase value).length = value.length := List.length_map _
  unfold staticWritesForValue at h
  simp only [hlen] at h
  by_cases heven : value.length % 2 = 0
  · rw [if_neg (by omega)] at h
    cases hn : toLongOrNull (uppercase address) with
    | none => simp [hn] at h
    | some startAddress =>
        have hstart : startAddress = hexValue address := by
          rw [toNumberOrNull_eq hn, uppercase, hexValue_toUpper ha]
        subst hstart
        simp only [hn, Option.ite_none_left_eq_some] at h
        exact ⟨heven, (Option.some.inj h.2).symm⟩
  · rw [if_pos heven] at h
    cases h

section Static

variable {yaml : YamlCpp} (hyaml : yaml.Lawful) (toInteger : Nat → Nat → Nat)
include hyaml

-- One halfword or word.
theorem chunk_accepted_iff {size : Nat} (address : Nat) (hs : size = 2 ∨ size = 4) {chunk : Text}
    (hc : ∀ c ∈ chunk, isHexDigit c = true) (hl : chunk.length = size * 2) :
    OperationAccepted yaml toInteger
      { address := addressText address, value := chunk, patchType := patchTypeName size } ↔
        address < 2 ^ 32 := by
  obtain ⟨hvalue, haddr, hne⟩ := addressText_spec address
  have hlt := hexValue_lt hc
  have hcne : chunk ≠ [] := List.ne_nil_of_length_pos (by omega)
  have h16 : isPlainWord (patchTypeName 2) := ⟨by decide, List.all_eq_true.mp (by decide)⟩
  have h32 : isPlainWord (patchTypeName 4) := ⟨by decide, List.all_eq_true.mp (by decide)⟩
  rw [hl] at hlt
  rcases hs with rfl | rfl
  · rw [accepted_iff hyaml toInteger h16 haddr hc getPatchType_be16 rfl (by decide)
      (by decide) (by decide) hne hcne hlt, hvalue]
  · rw [accepted_iff hyaml toInteger h32 haddr hc getPatchType_be32 rfl (by decide)
      (by decide) (by decide) hne hcne hlt, hvalue]

theorem chunks_accepted_iff {size startAddress count : Nat} {value : Text} (hs : size = 2 ∨ size = 4)
    (hv : ∀ c ∈ value, isHexDigit c = true) (hl : value.length = count * (size * 2)) :
    (∀ write ∈ (chunked (size * 2) value).mapIdx fun index chunk =>
        ({ address := addressText (startAddress + index * size), value := chunk,
           patchType := patchTypeName size } : ArtemisWrite),
      OperationAccepted yaml toInteger write) ↔
    ∀ index < count, startAddress + index * size < 2 ^ 32 := by
  obtain ⟨hcount, hchunk⟩ := chunked_spec (by omega) count hl
  have hone (index : Nat) (hi : index < (chunked (size * 2) value).length) :=
    chunk_accepted_iff hyaml toInteger (startAddress + index * size) hs
      (fun c hc => hv c ((hchunk _ (List.getElem_mem hi)).2 c hc))
      (hchunk _ (List.getElem_mem hi)).1
  constructor
  · intro h index hi
    rw [← hcount] at hi
    exact (hone index hi).mp (h _ (List.mem_mapIdx.mpr ⟨index, hi, rfl⟩))
  · intro h write hmem
    obtain ⟨index, hi, rfl⟩ := List.mem_mapIdx.mp hmem
    exact (hone index hi).mpr (h index (by rwa [hcount] at hi))

theorem staticWrites_accepted_iff {address value : Text} {writes : List ArtemisWrite}
    (ha : ∀ c ∈ address, isHexDigit c = true) (hv : ∀ c ∈ value, isHexDigit c = true)
    (hne : value ≠ []) (h : staticWritesForValue address value = some writes) :
    (∀ write ∈ writes, OperationAccepted yaml toInteger write) ↔
      BlockFits (hexValue address) (value.length / 2) := by
  have hlen : (uppercase value).length = value.length := List.length_map _
  have hpos := List.length_pos_of_ne_nil hne
  have hupper : ∀ c ∈ uppercase value, isHexDigit c = true := isHexDigit_toUpper hv
  obtain ⟨heven, hwrites⟩ := staticWrites_eq ha h
  rcases chunkBytes_cases (show 0 < value.length / 2 by omega) (hexValue address) with
    ⟨hsize, hodd⟩ | ⟨hsize, hn, hstart⟩ | ⟨hsize, hn, hstart⟩
  · -- Single bytes have the type name that the engine does not know.
    rw [hsize] at hwrites
    obtain ⟨hcount, -⟩ := chunked_spec (by decide) (value.length / 2)
      (show (uppercase value).length = _ * (1 * 2) by omega)
    constructor
    · intro hall
      have hfirst : writes.length ≠ 0 := by rw [hwrites, List.length_mapIdx, hcount]; omega
      obtain ⟨write, hmem⟩ := List.exists_mem_of_length_pos (Nat.pos_of_ne_zero hfirst)
      refine absurd (hall write hmem) (not_accepted_be8 ?_)
      rw [hwrites] at hmem
      obtain ⟨index, hi, rfl⟩ := List.mem_mapIdx.mp hmem
      rfl
    · rintro ⟨h2, ha2, -⟩
      omega
  · rw [hwrites, hsize, chunks_accepted_iff hyaml toInteger (Or.inl rfl) hupper
      (show _ = value.length / 2 / 2 * (2 * 2) by omega)]
    constructor
    · intro hall
      have hlast := hall (value.length / 2 / 2 - 1) (by omega)
      exact ⟨hn, hstart, by omega⟩
    · rintro ⟨-, -, hend⟩ index hi
      omega
  · rw [hwrites, hsize, chunks_accepted_iff hyaml toInteger (Or.inr rfl) hupper
      (show _ = value.length / 2 / 4 * (4 * 2) by omega)]
    constructor
    · intro hall
      have hlast := hall (value.length / 2 / 4 - 1) (by omega)
      exact ⟨by omega, by omega, by omega⟩
    · rintro ⟨-, -, hend⟩ index hi
      omega

theorem repeatWrites_accepted_iff {startAddress step : Nat} {value : Text}
    (hv : ∀ c ∈ value, isHexDigit c = true) (hne : value ≠ []) (count index : Nat)
    (writes : List ArtemisWrite) {result : List ArtemisWrite}
    (h : repeatWrites startAddress step value count index writes = some result) :
    (∀ write ∈ result, OperationAccepted yaml toInteger write) ↔
      (∀ write ∈ writes, OperationAccepted yaml toInteger write) ∧
        ∀ i < count, BlockFits (startAddress + step * (index + i)) (value.length / 2) := by
  induction count generalizing index writes with
  | zero =>
      cases h
      simp
  | succ count ih =>
      rw [repeatWrites] at h
      obtain ⟨hvalue, haddr, -⟩ := addressText_spec (startAddress + step * index)
      cases hw : staticWritesForValue (addressText (startAddress + step * index)) value with
      | none => simp [hw] at h
      | some parsedWrites =>
          simp only [hw, Option.ite_none_left_eq_some] at h
          have hblock := staticWrites_accepted_iff hyaml toInteger haddr hv hne hw
          rw [hvalue] at hblock
          rw [ih (index + 1) (writes ++ parsedWrites) h.2]
          simp only [List.forall_mem_append, hblock]
          rw [Nat.forall_lt_succ_left]
          simp only [Nat.add_assoc, Nat.add_comm 1, and_assoc, Nat.add_zero]

end Static

-- The condition on the code lines of a cheat.
def CodeLine.Fits : CodeLine → Prop
  | .fixedWrite address value => BlockFits (hexValue address) (value.length / 2)
  | .serialWrite address value addressStep count =>
      (2 ≤ hexValue count → hexValue addressStep % 2 = 0) ∧ (value.length / 2) % 2 = 0 ∧
        hexValue address % 2 = 0 ∧
        hexValue address + hexValue addressStep * (hexValue count - 1) + value.length / 2 ≤ 2 ^ 32
  | _ => True

theorem serial_fits_iff {startAddress step count byteCount : Nat} (hc : count ≠ 0) :
    (∀ i < count, BlockFits (startAddress + step * i) byteCount) ↔
      (2 ≤ count → step % 2 = 0) ∧ byteCount % 2 = 0 ∧ startAddress % 2 = 0 ∧
        startAddress + step * (count - 1) + byteCount ≤ 2 ^ 32 := by
  constructor
  · intro h
    obtain ⟨hbyte, hstart, -⟩ := h 0 (by omega)
    obtain ⟨-, -, hlast⟩ := h (count - 1) (by omega)
    refine ⟨?_, hbyte, by omega, hlast⟩
    intro htwo
    obtain ⟨-, hsecond, -⟩ := h 1 (by omega)
    omega
  · rintro ⟨hstep, hbyte, hstart, hlast⟩ i hi
    have hle : step * i ≤ step * (count - 1) := Nat.mul_le_mul_left step (by omega)
    refine ⟨hbyte, ?_, by omega⟩
    by_cases htwo : 2 ≤ count
    · rw [Nat.add_mod, Nat.mul_mod, hstep htwo, hstart]
      simp
    · have hi0 : i = 0 := by omega
      rw [hi0]
      omega

section Code

variable {yaml : YamlCpp} (hyaml : yaml.Lawful) (toInteger : Nat → Nat → Nat)
include hyaml

theorem code_accepted_iff {code : CodeLine} (hg : code.GroupsOk) {writes : List ArtemisWrite}
    (h : code.writes = some writes) :
    (∀ write ∈ writes, OperationAccepted yaml toInteger write) ↔ code.Fits := by
  cases code with
  | fixedWrite address value =>
      obtain ⟨-, ha, hne, hv⟩ := hg
      exact staticWrites_accepted_iff hyaml toInteger ha hv hne h
  | serialWrite address value addressStep count =>
      obtain ⟨-, ha, hne, hv, -, hs, hc⟩ := hg
      simp only [CodeLine.writes, serialWrites] at h
      split at h
      · next startAddress step repeatCount hstart hstep hcount =>
          rw [Option.ite_none_left_eq_some] at h
          obtain ⟨hrange, hrepeat⟩ := h
          rw [repeatWrites_accepted_iff hyaml toInteger hv hne _ _ _ hrepeat,
            toNumberOrNull_eq hstart, toNumberOrNull_eq hstep, toNumberOrNull_eq hcount]
          rw [toNumberOrNull_eq hcount] at hrange
          simp only [List.not_mem_nil, false_imp_iff, implies_true, true_and, Nat.zero_add]
          exact serial_fits_iff (by omega)
      · cases h
  | comment | placeholder | serialIncomplete | aobReplace | aobUnsupported | unsupportedType
  | noCode =>
      cases h
      simp [CodeLine.Fits]

theorem codes_accepted_iff {codes : List CodeLine} (hg : ∀ code ∈ codes, code.GroupsOk)
    {writes : List (List ArtemisWrite)} (h : codes.mapM CodeLine.writes = some writes) :
    (∀ write ∈ writes.flatten, OperationAccepted yaml toInteger write) ↔
      ∀ code ∈ codes, code.Fits := by
  induction codes generalizing writes with
  | nil =>
      cases h
      simp
  | cons code codes ih =>
      rw [List.mapM_cons] at h
      obtain ⟨first, hfirst, h⟩ := Option.bind_eq_some_iff.mp h
      obtain ⟨rest, hrest, h⟩ := Option.bind_eq_some_iff.mp h
      cases h
      obtain ⟨hcode, hcodes⟩ := List.forall_mem_cons.mp hg
      rw [List.flatten_cons, List.forall_mem_append, code_accepted_iff hyaml toInteger hcode hfirst,
        ih hcodes hrest, List.forall_mem_cons]

end Code

theorem operations_accepted_iff {yaml : YamlCpp} (hyaml : yaml.Lawful)
    (toInteger : Nat → Nat → Nat) (text : Text) :
    ∀ rawBlock ∈ nclBlocks text, ∀ cheat, parseBlock rawBlock = some cheat →
      cheat.isSupported = true →
      ((∀ write ∈ cheat.writes, OperationAccepted yaml toInteger write) ↔
        ∀ code ∈ blockCode rawBlock, code.Fits) := by
  intro rawBlock _ cheat h hs
  obtain ⟨writes, hall, hwrites⟩ := supported_writes h hs
  rw [hwrites]
  exact codes_accepted_iff hyaml toInteger (readCodeLines_groupsOk _) hall

-- A loader for flow sequences and hexadecimal numbers.
def flowYaml : YamlCpp where
  load text :=
    match text with
    | '[' :: ' ' :: rest =>
        some (.sequence (((rest.take (rest.length - 2)).splitOn ',').map fun word =>
          .scalar (word.dropWhile (· = ' '))))
    | _ => none
  unsigned width text :=
    match text with
    | '0' :: 'x' :: digits =>
        if digits ≠ [] ∧ digits.all isHexDigit ∧ hexValue digits < 2 ^ width then
          some (hexValue digits)
        else none
    | _ => none
  signed _ _ := none
  real _ _ := none

theorem intercalate_comma (word : Text) (words : List Text) :
    ", ".toList.intercalate (word :: words) =
      [','].intercalate (word :: words.map (' ' :: ·)) := by
  induction words generalizing word with
  | nil => simp
  | cons next words ih =>
      rw [List.intercalate_cons_cons, ih, List.map_cons, List.intercalate_cons_cons]
      cases words with
      | nil => simp
      | cons last words => simp [List.intercalate_cons_cons]

theorem flowYaml_lawful : flowYaml.Lawful where
  load_flow words hne hwords := by
    obtain ⟨word, words, rfl⟩ := List.exists_cons_of_ne_nil hne
    have hinner (text : Text) :
        (text ++ " ]".toList).take ((text ++ " ]".toList).length - 2) = text := by simp
    have hplain (text : Text) (ht : isPlainWord text) (c : Char) (hc : c.isAlphanum = false) :
        c ∉ text := by
      intro hmem
      rw [ht.2 c hmem] at hc
      cases hc
    have hsplit : (", ".toList.intercalate (word :: words)).splitOn ',' =
        word :: words.map (' ' :: ·) := by
      rw [intercalate_comma]
      apply List.splitOn_intercalate
      · intro text htext
        rcases List.mem_cons.mp htext with rfl | htext
        · exact hplain _ (hwords _ (by simp)) ',' (by decide)
        · obtain ⟨next, hnext, rfl⟩ := List.mem_map.mp htext
          have hcomma := hplain next (hwords next (by simp [hnext])) ',' (by decide)
          simp [hcomma]
      · simp
    have hdrop (text : Text) (ht : isPlainWord text) : text.dropWhile (· = ' ') = text := by
      obtain ⟨c, rest, rfl⟩ := List.exists_cons_of_ne_nil ht.1
      have hc : c ≠ ' ' := by
        rintro rfl
        exact hplain _ ht ' ' (by decide) (by simp)
      simp [hc]
    have hflow : flowSequence (word :: words) =
        '[' :: ' ' :: (", ".toList.intercalate (word :: words) ++ " ]".toList) := by
      simp [flowSequence]
    rw [hflow]
    simp only [flowYaml, hinner, hsplit]
    simp only [List.map_cons, List.map_map, hdrop word (hwords word (by simp))]
    congr 3
    apply List.map_congr_left
    intro next hnext
    simp [hdrop next (hwords next (by simp [hnext]))]
  unsigned_hex width text hw hne hhex := by
    have hall : text.all isHexDigit = true := by simpa using hhex
    have hand : (text ≠ [] ∧ text.all isHexDigit = true ∧ hexValue text < 2 ^ width) ↔
        hexValue text < 2 ^ width := by
      rw [hall]
      tauto
    simp only [flowYaml, hexLiteral, hand]

theorem operations_accepted_iff_word :
    ∃ cheat, parseBlock "Max Money\n0\nArtemis Team\n0 00000010 12345678".toList = some cheat ∧
      cheat.isSupported = true ∧
      ∀ write ∈ cheat.writes, OperationAccepted flowYaml (fun _ bits => bits) write := by
  have hcode : blockCode "Max Money\n0\nArtemis Team\n0 00000010 12345678".toList =
      [.fixedWrite "00000010".toList "12345678".toList] := by decide +kernel
  refine ⟨⟨"Max Money".toList, "Artemis Team".toList,
    [⟨"00000010".toList, "12345678".toList, "be32".toList⟩], [], []⟩, by decide +kernel,
    by decide, ?_⟩
  refine (operations_accepted_iff flowYaml_lawful _
    "Max Money\n0\nArtemis Team\n0 00000010 12345678\n#".toList
    "Max Money\n0\nArtemis Team\n0 00000010 12345678".toList (by decide +kernel) _
    (by decide +kernel) (by decide)).mpr ?_
  rw [hcode]
  simp only [List.mem_singleton, forall_eq]
  exact ⟨by decide, by decide +kernel, by decide +kernel⟩

-- A write of one byte is emitted with a type that the patch engine does not know.
theorem byte_write_refused :
    ∃ cheat ∈ parse "Max Lives\n0\nArtemis Team\n0 00000010 FF\n#".toList,
      cheat.isSupported = true ∧ ∃ write ∈ cheat.writes,
        patchOperation write = "[ be8, 0x00000010, 0xFF ]".toList ∧
        ∀ yaml toInteger, YamlCpp.Lawful yaml → ¬OperationAccepted yaml toInteger write := by
  have hparse : parse "Max Lives\n0\nArtemis Team\n0 00000010 FF\n#".toList =
      [⟨"Max Lives".toList, "Artemis Team".toList,
        [⟨"00000010".toList, "FF".toList, "be8".toList⟩], [], []⟩] := by decide +kernel
  rw [hparse]
  refine ⟨_, List.mem_singleton.mpr rfl, by decide, _, List.mem_singleton.mpr rfl, by decide, ?_⟩
  intro yaml toInteger _
  exact not_accepted_be8 rfl

end Rpcsx.Artemis
