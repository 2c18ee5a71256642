import Rpcsx.Artemis.Operations

namespace Rpcsx.Artemis

open Data Data.Hex Data.Text

-- The name of a block that can become a cheat.
def blockName (rawBlock : Text) : Option Text :=
  (blockLines rawBlock).head?.bind fun first =>
    let name := trim isWhitespace (if first.head? = some '#' then first.tail else first)
    if isBlank name then none else some name

-- The state behind the code lines of a block.
def blockState (rawBlock : Text) : CodeState :=
  let state := (blockCode rawBlock).foldl CodeState.step {}
  if state.aobPatches = [] then state else state.refuse .aobParsed

theorem parseBlock_eq (rawBlock : Text) :
    parseBlock rawBlock = (blockName rawBlock).bind fun name =>
      if (blockState rawBlock).writes = [] ∧ (blockState rawBlock).unsupported = [] then none
      else some {
        name := name
        author := blockAuthor (blockLines rawBlock)
        writes := (blockState rawBlock).writes
        aobPatches := (blockState rawBlock).aobPatches
        unsupportedReasons := (blockState rawBlock).unsupported } := by
  unfold parseBlock blockName blockState
  cases blockLines rawBlock with
  | nil => rfl
  | cons first rest =>
      simp only [List.head?_cons, Option.bind_some]
      generalize trim isWhitespace (if first.head? = some '#' then first.tail else first) = name
      cases isBlank name <;> rfl

theorem refuse_writes (state : CodeState) (reason : UnsupportedReason) :
    (state.refuse reason).writes = state.writes := by
  unfold CodeState.refuse
  split <;> rfl

theorem blockState_writes (rawBlock : Text) : (blockState rawBlock).writes =
    ((blockCode rawBlock).foldl CodeState.step {}).writes := by
  unfold blockState
  dsimp only
  split
  · rfl
  · exact refuse_writes _ _

namespace CodeLine

def isSerialWrite : CodeLine → Bool
  | .serialWrite .. => true
  | _ => false

-- The number of writes of a code line on its own.
def writeCount (code : CodeLine) : Nat := (code.writes.getD []).length

-- The number of writes behind a code line. Only the writes of a fixed line are counted
-- against the limit together with the earlier ones.
def takenAfter (taken : Nat) (code : CodeLine) : Nat :=
  if code.isSerialWrite ∨ taken + code.writeCount ≤ maxStaticOpsPerCheat then
    taken + code.writeCount
  else taken

end CodeLine

-- No serial pair takes the writes of its block over the limit.
def SerialFits : Nat → List CodeLine → Prop
  | _, [] => True
  | taken, code :: rest =>
      (code.isSerialWrite = true → taken + code.writeCount ≤ maxStaticOpsPerCheat) ∧
        SerialFits (code.takenAfter taken) rest

theorem takenAfter_of_none (taken : Nat) {code : CodeLine} (h : code.writeCount = 0) :
    code.takenAfter taken = taken := by
  unfold CodeLine.takenAfter
  rw [h, Nat.add_zero, ite_self]

theorem step_length (state : CodeState) (code : CodeLine) :
    (state.step code).writes.length = code.takenAfter state.writes.length := by
  cases code with
  | fixedWrite address value =>
      cases hw : staticWritesForValue address value with
      | none =>
          rw [takenAfter_of_none _ (by simp [CodeLine.writeCount, CodeLine.writes, hw])]
          simp [CodeState.step, hw, refuse_writes]
      | some parsedWrites =>
          have hcount : (CodeLine.fixedWrite address value).writeCount = parsedWrites.length := by
            simp [CodeLine.writeCount, CodeLine.writes, hw]
          simp only [CodeState.step, hw, CodeLine.takenAfter, hcount, CodeLine.isSerialWrite]
          by_cases hl : maxStaticOpsPerCheat < state.writes.length + parsedWrites.length
          · rw [if_pos hl, refuse_writes, if_neg (by simp; omega)]
          · rw [if_neg hl, if_pos (by simp; omega), List.length_append]
  | serialWrite address value addressStep count =>
      cases hw : serialWrites address value addressStep count with
      | none =>
          rw [takenAfter_of_none _ (by simp [CodeLine.writeCount, CodeLine.writes, hw])]
          simp [CodeState.step, hw, refuse_writes]
      | some parsedWrites =>
          simp [CodeState.step, hw, CodeLine.takenAfter, CodeLine.isSerialWrite,
            CodeLine.writeCount, CodeLine.writes]
  | aobReplace searchPattern replacePattern =>
      rw [takenAfter_of_none _ rfl]
      simp only [CodeState.step]
      split
      · rfl
      · exact congrArg List.length (refuse_writes _ _)
  | comment | noCode => rw [takenAfter_of_none _ rfl, CodeState.step]
  | placeholder | serialIncomplete | aobUnsupported | unsupportedType =>
      rw [takenAfter_of_none _ rfl, CodeState.step, refuse_writes]

theorem run_length (codes : List CodeLine) (state : CodeState) :
    (codes.foldl CodeState.step state).writes.length =
      codes.foldl (fun taken code => code.takenAfter taken) state.writes.length := by
  induction codes generalizing state with
  | nil => rfl
  | cons code codes ih => rw [List.foldl_cons, List.foldl_cons, ih, step_length]

theorem le_run (codes : List CodeLine) (taken : Nat) :
    taken ≤ codes.foldl (fun taken code => code.takenAfter taken) taken := by
  induction codes generalizing taken with
  | nil => rfl
  | cons code codes ih =>
      have hstep : taken ≤ code.takenAfter taken := by
        unfold CodeLine.takenAfter
        split <;> omega
      exact hstep.trans (ih _)

-- Once over the limit, the writes stay there.
theorem run_le_iff (codes : List CodeLine) {taken : Nat} (h : taken ≤ maxStaticOpsPerCheat) :
    codes.foldl (fun taken code => code.takenAfter taken) taken ≤ maxStaticOpsPerCheat ↔
      SerialFits taken codes := by
  induction codes generalizing taken with
  | nil => exact iff_of_true h trivial
  | cons code codes ih =>
      rw [List.foldl_cons, SerialFits]
      by_cases hfits : taken + code.writeCount ≤ maxStaticOpsPerCheat
      · have hnext : code.takenAfter taken = taken + code.writeCount := if_pos (.inr hfits)
        rw [ih (by rw [hnext]; exact hfits)]
        simp [hfits]
      · cases hserial : code.isSerialWrite with
        | true =>
            have hnext : code.takenAfter taken = taken + code.writeCount := if_pos (.inl hserial)
            have hle := le_run codes (code.takenAfter taken)
            simp only [hfits, imp_false, not_true, false_and, iff_false]
            omega
        | false =>
            have hnext : code.takenAfter taken = taken := if_neg (by simp [hserial, hfits])
            rw [ih (by rw [hnext]; exact h)]
            simp

theorem blockWrites_le_iff (rawBlock : Text) :
    (blockState rawBlock).writes.length ≤ maxStaticOpsPerCheat ↔
      SerialFits 0 (blockCode rawBlock) := by
  rw [blockState_writes, run_length]
  exact run_le_iff _ (Nat.zero_le _)

theorem mem_parse {text rawBlock name : Text} (hmem : rawBlock ∈ nclBlocks text)
    (hname : blockName rawBlock = some name)
    (h : ¬((blockState rawBlock).writes = [] ∧ (blockState rawBlock).unsupported = [])) :
    ∃ cheat ∈ parse text, cheat.writes = (blockState rawBlock).writes := by
  refine ⟨⟨name, blockAuthor (blockLines rawBlock), (blockState rawBlock).writes,
    (blockState rawBlock).aobPatches, (blockState rawBlock).unsupported⟩,
    List.mem_filterMap.mpr ⟨rawBlock, hmem, ?_⟩, rfl⟩
  rw [parseBlock_eq, hname, Option.bind_some, if_neg h]

theorem parse_limit_iff (text : Text) :
    (∀ cheat ∈ parse text, cheat.writes.length ≤ maxStaticOpsPerCheat) ↔
      ∀ rawBlock ∈ nclBlocks text, (blockName rawBlock).isSome →
        SerialFits 0 (blockCode rawBlock) := by
  constructor
  · intro h rawBlock hmem hname
    obtain ⟨name, hname⟩ := Option.isSome_iff_exists.mp hname
    rw [← blockWrites_le_iff]
    by_cases hempty : (blockState rawBlock).writes = [] ∧ (blockState rawBlock).unsupported = []
    · rw [hempty.1]
      exact Nat.zero_le _
    · obtain ⟨cheat, hcheat, hwrites⟩ := mem_parse hmem hname hempty
      rw [← hwrites]
      exact h cheat hcheat
  · intro h cheat hcheat
    obtain ⟨rawBlock, hmem, hblock⟩ := List.mem_filterMap.mp hcheat
    rw [parseBlock_eq] at hblock
    obtain ⟨name, hname, hsome⟩ := Option.bind_eq_some_iff.mp hblock
    rw [Option.ite_none_left_eq_some] at hsome
    cases hsome.2
    exact (blockWrites_le_iff rawBlock).mpr (h rawBlock hmem (by simp [hname]))

-- Two pairs of 4096 bytes each

theorem toLongOrNull_addressText {address : Nat} (h : address < 2 ^ 63) :
    toLongOrNull (uppercase (addressText address)) = some address := by
  obtain ⟨hvalue, hhex, hne⟩ := addressText_spec address
  have hupper : hexValue (uppercase (addressText address)) = address := by
    rw [uppercase, hexValue_toUpper hhex, hvalue]
  have hall : (uppercase (addressText address)).all isHexDigit = true :=
    List.all_eq_true.mpr (isHexDigit_toUpper hhex)
  have hne' : uppercase (addressText address) ≠ [] := by simpa [uppercase] using hne
  rw [toLongOrNull, toNumberOrNull, hupper, if_pos ⟨hne', hall, h⟩]

theorem staticWrites_byte {address : Nat} (h : address < 2 ^ 63) {value : Text}
    (hl : value.length = 2) :
    ∃ write, staticWritesForValue (addressText address) value = some [write] := by
  obtain ⟨high, low, rfl⟩ := List.length_eq_two.mp hl
  refine ⟨⟨addressText (address + 0 * 1), uppercase [high, low], patchTypeName 1⟩, ?_⟩
  have hchunk : chunked (1 * 2) (uppercase [high, low]) = [uppercase [high, low]] := by
    rw [chunked, if_neg (by simp [uppercase]), chunked, if_pos (by simp [uppercase])]
    rfl
  simp only [staticWritesForValue, toLongOrNull_addressText h]
  have hsize : chunkBytes ((uppercase [high, low]).length / 2) address = 1 := by
    simp [uppercase, chunkBytes]
  rw [hsize, hchunk, if_neg (by simp [uppercase]), if_neg (by simp [maxStaticOpsPerCheat])]
  rfl

theorem repeatWrites_byte {startAddress step : Nat} {value : Text} (hl : value.length = 2)
    (count index : Nat) (writes : List ArtemisWrite)
    (hlimit : writes.length + count ≤ maxStaticOpsPerCheat)
    (hrange : startAddress + step * (index + count) < 2 ^ 63) :
    ∃ result, repeatWrites startAddress step value count index writes = some result ∧
      result.length = writes.length + count := by
  induction count generalizing index writes with
  | zero => exact ⟨writes, rfl, rfl⟩
  | succ count ih =>
      have hle : step * index ≤ step * (index + (count + 1)) := Nat.mul_le_mul_left _ (by omega)
      have haddress : startAddress + step * index < 2 ^ 63 := by omega
      obtain ⟨write, hwrite⟩ := staticWrites_byte haddress hl
      obtain ⟨result, hresult, hlength⟩ := ih (index + 1) (writes ++ [write])
        (by simp only [List.length_append, List.length_singleton]; omega)
        (by rwa [Nat.add_assoc, Nat.add_comm 1])
      refine ⟨result, ?_, by rw [hlength, List.length_append, List.length_singleton]; omega⟩
      rw [repeatWrites, hwrite]
      simp only
      rw [if_neg (by simp only [List.length_append, List.length_singleton]; omega), hresult]

theorem serialWrites_eq {address value addressStep count : Text} {startAddress step repeatCount : Nat}
    (hstart : toLongOrNull address = some startAddress)
    (hstep : toLongOrNull addressStep = some step) (hcount : toIntOrNull count = some repeatCount)
    (hpos : repeatCount ≠ 0) (hle : repeatCount ≤ maxStaticOpsPerCheat) :
    serialWrites address value addressStep count =
      repeatWrites startAddress step value repeatCount 0 [] := by
  simp only [serialWrites, hstart, hstep, hcount]
  exact if_neg (by omega)

theorem writes_serial_twice {address value addressStep count : Text} {writes : List ArtemisWrite}
    (h : serialWrites address value addressStep count = some writes) :
    ([CodeLine.serialWrite address value addressStep count,
      .serialWrite address value addressStep count].foldl CodeState.step {}).writes =
        writes ++ writes := by
  simp only [List.foldl_cons, List.foldl_nil, CodeState.step, h, List.nil_append]

def twoPairs : Text :=
  "Pairs\n4 00000000 00\n4 00000001 00001000\n4 00000000 00\n4 00000001 00001000".toList

theorem twoPairs_over_limit :
    ∃ cheat ∈ parse twoPairs, maxStaticOpsPerCheat < cheat.writes.length := by
  have hblocks : nclBlocks twoPairs = [twoPairs] := by decide +kernel
  have hname : blockName twoPairs = some "Pairs".toList := by decide +kernel
  have hcode : blockCode twoPairs =
      [.serialWrite "00000000".toList "00".toList "00000001".toList "00001000".toList,
        .serialWrite "00000000".toList "00".toList "00000001".toList "00001000".toList] := by
    decide +kernel
  have hbytes : ∃ result, repeatWrites 0 1 "00".toList 4096 0 [] = some result ∧
      result.length = 0 + 4096 := repeatWrites_byte rfl 4096 0 [] (by decide) (by decide)
  obtain ⟨result, hresult, hlength⟩ := hbytes
  have hstart : toLongOrNull "00000000".toList = some 0 := by decide
  have hstep : toLongOrNull "00000001".toList = some 1 := by decide
  have hcount : toIntOrNull "00001000".toList = some 4096 := by decide
  have hserial : serialWrites "00000000".toList "00".toList "00000001".toList
      "00001000".toList = some result := by
    rw [serialWrites_eq hstart hstep hcount (by decide) le_rfl, hresult]
  have hwrites : (blockState twoPairs).writes = result ++ result := by
    rw [blockState_writes, hcode, writes_serial_twice hserial]
  have hne : result ≠ [] := List.ne_nil_of_length_pos (by omega)
  have hmem : twoPairs ∈ nclBlocks twoPairs := hblocks ▸ List.mem_cons_self
  obtain ⟨cheat, hcheat, heq⟩ := mem_parse hmem hname fun h => hne (by
    rw [hwrites] at h
    exact (List.append_eq_nil_iff.mp h.1).1)
  refine ⟨cheat, hcheat, ?_⟩
  rw [heq, hwrites, List.length_append, hlength]
  unfold maxStaticOpsPerCheat
  omega

end Rpcsx.Artemis
