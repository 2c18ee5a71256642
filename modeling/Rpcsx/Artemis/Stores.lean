import Rpcsx.Artemis.Operations
import Rpcsx.Data.Bytes

namespace Rpcsx.Artemis

open Data Data.Hex Data.Text

-- The cells that bytes at an address take.
def cellsAt (address : Nat) (bytes : List Byte) : List (Nat × Byte) :=
  bytes.mapIdx fun index byte => (address + index, byte)

theorem cellsAt_append (address : Nat) (left right : List Byte) :
    cellsAt address (left ++ right) =
      cellsAt address left ++ cellsAt (address + left.length) right := by
  rw [cellsAt, List.mapIdx_append]
  simp only [cellsAt, Nat.add_assoc, Nat.add_comm left.length]

-- The width that a type names, in bytes.
def patchTypeWidth (patchType : Text) : Nat :=
  if patchType = "be8".toList then 1 else if patchType = "be16".toList then 2 else 4

namespace ArtemisWrite

def width (write : ArtemisWrite) : Nat := patchTypeWidth write.patchType

def target (write : ArtemisWrite) : Nat := hexValue write.address

-- The cells of a write, as a big-endian store of its width.
def cells (write : ArtemisWrite) : List (Nat × Byte) :=
  cellsAt write.target (Record.beBytes write.width (hexValue write.value))

end ArtemisWrite

-- The writes store the bytes of a value at an address and behind it, aligned and apart.
structure StoresValue (writes : List ArtemisWrite) (address : Nat) (value : Text) : Prop where
  cells : writes.flatMap ArtemisWrite.cells = cellsAt address (hexBytes value)
  aligned : ∀ write ∈ writes, write.target % write.width = 0
  apart : writes.Pairwise fun v w => v.target + v.width ≤ w.target

theorem patchTypeWidth_name : ∀ size ∈ [1, 2, 4], patchTypeWidth (patchTypeName size) = size := by
  decide

theorem uppercase_bytes {text : Text} (h : ∀ c ∈ text, isHexDigit c = true) :
    hexBytes (uppercase text) = hexBytes text := by
  fun_induction hexBytes text with
  | case1 high low rest ih =>
      have hrest := ih fun c hc => h c (by simp [hc])
      unfold uppercase at hrest ⊢
      simp only [List.map_cons, hexBytes, hrest, (toUpper_digit (h high (by simp))).1,
        (toUpper_digit (h low (by simp))).1]
  | case2 text hne =>
      cases text with
      | nil => rfl
      | cons high rest =>
          cases rest with
          | nil => rfl
          | cons low rest => exact absurd rfl (hne high low rest)

-- The write of one chunk.
def chunkWrite (size startAddress index : Nat) (chunk : Text) : ArtemisWrite :=
  { address := addressText (startAddress + index * size), value := chunk,
    patchType := patchTypeName size }

section Chunk

variable {size : Nat} (hs : size ∈ [1, 2, 4])
include hs

theorem chunkWrite_width (startAddress index : Nat) (chunk : Text) :
    (chunkWrite size startAddress index chunk).width = size := patchTypeWidth_name size hs

omit hs in
theorem chunkWrite_target (startAddress index : Nat) (chunk : Text) :
    (chunkWrite size startAddress index chunk).target = startAddress + index * size :=
  (addressText_spec _).1

theorem chunkWrite_cells (startAddress index : Nat) {chunk : Text}
    (hc : ∀ c ∈ chunk, isHexDigit c = true) (hl : chunk.length = size * 2) :
    (chunkWrite size startAddress index chunk).cells =
      cellsAt (startAddress + index * size) (hexBytes chunk) := by
  have hbytes := leBytes_hexValue size (by rw [hl, Nat.mul_comm]) hc
  rw [ArtemisWrite.cells, chunkWrite_width hs, chunkWrite_target, Record.beBytes]
  simp only [chunkWrite]
  rw [hbytes, List.reverse_reverse]

-- The chunks of a value in order, from the one with the given index on.
theorem chunks_cells (count : Nat) {startAddress : Nat} {value : Text}
    (hv : ∀ c ∈ value, isHexDigit c = true) (hl : value.length = count * (size * 2)) :
    ((chunked (size * 2) value).mapIdx (chunkWrite size startAddress)).flatMap
      ArtemisWrite.cells = cellsAt startAddress (hexBytes value) := by
  have hpos : size ≠ 0 := by
    rintro rfl
    simp at hs
  induction count generalizing startAddress value with
  | zero =>
      obtain rfl : value = [] := List.length_eq_zero_iff.mp (by omega)
      rw [chunked, if_pos (by simp)]
      rfl
  | succ count ih =>
      rw [Nat.succ_mul] at hl
      have hne : value ≠ [] := List.ne_nil_of_length_pos (by omega)
      have htake : (value.take (size * 2)).length = size * 2 := by
        rw [List.length_take]
        omega
      have hshift : (fun index chunk => chunkWrite size startAddress (index + 1) chunk) =
          chunkWrite size (startAddress + size) := by
        funext index chunk
        simp only [chunkWrite, Nat.succ_mul, Nat.add_assoc, Nat.add_comm size]
      have hdrop : (value.drop (size * 2)).length = count * (size * 2) := by
        rw [List.length_drop]
        omega
      have hrest : _ = cellsAt (startAddress + size) (hexBytes (value.drop (size * 2))) :=
        ih (fun c hc => hv c (List.mem_of_mem_drop hc)) hdrop
      rw [chunked, if_neg (by simp only [hne, or_false]; omega), List.mapIdx_cons, hshift,
        List.flatMap_cons, hrest,
        chunkWrite_cells hs _ _ (fun c hc => hv c (List.mem_of_mem_take hc)) htake]
      conv_rhs => rw [← List.take_append_drop (size * 2) value]
      rw [hexBytes_append (by omega), cellsAt_append, length_hexBytes, htake,
        Nat.mul_div_cancel _ (by decide), Nat.zero_mul, Nat.add_zero]

end Chunk

-- What the choice of the width promises.
theorem chunkBytes_spec (byteCount startAddress : Nat) :
    chunkBytes byteCount startAddress ∈ [1, 2, 4] ∧
      byteCount % chunkBytes byteCount startAddress = 0 ∧
      startAddress % chunkBytes byteCount startAddress = 0 := by
  unfold chunkBytes
  split
  · simp [Nat.mod_one]
  · split
    · next h => exact ⟨by simp, by rw [h.1], h.2⟩
    · split
      · next h => exact ⟨by simp, h.2.1, h.2.2⟩
      · split
        · next h => exact ⟨by simp, h.2.1, h.2.2⟩
        · simp [Nat.mod_one]

theorem staticWrites_store {address value : Text} {writes : List ArtemisWrite}
    (ha : ∀ c ∈ address, isHexDigit c = true) (hv : ∀ c ∈ value, isHexDigit c = true)
    (h : staticWritesForValue address value = some writes) :
    StoresValue writes (hexValue address) value := by
  obtain ⟨heven, hwrites⟩ := staticWrites_eq ha h
  obtain ⟨hs, hcount, haligned⟩ := chunkBytes_spec (value.length / 2) (hexValue address)
  generalize chunkBytes (value.length / 2) (hexValue address) = size at *
  replace hwrites : writes =
      (chunked (size * 2) (uppercase value)).mapIdx (chunkWrite size (hexValue address)) := hwrites
  have hupper : ∀ c ∈ uppercase value, isHexDigit c = true := isHexDigit_toUpper hv
  have hlen : (uppercase value).length = value.length / 2 / size * (size * 2) := by
    have hlength : (uppercase value).length = value.length := List.length_map _
    have hdiv := Nat.div_mul_cancel (Nat.dvd_of_mod_eq_zero hcount)
    rw [hlength, ← Nat.mul_assoc, hdiv]
    omega
  refine ⟨?_, ?_, ?_⟩
  · rw [hwrites, chunks_cells hs _ hupper hlen, uppercase_bytes hv]
  · intro write hmem
    rw [hwrites] at hmem
    obtain ⟨index, hi, rfl⟩ := List.mem_mapIdx.mp hmem
    rw [chunkWrite_target, chunkWrite_width hs, Nat.add_mul_mod_self_right]
    exact haligned
  · rw [hwrites, List.pairwise_iff_getElem]
    intro i j hi hj hij
    rw [List.getElem_mapIdx, List.getElem_mapIdx, chunkWrite_target, chunkWrite_target,
      chunkWrite_width hs]
    have hle : (i + 1) * size ≤ j * size := Nat.mul_le_mul_right size hij
    rw [Nat.succ_mul] at hle
    omega

-- The repetitions from the given index on.
theorem repeatWrites_store {startAddress step : Nat} {value : Text}
    (hv : ∀ c ∈ value, isHexDigit c = true) (count index : Nat) (writes : List ArtemisWrite)
    {result : List ArtemisWrite}
    (h : repeatWrites startAddress step value count index writes = some result) :
    ∃ parts : List (List ArtemisWrite), result = writes ++ parts.flatten ∧
      parts.length = count ∧ ∀ k part, parts[k]? = some part →
        StoresValue part (startAddress + step * (index + k)) value := by
  induction count generalizing index writes with
  | zero =>
      cases h
      exact ⟨[], by simp, rfl, by simp⟩
  | succ count ih =>
      rw [repeatWrites] at h
      obtain ⟨hvalue, haddr, -⟩ := addressText_spec (startAddress + step * index)
      cases hw : staticWritesForValue (addressText (startAddress + step * index)) value with
      | none => simp [hw] at h
      | some parsedWrites =>
          simp only [hw, Option.ite_none_left_eq_some] at h
          have hfirst := staticWrites_store haddr hv hw
          rw [hvalue] at hfirst
          obtain ⟨parts, hresult, hlength, hparts⟩ := ih (index + 1) _ h.2
          refine ⟨parsedWrites :: parts, by rw [hresult, List.flatten_cons, List.append_assoc],
            by rw [List.length_cons, hlength], ?_⟩
          intro k part hk
          cases k with
          | zero =>
              obtain rfl : parsedWrites = part := by simpa using hk
              exact hfirst
          | succ k =>
              have hrest := hparts k part (by simpa using hk)
              rwa [Nat.add_assoc, Nat.add_comm 1] at hrest

-- The writes of a fixed line, and those of a serial pair in the order of its repetitions.
theorem writes_store_value {address value : Text} (_hl : address.length = 8)
    (ha : ∀ c ∈ address, isHexDigit c = true) (hv : ∀ c ∈ value, isHexDigit c = true) :
    (∀ writes, staticWritesForValue address value = some writes →
      StoresValue writes (hexValue address) value) ∧
    ∀ addressStep count writes, addressStep.length = 8 →
      serialWrites address value addressStep count = some writes →
      ∃ parts : List (List ArtemisWrite), writes = parts.flatten ∧
        parts.length = hexValue count ∧ ∀ k part, parts[k]? = some part →
          StoresValue part (hexValue address + k * hexValue addressStep) value := by
  refine ⟨fun writes h => staticWrites_store ha hv h, ?_⟩
  intro addressStep count writes _ h
  unfold serialWrites at h
  split at h
  · next startAddress step repeatCount hstart hstep hcount =>
      rw [Option.ite_none_left_eq_some] at h
      obtain ⟨parts, hparts, hlength, hstores⟩ := repeatWrites_store hv _ _ _ h.2
      refine ⟨parts, by simpa using hparts, by rw [hlength, toNumberOrNull_eq hcount], ?_⟩
      intro k part hk
      have hpart := hstores k part hk
      rwa [toNumberOrNull_eq hstart, toNumberOrNull_eq hstep, Nat.zero_add, Nat.mul_comm] at hpart
  · cases h

theorem writes_store_value_odd : (∃ writes, staticWritesForValue "00000002".toList
      "12345678".toList = some writes ∧ StoresValue writes 2 "12345678".toList) ∧
    ∃ parts : List (List ArtemisWrite), serialWrites "00000002".toList "1234".toList
        "00000003".toList "00000002".toList = some parts.flatten ∧ parts.length = 2 ∧
      ∀ k part, parts[k]? = some part → StoresValue part (2 + k * 3) "1234".toList := by
  have hdigits : ∀ c ∈ "00000002".toList, isHexDigit c = true :=
    List.all_eq_true.mp (by decide)
  obtain ⟨hstatic, -⟩ := writes_store_value rfl hdigits
    (show ∀ c ∈ "12345678".toList, isHexDigit c = true from List.all_eq_true.mp (by decide))
  obtain ⟨-, hserial⟩ := writes_store_value rfl hdigits
    (show ∀ c ∈ "1234".toList, isHexDigit c = true from List.all_eq_true.mp (by decide))
  have hwrites : serialWrites "00000002".toList "1234".toList "00000003".toList
      "00000002".toList = some [⟨"00000002".toList, "1234".toList, "be16".toList⟩,
        ⟨"00000005".toList, "12".toList, "be8".toList⟩,
        ⟨"00000006".toList, "34".toList, "be8".toList⟩] := by decide +kernel
  obtain ⟨parts, hparts, hlength, hstores⟩ := hserial _ _ _ rfl hwrites
  refine ⟨⟨[⟨"00000002".toList, "1234".toList, "be16".toList⟩,
    ⟨"00000004".toList, "5678".toList, "be16".toList⟩], by decide +kernel,
    hstatic _ (by decide +kernel)⟩, parts, by rw [← hparts, hwrites], hlength, hstores⟩

end Rpcsx.Artemis
