import Mathlib

namespace Rpcsx.Data

abbrev Byte := Fin 256

instance neZero_byte : NeZero 256 := ⟨by decide⟩

namespace Bytes

def ascii (text : String) : List Byte := text.toList.map fun c => Fin.ofNat 256 c.toNat

-- Little-endian numbers of a fixed width.
def leBytes : Nat → Nat → List Byte
  | 0, _ => []
  | width + 1, value => Fin.ofNat 256 value :: leBytes width (value / 256)

def leValue : List Byte → Nat
  | [] => 0
  | b :: rest => b.val + 256 * leValue rest

@[simp] theorem length_leBytes (width value : Nat) : (leBytes width value).length = width := by
  induction width generalizing value with
  | zero => rfl
  | succ width ih => simp [leBytes, ih]

theorem leValue_leBytes (width value : Nat) :
    leValue (leBytes width value) = value % 256 ^ width := by
  induction width generalizing value with
  | zero => simp [leBytes, leValue, Nat.mod_one]
  | succ width ih =>
      simp only [leBytes, leValue, ih, Fin.val_ofNat]
      rw [Nat.pow_succ', Nat.mod_mul]

theorem leValue_lt (bytes : List Byte) : leValue bytes < 256 ^ bytes.length := by
  induction bytes with
  | nil => simp [leValue]
  | cons b rest ih =>
      simp only [leValue, List.length_cons, Nat.pow_succ]
      have := b.isLt
      omega

-- The bytes in front of the first NUL, as C reads them.
def cString (bytes : List Byte) : List Byte := bytes.takeWhile (· ≠ 0)

theorem cString_append {text : List Byte} (h : 0 ∉ text) (rest : List Byte) :
    cString (text ++ 0 :: rest) = text := by
  unfold cString
  rw [List.takeWhile_append_of_pos]
  · simp
  · intro b hb
    simp only [ne_eq, decide_eq_true_eq]
    rintro rfl
    exact h hb

def slice (bytes : List Byte) (offset count : Nat) : List Byte := (bytes.drop offset).take count

theorem length_slice (bytes : List Byte) (offset count : Nat) :
    (slice bytes offset count).length = min count (bytes.length - offset) := by
  simp [slice]

theorem slice_append (left middle right : List Byte) {offset count : Nat}
    (ho : offset = left.length) (hc : count = middle.length) :
    slice (left ++ (middle ++ right)) offset count = middle := by
  subst ho hc
  simp [slice]

theorem slice_front (left right : List Byte) {count : Nat} (h : count = left.length) :
    slice (left ++ right) 0 count = left := by
  have := slice_append [] left right (Eq.refl 0) h
  exact this

theorem slice_of_le_length {left right : List Byte} {offset count : Nat}
    (h : offset + count ≤ left.length) :
    slice (left ++ right) offset count = slice left offset count := by
  rw [slice, slice, List.drop_append_of_le_length (by omega),
    List.take_append_of_le_length (by rw [List.length_drop]; omega)]

section Field

variable {width offset count : Nat} (value : Nat) (rest : List Byte)

-- Fields of a record: the first one, and those behind it.
theorem slice_leBytes : slice (leBytes width value ++ rest) 0 width = leBytes width value := by
  have h := slice_append [] (leBytes width value) rest rfl (length_leBytes _ _).symm
  simpa using h

theorem slice_skip (h : width ≤ offset) :
    slice (leBytes width value ++ rest) offset count = slice rest (offset - width) count := by
  have hd : (leBytes width value).drop offset = [] := List.drop_of_length_le (by simpa using h)
  simp [slice, List.drop_append, hd]

end Field

end Bytes

end Rpcsx.Data

namespace Rpcsx.Data

open Bytes

-- A packed structure of big-endian fields, as the bytes it occupies.
structure Record (size : Nat) where
  bytes : List Byte
  length_eq : bytes.length = size
deriving DecidableEq

namespace Record

variable {size : Nat}

@[ext] theorem ext {left right : Record size} (h : left.bytes = right.bytes) : left = right := by
  cases left
  cases right
  cases h
  rfl

def beBytes (width value : Nat) : List Byte := (leBytes width value).reverse

def beValue (bytes : List Byte) : Nat := leValue bytes.reverse

@[simp] theorem length_beBytes (width value : Nat) : (beBytes width value).length = width := by
  rw [beBytes, List.length_reverse, length_leBytes]

def field (record : Record size) (offset width : Nat) : Nat :=
  beValue (slice record.bytes offset width)

-- A field that does not lie in the record is not written.
def setField (record : Record size) (offset width value : Nat) : Record size :=
  if h : offset + width ≤ size then
    ⟨record.bytes.take offset ++ (beBytes width value ++ record.bytes.drop (offset + width)), by
      simp only [List.length_append, List.length_take, List.length_drop, length_beBytes,
        record.length_eq]
      omega⟩
  else record

theorem setField_bytes (record : Record size) {offset width : Nat} (value : Nat)
    (h : offset + width ≤ size) :
    (record.setField offset width value).bytes =
      record.bytes.take offset ++ (beBytes width value ++ record.bytes.drop (offset + width)) := by
  rw [setField, dif_pos h]

theorem beValue_beBytes (width value : Nat) :
    beValue (beBytes width value) = value % 256 ^ width := by
  rw [beValue, beBytes, List.reverse_reverse, leValue_leBytes]

section Field

variable (record : Record size) {offset width : Nat} (value : Nat)

theorem field_setField (h : offset + width ≤ size) :
    (record.setField offset width value).field offset width = value % 256 ^ width := by
  have hlength := record.length_eq
  rw [field, setField_bytes record value h, slice_append (record.bytes.take offset)
    (beBytes width value) (record.bytes.drop (offset + width)), beValue_beBytes]
  · rw [List.length_take]
    omega
  · exact (length_beBytes width value).symm

-- The other fields stay.
theorem field_setField_of_apart {offset' width' : Nat}
    (h : offset' + width' ≤ offset ∨ offset + width ≤ offset') :
    (record.setField offset width value).field offset' width' = record.field offset' width' := by
  rw [setField]
  split_ifs with hfits
  · rw [field, field]
    congr 1
    have hlength := record.length_eq
    apply List.ext_getElem?
    intro i
    simp only [slice, List.getElem?_take, List.getElem?_drop]
    split_ifs with hi
    · rcases h with h | h
      · rw [List.getElem?_append_left (by rw [List.length_take]; omega),
          List.getElem?_take_of_lt (by omega)]
      · have htake : (record.bytes.take offset).length = offset := by
          rw [List.length_take]
          omega
        rw [List.getElem?_append_right (by omega), htake,
          List.getElem?_append_right (by rw [length_beBytes]; omega), length_beBytes,
          List.getElem?_drop]
        congr 1
        omega
    · rfl
  · rfl

theorem setField_setField (again : Nat) :
    (record.setField offset width value).setField offset width again =
      record.setField offset width again := by
  by_cases hfits : offset + width ≤ size
  · have hlength := record.length_eq
    have htake : (record.bytes.take offset).length = offset := by
      rw [List.length_take]
      omega
    apply ext
    rw [setField_bytes _ _ hfits, setField_bytes _ _ hfits, setField_bytes _ _ hfits,
      List.take_append_of_le_length htake.ge, List.take_take, Nat.min_self, List.drop_append, htake,
      Nat.add_sub_cancel_left, List.drop_append, length_beBytes, Nat.sub_self, List.drop_zero,
      List.drop_of_length_le (by omega), List.drop_of_length_le (by rw [length_beBytes]),
      List.nil_append, List.nil_append]
  · simp only [setField, dif_neg hfits]

end Field

-- Missing bytes are zeroes.
def ofBytes (size : Nat) (bytes : List Byte) : Record size :=
  ⟨bytes.take size ++ List.replicate (size - bytes.length) 0, by simp; omega⟩

theorem ofBytes_bytes {bytes : List Byte} (h : bytes.length = size) :
    (ofBytes size bytes).bytes = bytes := by
  subst h
  simp [ofBytes]

-- Records one behind the other.
def parse (size : Nat) : Nat → List Byte → List (Record size)
  | 0, _ => []
  | count + 1, bytes => ofBytes size (bytes.take size) :: parse size count (bytes.drop size)

def flatten (records : List (Record size)) : List Byte := records.flatMap bytes

@[simp] theorem flatten_cons (record : Record size) (rest : List (Record size)) :
    flatten (record :: rest) = record.bytes ++ flatten rest := rfl

@[simp] theorem length_flatten (records : List (Record size)) :
    (flatten records).length = size * records.length := by
  induction records with
  | nil => rfl
  | cons record rest ih =>
      rw [flatten_cons, List.length_append, record.length_eq, ih, List.length_cons, Nat.mul_succ]
      omega

@[simp] theorem length_parse (count : Nat) (bytes : List Byte) :
    (parse size count bytes).length = count := by
  induction count generalizing bytes with
  | zero => rfl
  | succ count ih => rw [parse, List.length_cons, ih]

theorem flatten_parse {count : Nat} {bytes : List Byte} (h : bytes.length = size * count) :
    flatten (parse size count bytes) = bytes := by
  induction count generalizing bytes with
  | zero => exact (List.length_eq_zero_iff.mp h).symm
  | succ count ih =>
      rw [Nat.mul_succ] at h
      rw [parse, flatten_cons, ih (by rw [List.length_drop]; omega), ofBytes_bytes,
        List.take_append_drop]
      rw [List.length_take]
      omega

theorem parse_flatten (records : List (Record size)) :
    parse size records.length (flatten records) = records := by
  induction records with
  | nil => rfl
  | cons record rest ih =>
      have hlen := record.length_eq
      rw [List.length_cons, flatten_cons, parse, List.take_append_of_le_length hlen.ge,
        List.drop_append_of_le_length hlen.ge, List.take_of_length_le hlen.le,
        List.drop_of_length_le hlen.le, List.nil_append, ih]
      congr 1
      exact ext (ofBytes_bytes hlen)

end Record

end Rpcsx.Data
