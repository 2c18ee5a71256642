import Mathlib.Data.List.Basic

namespace Rpcsx.Data.Circular

variable {α : Type}

-- `memcpy` into the middle of a buffer.
def overwrite (buf : List α) (offset : Nat) (data : List α) : List α :=
  buf.take offset ++ data ++ buf.drop (offset + data.length)

theorem length_overwrite {buf data : List α} {offset : Nat}
    (h : offset + data.length ≤ buf.length) : (overwrite buf offset data).length = buf.length := by
  simp only [overwrite, List.length_append, List.length_take, List.length_drop]
  omega

theorem getElem?_overwrite {buf data : List α} {offset : Nat}
    (h : offset + data.length ≤ buf.length) (k : Nat) :
    (overwrite buf offset data)[k]? =
      if offset ≤ k ∧ k < offset + data.length then data[k - offset]? else buf[k]? := by
  have htake : (buf.take offset).length = offset := by
    rw [List.length_take]
    omega
  rw [overwrite, List.append_assoc]
  by_cases hlow : k < offset
  · rw [if_neg (by omega), List.getElem?_append_left (by omega), List.getElem?_take_of_lt hlow]
  · rw [List.getElem?_append_right (by omega), htake]
    by_cases hin : k - offset < data.length
    · rw [if_pos (by omega), List.getElem?_append_left hin]
    · rw [if_neg (by omega), List.getElem?_append_right (by omega), List.getElem?_drop]
      congr 1
      omega

-- A write and a read that go on at the start of the buffer when they reach its end.
def write (buf : List α) (offset : Nat) (data : List α) : List α :=
  if buf.length < offset + data.length then
    overwrite (overwrite buf offset (data.take (buf.length - offset))) 0
      (data.drop (buf.length - offset))
  else overwrite buf offset data

def read (buf : List α) (offset count : Nat) : List α :=
  if buf.length < offset + count then
    (buf.drop offset).take (buf.length - offset) ++ buf.take (count - (buf.length - offset))
  else (buf.drop offset).take count

theorem mod_of_lt_of_lt {a b n : Nat} (ha : a < n) (hb : b < n) :
    (a + b) % n = if a + b < n then a + b else a + b - n := by
  split
  · exact Nat.mod_eq_of_lt (by assumption)
  · rw [Nat.mod_eq_sub_mod (by omega), Nat.mod_eq_of_lt (by omega)]

section Bounds

variable {buf data : List α} {offset : Nat} (ho : offset < buf.length)

include ho

theorem length_write (hd : data.length ≤ buf.length) :
    (write buf offset data).length = buf.length := by
  rw [write]
  split
  · have hfirst : offset + (data.take (buf.length - offset)).length ≤ buf.length := by
      rw [List.length_take]
      omega
    have hlen := length_overwrite hfirst
    rw [length_overwrite, hlen]
    rw [hlen, List.length_drop]
    omega
  · exact length_overwrite (by omega)

theorem getElem?_write (hd : data.length ≤ buf.length) {j : Nat} (hj : j < buf.length) :
    (write buf offset data)[(offset + j) % buf.length]? =
      if j < data.length then data[j]? else buf[(offset + j) % buf.length]? := by
  rw [mod_of_lt_of_lt ho hj, write]
  by_cases hwrap : buf.length < offset + data.length
  · have hfirst : offset + (data.take (buf.length - offset)).length ≤ buf.length := by
      rw [List.length_take]
      omega
    have hlen := length_overwrite hfirst
    rw [if_pos hwrap, getElem?_overwrite (by rw [hlen, List.length_drop]; omega),
      getElem?_overwrite hfirst, List.length_take, List.length_drop, List.getElem?_drop,
      Nat.zero_add]
    by_cases hin : offset + j < buf.length
    · rw [if_pos hin, if_neg (by omega), if_pos (by omega), if_pos (by omega),
        List.getElem?_take_of_lt (by omega)]
      congr 1
      omega
    · rw [if_neg hin]
      by_cases hdata : j < data.length
      · rw [if_pos (by omega), if_pos hdata]
        congr 1
        omega
      · rw [if_neg (by omega), if_neg (by omega), if_neg hdata]
  · rw [if_neg hwrap, getElem?_overwrite (by omega)]
    by_cases hin : offset + j < buf.length
    · rw [if_pos hin]
      by_cases hdata : j < data.length
      · rw [if_pos (by omega), if_pos hdata]
        congr 1
        omega
      · rw [if_neg (by omega), if_neg hdata]
    · rw [if_neg hin, if_neg (by omega), if_neg (by omega)]

theorem length_read {count : Nat} (hc : count ≤ buf.length) : (read buf offset count).length = count := by
  rw [read]
  split
  · simp only [List.length_append, List.length_take, List.length_drop]
    omega
  · simp only [List.length_take, List.length_drop]
    omega

theorem getElem?_read {count j : Nat} (hc : count ≤ buf.length) (hj : j < count) :
    (read buf offset count)[j]? = buf[(offset + j) % buf.length]? := by
  rw [mod_of_lt_of_lt ho (by omega), read]
  by_cases hwrap : buf.length < offset + count
  · have hfirst : ((buf.drop offset).take (buf.length - offset)).length = buf.length - offset := by
      rw [List.length_take, List.length_drop]
      omega
    rw [if_pos hwrap]
    by_cases hin : offset + j < buf.length
    · rw [if_pos hin, List.getElem?_append_left (by omega), List.getElem?_take_of_lt (by omega),
        List.getElem?_drop]
    · rw [if_neg hin, List.getElem?_append_right (by omega), hfirst,
        List.getElem?_take_of_lt (by omega)]
      congr 1
      omega
  · rw [if_neg hwrap, if_pos (by omega), List.getElem?_take_of_lt hj, List.getElem?_drop]

end Bounds

end Rpcsx.Data.Circular
