import Mathlib

namespace Rpcsx.Data.Blocks

variable {α σ : Type*} {n : Nat}

-- The first `n` entries of a list that has that many.
def head (l : List α) (h : n ≤ l.length) : Vector α n := ⟨(l.take n).toArray, by simp [h]⟩

-- Fold the whole blocks of `n` entries a list starts with into a state.
def absorb (process : σ → Vector α n → σ) (s : σ) (l : List α) : σ :=
  if h : 0 < n ∧ n ≤ l.length then
    absorb process (process s (head l h.2)) (l.drop n)
  else
    s
termination_by l.length
decreasing_by simp only [List.length_drop]; omega

-- What is behind the whole blocks.
def rest (n : Nat) (l : List α) : List α := l.drop (l.length / n * n)

theorem length_rest (l : List α) : (rest n l).length = l.length % n := by
  have hd := Nat.div_add_mod' l.length n
  simp only [rest, List.length_drop]
  omega

theorem rest_of_lt {l : List α} (h : l.length < n) : rest n l = l := by
  simp [rest, Nat.div_eq_of_lt h]

theorem rest_eq_nil {l : List α} (h : n ∣ l.length) : rest n l = [] := by
  apply List.eq_nil_of_length_eq_zero
  rw [length_rest, Nat.mod_eq_zero_of_dvd h]

theorem rest_append_of_length {block : List α} (hn : 0 < n) (h : block.length = n)
    (l : List α) : rest n (block ++ l) = rest n l := by
  have hq : (block ++ l).length / n * n = block.length + l.length / n * n := by
    rw [List.length_append, h, Nat.add_div_left _ hn, Nat.succ_mul]
    omega
  rw [rest, hq, List.drop_length_add_append, rest]

theorem absorb_of_lt (process : σ → Vector α n → σ) (s : σ) {l : List α} (h : l.length < n) :
    absorb process s l = s := by
  rw [absorb, dif_neg (by omega)]

theorem absorb_append_of_length (process : σ → Vector α n → σ) (s : σ) (hn : 0 < n)
    {block : List α} (h : block.length = n) (l : List α) :
    absorb process s (block ++ l) = absorb process (process s (head block h.ge)) l := by
  have hle : 0 < n ∧ n ≤ (block ++ l).length := ⟨hn, by simp [h]⟩
  have hhead : head (block ++ l) hle.2 = head block h.ge := by
    simp [head, List.take_append_of_le_length h.ge]
  rw [absorb, dif_pos hle, hhead, List.drop_append_of_le_length h.ge, List.drop_of_length_le h.le,
    List.nil_append]

-- A list of `n` entries or more is a block and what follows it.
theorem eq_append_of_le {l : List α} (h : n ≤ l.length) :
    (l.take n).length = n ∧ l = l.take n ++ l.drop n :=
  ⟨by simp [h], (List.take_append_drop n l).symm⟩

-- The induction over the whole blocks of a list, from its front.
theorem block_induction {motive : List α → Prop} (hn : 0 < n)
    (hshort : ∀ l, l.length < n → motive l)
    (hblock : ∀ block l, block.length = n → motive l → motive (block ++ l)) (l : List α) :
    motive l := by
  induction hl : l.length using Nat.strong_induction_on generalizing l with
  | _ k ih =>
    by_cases h : l.length < n
    · exact hshort l h
    · obtain ⟨htake, happ⟩ := eq_append_of_le (n := n) (l := l) (by omega)
      rw [happ]
      exact hblock _ _ htake (ih _ (by simp only [List.length_drop]; omega) _ rfl)

-- Absorbing can stop behind any list: only what it leaves over is kept.
theorem absorb_append (process : σ → Vector α n → σ) (hn : 0 < n) (l m : List α) (s : σ) :
    absorb process s (l ++ m) = absorb process (absorb process s l) (rest n l ++ m) := by
  induction l using block_induction hn generalizing s with
  | hshort l h => rw [absorb_of_lt process s h, rest_of_lt h]
  | hblock block l h ih =>
      rw [List.append_assoc, absorb_append_of_length process s hn h,
        absorb_append_of_length process s hn h, rest_append_of_length hn h, ih]

theorem rest_append (hn : 0 < n) (l m : List α) : rest n (l ++ m) = rest n (rest n l ++ m) := by
  induction l using block_induction hn with
  | hshort l h => rw [rest_of_lt h]
  | hblock block l h ih =>
      rw [List.append_assoc, rest_append_of_length hn h, rest_append_of_length hn h, ih]

end Rpcsx.Data.Blocks
