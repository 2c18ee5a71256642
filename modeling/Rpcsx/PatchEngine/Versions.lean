import Rpcsx.PatchEngine
import Mathlib.Data.List.Basic
import Mathlib.Order.PiLex

namespace Rpcsx.PatchEngine

open Data

-- std::regex_match with "[0-9.]*"
def isVersionText (v : Text) : Bool := v.all fun c => c.isDigit || c = '.'

def digit (c : Char) : Int := c.toNat - '0'.toNat

-- `int`, in two's complement.
def toInt (n : Int) : Int := n.bmod (2 ^ 32)

-- The loop over the digits of one part.
def readPart (vnum : Int) : Text → Int × Text
  | [] => (vnum, [])
  | c :: rest => if c ≠ '.' then readPart (toInt (vnum * 10 + digit c)) rest else (vnum, c :: rest)

theorem readPart_length (vnum : Int) (v : Text) : (readPart vnum v).2.length ≤ v.length := by
  induction v generalizing vnum with
  | nil => simp [readPart]
  | cons c rest ih =>
      rw [readPart]
      split
      · have h := ih (toInt (vnum * 10 + digit c))
        rw [List.length_cons]
        omega
      · simp

theorem readPart_shorter (v : Text) : (((readPart 0 v).2.drop 1).length < v.length) ∨ v = [] := by
  cases v with
  | nil => exact Or.inr rfl
  | cons c rest =>
      left
      rw [readPart, List.length_drop, List.length_cons]
      split
      · have h := readPart_length (toInt (0 * 10 + digit c)) rest
        omega
      · simp

def compareLoop (v1 v2 : Text) : Int :=
  if h : v1 = [] ∧ v2 = [] then 0
  else
    let part1 := readPart 0 v1
    let part2 := readPart 0 v2
    if part1.1 > part2.1 then 1
    else if part2.1 > part1.1 then -1
    else compareLoop (part1.2.drop 1) (part2.2.drop 1)
termination_by v1.length + v2.length
decreasing_by
  have h1 := readPart_shorter v1
  have h2 := readPart_shorter v2
  rcases h1 with h1 | rfl
  · rcases h2 with h2 | rfl
    · omega
    · simp [readPart]
      simpa using h1
  · rcases h2 with h2 | rfl
    · simp [readPart]
      simpa using h2
    · exact absurd ⟨rfl, rfl⟩ h

-- The order of two versions, and whether both are versions.
def compareVersions (v1 v2 : Text) : Int × Bool :=
  if isVersionText v1 && isVersionText v2 then (compareLoop v1 v2, true) else (-1, false)

section Numbers

-- The parts of a version between the dots, and those that are missing.
def part (v : Text) (i : Nat) : Text := (v.splitOn '.').getD i []

def decimal (text : Text) : Int := text.foldl (fun n c => n * 10 + digit c) 0

-- The number of each part, and what an `int` holds of it.
def numbers (v : Text) : Lex (Nat → Int) := toLex fun i => decimal (part v i)

def ints (v : Text) : Lex (Nat → Int) := toLex fun i => toInt (decimal (part v i))

theorem foldl_toInt (text : Text) (n m : Int) (h : toInt n = toInt m) :
    toInt (text.foldl (fun n c => toInt (n * 10 + digit c)) n) =
      toInt (text.foldl (fun n c => n * 10 + digit c) m) := by
  induction text generalizing n m with
  | nil => exact h
  | cons c rest ih =>
      refine ih _ _ ?_
      simp only [toInt] at h ⊢
      rw [Int.bmod_bmod, ← Int.bmod_add_bmod, ← Int.bmod_mul_bmod, h, Int.bmod_mul_bmod,
        Int.bmod_add_bmod]

theorem foldl_fits (text : Text) {n : Int} (h : toInt n = n) :
    toInt (text.foldl (fun n c => toInt (n * 10 + digit c)) n) =
      text.foldl (fun n c => toInt (n * 10 + digit c)) n := by
  induction text generalizing n with
  | nil => exact h
  | cons c rest ih => exact ih Int.bmod_bmod

theorem readPart_eq (v : Text) (vnum : Int) :
    readPart vnum v = ((v.takeWhile (· ≠ '.')).foldl (fun n c => toInt (n * 10 + digit c)) vnum,
      v.dropWhile (· ≠ '.')) := by
  induction v generalizing vnum with
  | nil => rfl
  | cons c rest ih =>
      rw [readPart]
      by_cases hc : c ≠ '.'
      · rw [if_pos hc, ih, List.takeWhile_cons_of_pos (by simpa using hc),
          List.dropWhile_cons_of_pos (by simpa using hc)]
        rfl
      · rw [if_neg hc, List.takeWhile_cons_of_neg (by simpa using hc),
          List.dropWhile_cons_of_neg (by simpa using hc)]
        rfl

theorem splitOn_cases (v : Text) :
    (v.dropWhile (· ≠ '.') = [] ∧ v.splitOn '.' = [v.takeWhile (· ≠ '.')]) ∨
      ∃ rest, v.dropWhile (· ≠ '.') = '.' :: rest ∧
        v.splitOn '.' = v.takeWhile (· ≠ '.') :: rest.splitOn '.' := by
  have hv := List.takeWhile_append_dropWhile (p := fun c => decide (c ≠ '.')) (l := v)
  have hnot : '.' ∉ v.takeWhile (· ≠ '.') := by
    intro hmem
    simpa using List.mem_takeWhile_imp hmem
  cases hd : v.dropWhile (· ≠ '.') with
  | nil =>
      rw [hd, List.append_nil] at hv
      refine Or.inl ⟨rfl, ?_⟩
      rw [hv] at hnot ⊢
      exact List.splitOn_eq_singleton hnot
  | cons c rest =>
      have hc : c = '.' := by
        have h := List.head?_dropWhile_not (fun c => decide (c ≠ '.')) v
        rw [hd] at h
        simpa using h
      subst hc
      refine Or.inr ⟨rest, rfl, ?_⟩
      rw [hd] at hv
      conv_lhs => rw [← hv]
      exact List.splitOn_append_cons_self_of_not_mem hnot rest

theorem part_zero (v : Text) : part v 0 = v.takeWhile (· ≠ '.') := by
  rcases splitOn_cases v with ⟨-, h⟩ | ⟨rest, -, h⟩
  · rw [part, h]
    rfl
  · rw [part, h]
    rfl

theorem part_nil (i : Nat) : part [] i = [] := by
  cases i with
  | zero => rfl
  | succ i => rfl

theorem part_succ (v : Text) (i : Nat) :
    part v (i + 1) = part ((v.dropWhile (· ≠ '.')).drop 1) i := by
  rcases splitOn_cases v with ⟨hd, h⟩ | ⟨rest, hd, h⟩
  · rw [hd, List.drop_nil, part_nil, part, h]
    rfl
  · rw [hd, part, h]
    rfl

theorem ints_zero (v : Text) : (readPart 0 v).1 = ofLex (ints v) 0 := by
  have h0 : toInt 0 = 0 := by decide
  rw [readPart_eq, ints, ofLex_toLex, part_zero, decimal, ← foldl_toInt _ 0 0 rfl,
    foldl_fits _ h0]

theorem ints_succ (v : Text) (i : Nat) :
    ofLex (ints ((readPart 0 v).2.drop 1)) i = ofLex (ints v) (i + 1) := by
  rw [readPart_eq, ints, ints, ofLex_toLex, ofLex_toLex, part_succ]

theorem lt_of_head {x y : Lex (Nat → Int)} (h : ofLex x 0 < ofLex y 0) : x < y :=
  ⟨0, fun j hj => absurd hj (Nat.not_lt_zero j), h⟩

theorem lt_of_tail {x y : Lex (Nat → Int)} (h0 : ofLex x 0 = ofLex y 0)
    {x' y' : Lex (Nat → Int)} (hx : ∀ i, ofLex x' i = ofLex x (i + 1))
    (hy : ∀ i, ofLex y' i = ofLex y (i + 1)) (h : x' < y') : x < y := by
  obtain ⟨i, heq, hlt⟩ := h
  refine ⟨i + 1, fun j hj => ?_, ?_⟩
  · cases j with
    | zero => exact h0
    | succ j =>
        have hj' := heq j (by omega)
        rwa [show x' j = ofLex x (j + 1) from hx j, show y' j = ofLex y (j + 1) from hy j] at hj'
  · rwa [show x' i = ofLex x (i + 1) from hx i, show y' i = ofLex y (i + 1) from hy i] at hlt

-- The loop compares what an `int` holds of the parts, the first one first.
theorem compareLoop_cases (v1 v2 : Text) :
    (compareLoop v1 v2 = 1 ∧ ints v2 < ints v1) ∨ (compareLoop v1 v2 = -1 ∧ ints v1 < ints v2) ∨
      (compareLoop v1 v2 = 0 ∧ ints v1 = ints v2) := by
  fun_induction compareLoop v1 v2 with
  | case1 v1 v2 h =>
      obtain ⟨rfl, rfl⟩ := h
      exact Or.inr (Or.inr ⟨rfl, rfl⟩)
  | case2 v1 v2 h part1 part2 hgt =>
      refine Or.inl ⟨rfl, lt_of_head ?_⟩
      rw [← ints_zero, ← ints_zero]
      exact hgt
  | case3 v1 v2 h part1 part2 _ hlt =>
      refine Or.inr (Or.inl ⟨rfl, lt_of_head ?_⟩)
      rw [← ints_zero, ← ints_zero]
      exact hlt
  | case4 v1 v2 h part1 part2 hgt hlt ih =>
      have hhead : ofLex (ints v1) 0 = ofLex (ints v2) 0 := by
        rw [← ints_zero, ← ints_zero]
        exact le_antisymm (not_lt.mp hgt) (not_lt.mp hlt)
      rcases ih with ⟨he, h⟩ | ⟨he, h⟩ | ⟨he, h⟩
      · exact Or.inl ⟨he, lt_of_tail hhead.symm (ints_succ v2) (ints_succ v1) h⟩
      · exact Or.inr (Or.inl ⟨he, lt_of_tail hhead (ints_succ v1) (ints_succ v2) h⟩)
      · refine Or.inr (Or.inr ⟨he, ?_⟩)
        funext i
        cases i with
        | zero => exact hhead
        | succ i =>
            have hi := congrFun h i
            rwa [show ints _ i = _ from ints_succ v1 i, show ints _ i = _ from ints_succ v2 i] at hi

theorem compareLoop_pos_iff (v1 v2 : Text) : 0 < compareLoop v1 v2 ↔ ints v2 < ints v1 := by
  rcases compareLoop_cases v1 v2 with ⟨he, h⟩ | ⟨he, h⟩ | ⟨he, h⟩
  · rw [he]
    exact iff_of_true (by omega) h
  · rw [he]
    exact iff_of_false (by omega) (lt_asymm h)
  · rw [he, h]
    exact iff_of_false (by omega) (lt_irrefl _)

theorem compareLoop_eq_zero_iff (v1 v2 : Text) : compareLoop v1 v2 = 0 ↔ ints v1 = ints v2 := by
  rcases compareLoop_cases v1 v2 with ⟨he, h⟩ | ⟨he, h⟩ | ⟨he, h⟩
  · rw [he]
    exact iff_of_false (by omega) h.ne'
  · rw [he]
    exact iff_of_false (by omega) h.ne
  · rw [he]
    exact iff_of_true rfl h

-- An `int` holds the parts that are below 2^31.
theorem ints_eq_numbers {v : Text} (h : ∀ i, 0 ≤ ofLex (numbers v) i ∧ ofLex (numbers v) i < 2 ^ 31) :
    ints v = numbers v := by
  funext i
  obtain ⟨hle, hlt⟩ := h i
  rw [numbers, ofLex_toLex] at hle hlt
  show toInt (decimal (part v i)) = decimal (part v i)
  rw [toInt, Int.bmod_eq_of_le (by omega) (by omega)]

end Numbers

end Rpcsx.PatchEngine
