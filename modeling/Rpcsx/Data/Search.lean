import Mathlib.Data.List.Basic
import Mathlib.Data.List.Infix

namespace Rpcsx.Data.Search

variable {α ε : Type}

section Find

variable [DecidableEq α]

-- Where a pattern occurs first.
def find (pattern : List α) : List α → Option Nat
  | [] => if pattern = [] then some 0 else none
  | x :: rest => if pattern <+: x :: rest then some 0 else (find pattern rest).map (· + 1)

def contains (pattern text : List α) : Bool := (find pattern text).isSome

theorem find_some {pattern text : List α} {index : Nat} (h : find pattern text = some index) :
    pattern <+: text.drop index := by
  induction text generalizing index with
  | nil =>
      simp only [find, Option.ite_none_right_eq_some, Option.some.injEq] at h
      rw [h.1]
      exact List.nil_prefix
  | cons x rest ih =>
      rw [find] at h
      split at h
      · next hp =>
          cases h
          exact hp
      · obtain ⟨inner, hinner, rfl⟩ := Option.map_eq_some_iff.mp h
        exact ih hinner

theorem contains_iff {pattern text : List α} : contains pattern text = true ↔ pattern <:+: text := by
  unfold contains
  induction text with
  | nil => simp [find]
  | cons x rest ih =>
      rw [find, List.infix_cons_iff]
      split
      · next hp => simp [hp]
      · next hp => simpa [hp] using ih

end Find

-- Substitution of every match, from the left: matchAt gives the length of a match at the
-- front of a text. An empty match lets the next character through.
def replaceAll (matchAt : List α → Option Nat) (expand : List α → Except ε (List α)) :
    List α → Except ε (List α)
  | [] =>
      match matchAt [] with
      | some _ => expand []
      | none => .ok []
  | x :: rest =>
      match matchAt (x :: rest) with
      | some (length + 1) => do
          let replacement ← expand ((x :: rest).take (length + 1))
          let behind ← replaceAll matchAt expand (rest.drop length)
          return replacement ++ behind
      | some 0 => do
          let replacement ← expand []
          let behind ← replaceAll matchAt expand rest
          return replacement ++ x :: behind
      | none => do
          let behind ← replaceAll matchAt expand rest
          return x :: behind
termination_by text => text.length
decreasing_by
  · simp only [List.length_drop, List.length_cons]
    omega
  · simp
  · simp

-- A text in which the middle part is the only match.
structure SoleMatch (matchAt : List α → Option Nat) (left middle right : List α) : Prop where
  middle_ne : middle ≠ []
  no_earlier : ∀ i < left.length, matchAt ((left ++ (middle ++ right)).drop i) = none
  match_middle : matchAt (middle ++ right) = some middle.length
  no_later : ∀ i ≤ right.length, matchAt (right.drop i) = none

section ReplaceAll

variable {matchAt : List α → Option Nat} (expand : List α → Except ε (List α))

theorem replaceAll_skip {left : List α} (right : List α)
    (h : ∀ i < left.length, matchAt ((left ++ right).drop i) = none) :
    replaceAll matchAt expand (left ++ right) =
      (replaceAll matchAt expand right).map (left ++ ·) := by
  induction left with
  | nil =>
      rw [List.nil_append]
      cases replaceAll matchAt expand right <;> rfl
  | cons x left ih =>
      have hfirst : matchAt (x :: (left ++ right)) = none := h 0 (by simp)
      have ih' := ih fun i hi => h (i + 1) (by simpa using hi)
      rw [List.cons_append, replaceAll, hfirst]
      simp only [ih']
      cases replaceAll matchAt expand right <;> rfl

theorem replaceAll_none {text : List α} (h : ∀ i ≤ text.length, matchAt (text.drop i) = none) :
    replaceAll matchAt expand text = .ok text := by
  have hnil : matchAt [] = none := by
    have := h text.length (Nat.le_refl _)
    rwa [List.drop_length] at this
  have hearlier : ∀ i < text.length, matchAt ((text ++ []).drop i) = none := by
    intro i hi
    rw [List.append_nil]
    exact h i (Nat.le_of_lt hi)
  have hskip := replaceAll_skip expand [] hearlier
  rw [List.append_nil] at hskip
  rw [hskip, replaceAll, hnil]
  simp [Except.map]

theorem replaceAll_soleMatch {left middle right : List α}
    (h : SoleMatch matchAt left middle right) :
    replaceAll matchAt expand (left ++ (middle ++ right)) =
      (expand middle).map fun replacement => left ++ (replacement ++ right) := by
  obtain ⟨x, rest, rfl⟩ := List.exists_cons_of_ne_nil h.middle_ne
  have hmatch := h.match_middle
  rw [replaceAll_skip expand _ h.no_earlier]
  rw [List.cons_append] at hmatch ⊢
  rw [replaceAll, hmatch]
  have htake : (x :: (rest ++ right)).take (rest.length + 1) = x :: rest := by simp
  have hdrop : (rest ++ right).drop rest.length = right := by simp
  simp only [List.length_cons, htake, hdrop, replaceAll_none expand h.no_later]
  cases expand (x :: rest) <;> rfl

end ReplaceAll

end Rpcsx.Data.Search
