import Mathlib.Data.List.Basic
import Mathlib.Data.List.Nodup
import Mathlib.Logic.Function.Basic

namespace Rpcsx.Data

-- A node of a singly linked list in memory. Address 0 is the null pointer.
structure Item (α : Type) where
  data : α
  link : Nat
deriving DecidableEq

abbrev Heap (α : Type) := Nat → Option (Item α)

variable {α : Type} {heap : Heap α} {p : Nat} {l : List (Nat × α)}

-- The nodes that the links lead through, each with its address.
inductive Chain (heap : Heap α) : Nat → List (Nat × α) → Prop where
  | nil : Chain heap 0 []
  | cons {p link : Nat} {x : α} {l : List (Nat × α)} : p ≠ 0 → heap p = some ⟨x, link⟩ →
      Chain heap link l → Chain heap p ((p, x) :: l)

namespace Chain

theorem null (h : Chain heap 0 l) : l = [] := by
  cases h with
  | nil => rfl
  | cons hp => exact absurd rfl hp

theorem cons_of_ne (h : Chain heap p l) (hp : p ≠ 0) :
    ∃ x link rest, l = (p, x) :: rest ∧ heap p = some ⟨x, link⟩ ∧ Chain heap link rest := by
  cases h with
  | nil => exact absurd rfl hp
  | cons _ hitem hrest => exact ⟨_, _, _, rfl, hitem, hrest⟩

theorem allocated (h : Chain heap p l) {a : Nat} (ha : a ∈ l.map Prod.fst) : heap a ≠ none := by
  induction h with
  | nil => cases ha
  | cons _ hitem _ ih =>
      rcases List.mem_cons.mp ha with rfl | hrest
      · rw [hitem]
        nofun
      · exact ih hrest

-- A node that is not of the chain can be written, made and freed.
theorem update (h : Chain heap p l) {a : Nat} (ha : a ∉ l.map Prod.fst) (v : Option (Item α)) :
    Chain (Function.update heap a v) p l := by
  induction h with
  | nil => exact .nil
  | cons hp hitem _ ih =>
      obtain ⟨hne, hrest⟩ := not_or.mp (mt List.mem_cons.mpr ha)
      exact .cons hp (by rw [Function.update_of_ne (Ne.symm hne), hitem]) (ih hrest)

end Chain

end Rpcsx.Data
