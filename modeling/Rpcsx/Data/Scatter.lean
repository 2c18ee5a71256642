import Mathlib.Data.List.Pairwise
import Mathlib.Data.List.Nodup

namespace Rpcsx.Data

variable {α : Type*}

-- `n` cells of `src` from `s` on are put into `dst` from `d` on.
def copyCells (n : Nat) (src dst : Nat → α) (d s : Nat) : Nat → α :=
  fun a => if d ≤ a ∧ a < d + n then src (s + (a - d)) else dst a

theorem copyCells_apply {n : Nat} {src dst : Nat → α} {d s i : Nat} (h : i < n) :
    copyCells n src dst d s (d + i) = src (s + i) := by
  rw [copyCells, if_pos ⟨Nat.le_add_right d i, Nat.add_lt_add_left h d⟩, Nat.add_sub_cancel_left]

theorem copyCells_outside {n : Nat} {src dst : Nat → α} {d s a : Nat}
    (h : a < d ∨ d + n ≤ a) : copyCells n src dst d s a = dst a := by
  rw [copyCells, if_neg (by omega)]

-- The pairs (destination, source) are copied one after the other.
def copyAll (n : Nat) (src : Nat → α) (l : List (Nat × Nat)) (dst : Nat → α) : Nat → α :=
  l.foldl (fun dst p => copyCells n src dst p.1 p.2) dst

-- The cells of two destinations are disjoint.
def CellsApart (n a b : Nat) : Prop := a + n ≤ b ∨ b + n ≤ a

theorem cellsApart_of_dvd {n a b : Nat} (ha : n ∣ a) (hb : n ∣ b) (h : a ≠ b) :
    CellsApart n a b := by
  obtain ⟨i, rfl⟩ := ha
  obtain ⟨j, rfl⟩ := hb
  rcases Nat.lt_trichotomy i j with hlt | rfl | hgt
  · exact Or.inl (Nat.mul_le_mul_left n hlt)
  · exact absurd rfl h
  · exact Or.inr (Nat.mul_le_mul_left n hgt)

theorem copyAll_outside {n : Nat} {src : Nat → α} {l : List (Nat × Nat)} {dst : Nat → α} {a : Nat}
    (h : ∀ p ∈ l, a < p.1 ∨ p.1 + n ≤ a) : copyAll n src l dst a = dst a := by
  induction l generalizing dst with
  | nil => rfl
  | cons p l ih =>
      rw [copyAll, List.foldl_cons, ← copyAll, ih fun q hq => h q (List.mem_cons_of_mem p hq)]
      exact copyCells_outside (h p List.mem_cons_self)

theorem copyAll_apply {n : Nat} {src : Nat → α} {l : List (Nat × Nat)} {dst : Nat → α}
    (hl : l.Pairwise fun p q => CellsApart n p.1 q.1) {p : Nat × Nat} (hp : p ∈ l) {i : Nat}
    (hi : i < n) : copyAll n src l dst (p.1 + i) = src (p.2 + i) := by
  induction l generalizing dst with
  | nil => cases hp
  | cons q l ih =>
      obtain ⟨hq, hrest⟩ := List.pairwise_cons.mp hl
      rw [copyAll, List.foldl_cons, ← copyAll]
      cases List.mem_cons.mp hp with
      | inl heq =>
          subst heq
          rw [copyAll_outside]
          · exact copyCells_apply hi
          · intro r hr
            have hapart := hq r hr
            simp only [CellsApart] at hapart
            omega
      | inr hmem => exact ih hrest hmem

-- What was put in place comes back when the pairs are turned around.
theorem copyAll_swap {n : Nat} {src dst back : Nat → α} {l : List (Nat × Nat)}
    (hl : l.Pairwise fun p q => CellsApart n p.1 q.1) (hswap : l.Pairwise fun p q => CellsApart n p.2 q.2)
    {p : Nat × Nat} (hp : p ∈ l) {i : Nat} (hi : i < n) :
    copyAll n (copyAll n src l dst) (l.map Prod.swap) back (p.2 + i) = src (p.2 + i) := by
  have hback : (l.map Prod.swap).Pairwise fun p q => CellsApart n p.1 q.1 :=
    List.pairwise_map.mpr hswap
  have hget : copyAll n (copyAll n src l dst) (l.map Prod.swap) back (p.swap.1 + i) =
      copyAll n src l dst (p.swap.2 + i) := copyAll_apply hback (List.mem_map_of_mem hp) hi
  exact hget.trans (copyAll_apply hl hp hi)

end Rpcsx.Data
