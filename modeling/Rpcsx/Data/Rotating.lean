import Mathlib

-- Registers that are renamed instead of moved: in round `t` the name `i` stands for the
-- register `i - t`, so a round that writes one register shifts all the others by one name.
namespace Rpcsx.Data.Rotating

variable {α : Type*} {n : Nat}

-- The register that stands behind the name `i` in round `t`.
def name [NeZero n] (t : Nat) (i : Fin n) : Fin n := i - Fin.ofNat n t

variable [NeZero n]

@[simp] theorem name_zero (i : Fin n) : name 0 i = i := by
  simp [name]

theorem name_inj {t : Nat} {i j : Fin n} : name t i = name t j ↔ i = j := by
  simp [name, sub_left_inj]

theorem name_succ (t : Nat) (i : Fin n) : name (t + 1) (i + 1) = name t i := by
  have h : Fin.ofNat n (t + 1) = Fin.ofNat n t + 1 := by
    apply Fin.ext
    simp [Fin.val_add]
  rw [name, name, h, add_sub_add_right_eq_sub]

-- After a whole turn every name stands for its own register again.
theorem name_of_dvd {t : Nat} (h : n ∣ t) (i : Fin n) : name t i = i := by
  have h0 : Fin.ofNat n t = 0 := by
    apply Fin.ext
    simp [Nat.mod_eq_zero_of_dvd h]
  rw [name, h0, sub_zero]

-- What the names of round `t` stand for.
def view (t : Nat) (regs : Vector α n) (i : Fin n) : α := regs[name t i]

theorem view_set (t : Nat) (regs : Vector α n) (i j : Fin n) (x : α) :
    view t (regs.set (name t i) x) j = if i = j then x else view t regs j := by
  simp only [view, Fin.getElem_fin, Vector.getElem_set]
  by_cases h : i = j
  · simp [h]
  · have hne : (name t i).val ≠ (name t j).val := by
      intro heq
      exact h (name_inj.mp (Fin.ext heq))
    simp [h, hne]

-- The next round's name `i + 1` is this round's name `i`.
theorem view_succ (t : Nat) (regs : Vector α n) (i : Fin n) :
    view (t + 1) regs (i + 1) = view t regs i := by
  simp only [view, name_succ]

theorem view_of_dvd {t : Nat} (h : n ∣ t) (regs : Vector α n) (i : Fin n) :
    view t regs i = regs[i] := by
  simp only [view, name_of_dvd h]

end Rpcsx.Data.Rotating
