import Mathlib.Data.BitVec

namespace Rpcsx.Data.Mask

variable {n : Nat} {a b c : BitVec n}

-- The bits of one mask are set in the other.
def Within (a b : BitVec n) : Prop := ∀ k, a.getLsbD k = true → b.getLsbD k = true

-- No bit is set in both masks.
def Apart (a b : BitVec n) : Prop := ∀ k, a.getLsbD k = true → b.getLsbD k = false

theorem Within.refl : Within a a := fun _ hk => hk

theorem Within.trans (h : Within a b) (hb : Within b c) : Within a c :=
  fun k hk => hb k (h k hk)

theorem within_and_left : Within (a &&& b) a := by
  intro k hk
  rw [BitVec.getLsbD_and, Bool.and_eq_true] at hk
  exact hk.1

theorem within_or_left : Within a (a ||| b) := by
  intro k hk
  rw [BitVec.getLsbD_or, hk, Bool.true_or]

theorem zero_within : Within 0 a := by
  intro k hk
  rw [BitVec.ofNat_eq_ofNat, BitVec.getLsbD_zero] at hk
  cases hk

theorem and_eq_right_iff : b &&& a = a ↔ Within a b := by
  constructor
  · intro h k hk
    rw [← h] at hk
    exact within_and_left k hk
  · intro h
    apply BitVec.eq_of_getLsbD_eq
    intro k _
    rw [BitVec.getLsbD_and]
    cases ha : a.getLsbD k with
    | false => exact Bool.and_false _
    | true => rw [h k ha, Bool.and_true]

theorem and_eq_zero_iff : a &&& b = 0 ↔ Apart a b := by
  constructor
  · intro h k hk
    have hbit : (a &&& b).getLsbD k = false := by
      rw [h]
      exact BitVec.getLsbD_zero
    rw [BitVec.getLsbD_and, hk, Bool.true_and] at hbit
    exact hbit
  · intro h
    apply BitVec.eq_of_getLsbD_eq
    intro k _
    rw [BitVec.getLsbD_and]
    cases ha : a.getLsbD k with
    | false => simp
    | true => simp [h k ha]

theorem Apart.symm (h : Apart a b) : Apart b a := by
  intro k hk
  cases ha : a.getLsbD k with
  | false => rfl
  | true => rw [h k ha] at hk; cases hk

theorem getLsbD_remove (a b : BitVec n) (k : Nat) :
    (a &&& ~~~b).getLsbD k = (a.getLsbD k && !b.getLsbD k) := by
  rw [BitVec.getLsbD_and, BitVec.getLsbD_not]
  cases ha : a.getLsbD k with
  | false => rfl
  | true => rw [decide_eq_true (BitVec.lt_of_getLsbD ha), Bool.true_and]

-- Bits that are not in a mask may be taken away in front of it.
theorem Within.remove (h : Within a b) (hc : Apart a c) : Within a (b &&& ~~~c) := by
  intro k hk
  rw [getLsbD_remove, h k hk, hc k hk]
  rfl

end Rpcsx.Data.Mask
