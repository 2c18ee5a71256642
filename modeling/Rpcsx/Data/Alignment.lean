import Mathlib.Data.Nat.Bitwise

namespace Rpcsx.Data.Alignment

variable {n k w : Nat}

-- The remainder and the quotient by a power of two as masks of a word of `w` bits.
theorem and_low (n k : Nat) : n &&& (2 ^ k - 1) = n % 2 ^ k := Nat.and_two_pow_sub_one_eq_mod n k

theorem and_high (hn : n < 2 ^ w) (hk : k ≤ w) :
    n &&& (2 ^ w - 1 - (2 ^ k - 1)) = n / 2 ^ k * 2 ^ k := by
  have hpow : 2 ^ w = 2 ^ k * 2 ^ (w - k) := by
    rw [← Nat.pow_add]
    congr 1
    omega
  have hmask : 2 ^ w - 1 - (2 ^ k - 1) = (2 ^ (w - k) - 1) * 2 ^ k := by
    have hone := Nat.one_le_two_pow (n := k)
    rw [hpow, Nat.sub_mul, Nat.one_mul, Nat.mul_comm (2 ^ (w - k))]
    omega
  apply Nat.eq_of_testBit_eq
  intro i
  rw [hmask, Nat.testBit_and, Nat.testBit_mul_two_pow, Nat.testBit_mul_two_pow,
    Nat.testBit_two_pow_sub_one, Nat.testBit_div_two_pow]
  by_cases hi : k ≤ i
  · have hindex : i - k + k = i := by omega
    rw [hindex]
    by_cases hw : i < w
    · have hlow : i - k < w - k := by omega
      simp [hi, hlow]
    · have hbit : n.testBit i = false :=
        Nat.testBit_lt_two_pow (hn.trans_le (Nat.pow_le_pow_right (by decide) (by omega)))
      simp [hbit]
  · simp [hi]

-- Rounding up in a word of `w` bits to a multiple of `align`.
def roundUp (w n align : Nat) : Nat :=
  (n + (align - 1)) % 2 ^ w &&& (2 ^ w - 1 - (align - 1))

theorem roundUp_eq (hk : k ≤ w) :
    roundUp w n (2 ^ k) = (n + (2 ^ k - 1)) % 2 ^ w / 2 ^ k * 2 ^ k :=
  and_high (Nat.mod_lt _ (Nat.two_pow_pos w)) hk

theorem roundUp_dvd (hk : k ≤ w) : 2 ^ k ∣ roundUp w n (2 ^ k) := by
  rw [roundUp_eq hk]
  exact Nat.dvd_mul_left ..

theorem le_roundUp (hk : k ≤ w) (hn : n + (2 ^ k - 1) < 2 ^ w) : n ≤ roundUp w n (2 ^ k) := by
  rw [roundUp_eq hk, Nat.mod_eq_of_lt hn]
  have hmod := Nat.mod_lt (n + (2 ^ k - 1)) (Nat.two_pow_pos k)
  have hdiv := Nat.div_add_mod (n + (2 ^ k - 1)) (2 ^ k)
  rw [Nat.mul_comm] at hdiv
  omega

-- A value that wraps around is rounded to zero.
theorem roundUp_of_overflow (hk : k ≤ w) (hn : n < 2 ^ w) (hover : 2 ^ w ≤ n + (2 ^ k - 1)) :
    roundUp w n (2 ^ k) = 0 := by
  have hle : 2 ^ k ≤ 2 ^ w := Nat.pow_le_pow_right (by decide) hk
  have hrest : (n + (2 ^ k - 1)) % 2 ^ w = n + (2 ^ k - 1) - 2 ^ w := by
    rw [Nat.mod_eq_sub_mod hover, Nat.mod_eq_of_lt (by omega)]
  rw [roundUp_eq hk, hrest, Nat.div_eq_of_lt (by omega), Nat.zero_mul]

theorem le_roundUp_of_ne_zero (hk : k ≤ w) (hn : n < 2 ^ w) (hne : roundUp w n (2 ^ k) ≠ 0) :
    n ≤ roundUp w n (2 ^ k) := by
  apply le_roundUp hk
  by_contra hover
  exact hne (roundUp_of_overflow hk hn (by omega))

-- Rounding up without a bound on the word.
def ceilTo (align n : Nat) : Nat := (n + (align - 1)) / align * align

section Ceil

variable {align m : Nat}

theorem ceilTo_dvd (align n : Nat) : align ∣ ceilTo align n := Nat.dvd_mul_left ..

theorem le_ceilTo (h : 0 < align) : n ≤ ceilTo align n := by
  have hmod := Nat.mod_lt (n + (align - 1)) h
  have hdiv := Nat.div_add_mod (n + (align - 1)) align
  rw [Nat.mul_comm] at hdiv
  simp only [ceilTo]
  omega

theorem ceilTo_lt (h : 0 < align) : ceilTo align n < n + align := by
  have hdiv := Nat.div_mul_le_self (n + (align - 1)) align
  simp only [ceilTo]
  omega

theorem ceilTo_le (h : 0 < align) (hm : align ∣ m) (hn : n ≤ m) : ceilTo align n ≤ m := by
  obtain ⟨i, rfl⟩ := hm
  have hlt : (n + (align - 1)) / align < i + 1 := by
    rw [Nat.div_lt_iff_lt_mul h, Nat.add_mul, Nat.one_mul, Nat.mul_comm i]
    omega
  rw [ceilTo, Nat.mul_comm align]
  exact Nat.mul_le_mul_right _ (Nat.le_of_lt_succ hlt)

theorem ceilTo_eq_of_between (h : 0 < align) (hle : n ≤ m) (hm : m ≤ ceilTo align n) :
    ceilTo align m = ceilTo align n :=
  Nat.le_antisymm (ceilTo_le h (ceilTo_dvd align n) hm)
    (ceilTo_le h (ceilTo_dvd align m) (hle.trans (le_ceilTo h)))

theorem roundUp_eq_ceilTo (hk : k ≤ w) (hn : ceilTo (2 ^ k) n < 2 ^ w) :
    roundUp w n (2 ^ k) = ceilTo (2 ^ k) n := by
  have hpos := Nat.two_pow_pos k
  have hle : n ≤ ceilTo (2 ^ k) n := le_ceilTo hpos
  -- the multiple below the bound is a whole step away from it
  have hstep : ceilTo (2 ^ k) n + 2 ^ k ≤ 2 ^ w := by
    have hdvd : 2 ^ k ∣ 2 ^ w - ceilTo (2 ^ k) n :=
      Nat.dvd_sub (Nat.pow_dvd_pow 2 hk) (ceilTo_dvd _ n)
    have hge := Nat.le_of_dvd (Nat.sub_pos_of_lt hn) hdvd
    omega
  rw [roundUp_eq hk, Nat.mod_eq_of_lt (by omega), ceilTo]

end Ceil

end Rpcsx.Data.Alignment
