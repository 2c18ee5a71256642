import Mathlib.Tactic.IntervalCases
import Rpcsx.Rsx.TiledDma

namespace Rpcsx.Rsx.TiledDma

theorem mod_eq_of_bits {w n : Nat} {x y : BitVec w}
    (h : ∀ i < n, x.getLsbD i = y.getLsbD i) : x.toNat % 2 ^ n = y.toNat % 2 ^ n := by
  apply Nat.eq_of_testBit_eq
  intro i
  rw [Nat.testBit_mod_two_pow, Nat.testBit_mod_two_pow]
  cases Nat.lt_or_ge i n with
  | inl hlt => rw [← BitVec.getLsbD, h i hlt, BitVec.getLsbD]
  | inr hge => rw [decide_eq_false (Nat.not_lt.mpr hge), Bool.false_and, Bool.false_and]

-- The sum of two bits modulo 2.
theorem partitionSelector_bit (line address : BitVec 32) :
    (partitionSelector line address).getLsbD 0 = (line.getLsbD 2 ^^ address.getLsbD 6) := by
  simp only [partitionSelector, BitVec.getLsbD_and, BitVec.getLsbD_add (by decide : 0 < 32),
    BitVec.carry_zero]
  simp

section

variable (row bank line address : BitVec 32)

theorem buildAddress_row {i : Nat} (h : i < 16) :
    (buildAddress row bank line address).getLsbD (16 + i) = row.getLsbD i := by
  interval_cases i <;> simp [buildAddress]

theorem buildAddress_bank {i : Nat} (h : i < 2) :
    (buildAddress row bank line address).getLsbD (14 + i) = bank.getLsbD i := by
  interval_cases i <;> simp [buildAddress]

theorem buildAddress_line {i : Nat} (h : i < 3) :
    (buildAddress row bank line address).getLsbD (11 + i) = line.getLsbD (3 + i) := by
  interval_cases i <;> simp [buildAddress, columnSelector]

theorem buildAddress_middle {i : Nat} (h : i < 3) :
    (buildAddress row bank line address).getLsbD (8 + i) = address.getLsbD (5 + i) := by
  interval_cases i <;> simp [buildAddress, columnSelector]

theorem buildAddress_partition : (buildAddress row bank line address).getLsbD 7 =
    (line.getLsbD 2 ^^ address.getLsbD 6) := by
  rw [← partitionSelector_bit]
  simp [buildAddress, columnSelector]

theorem buildAddress_low {i : Nat} (h : i < 2) :
    (buildAddress row bank line address).getLsbD (5 + i) = line.getLsbD i := by
  interval_cases i <;> simp [buildAddress, columnSelector]

theorem buildAddress_byte {i : Nat} (h : i < 5) :
    (buildAddress row bank line address).getLsbD i = address.getLsbD i := by
  interval_cases i <;> simp [buildAddress, columnSelector]

end

section

variable (bank selector t : BitVec 32)

theorem twiddle_bit {i : Nat} (h : i < 32) (h9 : i ≠ 9) (h10 : i ≠ 10) :
    (twiddle10 (twiddle9 bank selector t)).getLsbD i = t.getLsbD i := by
  interval_cases i <;> first | contradiction | simp [twiddle10, twiddle9]

theorem twiddle_bit10 :
    (twiddle10 (twiddle9 bank selector t)).getLsbD 10 = (t.getLsbD 10 ^^ t.getLsbD 11) := by
  simp [twiddle10, twiddle9]

theorem twiddle_bit9 : (twiddle10 (twiddle9 bank selector t)).getLsbD 9 =
    (t.getLsbD 9 ^^ (t.getLsbD 12 ^^ (bank.getLsbD 0 ^^ selector.getLsbD 0) ^^ t.getLsbD 14)) := by
  simp [twiddle10, twiddle9]

end

def packed (row bank selector line address : BitVec 32) : BitVec 32 :=
  twiddle10 (twiddle9 bank selector (buildAddress row bank line address))

theorem packed_row (row bank selector line address : BitVec 32) :
    (packed row bank selector line address).toNat / 65536 = row.toNat % 65536 := by
  have hbits : ∀ i < 16, (packed row bank selector line address >>> 16).getLsbD i =
      row.getLsbD i := by
    intro i hi
    rw [BitVec.getLsbD_ushiftRight, packed, twiddle_bit _ _ _ (by omega) (by omega) (by omega),
      buildAddress_row _ _ _ _ hi]
  have hmod := mod_eq_of_bits hbits
  have hlt := (packed row bank selector line address).isLt
  rw [BitVec.toNat_ushiftRight, Nat.shiftRight_eq_div_pow] at hmod
  simp only [Nat.reducePow] at hmod hlt
  omega

section

variable {row bank selector line address row' bank' selector' line' address' : BitVec 32}

theorem buildAddress_of_packed
    (h : packed row bank selector line address = packed row' bank' selector' line' address')
    {i : Nat} (hi : i < 32) (h9 : i ≠ 9) (h10 : i ≠ 10) :
    (buildAddress row bank line address).getLsbD i =
      (buildAddress row' bank' line' address').getLsbD i := by
  have hbit := congrArg (fun t => t.getLsbD i) h
  simp only [packed] at hbit
  rwa [twiddle_bit _ _ _ hi h9 h10, twiddle_bit _ _ _ hi h9 h10] at hbit

theorem bank_of_packed
    (h : packed row bank selector line address = packed row' bank' selector' line' address')
    {i : Nat} (hi : i < 2) : bank.getLsbD i = bank'.getLsbD i := by
  have hbit := buildAddress_of_packed h (show 14 + i < 32 by omega) (by omega) (by omega)
  rwa [buildAddress_bank _ _ _ _ hi, buildAddress_bank _ _ _ _ hi] at hbit

theorem line_high_of_packed
    (h : packed row bank selector line address = packed row' bank' selector' line' address')
    {i : Nat} (hi : i < 3) : line.getLsbD (3 + i) = line'.getLsbD (3 + i) := by
  have hbit := buildAddress_of_packed h (show 11 + i < 32 by omega) (by omega) (by omega)
  rwa [buildAddress_line _ _ _ _ hi, buildAddress_line _ _ _ _ hi] at hbit

theorem line_low_of_packed
    (h : packed row bank selector line address = packed row' bank' selector' line' address')
    {i : Nat} (hi : i < 2) : line.getLsbD i = line'.getLsbD i := by
  have hbit := buildAddress_of_packed h (show 5 + i < 32 by omega) (by omega) (by omega)
  rwa [buildAddress_low _ _ _ _ hi, buildAddress_low _ _ _ _ hi] at hbit

theorem address_low_of_packed
    (h : packed row bank selector line address = packed row' bank' selector' line' address')
    {i : Nat} (hi : i < 5) : address.getLsbD i = address'.getLsbD i := by
  have hbit := buildAddress_of_packed h (show i < 32 by omega) (by omega) (by omega)
  rwa [buildAddress_byte _ _ _ _ hi, buildAddress_byte _ _ _ _ hi] at hbit

theorem address5_of_packed
    (h : packed row bank selector line address = packed row' bank' selector' line' address') :
    address.getLsbD 5 = address'.getLsbD 5 := by
  have hbit := buildAddress_of_packed h (show 8 + 0 < 32 by decide) (by decide) (by decide)
  rwa [buildAddress_middle _ _ _ _ (by decide), buildAddress_middle _ _ _ _ (by decide)] at hbit

-- Bit 10 of the packed address.
theorem address7_of_packed
    (h : packed row bank selector line address = packed row' bank' selector' line' address') :
    address.getLsbD 7 = address'.getLsbD 7 := by
  have hline := buildAddress_of_packed h (show 11 < 32 by decide) (by decide) (by decide)
  have hbit := congrArg (fun t => t.getLsbD 10) h
  simp only [packed, twiddle_bit10, hline] at hbit
  have hmiddle := Bool.xor_left_inj.mp hbit
  rwa [buildAddress_middle _ _ _ _ (show 2 < 3 by decide),
    buildAddress_middle _ _ _ _ (show 2 < 3 by decide)] at hmiddle

-- Bit 9 of the packed address also depends on the selector.
theorem address6_of_packed
    (h : packed row bank selector line address = packed row' bank' selector' line' address')
    (hselector : selector.getLsbD 0 = selector'.getLsbD 0) :
    address.getLsbD 6 = address'.getLsbD 6 := by
  have h12 := buildAddress_of_packed h (show 12 < 32 by decide) (by decide) (by decide)
  have h14 := buildAddress_of_packed h (show 14 < 32 by decide) (by decide) (by decide)
  have hbank := bank_of_packed h (show 0 < 2 by decide)
  have hbit := congrArg (fun t => t.getLsbD 9) h
  simp only [packed, twiddle_bit9, h12, h14, hbank, hselector] at hbit
  have hmiddle := Bool.xor_left_inj.mp hbit
  rwa [buildAddress_middle _ _ _ _ (show 1 < 3 by decide),
    buildAddress_middle _ _ _ _ (show 1 < 3 by decide)] at hmiddle

-- The partition gives back the bit of the line once the one of the address is known.
theorem line2_of_packed
    (h : packed row bank selector line address = packed row' bank' selector' line' address')
    (hselector : selector.getLsbD 0 = selector'.getLsbD 0) :
    line.getLsbD 2 = line'.getLsbD 2 := by
  have hbit := buildAddress_of_packed h (show 7 < 32 by decide) (by decide) (by decide)
  rw [buildAddress_partition, buildAddress_partition, address6_of_packed h hselector] at hbit
  exact Bool.xor_left_inj.mp hbit

theorem line_of_packed
    (h : packed row bank selector line address = packed row' bank' selector' line' address')
    (hselector : selector.getLsbD 0 = selector'.getLsbD 0) :
    line.toNat % 64 = line'.toNat % 64 := by
  have hbits : ∀ i < 6, line.getLsbD i = line'.getLsbD i := by
    intro i hi
    rcases Nat.lt_trichotomy i 2 with hlow | rfl | hhigh
    · exact line_low_of_packed h hlow
    · exact line2_of_packed h hselector
    · obtain ⟨j, rfl⟩ := Nat.exists_eq_add_of_le hhigh
      exact line_high_of_packed h (by omega)
  exact mod_eq_of_bits hbits

theorem address_of_packed
    (h : packed row bank selector line address = packed row' bank' selector' line' address')
    (hselector : selector.getLsbD 0 = selector'.getLsbD 0) :
    address.toNat % 256 = address'.toNat % 256 := by
  have hbits : ∀ i < 8, address.getLsbD i = address'.getLsbD i := by
    intro i hi
    cases Nat.lt_or_ge i 5 with
    | inl hlow => exact address_low_of_packed h hlow
    | inr hhigh =>
        obtain rfl | rfl | rfl : i = 5 ∨ i = 6 ∨ i = 7 := by omega
        · exact address5_of_packed h
        · exact address6_of_packed h hselector
        · exact address7_of_packed h
  exact mod_eq_of_bits hbits

-- The low bits of a packed address are those of the address.
theorem packed_byte (row bank selector line address : BitVec 32) :
    (packed row bank selector line address).toNat % 32 = address.toNat % 32 := by
  have hbits : ∀ i < 5, (packed row bank selector line address).getLsbD i = address.getLsbD i := by
    intro i hi
    rw [packed, twiddle_bit _ _ _ (by omega) (by omega) (by omega), buildAddress_byte _ _ _ _ hi]
  exact mod_eq_of_bits hbits

end

end Rpcsx.Rsx.TiledDma
