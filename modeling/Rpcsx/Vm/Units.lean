import Rpcsx.Vm.Blocks
import Rpcsx.Vm.PageProtect

namespace Rpcsx.Vm

open Data.Alignment Data.Runs

-- The pages of the unit that a page belongs to, by its size flags.
def unitPages (state : PageInfo) : Nat :=
  if state &&& page1mSize ≠ 0 then 0x100
  else if state &&& page64kSize ≠ 0 then 0x10
  else 1

theorem unitPages_pos (state : PageInfo) : 0 < unitPages state := by
  rw [unitPages]
  split_ifs <;> decide

-- The pages of a unit have the same flags.
def Uniform (pages : PageTable) : Prop :=
  ∀ p q, q / unitPages (pages p) = p / unitPages (pages p) → pages q = pages p

section Exact

variable {pages : PageTable}

theorem ceilTo_succ {unit : Nat} (h : 0 < unit) (n : Nat) :
    ceilTo unit (n + 1) = (n / unit + 1) * unit := by
  have hsum : n + 1 + (unit - 1) = n + unit := by omega
  rw [ceilTo, hsum, Nat.add_div_right n h]

theorem nextPage_eq (i : Nat) :
    nextPage pages i = (i / unitPages (pages i) + 1) * unitPages (pages i) := by
  rw [nextPage, unitPages]
  split_ifs
  · exact ceilTo_succ (by decide) i
  · exact ceilTo_succ (by decide) i
  · rw [Nat.div_one, Nat.mul_one]

-- Every page belongs to a page that is looked at.
theorem exists_looked {first p : Nat} (h : first ≤ p) :
    ∃ q, Looked pages first q ∧ q ≤ p ∧ p < nextPage pages q := by
  induction p, h using Nat.le_induction with
  | base => exact ⟨first, .first, Nat.le_refl _, lt_nextPage pages first⟩
  | succ p _ ih =>
      obtain ⟨q, hq, hle, hlt⟩ := ih
      rcases Nat.lt_or_ge (p + 1) (nextPage pages q) with hin | hout
      · exact ⟨q, hq, by omega, hin⟩
      · have hnext : nextPage pages q = p + 1 := by omega
        exact ⟨p + 1, hnext ▸ hq.next, Nat.le_refl _, lt_nextPage pages (p + 1)⟩

theorem div_eq_of_lt_nextPage {q p : Nat} (hle : q ≤ p) (hlt : p < nextPage pages q) :
    p / unitPages (pages q) = q / unitPages (pages q) := by
  have hpos := unitPages_pos (pages q)
  rw [nextPage_eq] at hlt
  have hupper := (Nat.div_lt_iff_lt_mul hpos).mpr hlt
  have hlower : q / unitPages (pages q) ≤ p / unitPages (pages q) := Nat.div_le_div_right hle
  omega

-- A page that a range of bytes meets.
def Meets (addr size page : Nat) : Prop := ∃ a, addr ≤ a ∧ a < addr + size ∧ a / pageSize = page

theorem meets_iff {addr size page : Nat} (h : 0 < size) : Meets addr size page ↔
    addr / pageSize ≤ page ∧ page ≤ (addr + size - 1) / pageSize := by
  constructor
  · rintro ⟨a, hle, hlt, rfl⟩
    exact ⟨Nat.div_le_div_right hle, Nat.div_le_div_right (by omega)⟩
  · rintro ⟨hfirst, hlast⟩
    refine ⟨max addr (page * pageSize), Nat.le_max_left _ _, ?_, ?_⟩
    · simp only [pageSize] at *
      omega
    · simp only [pageSize] at *
      omega

theorem checkAddr_exact (huniform : Uniform pages) {addr size : Nat} {flags : PageInfo}
    (haddr : addr < addressSpace) : checkAddr pages addr flags size ↔
      addr + size ≤ addressSpace ∧
        ∀ page, Meets addr size page → Has (flags ||| pageAllocated) (pages page) := by
  rw [checkAddr_iff]
  rcases Nat.eq_zero_or_pos size with rfl | hpos
  · simp only [true_or, true_iff]
    refine ⟨by omega, ?_⟩
    rintro page ⟨a, hle, hlt, -⟩
    omega
  · have hne : size ≠ 0 := by omega
    simp only [hne, false_or, meets_iff hpos]
    refine and_congr_right fun _ => ?_
    constructor
    · rintro h page ⟨hfirst, hlast⟩
      obtain ⟨q, hq, hle, hlt⟩ : ∃ q, Looked pages (addr / pageSize) q ∧ q ≤ page ∧
          page < nextPage pages q := exists_looked hfirst
      rw [huniform q page (div_eq_of_lt_nextPage hle hlt)]
      exact h q hq (by omega)
    · exact fun h q hq hle => h q ⟨hq.le, hle⟩

end Exact

section Protect

variable {old pages : PageTable} {flagsSet flagsClear : PageInfo} {first last : Nat}

theorem newFlags_and {bits state : PageInfo} (hset : flagsSet &&& bits = 0)
    (hclear : flagsClear &&& bits = 0) :
    newFlags flagsSet flagsClear state &&& bits = state &&& bits := by
  ext i hi
  have hset := congrArg (fun x => x[i]) hset
  have hclear := congrArg (fun x => x[i]) hclear
  simp [newFlags] at hset hclear ⊢
  grind

-- The flags that a page keeps while it is part of an allocation.
def unitFlags : PageInfo := page64kSize ||| page1mSize

theorem unitPages_newFlags {state : PageInfo} (hset : flagsSet &&& unitFlags = 0)
    (hclear : flagsClear &&& unitFlags = 0) :
    unitPages (newFlags flagsSet flagsClear state) = unitPages state := by
  rw [unitFlags, BitVec.and_or_distrib_left] at hset hclear
  obtain ⟨hset64k, hset1m⟩ := BitVec.or_eq_zero_iff.mp hset
  obtain ⟨hclear64k, hclear1m⟩ := BitVec.or_eq_zero_iff.mp hclear
  rw [unitPages, unitPages, newFlags_and hset64k hclear64k, newFlags_and hset1m hclear1m]

theorem skipped_congr {p q : Nat} (hfirst : first ≤ p) (hpq : p ≤ q)
    (heq : ∀ r, p ≤ r → r ≤ q → old r = old p) :
    Skipped old flagsSet flagsClear first last q ↔
      Skipped old flagsSet flagsClear first last p := by
  have hnew (r : Nat) (hp : p ≤ r) (hq : r ≤ q) : newPages old flagsSet flagsClear r =
      newPages old flagsSet flagsClear p := by
    rw [newPages, newPages, heq r hp hq]
  have hq := hnew q hpq (Nat.le_refl _)
  have hrun := runStart_eq_of_eq hfirst hpq hnew
  rw [Skipped, Skipped, hrun, hq]
  refine or_congr_right (and_congr_right fun _ => ?_)
  constructor
  · intro h later hp hlast
    rcases Nat.lt_or_ge later q with hlt | hge
    · exact hnew later hp (Nat.le_of_lt hlt)
    · exact h later hge hlast
  · exact fun h later hle hlast => h later (hpq.trans hle) hlast

namespace Protected

variable (h : Protected old flagsSet flagsClear first last pages)
  (hset : flagsSet &&& unitFlags = 0) (hclear : flagsClear &&& unitFlags = 0)

include h

theorem and_eq {bits : PageInfo} (hset : flagsSet &&& bits = 0) (hclear : flagsClear &&& bits = 0)
    (p : Nat) : pages p &&& bits = old p &&& bits := by
  by_cases hin : first ≤ p ∧ p < last
  · by_cases hskip : Skipped old flagsSet flagsClear first last p
    · rw [h.unchanged p hin.1 hin.2 hskip]
    · rw [h.changed p hin.1 hin.2 hskip, newPages, newFlags_and hset hclear]
  · rw [h.outside p (by omega)]

theorem eq_of_unit (huniform : Uniform old) {p q : Nat} (hpq : p ≤ q) (hp : first ≤ p)
    (hq : q < last) (hunit : q / unitPages (old p) = p / unitPages (old p)) :
    pages q = pages p := by
  have heq (r : Nat) (hle : p ≤ r) (hr : r ≤ q) : old r = old p := by
    apply huniform p r
    have hlower : p / unitPages (old p) ≤ r / unitPages (old p) := Nat.div_le_div_right hle
    have hupper : r / unitPages (old p) ≤ q / unitPages (old p) := Nat.div_le_div_right hr
    omega
  have hskip : Skipped old flagsSet flagsClear first last q ↔
      Skipped old flagsSet flagsClear first last p := skipped_congr hp hpq heq
  have hold := heq q hpq (Nat.le_refl _)
  by_cases hsk : Skipped old flagsSet flagsClear first last p
  · rw [h.unchanged p hp (by omega) hsk, h.unchanged q (by omega) hq (hskip.mpr hsk), hold]
  · rw [h.changed p hp (by omega) hsk, h.changed q (by omega) hq (mt hskip.mp hsk), newPages,
      newPages, hold]

include hset hclear

theorem unitPages_eq (p : Nat) : unitPages (pages p) = unitPages (old p) := by
  by_cases hin : first ≤ p ∧ p < last
  · by_cases hskip : Skipped old flagsSet flagsClear first last p
    · rw [h.unchanged p hin.1 hin.2 hskip]
    · rw [h.changed p hin.1 hin.2 hskip, newPages, unitPages_newFlags hset hclear]
  · rw [h.outside p (by omega)]

-- A call that covers whole units, and that leaves the size flags alone.
theorem uniform (huniform : Uniform old) (hwhole : ∀ p q, first ≤ p → p < last →
      q / unitPages (old p) = p / unitPages (old p) → first ≤ q ∧ q < last) : Uniform pages := by
  intro p q hunit
  rw [h.unitPages_eq hset hclear] at hunit
  have hold := huniform p q hunit
  by_cases hp : first ≤ p ∧ p < last
  · obtain ⟨hq, hq'⟩ := hwhole p q hp.1 hp.2 hunit
    rcases Nat.le_total p q with hle | hle
    · exact h.eq_of_unit huniform hle hp.1 hq' hunit
    · have hunit' : p / unitPages (old q) = q / unitPages (old q) := by rw [hold, hunit]
      exact (h.eq_of_unit huniform hle hq hp.2 hunit').symm
  · have hq : ¬(first ≤ q ∧ q < last) := by
      intro hq
      have hunit' : p / unitPages (old q) = q / unitPages (old q) := by rw [hold, hunit]
      exact hp (hwhole q p hq.1 hq.2 hunit')
    rw [h.outside p (by omega), h.outside q (by omega), hold]

end Protected

end Protect

end Rpcsx.Vm
