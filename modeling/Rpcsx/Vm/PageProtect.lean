import Rpcsx.Data.Runs
import Rpcsx.Vm

namespace Rpcsx.Vm

open Data.Runs

section Loop

variable (old : PageTable) (flagsSet flagsClear : PageInfo) (first last : Nat)

def newPages : PageTable := fun page => newFlags flagsSet flagsClear (old page)

-- A page is skipped when the first page of its run has the new flags already, and when its run is
-- the last one and has the value that stands for no value.
def Skipped (page : Nat) : Prop :=
  old (runStart (newPages old flagsSet flagsClear) first page) =
      newPages old flagsSet flagsClear page ∨
    newPages old flagsSet flagsClear page = pageExecutable ∧ ∀ later, page ≤ later → later < last →
      newPages old flagsSet flagsClear later = newPages old flagsSet flagsClear page

-- The pages in front of `start` are done; the ones from there on up to `i` are a run so far.
structure Progress (i start : Nat) (startValue : PageInfo) (pages : PageTable) : Prop where
  first_le : first ≤ start
  start_le : start ≤ i
  le_last : start ≤ last
  run : ∀ page, start ≤ page → page < i → page < last →
    newPages old flagsSet flagsClear page = startValue
  boundary : start = first ∨ newPages old flagsSet flagsClear (start - 1) ≠ startValue
  fresh : start = i → i = first ∧ startValue = pageExecutable
  ended : last < i → start < last → startValue = pageExecutable
  unchanged : ∀ page, first ≤ page → page < start → Skipped old flagsSet flagsClear first last page →
    pages page = old page
  changed : ∀ page, first ≤ page → page < start → ¬Skipped old flagsSet flagsClear first last page →
    pages page = newPages old flagsSet flagsClear page
  outside : ∀ page, page < first ∨ start ≤ page → pages page = old page

-- The table after the loop.
structure Protected (pages : PageTable) : Prop where
  unchanged : ∀ page, first ≤ page → page < last → Skipped old flagsSet flagsClear first last page →
    pages page = old page
  changed : ∀ page, first ≤ page → page < last → ¬Skipped old flagsSet flagsClear first last page →
    pages page = newPages old flagsSet flagsClear page
  outside : ∀ page, page < first ∨ last ≤ page → pages page = old page

variable {old flagsSet flagsClear first last} {i start : Nat} {startValue : PageInfo}
  {pages : PageTable}

-- What the loop compares with the run at page `i`, the end of the range included.
def valueAt (old : PageTable) (flagsSet flagsClear : PageInfo) (last i : Nat) : PageInfo :=
  if i < last then newPages old flagsSet flagsClear i else pageExecutable

namespace Progress

variable (h : Progress old flagsSet flagsClear first last i start startValue pages)

include h

theorem skipped_iff (hi : i ≤ last) (hne : valueAt old flagsSet flagsClear last i ≠ startValue)
    {page : Nat} (hstart : start ≤ page) (hpage : page < i) :
    Skipped old flagsSet flagsClear first last page ↔ old start = startValue := by
  have hvalue := h.run page hstart hpage (by omega)
  have hrun : runStart (newPages old flagsSet flagsClear) first page = start := by
    apply runStart_eq h.first_le hstart
    · intro y hy hyx
      rw [h.run y hy (by omega) (by omega), hvalue]
    · rw [hvalue]
      exact h.boundary
  rw [Skipped, hrun, hvalue, or_iff_left]
  rintro ⟨rfl, hlater⟩
  rw [valueAt] at hne
  split_ifs at hne with hlt
  · exact hne (hlater i (by omega) hlt)
  · exact hne rfl

-- A run has ended at page `i`.
theorem flush (hi : i ≤ last) (hne : valueAt old flagsSet flagsClear last i ≠ startValue) :
    Progress old flagsSet flagsClear first last (i + 1) i (valueAt old flagsSet flagsClear last i)
      (if i - start ≠ 0 ∧ pages start ≠ startValue then fill pages start i startValue
        else pages) := by
  have hle := h.start_le
  have hfirst := h.first_le
  have hfill (page : Nat) (hpage : page < start ∨ i ≤ page) :
      (if i - start ≠ 0 ∧ pages start ≠ startValue then fill pages start i startValue else pages)
        page = pages page := by
    split
    · exact if_neg (by omega)
    · rfl
  have hrun (page : Nat) (hs : start ≤ page) (hpage : page < i) :
      (if i - start ≠ 0 ∧ pages start ≠ startValue then fill pages start i startValue else pages)
        page = if old start = startValue then old page else startValue := by
    have hnonempty : i - start ≠ 0 := by omega
    rw [h.outside start (.inr (Nat.le_refl _))]
    by_cases hold : old start = startValue
    · simp only [hold, ne_eq, not_true_eq_false, and_false, if_false, if_true]
      exact h.outside page (.inr hs)
    · simp only [hold, hnonempty, ne_eq, not_false_eq_true, and_self, if_true, if_false, fill]
      exact if_pos ⟨hs, hpage⟩
  refine ⟨by omega, by omega, hi, ?_, ?_, by omega, by omega, ?_, ?_, ?_⟩
  · intro page hpage hlt hlast
    have heq : page = i := by omega
    rw [heq, valueAt, if_pos (by omega)]
  · rcases Nat.eq_or_lt_of_le hle with heq | hlt
    · exact .inl (h.fresh heq).1
    · right
      rw [h.run (i - 1) (by omega) (by omega) (by omega)]
      exact hne.symm
  · intro page hpage hlt hskip
    rcases Nat.lt_or_ge page start with hs | hs
    · rw [hfill page (.inl hs)]
      exact h.unchanged page hpage hs hskip
    · rw [hrun page hs hlt, if_pos ((h.skipped_iff hi hne hs hlt).mp hskip)]
  · intro page hpage hlt hskip
    rcases Nat.lt_or_ge page start with hs | hs
    · rw [hfill page (.inl hs)]
      exact h.changed page hpage hs hskip
    · rw [hrun page hs hlt, if_neg (fun hold => hskip ((h.skipped_iff hi hne hs hlt).mpr hold))]
      exact (h.run page hs hlt (by omega)).symm
  · intro page hpage
    rw [hfill page (by omega)]
    exact h.outside page (by omega)

-- The run goes on.
theorem extend (hi : i ≤ last) (heq : valueAt old flagsSet flagsClear last i = startValue) :
    Progress old flagsSet flagsClear first last (i + 1) start startValue pages := by
  have hle := h.start_le
  refine ⟨h.first_le, by omega, h.le_last, ?_, h.boundary, by omega, ?_, h.unchanged, h.changed,
    h.outside⟩
  · intro page hpage hlt hlast
    rcases Nat.lt_or_ge page i with hp | hp
    · exact h.run page hpage hp hlast
    · have hpi : page = i := by omega
      rw [← heq, hpi, valueAt, if_pos (by omega)]
  · intro hlast hs
    rw [← heq, valueAt, if_neg (by omega)]

theorem finish (hi : i = last + 1) : Protected old flagsSet flagsClear first last pages := by
  have hskip {page : Nat} (hs : start ≤ page) (hlast : page < last) :
      Skipped old flagsSet flagsClear first last page := by
    have hvalue := h.ended (by omega) (by omega)
    right
    rw [h.run page hs (by omega) hlast]
    refine ⟨hvalue, ?_⟩
    intro later hlater hlt
    exact h.run later (by omega) (by omega) hlt
  refine ⟨?_, ?_, ?_⟩
  · intro page hpage hlast hsk
    rcases Nat.lt_or_ge page start with hs | hs
    · exact h.unchanged page hpage hs hsk
    · exact h.outside page (.inr hs)
  · intro page hpage hlast hsk
    rcases Nat.lt_or_ge page start with hs | hs
    · exact h.changed page hpage hs hsk
    · exact absurd (hskip hs hlast) hsk
  · intro page hpage
    have hle := h.le_last
    exact h.outside page (by omega)

theorem protectPages {rounds : Nat} (hrounds : rounds + i = last + 1) :
    Protected old flagsSet flagsClear first last
      (protectPages flagsSet flagsClear last rounds i start startValue pages) := by
  induction rounds generalizing i start startValue pages with
  | zero => exact h.finish (by omega)
  | succ rounds ih =>
      have hi : i ≤ last := by omega
      have hold := h.outside i (.inr h.start_le)
      have hvalue : (if i < last then newFlags flagsSet flagsClear (pages i) else pageExecutable) =
          valueAt old flagsSet flagsClear last i := by
        rw [hold]
        rfl
      rw [Vm.protectPages, hvalue]
      by_cases heq : valueAt old flagsSet flagsClear last i = startValue
      · simp only [heq, ne_eq, not_true_eq_false, if_false]
        exact ih (h.extend hi heq) (by omega)
      · simp only [ne_eq, heq, not_false_eq_true, if_true]
        exact ih (h.flush hi heq) (by omega)

end Progress

theorem protected_protectPages (h : first ≤ last) : Protected old flagsSet flagsClear first last
    (protectPages flagsSet flagsClear last (last + 1 - first) first first pageExecutable old) := by
  have hstart : Progress old flagsSet flagsClear first last first first pageExecutable old :=
    ⟨Nat.le_refl _, Nat.le_refl _, h, by omega, .inl rfl, fun _ => ⟨rfl, rfl⟩, by omega, by omega,
      by omega, fun _ _ => rfl⟩
  exact hstart.protectPages (by omega)

end Loop

section Call

variable (pages : PageTable) (addr size : Nat) (flagsTest flagsSet flagsClear : PageInfo)

def InRange (page : Nat) : Prop :=
  addr / pageSize ≤ page ∧ page < addr / pageSize + size / pageSize

-- The flags of a page after the call, with the flags that are both set and cleared left out.
def expected : PageTable :=
  newPages pages (flagsSet &&& ~~~(flagsSet &&& flagsClear))
    (flagsClear &&& ~~~(flagsSet &&& flagsClear))

structure ProtectSound : Prop where
  changed : ∀ pages', pageProtect pages addr size flagsTest flagsSet flagsClear =
    some (true, pages') → ∀ page, InRange addr size page →
      pages' page = expected pages flagsSet flagsClear page
  outside : ∀ pages', pageProtect pages addr size flagsTest flagsSet flagsClear =
    some (true, pages') → ∀ page, ¬InRange addr size page → pages' page = pages page
  refused : ∀ pages', pageProtect pages addr size flagsTest flagsSet flagsClear =
    some (false, pages') → pages' = pages

-- Where the flags of a page change, those of the first page of its run of equal new flags change
-- too, and a run of the flag that stands for no value is not the last one.
structure Regular : Prop where
  starts : ∀ page, InRange addr size page →
    expected pages flagsSet flagsClear page ≠ pages page →
      pages (runStart (expected pages flagsSet flagsClear) (addr / pageSize) page) ≠
        expected pages flagsSet flagsClear page
  ends : ∀ page, InRange addr size page →
    expected pages flagsSet flagsClear page ≠ pages page →
      expected pages flagsSet flagsClear page = pageExecutable →
        ∃ later, page ≤ later ∧ InRange addr size later ∧
          expected pages flagsSet flagsClear later ≠ expected pages flagsSet flagsClear page

variable {pages addr size flagsTest flagsSet flagsClear}

theorem expected_of_empty (hset : flagsSet &&& ~~~(flagsSet &&& flagsClear) = 0)
    (hclear : flagsClear &&& ~~~(flagsSet &&& flagsClear) = 0) :
    expected pages flagsSet flagsClear = pages := by
  funext page
  rw [expected, hset, hclear, newPages, newFlags, BitVec.ofNat_eq_ofNat, BitVec.or_zero,
    BitVec.not_zero, BitVec.and_allOnes]

-- What a call returns.
theorem pageProtect_cases (haddr : pageSize ∣ addr) (hsize : pageSize ∣ size) :
    (size = 0 ∧ pageProtect pages addr size flagsTest flagsSet flagsClear = none) ∨
      (checkAddr pages addr (flagsTest ||| pageAllocated) size = false ∧
        pageProtect pages addr size flagsTest flagsSet flagsClear = some (false, pages)) ∨
      (checkAddr pages addr (flagsTest ||| pageAllocated) size = true ∧
        ∃ pages', pageProtect pages addr size flagsTest flagsSet flagsClear = some (true, pages') ∧
          Protected pages (flagsSet &&& ~~~(flagsSet &&& flagsClear))
            (flagsClear &&& ~~~(flagsSet &&& flagsClear)) (addr / pageSize)
            (addr / pageSize + size / pageSize) pages') := by
  have halign : (size ||| addr) % pageSize = 0 := by
    have hor : (size ||| addr) % 2 ^ 12 = size % 2 ^ 12 ||| addr % 2 ^ 12 :=
      Nat.or_mod_two_pow
    have hsize' : size % 2 ^ 12 = 0 := Nat.mod_eq_zero_of_dvd hsize
    have haddr' : addr % 2 ^ 12 = 0 := Nat.mod_eq_zero_of_dvd haddr
    rw [hsize', haddr'] at hor
    exact hor
  rw [pageProtect]
  by_cases hzero : size = 0
  · exact .inl ⟨hzero, if_pos (.inl hzero)⟩
  · rw [if_neg (by omega)]
    cases hcheck : checkAddr pages addr (flagsTest ||| pageAllocated) size with
    | false =>
        simp only [hcheck, Bool.not_false, if_true]
        exact .inr (.inl ⟨trivial, trivial⟩)
    | true =>
        simp only [hcheck, Bool.not_true, Bool.false_eq_true, if_false]
        refine .inr (.inr ⟨trivial, ?_⟩)
        split_ifs with hempty
        · refine ⟨pages, rfl, ?_⟩
          have hexpected : expected pages flagsSet flagsClear = pages :=
            expected_of_empty hempty.1 hempty.2
          refine ⟨fun _ _ _ _ => rfl, ?_, fun _ _ => rfl⟩
          intro page _ _ _
          exact (congrFun hexpected page).symm
        · exact ⟨_, rfl, protected_protectPages (Nat.le_add_right _ _)⟩

theorem regular_iff : Regular pages addr size flagsSet flagsClear ↔
    ∀ page, InRange addr size page →
      Skipped pages (flagsSet &&& ~~~(flagsSet &&& flagsClear))
        (flagsClear &&& ~~~(flagsSet &&& flagsClear)) (addr / pageSize)
        (addr / pageSize + size / pageSize) page →
      expected pages flagsSet flagsClear page = pages page := by
  constructor
  · rintro ⟨hstarts, hends⟩ page hpage hskip
    by_contra hne
    rcases hskip with hskip | ⟨hvalue, hlater⟩
    · exact hstarts page hpage hne hskip
    · obtain ⟨later, hle, hin, hother⟩ := hends page hpage hne hvalue
      exact hother (hlater later hle hin.2)
  · intro h
    refine ⟨?_, ?_⟩
    · intro page hpage hne hstart
      exact hne (h page hpage (.inl hstart))
    · intro page hpage hne hvalue
      by_contra hnone
      refine hne (h page hpage (.inr ⟨hvalue, ?_⟩))
      intro later hle hlt
      by_contra hother
      exact hnone ⟨later, hle, ⟨hpage.1.trans hle, hlt⟩, hother⟩

theorem page_protect_sound_iff (haddr : pageSize ∣ addr) (hsize : pageSize ∣ size) :
    ProtectSound pages addr size flagsTest flagsSet flagsClear ↔
      (checkAddr pages addr (flagsTest ||| pageAllocated) size = true →
        Regular pages addr size flagsSet flagsClear) := by
  rcases @pageProtect_cases pages addr size flagsTest flagsSet flagsClear haddr hsize with
    ⟨hzero, hnone⟩ | ⟨hcheck, hfalse⟩ | ⟨hcheck, pages', htrue, hprotected⟩
  · constructor
    · intro _ _
      refine regular_iff.mpr ?_
      rintro page ⟨hle, hlt⟩
      simp only [hzero, Nat.zero_div] at hlt
      omega
    · intro _
      refine ⟨?_, ?_, ?_⟩
      all_goals
        intro pages' h
        rw [hnone] at h
        cases h
  · constructor
    · intro _ h
      rw [hcheck] at h
      cases h
    · intro _
      refine ⟨?_, ?_, ?_⟩
      all_goals
        intro pages' h
        rw [hfalse] at h
        cases h
      rfl
  · constructor
    · intro hsound _
      refine regular_iff.mpr ?_
      intro page hpage hskip
      rw [← hsound.changed pages' htrue page hpage]
      exact hprotected.unchanged page hpage.1 hpage.2 hskip
    · intro hregular
      have hregular := regular_iff.mp (hregular hcheck)
      refine ⟨?_, ?_, ?_⟩
      · intro pages'' h page hpage
        rw [htrue] at h
        cases h
        by_cases hskip : Skipped pages (flagsSet &&& ~~~(flagsSet &&& flagsClear))
          (flagsClear &&& ~~~(flagsSet &&& flagsClear)) (addr / pageSize)
          (addr / pageSize + size / pageSize) page
        · rw [hregular page hpage hskip]
          exact hprotected.unchanged page hpage.1 hpage.2 hskip
        · exact hprotected.changed page hpage.1 hpage.2 hskip
      · intro pages'' h page hpage
        rw [htrue] at h
        cases h
        apply hprotected.outside
        rw [InRange] at hpage
        omega
      · intro pages'' h
        rw [htrue] at h
        cases h

end Call

-- Two pages that can be read, of which the first one can be written already.
def halfWritable : PageTable := fun page =>
  if page = 0x10 then pageAllocated ||| pageReadable ||| pageWritable
  else if page = 0x11 then pageAllocated ||| pageReadable
  else 0

theorem page_protect_sound_iff_halfWritable :
    ProtectSound halfWritable 0x10000 0x2000 0 0 pageWritable ↔
      (checkAddr halfWritable 0x10000 (0 ||| pageAllocated) 0x2000 = true →
        Regular halfWritable 0x10000 0x2000 0 pageWritable) :=
  page_protect_sound_iff (by decide) (by decide)

-- The second page stays read-only.
theorem second_page_skipped : ¬ProtectSound halfWritable 0x10000 0x2000 0 pageWritable 0 := by
  intro hsound
  have hpage := hsound.changed _ rfl 0x11 ⟨by decide, by decide⟩
  exact absurd hpage (by decide)

end Rpcsx.Vm
