import Rpcsx.Vm

namespace Rpcsx.Vm

def localMemBase : Nat := 0xC0000000

-- How `range_lock` ends: it returns by itself, or it calls `range_lock_internal` with a size.
inductive RangeLocked where
  | returned
  | internal (size : Nat)
deriving DecidableEq

structure RangeLockState where
  lock : Nat
  ended : RangeLocked
deriving DecidableEq

-- The size of the range that is locked.
def lockedSize (sizeParam size : Nat) : Nat := if sizeParam ≠ 0 then sizeParam else size

-- `range_lock<Size>`, with `g_range_lock_bits[1]`.
def rangeLock (sizeParam : Nat) (pages : PageTable) (bits lock begin size : Nat) :
    RangeLockState :=
  if sizeParam = 0 ∧ begin >>> 28 = localMemBase >>> 28 then ⟨lock, .returned⟩
  else
    let lock := begin ||| size <<< 32
    let size' := lockedSize sizeParam size
    let refused :=
      if sizeParam = 1 ∨ (begin % 4096 + size' % 4096) / 4096 = 0 then
        !checkAddrOne pages begin pageReadable
      else !checkAddr pages begin pageReadable size'
    if refused then ⟨0, .internal size⟩
    else if bits = 0 then ⟨lock, .returned⟩
    else ⟨lock, .internal size'⟩

section

variable (sizeParam : Nat) (pages : PageTable) (bits lock begin size : Nat)

def OutsideLocalMemory : Prop := ¬(sizeParam = 0 ∧ begin >>> 28 = localMemBase >>> 28)

-- Without a call of `range_lock_internal` every byte of the range lies in a readable page.
def RangeLockSound : Prop :=
  OutsideLocalMemory sizeParam begin →
    (rangeLock sizeParam pages bits lock begin size).ended = .returned →
      ∀ a, begin ≤ a → a < begin + lockedSize sizeParam size →
        a < addressSpace ∧ Has pageReadable (pages (a / pageSize))

-- The test of one page.
def OnePage : Prop :=
  sizeParam = 1 ∨ begin % pageSize + lockedSize sizeParam size % pageSize < pageSize

structure RangeRegular : Prop where
  -- a range of 4096 bytes or more for which only the first page is tested
  whole : OnePage sizeParam begin size → pageSize ≤ lockedSize sizeParam size →
    Has (pageReadable ||| pageAllocated) (pages (begin / pageSize)) →
      begin + lockedSize sizeParam size ≤ addressSpace ∧ ∀ page, begin / pageSize < page →
        page ≤ (begin + lockedSize sizeParam size - 1) / pageSize → Has pageReadable (pages page)
  -- the pages that a large page is taken to stand for
  units : ¬OnePage sizeParam begin size → begin + lockedSize sizeParam size ≤ addressSpace →
    (∀ page, Looked pages (begin / pageSize) page →
      page ≤ (begin + lockedSize sizeParam size - 1) / pageSize →
        Has (pageReadable ||| pageAllocated) (pages page)) →
      ∀ page, begin / pageSize ≤ page →
        page ≤ (begin + lockedSize sizeParam size - 1) / pageSize →
          ¬Looked pages (begin / pageSize) page → Has pageReadable (pages page)

variable {sizeParam pages bits lock begin size}

theorem has_or_iff {flags other state : PageInfo} :
    Has (flags ||| other) state ↔ Has flags state ∧ Has other state := by
  simp only [Has, BitVec.and_or_distrib_left]
  exact BitVec.or_eq_zero_iff

theorem checkAddrOne_iff {addr : Nat} {flags : PageInfo} :
    checkAddrOne pages addr flags ↔ Has (flags ||| pageAllocated) (pages (addr / pageSize)) :=
  decide_eq_true_iff

-- When the call returns by itself.
theorem returned_iff (houtside : OutsideLocalMemory sizeParam begin) :
    (rangeLock sizeParam pages bits lock begin size).ended = .returned ↔ bits = 0 ∧
      ((OnePage sizeParam begin size ∧
          Has (pageReadable ||| pageAllocated) (pages (begin / pageSize))) ∨
        (¬OnePage sizeParam begin size ∧
          checkAddr pages begin pageReadable (lockedSize sizeParam size))) := by
  have hpage : sizeParam = 1 ∨ (begin % 4096 + lockedSize sizeParam size % 4096) / 4096 = 0 ↔
      OnePage sizeParam begin size := by
    rw [OnePage, pageSize]
    omega
  rw [rangeLock, if_neg houtside]
  by_cases hone : OnePage sizeParam begin size
  · have hshort := hpage.mpr hone
    cases hcheck : checkAddrOne pages begin pageReadable with
    | false =>
        have hhas := mt checkAddrOne_iff.mpr (Bool.not_eq_true _ ▸ hcheck)
        simp only [if_pos hshort, Bool.not_false, if_true, hone, hhas, and_false, not_true_eq_false,
          false_and, or_self]
        simp
    | true =>
        have hhas := checkAddrOne_iff.mp hcheck
        simp only [if_pos hshort, hone, hhas, not_true_eq_false, false_and, or_false, and_true,
          Bool.not_true, Bool.false_eq_true, if_false]
        split_ifs with hbits <;> simp [hbits]
  · have hlong := mt hpage.mp hone
    cases hcheck : checkAddr pages begin pageReadable (lockedSize sizeParam size) with
    | false =>
        simp only [if_neg hlong, hcheck, Bool.not_false, if_true, hone, false_and,
          Bool.false_eq_true, and_false, or_self]
        simp
    | true =>
        simp only [if_neg hlong, hcheck, hone, not_false_eq_true, false_and, false_or,
          and_true, Bool.not_true, Bool.false_eq_true, if_false]
        split_ifs with hbits <;> simp [hbits]

-- A short range for which one page is tested lies in that page.
theorem page_eq_of_short (hone : OnePage sizeParam begin size)
    (hshort : lockedSize sizeParam size < pageSize) {a : Nat} (hle : begin ≤ a)
    (hlt : a < begin + lockedSize sizeParam size) : a / pageSize = begin / pageSize := by
  have hparam : sizeParam = 1 → lockedSize sizeParam size = 1 := by
    rintro rfl
    rfl
  simp only [OnePage, pageSize] at *
  omega

theorem range_lock_sound_iff (hbegin : begin < addressSpace) :
    RangeLockSound sizeParam pages bits lock begin size ↔
      (OutsideLocalMemory sizeParam begin → bits = 0 →
        RangeRegular sizeParam pages begin size) := by
  have hlast {a : Nat} (hlt : a < begin + lockedSize sizeParam size) :
      a / pageSize ≤ (begin + lockedSize sizeParam size - 1) / pageSize :=
    Nat.div_le_div_right (by omega)
  constructor
  · intro hsound houtside hbits
    have hsound := hsound houtside
    rw [returned_iff houtside] at hsound
    -- a byte of a page of the range
    have hbyte {page : Nat} (hpos : 0 < lockedSize sizeParam size) (hfirst : begin / pageSize ≤ page)
        (hle : page ≤ (begin + lockedSize sizeParam size - 1) / pageSize) :
        begin ≤ max begin (page * pageSize) ∧
          max begin (page * pageSize) < begin + lockedSize sizeParam size ∧
          max begin (page * pageSize) / pageSize = page := by
      simp only [pageSize] at *
      omega
    refine ⟨?_, ?_⟩
    · intro hone hlong hhas
      have hall := hsound ⟨hbits, .inl ⟨hone, hhas⟩⟩
      have hpos : 0 < lockedSize sizeParam size := Nat.lt_of_lt_of_le (by decide) hlong
      refine ⟨?_, ?_⟩
      · have hend := (hall (begin + lockedSize sizeParam size - 1) (by omega) (by omega)).1
        omega
      · intro page hfirst hle
        obtain ⟨hbegin', hlt, hpage⟩ := hbyte hpos (Nat.le_of_lt hfirst) hle
        have hreadable := (hall _ hbegin' hlt).2
        rwa [hpage] at hreadable
    · intro hone hspace hlooked page hfirst hle _
      have hcheck : checkAddr pages begin pageReadable (lockedSize sizeParam size) :=
        checkAddr_iff.mpr (.inr ⟨hspace, hlooked⟩)
      have hall := hsound ⟨hbits, .inr ⟨hone, hcheck⟩⟩
      have hpos : 0 < lockedSize sizeParam size := by
        simp only [OnePage, pageSize] at hone
        omega
      obtain ⟨hbegin', hlt, hpage⟩ := hbyte hpos hfirst hle
      have hreadable := (hall _ hbegin' hlt).2
      rwa [hpage] at hreadable
  · intro hregular houtside hreturned a hle hlt
    obtain ⟨hbits, hcases⟩ := (returned_iff houtside).mp hreturned
    obtain ⟨hwhole, hunits⟩ := hregular houtside hbits
    have hfirst : begin / pageSize ≤ a / pageSize := Nat.div_le_div_right hle
    rcases hcases with ⟨hone, hhas⟩ | ⟨hone, hcheck⟩
    · rcases Nat.lt_or_ge (lockedSize sizeParam size) pageSize with hshort | hlong
      · have hpage := page_eq_of_short hone hshort hle hlt
        refine ⟨?_, ?_⟩
        · simp only [addressSpace, pageSize] at *
          omega
        · rw [hpage]
          exact (has_or_iff.mp hhas).1
      · obtain ⟨hspace, hpages⟩ := hwhole hone hlong hhas
        refine ⟨by omega, ?_⟩
        rcases Nat.eq_or_lt_of_le hfirst with heq | hgt
        · rw [← heq]
          exact (has_or_iff.mp hhas).1
        · exact hpages _ hgt (hlast hlt)
    · rcases checkAddr_iff.mp hcheck with hzero | ⟨hspace, hlooked⟩
      · omega
      · refine ⟨by omega, ?_⟩
        by_cases hlook : Looked pages (begin / pageSize) (a / pageSize)
        · exact (has_or_iff.mp (hlooked _ hlook (hlast hlt))).1
        · exact hunits hone hspace hlooked _ hfirst (hlast hlt) hlook

end

-- One readable page, with nothing behind it.
def onePage : PageTable := fun page => if page = 0x10 then pageAllocated ||| pageReadable else 0

theorem range_lock_sound_iff_onePage : RangeLockSound 0 onePage 0 0 0x10000 0x2000 ↔
    (OutsideLocalMemory 0 0x10000 → (0 : Nat) = 0 → RangeRegular 0 onePage 0x10000 0x2000) :=
  range_lock_sound_iff (by decide)

-- Two whole pages are locked after a test of the first one.
theorem second_page_not_tested : ¬RangeLockSound 0 onePage 0 0 0x10000 0x2000 := by
  intro hsound
  have hreadable := (hsound (fun h => absurd h (by decide)) rfl 0x11000 (by decide) (by decide)).2
  exact absurd hreadable (by decide)

end Rpcsx.Vm
