import Rpcsx.Data.Alignment

namespace Rpcsx.Vm

open Data.Alignment

-- `page_info_t`
abbrev PageInfo := BitVec 8

def pageReadable : PageInfo := 1#8 <<< 0
def pageWritable : PageInfo := 1#8 <<< 1
def pageExecutable : PageInfo := 1#8 <<< 2
def page64kSize : PageInfo := 1#8 <<< 5
def page1mSize : PageInfo := 1#8 <<< 6
def pageAllocated : PageInfo := 1#8 <<< 7

-- `g_pages`, by the numbers of the pages of 4096 bytes.
abbrev PageTable := Nat → PageInfo

def pageSize : Nat := 4096

def addressSpace : Nat := 0x100000000

-- Whether a page has all of some flags.
def Has (flags state : PageInfo) : Prop := ~~~state &&& flags = 0

instance (flags state : PageInfo) : Decidable (Has flags state) :=
  inferInstanceAs (Decidable (_ = _))

-- The next page that `check_addr` looks at. The rest of the unit of a large page is taken to be
-- like the page.
def nextPage (pages : PageTable) (i : Nat) : Nat :=
  if pages i &&& page1mSize ≠ 0 then ceilTo (0x100000 / pageSize) (i + 1)
  else if pages i &&& page64kSize ≠ 0 then ceilTo (0x10000 / pageSize) (i + 1)
  else i + 1

def checkPages (pages : PageTable) (flags : PageInfo) (max : Nat) : Nat → Nat → Bool
  | 0, _ => true
  | rounds + 1, i =>
      if i ≤ max then
        if ~~~pages i &&& flags ≠ 0 then false
        else checkPages pages flags max rounds (nextPage pages i)
      else true

-- `check_addr(addr, flags, size)`
def checkAddr (pages : PageTable) (addr : Nat) (flags : PageInfo) (size : Nat) : Bool :=
  if size = 0 then true
  else if addressSpace - addr < size then false
  else
    let max := (addr + size - 1) / pageSize
    checkPages pages (flags ||| pageAllocated) max (max + 1) (addr / pageSize)

-- `check_addr<1>(addr, flags)`
def checkAddrOne (pages : PageTable) (addr : Nat) (flags : PageInfo) : Bool :=
  ~~~pages (addr / pageSize) &&& (flags ||| pageAllocated) = 0

def fill (pages : PageTable) (first last : Nat) (value : PageInfo) : PageTable := fun page =>
  if first ≤ page ∧ page < last then value else pages page

theorem fill_of_mem {pages : PageTable} {first last page : Nat} {value : PageInfo}
    (h : first ≤ page ∧ page < last) : fill pages first last value page = value :=
  if_pos h

theorem fill_of_not_mem {pages : PageTable} {first last page : Nat} {value : PageInfo}
    (h : ¬(first ≤ page ∧ page < last)) : fill pages first last value page = pages page :=
  if_neg h

-- The new flags of a page.
def newFlags (flagsSet flagsClear old : PageInfo) : PageInfo :=
  (old ||| flagsSet) &&& ~~~flagsClear

-- The rounds from page `i` up to `last`, which is behind the range.
def protectPages (flagsSet flagsClear : PageInfo) (last : Nat) :
    Nat → Nat → Nat → PageInfo → PageTable → PageTable
  | 0, _, _, _, pages => pages
  | rounds + 1, i, start, startValue, pages =>
      let newVal := if i < last then newFlags flagsSet flagsClear (pages i) else pageExecutable
      if newVal ≠ startValue then
        let pages :=
          if i - start ≠ 0 ∧ pages start ≠ startValue then fill pages start i startValue else pages
        protectPages flagsSet flagsClear last rounds (i + 1) i newVal pages
      else protectPages flagsSet flagsClear last rounds (i + 1) start startValue pages

-- Nothing is returned where the code throws.
def pageProtect (pages : PageTable) (addr size : Nat) (flagsTest flagsSet flagsClear : PageInfo) :
    Option (Bool × PageTable) :=
  if size = 0 ∨ (size ||| addr) % pageSize ≠ 0 then none
  else
    let flagsBoth := flagsSet &&& flagsClear
    let flagsTest := flagsTest ||| pageAllocated
    let flagsSet := flagsSet &&& ~~~flagsBoth
    let flagsClear := flagsClear &&& ~~~flagsBoth
    if !checkAddr pages addr flagsTest size then some (false, pages)
    else if flagsSet = 0 ∧ flagsClear = 0 then some (true, pages)
    else
      let start := addr / pageSize
      let last := start + size / pageSize
      -- some impossible value (not valid without page_allocated)
      let startValue := pageExecutable
      some (true, protectPages flagsSet flagsClear last (last + 1 - start) start start startValue pages)

section Check

variable {pages : PageTable} {flags : PageInfo}

-- The pages that `check_addr` looks at.
inductive Looked (pages : PageTable) (first : Nat) : Nat → Prop
  | first : Looked pages first first
  | next {i : Nat} (h : Looked pages first i) : Looked pages first (nextPage pages i)

theorem lt_nextPage (pages : PageTable) (i : Nat) : i < nextPage pages i := by
  rw [nextPage]
  split_ifs
  · exact le_ceilTo (by decide)
  · exact le_ceilTo (by decide)
  · exact Nat.lt_succ_self i

theorem Looked.head {first i : Nat} (h : Looked pages first i) :
    i = first ∨ Looked pages (nextPage pages first) i := by
  induction h with
  | first => exact .inl rfl
  | next _ ih =>
      rcases ih with rfl | ih
      · exact .inr .first
      · exact .inr ih.next

theorem Looked.le {first i : Nat} (h : Looked pages first i) : first ≤ i := by
  induction h with
  | first => exact Nat.le_refl _
  | @next i _ ih => exact ih.trans (Nat.le_of_lt (lt_nextPage pages i))

theorem Looked.trans {first i j : Nat} (h : Looked pages first i) (h' : Looked pages i j) :
    Looked pages first j := by
  induction h' with
  | first => exact h
  | next _ ih => exact ih.next

theorem checkPages_iff {max rounds i : Nat} (hrounds : max + 1 - i ≤ rounds) :
    checkPages pages flags max rounds i ↔ ∀ j, Looked pages i j → j ≤ max → Has flags (pages j) := by
  induction rounds generalizing i with
  | zero =>
      simp only [checkPages, true_iff]
      intro j hj hle
      have hge := hj.le
      omega
  | succ rounds ih =>
      have hnext := lt_nextPage pages i
      rw [checkPages]
      split_ifs with hle hhas
      · simp only [false_iff, not_forall]
        exact ⟨i, .first, hle, hhas⟩
      · rw [ih (by omega)]
        constructor
        · intro h j hj hjle
          rcases hj.head with rfl | hj
          · exact not_not.mp hhas
          · exact h j hj hjle
        · exact fun h j hj => h j (Looked.first.next.trans hj)
      · simp only [true_iff]
        intro j hj hjle
        have hge := hj.le
        omega

theorem checkAddr_iff {addr size : Nat} :
    checkAddr pages addr flags size ↔ size = 0 ∨ (addr + size ≤ addressSpace ∧
      ∀ j, Looked pages (addr / pageSize) j → j ≤ (addr + size - 1) / pageSize →
        Has (flags ||| pageAllocated) (pages j)) := by
  rw [checkAddr]
  split_ifs with hzero hover
  · simp [hzero]
  · simp only [false_iff]
    rintro (hsize | ⟨hle, -⟩)
    · exact hzero hsize
    · omega
  · have hle : addr + size ≤ addressSpace := by omega
    rw [checkPages_iff (Nat.sub_le _ _)]
    simp [hzero, hle]

end Check

end Rpcsx.Vm
