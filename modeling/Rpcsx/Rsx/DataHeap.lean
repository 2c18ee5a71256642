import Rpcsx.Data.Alignment

namespace Rpcsx.Rsx.DataHeap

open Data.Alignment

-- `usz`.
def word : Nat := 2 ^ 64

def umax : Nat := word - 1

def add (a b : Nat) : Nat := (a + b) % word

def sub (a b : Nat) : Nat := (a + word - b) % word

def alignUp (value alignment : Nat) : Nat := roundUp 64 value alignment

-- The powers of two of an `int` from 16 on.
structure Alignment where
  exponent : Nat
  four_le : 4 ≤ exponent
  le_thirty : exponent ≤ 30
deriving DecidableEq

def Alignment.value (a : Alignment) : Nat := 2 ^ a.exponent

-- `data_heap`, with a `grow` that returns false.
structure Heap where
  size : Nat
  putPos : Nat
  getPos : Nat
  minGuardSize : Nat
  currentAllocatedSize : Nat
  largestAllocatedPool : Nat
deriving DecidableEq

namespace Heap

def init (heapSize minGuardSize : Nat) : Heap where
  size := heapSize
  putPos := 0
  getPos := sub heapSize 1
  minGuardSize := minGuardSize
  currentAllocatedSize := 0
  largestAllocatedPool := 0

variable (h : Heap)

-- Does alloc cross get position ?
def canAlloc (alignment size : Nat) : Bool :=
  let allocSize := alignUp size alignment
  let alignedPutPos := alignUp h.putPos alignment
  if add alignedPutPos allocSize < h.size then
    if add alignedPutPos allocSize < h.getPos then true
    else alignedPutPos > h.getPos
  else if alignedPutPos < h.getPos then false
  else !decide (allocSize > h.getPos)

-- Nothing is returned where the code throws.
def alloc (alignment size : Nat) : Option (Heap × Nat) :=
  let allocSize := alignUp size alignment
  let alignedPutPos := alignUp h.putPos alignment
  if !h.canAlloc alignment size then none
  else
    let blockLength := add (sub alignedPutPos h.putPos) allocSize
    let h' := { h with
      currentAllocatedSize := add h.currentAllocatedSize blockLength
      largestAllocatedPool := max h.largestAllocatedPool blockLength }
    if add alignedPutPos allocSize < h.size then
      some ({ h' with putPos := add alignedPutPos allocSize }, alignedPutPos)
    else some ({ h' with putPos := allocSize }, 0)

def getCurrentPutPosMinusOne : Nat := if h.putPos > 0 then h.putPos - 1 else sub h.size 1

def isCritical : Bool :=
  add h.currentAllocatedSize (max h.minGuardSize h.largestAllocatedPool) ≥ h.size

def resetAllocationStats : Heap :=
  { h with
    currentAllocatedSize := 0
    largestAllocatedPool := 0
    getPos := h.getCurrentPutPosMinusOne }

-- Nothing is returned where the code throws: `m_put_pos == m_get_pos!`.
def notify : Option Heap :=
  if h.getPos = umax then some { h with currentAllocatedSize := 0 }
  else if h.getPos < h.putPos then
    some { h with currentAllocatedSize := sub (sub h.putPos h.getPos) 1 }
  else if h.getPos > h.putPos then
    some { h with currentAllocatedSize := add h.putPos (sub (sub h.size h.getPos) 1) }
  else none

end Heap

-- A block, with the lap of the heap it was allocated in.
structure Block where
  start : Nat
  length : Nat
  alignment : Nat
  lap : Nat
deriving DecidableEq

-- A position that `get_current_put_pos_minus_one` returned, with its lap and with the number of
-- blocks there were by then.
structure Mark where
  value : Nat
  lap : Nat
  point : Nat
deriving DecidableEq

-- The heap and its user. The memory of the blocks from `get.point` on is in use.
structure System where
  heap : Heap
  blocks : List Block
  marks : List Mark
  get : Mark
  lap : Nat
deriving DecidableEq

inductive Op where
  | alloc (alignment : Alignment) (size : Nat)
  | getCurrentPutPosMinusOne
  | setGetPos (mark : Mark)
  | resetAllocationStats
  | notify

namespace System

def start (heapSize minGuardSize : Nat) : System where
  heap := .init heapSize minGuardSize
  blocks := []
  marks := []
  get := ⟨sub heapSize 1, 0, 0⟩
  lap := 1

variable (s : System)

def mark : Mark where
  value := s.heap.getCurrentPutPosMinusOne
  lap := if s.heap.putPos > 0 then s.lap else s.lap - 1
  point := s.blocks.length

def alloc (alignment size : Nat) : Option System := do
  let (heap, start) ← s.heap.alloc alignment size
  let lap :=
    if add (alignUp s.heap.putPos alignment) (alignUp size alignment) < s.heap.size then s.lap
    else s.lap + 1
  return { s with heap, lap, blocks := s.blocks ++ [⟨start, size, alignment, lap⟩] }

-- The get position only moves on, to a position that was returned before.
def setGetPos (mark : Mark) : Option System :=
  if mark ∈ s.marks ∧ s.get.point ≤ mark.point then
    some { s with heap := { s.heap with getPos := mark.value }, get := mark }
  else none

def step : Op → Option System
  | .alloc alignment size => s.alloc alignment.value size
  | .getCurrentPutPosMinusOne => some { s with marks := s.mark :: s.marks }
  | .setGetPos mark => s.setGetPos mark
  | .resetAllocationStats => some { s with heap := s.heap.resetAllocationStats, get := s.mark }
  | .notify => s.heap.notify.map fun heap => { s with heap }

end System

end Rpcsx.Rsx.DataHeap

namespace Rpcsx.Rsx.DataHeap

open Data.Alignment

theorem Alignment.sixteen_dvd (a : Alignment) : 16 ∣ a.value :=
  Nat.pow_dvd_pow 2 a.four_le

theorem Alignment.pos (a : Alignment) : 0 < a.value := Nat.two_pow_pos _

theorem alignUp_eq (a : Alignment) {n : Nat} (h : ceilTo a.value n < word) :
    alignUp n a.value = ceilTo a.value n := by
  have hle := a.le_thirty
  exact roundUp_eq_ceilTo (by omega) h

theorem sub_of_le {a b : Nat} (ha : a < word) (hle : b ≤ a) : sub a b = a - b := by
  have hsplit : a + word - b = a - b + word := by omega
  rw [sub, hsplit, Nat.add_mod_right, Nat.mod_eq_of_lt (by omega)]

-- Two blocks that share no address.
def Block.Apart (b c : Block) : Prop :=
  b.start + b.length ≤ c.start ∨ c.start + c.length ≤ b.start

instance (b c : Block) : Decidable (b.Apart c) := inferInstanceAs (Decidable (_ ∨ _))

namespace System

-- What the user of the heap relies on.
structure Sound (s : System) : Prop where
  inside : ∀ b ∈ s.blocks, b.start + b.length ≤ s.heap.size ∧ b.alignment ∣ b.start
  apart : (s.blocks.drop s.get.point).Pairwise Block.Apart
  put_ne_get : s.heap.putPos ≠ s.heap.getPos
  notify : s.heap.notify.isSome

-- The sums do not wrap around, and rounding the put position up does not carry it past the get
-- position.
structure Regular (s : System) (alignment : Alignment) (size : Nat) : Prop where
  noWrap : ceilTo alignment.value s.heap.putPos + ceilTo alignment.value size < word
  behind : s.heap.putPos < s.heap.getPos →
    ceilTo alignment.value s.heap.putPos < s.heap.getPos

end System

-- The states of the runs in which every call of `alloc` is regular.
inductive Reachable (heapSize minGuardSize : Nat) : System → Prop
  | start : Reachable heapSize minGuardSize (.start heapSize minGuardSize)
  | step {s s' : System} {op : Op} (h : Reachable heapSize minGuardSize s)
      (hregular : ∀ alignment size, op = .alloc alignment size → s.Regular alignment size)
      (hstep : s.step op = some s') : Reachable heapSize minGuardSize s'

namespace Heap

variable {h h' : Heap} {alignment : Alignment} {size start : Nat}

theorem notify_isSome : h.notify.isSome ↔ h.getPos = umax ∨ h.getPos ≠ h.putPos := by
  rw [notify]
  split_ifs with hempty hlt hgt
  · simp [hempty]
  · simp
    omega
  · simp
    omega
  · simp
    omega

theorem notify_fields (hnotify : h.notify = some h') :
    h'.size = h.size ∧ h'.putPos = h.putPos ∧ h'.getPos = h.getPos := by
  rw [notify] at hnotify
  split_ifs at hnotify
  all_goals
    cases hnotify
    exact ⟨rfl, rfl, rfl⟩

section Alloc

variable {a c : Nat} (ha : alignUp h.putPos alignment.value = a)
  (hc : alignUp size alignment.value = c) (hsum : a + c < word)

include ha hc hsum

theorem canAlloc_iff : h.canAlloc alignment.value size ↔
    (a + c < h.size ∧ (a + c < h.getPos ∨ h.getPos < a)) ∨
      (h.size ≤ a + c ∧ h.getPos ≤ a ∧ c ≤ h.getPos) := by
  have hadd : add a c = a + c := Nat.mod_eq_of_lt hsum
  simp only [canAlloc, ha, hc, hadd]
  split_ifs with hfits hbefore hlow
  · simp [hfits, hbefore]
  · simp [hfits, hbefore, Nat.not_le.mpr hfits]
  · simp [hfits, Nat.not_le.mpr hlow]
  · simp [hfits, Nat.not_lt.mp hfits, Nat.not_lt.mp hlow]

-- A returned block lies at the aligned put position, or at the start of the heap when it does not
-- fit before the end.
theorem alloc_cases (halloc : h.alloc alignment.value size = some (h', start)) :
    h'.size = h.size ∧ h'.getPos = h.getPos ∧
      ((a + c < h.size ∧ h'.putPos = a + c ∧ start = a ∧ (a + c < h.getPos ∨ h.getPos < a)) ∨
        (h.size ≤ a + c ∧ h'.putPos = c ∧ start = 0 ∧ h.getPos ≤ a ∧ c ≤ h.getPos)) := by
  have hadd : add a c = a + c := Nat.mod_eq_of_lt hsum
  cases hcan : h.canAlloc alignment.value size with
  | false =>
      simp [alloc, hcan] at halloc
  | true =>
      have hroom := (canAlloc_iff ha hc hsum).mp hcan
      simp only [alloc, hcan, ha, hc, hadd, Bool.not_true, Bool.false_eq_true, if_false] at halloc
      split_ifs at halloc with hfits
      · cases halloc
        refine ⟨rfl, rfl, .inl ⟨hfits, rfl, rfl, ?_⟩⟩
        omega
      · cases halloc
        refine ⟨rfl, rfl, .inr ⟨by omega, rfl, rfl, ?_⟩⟩
        omega

end Alloc

end Heap

-- Whether a block ends before a position, and whether it starts after one.
def Block.Before (b : Block) (lap position : Nat) : Prop :=
  b.lap < lap ∨ b.lap = lap ∧ b.start + b.length ≤ position

def Block.After (b : Block) (k : Mark) : Prop :=
  k.lap < b.lap ∨ k.lap = b.lap ∧ k.value < b.start

def Mark.Le (k l : Mark) : Prop := k.lap < l.lap ∨ k.lap = l.lap ∧ k.value ≤ l.value

namespace System

-- The put position is ahead of the get position, by less than the whole heap.
def Window (s : System) : Prop :=
  (s.get.lap = s.lap ∧ s.get.value < s.heap.putPos) ∨
    (s.get.lap + 1 = s.lap ∧ s.heap.putPos < s.get.value)

-- A position that can be the get position: just before a multiple of 16, or the last one, and with
-- all later blocks behind it.
structure Valid (s : System) (k : Mark) : Prop where
  value_lt : k.value < s.heap.size
  aligned : 16 ∣ k.value + 1 ∨ k.value + 1 = s.heap.size
  before_put : k.lap < s.lap ∨ k.lap = s.lap ∧ k.value < s.heap.putPos
  point_le : k.point ≤ s.blocks.length
  later : ∀ b ∈ s.blocks.drop k.point, b.After k
  last : k.point = s.blocks.length → k = s.mark

structure Invariant (s : System) : Prop where
  size_lt : s.heap.size < word
  putPos_lt : s.heap.putPos < s.heap.size
  aligned : 16 ∣ s.heap.putPos
  lap_pos : 0 < s.lap
  getPos : s.heap.getPos = s.get.value
  window : s.Window
  inside : ∀ b ∈ s.blocks, b.start + b.length ≤ s.heap.size ∧ b.alignment ∣ b.start
  before_put : ∀ b ∈ s.blocks, b.Before s.lap s.heap.putPos
  ordered : s.blocks.Pairwise fun b c => b.Before c.lap c.start
  valid : ∀ k ∈ s.get :: s.marks, s.Valid k
  monotone : ∀ k ∈ s.get :: s.marks, ∀ l ∈ s.get :: s.marks, k.point ≤ l.point → k.Le l

namespace Invariant

variable {s s' : System} (hinv : s.Invariant)

include hinv

theorem sound : s.Sound := by
  have hne : s.heap.putPos ≠ s.heap.getPos := by
    have hwindow := hinv.window
    rw [hinv.getPos]
    simp only [Window] at hwindow
    omega
  refine ⟨hinv.inside, ?_, hne, Heap.notify_isSome.mpr (.inr hne.symm)⟩
  have hordered := hinv.ordered.sublist (List.drop_sublist s.get.point s.blocks)
  refine hordered.imp_of_mem ?_
  intro b c hb hc hbc
  have hafter := (hinv.valid s.get List.mem_cons_self).later b hb
  have hbefore := hinv.before_put c (List.mem_of_mem_drop hc)
  have hwindow := hinv.window
  simp only [Block.After, Block.Before, Window] at hafter hbefore hwindow hbc
  simp only [Block.Apart]
  omega

theorem valid_mark : s.Valid s.mark := by
  have hput := hinv.putPos_lt
  have hlap := hinv.lap_pos
  have hsub : sub s.heap.size 1 = s.heap.size - 1 := sub_of_le hinv.size_lt (by omega)
  have haligned := hinv.aligned
  refine ⟨?_, ?_, ?_, Nat.le_refl _, ?_, fun _ => rfl⟩
  · simp only [mark, Heap.getCurrentPutPosMinusOne, hsub]
    split <;> omega
  · simp only [mark, Heap.getCurrentPutPosMinusOne, hsub]
    split <;> omega
  · simp only [mark, Heap.getCurrentPutPosMinusOne]
    split <;> omega
  · intro b hb
    simp [mark] at hb

-- The position that is returned now is the last one.
theorem le_mark {k : Mark} (hk : s.Valid k) : k.Le s.mark := by
  have hput := hinv.putPos_lt
  have hlap := hinv.lap_pos
  have hsub : sub s.heap.size 1 = s.heap.size - 1 := sub_of_le hinv.size_lt (by omega)
  have hvalue := hk.value_lt
  have hbefore := hk.before_put
  simp only [Mark.Le, mark, Heap.getCurrentPutPosMinusOne, hsub]
  split <;> omega

theorem le_of_point_le {k l : Mark} (hk : k ∈ s.mark :: s.get :: s.marks)
    (hl : l ∈ s.mark :: s.get :: s.marks) (h : k.point ≤ l.point) : k.Le l := by
  rcases List.mem_cons.mp hl with rfl | hl
  · rcases List.mem_cons.mp hk with rfl | hk
    · exact hinv.le_mark hinv.valid_mark
    · exact hinv.le_mark (hinv.valid k hk)
  · rcases List.mem_cons.mp hk with rfl | hk
    · -- no block has come since, so that it is the same position
      have hvalid := hinv.valid l hl
      rw [hvalid.last (Nat.le_antisymm hvalid.point_le h)]
      exact hinv.le_mark hinv.valid_mark
    · exact hinv.monotone k hk l hl h

-- A step that allocates nothing, and that moves the get position on if at all.
theorem move (hsize : s'.heap.size = s.heap.size) (hput : s'.heap.putPos = s.heap.putPos)
    (hlap : s'.lap = s.lap) (hblocks : s'.blocks = s.blocks)
    (hget : s'.heap.getPos = s'.get.value)
    (hmarks : ∀ k ∈ s'.get :: s'.marks, k ∈ s.mark :: s.get :: s.marks)
    (hle : s.get.Le s'.get) : s'.Invariant := by
  have hmark : s'.mark = s.mark := by
    simp only [mark, Heap.getCurrentPutPosMinusOne, hsize, hput, hlap, hblocks]
  have hvalid : ∀ k ∈ s'.get :: s'.marks, s.Valid k := by
    intro k hk
    rcases List.mem_cons.mp (hmarks k hk) with rfl | hk
    · exact hinv.valid_mark
    · exact hinv.valid k hk
  refine ⟨?_, ?_, ?_, ?_, hget, ?_, ?_, ?_, ?_, ?_, ?_⟩
  · rw [hsize]
    exact hinv.size_lt
  · rw [hsize, hput]
    exact hinv.putPos_lt
  · rw [hput]
    exact hinv.aligned
  · rw [hlap]
    exact hinv.lap_pos
  · have hbefore := (hvalid s'.get List.mem_cons_self).before_put
    have hwindow := hinv.window
    simp only [Window, hlap, hput] at hwindow ⊢
    simp only [Mark.Le] at hle
    omega
  · rw [hsize, hblocks]
    exact hinv.inside
  · rw [hlap, hput, hblocks]
    exact hinv.before_put
  · rw [hblocks]
    exact hinv.ordered
  · intro k hk
    obtain ⟨hlt, haligned, hbefore, hpoint, hlater, hlast⟩ := hvalid k hk
    refine ⟨?_, ?_, ?_, ?_, ?_, ?_⟩
    · rwa [hsize]
    · rwa [hsize]
    · rwa [hlap, hput]
    · rwa [hblocks]
    · rwa [hblocks]
    · rwa [hblocks, hmark]
  · exact fun k hk l hl => hinv.le_of_point_le (hmarks k hk) (hmarks l hl)

theorem setGetPos {k : Mark} (h : s.setGetPos k = some s') : s'.Invariant := by
  rw [System.setGetPos] at h
  split_ifs at h with hk
  cases h
  obtain ⟨hmem, hpoint⟩ := hk
  refine hinv.move rfl rfl rfl rfl rfl ?_ ?_
  · rintro l hl
    rcases List.mem_cons.mp hl with rfl | hl
    · exact List.mem_cons_of_mem _ (List.mem_cons_of_mem _ hmem)
    · exact List.mem_cons_of_mem _ (List.mem_cons_of_mem _ hl)
  · exact hinv.monotone _ List.mem_cons_self k (List.mem_cons_of_mem _ hmem) hpoint

-- A new block is behind all others, and ahead of the get position.
theorem append {b : Block} (hsize : s'.heap.size = s.heap.size)
    (hblocks : s'.blocks = s.blocks ++ [b]) (hget : s'.heap.getPos = s.heap.getPos)
    (hget' : s'.get = s.get) (hmarks : s'.marks = s.marks)
    (hput : s'.heap.putPos < s.heap.size) (haligned : 16 ∣ s'.heap.putPos)
    (hinside : b.start + b.length ≤ s.heap.size ∧ b.alignment ∣ b.start)
    (hbefore : b.Before s'.lap s'.heap.putPos)
    (hstart : s.lap < b.lap ∨ s.lap = b.lap ∧ s.heap.putPos ≤ b.start)
    (hlap : s.lap < s'.lap ∨ s.lap = s'.lap ∧ s.heap.putPos ≤ s'.heap.putPos)
    (hwindow : s'.Window) : s'.Invariant := by
  have hpos := hinv.lap_pos
  have hearlier : ∀ c ∈ s.blocks, c.Before b.lap b.start := by
    intro c hc
    have hput := hinv.before_put c hc
    simp only [Block.Before] at hput ⊢
    omega
  refine ⟨?_, ?_, haligned, by omega, ?_, hwindow, ?_, ?_, ?_, ?_, ?_⟩
  · rw [hsize]
    exact hinv.size_lt
  · rwa [hsize]
  · rw [hget, hget']
    exact hinv.getPos
  · intro c hc
    rw [hblocks, List.mem_append, List.mem_singleton] at hc
    rw [hsize]
    rcases hc with hc | rfl
    · exact hinv.inside c hc
    · exact hinside
  · intro c hc
    rw [hblocks, List.mem_append, List.mem_singleton] at hc
    rcases hc with hc | rfl
    · have hput := hinv.before_put c hc
      simp only [Block.Before] at hput ⊢
      omega
    · exact hbefore
  · rw [hblocks, List.pairwise_append]
    refine ⟨hinv.ordered, List.pairwise_singleton _ _, ?_⟩
    intro c hc d hd
    rw [List.mem_singleton.mp hd]
    exact hearlier c hc
  · intro k hk
    rw [hget', hmarks] at hk
    obtain ⟨hlt, haligned', hput', hpoint, hlater, -⟩ := hinv.valid k hk
    refine ⟨by rwa [hsize], by rwa [hsize], by omega, ?_, ?_, ?_⟩
    · rw [hblocks, List.length_append]
      omega
    · intro c hc
      rw [hblocks, List.drop_append_of_le_length hpoint, List.mem_append,
        List.mem_singleton] at hc
      rcases hc with hc | rfl
      · exact hlater c hc
      · simp only [Block.After]
        omega
    · intro hlast
      rw [hblocks, List.length_append, List.length_singleton] at hlast
      omega
  · rw [hget', hmarks]
    exact hinv.monotone

theorem alloc {alignment : Alignment} {size : Nat} (hregular : s.Regular alignment size)
    (h : s.alloc alignment.value size = some s') : s'.Invariant := by
  obtain ⟨hsum, hbehind⟩ := hregular
  have ha := alignUp_eq alignment (n := s.heap.putPos) (by omega)
  have hc := alignUp_eq alignment (n := size) (by omega)
  have hput := le_ceilTo (n := s.heap.putPos) alignment.pos
  have hlength := le_ceilTo (n := size) alignment.pos
  have hdvd := ceilTo_dvd alignment.value s.heap.putPos
  have hadvd := alignment.sixteen_dvd.trans hdvd
  have hcdvd := alignment.sixteen_dvd.trans (ceilTo_dvd alignment.value size)
  generalize ceilTo alignment.value s.heap.putPos = a at *
  generalize ceilTo alignment.value size = c at *
  simp only [System.alloc, Option.bind_eq_bind, Option.bind_eq_some_iff] at h
  obtain ⟨⟨heap, start⟩, halloc, hs⟩ := h
  have hadd : add a c = a + c := Nat.mod_eq_of_lt hsum
  simp only [ha, hc, hadd] at hs
  cases hs
  obtain ⟨hsize, hget, hcases⟩ := Heap.alloc_cases ha hc hsum halloc
  have hwindow := hinv.window
  have hgetPos := hinv.getPos
  obtain ⟨hvalue, haligned, -, -, -, -⟩ := hinv.valid s.get List.mem_cons_self
  simp only [Window] at hwindow
  rcases hcases with ⟨hfits, hput', rfl, hroom⟩ | ⟨hover, hput', rfl, hlow, hroom⟩
  · rw [if_pos hfits]
    refine hinv.append hsize rfl hget rfl rfl ?_ ?_ ⟨?_, hdvd⟩ ?_ ?_ ?_ ?_
    · simp only [hput']
      exact hfits
    · simp only [hput']
      exact Nat.dvd_add hadvd hcdvd
    · simp only
      omega
    · refine .inr ⟨rfl, ?_⟩
      simp only [hput']
      omega
    · exact .inr ⟨rfl, hput⟩
    · refine .inr ⟨rfl, ?_⟩
      simp only [hput']
      omega
    · simp only [Window, hput']
      omega
  · rw [if_neg (Nat.not_lt.mpr hover)]
    -- the last position of a heap is not behind the put position
    have hne : c ≠ s.get.value := by
      have hlt := hinv.putPos_lt
      omega
    refine hinv.append hsize rfl hget rfl rfl ?_ ?_ ⟨?_, Nat.dvd_zero _⟩ ?_ ?_ ?_ ?_
    · simp only [hput']
      omega
    · simp only [hput']
      exact hcdvd
    · simp only
      omega
    · refine .inr ⟨rfl, ?_⟩
      simp only [hput']
      omega
    · exact .inl (Nat.lt_succ_self _)
    · exact .inl (Nat.lt_succ_self _)
    · simp only [Window, hput']
      omega

theorem step {op : Op}
    (hregular : ∀ alignment size, op = .alloc alignment size → s.Regular alignment size)
    (h : s.step op = some s') : s'.Invariant := by
  have hget := hinv.getPos
  have hself : s.get.Le s.get := .inr ⟨rfl, Nat.le_refl _⟩
  cases op with
  | alloc alignment size => exact hinv.alloc (hregular alignment size rfl) h
  | getCurrentPutPosMinusOne =>
      cases h
      refine hinv.move rfl rfl rfl rfl hget ?_ hself
      intro k hk
      simp only [List.mem_cons] at hk ⊢
      tauto
  | setGetPos k => exact hinv.setGetPos h
  | resetAllocationStats =>
      cases h
      refine hinv.move rfl rfl rfl rfl rfl ?_ (hinv.le_mark (hinv.valid _ List.mem_cons_self))
      intro k hk
      simp only [List.mem_cons] at hk ⊢
      tauto
  | notify =>
      simp only [System.step, Option.map_eq_some_iff] at h
      obtain ⟨heap, hnotify, rfl⟩ := h
      obtain ⟨hsize, hput, hgetPos⟩ := Heap.notify_fields hnotify
      refine hinv.move hsize hput rfl rfl (hgetPos.trans hget) ?_ hself
      exact fun k hk => List.mem_cons_of_mem _ hk

end Invariant

section Start

variable {heapSize minGuardSize : Nat}

theorem start_invariant (hsize : heapSize < word) (hlt : 1 < heapSize) :
    (start heapSize minGuardSize).Invariant := by
  have hsub : sub heapSize 1 = heapSize - 1 := sub_of_le hsize (by omega)
  have hmark : (start heapSize minGuardSize).mark = (start heapSize minGuardSize).get := by
    simp [mark, start, Heap.init, Heap.getCurrentPutPosMinusOne]
  have hvalid : (start heapSize minGuardSize).Valid (start heapSize minGuardSize).get := by
    refine ⟨?_, .inr ?_, .inl Nat.one_pos, Nat.le_refl _, ?_, fun _ => hmark.symm⟩
    · simp only [start, Heap.init, hsub]
      omega
    · simp only [start, Heap.init, hsub]
      omega
    · intro b hb
      cases hb
  refine ⟨hsize, ?_, ?_, Nat.one_pos, ?_, .inr ⟨?_, ?_⟩, ?_, ?_, .nil, ?_, ?_⟩
  · simp only [start, Heap.init]
    omega
  · simp only [start, Heap.init]
    omega
  · simp only [start, Heap.init]
  · simp only [start]
  · simp only [start, Heap.init, hsub]
    omega
  · intro b hb
    cases hb
  · intro b hb
    cases hb
  · intro k hk
    rw [List.mem_singleton.mp hk]
    exact hvalid
  · intro k hk l hl _
    rw [List.mem_singleton.mp hk, List.mem_singleton.mp hl]
    exact .inr ⟨rfl, Nat.le_refl _⟩

end Start

-- A heap without memory, whose get position is the largest word.
structure Empty (s : System) : Prop where
  size : s.heap.size = 0
  putPos : s.heap.putPos = 0
  getPos : s.heap.getPos = umax
  blocks : s.blocks = []
  marks : ∀ k ∈ s.marks, k.value = umax

namespace Empty

variable {s s' : System} (hempty : s.Empty)

include hempty

theorem sound : s.Sound := by
  refine ⟨?_, ?_, ?_, Heap.notify_isSome.mpr (.inl hempty.getPos)⟩
  · rw [hempty.blocks]
    exact fun b hb => absurd hb List.not_mem_nil
  · rw [hempty.blocks, List.drop_nil]
    exact .nil
  · rw [hempty.putPos, hempty.getPos]
    decide

theorem mark_value : s.mark.value = umax := by
  simp only [mark, Heap.getCurrentPutPosMinusOne, hempty.putPos, hempty.size]
  decide

theorem alloc {alignment : Alignment} {size : Nat} (hregular : s.Regular alignment size) :
    s.alloc alignment.value size = none := by
  obtain ⟨hsum, -⟩ := hregular
  have ha := alignUp_eq alignment (n := s.heap.putPos) (by omega)
  have hc := alignUp_eq alignment (n := size) (by omega)
  have hdvd := alignment.sixteen_dvd.trans (ceilTo_dvd alignment.value s.heap.putPos)
  cases halloc : s.heap.alloc alignment.value size with
  | none =>
      rw [System.alloc, halloc]
      rfl
  | some result =>
      obtain ⟨-, -, hcases⟩ := Heap.alloc_cases ha hc hsum halloc
      have hsize := hempty.size
      have hget := hempty.getPos
      simp only [umax, word] at hget hsum
      omega

theorem step {op : Op}
    (hregular : ∀ alignment size, op = .alloc alignment size → s.Regular alignment size)
    (h : s.step op = some s') : s'.Empty := by
  cases op with
  | alloc alignment size =>
      simp only [System.step, hempty.alloc (hregular alignment size rfl)] at h
      cases h
  | getCurrentPutPosMinusOne =>
      cases h
      refine ⟨hempty.size, hempty.putPos, hempty.getPos, hempty.blocks, ?_⟩
      intro k hk
      rcases List.mem_cons.mp hk with rfl | hk
      · exact hempty.mark_value
      · exact hempty.marks k hk
  | setGetPos k =>
      simp only [System.step, System.setGetPos] at h
      split_ifs at h with hk
      cases h
      exact ⟨hempty.size, hempty.putPos, hempty.marks k hk.1, hempty.blocks, hempty.marks⟩
  | resetAllocationStats =>
      cases h
      exact ⟨hempty.size, hempty.putPos, hempty.mark_value, hempty.blocks, hempty.marks⟩
  | notify =>
      simp only [System.step, Option.map_eq_some_iff] at h
      obtain ⟨heap, hnotify, rfl⟩ := h
      obtain ⟨hsize, hput, hgetPos⟩ := Heap.notify_fields hnotify
      exact ⟨hsize.trans hempty.size, hput.trans hempty.putPos, hgetPos.trans hempty.getPos,
        hempty.blocks, hempty.marks⟩

end Empty

end System

variable {heapSize minGuardSize : Nat} {s : System}

theorem invariant_of_reachable (hsize : heapSize < word) (hlt : 1 < heapSize)
    (h : Reachable heapSize minGuardSize s) : s.Invariant := by
  induction h with
  | start => exact System.start_invariant hsize hlt
  | step _ hregular hstep ih => exact ih.step hregular hstep

theorem empty_of_reachable (h : Reachable 0 minGuardSize s) : s.Empty := by
  induction h with
  | start => exact ⟨rfl, rfl, rfl, rfl, fun k hk => absurd hk List.not_mem_nil⟩
  | step _ hregular hstep ih => exact ih.step hregular hstep

theorem data_heap_sound (hsize : heapSize < word) (hne : heapSize ≠ 1)
    (h : Reachable heapSize minGuardSize s) : s.Sound := by
  rcases Nat.eq_zero_or_pos heapSize with rfl | hpos
  · exact (empty_of_reachable h).sound
  · exact (invariant_of_reachable hsize (by omega) h).sound

theorem data_heap_sound_block : ∃ s,
    (System.start 256 0x10000).step (.alloc ⟨4, by decide, by decide⟩ 208) = some s ∧
      s.Sound := by
  have hstart : Reachable 256 0x10000 (.start 256 0x10000) := .start
  obtain ⟨s, hs⟩ : ∃ s, (System.start 256 0x10000).step (.alloc ⟨4, by decide, by decide⟩ 208) =
      some s := ⟨_, rfl⟩
  refine ⟨s, hs, data_heap_sound (by decide) (by decide) (hstart.step ?_ hs)⟩
  rintro _ _ ⟨⟩
  exact ⟨by decide, by decide⟩

-- Rounded up, the put position is past the get position, and the second block gets the memory of
-- the first one.
theorem live_block_handed_out :
    ∃ s, [.alloc ⟨4, by decide, by decide⟩ 208, .alloc ⟨6, by decide, by decide⟩ 64].foldlM
      System.step (System.start 256 0x10000) = some s ∧ ¬s.Sound := by
  refine ⟨_, rfl, ?_⟩
  intro hsound
  exact absurd hsound.apart (by decide)

end Rpcsx.Rsx.DataHeap
