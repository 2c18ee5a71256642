import Mathlib
import Rpcsx.Data.Interleaving

-- stx::atomic_ptr: a word with a pointer and, in its low 16 bits, the number of references that
-- running loads have borrowed from it.
namespace Rpcsx.AtomicPtr

abbrev Word := BitVec 64

-- An address; zero is the null pointer.
abbrev Ptr := BitVec 64

-- c_ref_mask and c_ref_size
def cRefMask : Nat := 0xFFFF

def toVal (ptr : Ptr) : Word := ptr <<< 16

def ptrTo (val : Word) : Ptr := val >>> 16

-- val & c_ref_mask
def borrowed (val : Word) : Nat := (val &&& 0xFFFF).toNat

-- Where the threads are: what each of them has in its hands between two atomic accesses.
-- `κ` names the atomic pointers of the program.
inductive Task (κ : Type) where
  -- a shared_ptr that is not null
  | owned (ptr : Ptr)
  -- load: m_val has been incremented; then refs; then m_val had another pointer
  | load (cell : κ) (ptr : Ptr)
  | loadRef (cell : κ) (ptr : Ptr)
  | loadStale (ptr : Ptr)
  -- peek_op: m_val has been incremented and the callback has the pointer
  | peek (cell : κ) (ptr : Ptr)
  -- c_ref_mask has been added to the refs of the new value, which is still to be written
  | store (cell : κ) (value : Ptr)
  | exchange (cell : κ) (value : Ptr)
  | compareAndSwapTest (cell : κ) (cmp value : Ptr)
  | pushHead (cell : κ) (value : Ptr)
  | compareExchange (cell : κ) (cmp value : Ptr)
  -- the local `old` with a word that has been taken out, before its destructor
  | drop (old : Word)
deriving DecidableEq

structure State (κ : Type) where
  cells : κ → Word
  -- refs of the control block; zero where there is none (any more)
  refs : Ptr → Nat
  tasks : Multiset (Task κ)

inductive Event (κ : Type) where
  -- make_single, the copy constructor and reset of shared_ptr
  | make (ptr : Ptr)
  | copy (ptr : Ptr)
  | reset (ptr : Ptr)
  -- the calls' first accesses
  | load (cell : κ)
  | peekOp (cell : κ)
  | store (cell : κ) (value : Ptr)
  | exchange (cell : κ) (value : Ptr)
  | compareAndSwapTest (cell : κ) (cmp value : Ptr)
  | pushHead (cell : κ) (value : Ptr)
  | compareExchange (cell : κ) (cmp value : Ptr)
  -- the destructor of an atomic_ptr
  | destroy (cell : κ)
  -- the next access of a call that has begun
  | advance (task : Task κ)

variable {κ : Type}

-- The shared_ptr with a pointer, none where it is null.
def owned (ptr : Ptr) : Multiset (Task κ) := if ptr = 0 then 0 else {.owned ptr}

def addRefs (refs : Ptr → Nat) (ptr : Ptr) (count : Nat) : Ptr → Nat :=
  if ptr = 0 then refs else Function.update refs ptr (refs ptr + count)

-- Where this leaves zero, the object is destroyed.
def subRefs (refs : Ptr → Nat) (ptr : Ptr) (count : Nat) : Ptr → Nat :=
  if ptr = 0 then refs else Function.update refs ptr (refs ptr - count)

variable [DecidableEq κ]

-- One thread goes from `before` to `after`.
def State.move (s : State κ) (before after : Multiset (Task κ)) : State κ :=
  { s with tasks := after + (s.tasks - before) }

def State.write (s : State κ) (cell : κ) (val : Word) : State κ :=
  { s with cells := Function.update s.cells cell val }

def State.setRefs (s : State κ) (refs : Ptr → Nat) : State κ := { s with refs }

-- if (value.m_ptr) value.d()->refs += c_ref_mask, in front of the write of a new value
def State.arm (s : State κ) (value : Ptr) (before : Multiset (Task κ)) (task : Task κ) :
    Option (State κ) :=
  if before ≤ s.tasks then
    some ((s.setRefs (addRefs s.refs value cRefMask)).move before {task})
  else none

-- The accesses behind the first one. The fetch_op calls are atomic as a whole.
def State.advance (s : State κ) : Task κ → State κ
  | .owned _ => s
  | .load cell ptr =>
      (s.setRefs (addRefs s.refs ptr 1)).move {.load cell ptr} {.loadRef cell ptr}
  | .loadRef cell ptr =>
      if ptrTo (s.cells cell) = ptr then
        (s.write cell (s.cells cell - 1)).move {.loadRef cell ptr} {.owned ptr}
      else
        s.move {.loadRef cell ptr} {.loadStale ptr}
  | .loadStale ptr =>
      (s.setRefs (subRefs s.refs ptr 1)).move {.loadStale ptr} {.owned ptr}
  | .peek cell ptr =>
      if ptrTo (s.cells cell) = ptr then
        (s.write cell (s.cells cell - 1)).move {.peek cell ptr} 0
      else
        -- the fake shared_ptr stays and becomes a real one
        s.move {.peek cell ptr} {.owned ptr}
  | .store cell value =>
      (s.write cell (toVal value)).move {.store cell value} {.drop (s.cells cell)}
  | .exchange cell value =>
      let old := s.cells cell + 1
      (s.write cell (toVal value)).move {.exchange cell value} ({.drop old} + owned (ptrTo old))
  | .compareAndSwapTest cell cmp value =>
      if ptrTo (s.cells cell) = cmp then
        (s.write cell (toVal value)).move {.compareAndSwapTest cell cmp value}
          {.drop (s.cells cell)}
      else
        s.move {.compareAndSwapTest cell cmp value} {.drop (toVal value)}
  | .pushHead cell value =>
      -- `next` gets the old pointer
      let next := ptrTo (s.cells cell)
      let old := if next = 0 then s.cells cell else s.cells cell + 1
      (s.write cell (toVal value)).move {.pushHead cell value} ({.drop old} + owned next)
  | .compareExchange cell cmp value =>
      if ptrTo (s.cells cell) = cmp then
        (s.write cell (toVal value)).move {.compareExchange cell cmp value}
          ({.drop (s.cells cell)} + owned cmp)
      else if s.cells cell = 0 then
        -- cmp_and_old keeps its pointer
        s.move {.compareExchange cell cmp value}
          ({.drop (toVal value), .drop (toVal cmp ||| 0xFFFF)} + owned cmp)
      else
        (s.write cell (s.cells cell + 1)).move {.compareExchange cell cmp value}
          {.drop (toVal value), .drop (toVal cmp ||| 0xFFFF), .load cell (ptrTo (s.cells cell))}
  | .drop old =>
      (s.setRefs (subRefs s.refs (ptrTo old) (cRefMask + 1 - borrowed old))).move {.drop old} 0

def step (s : State κ) : Event κ → Option (State κ)
  | .make ptr =>
      -- the allocator gives out addresses of 48 bits where nothing lives
      if ptr ≠ 0 ∧ ptr.toNat < 2 ^ 48 ∧ s.refs ptr = 0 then
        some ((s.setRefs (addRefs s.refs ptr 1)).move 0 {.owned ptr})
      else none
  | .copy ptr =>
      if owned ptr ≤ s.tasks then
        some ((s.setRefs (addRefs s.refs ptr 1)).move 0 (owned ptr))
      else none
  | .reset ptr =>
      if owned ptr ≤ s.tasks then
        some ((s.setRefs (subRefs s.refs ptr 1)).move (owned ptr) 0)
      else none
  | .load cell =>
      let ptr := ptrTo (s.cells cell)
      some (if ptr = 0 then s else (s.write cell (s.cells cell + 1)).move 0 {.load cell ptr})
  | .peekOp cell =>
      let ptr := ptrTo (s.cells cell)
      some (if ptr = 0 then s else (s.write cell (s.cells cell + 1)).move 0 {.peek cell ptr})
  | .store cell value => s.arm value (owned value) (.store cell value)
  | .exchange cell value => s.arm value (owned value) (.exchange cell value)
  | .compareAndSwapTest cell cmp value =>
      s.arm value (owned value) (.compareAndSwapTest cell cmp value)
  | .pushHead cell value => s.arm value (owned value) (.pushHead cell value)
  | .compareExchange cell cmp value =>
      s.arm value (owned value + owned cmp) (.compareExchange cell cmp value)
  | .destroy cell => some ((s.write cell 0).move 0 {.drop (s.cells cell)})
  | .advance task => if task ∈ s.tasks then some (s.advance task) else none

def run (s : State κ) (events : List (Event κ)) : Option (State κ) := events.foldlM step s

def initial : State κ := { cells := fun _ => 0, refs := fun _ => 0, tasks := 0 }

open Data.Interleaving

theorem toNat_ptrTo (val : Word) : (ptrTo val).toNat = val.toNat / 65536 := by
  rw [ptrTo, BitVec.toNat_ushiftRight, Nat.shiftRight_eq_div_pow]

theorem borrowed_eq (val : Word) : borrowed val = val.toNat % 65536 := by
  rw [borrowed, BitVec.toNat_and]
  exact Nat.and_two_pow_sub_one_eq_mod val.toNat 16

theorem borrowed_le (val : Word) : borrowed val ≤ cRefMask := by
  have := borrowed_eq val
  simp only [cRefMask]
  omega

theorem toNat_add_one {val : Word} (h : borrowed val < cRefMask) :
    (val + 1).toNat = val.toNat + 1 := by
  have := borrowed_eq val
  have := val.isLt
  have hone : (1 : BitVec 64).toNat = 1 := rfl
  simp only [cRefMask] at h
  rw [BitVec.toNat_add, hone]
  omega

theorem toNat_sub_one {val : Word} (h : 0 < borrowed val) :
    (val - 1).toNat = val.toNat - 1 := by
  have := borrowed_eq val
  have := val.isLt
  have hone : (1 : BitVec 64).toNat = 1 := rfl
  rw [BitVec.toNat_sub, hone]
  omega

theorem ptrTo_add_one {val : Word} (h : borrowed val < cRefMask) : ptrTo (val + 1) = ptrTo val := by
  have hb := borrowed_eq val
  apply BitVec.eq_of_toNat_eq
  rw [toNat_ptrTo, toNat_ptrTo, toNat_add_one h]
  simp only [cRefMask] at h
  omega

theorem borrowed_add_one {val : Word} (h : borrowed val < cRefMask) :
    borrowed (val + 1) = borrowed val + 1 := by
  have hb := borrowed_eq val
  rw [borrowed_eq (val + 1), toNat_add_one h]
  simp only [cRefMask] at h
  omega

theorem ptrTo_sub_one {val : Word} (h : 0 < borrowed val) : ptrTo (val - 1) = ptrTo val := by
  have hb := borrowed_eq val
  apply BitVec.eq_of_toNat_eq
  rw [toNat_ptrTo, toNat_ptrTo, toNat_sub_one h]
  omega

theorem borrowed_sub_one {val : Word} (h : 0 < borrowed val) :
    borrowed (val - 1) = borrowed val - 1 := by
  have hb := borrowed_eq val
  rw [borrowed_eq (val - 1), toNat_sub_one h]
  omega

theorem toNat_toVal {ptr : Ptr} (h : ptr.toNat < 2 ^ 48) :
    (toVal ptr).toNat = ptr.toNat * 65536 := by
  rw [toVal, BitVec.toNat_shiftLeft, Nat.shiftLeft_eq]
  omega

theorem ptrTo_toVal {ptr : Ptr} (h : ptr.toNat < 2 ^ 48) : ptrTo (toVal ptr) = ptr := by
  apply BitVec.eq_of_toNat_eq
  rw [toNat_ptrTo, toNat_toVal h]
  omega

theorem borrowed_toVal {ptr : Ptr} (h : ptr.toNat < 2 ^ 48) : borrowed (toVal ptr) = 0 := by
  rw [borrowed_eq, toNat_toVal h]
  omega

-- to_val(ptr) | c_ref_mask: all but one reference are borrowed.
theorem toNat_lent {ptr : Ptr} (h : ptr.toNat < 2 ^ 48) :
    (toVal ptr ||| 0xFFFF).toNat = ptr.toNat * 65536 + 65535 := by
  have hmask : (0xFFFF : BitVec 64).toNat = 65535 := rfl
  have hshift : ptr.toNat * 65536 = ptr.toNat <<< 16 := by rw [Nat.shiftLeft_eq]
  rw [BitVec.toNat_or, toNat_toVal h, hmask, hshift,
    ← Nat.shiftLeft_add_eq_or_of_lt (by decide : 65535 < 2 ^ 16)]

theorem ptrTo_lent {ptr : Ptr} (h : ptr.toNat < 2 ^ 48) : ptrTo (toVal ptr ||| 0xFFFF) = ptr := by
  apply BitVec.eq_of_toNat_eq
  rw [toNat_ptrTo, toNat_lent h]
  omega

theorem borrowed_lent {ptr : Ptr} (h : ptr.toNat < 2 ^ 48) :
    borrowed (toVal ptr ||| 0xFFFF) = cRefMask := by
  rw [borrowed_eq, toNat_lent h, cRefMask]
  omega

theorem eq_zero_of_ptrTo {val : Word} (hp : ptrTo val = 0) (hb : borrowed val = 0) : val = 0 := by
  have h1 := toNat_ptrTo val
  have h2 := borrowed_eq val
  rw [hp] at h1
  apply BitVec.eq_of_toNat_eq
  have h0 : (0 : BitVec 64).toNat = 0 := rfl
  rw [h0] at h1 ⊢
  omega

variable {κ : Type}

-- The references that a word stands for, and those that a task has in its hands.
def cellWeight (ptr : Ptr) (val : Word) : Nat :=
  if ptrTo val = ptr then cRefMask + 1 - borrowed val else 0

def one (ptr ptr' : Ptr) : Nat := if ptr' = ptr then 1 else 0

def Task.weight (ptr : Ptr) : Task κ → Nat
  | .owned q => one ptr q
  | .load _ q => one ptr q
  | .loadRef _ q => 2 * one ptr q
  | .loadStale q => 2 * one ptr q
  | .peek _ q => one ptr q
  | .store _ q => (cRefMask + 1) * one ptr q
  | .exchange _ q => (cRefMask + 1) * one ptr q
  | .compareAndSwapTest _ _ q => (cRefMask + 1) * one ptr q
  | .pushHead _ q => (cRefMask + 1) * one ptr q
  | .compareExchange _ cmp q => (cRefMask + 1) * one ptr q + one ptr cmp
  | .drop old => cellWeight ptr old

-- The tasks that m_val's low bits count.
def Task.Lends (cell : κ) (ptr : Ptr) (task : Task κ) : Prop :=
  task = .load cell ptr ∨ task = .loadRef cell ptr ∨ task = .peek cell ptr

-- The pointers that have to be there.
def Task.Real : Task κ → Prop
  | .owned q => q ≠ 0
  | .load _ q => q ≠ 0
  | .loadRef _ q => q ≠ 0
  | .loadStale q => q ≠ 0
  | .peek _ q => q ≠ 0
  | _ => True

def amount (weight : Task κ → Nat) (tasks : Multiset (Task κ)) : Nat := (tasks.map weight).sum

@[simp] theorem amount_zero (weight : Task κ → Nat) : amount weight 0 = 0 := rfl

@[simp] theorem amount_singleton (weight : Task κ → Nat) (t : Task κ) :
    amount weight {t} = weight t := by simp [amount]

@[simp] theorem amount_add (weight : Task κ → Nat) (a b : Multiset (Task κ)) :
    amount weight (a + b) = amount weight a + amount weight b := by simp [amount]

@[simp] theorem amount_cons (weight : Task κ → Nat) (t : Task κ) (a : Multiset (Task κ)) :
    amount weight (t ::ₘ a) = weight t + amount weight a := by simp [amount]

theorem le_amount (weight : Task κ → Nat) {tasks : Multiset (Task κ)} {t : Task κ}
    (h : t ∈ tasks) : weight t ≤ amount weight tasks :=
  Multiset.single_le_sum (fun _ _ => Nat.zero_le _) _ (Multiset.mem_map_of_mem weight h)

variable [DecidableEq κ]

def lends (cell : κ) (ptr : Ptr) (task : Task κ) : Nat :=
  match task with
  | .load c q => if c = cell ∧ q = ptr then 1 else 0
  | .loadRef c q => if c = cell ∧ q = ptr then 1 else 0
  | .peek c q => if c = cell ∧ q = ptr then 1 else 0
  | _ => 0

theorem amount_move (weight : Task κ → Nat) {tasks before : Multiset (Task κ)}
    (h : before ≤ tasks) (after : Multiset (Task κ)) :
    amount weight (after + (tasks - before)) + amount weight before =
      amount weight tasks + amount weight after := by
  have hsplit : amount weight tasks = amount weight before + amount weight (tasks - before) := by
    rw [← amount_add, add_tsub_cancel_of_le h]
  rw [amount_add, hsplit]
  omega

variable [Fintype κ]

-- What holds between any two accesses.
structure Inv (s : State κ) : Prop where
  balanced : ∀ ptr ≠ 0, s.refs ptr =
    total (cellWeight ptr) s.cells + amount (Task.weight ptr) s.tasks
  lent : ∀ cell, borrowed (s.cells cell) =
    amount (lends cell (ptrTo (s.cells cell))) s.tasks
  real : ∀ t ∈ s.tasks, t.Real
  canonical : ∀ ptr, s.refs ptr ≠ 0 → ptr.toNat < 2 ^ 48

omit [Fintype κ] in
theorem lends_eq_zero {cell : κ} {ptr : Ptr} {t : Task κ} (h : ¬t.Lends cell ptr) :
    lends cell ptr t = 0 := by
  cases t with
  | load c q => exact if_neg fun hc => h (.inl (by rw [hc.1, hc.2]))
  | loadRef c q => exact if_neg fun hc => h (.inr (.inl (by rw [hc.1, hc.2])))
  | peek c q => exact if_neg fun hc => h (.inr (.inr (by rw [hc.1, hc.2])))
  | owned q | loadStale q | store c q | exchange c q | compareAndSwapTest c cmp q
  | pushHead c q | compareExchange c cmp q | drop old => rfl

omit [Fintype κ] in
theorem amount_lends_eq_zero {cell : κ} {ptr : Ptr} {tasks : Multiset (Task κ)}
    (h : ∀ t ∈ tasks, ¬t.Lends cell ptr) : amount (lends cell ptr) tasks = 0 := by
  apply Multiset.sum_eq_zero
  intro n hn
  obtain ⟨t, ht, rfl⟩ := Multiset.mem_map.mp hn
  exact lends_eq_zero (h t ht)

omit [Fintype κ] in
theorem mem_move {s : State κ} {before after : Multiset (Task κ)} {t : Task κ}
    (h : t ∈ (s.move before after).tasks) : t ∈ after ∨ t ∈ s.tasks := by
  rcases Multiset.mem_add.mp h with h | h
  · exact .inl h
  · exact .inr (Multiset.mem_of_le tsub_le_self h)

-- An access that changes reference counts only.
theorem Inv.refs_move {s : State κ} (h : Inv s) {before after : Multiset (Task κ)}
    (hb : before ≤ s.tasks) {refs : Ptr → Nat}
    (hrefs : ∀ ptr ≠ 0, refs ptr + amount (Task.weight ptr) before =
      s.refs ptr + amount (Task.weight ptr) after)
    (hlent : ∀ cell, amount (lends cell (ptrTo (s.cells cell))) before =
      amount (lends cell (ptrTo (s.cells cell))) after)
    (hreal : ∀ t ∈ after, t.Real) (hcanon : ∀ ptr, refs ptr ≠ 0 → ptr.toNat < 2 ^ 48) :
    Inv ((s.setRefs refs).move before after) where
  balanced ptr hptr := by
    have hmove := amount_move (Task.weight ptr) hb after
    have hbal := h.balanced ptr hptr
    have hr := hrefs ptr hptr
    have hgoal : refs ptr =
        total (cellWeight ptr) s.cells + amount (Task.weight ptr) (after + (s.tasks - before)) := by
      omega
    exact hgoal
  lent cell := by
    have hmove := amount_move (lends cell (ptrTo (s.cells cell))) hb after
    have hl := h.lent cell
    have he := hlent cell
    have hgoal : borrowed (s.cells cell) =
        amount (lends cell (ptrTo (s.cells cell))) (after + (s.tasks - before)) := by
      omega
    exact hgoal
  real t ht := (mem_move ht).elim (hreal t) (h.real t)
  canonical := hcanon

-- An access to the word of one atomic pointer.
theorem Inv.write_move {s : State κ} (h : Inv s) {before after : Multiset (Task κ)}
    (hb : before ≤ s.tasks) (cell : κ) {val : Word}
    (hrefs : ∀ ptr ≠ 0, cellWeight ptr (s.cells cell) + amount (Task.weight ptr) before =
      cellWeight ptr val + amount (Task.weight ptr) after)
    (hlent : borrowed val + amount (lends cell (ptrTo val)) before =
      amount (lends cell (ptrTo val)) s.tasks + amount (lends cell (ptrTo val)) after)
    (hother : ∀ c ≠ cell, ∀ ptr, amount (lends c ptr) before = amount (lends c ptr) after)
    (hreal : ∀ t ∈ after, t.Real) : Inv ((s.write cell val).move before after) where
  balanced ptr hptr := by
    have hmove := amount_move (Task.weight ptr) hb after
    have hcells := total_update_add (cellWeight ptr) s.cells cell val
    have hbal := h.balanced ptr hptr
    have hr := hrefs ptr hptr
    have hgoal : s.refs ptr = total (cellWeight ptr) (Function.update s.cells cell val) +
        amount (Task.weight ptr) (after + (s.tasks - before)) := by
      omega
    exact hgoal
  lent c := by
    by_cases hc : c = cell
    · subst hc
      have hmove := amount_move (lends c (ptrTo val)) hb after
      have hgoal : borrowed (Function.update s.cells c val c) =
          amount (lends c (ptrTo (Function.update s.cells c val c)))
            (after + (s.tasks - before)) := by
        rw [Function.update_self]
        omega
      exact hgoal
    · have hmove := amount_move (lends c (ptrTo (s.cells c))) hb after
      have hl := h.lent c
      have he := hother c hc (ptrTo (s.cells c))
      have hgoal : borrowed (Function.update s.cells cell val c) =
          amount (lends c (ptrTo (Function.update s.cells cell val c)))
            (after + (s.tasks - before)) := by
        rw [Function.update_of_ne hc]
        omega
      exact hgoal
  real t ht := (mem_move ht).elim (hreal t) (h.real t)
  canonical := h.canonical

-- The conditions under which a word is changed: its 16 bits have room for one more load, and a
-- pointer is not written where a load of the same pointer is still running.
def NoLoad (s : State κ) (cell : κ) (ptr : Ptr) : Prop := ∀ t ∈ s.tasks, ¬t.Lends cell ptr

def Allowed (s : State κ) : Event κ → Prop
  | .load cell => borrowed (s.cells cell) < cRefMask
  | .peekOp cell => borrowed (s.cells cell) < cRefMask
  | .advance (.store cell value) => NoLoad s cell value
  | .advance (.exchange cell value) => NoLoad s cell value ∧ borrowed (s.cells cell) < cRefMask
  | .advance (.pushHead cell value) => NoLoad s cell value ∧ borrowed (s.cells cell) < cRefMask
  | .advance (.compareAndSwapTest cell cmp value) =>
      ptrTo (s.cells cell) = cmp → NoLoad s cell value
  | .advance (.compareExchange cell cmp value) =>
      if ptrTo (s.cells cell) = cmp then NoLoad s cell value
      else s.cells cell ≠ 0 ∧ borrowed (s.cells cell) < cRefMask
  | _ => True

omit [DecidableEq κ] [Fintype κ] in
theorem amount_owned (weight : Task κ → Nat) (ptr : Ptr) :
    amount weight (owned ptr) = if ptr = 0 then 0 else weight (.owned ptr) := by
  unfold owned
  split <;> simp

section Access

variable {s : State κ} (h : Inv s)

include h

theorem Inv.weight_le {t : Task κ} (ht : t ∈ s.tasks) {ptr : Ptr} (hptr : ptr ≠ 0) :
    t.weight ptr ≤ s.refs ptr := by
  have hle := le_amount (Task.weight ptr) ht
  rw [h.balanced ptr hptr]
  omega

theorem Inv.cellWeight_le (cell : κ) {ptr : Ptr} (hptr : ptr ≠ 0) :
    cellWeight ptr (s.cells cell) ≤ s.refs ptr := by
  have hle := le_total (cellWeight ptr) s.cells cell
  rw [h.balanced ptr hptr]
  omega

-- Whatever has a reference was given out by the allocator.
theorem Inv.canonical_of_weight {t : Task κ} (ht : t ∈ s.tasks) {ptr : Ptr}
    (hpos : ptr ≠ 0 → 0 < t.weight ptr) : ptr.toNat < 2 ^ 48 := by
  by_cases hptr : ptr = 0
  · rw [hptr]
    decide
  · have hle := h.weight_le ht hptr
    have := hpos hptr
    exact h.canonical ptr (by omega)

-- A load or a peek takes one reference from the word.
theorem Inv.borrow {cell : κ} (hroom : borrowed (s.cells cell) < cRefMask) {t : Task κ}
    (hw : ∀ ptr, t.weight ptr = one ptr (ptrTo (s.cells cell)))
    (hl : ∀ c ptr, lends c ptr t = if cell = c ∧ ptrTo (s.cells cell) = ptr then 1 else 0)
    (hr : t.Real) : Inv ((s.write cell (s.cells cell + 1)).move 0 {t}) := by
  apply h.write_move (Multiset.zero_le _) cell
  · intro ptr _
    simp only [cellWeight, ptrTo_add_one hroom, borrowed_add_one hroom, amount_zero,
      amount_singleton, hw, one]
    split <;> omega
  · have hlent := h.lent cell
    rw [borrowed_add_one hroom, ptrTo_add_one hroom, amount_zero, amount_singleton, hl,
      if_pos ⟨rfl, rfl⟩, hlent]
  · intro c hc ptr
    rw [amount_zero, amount_singleton, hl, if_neg fun hcond => hc hcond.1.symm]
  · intro t' ht'
    rwa [Multiset.mem_singleton.mp ht']

theorem Inv.pos_of_lends {cell : κ} {t : Task κ} (ht : t ∈ s.tasks)
    (hl : lends cell (ptrTo (s.cells cell)) t = 1) : 0 < borrowed (s.cells cell) := by
  have hle := le_amount (lends cell (ptrTo (s.cells cell))) ht
  rw [h.lent cell]
  omega

-- The reference goes back to the word where the pointer is still the same.
theorem Inv.giveBack {cell : κ} {t : Task κ} (ht : t ∈ s.tasks)
    (hl : ∀ c ptr, lends c ptr t = if cell = c ∧ ptrTo (s.cells cell) = ptr then 1 else 0)
    {after : Multiset (Task κ)}
    (hw : ∀ ptr, t.weight ptr =
      one ptr (ptrTo (s.cells cell)) + amount (Task.weight ptr) after)
    (hafter : ∀ c ptr, amount (lends c ptr) after = 0) (hr : ∀ t' ∈ after, t'.Real) :
    Inv ((s.write cell (s.cells cell - 1)).move {t} after) := by
  have hpos : 0 < borrowed (s.cells cell) :=
    h.pos_of_lends ht (by rw [hl, if_pos ⟨rfl, rfl⟩])
  have hle := borrowed_le (s.cells cell)
  apply h.write_move (Multiset.singleton_le.mpr ht) cell
  · intro ptr _
    simp only [cellWeight, ptrTo_sub_one hpos, borrowed_sub_one hpos, amount_singleton, hw, one]
    split <;> omega
  · have hlent := h.lent cell
    rw [borrowed_sub_one hpos, ptrTo_sub_one hpos, amount_singleton, hl, if_pos ⟨rfl, rfl⟩, hafter,
      ← hlent]
    omega
  · intro c hc ptr
    rw [amount_singleton, hl, if_neg fun hcond => hc hcond.1.symm, hafter]
  · exact hr

-- A new value is written over a word, which goes to the destructor of a local.
theorem Inv.install {cell : κ} {value : Ptr} (hfree : NoLoad s cell value) {t : Task κ}
    (ht : t ∈ s.tasks) (hvalue : value.toNat < 2 ^ 48) {after : Multiset (Task κ)}
    (hw : ∀ ptr ≠ 0, cellWeight ptr (s.cells cell) + t.weight ptr =
      (cRefMask + 1) * one ptr value + amount (Task.weight ptr) after)
    (hl : ∀ c ptr, lends c ptr t = 0) (hafter : ∀ c ptr, amount (lends c ptr) after = 0)
    (hr : ∀ t' ∈ after, t'.Real) : Inv ((s.write cell (toVal value)).move {t} after) := by
  apply h.write_move (Multiset.singleton_le.mpr ht) cell
  · intro ptr hptr
    rw [amount_singleton, hw ptr hptr, cellWeight, ptrTo_toVal hvalue, borrowed_toVal hvalue, one]
    split <;> omega
  · rw [ptrTo_toVal hvalue, borrowed_toVal hvalue, amount_singleton, hl, hafter,
      amount_lends_eq_zero hfree]
  · intro c hc ptr
    rw [amount_singleton, hl, hafter]
  · exact hr

-- An access to nothing but the control block of `target`, or to nothing.
theorem Inv.recount {before after : Multiset (Task κ)} (hb : before ≤ s.tasks)
    {refs : Ptr → Nat} {target : Ptr} (htarget : target ≠ 0 → target.toNat < 2 ^ 48)
    (hsame : ∀ ptr, ptr = 0 ∨ ptr ≠ target → refs ptr = s.refs ptr)
    (hrefs : ∀ ptr ≠ 0, refs ptr + amount (Task.weight ptr) before =
      s.refs ptr + amount (Task.weight ptr) after)
    (hlent : ∀ cell, amount (lends cell (ptrTo (s.cells cell))) before =
      amount (lends cell (ptrTo (s.cells cell))) after)
    (hreal : ∀ t ∈ after, t.Real) : Inv ((s.setRefs refs).move before after) := by
  apply h.refs_move hb hrefs hlent hreal
  intro ptr hptr
  by_cases hs : ptr = 0 ∨ ptr ≠ target
  · rw [hsame ptr hs] at hptr
    exact h.canonical ptr hptr
  · push Not at hs
    rw [hs.2]
    exact htarget (hs.2 ▸ hs.1)

-- A step of a thread that accesses nothing.
theorem Inv.only_move {before after : Multiset (Task κ)} (hb : before ≤ s.tasks)
    (hweight : ∀ ptr ≠ 0, amount (Task.weight ptr) before = amount (Task.weight ptr) after)
    (hlent : ∀ cell, amount (lends cell (ptrTo (s.cells cell))) before =
      amount (lends cell (ptrTo (s.cells cell))) after)
    (hreal : ∀ t ∈ after, t.Real) : Inv (s.move before after) := by
  have hmove := h.refs_move hb (fun ptr hptr => by rw [hweight ptr hptr]) hlent hreal h.canonical
  exact hmove

end Access

theorem addRefs_eq (refs : Ptr → Nat) (target : Ptr) (n : Nat) {ptr : Ptr} (h : ptr ≠ 0) :
    addRefs refs target n ptr = refs ptr + n * one ptr target := by
  unfold addRefs one
  by_cases ht : target = 0
  · rw [if_pos ht, if_neg (by rw [ht]; exact Ne.symm h), Nat.mul_zero, Nat.add_zero]
  · by_cases hp : target = ptr
    · rw [if_neg ht, if_pos hp, ← hp, Function.update_self, Nat.mul_one]
    · rw [if_neg ht, if_neg hp, Function.update_of_ne (Ne.symm hp), Nat.mul_zero, Nat.add_zero]

theorem subRefs_eq (refs : Ptr → Nat) (target : Ptr) (n : Nat) {ptr : Ptr} (h : ptr ≠ 0) :
    subRefs refs target n ptr = refs ptr - n * one ptr target := by
  unfold subRefs one
  by_cases ht : target = 0
  · rw [if_pos ht, if_neg (by rw [ht]; exact Ne.symm h), Nat.mul_zero, Nat.sub_zero]
  · by_cases hp : target = ptr
    · rw [if_neg ht, if_pos hp, ← hp, Function.update_self, Nat.mul_one]
    · rw [if_neg ht, if_neg hp, Function.update_of_ne (Ne.symm hp), Nat.mul_zero, Nat.sub_zero]

theorem addRefs_same (refs : Ptr → Nat) (target : Ptr) (n : Nat) (ptr : Ptr)
    (h : ptr = 0 ∨ ptr ≠ target) : addRefs refs target n ptr = refs ptr := by
  unfold addRefs
  split
  · rfl
  · rename_i ht
    apply Function.update_of_ne
    rcases h with rfl | h
    · exact Ne.symm ht
    · exact h

theorem subRefs_same (refs : Ptr → Nat) (target : Ptr) (n : Nat) (ptr : Ptr)
    (h : ptr = 0 ∨ ptr ≠ target) : subRefs refs target n ptr = refs ptr := by
  unfold subRefs
  split
  · rfl
  · rename_i ht
    apply Function.update_of_ne
    rcases h with rfl | h
    · exact Ne.symm ht
    · exact h

theorem cellWeight_eq (ptr : Ptr) (val : Word) :
    cellWeight ptr val = (cRefMask + 1 - borrowed val) * one ptr (ptrTo val) := by
  unfold cellWeight one
  split <;> simp

-- What is taken out of a word with one reference more to be kept.
theorem weight_taken {val : Word} (hroom : borrowed val < cRefMask) {ptr : Ptr} (hptr : ptr ≠ 0) :
    cellWeight ptr val = cellWeight ptr (val + 1) + if ptrTo val = 0 then 0 else one ptr (ptrTo val) := by
  rw [cellWeight_eq, cellWeight_eq, ptrTo_add_one hroom, borrowed_add_one hroom]
  unfold one
  by_cases hp : ptrTo val = ptr
  · rw [if_pos hp, if_neg (hp ▸ hptr)]
    omega
  · simp [hp]

omit [DecidableEq κ] [Fintype κ] in
theorem real_drop_owned (old : Word) (ptr : Ptr) :
    ∀ t ∈ ({.drop old} + owned ptr : Multiset (Task κ)), t.Real := by
  intro t ht
  rcases Multiset.mem_add.mp ht with ht | ht
  · rw [Multiset.mem_singleton.mp ht]
    trivial
  · unfold owned at ht
    split at ht
    · exact absurd ht (Multiset.notMem_zero t)
    · rename_i hptr
      rw [Multiset.mem_singleton.mp ht]
      exact hptr

section Calls

variable {s : State κ} (h : Inv s)

include h

theorem Inv.no_null_load (cell : κ) : ∀ t ∈ s.tasks, ¬t.Lends cell 0 := by
  intro t ht hl
  have hr := h.real t ht
  rcases hl with rfl | rfl | rfl <;> exact hr rfl

theorem Inv.value_lt {t : Task κ} (ht : t ∈ s.tasks) {value : Ptr}
    (hw : (cRefMask + 1) * one value value ≤ t.weight value) : value.toNat < 2 ^ 48 := by
  apply h.canonical_of_weight ht
  intro _
  simp only [one, if_true, cRefMask] at hw
  omega

theorem Inv.advance_load {cell : κ} {ptr : Ptr} (ht : Task.load cell ptr ∈ s.tasks) :
    Inv (s.advance (.load cell ptr)) := by
  have hreal : ptr ≠ 0 := h.real _ ht
  apply h.recount (Multiset.singleton_le.mpr ht)
    (fun _ => h.canonical_of_weight ht fun _ => by simp [Task.weight, one])
    (addRefs_same s.refs ptr 1)
  · intro p hp
    rw [addRefs_eq _ _ _ hp, amount_singleton, amount_singleton, Task.weight, Task.weight]
    omega
  · intro c
    rw [amount_singleton, amount_singleton]
    rfl
  · intro t ht'
    rw [Multiset.mem_singleton.mp ht']
    exact hreal

theorem Inv.advance_loadRef {cell : κ} {ptr : Ptr} (ht : Task.loadRef cell ptr ∈ s.tasks) :
    Inv (s.advance (.loadRef cell ptr)) := by
  have hreal : ptr ≠ 0 := h.real _ ht
  have hafter : ∀ t ∈ ({.owned ptr} : Multiset (Task κ)), t.Real := by
    intro t ht'
    rw [Multiset.mem_singleton.mp ht']
    exact hreal
  simp only [State.advance]
  split
  · rename_i hsame
    subst hsame
    apply h.giveBack ht (fun _ _ => rfl) _ (fun _ _ => rfl) hafter
    intro p
    rw [amount_singleton, Task.weight, Task.weight]
    omega
  · rename_i hother
    apply h.only_move (Multiset.singleton_le.mpr ht)
    · intro p _
      rw [amount_singleton, amount_singleton, Task.weight, Task.weight]
    · intro c
      rw [amount_singleton, amount_singleton]
      -- the word of the load has another pointer by now
      refine if_neg ?_
      rintro ⟨rfl, hp⟩
      exact hother hp.symm
    · intro t ht'
      rw [Multiset.mem_singleton.mp ht']
      exact hreal

theorem Inv.advance_loadStale {ptr : Ptr} (ht : Task.loadStale ptr ∈ s.tasks) :
    Inv (s.advance (.loadStale ptr)) := by
  have hreal : ptr ≠ 0 := h.real _ ht
  apply h.recount (Multiset.singleton_le.mpr ht)
    (fun _ => h.canonical_of_weight ht fun _ => by simp [Task.weight, one])
    (subRefs_same s.refs ptr 1)
  · intro p hp
    have hle := h.weight_le ht hp
    rw [Task.weight] at hle
    rw [subRefs_eq _ _ _ hp, amount_singleton, amount_singleton, Task.weight, Task.weight]
    omega
  · intro c
    rw [amount_singleton, amount_singleton]
    rfl
  · intro t ht'
    rw [Multiset.mem_singleton.mp ht']
    exact hreal

theorem Inv.advance_peek {cell : κ} {ptr : Ptr} (ht : Task.peek cell ptr ∈ s.tasks) :
    Inv (s.advance (.peek cell ptr)) := by
  have hreal : ptr ≠ 0 := h.real _ ht
  simp only [State.advance]
  split
  · rename_i hsame
    subst hsame
    exact h.giveBack ht (fun _ _ => rfl) (fun _ => rfl) (fun _ _ => rfl)
      (fun t ht' => absurd ht' (Multiset.notMem_zero t))
  · rename_i hother
    apply h.only_move (Multiset.singleton_le.mpr ht)
    · intro p _
      rw [amount_singleton, amount_singleton, Task.weight, Task.weight]
    · intro c
      rw [amount_singleton, amount_singleton]
      refine if_neg ?_
      rintro ⟨rfl, hp⟩
      exact hother hp.symm
    · intro t ht'
      rw [Multiset.mem_singleton.mp ht']
      exact hreal

theorem Inv.advance_store {cell : κ} {value : Ptr} (ht : Task.store cell value ∈ s.tasks)
    (hfree : NoLoad s cell value) : Inv (s.advance (.store cell value)) := by
  apply h.install hfree ht (h.value_lt ht le_rfl) _ (fun _ _ => rfl) (fun _ _ => rfl)
  · intro t ht'
    rw [Multiset.mem_singleton.mp ht']
    trivial
  · intro p _
    rw [amount_singleton, Task.weight, Task.weight]
    omega

theorem Inv.advance_exchange {cell : κ} {value : Ptr} (ht : Task.exchange cell value ∈ s.tasks)
    (hfree : NoLoad s cell value) (hroom : borrowed (s.cells cell) < cRefMask) :
    Inv (s.advance (.exchange cell value)) := by
  have hptr := ptrTo_add_one hroom
  apply h.install hfree ht (h.value_lt ht le_rfl) _ (fun _ _ => rfl)
  · intro c p
    rw [amount_add, amount_singleton, amount_owned]
    split <;> rfl
  · exact real_drop_owned _ _
  · intro p hp
    have htaken := weight_taken hroom hp
    rw [amount_add, amount_singleton, amount_owned, hptr]
    simp only [Task.weight]
    omega

theorem Inv.advance_pushHead {cell : κ} {value : Ptr} (ht : Task.pushHead cell value ∈ s.tasks)
    (hfree : NoLoad s cell value) (hroom : borrowed (s.cells cell) < cRefMask) :
    Inv (s.advance (.pushHead cell value)) := by
  apply h.install hfree ht (h.value_lt ht le_rfl) _ (fun _ _ => rfl)
  · intro c p
    rw [amount_add, amount_singleton, amount_owned]
    split <;> rfl
  · exact real_drop_owned _ _
  · intro p hp
    have htaken := weight_taken hroom hp
    rw [amount_add, amount_singleton, amount_owned]
    simp only [Task.weight]
    split_ifs at htaken ⊢ with hnull <;> omega

theorem Inv.advance_compareAndSwapTest {cell : κ} {cmp value : Ptr}
    (ht : Task.compareAndSwapTest cell cmp value ∈ s.tasks)
    (hfree : ptrTo (s.cells cell) = cmp → NoLoad s cell value) :
    Inv (s.advance (.compareAndSwapTest cell cmp value)) := by
  have hlt := h.value_lt ht le_rfl
  simp only [State.advance]
  split
  · rename_i hsame
    apply h.install (hfree hsame) ht hlt _ (fun _ _ => rfl) (fun _ _ => rfl)
    · intro t ht'
      rw [Multiset.mem_singleton.mp ht']
      trivial
    · intro p _
      rw [amount_singleton, Task.weight, Task.weight]
      omega
  · apply h.only_move (Multiset.singleton_le.mpr ht)
    · intro p _
      rw [amount_singleton, amount_singleton, Task.weight, Task.weight, cellWeight_eq,
        ptrTo_toVal hlt, borrowed_toVal hlt, Nat.sub_zero]
    · intro c
      rw [amount_singleton, amount_singleton]
      rfl
    · intro t ht'
      rw [Multiset.mem_singleton.mp ht']
      trivial

theorem Inv.advance_compareExchange {cell : κ} {cmp value : Ptr}
    (ht : Task.compareExchange cell cmp value ∈ s.tasks)
    (hsafe : if ptrTo (s.cells cell) = cmp then NoLoad s cell value
      else s.cells cell ≠ 0 ∧ borrowed (s.cells cell) < cRefMask) :
    Inv (s.advance (.compareExchange cell cmp value)) := by
  have hlt : value.toNat < 2 ^ 48 := h.canonical_of_weight ht fun _ => by
    simp only [Task.weight, one, if_true, cRefMask]
    omega
  have hcmp : cmp.toNat < 2 ^ 48 := h.canonical_of_weight ht fun _ => by
    simp only [Task.weight, one, if_true]
    omega
  simp only [State.advance]
  by_cases hsame : ptrTo (s.cells cell) = cmp
  · rw [if_pos hsame] at hsafe ⊢
    apply h.install hsafe ht hlt _ (fun _ _ => rfl)
    · intro c p
      rw [amount_add, amount_singleton, amount_owned]
      split <;> rfl
    · exact real_drop_owned _ _
    · intro p hp
      rw [amount_add, amount_singleton, amount_owned]
      simp only [Task.weight]
      by_cases hnull : cmp = 0
      · rw [if_pos hnull, one, one, hnull, if_neg (Ne.symm hp)]
        omega
      · rw [if_neg hnull]
        omega
  · rw [if_neg hsame] at hsafe ⊢
    obtain ⟨hval, hroom⟩ := hsafe
    rw [if_neg hval]
    -- the call goes on as a load of the pointer that it has found
    apply h.write_move (Multiset.singleton_le.mpr ht) cell
    · intro p _
      simp only [Multiset.insert_eq_cons, amount_cons, amount_singleton, Task.weight, cellWeight_eq,
        ptrTo_add_one hroom, borrowed_add_one hroom, ptrTo_toVal hlt, borrowed_toVal hlt,
        ptrTo_lent hcmp, borrowed_lent hcmp]
      have hone : cRefMask + 1 - borrowed (s.cells cell) =
          cRefMask + 1 - (borrowed (s.cells cell) + 1) + 1 := by omega
      rw [hone, Nat.add_mul, Nat.one_mul, Nat.sub_zero, Nat.add_sub_cancel_left, Nat.one_mul]
      omega
    · have hlent := h.lent cell
      simp only [Multiset.insert_eq_cons, amount_cons, amount_singleton, ptrTo_add_one hroom,
        borrowed_add_one hroom, hlent, lends, true_and, if_true]
    · intro c hc p
      simp only [Multiset.insert_eq_cons, amount_cons, amount_singleton, lends]
      rw [if_neg fun hcond => hc hcond.1.symm]
    · intro t ht'
      simp only [Multiset.insert_eq_cons, Multiset.mem_cons, Multiset.mem_singleton] at ht'
      rcases ht' with rfl | rfl | rfl
      · trivial
      · trivial
      · intro hnull
        have hb : borrowed (s.cells cell) = 0 := by
          rw [h.lent cell, hnull]
          exact amount_lends_eq_zero (h.no_null_load cell)
        exact hval (eq_zero_of_ptrTo hnull hb)

theorem Inv.advance_drop {old : Word} (ht : Task.drop old ∈ s.tasks) :
    Inv (s.advance (.drop old)) := by
  have hlt : (ptrTo old).toNat < 2 ^ 48 := by
    have := old.isLt
    rw [toNat_ptrTo]
    omega
  apply h.recount (Multiset.singleton_le.mpr ht) (fun _ => hlt) (subRefs_same s.refs (ptrTo old) _)
  · intro p hp
    have hle := h.weight_le ht hp
    rw [Task.weight, cellWeight_eq] at hle
    rw [subRefs_eq _ _ _ hp, amount_singleton, Task.weight, cellWeight_eq, amount_zero]
    omega
  · intro c
    rw [amount_singleton]
    rfl
  · exact fun t ht' => absurd ht' (Multiset.notMem_zero t)

theorem Inv.advance {task : Task κ} (ht : task ∈ s.tasks)
    (hallowed : Allowed s (.advance task)) : Inv (s.advance task) := by
  cases task with
  | owned ptr => exact h
  | load cell ptr => exact h.advance_load ht
  | loadRef cell ptr => exact h.advance_loadRef ht
  | loadStale ptr => exact h.advance_loadStale ht
  | peek cell ptr => exact h.advance_peek ht
  | store cell value => exact h.advance_store ht hallowed
  | exchange cell value => exact h.advance_exchange ht hallowed.1 hallowed.2
  | compareAndSwapTest cell cmp value => exact h.advance_compareAndSwapTest ht hallowed
  | pushHead cell value => exact h.advance_pushHead ht hallowed.1 hallowed.2
  | compareExchange cell cmp value => exact h.advance_compareExchange ht hallowed
  | drop old => exact h.advance_drop ht

theorem Inv.owned_lt {ptr : Ptr} (hb : owned ptr ≤ s.tasks) (hptr : ptr ≠ 0) :
    ptr.toNat < 2 ^ 48 := by
  have hmem : Task.owned ptr ∈ s.tasks := by
    apply Multiset.mem_of_le hb
    rw [owned, if_neg hptr]
    exact Multiset.mem_singleton_self _
  exact h.canonical_of_weight hmem fun _ => by simp [Task.weight, one]

-- The missing references are added before a new value is written.
theorem Inv.arm {value : Ptr} {before : Multiset (Task κ)} {task : Task κ} {s' : State κ}
    (hstep : s.arm value before task = some s') (hvalue : owned value ≤ before)
    (hw : ∀ ptr ≠ 0, task.weight ptr =
      cRefMask * one ptr value + amount (Task.weight ptr) before)
    (hl : ∀ cell ptr, amount (lends cell ptr) before = lends cell ptr task) (hr : task.Real) :
    Inv s' := by
  unfold State.arm at hstep
  split at hstep
  · rename_i hb
    obtain rfl := Option.some.inj hstep
    apply h.recount hb (h.owned_lt (hvalue.trans hb)) (addRefs_same s.refs value cRefMask)
    · intro p hp
      rw [addRefs_eq _ _ _ hp, amount_singleton, hw p hp]
      omega
    · intro c
      rw [amount_singleton, hl]
    · intro t ht
      rwa [Multiset.mem_singleton.mp ht]
  · cases hstep

theorem Inv.arm_owned {value : Ptr} {task : Task κ} {s' : State κ}
    (hstep : s.arm value (owned value) task = some s')
    (hw : ∀ ptr, task.weight ptr = (cRefMask + 1) * one ptr value)
    (hl : ∀ cell ptr, lends cell ptr task = 0) (hr : task.Real) : Inv s' := by
  apply h.arm hstep le_rfl _ _ hr
  · intro p hp
    rw [hw, amount_owned, Nat.add_mul, Nat.one_mul]
    split
    · rename_i hnull
      rw [hnull, one, if_neg (Ne.symm hp)]
    · rfl
  · intro c p
    rw [amount_owned, hl]
    split <;> rfl

-- What one access keeps.
theorem step_inv {e : Event κ} {s' : State κ} (hallowed : Allowed s e)
    (hstep : step s e = some s') : Inv s' := by
  cases e with
  | make ptr =>
      simp only [step] at hstep
      split at hstep
      · rename_i hfresh
        obtain rfl := Option.some.inj hstep
        apply h.recount (Multiset.zero_le _) (fun _ => hfresh.2.1) (addRefs_same s.refs ptr 1)
        · intro p hp
          rw [addRefs_eq _ _ _ hp, amount_zero, amount_singleton, Task.weight]
          omega
        · intro c
          rw [amount_singleton]
          rfl
        · intro t ht
          rw [Multiset.mem_singleton.mp ht]
          exact hfresh.1
      · cases hstep
  | copy ptr =>
      simp only [step] at hstep
      split at hstep
      · rename_i hb
        obtain rfl := Option.some.inj hstep
        apply h.recount (Multiset.zero_le _) (h.owned_lt hb) (addRefs_same s.refs ptr 1)
        · intro p hp
          rw [addRefs_eq _ _ _ hp, amount_zero, amount_owned, Task.weight]
          split
          · rename_i hnull
            rw [hnull, one, if_neg (Ne.symm hp)]
          · omega
        · intro c
          rw [amount_owned]
          split <;> rfl
        · intro t ht
          exact real_drop_owned 0 ptr t (Multiset.mem_add.mpr (.inr ht))
      · cases hstep
  | reset ptr =>
      simp only [step] at hstep
      split at hstep
      · rename_i hb
        obtain rfl := Option.some.inj hstep
        apply h.recount hb (h.owned_lt hb) (subRefs_same s.refs ptr 1)
        · intro p hp
          have hmove := amount_move (Task.weight p) hb 0
          have hbal := h.balanced p hp
          rw [amount_owned, amount_zero] at hmove
          rw [subRefs_eq _ _ _ hp, amount_zero, amount_owned]
          simp only [Task.weight] at hmove ⊢
          split_ifs at hmove ⊢ with hnull
          · rw [hnull, one, if_neg (Ne.symm hp)]
            omega
          · omega
        · intro c
          rw [amount_owned]
          split <;> rfl
        · exact fun t ht => absurd ht (Multiset.notMem_zero t)
      · cases hstep
  | load cell =>
      obtain rfl := Option.some.inj hstep
      split
      · exact h
      · rename_i hptr
        exact h.borrow hallowed (fun _ => rfl) (fun _ _ => rfl) hptr
  | peekOp cell =>
      obtain rfl := Option.some.inj hstep
      split
      · exact h
      · rename_i hptr
        exact h.borrow hallowed (fun _ => rfl) (fun _ _ => rfl) hptr
  | store cell value => exact h.arm_owned hstep (fun _ => rfl) (fun _ _ => rfl) trivial
  | exchange cell value => exact h.arm_owned hstep (fun _ => rfl) (fun _ _ => rfl) trivial
  | compareAndSwapTest cell cmp value =>
      exact h.arm_owned hstep (fun _ => rfl) (fun _ _ => rfl) trivial
  | pushHead cell value => exact h.arm_owned hstep (fun _ => rfl) (fun _ _ => rfl) trivial
  | compareExchange cell cmp value =>
      apply h.arm hstep (Multiset.le_add_right _ _)
      · intro p hp
        rw [amount_add, amount_owned, amount_owned]
        simp only [Task.weight]
        rw [Nat.add_mul, Nat.one_mul]
        have hzero : one p 0 = 0 := if_neg (Ne.symm hp)
        split_ifs with hv hc hc
        · rw [hv, hc, hzero]
        · rw [hv, hzero]
          omega
        · rw [hc, hzero]
          omega
        · omega
      · intro c p
        rw [amount_add, amount_owned, amount_owned]
        split_ifs <;> rfl
      · trivial
  | destroy cell =>
      obtain rfl := Option.some.inj hstep
      have hzero : ptrTo 0 = 0 := by decide
      apply h.write_move (Multiset.zero_le _) cell
      · intro p hp
        have hp0 : cellWeight p 0 = 0 := by
          rw [cellWeight, hzero, if_neg (Ne.symm hp)]
        rw [amount_zero, amount_singleton, hp0, Task.weight]
        omega
      · rw [hzero, amount_zero, amount_singleton, amount_lends_eq_zero (h.no_null_load cell)]
        rfl
      · intro c _ p
        rw [amount_singleton]
        rfl
      · intro t ht
        rw [Multiset.mem_singleton.mp ht]
        trivial
  | advance task =>
      simp only [step] at hstep
      split at hstep
      · rename_i ht
        obtain rfl := Option.some.inj hstep
        exact h.advance ht hallowed
      · cases hstep

end Calls

theorem inv_initial : Inv (initial : State κ) where
  balanced ptr hptr := by
    have hzero : ptrTo 0 = 0 := by decide
    have hweight : cellWeight ptr 0 = 0 := by rw [cellWeight, hzero, if_neg (Ne.symm hptr)]
    exact (Finset.sum_eq_zero fun _ _ => hweight).symm
  lent _ := by
    have hzero : borrowed 0 = 0 := by decide
    exact hzero
  real t ht := absurd ht (Multiset.notMem_zero t)
  canonical _ hptr := absurd rfl hptr

instance instDecidableLends (cell : κ) (ptr : Ptr) (t : Task κ) : Decidable (t.Lends cell ptr) :=
  inferInstanceAs (Decidable (_ ∨ _))

instance instDecidableNoLoad (s : State κ) (cell : κ) (ptr : Ptr) :
    Decidable (NoLoad s cell ptr) :=
  inferInstanceAs (Decidable (∀ t ∈ s.tasks, ¬t.Lends cell ptr))

instance instDecidableAllowed (s : State κ) (e : Event κ) : Decidable (Allowed s e) := by
  cases e with
  | advance task => cases task <;> (unfold Allowed; infer_instance)
  | make _ | copy _ | reset _ | load _ | peekOp _ | store _ _ | exchange _ _
  | compareAndSwapTest _ _ _ | pushHead _ _ | compareExchange _ _ _ | destroy _ =>
    unfold Allowed
    infer_instance

-- A run every access of which is allowed.
def AllowedRun : State κ → List (Event κ) → Prop
  | _, [] => True
  | s, e :: rest => Allowed s e ∧ ∀ s', step s e = some s' → AllowedRun s' rest

instance instDecidableAllowedRun : (s : State κ) → (events : List (Event κ)) →
    Decidable (AllowedRun s events)
  | _, [] => isTrue trivial
  | s, e :: rest =>
      match hstep : step s e with
      | none => decidable_of_iff (Allowed s e)
          ⟨fun ha => ⟨ha, fun s' hs => by rw [hstep] at hs; cases hs⟩, And.left⟩
      | some next =>
          have := instDecidableAllowedRun next rest
          decidable_of_iff (Allowed s e ∧ AllowedRun next rest)
            ⟨fun ha => ⟨ha.1, fun s' hs => by rw [hstep] at hs; cases hs; exact ha.2⟩,
              fun ha => ⟨ha.1, ha.2 next hstep⟩⟩

theorem run_inv {s s' : State κ} {events : List (Event κ)} (h : Inv s)
    (hallowed : AllowedRun s events) (hrun : run s events = some s') : Inv s' := by
  induction events generalizing s with
  | nil =>
      cases hrun
      exact h
  | cons e rest ih =>
      rw [run, List.foldlM_cons, Option.bind_eq_bind, Option.bind_eq_some_iff] at hrun
      obtain ⟨next, hstep, hrest⟩ := hrun
      exact ih (step_inv h hallowed.1 hstep) (hallowed.2 next hstep) hrest

-- Something in the program can still reach an object.
def Held (s : State κ) (ptr : Ptr) : Prop :=
  (∃ cell, ptrTo (s.cells cell) = ptr) ∨ ∃ t ∈ s.tasks, 0 < t.weight ptr

theorem Inv.held_iff {s : State κ} (h : Inv s) {ptr : Ptr} (hptr : ptr ≠ 0) :
    0 < s.refs ptr ↔ Held s ptr := by
  constructor
  · intro hpos
    by_contra hnone
    rw [Held, not_or] at hnone
    push Not at hnone
    have hcells : total (cellWeight ptr) s.cells = 0 :=
      Finset.sum_eq_zero fun c _ => if_neg (hnone.1 c)
    have htasks : amount (Task.weight ptr) s.tasks = 0 := by
      apply Multiset.sum_eq_zero
      intro n hn
      obtain ⟨t, ht, rfl⟩ := Multiset.mem_map.mp hn
      have := hnone.2 t ht
      omega
    have hbal := h.balanced ptr hptr
    omega
  · rintro (⟨cell, hcell⟩ | ⟨t, ht, hpos⟩)
    · have hle := h.cellWeight_le cell hptr
      have hb := borrowed_le (s.cells cell)
      rw [cellWeight, if_pos hcell] at hle
      omega
    · have hle := h.weight_le ht hptr
      omega

-- The objects of every allowed run: the count of each is what all pointers and running calls hold
-- of it, so it is destroyed exactly when nothing can reach it any more; and no access takes more
-- references than there are, nor (in a load that was overtaken) the last one.
theorem run_counts {events : List (Event κ)} {s : State κ}
    (hrun : run initial events = some s) (hallowed : AllowedRun initial events) :
    ∀ ptr ≠ 0,
      s.refs ptr = total (cellWeight ptr) s.cells + amount (Task.weight ptr) s.tasks ∧
      (0 < s.refs ptr ↔ Held s ptr) ∧
      (∀ old, .drop old ∈ s.tasks → ptrTo old = ptr →
        cRefMask + 1 - borrowed old ≤ s.refs ptr) ∧
      (.loadStale ptr ∈ s.tasks → 1 < s.refs ptr) := by
  have h := run_inv inv_initial hallowed hrun
  intro ptr hptr
  refine ⟨h.balanced ptr hptr, h.held_iff hptr, ?_, ?_⟩
  · intro old ht hold
    have hle := h.weight_le ht hptr
    rwa [Task.weight, cellWeight, if_pos hold] at hle
  · intro ht
    have hle := h.weight_le ht hptr
    rw [Task.weight, one, if_pos rfl] at hle
    omega

-- An object is stored, loaded, and replaced while the load is running.
def sampleRun : List (Event (Fin 1)) :=
  [.make 5, .store 0 5, .advance (.store 0 5), .advance (.drop 0), .load 0, .make 6, .store 0 6,
    .advance (.store 0 6), .advance (.drop 0x50001), .advance (.load 0 5), .advance (.loadRef 0 5)]

theorem run_counts_sample : ∃ s : State (Fin 1), run initial sampleRun = some s ∧
    (0 < s.refs 5 ↔ Held s 5) := by
  have hrun : (run initial sampleRun).isSome = true := by decide
  obtain ⟨s, hs⟩ := Option.isSome_iff_exists.mp hrun
  exact ⟨s, hs, (run_counts hs (by decide) 5 (by decide)).2.1⟩

-- Without the second condition: the object is stored again while a load of it is still running,
-- which then counts the word down from zero into the pointer. Nothing was ever made at 4.
example : ((run initial [.make 5, .copy 5, .store 0 5, .advance (.store 0 5), .advance (.drop 0),
    .load 0, .store 0 0, .advance (.store 0 0), .advance (.drop 0x50001), .store 0 5,
    .advance (.store 0 5), .advance (.load 0 5), .advance (.loadRef (0 : Fin 1) 5)]).map
      fun s => ptrTo (s.cells 0)) = some 4 := by decide

end Rpcsx.AtomicPtr
