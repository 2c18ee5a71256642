import Rpcsx.Data.Alignment
import Rpcsx.Data.FirstFit
import Rpcsx.Data.Machine
import Rpcsx.Data.OrderedMap

-- np::memory_allocator: the memory pool of the NP calls.
namespace Rpcsx.NpAllocator

open Data Alignment

def u32 (n : Nat) : Nat := n % 2 ^ 32

def sub32 (a b : Nat) : Nat := (a + (2 ^ 32 - b)) % 2 ^ 32

-- `allocs` is m_allocs: from offsets in the pool to sizes.
structure MemoryAllocator where
  pool : Nat
  size : Nat
  avail : Nat
  allocs : OrderedMap Nat Nat

def fresh : MemoryAllocator := { pool := 0, size := 0, avail := 0, allocs := .empty }

inductive Call where
  | setup (pool size : Nat)
  | release
  | allocate (size : Nat)
  | free (addr : Nat)
  | shrinkAllocation (addr newSize : Nat)

-- What an `ensure` that fails throws, or the value that is returned.
abbrev Result := Except String Nat

def setup (ptrPool size : Nat) : MemoryAllocator :=
  { pool := ptrPool, size, avail := size, allocs := .empty }

-- The loop over m_allocs: last_free and found_space.
def findSpace (allocSize : Nat) : Nat → List (Nat × Nat) → Nat × Bool
  | lastFree, [] => (lastFree, false)
  | lastFree, a :: rest =>
      if allocSize ≤ sub32 a.1 lastFree then (lastFree, true)
      else findSpace allocSize (u32 (a.1 + a.2)) rest

def allocate (m : MemoryAllocator) (size : Nat) : MemoryAllocator × Nat :=
  if size = 0 then (m, 0)
  else
    let allocSize := roundUp 32 size 4
    if m.avail < allocSize then (m, 0)
    else
      let found := findSpace allocSize 0 m.allocs.entries
      let lastFree := found.1
      if found.2 = false ∧ sub32 m.size lastFree < allocSize then (m, 0)
      else
        ({ m with
            allocs := (m.allocs.emplace lastFree allocSize).1
            avail := sub32 m.avail allocSize }, u32 (m.pool + lastFree))

def free (m : MemoryAllocator) (addr : Nat) : Except String MemoryAllocator :=
  if ¬(m.pool ≤ addr ∧ addr < u32 (m.pool + m.size)) then
    .error "memory_allocator::free: addr is out of bounds!"
  else
    let offset := sub32 addr m.pool
    match m.allocs.find? offset with
    | none => .error "memory_allocator::free: m_allocs doesn't contain the allocation!"
    | some size =>
        .ok { m with avail := u32 (m.avail + size), allocs := m.allocs.erase offset }

def shrinkAllocation (m : MemoryAllocator) (addr newSize : Nat) : Except String MemoryAllocator :=
  if ¬(m.pool ≤ addr ∧ addr < u32 (m.pool + m.size)) then
    .error "memory_allocator::reduce_allocation: addr is out of bounds!"
  else
    let offset := sub32 addr m.pool
    match m.allocs.find? offset with
    | none => .error "memory_allocator::reduce_allocation: m_allocs doesn't contain the allocation!"
    | some size =>
        if size < newSize then
          .error "memory_allocator::reduce_allocation: New size is bigger than current allocation!"
        else
          .ok { m with
            avail := u32 (m.avail + sub32 size newSize)
            allocs := m.allocs.assign offset newSize }

-- A call that throws leaves the allocator as it was.
def finish (m : MemoryAllocator) : Except String MemoryAllocator → MemoryAllocator × Result
  | .ok m' => (m', .ok 0)
  | .error text => (m, .error text)

def step (m : MemoryAllocator) : Call → MemoryAllocator × Result
  | .setup pool size => (setup pool size, .ok 0)
  | .release => (fresh, .ok 0)
  | .allocate size => ((allocate m size).1, .ok (allocate m size).2)
  | .free addr => finish m (free m addr)
  | .shrinkAllocation addr newSize => finish m (shrinkAllocation m addr newSize)

-- The blocks that the callers have, by what the calls have returned.
def live (blocks : List (Nat × Nat)) : Call → Result → List (Nat × Nat)
  | .setup _ _, _ => []
  | .release, _ => []
  | .allocate size, .ok addr => if addr = 0 then blocks else (addr, roundUp 32 size 4) :: blocks
  | .free addr, .ok _ => blocks.filter (·.1 ≠ addr)
  | .shrinkAllocation addr newSize, .ok _ =>
      blocks.map fun b => if b.1 = addr then (addr, newSize) else b
  | _, .error _ => blocks

open FirstFit

-- The blocks of the map, at their addresses.
def blocksOf (m : MemoryAllocator) : List (Nat × Nat) :=
  m.allocs.entries.map fun e => (m.pool + e.1, e.2)

structure Sound (m : MemoryAllocator) (blocks : List (Nat × Nat)) : Prop where
  span : m.pool + m.size < 2 ^ 32
  pool_pos : m.size ≠ 0 → 0 < m.pool
  fits : Fits m.size 0 m.allocs.entries
  avail : m.avail + total m.allocs.entries = m.size
  same : blocks.Perm (blocksOf m)

-- What the callers promise: a pool that is not at the null pointer and ends in front of 4 GiB, no
-- size that wraps around when it is rounded up, and no block that is made empty.
def Promised : Call → Prop
  | .setup pool size => 0 < pool ∧ pool + size < 2 ^ 32
  | .allocate size => size ≤ 2 ^ 32 - 4
  | .shrinkAllocation _ newSize => 0 < newSize
  | _ => True

theorem roundUp_four {size : Nat} (h : size ≤ 2 ^ 32 - 4) :
    roundUp 32 size 4 = (size + 3) / 4 * 4 := by
  have hround := roundUp_eq (n := size) (k := 2) (w := 32) (by decide)
  have hfour : (2 : Nat) ^ 2 = 4 := rfl
  rw [hfour] at hround
  rw [hround, Nat.mod_eq_of_lt (by omega)]

section Find

variable {limit last a : Nat} {l : List (Nat × Nat)}

-- The loop and the test behind it are first fit.
theorem findSpace_eq (h : Fits limit last l) (hlimit : limit < 2 ^ 32) :
    firstFit limit a last l =
        (if (findSpace a last l).2 = false ∧ limit - (findSpace a last l).1 < a then none
          else some (findSpace a last l).1) ∧
      (findSpace a last l).1 ≤ limit := by
  induction l generalizing last with
  | nil =>
      refine ⟨?_, h⟩
      simp only [firstFit, findSpace, true_and]
      by_cases hroom : a ≤ limit - last
      · rw [if_pos hroom, if_neg (by omega)]
      · rw [if_neg hroom, if_pos (by omega)]
  | cons b rest ih =>
      obtain ⟨hstart, hpos, hrest⟩ := h
      have hle := hrest.le_limit
      have hsub : sub32 b.1 last = b.1 - last := by
        simp only [sub32]
        omega
      have hend : u32 (b.1 + b.2) = b.1 + b.2 := Nat.mod_eq_of_lt (by omega)
      simp only [firstFit, findSpace, hsub, hend]
      by_cases hgap : a ≤ b.1 - last
      · rw [if_pos hgap, if_pos hgap]
        exact ⟨by simp, by simp only; omega⟩
      · rw [if_neg hgap, if_neg hgap]
        exact ih hrest

end Find

variable {m : MemoryAllocator} {blocks : List (Nat × Nat)}

-- A place that first fit finds is not more than what is available.
theorem Sound.le_avail (h : Sound m blocks) {a o : Nat} (ha : 0 < a)
    (ho : firstFit m.size a 0 m.allocs.entries = some o) : a ≤ m.avail := by
  obtain ⟨before, after, hsplit, -, -, hfits⟩ := firstFit_insert h.fits ha ho
  have hle := hfits.total_le
  have havail := h.avail
  simp only [hsplit, total, List.map_append, List.map_cons, List.sum_append, List.sum_cons]
    at hle havail
  omega

-- What allocate does to a sound pool.
theorem Sound.allocate_eq (h : Sound m blocks) {size : Nat} (hsize : size ≠ 0)
    (hmax : size ≤ 2 ^ 32 - 4) :
    allocate m size = (firstFit m.size (roundUp 32 size 4) 0 m.allocs.entries).elim (m, 0)
      fun o => ({ m with
        allocs := (m.allocs.emplace o (roundUp 32 size 4)).1
        avail := m.avail - roundUp 32 size 4 }, m.pool + o) := by
  have hspan := h.span
  have hround := roundUp_four hmax
  obtain ⟨hfind, hle⟩ := findSpace_eq (a := roundUp 32 size 4) h.fits (by omega)
  have hsub : sub32 m.size (findSpace (roundUp 32 size 4) 0 m.allocs.entries).1 =
      m.size - (findSpace (roundUp 32 size 4) 0 m.allocs.entries).1 := by
    simp only [sub32]
    omega
  have havail : m.avail ≤ m.size := by
    have := h.avail
    omega
  simp only [allocate, if_neg hsize, hsub]
  by_cases hfull : m.avail < roundUp 32 size 4
  · rw [if_pos hfull]
    cases ho : firstFit m.size (roundUp 32 size 4) 0 m.allocs.entries with
    | none => rfl
    | some o =>
        have := h.le_avail (by omega) ho
        omega
  · rw [if_neg hfull, hfind]
    split
    · rfl
    · have havail' : sub32 m.avail (roundUp 32 size 4) = m.avail - roundUp 32 size 4 := by
        simp only [sub32]
        omega
      have haddr : u32 (m.pool + (findSpace (roundUp 32 size 4) 0 m.allocs.entries).1) =
          m.pool + (findSpace (roundUp 32 size 4) 0 m.allocs.entries).1 :=
        Nat.mod_eq_of_lt (by omega)
      rw [havail', haddr]
      rfl

-- Room between the callers' blocks is room between the offsets of the map.
theorem Sound.room_iff (h : Sound m blocks) {a : Nat} (o : Nat) :
    Room (m.pool + m.size) m.pool blocks a (m.pool + o) ↔
      Room m.size 0 m.allocs.entries a o := by
  constructor
  · intro hroom
    have hupper := hroom.upper
    refine ⟨Nat.zero_le _, by omega, fun e he => ?_⟩
    have hclear := hroom.clear (m.pool + e.1, e.2)
      (h.same.mem_iff.mpr (List.mem_map_of_mem he))
    simp only at hclear
    omega
  · intro hroom
    have hupper := hroom.upper
    refine ⟨by omega, by omega, fun b hb => ?_⟩
    obtain ⟨e, he, rfl⟩ := List.mem_map.mp (h.same.mem_iff.mp hb)
    have hclear := hroom.clear e he
    simp only
    omega

theorem Sound.isLeast (h : Sound m blocks) {a o : Nat}
    (ho : firstFit m.size a 0 m.allocs.entries = some o) :
    IsLeast {addr | Room (m.pool + m.size) m.pool blocks a addr} (m.pool + o) := by
  obtain ⟨hroom, hleast⟩ := firstFit_isLeast h.fits ho
  refine ⟨(h.room_iff o).mpr hroom, fun addr haddr => ?_⟩
  have hlower := Room.lower haddr
  have hsplit : addr = m.pool + (addr - m.pool) := by omega
  have hroom' : Room (m.pool + m.size) m.pool blocks a addr := haddr
  rw [hsplit, h.room_iff] at hroom'
  have := hleast hroom'
  omega

theorem Sound.no_room (h : Sound m blocks) {a : Nat}
    (hnone : firstFit m.size a 0 m.allocs.entries = none) (addr : Nat) :
    ¬Room (m.pool + m.size) m.pool blocks a addr := by
  intro haddr
  have hlower := haddr.lower
  have hsplit : addr = m.pool + (addr - m.pool) := by omega
  rw [hsplit, h.room_iff] at haddr
  exact firstFit_eq_none h.fits hnone _ haddr

-- What a call answers, in terms of the blocks that the callers have.
def Answer (m : MemoryAllocator) (blocks : List (Nat × Nat)) : Call → Result → Prop
  | .allocate size, result => ∃ addr, result = .ok addr ∧
      (addr = 0 ↔ size = 0 ∨
        ∀ o, ¬Room (m.pool + m.size) m.pool blocks (roundUp 32 size 4) o) ∧
      (addr ≠ 0 → IsLeast {o | Room (m.pool + m.size) m.pool blocks (roundUp 32 size 4) o} addr)
  | .free addr, result => result = .ok 0 ↔ ∃ b ∈ blocks, b.1 = addr
  | .shrinkAllocation addr newSize, result =>
      result = .ok 0 ↔ ∃ b ∈ blocks, b.1 = addr ∧ newSize ≤ b.2
  | _, _ => True

theorem Sound.allocate_step (h : Sound m blocks) {size : Nat} (hmax : size ≤ 2 ^ 32 - 4) :
    Answer m blocks (.allocate size) (step m (.allocate size)).2 ∧
      Sound (step m (.allocate size)).1
        (live blocks (.allocate size) (step m (.allocate size)).2) := by
  by_cases hsize : size = 0
  · subst hsize
    exact ⟨⟨0, rfl, by simp, by simp⟩, h⟩
  have hpos : 0 < roundUp 32 size 4 := by
    rw [roundUp_four hmax]
    omega
  have heq := h.allocate_eq hsize hmax
  cases ho : firstFit m.size (roundUp 32 size 4) 0 m.allocs.entries with
  | none =>
      rw [ho] at heq
      have hstep : step m (.allocate size) = (m, .ok 0) := by
        simp only [step, heq, Option.elim_none]
      rw [hstep]
      exact ⟨⟨0, rfl, by simpa [hsize] using h.no_room ho, fun hne => absurd rfl hne⟩, h⟩
  | some o =>
      rw [ho] at heq
      obtain ⟨before, after, hsplit, hbefore, hafter, hfits⟩ := firstFit_insert h.fits hpos ho
      have hleast := h.isLeast ho
      have hroom := hleast.1
      have hpool : m.pool + o ≠ 0 := by
        have := h.pool_pos
        have := Room.upper hroom
        omega
      have hentries := OrderedMap.emplace_between hsplit hbefore hafter (roundUp 32 size 4)
      have hle := h.le_avail hpos ho
      have havail := h.avail
      have hstep : step m (.allocate size) = ({ m with
          allocs := (m.allocs.emplace o (roundUp 32 size 4)).1
          avail := m.avail - roundUp 32 size 4 }, .ok (m.pool + o)) := by
        simp only [step, heq, Option.elim_some]
      rw [hstep]
      refine ⟨⟨m.pool + o, rfl, ?_, fun _ => hleast⟩, h.span, h.pool_pos, ?_, ?_, ?_⟩
      · constructor
        · intro h0
          exact absurd h0 hpool
        · rintro (h0 | hnone)
          · exact absurd h0 hsize
          · exact absurd hroom (hnone _)
      · rw [hentries]
        exact hfits
      · rw [hsplit] at havail
        simp only [hentries, total, List.map_append, List.map_cons, List.sum_append,
          List.sum_cons] at havail ⊢
        omega
      · have hsame := h.same
        simp only [live, if_neg hpool, blocksOf, hentries, hsplit, List.map_append,
          List.map_cons] at hsame ⊢
        exact (hsame.cons _).trans List.perm_middle.symm

theorem find_split {offset size : Nat}
    (hfind : m.allocs.find? offset = some size) :
    ∃ before after, m.allocs.entries = before ++ (offset, size) :: after := by
  obtain ⟨e, he, hsize⟩ := Option.map_eq_some_iff.mp hfind
  have hkey := List.find?_some he
  obtain ⟨before, after, hsplit⟩ := List.append_of_mem (List.mem_of_find?_eq_some he)
  have hentry : e = (offset, size) := Prod.ext (by simpa using hkey) hsize
  exact ⟨before, after, hentry ▸ hsplit⟩

theorem Sound.find_iff (h : Sound m blocks) (offset size : Nat) :
    m.allocs.find? offset = some size ↔ (m.pool + offset, size) ∈ blocks := by
  constructor
  · intro hfind
    obtain ⟨before, after, hsplit⟩ := find_split hfind
    apply h.same.mem_iff.mpr
    exact List.mem_map.mpr ⟨(offset, size), by rw [hsplit]; simp, rfl⟩
  · intro hb
    obtain ⟨e, he, heq⟩ := List.mem_map.mp (h.same.mem_iff.mp hb)
    obtain ⟨h1, h2⟩ := Prod.mk.inj heq
    obtain ⟨before, after, hsplit⟩ := List.append_of_mem he
    have hentry : e = (offset, size) := Prod.ext (by omega) h2
    rw [hentry] at hsplit
    exact OrderedMap.find?_at hsplit

theorem Sound.inside (h : Sound m blocks) {b : Nat × Nat} (hb : b ∈ blocks) :
    m.pool ≤ b.1 ∧ 0 < b.2 ∧ b.1 + b.2 ≤ m.pool + m.size := by
  obtain ⟨e, he, rfl⟩ := List.mem_map.mp (h.same.mem_iff.mp hb)
  have hfit := h.fits.start_le he
  simp only
  omega

-- The tests of free and shrink_allocation find the block of an address.
theorem Sound.bounds_iff (h : Sound m blocks) (addr : Nat) :
    (m.pool ≤ addr ∧ addr < u32 (m.pool + m.size)) ↔
      m.pool ≤ addr ∧ addr < m.pool + m.size := by
  have hspan : u32 (m.pool + m.size) = m.pool + m.size := Nat.mod_eq_of_lt h.span
  rw [hspan]

-- A block of the callers is one that the map has at its offset.
theorem Sound.block_iff (h : Sound m blocks) {addr size : Nat} :
    (addr, size) ∈ blocks ↔ (m.pool ≤ addr ∧ addr < u32 (m.pool + m.size)) ∧
      m.allocs.find? (sub32 addr m.pool) = some size := by
  have hspan := h.span
  rw [h.bounds_iff]
  constructor
  · intro hb
    have hin := h.inside hb
    simp only at hin
    have hsub : sub32 addr m.pool = addr - m.pool := by
      simp only [sub32]
      omega
    refine ⟨by omega, ?_⟩
    rw [hsub, h.find_iff]
    rwa [Nat.add_sub_cancel' (by omega)]
  · rintro ⟨hin, hfind⟩
    have hsub : sub32 addr m.pool = addr - m.pool := by
      simp only [sub32]
      omega
    rw [hsub, h.find_iff, Nat.add_sub_cancel' hin.1] at hfind
    exact hfind

-- The callers' blocks around the one at an address.
theorem Sound.split (h : Sound m blocks) {addr size : Nat} (hb : (addr, size) ∈ blocks) :
    ∃ before after, m.allocs.entries = before ++ (sub32 addr m.pool, size) :: after ∧
      m.pool + sub32 addr m.pool = addr ∧
      (∀ e ∈ before, m.pool + e.1 ≠ addr) ∧ (∀ e ∈ after, m.pool + e.1 ≠ addr) := by
  have hspan := h.span
  obtain ⟨hin, hfind⟩ := h.block_iff.mp hb
  have hbounds := (h.bounds_iff addr).mp hin
  have hsub : m.pool + sub32 addr m.pool = addr := by
    simp only [sub32]
    omega
  obtain ⟨before, after, hsplit⟩ := find_split hfind
  refine ⟨before, after, hsplit, hsub, fun e he => ?_, fun e he => ?_⟩
  · have := OrderedMap.lt_of_before hsplit e he
    omega
  · have := OrderedMap.lt_of_after hsplit e he
    omega

theorem Sound.free_ok (h : Sound m blocks) {addr size : Nat} (hb : (addr, size) ∈ blocks) :
    step m (.free addr) = ({ m with
        avail := m.avail + size
        allocs := m.allocs.erase (sub32 addr m.pool) }, .ok 0) ∧
      Sound { m with
        avail := m.avail + size
        allocs := m.allocs.erase (sub32 addr m.pool) } (blocks.filter (·.1 ≠ addr)) := by
  obtain ⟨hin, hfind⟩ := h.block_iff.mp hb
  obtain ⟨before, after, hsplit, haddr, hbefore, hafter⟩ := h.split hb
  have hspan := h.span
  have havail := h.avail
  have hfits := h.fits
  have hsame := h.same
  have herase := OrderedMap.erase_at hsplit
  simp only [hsplit, total, List.map_append, List.map_cons, List.sum_append, List.sum_cons]
    at havail
  have hsum : u32 (m.avail + size) = m.avail + size := Nat.mod_eq_of_lt (by omega)
  refine ⟨?_, hspan, h.pool_pos, ?_, ?_, ?_⟩
  · simp only [step, free, if_neg (not_not.mpr hin), hfind, hsum, finish]
  · simp only [herase]
    rw [hsplit] at hfits
    exact hfits.remove
  · simp only [herase, total, List.map_append, List.sum_append]
    omega
  · have hfilter := hsame.filter (·.1 ≠ addr)
    have hkeep : ∀ {l : List (Nat × Nat)}, (∀ e ∈ l, m.pool + e.1 ≠ addr) →
        (l.map fun e => (m.pool + e.1, e.2)).filter (·.1 ≠ addr) =
          l.map fun e => (m.pool + e.1, e.2) := by
      intro l hl
      rw [List.filter_eq_self]
      intro b hb'
      obtain ⟨e, he, rfl⟩ := List.mem_map.mp hb'
      simpa using hl e he
    rw [blocksOf, hsplit, List.map_append, List.map_cons, List.filter_append, List.filter_cons,
      hkeep hbefore, hkeep hafter] at hfilter
    simp only [haddr, ne_eq, not_true_eq_false, decide_false, Bool.false_eq_true, if_false]
      at hfilter
    simp only [blocksOf, herase, List.map_append]
    exact hfilter

theorem Sound.shrink_ok (h : Sound m blocks) {addr size newSize : Nat}
    (hb : (addr, size) ∈ blocks) (hpos : 0 < newSize) (hle : newSize ≤ size) :
    step m (.shrinkAllocation addr newSize) = ({ m with
        avail := m.avail + (size - newSize)
        allocs := m.allocs.assign (sub32 addr m.pool) newSize }, .ok 0) ∧
      Sound { m with
        avail := m.avail + (size - newSize)
        allocs := m.allocs.assign (sub32 addr m.pool) newSize }
          (blocks.map fun b => if b.1 = addr then (addr, newSize) else b) := by
  obtain ⟨hin, hfind⟩ := h.block_iff.mp hb
  obtain ⟨before, after, hsplit, haddr, hbefore, hafter⟩ := h.split hb
  have hspan := h.span
  have havail := h.avail
  have hfits := h.fits
  have hsame := h.same
  have hassign := OrderedMap.assign_at hsplit newSize
  simp only [hsplit, total, List.map_append, List.map_cons, List.sum_append, List.sum_cons]
    at havail
  have hsub : sub32 size newSize = size - newSize := by
    simp only [sub32]
    omega
  have hsum : u32 (m.avail + (size - newSize)) = m.avail + (size - newSize) :=
    Nat.mod_eq_of_lt (by omega)
  refine ⟨?_, hspan, h.pool_pos, ?_, ?_, ?_⟩
  · simp only [step, shrinkAllocation, if_neg (not_not.mpr hin), hfind, if_neg (not_lt.mpr hle),
      hsub, hsum, finish]
  · simp only [hassign]
    rw [hsplit] at hfits
    exact hfits.shrink hpos hle
  · simp only [hassign, total, List.map_append, List.map_cons, List.sum_append, List.sum_cons]
    omega
  · have hmap := hsame.map fun b => if b.1 = addr then (addr, newSize) else b
    have hkeep : ∀ {l : List (Nat × Nat)}, (∀ e ∈ l, m.pool + e.1 ≠ addr) →
        (l.map fun e => (m.pool + e.1, e.2)).map
            (fun b => if b.1 = addr then (addr, newSize) else b) =
          l.map fun e => (m.pool + e.1, e.2) := by
      intro l hl
      rw [List.map_map]
      apply List.map_congr_left
      intro e he
      exact if_neg (hl e he)
    rw [blocksOf, hsplit, List.map_append, List.map_cons, List.map_append, List.map_cons,
      hkeep hbefore, hkeep hafter] at hmap
    simp only [haddr, if_true] at hmap
    simp only [blocksOf, hassign, List.map_append, List.map_cons, haddr]
    exact hmap

-- A call that finds no block throws.
theorem Sound.free_error (h : Sound m blocks) {addr : Nat} (hnone : ∀ b ∈ blocks, b.1 ≠ addr) :
    ∃ text, step m (.free addr) = (m, .error text) := by
  by_cases hin : m.pool ≤ addr ∧ addr < u32 (m.pool + m.size)
  · cases hfind : m.allocs.find? (sub32 addr m.pool) with
    | none =>
        exact ⟨"memory_allocator::free: m_allocs doesn't contain the allocation!", by
          simp only [step, free, if_neg (not_not.mpr hin), hfind, finish]⟩
    | some size => exact absurd rfl (hnone _ (h.block_iff.mpr ⟨hin, hfind⟩))
  · exact ⟨"memory_allocator::free: addr is out of bounds!", by
      simp only [step, free, if_pos hin, finish]⟩

theorem Sound.shrink_error (h : Sound m blocks) {addr newSize : Nat}
    (hnone : ∀ b ∈ blocks, b.1 = addr → b.2 < newSize) :
    ∃ text, step m (.shrinkAllocation addr newSize) = (m, .error text) := by
  by_cases hin : m.pool ≤ addr ∧ addr < u32 (m.pool + m.size)
  · cases hfind : m.allocs.find? (sub32 addr m.pool) with
    | none =>
        exact ⟨"memory_allocator::reduce_allocation: m_allocs doesn't contain the allocation!", by
          simp only [step, shrinkAllocation, if_neg (not_not.mpr hin), hfind, finish]⟩
    | some size =>
        have hlt := hnone _ (h.block_iff.mpr ⟨hin, hfind⟩) rfl
        exact ⟨"memory_allocator::reduce_allocation: New size is bigger than current allocation!",
          by simp only [step, shrinkAllocation, if_neg (not_not.mpr hin), hfind, if_pos hlt, finish]⟩
  · exact ⟨"memory_allocator::reduce_allocation: addr is out of bounds!", by
      simp only [step, shrinkAllocation, if_pos hin, finish]⟩

theorem sound_setup {pool size : Nat} (h : 0 < pool ∧ pool + size < 2 ^ 32) :
    Sound (setup pool size) [] where
  span := h.2
  pool_pos _ := h.1
  fits := Nat.zero_le size
  avail := rfl
  same := List.Perm.refl []

theorem sound_fresh : Sound fresh [] where
  span := by decide
  pool_pos hne := absurd rfl hne
  fits := Nat.le_refl 0
  avail := rfl
  same := List.Perm.refl []

-- What one call keeps and answers.
theorem Sound.step (h : Sound m blocks) {call : Call} (hpromised : Promised call) :
    Answer m blocks call (step m call).2 ∧
      Sound (NpAllocator.step m call).1 (live blocks call (NpAllocator.step m call).2) := by
  cases call with
  | setup pool size => exact ⟨trivial, sound_setup hpromised⟩
  | release => exact ⟨trivial, sound_fresh⟩
  | allocate size => exact h.allocate_step hpromised
  | free addr =>
      by_cases hb : ∃ b ∈ blocks, b.1 = addr
      · obtain ⟨⟨_, size⟩, hmem, rfl⟩ := hb
        obtain ⟨hstep, hsound⟩ := h.free_ok hmem
        rw [hstep]
        exact ⟨⟨fun _ => ⟨_, hmem, rfl⟩, fun _ => rfl⟩, hsound⟩
      · push Not at hb
        obtain ⟨text, hstep⟩ := h.free_error hb
        rw [hstep]
        refine ⟨?_, h⟩
        constructor
        · rintro ⟨⟩
        · rintro ⟨b, hmem, hb'⟩
          exact absurd hb' (hb b hmem)
  | shrinkAllocation addr newSize =>
      by_cases hb : ∃ b ∈ blocks, b.1 = addr ∧ newSize ≤ b.2
      · obtain ⟨⟨_, size⟩, hmem, rfl, hle⟩ := hb
        obtain ⟨hstep, hsound⟩ := h.shrink_ok hmem hpromised hle
        rw [hstep]
        exact ⟨⟨fun _ => ⟨_, hmem, rfl, hle⟩, fun _ => rfl⟩, hsound⟩
      · push Not at hb
        obtain ⟨text, hstep⟩ := h.shrink_error hb
        rw [hstep]
        refine ⟨?_, h⟩
        constructor
        · rintro ⟨⟩
        · rintro ⟨b, hmem, hb', hle⟩
          exact absurd hle (not_le.mpr (hb b hmem hb'))

-- What the callers can rely on.
structure Proper (m : MemoryAllocator) (blocks : List (Nat × Nat)) : Prop where
  disjoint : blocks.Pairwise fun b c => b.1 + b.2 ≤ c.1 ∨ c.1 + c.2 ≤ b.1
  inside : ∀ b ∈ blocks, m.pool ≤ b.1 ∧ 0 < b.2 ∧ b.1 + b.2 ≤ m.pool + m.size
  avail : m.avail + total blocks = m.size

theorem Sound.proper (h : Sound m blocks) : Proper m blocks where
  disjoint := by
    apply (h.same.pairwise_iff fun hbc => hbc.symm).mpr
    apply List.pairwise_map.mpr
    apply h.fits.pairwise.imp
    intro b c hbc
    simp only
    omega
  inside _ hb := h.inside hb
  avail := by
    have hsum : total blocks = total m.allocs.entries := by
      have hperm := (h.same.map Prod.snd).sum_eq
      rw [total, hperm, blocksOf, List.map_map]
      rfl
    rw [hsum]
    exact h.avail

-- Every run of calls: the blocks that the callers have are disjoint parts of the pool, allocate
-- gives the lowest place there is and fails only where there is none, free and shrink_allocation
-- go through exactly for a block that the caller has.
theorem run_proper (calls : List Call) (h : ∀ call ∈ calls, Promised call) :
    Machine.Along NpAllocator.step live (fun m blocks call result =>
      Proper m blocks ∧ Answer m blocks call result) fresh [] calls := by
  have hpromised : Machine.Along NpAllocator.step live (fun _ _ call _ => Promised call)
      fresh [] calls := by
    generalize fresh = m
    generalize ([] : List (Nat × Nat)) = blocks
    induction calls generalizing m blocks with
    | nil => trivial
    | cons call rest ih =>
        exact ⟨h call List.mem_cons_self, ih (fun c hc => h c (List.mem_cons_of_mem _ hc)) _ _⟩
  refine Machine.along_of_invariant Sound ?_ sound_fresh hpromised
  intro m blocks call hsound hcall
  obtain ⟨hanswer, hnext⟩ := hsound.step hcall
  exact ⟨hnext, hsound.proper, hanswer⟩

theorem run_proper_sample : Machine.Along NpAllocator.step live (fun m blocks call result =>
    Proper m blocks ∧ Answer m blocks call result) fresh []
      [.setup 0x10000 64, .allocate 10, .allocate 8, .free 0x10000, .shrinkAllocation 0x1000C 5] :=
  run_proper [.setup 0x10000 64, .allocate 10, .allocate 8, .free 0x10000,
    .shrinkAllocation 0x1000C 5] (by simp [Promised])

-- A block that is shrunk to nothing keeps its offset from the next one, which is then given out
-- without being written down.
example : (allocate (setup 0x10000 64) 8).2 = 0x10000 ∧
    ([.setup 0x10000 64, .allocate 8, .shrinkAllocation 0x10000 0, .allocate 8, .allocate 8].foldl
      (fun (m : MemoryAllocator × List Result) call =>
        ((step m.1 call).1, (step m.1 call).2 :: m.2)) (fresh, [])).2.map Except.toOption =
      [some 0x10000, some 0x10000, some 0, some 0x10000, some 0] := by decide

end Rpcsx.NpAllocator
