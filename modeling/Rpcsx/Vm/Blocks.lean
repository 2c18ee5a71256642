import Mathlib.Data.Nat.Log
import Mathlib.Logic.Function.Basic
import Rpcsx.Vm

namespace Rpcsx.Vm

open Data.Alignment

-- `u32`
def u32 (n : Nat) : Nat := n % 2 ^ 32

-- `block_flags_3` and `alloc_flags`
abbrev BlockFlags := BitVec 64

def pageSize4k : BlockFlags := 0x100#64
def pageSize64k : BlockFlags := 0x200#64
def pageSize1m : BlockFlags := 0x400#64
def pageSizeMask : BlockFlags := 0xF00#64
def stackGuarded : BlockFlags := 0x10#64
def preallocated : BlockFlags := 0x20#64
def allocHidden : BlockFlags := 0x1000#64
def allocUnwritable : BlockFlags := 0x2000#64
def allocExecutable : BlockFlags := 0x4000#64
def allocProtMask : BlockFlags := allocHidden ||| allocUnwritable ||| allocExecutable

def processBlockFlags (flags : BlockFlags) : BlockFlags :=
  let flags := if flags &&& pageSizeMask = 0 then flags ||| pageSize1m else flags
  if flags &&& pageSize4k ≠ 0 then flags ||| preallocated else flags &&& ~~~stackGuarded

-- An entry of `block_map`, with the shared memory that it maps.
structure Mapping where
  addr : Nat
  size : Nat
  shm : Option Nat
deriving DecidableEq

-- `block_t`. A block is preallocated when it has `m_common`.
structure Block where
  addr : Nat
  size : Nat
  flags : BlockFlags
  valid : Bool
  map : List Mapping
deriving DecidableEq

def Block.guarded (b : Block) : Bool := b.flags &&& stackGuarded ≠ 0

def Block.common (b : Block) : Bool := b.flags &&& preallocated ≠ 0

def Block.guardSize (b : Block) : Nat := if b.guarded then 0x1000 else 0

def Block.erase (b : Block) (addr : Nat) : Block :=
  { b with map := b.map.filter fun m => m.addr ≠ addr }

def Block.insert (b : Block) (m : Mapping) : Block :=
  { b with map := m :: (b.erase m.addr).map }

-- The flags of the pages of an allocation.
def pageFlags (bflags : BlockFlags) : PageInfo :=
  let flags : PageInfo :=
    if ~~~bflags &&& allocHidden ≠ 0 then
      if ~~~bflags &&& allocUnwritable ≠ 0 then pageReadable ||| pageWritable else pageReadable
    else 0
  let flags := if bflags &&& allocExecutable ≠ 0 then flags ||| pageExecutable else flags
  if bflags &&& pageSizeMask = pageSize64k then flags ||| page64kSize
  else if bflags &&& (pageSizeMask &&& ~~~pageSize1m) = 0 then flags ||| page1mSize
  else flags

-- `_page_map`, as far as the page table goes. Nothing is returned where the code throws.
def pageMap (pages : PageTable) (addr : Nat) (flags : PageInfo) (size : Nat) : Option PageTable :=
  if size = 0 ∨ (size ||| addr) % pageSize ≠ 0 ∨ flags &&& pageAllocated ≠ 0 then none
  else if ∀ k < size / pageSize, pages (addr / pageSize + k) = 0 then
    some (fill pages (addr / pageSize) (addr / pageSize + size / pageSize)
      (flags ||| pageAllocated))
  else none

-- The allocated pages from page `i` on, which must agree in `page_executable`.
def countAllocated (pages : PageTable) : Nat → Option Bool → Nat → Option Nat
  | 0, _, _ => some 0
  | rounds + 1, isExec, i =>
      if pages i &&& pageAllocated = 0 then some 0
      else
        let exec : Bool := pages i &&& pageExecutable ≠ 0
        if isExec = none ∨ isExec = some exec then
          (countAllocated pages rounds (some exec) (i + 1)).map (· + 1)
        else none

-- `_page_unmap`: the size that is unmapped.
def pageUnmap (pages : PageTable) (addr maxSize : Nat) : Option (Nat × PageTable) :=
  if maxSize = 0 ∨ (maxSize ||| addr) % pageSize ≠ 0 then none
  else do
    let count ← countAllocated pages (maxSize / pageSize) none (addr / pageSize)
    return (count * pageSize, fill pages (addr / pageSize) (addr / pageSize + count) 0)

-- `ensure(g_pages[page].exchange(value) == expected)`
def exchange (pages : PageTable) (page : Nat) (value expected : PageInfo) : Option PageTable :=
  if pages page = expected then some (Function.update pages page value) else none

namespace Block

variable (b : Block)

def setGuards (pages : PageTable) (first last : Nat) (value expected : PageInfo) :
    Option PageTable :=
  if b.guarded then do
    let pages ← exchange pages first value expected
    exchange pages last value expected
  else some pages

-- What `try_alloc` returns, unless it throws: nothing for `false`.
def tryAlloc (pages : PageTable) (addr : Nat) (bflags : BlockFlags) (size : Nat)
    (shm : Option Nat) : Option (Option (PageTable × Block)) :=
  let last := u32 (addr + size + 2 ^ 32 - 1) / pageSize
  if ∀ k < last + 1 - addr / pageSize, pages (addr / pageSize + k) = 0 then do
    let pageAddr := u32 (addr + b.guardSize)
    let pageCount := u32 (size + 2 ^ 32 - 2 * b.guardSize)
    let pages ← b.setGuards pages (addr / pageSize) (addr / pageSize + size / pageSize - 1)
      pageAllocated 0
    let pages ← pageMap pages pageAddr (pageFlags bflags) pageCount
    return some (pages, b.insert ⟨addr, size, shm⟩)
  else some none

-- The search for a place, up to the address `max`.
def search (pages : PageTable) (bflags : BlockFlags) (size align max result : Nat)
    (shm : Option Nat) : Nat → Nat → Option (Nat × PageTable × Block)
  | 0, _ => some (0, pages, b)
  | rounds + 1, addr => do
      match ← b.tryAlloc pages addr bflags size shm with
      | some (pages, b) => return (addr + result, pages, b)
      | none =>
          if addr = max then return (0, pages, b)
          else search pages bflags size align max result shm rounds (addr + align)

def callFlags (src : Option Nat) (flags : BlockFlags) : BlockFlags :=
  if src.isNone then (b.flags &&& ~~~allocProtMask) ||| (flags &&& allocProtMask) else flags

def minPageSize (flags : BlockFlags) : Nat := if flags &&& pageSize4k ≠ 0 then 0x1000 else 0x10000

def allocSize (flags : BlockFlags) (origSize : Nat) : Nat :=
  u32 (roundUp 32 origSize (minPageSize flags) + if flags &&& stackGuarded ≠ 0 then 0x2000 else 0)

-- `alloc`, with the shared memory that it would create.
def alloc (pages : PageTable) (origSize : Nat) (src : Option Nat) (align : Nat)
    (flags : BlockFlags) (created : Nat) : Option (Nat × PageTable × Block) :=
  let flags := b.callFlags src flags
  let size := allocSize flags origSize
  if align < minPageSize flags ∨ align ≠ 2 ^ Nat.log 2 align then none
  else if origSize = 0 ∨ size = 0 ∨ size < origSize ∨ b.size < size then some (0, pages, b)
  else if b.common ∧ src.isSome then none
  else
    let shm := if b.common then none else some (src.getD created)
    let max := u32 (b.addr + b.size + 2 ^ 32 - size) &&& u32 (2 ^ 32 - align)
    let addr := roundUp 32 b.addr align
    if max < b.addr ∨ max < addr then some (0, pages, b)
    else if !b.valid then some (0, pages, b)
    else
      let result := if flags &&& stackGuarded ≠ 0 then 0x1000 else 0
      b.search pages flags size align max result shm ((max - addr) / align + 1) addr

def fallocSize (flags : BlockFlags) (addr origSize : Nat) : Nat :=
  roundUp 32 (u32 (origSize + addr % minPageSize flags)) (minPageSize flags)

def falloc (pages : PageTable) (addr origSize : Nat) (src : Option Nat) (flags : BlockFlags)
    (created : Nat) : Option (Bool × PageTable × Block) :=
  let flags := b.callFlags src flags
  let size0 := u32 (origSize + addr % minPageSize flags)
  let size := fallocSize flags addr origSize
  if size = 0 ∨ addr < b.addr ∨ size0 < origSize ∨ size < origSize ∨
      b.addr + b.size < addr - addr % minPageSize flags + size ∨
      (src.isSome ∧ (origSize ||| addr) % minPageSize flags ≠ 0) ∨ flags &&& stackGuarded ≠ 0 then
    some (false, pages, b)
  else if b.common ∧ src.isSome then none
  else if !b.valid then some (false, pages, b)
  else do
    let shm := if b.common then none else some (src.getD created)
    match ← b.tryAlloc pages (addr - addr % minPageSize flags) flags size shm with
    | some (pages, b) => return (true, pages, b)
    | none => return (false, pages, b)

def dealloc (pages : PageTable) (addr : Nat) (src : Option Nat) :
    Option (Nat × PageTable × Block) :=
  let key := u32 (addr + 2 ^ 32 - b.guardSize)
  match b.map.find? fun m => m.addr = key with
  | none => some (0, pages, b)
  | some m =>
      if src.isSome ∧ m.shm ≠ src then some (0, pages, b)
      else do
        let size := u32 (m.size + 2 ^ 32 - 2 * b.guardSize)
        let pages ← b.setGuards pages (addr / pageSize - 1) (addr / pageSize + size / pageSize) 0
          pageAllocated
        let (unmapped, pages) ← pageUnmap pages addr size
        if unmapped = size then return (size, pages, b.erase key) else none

end Block

-- The page table and the blocks.
structure System (ι : Type) where
  pages : PageTable
  blocks : ι → Block

inductive Call (ι : Type) where
  | alloc (block : ι) (origSize : BitVec 32) (src : Option Nat) (align : BitVec 32)
      (flags : BlockFlags) (created : Nat)
  | falloc (block : ι) (addr origSize : BitVec 32) (src : Option Nat) (flags : BlockFlags)
      (created : Nat)
  | dealloc (block : ι) (addr : BitVec 32) (src : Option Nat)
  | pageProtect (addr size : BitVec 32) (flagsTest flagsSet flagsClear : PageInfo)

namespace System

variable {ι : Type} [DecidableEq ι] (s : System ι)

def set (block : ι) (pages : PageTable) (b : Block) : System ι where
  pages := pages
  blocks := Function.update s.blocks block b

def step : Call ι → Option (System ι)
  | .alloc block origSize src align flags created => do
      let (_, pages, b) ←
        (s.blocks block).alloc s.pages origSize.toNat src align.toNat flags created
      return s.set block pages b
  | .falloc block addr origSize src flags created => do
      let (_, pages, b) ←
        (s.blocks block).falloc s.pages addr.toNat origSize.toNat src flags created
      return s.set block pages b
  | .dealloc block addr src => do
      let (_, pages, b) ← (s.blocks block).dealloc s.pages addr.toNat src
      return s.set block pages b
  | .pageProtect addr size flagsTest flagsSet flagsClear => do
      let (_, pages) ← Vm.pageProtect s.pages addr.toNat size.toNat flagsTest flagsSet flagsClear
      return { s with pages }

end System

end Rpcsx.Vm
