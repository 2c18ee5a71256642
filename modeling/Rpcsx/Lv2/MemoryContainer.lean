import Mathlib

namespace Rpcsx.Lv2.MemoryContainer

-- The container objects `κ`: their sizes, the default one, and how much virtual memory a process
-- may hold.
structure Config (κ : Type) where
  size : κ → Nat
  size_lt : ∀ ct, size ct < 2 ^ 32
  dct : κ
  maxVsize : Nat

-- A slot of 64K of the address space: the block that is allocated there, and its container in
-- sys_memory_address_table.
inductive Slot (κ : Type) where
  | empty
  | block (size : Nat)
  | owned (ct : κ) (size : Nat)

-- lv2_memory and sys_vm_t.
structure Shm (κ : Type) where
  ct : κ
  size : Nat
  exists_ : Nat

structure Vm (κ : Type) where
  ct : κ
  size : Nat
  psize : Nat

-- Where a call stands. `error` is whether it returns an error in the end.
inductive Pc (κ : Type) where
  | idle
  | failed
  -- sys_memory_allocate and sys_memory_allocate_from_container, with `fault` if there is no place
  -- for the address
  | allocateMap (ct : κ) (size : Nat) (fault : Bool)
  | allocateStore (ct : κ) (slot : Fin 65536) (size : Nat) (fault : Bool)
  -- sys_memory_free; `size` is a ghost, the size of the block that is found at the slot
  | freeExchange (slot : Fin 65536) (error : Bool)
  | freeDealloc (ct : κ) (slot : Fin 65536) (size : Nat) (error : Bool)
  -- memory that is given back, and the virtual memory that is discounted afterwards
  | giveBack (ct : κ) (size : Nat) (vsize : Option Nat) (error : Bool)
  | discount (vsize : Nat) (error : Bool)
  -- sys_memory_container_create
  | containerMake (size : Nat)
  -- sys_mmapper_allocate_shared_memory and its variants
  | shmTake (ct : κ) (size : Nat)
  | shmStore (ct : κ) (size : Nat)
  -- sys_vm_memory_map
  | vmCount (ct : κ) (vsize psize : Nat)
  | vmTake (ct : κ) (vsize psize : Nat)
  | vmFindMap (ct : κ) (vsize psize : Nat)
  | vmMake (ct : κ) (vsize psize : Nat)
  -- sys_vm_append_memory, under the reader lock of the IDM
  | vmAppend (place : Fin 16) (ct : κ) (size : Nat)

-- The counters, the objects by their places in the IDM, the address space by slots of 64K and by
-- areas of 256M for sys_vm_memory_map, and the calls of the threads.
structure State (κ ι : Type) where
  used : κ → Nat
  destroyed : κ → Bool
  containers : Fin 16 → Option κ
  slots : Fin 65536 → Slot κ
  shms : Fin 8192 → Option (Shm κ)
  vms : Fin 16 → Option (Vm κ)
  mapped : Fin 16 → Bool
  totalVsize : Nat
  threads : ι → Pc κ

def State.start {κ ι : Type} : State κ ι where
  used _ := 0
  destroyed _ := false
  containers _ := none
  slots _ := .empty
  shms _ := none
  vms _ := none
  mapped _ := false
  totalVsize := 0
  threads _ := .idle

-- lv2_memory_container::take: the new value of `used`, and the result.
def take (size used amount : Nat) : Nat × Nat :=
  if (size + 2 ^ 32 - used) % 2 ^ 32 ≥ amount then
    ((used + amount) % 2 ^ 32, amount % 2 ^ 32)
  else (used, 0)

-- lv2_memory_container::free; none if its `ensure` fails.
def free (used amount : Nat) : Option Nat := if used ≥ amount then some (used - amount) else none

-- The page sizes of sys_memory_allocate.
def alignOf (flags : Nat) : Nat :=
  if flags = 0x400 then 0x100000 else if flags = 0x200 then 0x10000
  else if flags = 0 then 0x100000 else 0

def validSize (size flags : Nat) : Bool :=
  size ≠ 0 ∧ alignOf flags ≠ 0 ∧ size % alignOf flags = 0

-- The check of the size of a shared memory.
def validShmSize (size flags : Nat) : Bool :=
  size ≠ 0 ∧ (((flags &&& 0xf00) = 0 ∨ (flags &&& 0xf00) = 0x400) ∧ size % 0x100000 = 0 ∨
    (flags &&& 0xf00) = 0x200 ∧ size % 0x10000 = 0)

def validVm (vsize psize : Nat) (autoPolicy different : Bool) : Bool :=
  vsize ≠ 0 ∧ psize ≠ 0 ∧ vsize % 0x2000000 = 0 ∧ vsize ≤ 0x10000000 ∧ psize % 0x10000 = 0 ∧
    autoPolicy ∧ (different ∨ 0x100000 ≤ psize)

-- The places a container can come from: the default one or the IDM.
inductive Source where
  | default
  | idm (place : Fin 16)

-- What a thread does next; the parameters are the arguments of the calls and what the address
-- space and the IDM answer.
inductive Action (κ : Type) where
  | allocate (source : Source) (size flags : Nat) (fault : Bool)
  | allocateMap (slot : Option (Fin 65536))
  | allocateStore
  | free (slot : Fin 65536)
  | freeExchange
  | freeDealloc
  | giveBack
  | discount
  | containerCreate (size : Nat)
  | containerMake (place : Option (Fin 16)) (ct : κ)
  | containerDestroy (place : Fin 16)
  | shmAllocate (source : Source) (size flags : Nat)
  | shmTake
  | shmStore (place : Fin 8192)
  -- an object that is shared already
  | shmAgain (place : Fin 8192)
  | shmFree (place : Fin 8192) (busy : Bool)
  | vmMap (source : Source) (vsize psize : Nat) (autoPolicy different : Bool)
  | vmCount
  | vmTake
  | vmFindMap (area : Option (Fin 16))
  | vmMake (place : Option (Fin 16))
  -- the object that find_id has found for the address, and the area of the address
  | vmUnmap (place area : Fin 16)
  | vmAppend (place : Fin 16) (size : Nat)
  | vmAppended
  | vmReturn (place : Fin 16) (size : Nat)

section Calls

variable {κ ι : Type} [DecidableEq κ] [DecidableEq ι] [Fintype ι]

namespace State

def goto (s : State κ ι) (i : ι) (pc : Pc κ) : State κ ι :=
  { s with threads := Function.update s.threads i pc }

def finish (s : State κ ι) (i : ι) (error : Bool) : State κ ι :=
  s.goto i (if error then .failed else .idle)

-- The container of a call.
def container (cfg : Config κ) (s : State κ ι) : Source → Option κ
  | .default => some cfg.dct
  | .idm place => s.containers place

-- take, and where the call goes on.
def take (cfg : Config κ) (s : State κ ι) (i : ι) (ct : κ) (amount : Nat) (taken refused : Pc κ) :
    State κ ι :=
  let (value, result) := MemoryContainer.take (cfg.size ct) (s.used ct) amount
  if result ≠ 0 then { s with used := Function.update s.used ct value }.goto i taken
  else s.goto i refused

end State

def Pc.finished : Pc κ → Bool
  | .idle => true
  | .failed => true
  | _ => false

def Pc.reads : Pc κ → Bool
  | .vmAppend _ _ _ => true
  | _ => false

-- The calls.
def call (cfg : Config κ) (s : State κ ι) (i : ι) : Action κ → Option (State κ ι)
  | .allocate source size flags fault =>
      if ¬validSize size flags then some (s.finish i true)
      else
        match s.container cfg source with
        | none => some (s.finish i true)
        | some ct => some (s.take cfg i ct size (.allocateMap ct size fault) .failed)
  | .free slot => some (s.goto i (.freeExchange slot false))
  | .containerCreate size =>
      -- 1 MB granularity
      let size := size / 0x100000 * 0x100000
      if size = 0 then some (s.finish i true)
      else some (s.take cfg i cfg.dct size (.containerMake size) .failed)
  | .containerDestroy place =>
      match s.containers place with
      | none => some (s.finish i true)
      | some ct =>
          if s.used ct = 0 then
            some ({ s with
              used := Function.update s.used ct (cfg.size ct)
              destroyed := Function.update s.destroyed ct true
              containers := Function.update s.containers place none }.goto i
                (.giveBack cfg.dct (cfg.size ct) none false))
          else some (s.finish i true)
  | .shmAllocate source size flags =>
      if ¬validShmSize size flags then some (s.finish i true)
      else
        match s.container cfg source with
        | none => some (s.finish i true)
        | some ct => some (s.goto i (.shmTake ct (size % 2 ^ 32)))
  | .shmAgain place =>
      match s.shms place with
      | none => none
      | some shm =>
          some ({ s with
            shms := Function.update s.shms place
              (some { shm with exists_ := shm.exists_ + 1 }) }.finish i false)
  | .shmFree place busy =>
      match s.shms place with
      | none => some (s.finish i true)
      | some shm =>
          if busy then some (s.finish i true)
          else if shm.exists_ = 1 then
            some ({ s with shms := Function.update s.shms place none }.goto i
              (.giveBack shm.ct shm.size none false))
          else
            some ({ s with
              shms := Function.update s.shms place
                (some { shm with exists_ := shm.exists_ - 1 }) }.finish i false)
  | .vmMap source vsize psize autoPolicy different =>
      if ¬validVm vsize psize autoPolicy different then some (s.finish i true)
      else
        match s.container cfg source with
        | none => some (s.finish i true)
        | some ct => some (s.goto i (.vmCount ct vsize psize))
  | .vmUnmap place area =>
      -- under the writer lock of the IDM
      if ∃ j, (s.threads j).reads then none
      else
        match s.vms place with
        | none => some (s.finish i true)
        | some vm =>
            -- ensure(vm::unmap(addr).second)
            if s.mapped area then
              some ({ s with
                vms := Function.update s.vms place none
                mapped := Function.update s.mapped area false }.goto i
                  (.giveBack vm.ct vm.psize (some vm.size) false))
            else none
  | .vmAppend place size =>
      if size = 0 ∨ size % 0x100000 ≠ 0 then some (s.finish i true)
      else
        match s.vms place with
        | none => some (s.finish i true)
        | some vm => some (s.take cfg i vm.ct size (.vmAppend place vm.ct size) .failed)
  | .vmReturn place size =>
      if size = 0 ∨ size % 0x100000 ≠ 0 then some (s.finish i true)
      else
        match s.vms place with
        | none => some (s.finish i true)
        | some vm =>
            if vm.psize ≤ size ∨ vm.psize - size < 0x100000 then some (s.finish i true)
            else
              some ({ s with
                vms := Function.update s.vms place
                  (some { vm with psize := vm.psize - size }) }.goto i
                    (.giveBack vm.ct size none false))
  | _ => none

-- One step of a thread: the next part of its call, or the beginning of one.
def step (cfg : Config κ) (s : State κ ι) (i : ι) (action : Action κ) : Option (State κ ι) :=
  match s.threads i, action with
  | .allocateMap ct size fault, .allocateMap slot =>
      match slot with
      | none => some (s.goto i (.giveBack ct size none true))
      | some slot =>
          match s.slots slot with
          | .empty =>
              some ({ s with slots := Function.update s.slots slot (.block size) }.goto i
                (.allocateStore ct slot size fault))
          | _ => none
  | .allocateStore ct slot _ fault, .allocateStore =>
      match s.slots slot with
      | .block size =>
          let s' := { s with slots := Function.update s.slots slot (.owned ct size) }
          some (if fault then s'.goto i (.freeExchange slot true) else s'.finish i false)
      -- ensure(!addrs[addr >> 16].exchange(&dct))
      | _ => none
  | .freeExchange slot error, .freeExchange =>
      match s.slots slot with
      | .owned ct size =>
          some ({ s with slots := Function.update s.slots slot (.block size) }.goto i
            (.freeDealloc ct slot size error))
      | _ => some (s.finish i true)
  | .freeDealloc ct slot _ error, .freeDealloc =>
      match s.slots slot with
      | .block size =>
          some ({ s with slots := Function.update s.slots slot .empty }.goto i
            (.giveBack ct size none error))
      -- ensure(vm::dealloc(addr))
      | _ => none
  | .giveBack ct size vsize error, .giveBack =>
      match free (s.used ct) size with
      | none => none
      | some value =>
          let s' := { s with used := Function.update s.used ct value }
          match vsize with
          | none => some (s'.finish i error)
          | some vsize => some (s'.goto i (.discount vsize error))
  | .discount vsize error, .discount =>
      some ({ s with totalVsize := (s.totalVsize + 2 ^ 32 - vsize) % 2 ^ 32 }.finish i error)
  | .containerMake size, .containerMake place ct =>
      match place with
      | none => some (s.goto i (.giveBack cfg.dct size none true))
      | some place =>
          -- a new object: no other container, and nothing is taken from it
          if s.containers place = none ∧ cfg.size ct = size ∧ ct ≠ cfg.dct ∧ s.used ct = 0 ∧
              ¬s.destroyed ct ∧ ∀ other, s.containers other ≠ some ct then
            some ({ s with containers := Function.update s.containers place (some ct) }.finish i
              false)
          else none
  | .shmTake ct size, .shmTake => some (s.take cfg i ct size (.shmStore ct size) .failed)
  | .shmStore ct size, .shmStore place =>
      if s.shms place = none then
        some ({ s with shms := Function.update s.shms place (some ⟨ct, size, 1⟩) }.finish i false)
      else none
  | .vmCount ct vsize psize, .vmCount =>
      if (cfg.maxVsize + 2 ^ 32 - s.totalVsize) % 2 ^ 32 < vsize then some (s.finish i true)
      else
        some ({ s with totalVsize := (s.totalVsize + vsize) % 2 ^ 32 }.goto i
          (.vmTake ct vsize psize))
  | .vmTake ct vsize psize, .vmTake =>
      some (s.take cfg i ct psize (.vmFindMap ct vsize psize) (.discount vsize true))
  | .vmFindMap ct vsize psize, .vmFindMap area =>
      match area with
      | none => some (s.goto i (.giveBack ct psize (some vsize) true))
      | some area =>
          if s.mapped area then none
          else
            some ({ s with mapped := Function.update s.mapped area true }.goto i
              (.vmMake ct vsize psize))
  | .vmMake ct vsize psize, .vmMake place =>
      match place with
      | some place =>
          if s.vms place = none then
            some ({ s with vms := Function.update s.vms place (some ⟨ct, vsize, psize⟩) }.finish i
              false)
          else none
      -- the result of idm::make is not looked at
      | none => if ∃ place, s.vms place = none then none else some (s.finish i false)
  | .vmAppend place _ size, .vmAppended =>
      match s.vms place with
      | none => none
      | some vm =>
          some ({ s with
            vms := Function.update s.vms place
              (some { vm with psize := (vm.psize + size) % 2 ^ 32 }) }.finish i false)
  | pc, action => if pc.finished then call cfg s i action else none

def Step (cfg : Config κ) (s s' : State κ ι) : Prop := ∃ i action, step cfg s i action = some s'

def Reachable (cfg : Config κ) (s : State κ ι) : Prop :=
  Relation.ReflTransGen (Step cfg) State.start s

end Calls

end Rpcsx.Lv2.MemoryContainer
