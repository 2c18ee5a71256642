import Mathlib.Logic.Function.Basic
import Mathlib.Logic.Relation
import Rpcsx.Lv2

namespace Rpcsx.Lv2.RwLock

-- The bits of `owner`: zero when free, the doubled id of the writer, or the doubled number of
-- readers below zero; the lowest bit is set while threads wait.
def waits (owner : Int) : Bool := owner % 2 = 1

def setWait (owner : Int) : Int := owner - owner % 2 + 1

def clearWait (owner : Int) : Int := owner - owner % 2

def shared (owner : Int) : Bool := owner ≤ 0 ∧ waits owner = false

-- Where a thread stands: in front of the atomic operation it performs next, with the local
-- variables that are still in use.
inductive Pc (ι : Type) where
  | idle (result : Option Code)
  -- sys_rwlock_rlock
  | rlockLoad (timeout : Bool)
  | rlockCas (timeout : Bool) (val : Int)
  | rlockLock (timeout : Bool)
  | rlockFetch (timeout : Bool)
  | rlockEmplace (timeout : Bool)
  | rlockParked (timeout : Bool)
  | rlockExpired
  | rlockBarrier
  | rlockTimeoutLock
  | rlockUnqueue
  -- sys_rwlock_tryrlock
  | tryrlock
  -- sys_rwlock_runlock
  | runlockLoad
  | runlockCas (val : Int)
  | runlockLock
  | runlockFetch
  | runlockSchedule
  | runlockGrant (cpu : ι)
  | runlockZero
  | runlockEnsure
  -- sys_rwlock_wlock
  | wlockLoad (timeout : Bool)
  | wlockCas (timeout : Bool)
  | wlockLock (timeout : Bool)
  | wlockFetch (timeout : Bool)
  | wlockEmplace (timeout : Bool) (old : Int)
  | wlockParked (timeout : Bool)
  | wlockTimeoutLock
  | wlockUnqueue
  | wlockRepair
  | wlockPop (cpus : List ι)
  | wlockAdd (cpus : List ι)
  | wlockClear
  -- sys_rwlock_trywlock
  | trywlockLoad
  | trywlockCas
  -- sys_rwlock_wunlock
  | wunlockLoad
  | wunlockCas
  | wunlockLock
  | wunlockSchedule
  | wunlockGrant (cpu : ι)
  | wunlockPop (cpus : List ι)
  | wunlockRelease (cpus : List ι)
  | wunlockZero
  -- an ensure() failed
  | failed
deriving DecidableEq, Repr

-- Inside a section of the mutex of the object.
def Pc.holds {ι : Type} : Pc ι → Bool
  | rlockFetch _ | rlockEmplace _ | rlockUnqueue | runlockFetch | runlockSchedule | runlockGrant _
  | runlockZero | runlockEnsure | wlockFetch _ | wlockEmplace _ _ | wlockUnqueue | wlockRepair
  | wlockPop _ | wlockAdd _ | wlockClear | wunlockSchedule | wunlockGrant _ | wunlockPop _
  | wunlockRelease _ | wunlockZero => true
  | _ => false

-- The object, the mutex in it, the threads, and ghost counts of the read and write locks that each
-- thread has been given.
structure State (ι : Type) where
  owner : Int
  rq : List ι
  wq : List ι
  mutex : Option ι
  threads : ι → Pc ι
  reads : ι → Nat
  writes : ι → Nat

namespace State

variable {ι : Type} [DecidableEq ι]

def start : State ι where
  owner := 0
  rq := []
  wq := []
  mutex := none
  threads _ := .idle none
  reads _ := 0
  writes _ := 0

def goto (s : State ι) (i : ι) (pc : Pc ι) : State ι :=
  { s with threads := Function.update s.threads i pc }

def lock (s : State ι) (i : ι) (pc : Pc ι) : Option (State ι) :=
  if s.mutex = none then some { s.goto i pc with mutex := some i } else none

def unlock (s : State ι) (i : ι) (pc : Pc ι) : State ι := { s.goto i pc with mutex := none }

end State

section Holders

variable {ι : Type} [DecidableEq ι]

-- A count of locks with one more, or one fewer, for a thread.
def given (locks : ι → Nat) (i : ι) : ι → Nat := Function.update locks i (locks i + 1)

def returned (locks : ι → Nat) (i : ι) : ι → Nat := Function.update locks i (locks i - 1)

def givenAll (locks : ι → Nat) (cpus : List ι) : ι → Nat := cpus.foldl given locks

end Holders

inductive Call where
  | rlock (timeout : Bool)
  | tryrlock
  | runlock
  | wlock (timeout : Bool)
  | trywlock
  | wunlock
deriving DecidableEq, Repr

def Call.start {ι : Type} : Call → Pc ι
  | rlock timeout => .rlockLoad timeout
  | tryrlock => .tryrlock
  | runlock => .runlockLoad
  | wlock timeout => .wlockLoad timeout
  | trywlock => .trywlockLoad
  | wunlock => .wunlockLoad

section Step

variable {ι : Type} [DecidableEq ι] (id : ι → Int) (protocol : Protocol) (prio : ι → Prio)

-- `!!wq | !!rq`
def waitBit (wq rq : List ι) : Int := if wq = [] ∧ rq = [] then 0 else 1

-- What sys_rwlock_wunlock does with the value that its compare-and-swap has returned.
def wunlockAfter (s : State ι) (i : ι) (ret : Int) : State ι :=
  if ret / 2 ≠ id i then s.goto i (.idle (some .eperm))
  else if waits ret then s.goto i .wunlockLock
  else s.goto i (.idle (some .ok))

-- What sys_rwlock_trywlock does with it.
def trywlockAfter (s : State ι) (i : ι) (ret : Int) : State ι :=
  if ret / 2 = id i then s.goto i (.idle (some .edeadlk)) else s.goto i (.idle (some .ebusy))

-- The next operation of a thread; none while it sleeps or has to wait for the mutex.
def advance (s : State ι) (i : ι) : Option (State ι) :=
  match s.threads i with
  | .idle _ => none
  | .rlockLoad timeout =>
      if shared s.owner then some (s.goto i (.rlockCas timeout s.owner))
      else some (s.goto i (.rlockLock timeout))
  | .rlockCas timeout val =>
      if s.owner = val then
        some { s.goto i (.idle (some .ok)) with owner := val - 2, reads := given s.reads i }
      else some (s.goto i (.rlockLock timeout))
  | .rlockLock timeout => s.lock i (.rlockFetch timeout)
  | .rlockFetch timeout =>
      if shared s.owner then
        some { s.unlock i (.idle (some .ok)) with owner := s.owner - 2, reads := given s.reads i }
      else some { s.goto i (.rlockEmplace timeout) with owner := setWait s.owner }
  | .rlockEmplace timeout => some { s.unlock i (.rlockParked timeout) with rq := emplace s.rq i }
  -- a signal is sent to threads that are taken from the queue
  | .rlockParked _ => if i ∈ s.rq then none else some (s.goto i (.idle (some .ok)))
  | .rlockExpired =>
      if s.rq = [] then some (s.goto i .rlockBarrier) else some (s.goto i .rlockTimeoutLock)
  | .rlockBarrier => if s.mutex = none then some (s.goto i (.idle (some .ok))) else none
  | .rlockTimeoutLock => s.lock i .rlockUnqueue
  | .rlockUnqueue =>
      match unqueue s.rq i with
      | none => some (s.unlock i (.idle (some .ok)))
      | some rq => some { s.unlock i (.idle (some .etimedout)) with rq := rq }
  | .tryrlock =>
      if shared s.owner then
        some { s.goto i (.idle (some .ok)) with owner := s.owner - 2, reads := given s.reads i }
      else some (s.goto i (.idle (some .ebusy)))
  | .runlockLoad =>
      if s.owner < 0 ∧ waits s.owner = false then some (s.goto i (.runlockCas s.owner))
      else some (s.goto i .runlockLock)
  | .runlockCas val =>
      if s.owner = val then
        some { s.goto i (.idle (some .ok)) with owner := val + 2, reads := returned s.reads i }
      else some (s.goto i .runlockLock)
  | .runlockLock => s.lock i .runlockFetch
  | .runlockFetch =>
      if s.owner < -1 then
        some { s.unlock i (.idle (some .ok)) with
          owner := s.owner + 2, reads := returned s.reads i }
      else if 0 ≤ s.owner then some (s.unlock i (.idle (some .eperm)))
      else some (s.goto i .runlockSchedule)
  | .runlockSchedule =>
      match schedule prio protocol s.wq with
      | some (cpu, wq) => some { s.goto i (.runlockGrant cpu) with wq := wq }
      | none => some (s.goto i .runlockZero)
  | .runlockGrant cpu =>
      some { s.unlock i (.idle (some .ok)) with
        owner := 2 * id cpu + waitBit s.wq s.rq
        reads := returned s.reads i
        writes := given s.writes cpu }
  | .runlockZero =>
      some { s.goto i .runlockEnsure with owner := 0, reads := returned s.reads i }
  | .runlockEnsure =>
      if s.rq = [] then some (s.unlock i (.idle (some .ok))) else some (s.goto i .failed)
  | .wlockLoad timeout =>
      if s.owner = 0 then some (s.goto i (.wlockCas timeout))
      else if s.owner / 2 = id i then some (s.goto i (.idle (some .edeadlk)))
      else some (s.goto i (.wlockLock timeout))
  | .wlockCas timeout =>
      if s.owner = 0 then
        some { s.goto i (.idle (some .ok)) with owner := 2 * id i, writes := given s.writes i }
      else some (s.goto i (.wlockLock timeout))
  | .wlockLock timeout => s.lock i (.wlockFetch timeout)
  | .wlockFetch timeout =>
      if s.owner = 0 then
        some { s.unlock i (.idle (some .ok)) with owner := 2 * id i, writes := given s.writes i }
      else some { s.goto i (.wlockEmplace timeout s.owner) with owner := setWait s.owner }
  | .wlockEmplace timeout old =>
      let pc := if old / 2 = id i then .idle (some .edeadlk) else .wlockParked timeout
      some { s.unlock i pc with wq := emplace s.wq i }
  | .wlockParked _ => if i ∈ s.wq then none else some (s.goto i (.idle (some .ok)))
  | .wlockTimeoutLock => s.lock i .wlockUnqueue
  | .wlockUnqueue =>
      match unqueue s.wq i with
      | none => some (s.unlock i (.idle (some .ok)))
      | some wq => some { s.goto i .wlockRepair with wq := wq }
  | .wlockRepair =>
      if s.rq ≠ [] ∧ s.wq = [] ∧ s.owner < 0 then some (s.goto i (.wlockPop []))
      else if s.rq = [] ∧ s.wq = [] then some (s.goto i .wlockClear)
      else some (s.unlock i (.idle (some .etimedout)))
  | .wlockPop cpus =>
      match schedule prio .fifo s.rq with
      | some (cpu, rq) => some { s.goto i (.wlockPop (cpu :: cpus)) with rq := rq }
      | none => some (s.goto i (.wlockAdd cpus))
  | .wlockAdd cpus =>
      some { s.unlock i (.idle (some .etimedout)) with
        owner := clearWait (s.owner - 2 * cpus.length), reads := givenAll s.reads cpus }
  | .wlockClear => some { s.unlock i (.idle (some .etimedout)) with owner := clearWait s.owner }
  | .trywlockLoad =>
      if s.owner ≠ 0 then some (trywlockAfter id s i s.owner) else some (s.goto i .trywlockCas)
  | .trywlockCas =>
      if s.owner = 0 then
        some { s.goto i (.idle (some .ok)) with owner := 2 * id i, writes := given s.writes i }
      else some (trywlockAfter id s i s.owner)
  | .wunlockLoad =>
      if s.owner ≠ 2 * id i then some (wunlockAfter id s i s.owner)
      else some (s.goto i .wunlockCas)
  | .wunlockCas =>
      if s.owner = 2 * id i then
        some { s.goto i (.idle (some .ok)) with owner := 0, writes := returned s.writes i }
      else some (wunlockAfter id s i s.owner)
  | .wunlockLock => s.lock i .wunlockSchedule
  | .wunlockSchedule =>
      match schedule prio protocol s.wq with
      | some (cpu, wq) => some { s.goto i (.wunlockGrant cpu) with wq := wq }
      | none =>
          if s.rq ≠ [] then some (s.goto i (.wunlockPop [])) else some (s.goto i .wunlockZero)
  | .wunlockGrant cpu =>
      some { s.unlock i (.idle (some .ok)) with
        owner := 2 * id cpu + waitBit s.wq s.rq
        writes := given (returned s.writes i) cpu }
  | .wunlockPop cpus =>
      match schedule prio .fifo s.rq with
      | some (cpu, rq) => some { s.goto i (.wunlockPop (cpu :: cpus)) with rq := rq }
      | none => some (s.goto i (.wunlockRelease cpus))
  | .wunlockRelease cpus =>
      some { s.unlock i (.idle (some .ok)) with
        owner := -2 * cpus.length
        reads := givenAll s.reads cpus
        writes := returned s.writes i }
  | .wunlockZero =>
      some { s.unlock i (.idle (some .ok)) with owner := 0, writes := returned s.writes i }
  | .failed => none

-- The priorities may be any at any time; a thread calls sys_rwlock_runlock only while it has a
-- read lock, and sys_rwlock_wunlock at any time.
inductive Step (s : State ι) : State ι → Prop where
  | call (i : ι) (result : Option Code) (call : Call) (hidle : s.threads i = .idle result)
      (hholds : call = .runlock → 0 < s.reads i) : Step s (s.goto i call.start)
  | run (i : ι) (prio : ι → Prio) (s' : State ι) (h : advance id protocol prio s i = some s') :
      Step s s'
  | expireRead (i : ι) (hparked : s.threads i = .rlockParked true) :
      Step s (s.goto i .rlockExpired)
  | expireWrite (i : ι) (hparked : s.threads i = .wlockParked true) :
      Step s (s.goto i .wlockTimeoutLock)

def Reachable (s : State ι) : Prop := Relation.ReflTransGen (Step id protocol) State.start s

end Step

end Rpcsx.Lv2.RwLock
