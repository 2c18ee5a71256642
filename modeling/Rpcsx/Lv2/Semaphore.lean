import Mathlib.Logic.Function.Basic
import Mathlib.Logic.Relation
import Rpcsx.Lv2

namespace Rpcsx.Lv2.Semaphore

-- Where a thread stands: in front of the atomic operation it performs next, with the local
-- variables that are still in use.
inductive Pc where
  | idle (result : Option Code)
  -- sys_semaphore_wait
  | waitLoad (timeout : Bool)
  | waitCas (timeout : Bool) (val : Int)
  | waitLock (timeout : Bool)
  | waitDec (timeout : Bool)
  | waitEmplace (timeout : Bool)
  | parked (timeout : Bool)
  | timeoutLock
  | timeoutUnqueue
  | timeoutInc
  -- sys_semaphore_trywait
  | tryDec
  -- sys_semaphore_post
  | postLoad (count : Int)
  | postCas (count val : Int)
  | postLock (count : Int)
  | postAdd (count : Int)
  | postWake (toAwake : Nat)
  -- an ensure() failed
  | failed
deriving DecidableEq, Repr

namespace Pc

-- Inside a section of the mutex of the object.
def holds : Pc → Bool
  | waitDec _ | waitEmplace _ | timeoutUnqueue | timeoutInc | postAdd _ | postWake _ => true
  | _ => false

-- Asleep, in the queue until a post takes the thread from it.
def sleeps : Pc → Bool
  | parked _ | timeoutLock | timeoutUnqueue => true
  | _ => false

end Pc

structure Config where
  protocol : Protocol
  max : Int
  initial : Int
deriving DecidableEq, Repr

-- What sys_semaphore_create accepts.
structure Config.Accepted (c : Config) : Prop where
  max_pos : 0 < c.max
  max_s32 : c.max < 2 ^ 31
  initial_nonneg : 0 ≤ c.initial
  initial_le : c.initial ≤ c.max

-- The object, the mutex in it, the threads, and ghost counts of what was posted and of the waits
-- that were let through.
structure State (ι : Type) where
  val : Int
  sq : List ι
  mutex : Option ι
  threads : ι → Pc
  posts : Int
  waits : Int

namespace State

variable {ι : Type} [DecidableEq ι]

def start (c : Config) : State ι where
  val := c.initial
  sq := []
  mutex := none
  threads _ := .idle none
  posts := 0
  waits := 0

def goto (s : State ι) (i : ι) (pc : Pc) : State ι :=
  { s with threads := Function.update s.threads i pc }

def lock (s : State ι) (i : ι) (pc : Pc) : Option (State ι) :=
  if s.mutex = none then some { s.goto i pc with mutex := some i } else none

def unlock (s : State ι) (i : ι) (pc : Pc) : State ι := { s.goto i pc with mutex := none }

end State

inductive Call where
  | wait (timeout : Bool)
  | trywait
  | post (count : Int)
deriving DecidableEq, Repr

def Call.start : Call → Pc
  | wait timeout => .waitLoad timeout
  | trywait => .tryDec
  | post count => .postLoad count

-- `count` is an `s32`.
def Call.Typed : Call → Prop
  | post count => -2 ^ 31 ≤ count ∧ count < 2 ^ 31
  | _ => True

section Step

variable {ι : Type} [DecidableEq ι] (c : Config) (prio : ι → Prio)

-- The next operation of a thread; none while it sleeps or has to wait for the mutex.
def advance (s : State ι) (i : ι) : Option (State ι) :=
  match s.threads i with
  | .idle _ => none
  | .waitLoad timeout =>
      if 0 < s.val then some (s.goto i (.waitCas timeout s.val))
      else some (s.goto i (.waitLock timeout))
  | .waitCas timeout val =>
      if s.val = val then
        some { s.goto i (.idle (some .ok)) with val := s32 (val - 1), waits := s.waits + 1 }
      else some (s.goto i (.waitLock timeout))
  | .waitLock timeout => s.lock i (.waitDec timeout)
  | .waitDec timeout =>
      if s.val ≤ 0 then some { s.goto i (.waitEmplace timeout) with val := s32 (s.val - 1) }
      else
        some { s.unlock i (.idle (some .ok)) with val := s32 (s.val - 1), waits := s.waits + 1 }
  | .waitEmplace timeout => some { s.unlock i (.parked timeout) with sq := emplace s.sq i }
  -- a signal is sent to threads that are taken from the queue
  | .parked _ => if i ∈ s.sq then none else some (s.goto i (.idle (some .ok)))
  | .timeoutLock => s.lock i .timeoutUnqueue
  | .timeoutUnqueue =>
      match unqueue s.sq i with
      | none => some (s.unlock i (.idle (some .ok)))
      | some sq => some { s.goto i .timeoutInc with sq := sq }
  | .timeoutInc =>
      if s.val < 0 then some { s.unlock i (.idle (some .etimedout)) with val := s32 (s.val + 1) }
      else some (s.goto i .failed)
  | .tryDec =>
      if 0 < s.val then
        some { s.goto i (.idle (some .ok)) with val := s32 (s.val - 1), waits := s.waits + 1 }
      else some (s.goto i (.idle (some .ebusy)))
  | .postLoad count =>
      if 0 ≤ s.val ∧ 0 < count ∧ count ≤ s32 (c.max - s.val) then
        some (s.goto i (.postCas count s.val))
      else if count ≤ 0 then some (s.goto i (.idle (some .einval)))
      else some (s.goto i (.postLock count))
  | .postCas count val =>
      if s.val = val then
        some { s.goto i (.idle (some .ok)) with
          val := s32 (val + count), posts := s.posts + count }
      else some (s.goto i (.postLock count))
  | .postLock count => s.lock i (.postAdd count)
  | .postAdd count =>
      if u32 count ≤ u32 (c.max - s.val) then
        let toAwake := min (-min s.val 0) count
        some { s.goto i (.postWake toAwake.toNat) with
          val := s32 (s.val + count), posts := s.posts + count }
      else some (s.unlock i (.idle (some .ebusy)))
  | .postWake 0 => some (s.unlock i (.idle (some .ok)))
  | .postWake (toAwake + 1) =>
      match schedule prio c.protocol s.sq with
      | none => some (s.goto i .failed)
      | some (_, sq) => some { s.goto i (.postWake toAwake) with sq := sq, waits := s.waits + 1 }
  | .failed => none

-- The priorities may be any at any time.
inductive Step (s : State ι) : State ι → Prop where
  | call (i : ι) (result : Option Code) (call : Call) (hidle : s.threads i = .idle result)
      (htyped : call.Typed) : Step s (s.goto i call.start)
  | run (i : ι) (prio : ι → Prio) (s' : State ι) (h : advance c prio s i = some s') : Step s s'
  | expire (i : ι) (hparked : s.threads i = .parked true) : Step s (s.goto i .timeoutLock)

def Reachable (s : State ι) : Prop := Relation.ReflTransGen (Step c) (State.start c) s

end Step

end Rpcsx.Lv2.Semaphore
