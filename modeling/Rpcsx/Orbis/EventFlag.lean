import Mathlib.Data.BitVec
import Mathlib.Logic.Function.Basic
import Mathlib.Logic.Relation
import Rpcsx.Orbis

namespace Rpcsx.Orbis.EventFlag

def kEvfWaitModeAnd : BitVec 8 := 0x01

def kEvfWaitModeOr : BitVec 8 := 0x02

def kEvfWaitModeClearAll : BitVec 8 := 0x10

def kEvfWaitModeClearPat : BitVec 8 := 0x20

-- What a waiter asks for.
structure Pattern where
  bitPattern : BitVec 64
  waitMode : BitVec 8
deriving DecidableEq

namespace Pattern

def test (p : Pattern) (value : BitVec 64) : Bool :=
  if p.waitMode &&& kEvfWaitModeAnd ≠ 0 then decide (value &&& p.bitPattern = p.bitPattern)
  else decide (value &&& p.bitPattern ≠ 0)

def applyClear (p : Pattern) (value : BitVec 64) : BitVec 64 :=
  if p.waitMode &&& kEvfWaitModeClearAll ≠ 0 then 0
  else if p.waitMode &&& kEvfWaitModeClearPat ≠ 0 then value &&& ~~~p.bitPattern
  else value

end Pattern

structure WaitingThread (ι : Type) extends Pattern where
  thread : ι
deriving DecidableEq

-- Where a thread stands with respect to the flag. The time-out is what is left of it, in
-- microseconds.
inductive Pc where
  | outside
  -- in wait, in front of the lock
  | entering (p : Pattern) (timeout : Option Nat)
  | asleep (p : Pattern) (timeout : Option Nat)
  -- after wait or tryWait
  | returned (p : Pattern) (result : ErrorCode)

-- A thread may call wait and tryWait.
def Pc.Free : Pc → Prop
  | outside | returned _ _ => True
  | _ => False

instance (pc : Pc) : Decidable pc.Free := by
  cases pc <;> unfold Pc.Free <;> infer_instance

-- The value -1 of evfIsCancelled is `none`. A ghost field has the values of the flag to which
-- the clear of the current call has been applied.
structure Thread where
  pc : Pc
  evfResultPattern : BitVec 64
  evfIsCancelled : Option Bool
  clears : List (BitVec 64)

structure State (ι : Type) where
  isDeleted : Bool
  -- attrs & kEvfAttrSingle
  single : Bool
  value : BitVec 64
  waitingThreads : List (WaitingThread ι)
  threads : ι → Thread

inductive NotifyType where
  | set
  | cancel
  | destroy
deriving DecidableEq

inductive Action (ι : Type) where
  | call (i : ι) (p : Pattern) (timeout : Option Nat)
  | enter (i : ι)
  -- the sleep ends, with its result and what is left of the time-out
  | wake (i : ι) (code : ErrorCode) (remaining : Nat)
  | tryWait (i : ι) (p : Pattern)
  | notify (type : NotifyType) (bits : BitVec 64)
  | clear (bits : BitVec 64)

section Notify

variable {ι : Type} [DecidableEq ι]

-- The waiter is released with a value of the flag. A cancellation does not store what the
-- clears leave.
def Thread.release (t : Thread) (type : NotifyType) (patValue : BitVec 64) : Thread :=
  { t with
    evfResultPattern := patValue
    evfIsCancelled := some (decide (type = .cancel))
    clears := if type = .cancel then t.clears else patValue :: t.clears }

structure Erased (ι : Type) where
  waitingThreads : List (WaitingThread ι)
  patValue : BitVec 64
  threads : ι → Thread
  result : Nat

-- erase_if with testThread.
def eraseIf (type : NotifyType) :
    List (WaitingThread ι) → BitVec 64 → (ι → Thread) → Erased ι
  | [], patValue, threads => ⟨[], patValue, threads, 0⟩
  | w :: rest, patValue, threads =>
      if type = .set ∧ w.test patValue = false then
        let erased := eraseIf type rest patValue threads
        { erased with waitingThreads := w :: erased.waitingThreads }
      else
        let erased := eraseIf type rest (w.applyClear patValue)
          (Function.update threads w.thread ((threads w.thread).release type patValue))
        { erased with result := erased.result + 1 }

end Notify

namespace State

variable {ι : Type} [DecidableEq ι]

def start (single : Bool) (initPattern : BitVec 64) : State ι where
  isDeleted := false
  single := single
  value := initPattern
  waitingThreads := []
  threads _ := ⟨.outside, 0, none, []⟩

def put (s : State ι) (i : ι) (t : Thread) : State ι :=
  { s with threads := Function.update s.threads i t }

-- The loop of wait from its head up to the return or the sleep, with the result of the sleep
-- before it.
def round (s : State ι) (i : ι) (p : Pattern) (timeout : Option Nat) (result : ErrorCode) :
    State ι :=
  let t := s.threads i
  let waitingThread : WaitingThread ι := ⟨p, i⟩
  if s.isDeleted then
    s.put i { t with
      pc := .returned p .ACCES
      evfResultPattern := if t.evfIsCancelled = none then s.value else t.evfResultPattern }
  else if t.evfIsCancelled = some true then s.put i { t with pc := .returned p .CANCELED }
  else if t.evfIsCancelled = some false then s.put i { t with pc := .returned p result }
  else if p.test s.value then
    { s.put i { t with
        pc := .returned p result
        evfResultPattern := s.value
        clears := s.value :: t.clears } with
      value := p.applyClear s.value }
  else if timeout = some 0 then
    s.put i { t with pc := .returned p .TIMEDOUT, evfResultPattern := s.value }
  else if s.single ∧ s.waitingThreads ≠ [] then
    s.put i { t with pc := .returned p .PERM, evfResultPattern := 0 }
  else
    { s.put i { t with pc := .asleep p timeout, evfResultPattern := 0 } with
      waitingThreads := s.waitingThreads ++ [waitingThread] }

-- The end of the sleep: std::erase, if nobody has released the thread.
def unqueue (s : State ι) (i : ι) (p : Pattern) : State ι :=
  if (s.threads i).evfIsCancelled = none then
    { s with waitingThreads := s.waitingThreads.filter fun w => w ≠ ⟨p, i⟩ }
  else s

def tryWait (s : State ι) (i : ι) (p : Pattern) : State ι :=
  let t := s.threads i
  if s.isDeleted then s.put i { t with pc := .returned p .ACCES, clears := [] }
  else if p.test s.value then
    { s.put i { t with
        pc := .returned p .ok
        evfResultPattern := s.value
        clears := [s.value] } with
      value := p.applyClear s.value }
  else s.put i { t with pc := .returned p .BUSY, clears := [] }

-- The value that notify offers to the first waiter.
def offered (s : State ι) (type : NotifyType) (bits : BitVec 64) : BitVec 64 :=
  if type = .set then s.value ||| bits else s.value

-- The next state and the result of notify.
def notify (s : State ι) (type : NotifyType) (bits : BitVec 64) : State ι × Nat :=
  let erased := eraseIf type s.waitingThreads (s.offered type bits) s.threads
  ({ s with
    isDeleted := s.isDeleted || decide (type = .destroy)
    value := if type = .cancel then bits else erased.patValue
    waitingThreads := erased.waitingThreads
    threads := erased.threads }, erased.result)

end State

section Step

variable {ι : Type} [DecidableEq ι]

def step (s : State ι) : Action ι → Option (State ι)
  | .call i p timeout =>
      if (s.threads i).pc.Free then some (s.put i ⟨.entering p timeout, 0, none, []⟩) else none
  | .enter i =>
      match (s.threads i).pc with
      | .entering p timeout => some (s.round i p timeout .ok)
      | _ => none
  | .wake i code remaining =>
      match (s.threads i).pc with
      | .asleep p timeout =>
          some ((s.unqueue i p).round i p (timeout.map fun _ => remaining) code)
      | _ => none
  | .tryWait i p => if (s.threads i).pc.Free then some (s.tryWait i p) else none
  | .notify type bits => some (s.notify type bits).1
  | .clear bits => some { s with value := s.value &&& bits }

def Step (s s' : State ι) : Prop := ∃ action, step s action = some s'

end Step

end Rpcsx.Orbis.EventFlag
