import Mathlib.Data.BitVec
import Mathlib.Logic.Function.Basic
import Mathlib.Logic.Relation
import Rpcsx.Orbis
import Rpcsx.Data.Mask

namespace Rpcsx.Orbis.Umutex

def kUmutexUnowned : BitVec 32 := 0

def kUmutexContested : BitVec 32 := 0x80000000

def kUmutexErrorCheck : BitVec 32 := 2

-- The constant of another kind of mutex, which do_unlock_normal compares with.
def kUmtxContested : BitVec 64 := 0x8000000000000000

-- The ids of threads: positive values of lwpid_t.
abbrev Tid := {tid : BitVec 32 // tid ≠ 0 ∧ tid &&& kUmutexContested = 0}

-- The owner without the contested bit, and the bit.
def ident (owner : BitVec 32) : BitVec 32 := owner &&& ~~~kUmutexContested

def contested (owner : BitVec 32) : Bool := decide (owner &&& kUmutexContested ≠ 0)

inductive Mode where
  | lock
  | try_
  | wait
deriving DecidableEq

inductive Call where
  | lock (mode : Mode)
  | unlock
  | wake
deriving DecidableEq

-- Where a thread stands in do_lock_normal: in front of the access to the mutex that it does next,
-- with the local variables that are still in use.
inductive LockPc where
  | enter
  | load (error : ErrorCode)
  | take (error : ErrorCode)
  | takeContested (error : ErrorCode)
  | check (error : ErrorCode) (owner : BitVec 32)
  -- in the queue
  | mark (owner : BitVec 32)
  | asleep

-- In do_unlock_normal.
inductive UnlockPc where
  | enter
  | load
  | fast (owner : BitVec 32)
  | slow (owner : BitVec 32)
  | notify (ok : Bool)

-- In umtx_wake_umutex.
inductive WakePc where
  | enter
  | load
  | clear
  | notify (owner : BitVec 32)

inductive Pc where
  | idle (result : Option (Call × ErrorCode))
  | lock (mode : Mode) (pc : LockPc)
  | unlock (pc : UnlockPc)
  | wake (pc : WakePc)

-- With the chain lock.
def Pc.holds : Pc → Bool
  | idle _ | lock _ .enter | lock _ .asleep | unlock .enter | wake .enter => false
  | _ => true

-- Ghost fields have whether the thread was an owner when the call began, and what the
-- compare-exchanges of the call have changed.
structure Thread where
  pc : Pc
  wasOwner : Bool
  changes : List (BitVec 32 × BitVec 32)

-- The mutex, the part of its chain that belongs to its key, and a ghost list of the threads that
-- have taken the mutex and have not given it back.
structure State where
  flags : BitVec 32
  owner : BitVec 32
  mutex : Option Tid
  sleepQueue : List Tid
  threads : Tid → Thread
  owners : List Tid

inductive Action where
  | call (i : Tid) (c : Call)
  | advance (i : Tid)
  -- a sleep ends with a result
  | wake (i : Tid) (code : ErrorCode)
  -- user mode: Unowned -> tid and tid -> Unowned
  | userLock (i : Tid)
  | userUnlock (i : Tid)

namespace State

def start (flags : BitVec 32) : State where
  flags := flags
  owner := kUmutexUnowned
  mutex := none
  sleepQueue := []
  threads _ := ⟨.idle none, false, []⟩
  owners := []

-- The key has the pid 0.
def shared (s : State) : Bool := decide (s.flags &&& 1 ≠ 0)

def goto (s : State) (i : Tid) (pc : Pc) : State :=
  { s with threads := Function.update s.threads i { s.threads i with pc := pc } }

-- The thread takes the chain lock.
def lock (s : State) (i : Tid) (pc : Pc) : Option State :=
  if s.mutex = none then some { s.goto i pc with mutex := some i } else none

-- The call returns.
def leave (s : State) (i : Tid) (c : Call) (code : ErrorCode) : State :=
  { s.goto i (.idle (some (c, code))) with mutex := none }

-- A compare-exchange of the thread succeeds.
def change (s : State) (i : Tid) (owner : BitVec 32) : State :=
  { s with
    owner := owner
    threads := Function.update s.threads i
      { s.threads i with changes := (s.threads i).changes ++ [(s.owner, owner)] } }

def notifyOne (s : State) : State := { s with sleepQueue := s.sleepQueue.drop 1 }

def notifyAll (s : State) : State := { s with sleepQueue := [] }

-- The next step in do_lock_normal; none if it has to wait for the chain lock or sleeps.
def doLockNormal (s : State) (i : Tid) (mode : Mode) : LockPc → Option State
  | .enter => s.lock i (.lock mode (.load .ok))
  | .load error =>
      if mode = .wait then
        if s.owner = kUmutexUnowned ∨ s.owner = kUmutexContested then
          some (s.leave i (.lock mode) .ok)
        else some (s.goto i (.lock mode (.check error s.owner)))
      else some (s.goto i (.lock mode (.take error)))
  | .take error =>
      if s.owner = kUmutexUnowned then
        some { (s.change i i.val).leave i (.lock mode) .ok with owners := i :: s.owners }
      else if s.owner = kUmutexContested then some (s.goto i (.lock mode (.takeContested error)))
      else some (s.goto i (.lock mode (.check error s.owner)))
  | .takeContested error =>
      if s.owner = kUmutexContested then
        some { (s.change i (i.val ||| kUmutexContested)).leave i (.lock mode) .ok with
          owners := i :: s.owners }
      else some (s.goto i (.lock mode (.load error)))
  | .check error owner =>
      if s.flags &&& kUmutexErrorCheck ≠ 0 ∧ ident owner = i.val then
        some (s.leave i (.lock mode) .DEADLK)
      else if mode = .try_ then some (s.leave i (.lock mode) .BUSY)
      else if error ≠ .ok then some (s.leave i (.lock mode) error)
      else some { s.goto i (.lock mode (.mark owner)) with sleepQueue := s.sleepQueue ++ [i] }
  | .mark owner =>
      if s.owner = owner then
        some { (s.change i (owner ||| kUmutexContested)).goto i (.lock mode .asleep) with
          mutex := none }
      else some { s.goto i (.lock mode (.load .ok)) with sleepQueue := s.sleepQueue.erase i }
  | .asleep => none

def doUnlockNormal (s : State) (i : Tid) : UnlockPc → Option State
  | .enter => s.lock i (.unlock .load)
  | .load =>
      if ident s.owner ≠ i.val then some (s.leave i .unlock .PERM)
      else if s.owner.signExtend 64 &&& kUmtxContested = 0 then
        some (s.goto i (.unlock (.fast s.owner)))
      else some (s.goto i (.unlock (.slow s.owner)))
  | .fast owner =>
      if s.owner = owner then
        some { (s.change i kUmutexUnowned).leave i .unlock .ok with owners := s.owners.erase i }
      else some (s.goto i (.unlock (.slow s.owner)))
  | .slow owner =>
      if s.owner = owner then
        some { (s.change i (if s.shared = true ∨ s.sleepQueue.length ≤ 1 then kUmutexUnowned
            else kUmutexContested)).goto i (.unlock (.notify true)) with
          owners := s.owners.erase i }
      else some (s.goto i (.unlock (.notify false)))
  | .notify ok =>
      some ((if s.shared then s.notifyAll else s.notifyOne).leave i .unlock
        (if ok then .ok else .INVAL))

def umtxWakeUmutex (s : State) (i : Tid) : WakePc → Option State
  | .enter => s.lock i (.wake .load)
  | .load =>
      if ident s.owner ≠ 0 then some (s.leave i .wake .ok)
      else if s.sleepQueue.length ≤ 1 then some (s.goto i (.wake .clear))
      else some (s.goto i (.wake (.notify s.owner)))
  | .clear =>
      if s.owner = kUmutexContested then
        some ((s.change i kUmutexUnowned).goto i (.wake (.notify kUmutexContested)))
      else some (s.goto i (.wake (.notify s.owner)))
  | .notify owner =>
      if s.sleepQueue.length ≠ 0 ∧ ident owner = 0 then
        some ((if s.shared then s.notifyAll else s.notifyOne).leave i .wake .ok)
      else some (s.leave i .wake .ok)

def advance (s : State) (i : Tid) : Option State :=
  match (s.threads i).pc with
  | .idle _ => none
  | .lock mode pc => s.doLockNormal i mode pc
  | .unlock pc => s.doUnlockNormal i pc
  | .wake pc => s.umtxWakeUmutex i pc

-- The end of a sleep, with the chain lock.
def wake (s : State) (i : Tid) (code : ErrorCode) : Option State :=
  match (s.threads i).pc with
  | .lock mode .asleep =>
      if s.mutex = none then
        some { s.goto i (.lock mode (.load (if code = .ok ∧ i ∈ s.sleepQueue ∧ s.owner ≠ 0 then
            .TIMEDOUT else code))) with
          mutex := some i
          sleepQueue := s.sleepQueue.erase i }
      else none
  | _ => none

end State

def Call.start : Call → Pc
  | .lock mode => .lock mode .enter
  | .unlock => .unlock .enter
  | .wake => .wake .enter

def step (s : State) : Action → Option State
  | .call i c =>
      match (s.threads i).pc with
      | .idle _ => some { s with
          threads := Function.update s.threads i ⟨c.start, decide (i ∈ s.owners), []⟩ }
      | _ => none
  | .advance i => s.advance i
  | .wake i code => s.wake i code
  | .userLock i =>
      match (s.threads i).pc with
      | .idle _ =>
          if s.owner = kUmutexUnowned then
            some { s with owner := i.val, owners := i :: s.owners }
          else none
      | _ => none
  | .userUnlock i =>
      match (s.threads i).pc with
      | .idle _ =>
          if s.owner = i.val then
            some { s with owner := kUmutexUnowned, owners := s.owners.erase i }
          else none
      | _ => none

def Step (s s' : State) : Prop := ∃ action, step s action = some s'

end Rpcsx.Orbis.Umutex

namespace Rpcsx.Orbis.Umutex

variable {w : BitVec 32}

-- A word without the bit is its identifier.
theorem ident_of_free (h : contested w = false) : ident w = w := by
  unfold contested at h
  rw [decide_eq_false_iff_not, not_not] at h
  have happart : Data.Mask.Apart w kUmutexContested := Data.Mask.and_eq_zero_iff.mp h
  apply BitVec.eq_of_getLsbD_eq
  intro k _
  unfold ident
  rw [Data.Mask.getLsbD_remove]
  cases hk : w.getLsbD k with
  | false => rfl
  | true =>
      rw [happart k hk]
      rfl

theorem contested_tid (i : Tid) : contested i.val = false := by
  unfold contested
  rw [decide_eq_false_iff_not, not_not]
  exact i.property.2

theorem ident_tid (i : Tid) : ident i.val = i.val := ident_of_free (contested_tid i)

theorem ident_or (w : BitVec 32) : ident (w ||| kUmutexContested) = ident w := by
  unfold ident
  rw [BitVec.and_or_distrib_right]
  have hnone : kUmutexContested &&& ~~~kUmutexContested = 0 := by decide
  rw [hnone]
  exact BitVec.or_zero

theorem contested_or (w : BitVec 32) : contested (w ||| kUmutexContested) = true := by
  have hself : (w ||| kUmutexContested) &&& kUmutexContested = kUmutexContested :=
    Data.Mask.and_eq_right_iff.mpr (by
      rw [BitVec.or_comm]
      exact Data.Mask.within_or_left)
  unfold contested
  rw [hself]
  rfl

theorem ident_contested : ident kUmutexContested = 0 := by decide

theorem tid_ne_zero (i : Tid) : i.val ≠ 0 := i.property.1

-- A word without an identifier.
theorem eq_of_ident_eq_zero (h : ident w = 0) : w = kUmutexUnowned ∨ w = kUmutexContested := by
  cases hc : contested w with
  | false =>
      left
      rw [← ident_of_free hc]
      exact h
  | true =>
      right
      have hbit : w &&& kUmutexContested = kUmutexContested := by
        have htwo : kUmutexContested = BitVec.twoPow 32 31 := rfl
        unfold contested at hc
        rw [decide_eq_true_iff, htwo, BitVec.and_twoPow] at hc
        rw [htwo, BitVec.and_twoPow]
        cases hlast : w.getLsbD 31 with
        | true => rfl
        | false =>
            rw [hlast] at hc
            exact absurd rfl hc
      calc w = w &&& (~~~kUmutexContested ||| kUmutexContested) := by
            have hall : ~~~kUmutexContested ||| kUmutexContested = BitVec.allOnes 32 := by decide
            rw [hall, BitVec.and_allOnes]
        _ = ident w ||| (w &&& kUmutexContested) := BitVec.and_or_distrib_left
        _ = kUmutexContested := by
            rw [h, hbit]
            exact BitVec.zero_or

-- The bit in the sign-extended word.
theorem signExtend_eq_zero :
    w.signExtend 64 &&& kUmtxContested = 0 ↔ contested w = false := by
  have hwide : kUmtxContested = BitVec.twoPow 64 63 := rfl
  have hnarrow : kUmutexContested = BitVec.twoPow 32 31 := rfl
  have hsign : (w.signExtend 64).getLsbD 63 = w.getLsbD 31 := by
    rw [BitVec.getLsbD_signExtend]
    exact BitVec.msb_eq_getLsbD_last w
  unfold contested
  rw [hwide, hnarrow, BitVec.and_twoPow, BitVec.and_twoPow, hsign]
  cases w.getLsbD 31 with
  | true => decide
  | false => decide

end Rpcsx.Orbis.Umutex
