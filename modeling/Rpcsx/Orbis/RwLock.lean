import Mathlib.Data.BitVec
import Mathlib.Logic.Function.Basic
import Mathlib.Logic.Relation
import Rpcsx.Orbis
import Rpcsx.Data.Mask

namespace Rpcsx.Orbis.RwLock

def kUrwLockPreferReader : BitVec 32 := 2

def kUrwLockWriteOwner : BitVec 32 := 0x80000000

def kUrwLockWriteWaiters : BitVec 32 := 0x40000000

def kUrwLockReadWaiters : BitVec 32 := 0x20000000

def kUrwLockMaxReaders : BitVec 32 := 0x1fffffff

def owned (state : BitVec 32) : Bool := decide (state &&& kUrwLockWriteOwner ≠ 0)

-- The lock has no writer and no readers.
def unlocked (state : BitVec 32) : Bool :=
  !owned state && decide (state &&& kUrwLockMaxReaders = 0)

inductive Call where
  | rdlock (fflag : BitVec 64)
  | wrlock
  | unlock
deriving DecidableEq

-- Where a thread stands in umtx_rw_rdlock: in front of the access to the lock that it does next,
-- with the local variables that are still in use.
inductive RdPc where
  | enter
  | load
  | acquire (state : BitVec 32)
  | mark (state : BitVec 32)
  | sleep (state : BitVec 32)
  | asleep (state : BitVec 32)
  | reload
  | clear (state : BitVec 32)

-- In umtx_rw_wrlock; `mine` is whether a compare-exchange of the first loop has succeeded.
inductive WrPc where
  | enter
  | load (blockedReaders : Nat) (error : ErrorCode)
  | acquire (blockedReaders : Nat) (error : ErrorCode) (state : BitVec 32) (mine : Bool)
  | reload (blockedReaders : Nat)
  | mark (blockedReaders : Nat) (state : BitVec 32)
  | sleep (state : BitVec 32)
  | asleep
  | woken
  | clearLoad (error : ErrorCode)
  | clear (error : ErrorCode) (state : BitVec 32)

-- In umtx_rw_unlock.
inductive UnPc where
  | enter
  | load
  | owner (state : BitVec 32)
  | reader (state : BitVec 32)
  | notify (state : BitVec 32)

inductive Pc where
  | idle (result : Option (Call × ErrorCode))
  | rdlock (fflag : BitVec 64) (pc : RdPc)
  | wrlock (pc : WrPc)
  | unlock (pc : UnPc)

-- With the chain lock.
def Pc.holds : Pc → Bool
  | idle _ | rdlock _ .enter | rdlock _ (.asleep _) | wrlock .enter | wrlock .asleep
  | unlock .enter => false
  | _ => true

-- A ghost field has what the compare-exchanges of the call have changed in the state word.
structure Thread where
  pc : Pc
  changes : List (BitVec 32 × BitVec 32)

-- The lock, the part of its chain that belongs to its key, and ghost lists of the threads that
-- hold the lock, a reader once for each time. A thread holds it from the compare-exchange that
-- gives it the lock, or from the return of a call that says so.
structure State (ι : Type) where
  flags : BitVec 32
  state : BitVec 32
  blockedReaders : Nat
  blockedWriters : Nat
  mutex : Option ι
  sleepQueue : List ι
  threads : ι → Thread
  writers : List ι
  readers : List ι

inductive Action (ι : Type) where
  | call (i : ι) (c : Call)
  -- `spurious` is whether a weak compare-exchange fails without a reason, `holder` whose hold
  -- an unlock ends
  | advance (i : ι) (spurious : Bool) (holder : ι)
  -- a sleep ends; `code` is its error, or TIMEDOUT if the time is over
  | wake (i : ι) (code : ErrorCode)
  -- user mode
  | userRdlock (i : ι)
  | userWrlock (i : ι)
  | userUnlock (i : ι)

namespace State

variable {ι : Type} [DecidableEq ι]

def start (flags : BitVec 32) : State ι where
  flags := flags
  state := 0
  blockedReaders := 0
  blockedWriters := 0
  mutex := none
  sleepQueue := []
  threads _ := ⟨.idle none, []⟩
  writers := []
  readers := []

def goto (s : State ι) (i : ι) (pc : Pc) : State ι :=
  { s with threads := Function.update s.threads i { s.threads i with pc := pc } }

-- The thread takes the chain lock.
def lock (s : State ι) (i : ι) (pc : Pc) : Option (State ι) :=
  if s.mutex = none then some { s.goto i pc with mutex := some i } else none

-- The call returns.
def leave (s : State ι) (i : ι) (c : Call) (code : ErrorCode) : State ι :=
  { s.goto i (.idle (some (c, code))) with mutex := none }

-- A compare-exchange of the thread succeeds.
def change (s : State ι) (i : ι) (state' : BitVec 32) : State ι :=
  { s with
    state := state'
    threads := Function.update s.threads i
      { s.threads i with changes := (s.threads i).changes ++ [(s.state, state')] } }

-- The thread is put into the queue and gives the chain lock back.
def sleep (s : State ι) (i : ι) (pc : Pc) : State ι :=
  { s.goto i pc with sleepQueue := s.sleepQueue ++ [i], mutex := none }

-- UmtxChain::notify_n for the key; `count` is an `sint`.
def notifyN (s : State ι) (count : Int) : State ι :=
  if 0 < count then { s with sleepQueue := s.sleepQueue.drop count.toNat } else s

def wrflags (s : State ι) (fflag : BitVec 64) : BitVec 32 :=
  if fflag &&& kUrwLockPreferReader.setWidth 64 = 0 ∧ s.flags &&& kUrwLockPreferReader = 0 then
    kUrwLockWriteOwner ||| kUrwLockWriteWaiters
  else kUrwLockWriteOwner

-- umtx_rw_rdlock behind the loop that sets the bit of the waiters.
def rdMarked (s : State ι) (i : ι) (fflag : BitVec 64) (state : BitVec 32) : State ι :=
  if state &&& s.wrflags fflag = 0 then s.goto i (.rdlock fflag .load)
  else { s.goto i (.rdlock fflag (.sleep state)) with blockedReaders := s.blockedReaders + 1 }

-- umtx_rw_rdlock behind the loop that sleeps.
def rdLeave (s : State ι) (i : ι) (fflag : BitVec 64) (state : BitVec 32) : State ι :=
  { s.goto i (.rdlock fflag (if s.blockedReaders - 1 = 0 then .clear state else .load)) with
    blockedReaders := s.blockedReaders - 1 }

-- The next step in umtx_rw_rdlock; none if it has to wait for the chain lock or sleeps.
def umtxRwRdlock (s : State ι) (i : ι) (fflag : BitVec 64) (spurious : Bool) :
    RdPc → Option (State ι)
  | .enter => s.lock i (.rdlock fflag .load)
  | .load => some (s.goto i (.rdlock fflag (.acquire s.state)))
  | .acquire state =>
      if state &&& s.wrflags fflag = 0 then
        if state &&& kUrwLockMaxReaders = kUrwLockMaxReaders then
          some (s.leave i (.rdlock fflag) .AGAIN)
        else if s.state = state then
          some { (s.change i (state + 1)).leave i (.rdlock fflag) .ok with
            readers := i :: s.readers }
        else some (s.goto i (.rdlock fflag (.acquire s.state)))
      else some (s.goto i (.rdlock fflag (.mark state)))
  | .mark state =>
      if state &&& s.wrflags fflag ≠ 0 ∧ state &&& kUrwLockReadWaiters = 0 then
        if s.state = state ∧ spurious = false then
          some ((s.change i (state ||| kUrwLockReadWaiters)).rdMarked i fflag state)
        else some (s.goto i (.rdlock fflag (.mark s.state)))
      else some (s.rdMarked i fflag state)
  | .sleep state =>
      if state &&& s.wrflags fflag ≠ 0 then some (s.sleep i (.rdlock fflag (.asleep state)))
      else some (s.rdLeave i fflag state)
  | .asleep _ => none
  | .reload => some (s.goto i (.rdlock fflag (.sleep s.state)))
  | .clear state =>
      if s.state = state ∧ spurious = false then
        some (s.change i (state &&& ~~~kUrwLockReadWaiters))
      else some (s.goto i (.rdlock fflag .load))

-- umtx_rw_wrlock behind the loop that sets the bit of the waiters.
def wrMarked (s : State ι) (i : ι) (blockedReaders : Nat) (state : BitVec 32) : State ι :=
  if unlocked state then s.goto i (.wrlock (.load blockedReaders .ok))
  else { s.goto i (.wrlock (.sleep state)) with blockedWriters := s.blockedWriters + 1 }

-- umtx_rw_wrlock behind the loop that sleeps.
def wrLeave (s : State ι) (i : ι) (error : ErrorCode) : State ι :=
  { s.goto i (.wrlock (if s.blockedWriters - 1 = 0 then .clearLoad error else .load 0 error)) with
    blockedWriters := s.blockedWriters - 1 }

def umtxRwWrlock (s : State ι) (i : ι) (spurious : Bool) : WrPc → Option (State ι)
  | .enter => s.lock i (.wrlock (.load 0 .ok))
  | .load blockedReaders error =>
      some (s.goto i (.wrlock (.acquire blockedReaders error s.state false)))
  | .acquire blockedReaders error state mine =>
      if unlocked state then
        if s.state = state then
          some { (s.change i (state ||| kUrwLockWriteOwner)).goto i
              (.wrlock (.acquire blockedReaders error state true)) with
            writers := i :: s.writers }
        else some { s.leave i .wrlock .ok with
          writers := if mine then s.writers else i :: s.writers }
      else if error ≠ .ok then
        if state &&& (kUrwLockWriteOwner ||| kUrwLockWriteWaiters) = 0 ∧ blockedReaders ≠ 0 then
          some ((s.notifyN 1).leave i .wrlock error)
        else some (s.leave i .wrlock error)
      else some (s.goto i (.wrlock (.reload blockedReaders)))
  | .reload blockedReaders => some (s.goto i (.wrlock (.mark blockedReaders s.state)))
  | .mark blockedReaders state =>
      if !unlocked state ∧ state &&& kUrwLockWriteWaiters = 0 then
        if s.state = state then some (s.change i (state ||| kUrwLockWriteWaiters))
        else some (s.wrMarked i blockedReaders s.state)
      else some (s.wrMarked i blockedReaders state)
  | .sleep state =>
      if unlocked state then some (s.wrLeave i .ok) else some (s.sleep i (.wrlock .asleep))
  | .asleep => none
  | .woken => some (s.goto i (.wrlock (.sleep s.state)))
  | .clearLoad error => some (s.goto i (.wrlock (.clear error s.state)))
  | .clear error state =>
      if s.state = state ∧ spurious = false then
        some ((s.change i (state &&& ~~~kUrwLockWriteWaiters)).goto i
          (.wrlock (.load s.blockedReaders error)))
      else some (s.goto i (.wrlock (.clear error s.state)))

-- The number of sleepers that umtx_rw_unlock wakes.
def unlockCount (flags state : BitVec 32) : BitVec 32 :=
  if flags &&& kUrwLockPreferReader = 0 then
    if state &&& kUrwLockWriteWaiters ≠ 0 then 1
    else if state &&& kUrwLockReadWaiters ≠ 0 then 0xffffffff
    else 0
  else
    if state &&& kUrwLockReadWaiters ≠ 0 then 0xffffffff
    else if state &&& kUrwLockWriteWaiters ≠ 0 then 1
    else 0

-- notify_all passes the largest `sint`.
def unlockNotify (s : State ι) (state : BitVec 32) : State ι :=
  if s.flags &&& 1 ≠ 0 then s.notifyN (2 ^ 31 - 1) else s.notifyN (unlockCount s.flags state).toInt

def umtxRwUnlock (s : State ι) (i : ι) (spurious : Bool) (holder : ι) : UnPc → Option (State ι)
  | .enter => s.lock i (.unlock .load)
  | .load =>
      if owned s.state then some (s.goto i (.unlock (.owner s.state)))
      else if s.state &&& kUrwLockMaxReaders ≠ 0 then some (s.goto i (.unlock (.reader s.state)))
      else some (s.leave i .unlock .PERM)
  | .owner state =>
      if s.state = state ∧ spurious = false then
        if holder ∈ s.writers then
          some { (s.change i (state &&& ~~~kUrwLockWriteOwner)).goto i (.unlock (.notify state)) with
            writers := s.writers.erase holder }
        else none
      else if owned s.state then some (s.goto i (.unlock (.owner s.state)))
      else some (s.leave i .unlock .PERM)
  | .reader state =>
      if s.state = state ∧ spurious = false then
        if holder ∈ s.readers then
          some { (s.change i (state - 1)).goto i (.unlock (.notify state)) with
            readers := s.readers.erase holder }
        else none
      else if s.state &&& kUrwLockMaxReaders ≠ 0 then some (s.goto i (.unlock (.reader s.state)))
      else some (s.leave i .unlock .PERM)
  | .notify state => some ((s.unlockNotify state).leave i .unlock .ok)

def advance (s : State ι) (i : ι) (spurious : Bool) (holder : ι) : Option (State ι) :=
  match (s.threads i).pc with
  | .idle _ => none
  | .rdlock fflag pc => s.umtxRwRdlock i fflag spurious pc
  | .wrlock pc => s.umtxRwWrlock i spurious pc
  | .unlock pc => s.umtxRwUnlock i spurious holder pc

-- The end of a sleep, with the chain lock. A thread that nobody has notified goes back to sleep
-- if the sleep has ended without an error.
def wake (s : State ι) (i : ι) (code : ErrorCode) : Option (State ι) :=
  if s.mutex = none then
    match (s.threads i).pc with
    | .rdlock fflag (.asleep state) =>
        if i ∉ s.sleepQueue then some { s.goto i (.rdlock fflag .reload) with mutex := some i }
        else if code = .ok then some s
        else
          some ({ s with
            mutex := some i
            sleepQueue := s.sleepQueue.erase i }.rdLeave i fflag state)
    | .wrlock .asleep =>
        if i ∉ s.sleepQueue then some { s.goto i (.wrlock .woken) with mutex := some i }
        else if code = .ok then some s
        else some ({ s with mutex := some i, sleepQueue := s.sleepQueue.erase i }.wrLeave i code)
    | _ => none
  else none

end State

def Call.start : Call → Pc
  | .rdlock fflag => .rdlock fflag .enter
  | .wrlock => .wrlock .enter
  | .unlock => .unlock .enter

section Step

variable {ι : Type} [DecidableEq ι]

def step (s : State ι) : Action ι → Option (State ι)
  | .call i c =>
      match (s.threads i).pc with
      | .idle _ => some { s with threads := Function.update s.threads i ⟨c.start, []⟩ }
      | _ => none
  | .advance i spurious holder => s.advance i spurious holder
  | .wake i code => s.wake i code
  | .userRdlock i =>
      match (s.threads i).pc with
      | .idle _ =>
          if owned s.state = false ∧ s.state &&& kUrwLockMaxReaders ≠ kUrwLockMaxReaders then
            some { s with state := s.state + 1, readers := i :: s.readers }
          else none
      | _ => none
  | .userWrlock i =>
      match (s.threads i).pc with
      | .idle _ =>
          if unlocked s.state then
            some { s with
              state := s.state ||| kUrwLockWriteOwner
              writers := i :: s.writers }
          else none
      | _ => none
  | .userUnlock i =>
      match (s.threads i).pc with
      | .idle _ =>
          if owned s.state then
            if i ∈ s.writers then
              some { s with
                state := s.state &&& ~~~kUrwLockWriteOwner
                writers := s.writers.erase i }
            else none
          else if i ∈ s.readers ∧ s.state &&& kUrwLockMaxReaders ≠ 0 then
            some { s with state := s.state - 1, readers := s.readers.erase i }
          else none
      | _ => none

def Step (s s' : State ι) : Prop := ∃ action, step s action = some s'

end Step

end Rpcsx.Orbis.RwLock

namespace Rpcsx.Orbis.RwLock

open Rpcsx.Data

variable {w m f : BitVec 32}

-- A field of the word is not touched by a mask outside of it.
theorem or_field (h : m &&& f = 0) : (w ||| m) &&& f = w &&& f := by
  rw [BitVec.and_or_distrib_right, h]
  exact BitVec.or_zero

theorem remove_field (h : ~~~m &&& f = f) : (w &&& ~~~m) &&& f = w &&& f := by
  rw [BitVec.and_assoc, h]

theorem toNat_readers (w : BitVec 32) : (w &&& kUrwLockMaxReaders).toNat = w.toNat % 2 ^ 29 := by
  rw [BitVec.toNat_and]
  exact Nat.and_two_pow_sub_one_eq_mod w.toNat 29

theorem owned_iff : owned w = true ↔ 2 ^ 31 ≤ w.toNat := by
  have hmask : kUrwLockWriteOwner = BitVec.twoPow 32 31 := rfl
  have hlast : w.msb = w.getLsbD 31 := BitVec.msb_eq_getLsbD_last w
  have hvalue : w.msb = decide (2 ^ 31 ≤ w.toNat) := BitVec.msb_eq_decide w
  have howned : owned w = w.msb := by
    unfold owned
    rw [hmask, BitVec.and_twoPow, hlast]
    cases w.getLsbD 31 with
    | true => decide
    | false => decide
  rw [howned, hvalue, decide_eq_true_iff]

theorem unlocked_iff : unlocked w = true ↔ owned w = false ∧ w &&& kUrwLockMaxReaders = 0 := by
  unfold unlocked
  rw [Bool.and_eq_true, Bool.not_eq_true', decide_eq_true_iff]

-- A change that leaves the owner bit and the number of readers.
def quiet (change : BitVec 32 × BitVec 32) : Bool :=
  decide (change.2 &&& kUrwLockWriteOwner = change.1 &&& kUrwLockWriteOwner ∧
    change.2 &&& kUrwLockMaxReaders = change.1 &&& kUrwLockMaxReaders)

theorem quiet_iff {w w' : BitVec 32} : quiet (w, w') = true ↔
    w' &&& kUrwLockWriteOwner = w &&& kUrwLockWriteOwner ∧
      w' &&& kUrwLockMaxReaders = w &&& kUrwLockMaxReaders := by
  unfold quiet
  rw [decide_eq_true_iff]

theorem quiet_refl (w : BitVec 32) : quiet (w, w) = true := quiet_iff.mpr ⟨rfl, rfl⟩

theorem quiet_readWaiters (w : BitVec 32) : quiet (w, w ||| kUrwLockReadWaiters) = true :=
  quiet_iff.mpr ⟨or_field (by decide), or_field (by decide)⟩

theorem quiet_writeWaiters (w : BitVec 32) : quiet (w, w ||| kUrwLockWriteWaiters) = true :=
  quiet_iff.mpr ⟨or_field (by decide), or_field (by decide)⟩

theorem quiet_clearReadWaiters (w : BitVec 32) : quiet (w, w &&& ~~~kUrwLockReadWaiters) = true :=
  quiet_iff.mpr ⟨remove_field (by decide), remove_field (by decide)⟩

theorem quiet_clearWriteWaiters (w : BitVec 32) : quiet (w, w &&& ~~~kUrwLockWriteWaiters) = true :=
  quiet_iff.mpr ⟨remove_field (by decide), remove_field (by decide)⟩

theorem owned_or_owner (w : BitVec 32) : owned (w ||| kUrwLockWriteOwner) = true := by
  have hself : (w ||| kUrwLockWriteOwner) &&& kUrwLockWriteOwner = kUrwLockWriteOwner :=
    Mask.and_eq_right_iff.mpr (by
      rw [BitVec.or_comm]
      exact Mask.within_or_left)
  unfold owned
  rw [hself]
  rfl

theorem owned_remove_owner (w : BitVec 32) : owned (w &&& ~~~kUrwLockWriteOwner) = false := by
  have hnone : w &&& ~~~kUrwLockWriteOwner &&& kUrwLockWriteOwner = 0 := by
    rw [BitVec.and_assoc]
    exact BitVec.and_zero
  unfold owned
  rw [hnone]
  rfl

theorem readers_or_owner (w : BitVec 32) :
    (w ||| kUrwLockWriteOwner) &&& kUrwLockMaxReaders = w &&& kUrwLockMaxReaders :=
  or_field (by decide)

theorem readers_remove_owner (w : BitVec 32) :
    (w &&& ~~~kUrwLockWriteOwner) &&& kUrwLockMaxReaders = w &&& kUrwLockMaxReaders :=
  remove_field (by decide)

-- One reader more.
theorem add_reader (howned : owned w = false)
    (hmax : w &&& kUrwLockMaxReaders ≠ kUrwLockMaxReaders) :
    owned (w + 1) = false ∧
      ((w + 1) &&& kUrwLockMaxReaders).toNat = (w &&& kUrwLockMaxReaders).toNat + 1 := by
  have hlow : w.toNat % 2 ^ 29 ≠ 2 ^ 29 - 1 := by
    intro heq
    apply hmax
    apply BitVec.eq_of_toNat_eq
    rw [toNat_readers, heq]
    rfl
  have hhigh : ¬2 ^ 31 ≤ w.toNat := by
    rw [← owned_iff, howned]
    nofun
  have hsum : (w + 1).toNat = w.toNat + 1 := by
    rw [BitVec.toNat_add]
    apply Nat.mod_eq_of_lt
    change w.toNat + 1 < 2 ^ 32
    omega
  refine ⟨?_, ?_⟩
  · rw [← Bool.not_eq_true, owned_iff, hsum]
    omega
  · rw [toNat_readers, toNat_readers, hsum]
    omega

-- One reader less.
theorem remove_reader (howned : owned w = false) (hsome : w &&& kUrwLockMaxReaders ≠ 0) :
    owned (w - 1) = false ∧
      ((w - 1) &&& kUrwLockMaxReaders).toNat + 1 = (w &&& kUrwLockMaxReaders).toNat := by
  have hlow : w.toNat % 2 ^ 29 ≠ 0 := by
    intro heq
    apply hsome
    apply BitVec.eq_of_toNat_eq
    rw [toNat_readers, heq]
    rfl
  have hhigh : ¬2 ^ 31 ≤ w.toNat := by
    rw [← owned_iff, howned]
    nofun
  have hdiff : (w - 1).toNat = w.toNat - 1 := by
    apply BitVec.toNat_sub_of_le
    change 1 ≤ w.toNat
    omega
  refine ⟨?_, ?_⟩
  · rw [← Bool.not_eq_true, owned_iff, hdiff]
    omega
  · rw [toNat_readers, toNat_readers, hdiff]
    omega

end Rpcsx.Orbis.RwLock
