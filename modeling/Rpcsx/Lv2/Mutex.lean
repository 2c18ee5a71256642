import Mathlib.Logic.Function.Basic
import Mathlib.Logic.Relation
import Rpcsx.Lv2

namespace Rpcsx.Lv2.Mutex

-- The calls, as far as the code differs with them.
inductive LockCall where
  | lock (timeout : Bool)
  | trylock
deriving DecidableEq, Repr

inductive SignalCall (ι : Type) where
  | one
  | all
  | target (cpu : ι)
deriving DecidableEq, Repr

inductive Call (ι κ : Type) where
  | lock (call : LockCall)
  | unlock
  | wait (cond : κ) (timeout : Bool)
  | signal (cond : κ) (call : SignalCall ι)
deriving DecidableEq, Repr

-- The last call of a thread outside of the kernel.
inductive Returned where
  | lock
  | unlock
  | wait
  | signal
deriving DecidableEq, Repr

-- What lv2_mutex::reown is called for.
inductive After (κ : Type) where
  | unlock
  | wait (cond : κ) (timeout : Bool) (count : Nat)
deriving DecidableEq, Repr

-- Where a thread stands: in front of the atomic operation it performs next, with the local
-- variables that are still in use.
inductive Pc (ι κ : Type) where
  | idle (last : Option (Returned × Code))
  -- sys_mutex_lock, sys_mutex_trylock
  | lockLoad (call : LockCall)
  | lockCas (call : LockCall) (sq : Option ι)
  | lockCheck
  | lockInc
  | lockBusy (timeout : Bool)
  | lockOwn (timeout : Bool)
  | lockParked (timeout : Bool)
  | lockExpired
  | lockBarrier
  | lockTimeoutLock
  | lockTimeoutLoad
  | lockTimeoutTry (owner : Option ι) (sq : List ι)
  -- sys_mutex_unlock
  | unlockLoad
  | unlockCheck (sq : Option ι)
  | unlockDec
  | unlockCas
  | unlockLock
  -- lv2_mutex::reown
  | reownLoad (after : After κ)
  | reownTry (after : After κ) (owner : Option ι) (sq : List ι)
  | reownStore (after : After κ) (cpu : ι)
  | reownAwake (after : After κ) (cpu : Option ι)
  -- sys_cond_wait
  | waitCheck (cond : κ) (timeout : Bool)
  | waitLock (cond : κ) (timeout : Bool)
  | waitEmplace (cond : κ) (timeout : Bool)
  | waitExchange (cond : κ) (timeout : Bool)
  | waitParked (cond : κ) (timeout : Bool) (count : Nat) (code : Code)
  | waitTimeoutLock (cond : κ) (count : Nat) (code : Code)
  | waitUnqueue (cond : κ) (count : Nat) (code : Code)
  | waitOwn (cond : κ) (count : Nat)
  | waitOwnerCheck (cond : κ) (count : Nat) (code : Code)
  | waitEnsure (count : Nat) (code : Code)
  | waitRestore (count : Nat) (code : Code)
  -- sys_cond_signal, sys_cond_signal_all, sys_cond_signal_to
  | signalLoad (cond : κ) (call : SignalCall ι)
  | signalBarrier (cond : κ) (call : SignalCall ι)
  | signalLock (cond : κ) (call : SignalCall ι)
  | signalCheck (cond : κ) (call : SignalCall ι)
  | signalSchedule (cond : κ)
  | signalUnqueue (cond : κ) (cpu : ι)
  | signalOwn (cpu : ι)
  | signalAwake (cpu : ι)
  | allTake (cond : κ)
  | allSchedule (sq : List ι) (result : Option ι)
  | allOwn (cpu : ι) (sq : List ι) (result : Option ι)
  -- an ensure() failed
  | failed
deriving DecidableEq, Repr

-- Inside a section of the `shared_mutex` of the object.
def Pc.holds {ι κ : Type} : Pc ι κ → Bool
  | lockTimeoutLoad | lockTimeoutTry _ _ | reownLoad _ | reownTry _ _ _ | reownStore _ _
  | reownAwake _ _ | waitEmplace _ _ | waitExchange _ _ | waitUnqueue _ _ _ | waitOwn _ _
  | waitOwnerCheck _ _ _ | signalCheck _ _ | signalSchedule _ | signalUnqueue _ _ | signalOwn _
  | signalAwake _ | allTake _ | allSchedule _ _ | allOwn _ _ _ => true
  | _ => false

structure Config where
  protocol : Protocol
  recursive : Bool
deriving DecidableEq, Repr

-- The mutex and its condition variables: `owner` and `sq` are one value, `control`. The signals
-- are those of lv2_obj::awake. `depth` is a ghost: how often a thread has locked more than
-- unlocked.
structure State (ι κ : Type) where
  owner : Option ι
  sq : List ι
  lockCount : Nat
  conds : κ → List ι
  mutex : Option ι
  threads : ι → Pc ι κ
  signal : ι → Bool
  depth : ι → Nat

namespace State

variable {ι κ : Type} [DecidableEq ι] [DecidableEq κ]

def start : State ι κ where
  owner := none
  sq := []
  lockCount := 0
  conds _ := []
  mutex := none
  threads _ := .idle none
  signal _ := false
  depth _ := 0

def goto (s : State ι κ) (i : ι) (pc : Pc ι κ) : State ι κ :=
  { s with threads := Function.update s.threads i pc }

def lock (s : State ι κ) (i : ι) (pc : Pc ι κ) : Option (State ι κ) :=
  if s.mutex = none then some { s.goto i pc with mutex := some i } else none

def unlock (s : State ι κ) (i : ι) (pc : Pc ι κ) : State ι κ := { s.goto i pc with mutex := none }

def setCond (s : State ι κ) (cond : κ) (sq : List ι) : State ι κ :=
  { s with conds := Function.update s.conds cond sq }

def setDepth (s : State ι κ) (i : ι) (depth : Nat) : State ι κ :=
  { s with depth := Function.update s.depth i depth }

def awake (s : State ι κ) (cpu : ι) : State ι κ :=
  { s with signal := Function.update s.signal cpu true }

def signaled (s : State ι κ) (i : ι) : State ι κ :=
  { s with signal := Function.update s.signal i false }

-- lv2_mutex::try_own
def push (s : State ι κ) (cpu : ι) : State ι κ := { s with sq := cpu :: s.sq }

def own (s : State ι κ) (cpu : Option ι) : State ι κ := { s with owner := cpu }

-- compare_and_swap on `control`, which holds the first thread of the queue
def unchanged (s : State ι κ) (owner : Option ι) (sq : Option ι) : Bool :=
  s.owner = owner ∧ s.sq.head? = sq

end State

def Call.start {ι κ : Type} : Call ι κ → Pc ι κ
  | lock call => .lockLoad call
  | unlock => .unlockLoad
  | wait cond timeout => .waitCheck cond timeout
  | signal cond call => .signalLoad cond call

section Step

variable {ι κ : Type} [DecidableEq ι] [DecidableEq κ]

-- What try_lock with CELL_EBUSY leads to.
def LockCall.busy : LockCall → Pc ι κ
  | lock timeout => .lockBusy timeout
  | trylock => .idle (some (.lock, .ebusy))

-- The caller of reown goes on: the other thread is woken and the section ends.
def After.next : After κ → Pc ι κ
  | unlock => .idle (some (.unlock, .ok))
  | wait cond timeout count => .waitParked cond timeout count .ok

-- The ghost count: the mutex is given up by sys_mutex_unlock.
def After.release (s : State ι κ) (i : ι) : After κ → State ι κ
  | unlock => s.setDepth i (s.depth i - 1)
  | wait _ _ _ => s

def SignalCall.next (cond : κ) : SignalCall ι → Pc ι κ
  | one => .signalSchedule cond
  | all => .allTake cond
  | target cpu => .signalUnqueue cond cpu

-- The result without a thread to wake.
def SignalCall.missed : SignalCall ι → Code
  | target _ => .eperm
  | _ => .ok

-- sys_cond_signal_to looks its thread up.
def SignalCall.looksUp : SignalCall ι → Bool
  | target _ => true
  | _ => false

variable (c : Config) (prio : ι → Prio) (choice : Bool)

-- The next operation of a thread; none while it sleeps or has to wait for the mutex. `choice` stands
-- for what is outside of the model: busy waiting, suspended callers and threads that have ended.
def advance (s : State ι κ) (i : ι) : Option (State ι κ) :=
  match s.threads i with
  | .idle _ => none
  -- lv2_mutex::try_lock
  | .lockLoad call =>
      if s.owner = none then some (s.goto i (.lockCas call s.sq.head?))
      else if s.owner = some i then
        if c.recursive then some (s.goto i .lockCheck)
        else some (s.goto i (.idle (some (.lock, .edeadlk))))
      else some (s.goto i call.busy)
  | .lockCas call sq =>
      if s.unchanged none sq then
        some (((s.own (some i)).setDepth i (s.depth i + 1)).goto i (.idle (some (.lock, .ok))))
      else some (s.goto i call.busy)
  | .lockCheck =>
      if s.lockCount = 0xffffffff then some (s.goto i (.idle (some (.lock, .ekresource))))
      else some (s.goto i .lockInc)
  | .lockInc =>
      some ({ s.setDepth i (s.depth i + 1) with lockCount := s.lockCount + 1 }.goto i
        (.idle (some (.lock, .ok))))
  | .lockBusy timeout =>
      if choice ∧ s.sq = [] then some (s.goto i (.lockLoad (.lock timeout)))
      else some (s.goto i (.lockOwn timeout))
  | .lockOwn timeout =>
      if s.owner = none then
        some (((s.own (some i)).setDepth i (s.depth i + 1)).goto i (.idle (some (.lock, .ok))))
      else some ((s.push i).goto i (.lockParked timeout))
  | .lockParked _ =>
      if s.signal i then
        some (((s.signaled i).setDepth i (s.depth i + 1)).goto i (.idle (some (.lock, .ok))))
      else none
  | .lockExpired =>
      if s.sq = [] then some (s.goto i .lockBarrier) else some (s.goto i .lockTimeoutLock)
  | .lockBarrier =>
      if s.mutex = none then
        some (((s.signaled i).setDepth i (s.depth i + 1)).goto i (.idle (some (.lock, .ok))))
      else none
  | .lockTimeoutLock => s.lock i .lockTimeoutLoad
  | .lockTimeoutLoad => some (s.goto i (.lockTimeoutTry s.owner s.sq))
  | .lockTimeoutTry owner sq =>
      match unqueue sq i with
      | none =>
          some (((s.signaled i).setDepth i (s.depth i + 1)).unlock i (.idle (some (.lock, .ok))))
      | some rest =>
          if sq.head? = some i then
            if s.unchanged owner sq.head? then
              some ({ s with sq := rest }.unlock i (.idle (some (.lock, .etimedout))))
            else some (s.goto i .lockTimeoutLoad)
          -- the thread in front of it is changed in place
          else some ({ s with sq := s.sq.erase i }.unlock i (.idle (some (.lock, .etimedout))))
  -- lv2_mutex::try_unlock
  | .unlockLoad =>
      if s.owner = some i then some (s.goto i (.unlockCheck s.sq.head?))
      else some (s.goto i (.idle (some (.unlock, .eperm))))
  | .unlockCheck sq =>
      if s.lockCount ≠ 0 then some (s.goto i .unlockDec)
      else if sq = none then some (s.goto i .unlockCas)
      else some (s.goto i .unlockLock)
  | .unlockDec =>
      some ({ s.setDepth i (s.depth i - 1) with lockCount := s.lockCount - 1 }.goto i
        (.idle (some (.unlock, .ok))))
  | .unlockCas =>
      if s.unchanged (some i) none then
        some (((s.own none).setDepth i (s.depth i - 1)).goto i (.idle (some (.unlock, .ok))))
      else some (s.goto i .unlockLock)
  | .unlockLock => s.lock i (.reownLoad .unlock)
  | .reownLoad after => some (s.goto i (.reownTry after s.owner s.sq))
  | .reownTry after owner sq =>
      match schedule prio c.protocol sq with
      | none =>
          if s.unchanged owner sq.head? then
            some ((after.release (s.own none) i).goto i (.reownAwake after none))
          else some (s.goto i (.reownLoad after))
      | some (cpu, rest) =>
          if sq.head? = some cpu then
            if s.unchanged owner sq.head? then
              some ((after.release { s.own (some cpu) with sq := rest } i).goto i
                (.reownAwake after (some cpu)))
            else some (s.goto i (.reownLoad after))
          -- the thread in front of it is changed in place
          else some ({ s with sq := s.sq.erase cpu }.goto i (.reownStore after cpu))
  | .reownStore after cpu =>
      some ((after.release (s.own (some cpu)) i).goto i (.reownAwake after (some cpu)))
  | .reownAwake after none => some (s.unlock i after.next)
  | .reownAwake after (some cpu) => some ((s.awake cpu).unlock i after.next)
  | .waitCheck cond timeout =>
      if s.owner = some i then some (s.goto i (.waitLock cond timeout))
      else some (s.goto i (.idle (some (.wait, .eperm))))
  | .waitLock cond timeout => s.lock i (.waitEmplace cond timeout)
  | .waitEmplace cond timeout =>
      some ((s.setCond cond (emplace (s.conds cond) i)).goto i (.waitExchange cond timeout))
  | .waitExchange cond timeout =>
      some ({ s with lockCount := 0 }.goto i (.reownLoad (.wait cond timeout s.lockCount)))
  | .waitParked _ _ count code =>
      if s.signal i then some ((s.signaled i).goto i (.waitEnsure count code)) else none
  | .waitTimeoutLock cond count code => s.lock i (.waitUnqueue cond count code)
  | .waitUnqueue cond count code =>
      match unqueue (s.conds cond) i with
      | some sq => some ((s.setCond cond sq).goto i (.waitOwn cond count))
      | none => some (s.goto i (.waitOwnerCheck cond count code))
  | .waitOwn cond count =>
      if s.owner = none then some ((s.own (some i)).unlock i (.waitEnsure count .etimedout))
      else some ((s.push i).unlock i (.waitParked cond false count .etimedout))
  | .waitOwnerCheck cond count code =>
      if s.owner = some i then some ((s.signaled i).unlock i (.waitEnsure count code))
      else some (s.unlock i (.waitParked cond false count code))
  | .waitEnsure count code =>
      if s.owner = some i then some (s.goto i (.waitRestore count code))
      else some (s.goto i .failed)
  | .waitRestore count code =>
      some ({ s with lockCount := count }.goto i (.idle (some (.wait, code))))
  | .signalLoad cond call =>
      if choice ∧ call.looksUp then some (s.goto i (.idle (some (.signal, .esrch))))
      else if s.conds cond = [] then some (s.goto i (.signalBarrier cond call))
      else some (s.goto i (.signalLock cond call))
  | .signalBarrier cond call =>
      if s.mutex = none then
        if choice then some (s.goto i (.signalLoad cond call))
        else some (s.goto i (.idle (some (.signal, call.missed))))
      else none
  | .signalLock cond call => s.lock i (.signalCheck cond call)
  | .signalCheck cond call =>
      if choice then some (s.unlock i (.signalLoad cond call))
      else some (s.goto i (call.next cond))
  | .signalSchedule cond =>
      match schedule prio c.protocol (s.conds cond) with
      | none => some (s.unlock i (.idle (some (.signal, .ok))))
      | some (cpu, sq) => some ((s.setCond cond sq).goto i (.signalOwn cpu))
  | .signalUnqueue cond cpu =>
      if cpu ∈ s.conds cond then
        match unqueue (s.conds cond) cpu with
        | none => some (s.goto i .failed)
        | some sq => some ((s.setCond cond sq).goto i (.signalOwn cpu))
      else some (s.unlock i (.idle (some (.signal, .eperm))))
  | .signalOwn cpu =>
      if s.owner = none then some ((s.own (some cpu)).goto i (.signalAwake cpu))
      else some ((s.push cpu).unlock i (.idle (some (.signal, .ok))))
  | .signalAwake cpu => some ((s.awake cpu).unlock i (.idle (some (.signal, .ok))))
  | .allTake cond => some ((s.setCond cond []).goto i (.allSchedule (s.conds cond) none))
  | .allSchedule sq result =>
      match schedule prio .priority sq with
      | some (cpu, rest) => some (s.goto i (.allOwn cpu rest result))
      | none =>
          match result with
          | none => some (s.unlock i (.idle (some (.signal, .ok))))
          | some cpu => some ((s.awake cpu).unlock i (.idle (some (.signal, .ok))))
  | .allOwn cpu sq result =>
      if s.owner = none then
        if result = none then some ((s.own (some cpu)).goto i (.allSchedule sq (some cpu)))
        else some (s.goto i .failed)
      else some ((s.push cpu).goto i (.allSchedule sq result))
  | .failed => none

-- The priorities may be any at any time.
inductive Step (s : State ι κ) : State ι κ → Prop where
  | call (i : ι) (last : Option (Returned × Code)) (call : Call ι κ)
      (hidle : s.threads i = .idle last) : Step s (s.goto i call.start)
  | run (i : ι) (prio : ι → Prio) (choice : Bool) (s' : State ι κ)
      (h : advance c prio choice s i = some s') : Step s s'
  | expireLock (i : ι) (hparked : s.threads i = .lockParked true) : Step s (s.goto i .lockExpired)
  | expireWait (i : ι) (cond : κ) (count : Nat) (code : Code)
      (hparked : s.threads i = .waitParked cond true count code) :
      Step s (s.goto i (.waitTimeoutLock cond count code))

def Reachable (s : State ι κ) : Prop := Relation.ReflTransGen (Step c) State.start s

end Step

end Rpcsx.Lv2.Mutex
