import Mathlib.Logic.Function.Basic
import Mathlib.Logic.Relation
import Rpcsx.Lv2

namespace Rpcsx.Lv2.EventFlag

-- The modes that lv2_event_flag::check_mode accepts.
inductive WaitMode where
  | and
  | or
deriving DecidableEq, Repr

inductive ClearMode where
  | keep
  | clear
  | clearAll
deriving DecidableEq, Repr

-- What a thread waits for: `gpr[4]` and `gpr[5]`.
structure Wait where
  bitptn : BitVec 64
  mode : WaitMode
  clear : ClearMode
deriving DecidableEq, Repr

-- lv2_event_flag::check_pattern: the pattern that is left, if it satisfies the wait.
def checkPattern (pattern : BitVec 64) (wait : Wait) : Option (BitVec 64) :=
  if wait.mode = .and ∧ pattern &&& wait.bitptn ≠ wait.bitptn ∨
      wait.mode = .or ∧ pattern &&& wait.bitptn = 0 then none
  else
    match wait.clear with
    | .keep => some pattern
    | .clear => some (pattern &&& ~~~wait.bitptn)
    | .clearAll => some 0

section Attempt

variable {ι : Type} [DecidableEq ι]

-- get_next of sys_event_flag_set, over the threads that it has not marked.
def getNext (prio : ι → Int) (protocol : Protocol) : List ι → Option ι
  | [] => none
  | first :: rest =>
      some (rest.foldl (fun it ppu =>
        if protocol ≠ .priority ∨ prio ppu ≤ prio it then ppu else it) first)

def schedulingOrder (prio : ι → Int) (protocol : Protocol) : Nat → List ι → List ι
  | 0, _ => []
  | count + 1, sq =>
      match getNext prio protocol sq with
      | none => []
      | some it => it :: schedulingOrder prio protocol count (sq.erase it)

-- The variables of an attempt, with the registers of the waiters.
structure Attempt (ι : Type) where
  toWrite : BitVec 64
  dependantMask : BitVec 64
  count : Nat
  gpr3 : ι → Option Code
  gpr6 : ι → BitVec 64

def dependantMaskOr (bitptn toWrite : BitVec 64) (wait : Wait) : BitVec 64 :=
  if wait.mode = .or ∨ bitptn &&& wait.bitptn &&& toWrite = wait.bitptn then 0 else wait.bitptn

-- All waiters are processed in one attempt; it stops early when no bit is left to write.
def evaluate (bitptn : BitVec 64) (waits : ι → Wait) : List ι → Attempt ι → Attempt ι
  | [], a => a
  | it :: rest, a =>
      match checkPattern a.toWrite (waits it) with
      | none =>
          evaluate bitptn waits rest { a with
            gpr3 := Function.update a.gpr3 it none
            gpr6 := Function.update a.gpr6 it a.toWrite }
      | some toWrite =>
          let done : Attempt ι := {
            toWrite := toWrite
            dependantMask := a.dependantMask ||| dependantMaskOr bitptn a.toWrite (waits it)
            count := a.count + 1
            gpr3 := Function.update a.gpr3 it (some .ok)
            gpr6 := Function.update a.gpr6 it a.toWrite }
          if toWrite = 0 then done else evaluate bitptn waits rest done

-- The waiters that an attempt does not reach.
def unreached (waits : ι → Wait) : List ι → BitVec 64 → List ι
  | [], _ => []
  | it :: rest, toWrite =>
      match checkPattern toWrite (waits it) with
      | none => unreached waits rest toWrite
      | some toWrite => if toWrite = 0 then rest else unreached waits rest toWrite

end Attempt

-- Where a thread stands: in front of the atomic operation it performs next, with the local
-- variables that are still in use.
inductive Pc where
  | idle (result : Option Code)
  -- sys_event_flag_wait
  | waitCheck (timeout : Bool)
  | waitLock (timeout : Bool)
  | waitRecheck (timeout : Bool)
  | waitEmplace (timeout : Bool)
  | parked (timeout : Bool)
  | expired
  | barrier
  | timeoutLock
  | timeoutUnqueue
  -- sys_event_flag_trywait
  | trywait (args : Wait)
  -- sys_event_flag_set
  | setCheck (bitptn : BitVec 64)
  | setLock (bitptn : BitVec 64)
  | setLoad (bitptn : BitVec 64)
  | setEvaluate (bitptn pattern : BitVec 64)
  | setCommit (bitptn pattern toWrite dependantMask : BitVec 64) (count : Nat)
  | setRemove
  -- sys_event_flag_clear
  | clear (bitptn : BitVec 64)
  -- sys_event_flag_cancel
  | cancelLock
  | cancelLoad
  | cancelSchedule (pattern : BitVec 64)
deriving DecidableEq, Repr

-- Inside a section of the mutex of the object.
def Pc.holds : Pc → Bool
  | waitRecheck _ | waitEmplace _ | timeoutUnqueue | setLoad _ | setEvaluate _ _
  | setCommit _ _ _ _ _ | setRemove | cancelLoad | cancelSchedule _ => true
  | _ => false

structure Config where
  protocol : Protocol
  -- SYS_SYNC_WAITER_SINGLE
  single : Bool
  initial : BitVec 64
deriving DecidableEq, Repr

-- The object, the mutex in it, the threads and their registers; `gpr[3]` is none for -1.
structure State (ι : Type) where
  pattern : BitVec 64
  sq : List ι
  mutex : Option ι
  threads : ι → Pc
  waits : ι → Wait
  gpr3 : ι → Option Code
  gpr6 : ι → BitVec 64

namespace State

variable {ι : Type} [DecidableEq ι]

def start (c : Config) : State ι where
  pattern := c.initial
  sq := []
  mutex := none
  threads _ := .idle none
  waits _ := ⟨0, .and, .keep⟩
  gpr3 _ := none
  gpr6 _ := 0

def goto (s : State ι) (i : ι) (pc : Pc) : State ι :=
  { s with threads := Function.update s.threads i pc }

def lock (s : State ι) (i : ι) (pc : Pc) : Option (State ι) :=
  if s.mutex = none then some { s.goto i pc with mutex := some i } else none

def unlock (s : State ι) (i : ι) (pc : Pc) : State ι := { s.goto i pc with mutex := none }

def setResult (s : State ι) (i : ι) (code : Option Code) (pattern : BitVec 64) : State ι :=
  { s with gpr3 := Function.update s.gpr3 i code, gpr6 := Function.update s.gpr6 i pattern }

-- The registers and variables at the start of an attempt.
def attempt (s : State ι) (bitptn pattern : BitVec 64) : Attempt ι where
  toWrite := pattern ||| bitptn
  dependantMask := 0
  count := 0
  gpr3 := s.gpr3
  gpr6 := s.gpr6

end State

inductive Call where
  | wait (args : Wait) (timeout : Bool)
  | trywait (args : Wait)
  | set (bitptn : BitVec 64)
  | clear (bitptn : BitVec 64)
  | cancel
deriving DecidableEq, Repr

section Step

variable {ι : Type} [DecidableEq ι]

def Call.start (s : State ι) (i : ι) : Call → State ι
  | wait args timeout =>
      { (s.setResult i none 0).goto i (.waitCheck timeout) with
        waits := Function.update s.waits i args }
  | trywait args => s.goto i (.trywait args)
  | set bitptn => s.goto i (.setCheck bitptn)
  | clear bitptn => s.goto i (.clear bitptn)
  | cancel => s.goto i .cancelLock

variable (c : Config) (prio : ι → Int)

-- The next operation of a thread; none while it sleeps or has to wait for the mutex.
def advance (s : State ι) (i : ι) : Option (State ι) :=
  match s.threads i with
  | .idle _ => none
  | .waitCheck timeout =>
      match checkPattern s.pattern (s.waits i) with
      | some pattern => some { s.goto i (.idle (some .ok)) with pattern := pattern }
      | none => some (s.goto i (.waitLock timeout))
  | .waitLock timeout => s.lock i (.waitRecheck timeout)
  | .waitRecheck timeout =>
      match checkPattern s.pattern (s.waits i) with
      | some pattern => some { s.unlock i (.idle (some .ok)) with pattern := pattern }
      | none =>
          if c.single ∧ s.sq ≠ [] then some (s.unlock i (.idle (some .eperm)))
          else some (s.goto i (.waitEmplace timeout))
  | .waitEmplace timeout => some { s.unlock i (.parked timeout) with sq := emplace s.sq i }
  -- a signal is sent to threads that are taken from the queue
  | .parked _ => if i ∈ s.sq then none else some (s.goto i (.idle (s.gpr3 i)))
  | .expired => if s.sq = [] then some (s.goto i .barrier) else some (s.goto i .timeoutLock)
  | .barrier => if s.mutex = none then some (s.goto i (.idle (s.gpr3 i))) else none
  | .timeoutLock => s.lock i .timeoutUnqueue
  | .timeoutUnqueue =>
      match unqueue s.sq i with
      | none => some (s.unlock i (.idle (s.gpr3 i)))
      | some sq =>
          some { (s.setResult i (some .etimedout) s.pattern).unlock i (.idle (some .etimedout)) with
            sq := sq }
  | .trywait args =>
      match checkPattern s.pattern args with
      | some pattern => some { s.goto i (.idle (some .ok)) with pattern := pattern }
      | none => some (s.goto i (.idle (some .ebusy)))
  | .setCheck bitptn =>
      if s.pattern &&& bitptn = bitptn then some (s.goto i (.idle (some .ok)))
      else some (s.goto i (.setLock bitptn))
  | .setLock bitptn => s.lock i (.setLoad bitptn)
  | .setLoad bitptn => some (s.goto i (.setEvaluate bitptn s.pattern))
  | .setEvaluate bitptn pattern =>
      let order := schedulingOrder prio c.protocol s.sq.length s.sq
      let a := evaluate bitptn s.waits order (s.attempt bitptn pattern)
      some { s.goto i (.setCommit bitptn pattern a.toWrite (a.dependantMask &&& ~~~bitptn) a.count)
        with gpr3 := a.gpr3, gpr6 := a.gpr6 }
  | .setCommit bitptn pattern toWrite dependantMask count =>
      if (s.pattern ^^^ pattern) &&& dependantMask ≠ 0 then
        some (s.goto i (.setEvaluate bitptn s.pattern))
      else
        let written := (s.pattern ||| bitptn) &&& ~~~((pattern ||| bitptn) &&& ~~~toWrite)
        if count = 0 then some { s.unlock i (.idle (some .ok)) with pattern := written }
        else some { s.goto i .setRemove with pattern := written }
  | .setRemove =>
      some { s.unlock i (.idle (some .ok)) with
        sq := s.sq.filter fun ppu => s.gpr3 ppu ≠ some .ok }
  | .clear bitptn => some { s.goto i (.idle (some .ok)) with pattern := s.pattern &&& bitptn }
  | .cancelLock => s.lock i .cancelLoad
  | .cancelLoad => some (s.goto i (.cancelSchedule s.pattern))
  | .cancelSchedule pattern =>
      match schedule (fun ppu => ⟨prio ppu, 0⟩) .fifo s.sq with
      | none => some (s.unlock i (.idle (some .ok)))
      | some (ppu, sq) => some { s.setResult ppu (some .ecanceled) pattern with sq := sq }

-- The priorities may be any at any time.
inductive Step (s : State ι) : State ι → Prop where
  | call (i : ι) (result : Option Code) (call : Call) (hidle : s.threads i = .idle result) :
      Step s (call.start s i)
  | run (i : ι) (prio : ι → Int) (s' : State ι) (h : advance c prio s i = some s') : Step s s'
  | expire (i : ι) (hparked : s.threads i = .parked true) : Step s (s.goto i .expired)

end Step

end Rpcsx.Lv2.EventFlag
