import Mathlib.Logic.Function.Basic
import Mathlib.Logic.Relation
import Rpcsx.Lv2

namespace Rpcsx.Lv2.EventQueue

-- lv2_event: the source and three words of data.
structure Event where
  source : BitVec 64
  data1 : BitVec 64
  data2 : BitVec 64
  data3 : BitVec 64
deriving DecidableEq, Repr

inductive Call where
  | send (event : Event)
  | receive (timeout : Bool)
  | tryreceive (size : Int)
  | drain
  | destroy (force : Bool)
deriving DecidableEq, Repr

-- Where a thread stands: in front of the atomic operation it performs next, with the local
-- variables that are still in use.
inductive Pc (ι : Type) where
  | idle (result : Option Code)
  -- lv2_event_queue::send
  | send (event : Event)
  | sendStore (event : Event) (ppu : ι)
  | sendAwake (event : Event) (ppu : ι)
  -- sys_event_queue_receive
  | receive (timeout : Bool)
  | parked (timeout : Bool)
  | expired
  | barrier
  | timeoutLock
  | timeoutUnqueue
  -- sys_event_queue_tryreceive
  | tryreceive (size : Int)
  -- sys_event_queue_drain
  | drain
  -- sys_event_queue_destroy
  | destroy (force : Bool)
  | destroyCancel
  | destroyClear
  | destroyAwake (cpus : List ι)
deriving DecidableEq, Repr

-- Inside a section of the mutex of the object.
def Pc.holds {ι : Type} : Pc ι → Bool
  | sendStore _ _ | sendAwake _ _ | timeoutUnqueue | destroyCancel | destroyClear
  | destroyAwake _ => true
  | _ => false

structure Config where
  protocol : Protocol
  size : Nat
deriving DecidableEq, Repr

-- A queue of the PPU type, the threads and their registers: `gpr[3]`, and the event in `gpr[4]`
-- to `gpr[7]`. The queue is live while it has an id.
structure State (ι : Type) where
  live : Bool
  events : List Event
  pq : List ι
  mutex : Option ι
  threads : ι → Pc ι
  signal : ι → Bool
  gpr3 : ι → Code
  gpr : ι → Event

-- What a caller can see of a step.
inductive Label (ι : Type) where
  | silent
  -- a receiver begins its call
  | begins (ppu : ι)
  -- an event is stored and its send returns
  | stores (cpu : ι) (event : Event)
  -- an event is written into the registers of a receiver
  | hands (cpu : ι) (event : Event) (ppu : ι)
  | sent (cpu : ι) (event : Event)
  -- a receiver takes events out of the queue and returns them
  | takes (ppu : ι) (events : List Event) (received : Bool)
  | drains
  -- a receiver returns from its sleep, or without a queue
  | returns (ppu : ι) (received : Bool) (code : Code) (events : List Event)
deriving DecidableEq, Repr

namespace State

variable {ι : Type} [DecidableEq ι]

def start : State ι where
  live := true
  events := []
  pq := []
  mutex := none
  threads _ := .idle none
  signal _ := false
  gpr3 _ := .ok
  gpr _ := ⟨0, 0, 0, 0⟩

def goto (s : State ι) (i : ι) (pc : Pc ι) : State ι :=
  { s with threads := Function.update s.threads i pc }

def unlock (s : State ι) (i : ι) (pc : Pc ι) : State ι := { s.goto i pc with mutex := none }

-- A signal is taken by the thread that it is for.
def awaken (s : State ι) (i : ι) : State ι :=
  { s with signal := Function.update s.signal i false }

-- The end of sys_event_queue_receive, after the sleep.
def returned (s : State ι) (i : ι) : Label ι :=
  .returns i true (s.gpr3 i) (if s.gpr3 i = .ok then [s.gpr i] else [])

end State

section Step

variable {ι : Type} [DecidableEq ι]

def Call.start (s : State ι) (i : ι) : Call → State ι × Label ι
  | send event => (s.goto i (.send event), .silent)
  | receive timeout =>
      ({ s.goto i (.receive timeout) with gpr3 := Function.update s.gpr3 i .ok }, .begins i)
  | tryreceive size => (s.goto i (.tryreceive size), .begins i)
  | drain => (s.goto i .drain, .silent)
  | destroy force => (s.goto i (.destroy force), .silent)

variable (c : Config) (prio : ι → Prio)

-- The next operation of a thread; none while it sleeps or has to wait for the mutex. A section of
-- the mutex that changes nothing that is read outside of it is one operation.
def advance (s : State ι) (i : ι) : Option (State ι × Label ι) :=
  match s.threads i with
  | .idle _ => none
  | .send event =>
      if s.mutex ≠ none then none
      else if ¬ s.live then some (s.goto i (.idle (some .enotconn)), .silent)
      else
        match schedule prio c.protocol s.pq with
        | none =>
            if s.events.length < c.size then
              some ({ s.goto i (.idle (some .ok)) with events := s.events ++ [event] },
                .stores i event)
            else some (s.goto i (.idle (some .ebusy)), .silent)
        | some (ppu, pq) =>
            some ({ s.goto i (.sendStore event ppu) with pq := pq, mutex := some i }, .silent)
  | .sendStore event ppu =>
      some ({ s.goto i (.sendAwake event ppu) with gpr := Function.update s.gpr ppu event },
        .hands i event ppu)
  | .sendAwake event ppu =>
      some ({ s.unlock i (.idle (some .ok)) with signal := Function.update s.signal ppu true },
        .sent i event)
  | .receive timeout =>
      if s.mutex ≠ none then none
      else if ¬ s.live then some (s.goto i (.idle (some .esrch)), .returns i true .esrch [])
      else
        match s.events with
        | [] => some ({ s.goto i (.parked timeout) with pq := emplace s.pq i }, .silent)
        | event :: events =>
            some ({ s.goto i (.idle (some .ok)) with
              events := events
              gpr := Function.update s.gpr i event }, .takes i [event] true)
  | .parked _ =>
      if s.signal i then some ((s.awaken i).goto i (.idle (some (s.gpr3 i))), s.returned i) else none
  | .expired =>
      if s.pq = [] then some (s.goto i .barrier, .silent) else some (s.goto i .timeoutLock, .silent)
  | .barrier =>
      if s.mutex ≠ none then none
      else some ((s.awaken i).goto i (.idle (some (s.gpr3 i))), s.returned i)
  | .timeoutLock =>
      if s.mutex ≠ none then none
      else some ({ s.goto i .timeoutUnqueue with mutex := some i }, .silent)
  | .timeoutUnqueue =>
      match unqueue s.pq i with
      | none => some ((s.awaken i).unlock i (.idle (some (s.gpr3 i))), s.returned i)
      | some pq =>
          some ({ s.unlock i (.idle (some .etimedout)) with
            pq := pq
            gpr3 := Function.update s.gpr3 i .etimedout }, .returns i true .etimedout [])
  | .tryreceive size =>
      if s.mutex ≠ none then none
      else if ¬ s.live then some (s.goto i (.idle (some .esrch)), .returns i false .esrch [])
      else
        some ({ s.goto i (.idle (some .ok)) with events := s.events.drop size.toNat },
          .takes i (s.events.take size.toNat) false)
  | .drain =>
      if s.mutex ≠ none then none
      else if ¬ s.live then some (s.goto i (.idle (some .esrch)), .silent)
      else some ({ s.goto i (.idle (some .ok)) with events := [] }, .drains)
  | .destroy force =>
      if s.mutex ≠ none then none
      else if ¬ s.live then some (s.goto i (.idle (some .esrch)), .silent)
      else if s.pq = [] then
        some ({ s.goto i (.idle (some .ok)) with live := false }, .silent)
      else if force then
        some ({ s.goto i .destroyCancel with live := false, mutex := some i }, .silent)
      else some (s.goto i (.idle (some .ebusy)), .silent)
  | .destroyCancel =>
      some ({ s.goto i .destroyClear with
        gpr3 := fun j => if j ∈ s.pq then .ecanceled else s.gpr3 j }, .silent)
  | .destroyClear => some ({ s.goto i (.destroyAwake s.pq) with pq := [] }, .silent)
  | .destroyAwake cpus =>
      some ({ s.unlock i (.idle (some .ok)) with
        signal := fun j => if j ∈ cpus then true else s.signal j }, .silent)

-- The priorities may be any at any time.
inductive Step (s : State ι) : State ι → Label ι → Prop where
  | call (i : ι) (result : Option Code) (call : Call) (hidle : s.threads i = .idle result) :
      Step s (call.start s i).1 (call.start s i).2
  | run (i : ι) (prio : ι → Prio) (s' : State ι) (l : Label ι)
      (h : advance c prio s i = some (s', l)) : Step s s' l
  | expire (i : ι) (hparked : s.threads i = .parked true) : Step s (s.goto i .expired) .silent

end Step

end Rpcsx.Lv2.EventQueue
