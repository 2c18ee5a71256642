import Mathlib.Logic.Function.Basic
import Mathlib.Logic.Relation
import Rpcsx.Lv2

namespace Rpcsx.Lv2.Scheduler

-- The queues of `lv2_obj` under `g_mutex`: the active threads, the timeouts and the threads that
-- must sleep before the scheduler starts. `arrived` is a ghost: when a thread was put behind its
-- equals in `g_ppu`, by a clock that counts these events.
structure State (ι : Type) where
  ppu : List ι
  waiting : List (Nat × ι)
  toSleep : List ι
  prio : ι → Prio
  orderTag : Int
  cancelSleep : ι → Nat
  arrived : ι → Nat
  clock : Nat

structure Config (ι : Type) where
  -- spu_thread, that is not scheduled
  spu : ι → Bool
  -- g_cfg.core.ppu_threads
  ppuThreads : Nat

-- u64 arithmetic of the end of a timeout.
def waitUntil (startTime timeout : Nat) : Nat := startTime + min timeout (2 ^ 64 - 1 - startTime)

section Queues

variable {ι : Type} [DecidableEq ι]

-- emplace_thread on `g_ppu`; none if the thread is found first.
def emplaceThread (prio : ι → Prio) (cpu : ι) : List ι → Option (List ι)
  | [] => some [cpu]
  | next :: rest =>
      if next = cpu then none
      else if (prio next).prio > (prio cpu).prio then some (cpu :: next :: rest)
      else (emplaceThread prio cpu rest).map (next :: ·)

-- The yield command: the thread goes to the last position of the threads of its priority; also its
-- new position.
def rotate (prio : ι → Prio) (cpu : ι) : List ι → Option (List ι × Nat)
  | [] => none
  | ppu :: rest =>
      if ppu = cpu then
        match rest.takeWhile fun next => (prio next).prio = (prio cpu).prio with
        | [] => none
        | same =>
            some (same ++ cpu :: rest.dropWhile fun next => (prio next).prio = (prio cpu).prio,
              same.length)
      else (rotate prio cpu rest).map fun r => (ppu :: r.1, r.2 + 1)

-- A timeout is registered behind those that do not end later.
def register (until_ : Nat) (thread : ι) : List (Nat × ι) → List (Nat × ι)
  | [] => [(until_, thread)]
  | it :: rest =>
      if it.1 > until_ then (until_, thread) :: it :: rest else it :: register until_ thread rest

def unregister (thread : ι) (waiting : List (Nat × ι)) : List (Nat × ι) :=
  waiting.eraseP fun it => it.2 = thread

-- The timeouts that have not ended.
def expire (currentTime : Nat) (waiting : List (Nat × ι)) : List (Nat × ι) :=
  waiting.dropWhile fun it => it.1 ≤ currentTime

end Queues

inductive Command (ι : Type) where
  | enqueue (cpu : Option ι)
  | yield (cpu : ι)
  | priority (cpu : ι) (value : Int)
deriving DecidableEq, Repr

section Scheduler

variable {ι : Type} [DecidableEq ι]

namespace State

def start (prio : ι → Prio) : State ι where
  ppu := []
  waiting := []
  toSleep := []
  prio := prio
  orderTag := 0
  cancelSleep _ := 0
  arrived _ := 0
  clock := 0

def arrives (s : State ι) (cpu : ι) (ppu : List ι) : State ι :=
  { s with ppu := ppu, arrived := Function.update s.arrived cpu s.clock, clock := s.clock + 1 }

-- lv2_obj::sleep_unlocked of a thread; `signaled` is whether it has a signal.
def sleepUnlocked (c : Config ι) (s : State ι) (thread : ι) (timeout currentTime : Nat)
    (signaled : Bool) : State ι × Bool :=
  if c.spu thread then
    if thread ∈ s.toSleep then ({ s with toSleep := s.toSleep.erase thread }, true) else (s, false)
  else
    let result := s.cancelSleep thread ≠ 2
    let s := { s with cancelSleep := Function.update s.cancelSleep thread 0 }
    if signaled then (s, false)
    else
      match unqueue s.ppu thread with
      | none =>
          if thread ∈ s.toSleep then ({ s with toSleep := s.toSleep.erase thread }, true)
          else (s, false)
      | some ppu =>
          if timeout = 0 then ({ s with ppu := ppu }, result)
          else
            ({ s with
              ppu := ppu
              waiting := register (waitUntil currentTime timeout) thread s.waiting }, result)

-- emplace_thread of awake_unlocked: also whether the queue has changed.
def emplaceThread (s : State ι) (cpu : ι) : State ι × Bool :=
  match Scheduler.emplaceThread s.prio cpu s.ppu with
  | none =>
      if s.cancelSleep cpu = 1 then
        ({ s with cancelSleep := Function.update s.cancelSleep cpu 2 }, false)
      else (s, false)
  | some ppu => ({ s.arrives cpu ppu with waiting := unregister cpu s.waiting }, true)

-- The threads of the pending list.
def emplaceAll (s : State ι) : List ι → State ι × Bool
  | [] => (s, false)
  | cpu :: rest =>
      let first := s.emplaceThread cpu
      let others := emplaceAll first.1 rest
      (others.1, first.2 || others.2)

-- set_prio of awake_unlocked.
def setPrio (s : State ι) (cpu : ι) (value : Int) (last first : Bool) : State ι :=
  let tag := if first ∨ last then s.orderTag + 1 else s.orderTag
  let order := if first then -tag - 1 else if last then tag else (s.prio cpu).order
  { s with prio := Function.update s.prio cpu ⟨value, order⟩, orderTag := tag }

-- lv2_obj::awake_unlocked, called by a thread with a pending list.
def awakeUnlocked (c : Config ι) (s : State ι) (current : Option ι) (toAwake : List ι) :
    Command ι → State ι × Bool
  | .enqueue (some cpu) => s.emplaceThread cpu
  | .enqueue none => s.emplaceAll toAwake
  | .yield cpu =>
      match rotate s.prio cpu s.ppu with
      | none => (s, false)
      | some (ppu, position) =>
          if position < c.ppuThreads then (s.arrives cpu ppu, false)
          else (((s.arrives cpu ppu).emplaceAll toAwake).1, true)
  | .priority cpu value =>
      let oldPrio := (s.prio cpu).prio
      if oldPrio = value ∧ current = some cpu then (s.setPrio cpu value false false, true)
      else
        match unqueue s.ppu cpu with
        | none => (s.setPrio cpu value (oldPrio > value) (oldPrio < value), true)
        | some ppu => ({ s with ppu := ppu }.setPrio cpu value false false).emplaceThread cpu

-- The registered timeouts in lv2_obj::schedule_all.
def scheduleAll (s : State ι) (currentTime : Nat) : State ι :=
  { s with waiting := expire currentTime s.waiting }

end State

-- The calls, and set_future_sleep.
inductive Step (c : Config ι) (s : State ι) : State ι → Prop where
  | sleep (thread : ι) (timeout currentTime : Nat) (signaled : Bool) :
      Step c s (s.sleepUnlocked c thread timeout currentTime signaled).1
  | awake (current : Option ι) (toAwake : List ι) (command : Command ι) :
      Step c s (s.awakeUnlocked c current toAwake command).1
  | schedule (currentTime : Nat) : Step c s (s.scheduleAll currentTime)
  | futureSleep (thread : ι) : Step c s { s with toSleep := s.toSleep ++ [thread] }
  -- `cancel_sleep` is set by the thread before it sleeps
  | cancelSleep (thread : ι) (value : Nat) :
      Step c s { s with cancelSleep := Function.update s.cancelSleep thread value }

def Reachable (c : Config ι) (prio : ι → Prio) (s : State ι) : Prop :=
  Relation.ReflTransGen (Step c) (State.start prio) s

end Scheduler

end Rpcsx.Lv2.Scheduler
