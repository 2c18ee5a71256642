import Mathlib.Data.Fintype.Card
import Mathlib.Logic.Function.Basic
import Mathlib.Logic.Relation
import Rpcsx.Orbis

namespace Rpcsx.Orbis.UmtxChain

-- There is one thread for each positive value of lwpid_t.
abbrev Tid := Fin 2147483647

-- std::numeric_limits<sint>::max()
def sintMax : Int := 2147483647

-- The calls that put their thread into the queue: umtx_wait, umtx_cv_wait, umtx_sem_wait.
inductive Kind where
  | wait
  | cv
  | sem
deriving DecidableEq

structure Wait (κ : Type) where
  kind : Kind
  key : κ
  timed : Bool
deriving DecidableEq

-- How an enqueue ends.
inductive Ending where
  | notified
  | erased (by_ : Tid)
deriving DecidableEq

-- Where a thread stands: it sleeps on the condition variable of its node, or its last call has
-- returned. Then `slept` is whether it has slept, and `reused` whether it has found another
-- thread in its node.
inductive Pc (κ : Type) where
  | idle
  | asleep (wait : Wait κ) (node : Nat)
  | returned (wait : Wait κ) (slept reused : Bool) (result : ErrorCode)
deriving DecidableEq

-- The endings of the last enqueue of the thread are a ghost field.
structure Thread (κ : Type) where
  pc : Pc κ
  endings : List Ending

-- A node of the sleep queue; who has enqueued it is a ghost field.
structure Entry (κ : Type) where
  key : κ
  node : Nat
  waiter : Tid
deriving DecidableEq

-- A chain. The entries of the sleep queue are in the order of their insertion, which the multimap
-- keeps for each key; the spare queue has one key only. `thr` is the field of a node, `nodes` the
-- number of nodes ever made, `hasWaiters` the field of the ucond or usem at a key.
structure State (κ : Type) where
  sleepQueue : List (Entry κ)
  spareQueue : List Nat
  nodes : Nat
  thr : Nat → Option Tid
  hasWaiters : κ → Bool
  threads : Tid → Thread κ

-- Every action is one section of the chain lock.
inductive Action (κ : Type) where
  -- up to the sleep, or up to the return where the call does not sleep: the value is not the
  -- expected one, umtx_unlock_umutex has failed with the error, the count is not zero
  | wait (i : Tid) (w : Wait κ) (sleeps : Bool) (error : ErrorCode)
  -- from the end of a sleep; `code` is what it has returned, `expired` whether the time is over
  | wake (i : Tid) (code : ErrorCode) (expired : Bool)
  | wakePrivate (key : κ) (count : Int)
  | cvSignal (key : κ)
  | cvBroadcast (key : κ)
  | semWake (key : κ)

namespace State

variable {κ : Type} [DecidableEq κ]

def start : State κ where
  sleepQueue := []
  spareQueue := []
  nodes := 0
  thr _ := none
  hasWaiters _ := false
  threads _ := ⟨.idle, []⟩

def put (s : State κ) (i : Tid) (t : Thread κ) : State κ :=
  { s with threads := Function.update s.threads i t }

-- The threads that are queued on a key.
def queued (s : State κ) (key : κ) : List Tid :=
  (s.sleepQueue.filter fun e => e.key = key).map Entry.waiter

-- UmtxChain::enqueue, for the node that it hands out.
def insert (s : State κ) (key : κ) (i : Tid) (node : Nat) : State κ :=
  { s with
    sleepQueue := s.sleepQueue ++ [⟨key, node, i⟩]
    thr := Function.update s.thr node (some i) }

def enqueue (s : State κ) (key : κ) (i : Tid) : State κ × Nat :=
  match s.spareQueue with
  | node :: rest => ({ s with spareQueue := rest }.insert key i node, node)
  | [] => ({ s with nodes := s.nodes + 1 }.insert key i s.nodes, s.nodes)

-- A node goes from one queue to the other.
def recycle (s : State κ) (e : Entry κ) (ending : Ending) : State κ :=
  { s with
    sleepQueue := s.sleepQueue.erase e
    spareQueue := e.node :: s.spareQueue
    threads := Function.update s.threads e.waiter
      { s.threads e.waiter with endings := (s.threads e.waiter).endings ++ [ending] } }

-- UmtxChain::erase, called by thread i.
def erase (s : State κ) (i : Tid) (node : Nat) : State κ :=
  match s.sleepQueue.find? fun e => e.node = node with
  | some e => s.recycle e (.erased i)
  | none => s

-- One pass of the loop of notify_n.
def release (s : State κ) (e : Entry κ) : State κ :=
  { s with thr := Function.update s.thr e.node none }.recycle e .notified

def notifyLoop (key : κ) : Nat → State κ → State κ × Nat
  | 0, s => (s, 0)
  | count + 1, s =>
      match s.sleepQueue.find? fun e => e.key = key with
      | some e => ((notifyLoop key count (s.release e)).1, (notifyLoop key count (s.release e)).2 + 1)
      | none => (s, 0)

-- The next state and the result of notify_n.
def notifyN (s : State κ) (key : κ) (count : Int) : State κ × Nat :=
  notifyLoop key count.toNat s

def notifyOne (s : State κ) (key : κ) : State κ × Nat := s.notifyN key 1

def notifyAll (s : State κ) (key : κ) : State κ × Nat := s.notifyN key sintMax

def setHasWaiters (s : State κ) (key : κ) (b : Bool) : State κ :=
  { s with hasWaiters := Function.update s.hasWaiters key b }

-- A waiting call up to its sleep.
def enter (s : State κ) (i : Tid) (w : Wait κ) : State κ :=
  let (s', node) := s.enqueue w.key i
  let s' := s'.put i ⟨.asleep w node, []⟩
  if w.kind = .wait then s' else s'.setHasWaiters w.key true

-- The end of a waiting call.
def finish (s : State κ) (i : Tid) (w : Wait κ) (node : Nat) (slept : Bool) (result : ErrorCode) :
    State κ :=
  let mine := s.thr node = some i
  let reused := !mine && (s.thr node).isSome
  let erased := if mine then s.erase i node else s
  let leave (result : ErrorCode) :=
    erased.put i { erased.threads i with pc := .returned w slept reused result }
  match w.kind with
  | .wait => leave result
  | .cv =>
      if mine then
        if erased.queued w.key = [] then (leave result).setHasWaiters w.key false else leave result
      else leave .ok
  | .sem => if mine then leave result else leave .ok

def wait (s : State κ) (i : Tid) (w : Wait κ) (sleeps : Bool) (error : ErrorCode) : State κ :=
  let entered := s.enter i w
  if sleeps then entered
  else
    match (entered.threads i).pc with
    | .asleep _ node => entered.finish i w node false error
    | _ => entered

-- The loop around the sleep. A sleep without a limit does not end with a time-out.
def wake (s : State κ) (i : Tid) (w : Wait κ) (node : Nat) (code : ErrorCode) (expired : Bool) :
    Option (State κ) :=
  let mine := s.thr node = some i
  if w.timed then
    if ¬mine then some (s.finish i w node true code)
    else if expired then some (s.finish i w node true .TIMEDOUT)
    else if code ≠ .ok then some (s.finish i w node true code)
    else some s
  else if code = .TIMEDOUT then none
  else if code ≠ .ok ∨ ¬mine then some (s.finish i w node true code)
  else some s

-- umtx_cv_signal and umtx_sem_wake; `shared` is whether the key has pid 0.
def signal (s : State κ) (shared : κ → Bool) (key : κ) : State κ :=
  if shared key then (s.notifyAll key).1.setHasWaiters key false
  else if (s.queued key).length ≤ (s.notifyOne key).2 then
    (s.notifyOne key).1.setHasWaiters key false
  else (s.notifyOne key).1

def broadcast (s : State κ) (key : κ) : State κ :=
  (s.notifyAll key).1.setHasWaiters key false

end State

def Pc.free {κ : Type} : Pc κ → Bool
  | asleep _ _ => false
  | _ => true

section Step

variable {κ : Type} [DecidableEq κ] (shared : κ → Bool)

def step (s : State κ) : Action κ → Option (State κ)
  -- the two other calls return what they have when they do not sleep
  | .wait i w sleeps error =>
      if (s.threads i).pc.free ∧ (w.kind = .cv → (sleeps ↔ error = .ok)) ∧
          (w.kind ≠ .cv → error = .ok) then some (s.wait i w sleeps error)
      else none
  | .wake i code expired =>
      match (s.threads i).pc with
      | .asleep w node => s.wake i w node code expired
      | _ => none
  | .wakePrivate key count => some (s.notifyN key count).1
  | .cvSignal key => some (s.signal shared key)
  | .cvBroadcast key => some (s.broadcast key)
  | .semWake key => some (s.signal shared key)

def Step (s s' : State κ) : Prop := ∃ action, step shared s action = some s'

end Step

end Rpcsx.Orbis.UmtxChain
