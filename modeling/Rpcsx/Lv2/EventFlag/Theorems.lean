import Rpcsx.Lv2.EventFlag.Simulation

namespace Rpcsx.Lv2.EventFlag

open Data.Interleaving Data.Mask

section Results

variable {ι : Type} [DecidableEq ι] {c : Config} {prio : ι → Int} {s s' : State ι} {i : ι}

-- A step of a run in which no attempt leaves a waiter with an old CELL_OK behind.
inductive CalmStep (c : Config) (s : State ι) : State ι → Prop where
  | call (i : ι) (result : Option Code) (call : Call) (hidle : s.threads i = .idle result) :
      CalmStep c s (call.start s i)
  | run (i : ι) (prio : ι → Int) (s' : State ι) (h : advance c prio s i = some s')
      (hcalm : Calm c prio s i) : CalmStep c s s'
  | expire (i : ι) (hparked : s.threads i = .parked true) : CalmStep c s (s.goto i .expired)

def Reachable (c : Config) (s : State ι) : Prop :=
  Relation.ReflTransGen (Step c) (State.start c) s

end Results

section Runs

variable {ι : Type} [DecidableEq ι]

-- A thread calls, or it goes on with its call.
def move (c : Config) (s : State ι) (m : ι × Option Call) : Option (State ι) :=
  match m.2 with
  | none => advance c (fun _ => 0) s m.1
  | some call =>
      match s.threads m.1 with
      | .idle _ => some (call.start s m.1)
      | _ => none

end Runs

end Rpcsx.Lv2.EventFlag
