import Mathlib

namespace Rpcsx.Ipc

-- The types that lv2_obj::create is used for.
inductive Kind where
  | mutex | cond | rwlock | eventQueue | sema | eventFlag | memory
deriving DecidableEq, Repr

inductive Pshared where
  | processShared | notProcessShared | other
deriving DecidableEq, Repr

inductive Flags where
  | newlyCreated | notCreate | notCare | other
deriving DecidableEq, Repr

inductive Error where
  | einval | eagain | esrch | eexist | enomem | ebusy | eperm
deriving DecidableEq, Repr

-- What an object keeps of its creation; `mutex` is the mutex of a lv2_cond.
structure Info where
  kind : Kind
  key : Nat
  pshared : Bool
  mutex : Nat
deriving DecidableEq, Repr

-- The objects by reference, the ids that refer to them and the maps of the ipc_managers (an entry
-- that is null counts as none).
structure State where
  info : Nat → Info
  exists_ : Nat → Nat
  condCount : Nat → Nat
  next : Nat
  ids : List (Nat × Nat)
  registry : Kind → Nat → Option Nat

-- A call of lv2_obj::create: `mutex` is what sys_cond_create has found, `taken` is whether the
-- memory container has the memory, and `id` is the free id of the IDM.
structure Call where
  kind : Kind
  pshared : Pshared
  ipcKey : Nat
  flags : Flags
  mutex : Nat
  taken : Bool
  id : Option Nat

inductive Outcome where
  | created (ref : Nat)
  | failed (error : Error)
  -- a null pointer is dereferenced
  | fault
deriving DecidableEq, Repr

namespace Call

def keyNotZero (c : Call) : Bool := c.kind ≠ .memory

-- The check of the arguments.
def invalid (c : Call) : Bool :=
  match c.pshared with
  | .processShared => (c.keyNotZero && c.ipcKey == 0) || c.flags == .other
  | .notProcessShared => false
  | .other => true

-- The object that `make` constructs: its key is 0 if it is not shared.
def make (c : Call) : Info where
  kind := c.kind
  key := if c.pshared = .processShared then c.ipcKey else 0
  pshared := c.pshared = .processShared
  mutex := c.mutex

end Call

namespace State

def start : State where
  info _ := ⟨.mutex, 0, false, 0⟩
  exists_ _ := 0
  condCount _ := 0
  next := 0
  ids := []
  registry _ _ := none

def make (s : State) (c : Call) : State :=
  { s with
    info := Function.update s.info s.next c.make
    exists_ := Function.update s.exists_ s.next 0
    condCount := Function.update s.condCount s.next 0
    next := s.next + 1 }

-- on_id_create of the object.
def onIdCreate (s : State) (ref : Nat) (taken : Bool) : State × Option Error :=
  let counted := { s with exists_ := Function.update s.exists_ ref (s.exists_ ref + 1) }
  match (s.info ref).kind with
  | .cond =>
      let mutex := (s.info ref).mutex
      if counted.exists_ mutex ≠ 0 then
        ({ counted with condCount := Function.update s.condCount mutex (s.condCount mutex + 1) },
          none)
      else (counted, some .esrch)
  | .memory => if s.exists_ ref = 0 ∧ ¬taken then (s, some .enomem) else (counted, none)
  | _ => (counted, none)

-- finalize_construct on the object that has been made: it is freed if on_id_create fails.
def finalizeMade (s : State) (c : Call) : State × Except Error Nat :=
  match (s.make c).onIdCreate s.next c.taken with
  | (s', none) => (s', .ok s.next)
  | (_, some error) => (s, .error error)

-- finalize_construct on an object that exists.
def finalizeAt (s : State) (ref : Nat) (taken : Bool) : State × Except Error Nat :=
  match s.onIdCreate ref taken with
  | (s', none) => (s', .ok ref)
  | (s', some error) => (s', .error error)

-- ipc_manager::add with finalize_construct: whether the object was added, and the pointer.
def add (s : State) (c : Call) (peekPtr : Bool) : State × Bool × Option Nat :=
  match s.registry c.kind c.ipcKey with
  | some ref => (s, false, if peekPtr then some ref else none)
  | none =>
      match s.finalizeMade c with
      | (s', .ok ref) =>
          ({ s' with
            registry := Function.update s'.registry c.kind
              (Function.update (s'.registry c.kind) c.ipcKey (some ref)) }, true, some ref)
      | (s', .error _) => (s', false, none)

-- idm::import of what the provider returns.
def import_ (s : State) (id : Nat) : Except Error Nat → State × Outcome
  | .ok ref => ({ s with ids := (id, ref) :: s.ids }, .created ref)
  | .error error => (s, .failed error)

-- lv2_obj::create.
def create (s : State) (c : Call) : State × Outcome :=
  if c.invalid then (s, .failed .einval)
  else
    match c.id with
    | none => (s, .failed .eagain)
    | some id =>
        if c.pshared ≠ .processShared then
          let result := s.finalizeMade c
          result.1.import_ id result.2
        else if c.flags = .notCreate then
          match s.registry c.kind c.ipcKey with
          | none => (s, .failed .esrch)
          | some ref =>
              let result := s.finalizeAt ref c.taken
              result.1.import_ id result.2
        else
          match s.add c (c.flags ≠ .newlyCreated) with
          | (s', true, some ref) => s'.import_ id (.ok ref)
          | (s', true, none) => (s', .fault)
          | (s', false, result) =>
              if c.flags = .newlyCreated then (s', .failed .eexist)
              else
                match result with
                | none => (s', .fault)
                | some ref =>
                    let result := s'.finalizeAt ref c.taken
                    result.1.import_ id result.2

-- The `pshared` of on_id_destroy: by default the key is checked.
def unregisters (info : Info) : Bool := if info.kind = .memory then info.pshared else info.key ≠ 0

def onIdDestroy (s : State) (ref : Nat) : State :=
  let info := s.info ref
  { s with
    exists_ := Function.update s.exists_ ref (s.exists_ ref - 1)
    registry :=
      if s.exists_ ref = 1 ∧ unregisters info then
        Function.update s.registry info.kind (Function.update (s.registry info.kind) info.key none)
      else s.registry }

-- The system calls that destroy an object, `busy` if its state does not allow it.
def destroy (s : State) (id : Nat) (busy : Bool) : State × Option Error :=
  match s.ids.find? fun entry => entry.1 = id with
  | none => (s, some .esrch)
  | some (_, ref) =>
      if busy then (s, some .ebusy)
      else if (s.info ref).kind = .mutex ∧ s.condCount ref ≠ 0 then (s, some .eperm)
      else
        let mutex := (s.info ref).mutex
        let s' := if (s.info ref).kind = .cond then
          { s with condCount := Function.update s.condCount mutex (s.condCount mutex - 1) } else s
        ({ s'.onIdDestroy ref with ids := s.ids.erase (id, ref) }, none)

end State

-- The mutex that sys_cond_create has found is one, and the IDM gives out an id that is free.
def Call.Ready (c : Call) (s : State) : Prop :=
  (c.kind = .cond → c.mutex < s.next ∧ (s.info c.mutex).kind = .mutex) ∧
    ∀ id, c.id = some id → ∀ entry ∈ s.ids, entry.1 ≠ id

inductive Step (s : State) : State → Prop where
  | create (c : Call) (s' : State) (outcome : Outcome) : c.Ready s →
      s.create c = (s', outcome) → outcome ≠ .fault → Step s s'
  | destroy (id : Nat) (busy : Bool) : Step s (s.destroy id busy).1

end Rpcsx.Ipc
