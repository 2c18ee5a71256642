import Mathlib.Data.Nat.Bitwise
import Mathlib.Logic.Function.Basic
import Mathlib.Logic.Relation

namespace Rpcsx.Idm

-- id_invl_range of the containers below: the low bits of an id count the uses of its slot.
def invlRange : Nat × Nat := (0, 8)

def invlMask (invl : Nat × Nat) : Nat := ((1 <<< invl.2) - 1) <<< invl.1

-- id_manager::get_index, in 32 bits.
def getIndex (id base step count : Nat) (invl : Nat × Nat) : Nat :=
  let diff := ((id &&& (2 ^ 32 - 1 - invlMask invl)) + (2 ^ 32 - base)) % 2 ^ 32
  if diff % step ≠ 0 then count else diff / step

-- The types of a container: their ids are `base + step * index`, and the low bits of them are free
-- for the counter.
structure Container (τ : Type) where
  base : τ → Nat
  step : Nat
  count : Nat
  usesLowestId : Bool
  -- the container is the type itself, so that the types of its objects are not compared
  sameType : Bool
  step_pos : 0 < step
  step_dvd : 2 ^ 8 ∣ step
  base_pos : ∀ ty, 0 < base ty
  base_dvd : ∀ ty, 2 ^ 8 ∣ base ty
  range : ∀ ty, base ty + step * count ≤ 2 ^ 32
  apart : ∀ ty ty' i j, i < count → j < count → base ty + step * i = base ty' + step * j →
    ty = ty'
  sameType_eq : sameType = true → ∀ ty ty' : τ, ty = ty'

-- id_key; `m_base` is umax where there is no type.
structure Key (τ : Type) where
  value : Nat
  type : Option τ
deriving DecidableEq, Repr

def Key.none {τ : Type} : Key τ := ⟨0, Option.none⟩

-- id_map. Two ghosts: the objects by the id they were created under, and for every slot the ids of
-- its objects, the latest in front.
structure State (τ α : Type) where
  keys : Nat → Key τ
  data : Nat → Option α
  highestIndex : Nat
  objects : Nat → Option (τ × α)
  issued : Nat → List Nat

namespace State

def start {τ α : Type} : State τ α where
  keys _ := Key.none
  data _ := none
  highestIndex := 0
  objects _ := none
  issued _ := []

end State

section Manager

variable {τ α : Type} [DecidableEq τ]

-- id_traits::invalid; no base is 0.
def invalid : Nat := 0

-- Where idm::allocate_id puts the new id: none if an `ensure` fails, and else the new value of
-- `highest_index`, with the slot and the id if there is one.
def place (c : Container τ) (s : State τ α) (ty : τ) (dst : Nat) :
    Option (Nat × Option (Nat × Nat)) :=
  if dst ≠ invalid then
    let index := getIndex dst (c.base ty) c.step c.count invlRange
    if index < c.count then
      some (max s.highestIndex (index + 1),
        if (s.keys index).type = none then some (index, dst) else none)
    else none
  else if ¬c.usesLowestId ∧ s.highestIndex < c.count then
    some (s.highestIndex + 1,
      some (s.highestIndex, (c.base ty + c.step * s.highestIndex) % 2 ^ 32))
  else
    let slot := (List.range c.count).find? fun i => (s.keys i).type = none
    some (if c.usesLowestId then c.count else s.highestIndex,
      slot.map fun i =>
        (i, (c.base ty + c.step * i) % 2 ^ 32 |||
          (((s.keys i).value + (1 <<< invlRange.1)) % 2 ^ 32 &&& invlMask invlRange)))

-- idm::create_id; `object` is what the provider returns.
def createId (c : Container τ) (s : State τ α) (ty : τ) (dst : Nat) (object : Option α) :
    Option (State τ α) :=
  match place c s ty dst with
  | none => none
  | some (highestIndex, none) => some { s with highestIndex := highestIndex }
  | some (highestIndex, some (index, id)) =>
      match object with
      | some object =>
          some {
            keys := Function.update s.keys index ⟨id, some ty⟩
            data := Function.update s.data index (some object)
            highestIndex := highestIndex
            objects := Function.update s.objects id (some (ty, object))
            issued := Function.update s.issued index (id :: s.issued index) }
      | none =>
          some { s with
            keys := Function.update s.keys index Key.none
            highestIndex := highestIndex }

-- idm::find_index, and the slot it is about.
def findIndex (c : Container τ) (s : State τ α) (ty : τ) (index id : Nat) : Option α :=
  if index ≥ s.highestIndex then none
  else if c.sameType ∨ (s.keys index).type = some ty then
    if (s.keys index).value = id then s.data index else none
  else none

def findId (c : Container τ) (s : State τ α) (ty : τ) (id : Nat) : Option α :=
  findIndex c s ty (getIndex id (c.base ty) c.step c.count invlRange) id

-- idm::remove, remove_verify and withdraw; `accepts` is what the last two ask of the object.
def removeId (c : Container τ) (s : State τ α) (ty : τ) (id : Nat) (accepts : α → Bool) :
    State τ α :=
  let index := getIndex id (c.base ty) c.step c.count invlRange
  match findId c s ty id with
  | none => s
  | some object =>
      if accepts object then
        { s with
          keys := Function.update s.keys index ⟨(s.keys index).value, none⟩
          data := Function.update s.data index none
          objects := Function.update s.objects id none }
      else s

inductive Op (τ α : Type) where
  | create (ty : τ) (dst : UInt32) (object : Option α)
  | remove (ty : τ) (id : UInt32) (accepts : α → Bool)

def step (c : Container τ) (s : State τ α) : Op τ α → Option (State τ α)
  | .create ty dst object => createId c s ty dst.toNat object
  | .remove ty id accepts => some (removeId c s ty id.toNat accepts)

def Step (c : Container τ) (s s' : State τ α) : Prop := ∃ op, step c s op = some s'

-- A creation that continues the counter of its slot: the provider does not fail there unless the
-- counter is 0, and a fixed id in a slot that has been used has the next value.
def Continues (c : Container τ) (s : State τ α) : Op τ α → Prop
  | .create ty dst object =>
      ∀ highestIndex index id, place c s ty dst.toNat = some (highestIndex, some (index, id)) →
        if object = none then (s.keys index).value % 2 ^ 8 = 0
        else dst.toNat ≠ invalid → s.issued index ≠ [] →
          id % 2 ^ 8 = ((s.keys index).value + 1) % 2 ^ 8
  | .remove _ _ _ => True

end Manager

-- The objects of the base class `lv2_obj`.
inductive Lv2Type where
  | memory | intTag | intServ | eventPort | timer | spuImage | prx | overlay | rsxaudio | mutex
  | cond | rwlock | eventQueue | lwmutex | sema | lwcond | eventFlag
deriving DecidableEq, Repr

namespace Lv2Type

def idBase : Lv2Type → Nat
  | memory => 0x08000000
  | intTag => 0x0a000000
  | intServ => 0x0b000000
  | eventPort => 0x0e000000
  | timer => 0x11000000
  | spuImage => 0x22000000
  | prx => 0x23000000
  | overlay => 0x25000000
  | rsxaudio => 0x60000000
  | mutex => 0x85000000
  | cond => 0x86000000
  | rwlock => 0x88000000
  | eventQueue => 0x8d000000
  | lwmutex => 0x95000000
  | sema => 0x96000000
  | lwcond => 0x97000000
  | eventFlag => 0x98000000

end Lv2Type

def lv2Obj : Container Lv2Type where
  base := Lv2Type.idBase
  step := 0x100
  count := 8192
  usesLowestId := false
  sameType := false
  step_pos := by decide
  step_dvd := by decide
  base_pos ty := by cases ty <;> decide
  base_dvd ty := by cases ty <;> decide
  range ty := by cases ty <;> decide
  apart ty ty' i j hi hj h := by
    have htop : ty.idBase / 2 ^ 24 = ty'.idBase / 2 ^ 24 := by
      have hlow : ∀ ty : Lv2Type, ty.idBase % 2 ^ 24 = 0 := fun ty => by cases ty <;> rfl
      have := hlow ty
      have := hlow ty'
      omega
    cases ty <;> cases ty' <;> first | rfl | (exfalso; revert htop; decide)
  sameType_eq := nofun

def lv2SpuGroup : Container Unit where
  base _ := 0x04000100
  step := 0x100
  count := 255
  usesLowestId := false
  sameType := true
  step_pos := by decide
  step_dvd := by decide
  base_pos _ := by decide
  base_dvd _ := by decide
  range _ := by decide
  apart _ _ _ _ _ _ _ := rfl
  sameType_eq _ _ _ := rfl

end Rpcsx.Idm
