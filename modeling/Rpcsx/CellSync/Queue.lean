import Mathlib
import Rpcsx.CellSync

namespace Rpcsx.CellSync.Queue

-- The control word; `next` and `count` have 24 bits, the in-flight marks of pops and pushes are 0
-- or 1.
structure Ctrl where
  next : Nat
  pop : Bool
  count : Nat
  push : Bool
deriving DecidableEq

namespace Ctrl

def tryPushBegin (ctrl : Ctrl) (depth : Nat) : Option (Nat × Ctrl) :=
  if ctrl.push = true ∨ depth ≤ ctrl.count + ctrl.pop.toNat then none
  else
    some (ctrl.next, { ctrl with
      next := (if ctrl.next + 1 ≠ depth then ctrl.next + 1 else 0) % 2 ^ 24
      count := (ctrl.count + 1) % 2 ^ 24
      push := true })

def pushEnd (ctrl : Ctrl) : Ctrl := { ctrl with push := false }

-- The position that pop and peek compute, in 32 bits.
def position (ctrl : Ctrl) (depth : Nat) : Nat :=
  (ctrl.next + depth + 2 ^ 32 - ctrl.count) % 2 ^ 32

def tryPopBegin (ctrl : Ctrl) (depth : Nat) : Option (Nat × Ctrl) :=
  if ctrl.pop = true ∨ ctrl.count ≤ ctrl.push.toNat then none
  else some (ctrl.position depth, { ctrl with pop := true, count := ctrl.count - 1 })

def tryPeekBegin (ctrl : Ctrl) (depth : Nat) : Option (Nat × Ctrl) :=
  if ctrl.pop = true ∨ ctrl.count ≤ ctrl.push.toNat then none
  else some (ctrl.position depth, { ctrl with pop := true })

def popEnd (ctrl : Ctrl) : Ctrl := { ctrl with pop := false }

def tryClearBegin1 (ctrl : Ctrl) : Option Ctrl :=
  if ctrl.pop = true then none else some { ctrl with pop := true }

def tryClearBegin2 (ctrl : Ctrl) : Option Ctrl :=
  if ctrl.push = true then none else some { ctrl with push := true }

-- check_depth throws an exception otherwise.
def depthOk (ctrl : Ctrl) (depth : Nat) : Bool := decide (ctrl.next ≤ depth ∧ ctrl.count ≤ depth)

end Ctrl

-- memcpy from and to the memory at the address of the buffer.
def read (memory : Nat → UInt8) (offset size : Nat) : List UInt8 :=
  (List.range size).map fun k => memory (offset + k)

def write (memory : Nat → UInt8) (offset : Nat) (data : List UInt8) : Nat → UInt8 :=
  fun a => if offset ≤ a then data[a - offset]?.getD (memory a) else memory a

-- The queue as cellSyncQueueInitialize leaves it.
structure Config where
  size : Nat
  depth : Nat

-- What cellSyncQueueInitialize accepts, as 32-bit numbers.
structure Config.Accepted (c : Config) : Prop where
  size_lt : c.size < 2 ^ 32
  depth_lt : c.depth < 2 ^ 32
  depth_ne_zero : c.depth ≠ 0
  size_mod : c.size % 16 = 0

-- The offset of a slot is computed in 32 bits.
def Config.offset (c : Config) (position : Nat) : Nat := position * c.size % 2 ^ 32

inductive Call where
  | push (data : List UInt8)
  | pop
  | peek
  | clear
  | size

inductive Result where
  | ok
  | busy
  | data (copy : List UInt8)
  | size (count : Nat)

-- Where a thread stands: in front of its next atomic operation or its copy.
inductive Pc where
  | idle (result : Result)
  -- in front of the begin step; `once` for the try variants
  | begin (c : Call) (once : Bool)
  | pushing (position : Nat) (data : List UInt8)
  | pushed
  | popping (position : Nat)
  | popped (copy : List UInt8)
  | clear2
  | clearing
  -- a thread that is stopped in cellSyncQueueClear may leave the mark of a pop
  | stopped (mark : Bool)
  -- check_depth has thrown
  | failed

-- The answer of the FIFO to the last pop or peek is a ghost field.
structure Thread where
  pc : Pc
  answer : List UInt8

-- The queue, the memory of its buffer, the threads, and the FIFO as a ghost list.
structure State (ι : Type) where
  ctrl : Ctrl
  memory : Nat → UInt8
  threads : ι → Thread
  fifo : List (List UInt8)

inductive Action (ι : Type) where
  -- up to check_depth
  | call (i : ι) (c : Call) (once : Bool)
  -- `stop` is what test_stopped answers
  | advance (i : ι) (stop : Bool)

namespace State

variable {ι : Type}

def start (memory : Nat → UInt8) : State ι :=
  ⟨⟨0, false, 0, false⟩, memory, fun _ => ⟨.idle .ok, []⟩, []⟩

variable [DecidableEq ι]

def goto (s : State ι) (i : ι) (pc : Pc) : State ι :=
  { s with threads := Function.update s.threads i { s.threads i with pc := pc } }

-- A pop or peek has begun; the FIFO answers.
def answer (s : State ι) (i : ι) (position : Nat) : State ι :=
  { s with threads := Function.update s.threads i ⟨.popping position, s.fifo.headD []⟩ }

-- The begin step of a call, if it succeeds.
def tryBegin (c : Config) (s : State ι) (i : ι) : Call → Option (State ι)
  | .push data =>
      match s.ctrl.tryPushBegin c.depth with
      | some (position, ctrl) =>
          some { s.goto i (.pushing position data) with ctrl := ctrl, fifo := s.fifo ++ [data] }
      | none => none
  | .pop =>
      match s.ctrl.tryPopBegin c.depth with
      | some (position, ctrl) =>
          some { s.answer i (position % c.depth) with ctrl := ctrl, fifo := s.fifo.tail }
      | none => none
  | .peek =>
      match s.ctrl.tryPeekBegin c.depth with
      | some (position, ctrl) => some { s.answer i (position % c.depth) with ctrl := ctrl }
      | none => none
  | .clear =>
      match s.ctrl.tryClearBegin1 with
      | some ctrl => some { s.goto i .clear2 with ctrl := ctrl }
      | none => none
  | .size => some (s.goto i (.idle (.size s.ctrl.count)))

def advance (c : Config) (s : State ι) (i : ι) (stop : Bool) : Option (State ι) :=
  match (s.threads i).pc with
  | .idle _ | .stopped _ | .failed => none
  | .begin call once =>
      match s.tryBegin c i call with
      | some s' => some s'
      | none =>
          if once then some (s.goto i (.idle .busy))
          else some (if stop then s.goto i (.stopped false) else s)
  | .pushing position data =>
      some { s.goto i .pushed with memory := write s.memory (c.offset position) data }
  | .pushed => some { s.goto i (.idle .ok) with ctrl := s.ctrl.pushEnd }
  | .popping position => some (s.goto i (.popped (read s.memory (c.offset position) c.size)))
  | .popped copy => some { s.goto i (.idle (.data copy)) with ctrl := s.ctrl.popEnd }
  | .clear2 =>
      match s.ctrl.tryClearBegin2 with
      | some ctrl => some { s.goto i .clearing with ctrl := ctrl }
      | none => some (if stop then s.goto i (.stopped true) else s)
  | .clearing => some { s.goto i (.idle .ok) with ctrl := ⟨0, false, 0, false⟩, fifo := [] }

end State

def Pc.isIdle : Pc → Bool
  | idle _ => true
  | _ => false

-- An element has the size of the slots.
def Call.Fits (size : Nat) : Call → Prop
  | push data => data.length = size
  | _ => True

instance (size : Nat) : (c : Call) → Decidable (c.Fits size)
  | .push data => inferInstanceAs (Decidable (data.length = size))
  | .pop | .peek | .clear | .size => .isTrue trivial

-- The calls with a try variant.
def Call.hasTry : Call → Bool
  | push _ | pop | peek => true
  | _ => false

section Step

variable {ι : Type} [DecidableEq ι]

def step (c : Config) (s : State ι) : Action ι → Option (State ι)
  | .call i call once =>
      if (s.threads i).pc.isIdle ∧ call.Fits c.size ∧ (once → call.hasTry) then
        some (s.goto i (if s.ctrl.depthOk c.depth then .begin call once else .failed))
      else none
  | .advance i stop => s.advance c i stop

def Step (c : Config) (s s' : State ι) : Prop := ∃ action, step c s action = some s'

def Reachable (c : Config) (s : State ι) : Prop :=
  ∃ memory, Relation.ReflTransGen (Step c) (State.start memory) s

end Step

-- The queue stands for the FIFO, every result is the answer of the FIFO, and no copy meets another.
structure Sound {ι : Type} (c : Config) (s : State ι) : Prop where
  count : s.ctrl.count = s.fifo.length
  bounded : s.fifo.length ≤ c.depth
  result : ∀ i copy, (s.threads i).pc = .idle (.data copy) → copy = (s.threads i).answer
  size : ∀ i count, (s.threads i).pc = .idle (.size count) → count ≤ c.depth
  disjoint : ∀ i j position data position', (s.threads i).pc = .pushing position data →
    (s.threads j).pc = .popping position' → position ≠ position'
  one_push : ∀ i j position data position' data', (s.threads i).pc = .pushing position data →
    (s.threads j).pc = .pushing position' data' → i = j
  one_pop : ∀ i j position position', (s.threads i).pc = .popping position →
    (s.threads j).pc = .popping position' → i = j
  cleared : ∀ i, (s.threads i).pc = .clearing → ∀ j position data,
    (s.threads j).pc ≠ .pushing position data ∧ (s.threads j).pc ≠ .popping position
  no_throw : ∀ i, (s.threads i).pc ≠ .failed

end Rpcsx.CellSync.Queue

namespace Rpcsx.CellSync.Queue

section Slot

variable {depth next d e : Nat}

-- The slot `d` places behind the next one to be written.
def slot (depth next d : Nat) : Nat := (next + depth - d) % depth

theorem slot_eq (hnext : next < depth) (hpos : 1 ≤ d) (hd : d ≤ depth) :
    slot depth next d = if d ≤ next then next - d else next + depth - d := by
  unfold slot
  split
  · rename_i hle
    rw [show next + depth - d = next - d + depth by omega, Nat.add_mod_right,
      Nat.mod_eq_of_lt (by omega)]
  · exact Nat.mod_eq_of_lt (by omega)

theorem slot_lt (hnext : next < depth) : slot depth next d < depth :=
  Nat.mod_lt _ (by omega)

theorem slot_ne (hnext : next < depth) (hpos : 1 ≤ d) (hd : d < e) (he : e ≤ depth) :
    slot depth next d ≠ slot depth next e := by
  rw [slot_eq hnext hpos (by omega), slot_eq hnext (by omega) he]
  split <;> split <;> omega

-- Where tryPushBegin moves `next`.
def succ (depth next : Nat) : Nat := if next + 1 ≠ depth then next + 1 else 0

theorem succ_lt (hnext : next < depth) : succ depth next < depth := by
  unfold succ
  split <;> omega

theorem slot_succ (hnext : next < depth) (hpos : 1 ≤ d) (hd : d + 1 ≤ depth) :
    slot depth (succ depth next) (d + 1) = slot depth next d := by
  rw [slot_eq (succ_lt hnext) (by omega) hd, slot_eq hnext hpos (by omega)]
  unfold succ
  split <;> split <;> split <;> omega

theorem slot_succ_one (hnext : next < depth) : slot depth (succ depth next) 1 = next := by
  rw [slot_eq (succ_lt hnext) (Nat.le_refl 1) (by omega)]
  unfold succ
  split <;> split <;> omega

-- The position of a pop or peek, without the wrap of its 32-bit arithmetic.
theorem position_mod {ctrl : Ctrl} (hnext : ctrl.next < depth) (hcount : ctrl.count ≤ depth)
    (hdepth : depth < 2 ^ 24) : ctrl.position depth % depth = slot depth ctrl.next ctrl.count := by
  have hposition : ctrl.position depth = ctrl.next + depth - ctrl.count := by
    unfold Ctrl.position
    omega
  rw [hposition]
  rfl

end Slot

section Memory

variable {memory : Nat → UInt8} {offset offset' size : Nat} {data : List UInt8}

theorem length_read : (read memory offset size).length = size := by
  rw [read, List.length_map, List.length_range]

theorem read_write (h : data.length = size) : read (write memory offset data) offset size = data := by
  apply List.ext_getElem
  · rw [length_read, h]
  · intro k hk hk'
    simp only [read, write, List.getElem_map, List.getElem_range]
    rw [if_pos (by omega), Nat.add_sub_cancel_left, List.getElem?_eq_getElem hk', Option.getD_some]

theorem read_write_of_disjoint (h : offset' + size ≤ offset ∨ offset + data.length ≤ offset') :
    read (write memory offset data) offset' size = read memory offset' size := by
  unfold read
  apply List.map_congr_left
  intro k hk
  rw [List.mem_range] at hk
  unfold write
  split
  · rw [List.getElem?_eq_none (by omega), Option.getD_none]
  · rfl

end Memory

section Config

variable {c : Config} {p q : Nat}

-- The configurations for which the 24-bit fields and the 32-bit offsets are wide enough.
structure Config.Wide (c : Config) : Prop where
  depth_pos : 0 < c.depth
  depth_lt : c.depth < 2 ^ 24
  offsets : (c.depth - 1) * c.size < 2 ^ 32

theorem Config.Wide.offset_eq (h : c.Wide) (hp : p < c.depth) : c.offset p = p * c.size := by
  have hle : p * c.size ≤ (c.depth - 1) * c.size := Nat.mul_le_mul_right _ (by omega)
  exact Nat.mod_eq_of_lt (Nat.lt_of_le_of_lt hle h.offsets)

theorem Config.Wide.disjoint (h : c.Wide) (hp : p < c.depth) (hq : q < c.depth) (hne : p ≠ q) :
    c.offset p + c.size ≤ c.offset q ∨ c.offset q + c.size ≤ c.offset p := by
  rw [h.offset_eq hp, h.offset_eq hq, ← Nat.succ_mul, ← Nat.succ_mul]
  rcases Nat.lt_or_gt_of_ne hne with hlt | hgt
  · exact Or.inl (Nat.mul_le_mul_right _ hlt)
  · exact Or.inr (Nat.mul_le_mul_right _ hgt)

-- A copy into one slot leaves the others as they are.
theorem Config.Wide.read_write_other (h : c.Wide) (hp : p < c.depth) (hq : q < c.depth)
    (hne : p ≠ q) {memory : Nat → UInt8} {data : List UInt8} (hdata : data.length = c.size) :
    read (write memory (c.offset p) data) (c.offset q) c.size = read memory (c.offset q) c.size := by
  apply read_write_of_disjoint
  rw [hdata]
  exact (h.disjoint hp hq hne).symm

end Config

end Rpcsx.CellSync.Queue
