import Mathlib
import Rpcsx.Data.Interleaving

namespace Rpcsx.Orbis.Pipe

inductive ErrorCode where
  | ok
  | WOULDBLOCK
  | FAULT
deriving DecidableEq

def kMinAddress : Nat := 0x400000

def kMaxAddress : Nat := 0x10000000000

structure IoVec where
  base : Nat
  len : Nat
  base_lt : base < 2 ^ 64
  len_lt : len < 2 ^ 64

-- The memory of the process that makes a call.
abbrev Memory := Nat → UInt8

def Memory.bytes (memory : Memory) (base len : Nat) : List UInt8 :=
  (List.range len).map fun k => memory (base + k)

def Memory.copyIn (memory : Memory) (base : Nat) (bytes : List UInt8) : Memory :=
  fun a => if base ≤ a then bytes[a - base]?.getD (memory a) else memory a

-- ureadRaw; `none` is FAULT.
def ureadRaw (memory : Memory) (base size : Nat) : Option (List UInt8) :=
  if size = 0 then some []
  else if base < kMinAddress ∨ kMaxAddress ≤ (base + size) % 2 ^ 64 ∨ (base + size) % 2 ^ 64 < base then
    none
  else some (memory.bytes base size)

-- kvector::resize
def resize (data : List UInt8) (size : Nat) : List UInt8 :=
  data.take size ++ List.replicate (size - data.length) 0

-- What a call leaves in the buffer, the offset of its Uio, and the bytes that it has moved.
structure Moved where
  result : ErrorCode
  data : List UInt8
  offset : Nat
  bytes : List UInt8

structure Read extends Moved where
  memory : Memory

-- The loop of pipe_read over the vectors.
def readLoop : List IoVec → List UInt8 → Nat → Memory → Read
  | [], data, offset, memory => ⟨⟨.ok, data, offset, []⟩, memory⟩
  | vec :: iov, data, offset, memory =>
      let size := min data.length vec.len
      if size = 0 then readLoop iov [] offset memory
      else
        let offset := (offset + size) % 2 ^ 64
        let memory := memory.copyIn vec.base (data.take size)
        if data.length = size then ⟨⟨.ok, [], offset, data⟩, memory⟩
        else
          let rest := readLoop iov (data.drop size) offset memory
          { rest with bytes := data.take size ++ rest.bytes }

def pipeRead (data : List UInt8) (iov : List IoVec) (offset : Nat) (memory : Memory) : Read :=
  if data = [] then ⟨⟨.WOULDBLOCK, data, offset, []⟩, memory⟩
  else readLoop iov data offset memory

-- The loop of pipe_write over the vectors; the result is the buffer and, if there is no fault, the
-- bytes.
def writeLoop (memory : Memory) : List IoVec → List UInt8 → List UInt8 × Option (List UInt8)
  | [], data => (data, some [])
  | vec :: iov, data =>
      let resized := resize data ((data.length + vec.len) % 2 ^ 64)
      match ureadRaw memory vec.base vec.len with
      | none => (resized, none)
      | some bytes =>
          -- to the start of the buffer
          let rest := writeLoop memory iov (bytes ++ resized.drop bytes.length)
          (rest.1, rest.2.map (bytes ++ ·))

def pipeWrite (data : List UInt8) (iov : List IoVec) (offset : Nat) (memory : Memory) : Moved :=
  match writeLoop memory iov data with
  | (data, none) => ⟨.FAULT, data, offset, []⟩
  | (data, some bytes) => ⟨.ok, data, (offset + bytes.length) % 2 ^ 64, bytes⟩

-- One end of a pipe. Ghost fields have what the reads of this end have delivered and what the
-- writes to the other end have accepted.
structure End where
  data : List UInt8
  delivered : List UInt8
  accepted : List UInt8

abbrev State := Bool → End

def start : State := fun _ => ⟨[], [], []⟩

inductive Action where
  | read (end_ : Bool) (iov : List IoVec) (offset : Nat) (memory : Memory)
  | write (end_ : Bool) (iov : List IoVec) (offset : Nat) (memory : Memory)

def step (s : State) : Action → State
  | .read end_ iov offset memory =>
      let moved := pipeRead (s end_).data iov offset memory
      Function.update s end_ { s end_ with
        data := moved.data
        delivered := (s end_).delivered ++ moved.bytes }
  | .write end_ iov offset memory =>
      let other := !end_
      let moved := pipeWrite (s other).data iov offset memory
      Function.update s other { s other with
        data := moved.data
        accepted := (s other).accepted ++ moved.bytes }

-- A call moves its offset by the bytes that it has moved, and a call that fails has moved none.
structure Counted (offset : Nat) (moved : Moved) : Prop where
  offset : moved.offset % 2 ^ 64 = (offset + moved.bytes.length) % 2 ^ 64
  failed : moved.result ≠ .ok → moved.bytes = []

structure Sound (s : State) : Prop where
  fifo : ∀ e, (s e).delivered ++ (s e).data = (s e).accepted
  read : ∀ e iov offset memory, Counted offset (pipeRead (s e).data iov offset memory).toMoved
  write : ∀ e iov offset memory, Counted offset (pipeWrite (s e).data iov offset memory)

-- No call meets one of these: a vector without length in front of bytes that are still to be read;
-- a write into a buffer that is not empty, of more than one vector, or with a fault.
def Calm (s : State) : Action → Prop
  | .read end_ iov _ _ => ∀ before vec after, iov = before ++ vec :: after → vec.len = 0 →
      (s end_).data.length ≤ (before.map IoVec.len).sum
  | .write end_ iov _ memory =>
      (iov.filter fun vec => vec.len ≠ 0) = [] ∨
        ∃ vec, (iov.filter fun vec => vec.len ≠ 0) = [vec] ∧ (s !end_).data = [] ∧
          ureadRaw memory vec.base vec.len ≠ none

section Read

variable {iov : List IoVec} {data : List UInt8} {offset : Nat} {memory : Memory}

theorem readLoop_offset : (readLoop iov data offset memory).offset % 2 ^ 64 =
    (offset + (readLoop iov data offset memory).bytes.length) % 2 ^ 64 := by
  induction iov generalizing data offset memory with
  | nil => rfl
  | cons vec iov ih =>
      simp only [readLoop]
      split
      · exact ih
      · split
        · rename_i hall
          rw [← hall, Nat.mod_mod]
        · dsimp only
          rw [ih, List.length_append, List.length_take, Nat.min_eq_left (Nat.min_le_left ..),
            Nat.mod_add_mod, Nat.add_assoc]

theorem readLoop_result : (readLoop iov data offset memory).result = .ok := by
  induction iov generalizing data offset memory with
  | nil => rfl
  | cons vec iov ih =>
      simp only [readLoop]
      split
      · exact ih
      · split
        · rfl
        · exact ih

-- The bytes that are read and the rest are what was in the buffer.
theorem readLoop_fifo (hdata : data ≠ [])
    (hcalm : ∀ before vec after, iov = before ++ vec :: after → vec.len = 0 →
      data.length ≤ (before.map IoVec.len).sum) :
    (readLoop iov data offset memory).bytes ++ (readLoop iov data offset memory).data = data := by
  induction iov generalizing data offset memory with
  | nil => rfl
  | cons vec iov ih =>
      have hlength := List.length_pos_iff.mpr hdata
      have hlen : vec.len ≠ 0 := by
        intro hzero
        have hle := hcalm [] vec iov rfl hzero
        rw [List.map_nil, List.sum_nil] at hle
        omega
      simp only [readLoop]
      rw [if_neg (by omega)]
      split
      · exact List.append_nil data
      · rename_i hmore
        have hsize : min data.length vec.len = vec.len := by omega
        have hrest : data.drop (min data.length vec.len) ≠ [] := by
          rw [← List.length_pos_iff, List.length_drop]
          omega
        dsimp only
        rw [List.append_assoc, ih hrest, List.take_append_drop]
        intro before vec' after hiov hzero
        have hle := hcalm (vec :: before) vec' after (by rw [hiov]; rfl) hzero
        rw [List.map_cons, List.sum_cons] at hle
        rw [List.length_drop]
        omega

end Read

section Write

variable {iov : List IoVec} {data : List UInt8} {memory : Memory}

theorem resize_self : resize data data.length = data := by
  rw [resize, List.take_length, Nat.sub_self, List.replicate_zero, List.append_nil]

-- Vectors without length write nothing.
theorem writeLoop_empty (hdata : data.length < 2 ^ 64)
    (hiov : (iov.filter fun vec => vec.len ≠ 0) = []) :
    writeLoop memory iov data = (data, some []) := by
  induction iov with
  | nil => rfl
  | cons vec iov ih =>
      have hzero : vec.len = 0 := by
        by_contra hne
        rw [List.filter_cons_of_pos (by simpa using hne)] at hiov
        cases hiov
      rw [List.filter_cons_of_neg (by simpa using hzero)] at hiov
      simp only [writeLoop]
      rw [hzero, Nat.add_zero, Nat.mod_eq_of_lt hdata, resize_self]
      simp only [ureadRaw, if_true, List.length_nil, List.drop_zero, List.nil_append, ih hiov,
        Option.map_some]

theorem length_of_ureadRaw {base size : Nat} {bytes : List UInt8}
    (h : ureadRaw memory base size = some bytes) : bytes.length = size := by
  unfold ureadRaw at h
  split at h
  · rename_i hzero
    cases h
    exact hzero.symm
  · split at h
    · cases h
    · cases h
      rw [Memory.bytes, List.length_map, List.length_range]

-- One vector into an empty buffer.
theorem writeLoop_single {vec : IoVec} {bytes : List UInt8}
    (hiov : (iov.filter fun vec => vec.len ≠ 0) = [vec])
    (hread : ureadRaw memory vec.base vec.len = some bytes) :
    writeLoop memory iov [] = (bytes, some bytes) := by
  induction iov with
  | nil => cases hiov
  | cons first iov ih =>
      simp only [writeLoop]
      by_cases hzero : first.len = 0
      · rw [List.filter_cons_of_neg (by simpa using hzero)] at hiov
        rw [hzero]
        simp only [ureadRaw, if_true, List.length_nil, List.drop_zero, List.nil_append, resize,
          List.take_nil, Nat.add_zero, Nat.zero_mod, Nat.sub_zero, List.replicate_zero, ih hiov,
          Option.map_some]
      · rw [List.filter_cons_of_pos (by simpa using hzero)] at hiov
        injection hiov with hfirst hrest
        have hlength := length_of_ureadRaw hread
        have hsize : bytes.length < 2 ^ 64 := by
          rw [hlength]
          exact vec.len_lt
        have hdrop : (resize ([] : List UInt8) ((0 + vec.len) % 2 ^ 64)).drop bytes.length = [] := by
          apply List.drop_eq_nil_of_le
          rw [Nat.zero_add, Nat.mod_eq_of_lt vec.len_lt, hlength, resize, List.take_nil,
            List.nil_append, List.length_replicate]
          exact Nat.sub_le ..
        rw [hfirst, hread]
        dsimp only
        rw [List.length_nil, hdrop, List.append_nil, writeLoop_empty hsize hrest, Option.map_some,
          List.append_nil]

theorem pipeWrite_counted (offset : Nat) : Counted offset (pipeWrite data iov offset memory) := by
  unfold pipeWrite
  split
  · exact ⟨rfl, fun _ => rfl⟩
  · exact ⟨Nat.mod_mod .., fun hne => absurd rfl hne⟩

end Write

section Run

variable {s s' : State}

theorem pipeRead_counted {data : List UInt8} {iov : List IoVec} {offset : Nat} {memory : Memory} :
    Counted offset (pipeRead data iov offset memory).toMoved := by
  unfold pipeRead
  split
  · exact ⟨rfl, fun _ => rfl⟩
  · exact ⟨readLoop_offset, fun hne => absurd readLoop_result hne⟩

-- The buffers also stay smaller than a size_t can say.
structure Invariant (s : State) : Prop where
  fifo : ∀ e, (s e).delivered ++ (s e).data = (s e).accepted
  length : ∀ e, (s e).data.length < 2 ^ 64

theorem Invariant.sound (h : Invariant s) : Sound s :=
  ⟨h.fifo, fun _ _ _ _ => pipeRead_counted, fun _ _ offset _ => pipeWrite_counted offset⟩

theorem Invariant.put (h : Invariant s) {e : Bool} {e' : End}
    (hfifo : e'.delivered ++ e'.data = e'.accepted) (hlength : e'.data.length < 2 ^ 64) :
    Invariant (Function.update s e e') :=
  ⟨(Function.forall_update_iff s fun _ e => e.delivered ++ e.data = e.accepted).mpr
      ⟨hfifo, fun e _ => h.fifo e⟩,
    (Function.forall_update_iff s fun _ e => e.data.length < 2 ^ 64).mpr
      ⟨hlength, fun e _ => h.length e⟩⟩

theorem Invariant.step (h : Invariant s) {action : Action} (hcalm : Calm s action) :
    Invariant (Pipe.step s action) := by
  cases action with
  | read e iov offset memory =>
      have hdata : (pipeRead (s e).data iov offset memory).bytes ++
          (pipeRead (s e).data iov offset memory).data = (s e).data := by
        unfold pipeRead
        split
        · rfl
        · rename_i hne
          exact readLoop_fifo hne hcalm
      apply h.put
      · dsimp only
        rw [List.append_assoc, hdata]
        exact h.fifo e
      · have hle := congrArg List.length hdata
        rw [List.length_append] at hle
        have hlt := h.length e
        dsimp only
        omega
  | write e iov offset memory =>
      rcases hcalm with hempty | ⟨vec, hsingle, hnil, hread⟩
      · have hwrite : pipeWrite (s !e).data iov offset memory =
            ⟨.ok, (s !e).data, offset % 2 ^ 64, []⟩ := by
          rw [pipeWrite, writeLoop_empty (h.length _) hempty]
          rfl
        apply h.put
        · rw [hwrite, List.append_nil]
          exact h.fifo _
        · rw [hwrite]
          exact h.length _
      · obtain ⟨bytes, hbytes⟩ := Option.ne_none_iff_exists'.mp hread
        have hwrite : pipeWrite (s !e).data iov offset memory =
            ⟨.ok, bytes, (offset + bytes.length) % 2 ^ 64, bytes⟩ := by
          rw [pipeWrite, hnil, writeLoop_single hsingle hbytes]
        have hfifo := h.fifo !e
        rw [hnil, List.append_nil] at hfifo
        apply h.put
        · rw [hwrite]
          dsimp only
          rw [hfifo]
        · rw [hwrite]
          dsimp only
          rw [length_of_ureadRaw hbytes]
          exact vec.len_lt

theorem Invariant.start : Invariant Pipe.start := ⟨fun _ => rfl, fun _ => Nat.two_pow_pos 64⟩

def CalmStep (s s' : State) : Prop := ∃ action, step s action = s' ∧ Calm s action

-- In every run without the calls that Calm excludes.
theorem pipe_sound (h : Relation.ReflTransGen CalmStep start s) : Sound s := by
  apply Invariant.sound
  refine Data.Interleaving.invariant_of_reachable Invariant.start ?_ h
  rintro s s' hs ⟨action, hstep, hcalm⟩
  rw [← hstep]
  exact hs.step hcalm

end Run

section Examples

-- The user memory holds the low byte of every address.
def lowBytes : Memory := fun a => UInt8.ofNat a

def vec (base len : Nat) (hbase : base < 2 ^ 64 := by decide) (hlen : len < 2 ^ 64 := by decide) :
    IoVec := ⟨base, len, hbase, hlen⟩

-- Two bytes are written, one of them is read.
def halfRead : State :=
  step (step start (.write true [vec 0x400007 2] 0 lowBytes))
    (.read false [vec 0x500000 1] 0 lowBytes)

theorem pipe_sound_halfRead : Sound halfRead := by
  refine pipe_sound (.tail (.single ⟨.write true [vec 0x400007 2] 0 lowBytes, rfl, ?_⟩)
    ⟨.read false [vec 0x500000 1] 0 lowBytes, rfl, ?_⟩)
  · exact Or.inr ⟨vec 0x400007 2, rfl, rfl, nofun⟩
  · intro before vec after hiov hzero
    cases before with
    | nil =>
        injection hiov with hvec
        rw [← hvec] at hzero
        cases hzero
    | cons first before =>
        injection hiov with _ hrest
        cases before <;> cases hrest

-- A second write before the first one is read goes over it.
theorem second_write_overwrites :
    ¬ Sound (step (step start (.write true [vec 0x400007 1] 0 lowBytes))
      (.write true [vec 0x400009 1] 1 lowBytes)) := by
  intro h
  exact absurd (h.fifo false) (by decide)

end Examples

end Rpcsx.Orbis.Pipe
