import Rpcsx.Data.Bytes
import Rpcsx.Data.Circular
import Rpcsx.Data.Machine

namespace Rpcsx

open Rpcsx.Data

-- `simple_ringbuf`: one cell more than it holds, and two counters that only grow.
structure RingBuf where
  buf : List Byte
  readPtr : Nat
  writePtr : Nat

namespace RingBuf

inductive Fault where
  | ensure
  | lengthError
  deriving DecidableEq, Repr

-- A vector has fewer than 2^63 bytes, so that sums of two positions do not wrap.
def setBufSize (size : Nat) : Except Fault RingBuf :=
  if size = 2 ^ 64 - 1 then .error .ensure
  else if 2 ^ 63 ≤ size + 1 then .error .lengthError
  else .ok ⟨List.replicate (size + 1) 0, 0, 0⟩

def getFreeSize (s : RingBuf) : Nat :=
  let bufSize := s.buf.length
  let rd := s.readPtr % bufSize
  let wr := s.writePtr % bufSize
  (if rd ≤ wr then bufSize + rd - wr else rd - wr) - 1

def getUsedSize (s : RingBuf) : Nat :=
  let bufSize := s.buf.length
  let rd := s.readPtr % bufSize
  let wr := s.writePtr % bufSize
  if rd ≤ wr then wr - rd else bufSize + wr - rd

def writerFlush (s : RingBuf) (cnt : Nat) : RingBuf :=
  let used := s.getUsedSize
  if used = 0 then s
  else { s with writePtr := (s.writePtr + (s.buf.length - min used cnt)) % 2 ^ 64 }

def readerFlush (s : RingBuf) (cnt : Nat) : RingBuf :=
  { s with readPtr := (s.readPtr + min s.getUsedSize cnt) % 2 ^ 64 }

def push (s : RingBuf) (data : List Byte) (force : Bool) : RingBuf × Nat :=
  let old := s.writePtr % s.buf.length
  let freeSize := s.getFreeSize
  let toPush := min data.length freeSize
  if toPush = 0 ∨ (force = false ∧ freeSize < data.length) then (s, 0)
  else
    ({ s with
        buf := Circular.write s.buf old (data.take toPush)
        writePtr := (s.writePtr + toPush) % 2 ^ 64 }, toPush)

-- The bytes that were copied out; their number is the value returned.
def pop (s : RingBuf) (size : Nat) (force : Bool) : RingBuf × List Byte :=
  let old := s.readPtr % s.buf.length
  let usedSize := s.getUsedSize
  let toPop := min size usedSize
  if toPop = 0 ∨ (force = false ∧ usedSize < size) then (s, [])
  else
    ({ s with readPtr := (s.readPtr + toPop) % 2 ^ 64 }, Circular.read s.buf old toPop)

inductive Call where
  | push (data : List Byte) (force : Bool)
  | pop (size : Nat) (force : Bool)
  | writerFlush (cnt : Nat)
  | readerFlush (cnt : Nat)
  | sizes

inductive Result where
  | count (n : Nat)
  | bytes (data : List Byte)
  | done
  | sizes (used free : Nat)
  deriving DecidableEq

def step (s : RingBuf) : Call → RingBuf × Result
  | .push data force => ((s.push data force).1, .count (s.push data force).2)
  | .pop size force => ((s.pop size force).1, .bytes (s.pop size force).2)
  | .writerFlush cnt => (s.writerFlush cnt, .done)
  | .readerFlush cnt => (s.readerFlush cnt, .done)
  | .sizes => (s, .sizes s.getUsedSize s.getFreeSize)

end RingBuf

end Rpcsx

namespace Rpcsx.RingBuf

open Rpcsx.Data Rpcsx.Data.Machine

-- A queue of at most `size` bytes, the oldest first: what a push stores and what a pop takes.
def stored (size : Nat) (queue data : List Byte) (force : Bool) : List Byte :=
  if force then data.take (size - queue.length)
  else if data.length ≤ size - queue.length then data else []

def taken (queue : List Byte) (count : Nat) (force : Bool) : List Byte :=
  if force then queue.take count
  else if count ≤ queue.length then queue.take count else []

def next (size : Nat) (queue : List Byte) : Call → Result → List Byte
  | .push data force, _ => queue ++ stored size queue data force
  | .pop count force, _ => queue.drop (taken queue count force).length
  | .writerFlush cnt, _ => queue.take (queue.length - min cnt queue.length)
  | .readerFlush cnt, _ => queue.drop (min cnt queue.length)
  | .sizes, _ => queue

def Meets (size : Nat) (queue : List Byte) : Call → Result → Prop
  | .push data force, result => result = .count (stored size queue data force).length
  | .pop count force, result => result = .bytes (taken queue count force)
  | .writerFlush _, result => result = .done
  | .readerFlush _, result => result = .done
  | .sizes, result => ∃ free, result = .sizes queue.length free ∧ queue.length + free = size

-- What a call can add to the write counter.
def advance (size : Nat) : Call → Nat
  | .push data _ => data.length
  | .writerFlush _ => size + 1
  | _ => 0

structure Represents (size : Nat) (s : RingBuf) (queue : List Byte) : Prop where
  length_buf : s.buf.length = size + 1
  length_le : queue.length ≤ size
  writePtr_mod : s.writePtr % (size + 1) = (s.readPtr + queue.length) % (size + 1)
  readPtr_le : s.readPtr + queue.length ≤ s.writePtr
  cells : ∀ i, i < queue.length → s.buf[(s.readPtr + i) % (size + 1)]? = queue[i]?

variable {size : Nat} {s : RingBuf} {queue : List Byte}

theorem Represents.getUsedSize_eq (h : Represents size s queue) : s.getUsedSize = queue.length := by
  have hlt := Nat.mod_lt s.readPtr (show size + 1 > 0 by omega)
  have hle := h.length_le
  have hwr : s.writePtr % (size + 1) = (s.readPtr % (size + 1) + queue.length) % (size + 1) := by
    rw [h.writePtr_mod, Nat.mod_add_mod]
  simp only [getUsedSize, h.length_buf]
  generalize s.readPtr % (size + 1) = rd at *
  generalize s.writePtr % (size + 1) = wr at *
  rw [Circular.mod_of_lt_of_lt hlt (by omega)] at hwr
  split at hwr <;> split <;> omega

theorem Represents.getFreeSize_eq (h : Represents size s queue) :
    s.getFreeSize = size - queue.length := by
  have hlt := Nat.mod_lt s.readPtr (show size + 1 > 0 by omega)
  have hle := h.length_le
  have hwr : s.writePtr % (size + 1) = (s.readPtr % (size + 1) + queue.length) % (size + 1) := by
    rw [h.writePtr_mod, Nat.mod_add_mod]
  simp only [getFreeSize, h.length_buf]
  generalize s.readPtr % (size + 1) = rd at *
  generalize s.writePtr % (size + 1) = wr at *
  rw [Circular.mod_of_lt_of_lt hlt (by omega)] at hwr
  split at hwr <;> split <;> omega

-- The read counter moves over the oldest bytes.
theorem Represents.drop (h : Represents size s queue) {n : Nat} (hn : n ≤ queue.length) :
    Represents size { s with readPtr := s.readPtr + n } (queue.drop n) := by
  have hlen := h.length_le
  have hle := h.readPtr_le
  refine ⟨h.length_buf, ?_, ?_, ?_, ?_⟩
  · rw [List.length_drop]
    omega
  · show s.writePtr % _ = (s.readPtr + n + _) % _
    rw [h.writePtr_mod, List.length_drop]
    congr 1
    omega
  · show s.readPtr + n + _ ≤ s.writePtr
    rw [List.length_drop]
    omega
  · intro i hi
    rw [List.length_drop] at hi
    show s.buf[(s.readPtr + n + i) % _]? = _
    rw [List.getElem?_drop, Nat.add_assoc, h.cells _ (by omega)]

-- The write counter moves forward by a whole round less the newest bytes.
theorem Represents.take (h : Represents size s queue) {n : Nat} (hn : n ≤ queue.length) :
    Represents size { s with writePtr := s.writePtr + (size + 1 - n) }
      (queue.take (queue.length - n)) := by
  have hlen := h.length_le
  have hle := h.readPtr_le
  have htake : (queue.take (queue.length - n)).length = queue.length - n := by
    rw [List.length_take]
    omega
  refine ⟨h.length_buf, by omega, ?_, ?_, ?_⟩
  · show (s.writePtr + (size + 1 - n)) % _ = (s.readPtr + _) % _
    rw [htake, ← Nat.mod_add_mod, h.writePtr_mod, Nat.mod_add_mod,
      show s.readPtr + queue.length + (size + 1 - n) =
        s.readPtr + (queue.length - n) + (size + 1) by omega, Nat.add_mod_right]
  · show s.readPtr + _ ≤ s.writePtr + (size + 1 - n)
    omega
  · intro i hi
    rw [htake] at hi
    show s.buf[(s.readPtr + i) % _]? = _
    rw [List.getElem?_take_of_lt hi, h.cells i (by omega)]

-- New bytes go behind the newest ones, around the end of the buffer where it comes.
theorem Represents.append (h : Represents size s queue) (data : List Byte)
    (hd : queue.length + data.length ≤ size) :
    Represents size
      { s with
        buf := Circular.write s.buf (s.writePtr % s.buf.length) data
        writePtr := s.writePtr + data.length } (queue ++ data) := by
  have hbuf := h.length_buf
  have hle := h.readPtr_le
  have hpos : s.writePtr % s.buf.length < s.buf.length := Nat.mod_lt _ (by omega)
  have hcell (j : Nat) (hj : j < size + 1) :
      (Circular.write s.buf (s.writePtr % s.buf.length) data)[(s.readPtr + queue.length + j) %
        (size + 1)]? = if j < data.length then data[j]?
          else s.buf[(s.readPtr + queue.length + j) % (size + 1)]? := by
    have hw := Circular.getElem?_write hpos (show data.length ≤ s.buf.length by omega)
      (show j < s.buf.length by omega)
    rw [hbuf, h.writePtr_mod, Nat.mod_add_mod] at hw
    rwa [hbuf, h.writePtr_mod]
  refine ⟨?_, ?_, ?_, ?_, ?_⟩
  · show (Circular.write _ _ _).length = _
    rw [Circular.length_write hpos (by omega), hbuf]
  · rw [List.length_append]
    exact hd
  · show (s.writePtr + data.length) % _ = (s.readPtr + _) % _
    rw [List.length_append, ← Nat.mod_add_mod, h.writePtr_mod, Nat.mod_add_mod, Nat.add_assoc]
  · show s.readPtr + _ ≤ s.writePtr + data.length
    rw [List.length_append]
    omega
  · intro i hi
    rw [List.length_append] at hi
    show (Circular.write _ _ _)[(s.readPtr + i) % (size + 1)]? = _
    by_cases hold : i < queue.length
    · -- an old byte lies behind the free cells, a round further on
      have hround : (s.readPtr + i) % (size + 1) =
          (s.readPtr + queue.length + (size + 1 - queue.length + i)) % (size + 1) := by
        rw [show s.readPtr + queue.length + (size + 1 - queue.length + i) =
          s.readPtr + i + (size + 1) by omega, Nat.add_mod_right]
      rw [List.getElem?_append_left hold, hround, hcell _ (by omega), if_neg (by omega), ← hround,
        h.cells i hold]
    · rw [List.getElem?_append_right (by omega),
        show s.readPtr + i = s.readPtr + queue.length + (i - queue.length) by omega,
        hcell _ (by omega), if_pos (by omega)]

theorem Represents.read_eq (h : Represents size s queue) {n : Nat} (hn : n ≤ queue.length) :
    Circular.read s.buf (s.readPtr % s.buf.length) n = queue.take n := by
  have hbuf := h.length_buf
  have hlen := h.length_le
  have hpos : s.readPtr % s.buf.length < s.buf.length := Nat.mod_lt _ (by omega)
  apply List.ext_getElem?
  intro i
  by_cases hi : i < n
  · rw [Circular.getElem?_read hpos (by omega) hi, List.getElem?_take_of_lt hi, Nat.mod_add_mod,
      hbuf, h.cells i (by omega)]
  · rw [List.getElem?_eq_none, List.getElem?_eq_none]
    · rw [List.length_take]
      omega
    · rw [Circular.length_read hpos (by omega)]
      omega

theorem Represents.push_spec (h : Represents size s queue) (data : List Byte) (force : Bool)
    (hroom : s.writePtr + data.length < 2 ^ 64) :
    Represents size (s.push data force).1 (queue ++ stored size queue data force) ∧
      (s.push data force).2 = (stored size queue data force).length ∧
      (s.push data force).1.writePtr ≤ s.writePtr + data.length := by
  have hlen := h.length_le
  simp only [push, h.getFreeSize_eq]
  by_cases hskip : min data.length (size - queue.length) = 0 ∨
      (force = false ∧ size - queue.length < data.length)
  · have hnone : stored size queue data force = [] := by
      rw [stored]
      cases force with
      | true =>
          rw [if_pos rfl, List.take_eq_nil_iff, ← List.length_eq_zero_iff]
          simp only [Bool.true_eq_false, false_and, or_false] at hskip
          omega
      | false =>
          rw [if_neg (by simp)]
          split
          · rw [← List.length_eq_zero_iff]
            omega
          · rfl
    rw [if_pos hskip, hnone, List.append_nil]
    exact ⟨h, rfl, by simp⟩
  · have hsome : stored size queue data force =
        data.take (min data.length (size - queue.length)) := by
      rw [stored]
      cases force with
      | true =>
          rw [if_pos rfl, List.take_eq_take_iff]
          omega
      | false =>
          have hfits : data.length ≤ size - queue.length := by
            by_contra hn
            exact hskip (Or.inr ⟨rfl, by omega⟩)
          rw [if_neg (by simp), if_pos hfits, Nat.min_eq_left hfits, List.take_length]
    have htake : (data.take (min data.length (size - queue.length))).length =
        min data.length (size - queue.length) := by
      rw [List.length_take]
      omega
    have happ := h.append (data.take (min data.length (size - queue.length))) (by omega)
    rw [if_neg hskip, hsome, htake]
    rw [htake] at happ
    rw [Nat.mod_eq_of_lt (show s.writePtr + min data.length (size - queue.length) < 2 ^ 64 by omega)]
    exact ⟨happ, rfl, Nat.add_le_add_left (Nat.min_le_left _ _) _⟩

theorem Represents.pop_spec (h : Represents size s queue) (count : Nat) (force : Bool)
    (hroom : s.writePtr < 2 ^ 64) :
    Represents size (s.pop count force).1 (queue.drop (taken queue count force).length) ∧
      (s.pop count force).2 = taken queue count force ∧
      (s.pop count force).1.writePtr = s.writePtr := by
  have hle := h.readPtr_le
  simp only [pop, h.getUsedSize_eq]
  by_cases hskip : min count queue.length = 0 ∨ (force = false ∧ queue.length < count)
  · have hnone : taken queue count force = [] := by
      rw [taken]
      cases force with
      | true =>
          rw [if_pos rfl, List.take_eq_nil_iff, ← List.length_eq_zero_iff]
          simp only [Bool.true_eq_false, false_and, or_false] at hskip
          omega
      | false =>
          rw [if_neg (by simp)]
          split
          · rw [List.take_eq_nil_iff, ← List.length_eq_zero_iff]
            omega
          · rfl
    rw [if_pos hskip, hnone]
    exact ⟨h, rfl, rfl⟩
  · have hsome : taken queue count force = queue.take (min count queue.length) := by
      rw [taken]
      cases force with
      | true => rw [if_pos rfl, ← List.take_take, List.take_length]
      | false =>
          have hfits : count ≤ queue.length := by
            by_contra hn
            exact hskip (Or.inr ⟨rfl, by omega⟩)
          rw [if_neg (by simp), if_pos hfits, Nat.min_eq_left hfits]
    have hmin : min count queue.length ≤ queue.length := Nat.min_le_right _ _
    have htake : (queue.take (min count queue.length)).length = min count queue.length := by
      rw [List.length_take]
      omega
    rw [if_neg hskip, hsome, htake, Nat.mod_eq_of_lt (by omega)]
    exact ⟨h.drop hmin, h.read_eq hmin, rfl⟩

theorem Represents.writerFlush_spec (h : Represents size s queue) (cnt : Nat)
    (hroom : s.writePtr + (size + 1) < 2 ^ 64) :
    Represents size (s.writerFlush cnt) (queue.take (queue.length - min cnt queue.length)) ∧
      (s.writerFlush cnt).writePtr ≤ s.writePtr + (size + 1) := by
  simp only [writerFlush, h.getUsedSize_eq, h.length_buf]
  by_cases hzero : queue.length = 0
  · rw [if_pos hzero, List.length_eq_zero_iff.mp hzero, List.take_nil]
    rw [List.length_eq_zero_iff.mp hzero] at h
    exact ⟨h, Nat.le_add_right _ _⟩
  · rw [if_neg hzero, Nat.min_comm, Nat.mod_eq_of_lt (by omega)]
    refine ⟨h.take (Nat.min_le_right _ _), ?_⟩
    show s.writePtr + _ ≤ _
    omega

theorem Represents.readerFlush_spec (h : Represents size s queue) (cnt : Nat)
    (hroom : s.writePtr < 2 ^ 64) :
    Represents size (s.readerFlush cnt) (queue.drop (min cnt queue.length)) := by
  have hle := h.readPtr_le
  simp only [readerFlush, h.getUsedSize_eq]
  rw [Nat.min_comm, Nat.mod_eq_of_lt (by omega)]
  exact h.drop (Nat.min_le_right _ _)

-- One call acts on the bytes held as it does on the queue.
theorem Represents.step (h : Represents size s queue) (call : Call)
    (hroom : s.writePtr + advance size call < 2 ^ 64) :
    Represents size (s.step call).1 (next size queue call (s.step call).2) ∧
      Meets size queue call (s.step call).2 ∧
      (s.step call).1.writePtr ≤ s.writePtr + advance size call := by
  cases call with
  | push data force =>
      obtain ⟨hrep, hcount, hptr⟩ := h.push_spec data force hroom
      exact ⟨hrep, congrArg Result.count hcount, hptr⟩
  | pop count force =>
      obtain ⟨hrep, hbytes, hptr⟩ := h.pop_spec count force hroom
      exact ⟨hrep, congrArg Result.bytes hbytes, Nat.le_of_eq hptr⟩
  | writerFlush cnt =>
      obtain ⟨hrep, hptr⟩ := h.writerFlush_spec cnt hroom
      exact ⟨hrep, rfl, hptr⟩
  | readerFlush cnt => exact ⟨h.readerFlush_spec cnt hroom, rfl, Nat.le_refl _⟩
  | sizes =>
      refine ⟨h, ⟨size - queue.length, ?_, Nat.add_sub_cancel' h.length_le⟩, Nat.le_refl _⟩
      show Result.sizes s.getUsedSize s.getFreeSize = _
      rw [h.getUsedSize_eq, h.getFreeSize_eq]

theorem Represents.run (h : Represents size s queue) (calls : List Call)
    (hroom : s.writePtr + (calls.map (advance size)).sum < 2 ^ 64) :
    Along RingBuf.step (next size) (fun _ queue call result => Meets size queue call result) s queue
      calls := by
  induction calls generalizing s queue with
  | nil => trivial
  | cons call rest ih =>
      rw [List.map_cons, List.sum_cons] at hroom
      obtain ⟨hrep, hmeets, hptr⟩ := h.step call (by omega)
      exact ⟨hmeets, ih hrep (by omega)⟩

theorem represents_of_setBufSize (h : setBufSize size = .ok s) : Represents size s [] := by
  simp only [setBufSize] at h
  split at h
  · cases h
  · split at h
    · cases h
    · cases h
      exact ⟨by simp, Nat.zero_le _, rfl, Nat.le_refl _, fun i hi => absurd hi (Nat.not_lt_zero i)⟩

-- Along every run the buffer answers as a queue of at most `size` bytes, as long as the write
-- counter does not come around.
theorem refines_queue (hnew : setBufSize size = .ok s) (calls : List Call)
    (hbytes : (calls.map (advance size)).sum < 2 ^ 63) :
    Along RingBuf.step (next size) (fun _ queue call result => Meets size queue call result) s []
      calls := by
  have hrep := represents_of_setBufSize hnew
  apply hrep.run
  have hzero : s.writePtr = 0 := by
    simp only [setBufSize] at hnew
    split at hnew
    · cases hnew
    · split at hnew
      · cases hnew
      · cases hnew
        rfl
  omega

theorem refines_queue_wrapped_write :
    setBufSize 2 = .ok ⟨[0, 0, 0], 0, 0⟩ ∧
      Along RingBuf.step (next 2) (fun _ queue call result => Meets 2 queue call result)
        ⟨[0, 0, 0], 0, 0⟩ [] [.push [1, 2] false, .pop 1 false, .push [3, 4] true, .sizes] :=
  ⟨rfl, refines_queue rfl _ (by decide)⟩

-- Flushes that drop nothing move the write counter on by a round each.
theorem exec_writerFlush_zero (n : Nat) (hn : 1 + 3 * n < 2 ^ 64) :
    exec RingBuf.step (next 2) ⟨[7, 0, 0], 0, 1⟩ [7] (List.replicate n (.writerFlush 0)) =
      (⟨[7, 0, 0], 0, 1 + 3 * n⟩, [7]) := by
  induction n with
  | zero => rfl
  | succ n ih =>
      have hused : getUsedSize ⟨[7, 0, 0], 0, 1 + 3 * n⟩ = 1 := by
        have hmod : (1 + 3 * n) % 3 = 1 := by omega
        show (if 0 % 3 ≤ (1 + 3 * n) % 3 then (1 + 3 * n) % 3 - 0 % 3
          else 3 + (1 + 3 * n) % 3 - 0 % 3) = 1
        rw [hmod]
        rfl
      have hflush : writerFlush ⟨[7, 0, 0], 0, 1 + 3 * n⟩ 0 = ⟨[7, 0, 0], 0, 1 + 3 * (n + 1)⟩ := by
        simp only [writerFlush, hused, List.length_cons, List.length_nil]
        rw [if_neg (by omega), Nat.min_zero, Nat.mod_eq_of_lt (by omega)]
        congr 1
      have hexec : exec RingBuf.step (next 2) ⟨[7, 0, 0], 0, 1⟩ [7]
          (List.replicate n (.writerFlush 0) ++ [.writerFlush 0]) =
          (⟨[7, 0, 0], 0, 1 + 3 * (n + 1)⟩, [7]) := by
        rw [exec_append, ih (by omega)]
        simp only [exec, RingBuf.step, hflush]
        rfl
      rw [List.replicate_succ', hexec]

-- A byte, and flushes of nothing until the write counter comes around to 0: the byte is gone.
theorem flushes_of_nothing_lose_a_byte :
    ¬Along RingBuf.step (next 2) (fun _ queue call result => Meets 2 queue call result)
      ⟨[0, 0, 0], 0, 0⟩ []
      (.push [7] false :: (List.replicate 6148914691236517204 (.writerFlush 0) ++
        [.writerFlush 0, .pop 1 true])) := by
  rintro ⟨-, hrest⟩
  have hstart : (RingBuf.step ⟨[0, 0, 0], 0, 0⟩ (.push [7] false)).1 = ⟨[7, 0, 0], 0, 1⟩ := rfl
  rw [hstart] at hrest
  obtain ⟨-, hlast⟩ := along_append.mp hrest
  have hexec := exec_writerFlush_zero 6148914691236517204 (by omega)
  have hqueue : next 2 [] (.push [7] false) (RingBuf.step ⟨[0, 0, 0], 0, 0⟩ (.push [7] false)).2 =
    [7] := rfl
  rw [hqueue, hexec] at hlast
  obtain ⟨-, hpop, -⟩ := hlast
  have hbytes : (RingBuf.step (RingBuf.step ⟨[7, 0, 0], 0, 1 + 3 * 6148914691236517204⟩
      (.writerFlush 0)).1 (.pop 1 true)).2 = .bytes [] := by decide +kernel
  simp only [hbytes, Meets] at hpop
  exact absurd hpop (by decide)

end Rpcsx.RingBuf
