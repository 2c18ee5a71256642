import Mathlib.Data.BitVec
import Mathlib.Data.Fintype.Card
import Mathlib.Logic.Function.Basic
import Rpcsx.CellSync
import Rpcsx.Data.Interleaving

namespace Rpcsx.CellSync.Mutex

structure Counter where
  rel : BitVec 16
  acq : BitVec 16
deriving DecidableEq

namespace Counter

def lockBegin (c : Counter) : BitVec 16 × Counter := (c.acq, { c with acq := c.acq + 1 })

def tryLock (c : Counter) : Bool × Counter :=
  if c.rel ≠ c.acq then (false, c) else (true, { c with acq := c.acq + 1 })

def unlock (c : Counter) : Counter := { c with rel := c.rel + 1 }

end Counter

inductive Pc where
  | idle (result : Code)
  -- cellSyncMutexLock, in its loop
  | waiting (order : BitVec 16)
  | holding
  -- taken out of the loop by test_stopped
  | stopped
deriving DecidableEq

-- The object, the threads, and ghost lists of the threads that have ever got a ticket and of those
-- that have acquired the mutex.
structure State (ι : Type) where
  ctrl : Counter
  threads : ι → Pc
  issued : List ι
  acquired : List ι

inductive Action (ι : Type) where
  | lock (i : ι)
  -- one pass of the loop of cellSyncMutexLock; `stop` is what test_stopped answers
  | poll (i : ι) (stop : Bool)
  | tryLock (i : ι)
  | unlock (i : ι)

namespace State

variable {ι : Type}

-- cellSyncMutexInitialize
def start : State ι := ⟨⟨0, 0⟩, fun _ => .idle .ok, [], []⟩

variable [DecidableEq ι]

def goto (s : State ι) (i : ι) (pc : Pc) : State ι :=
  { s with threads := Function.update s.threads i pc }

def step (s : State ι) : Action ι → Option (State ι)
  | .lock i =>
      match s.threads i with
      | .idle _ =>
          let (order, ctrl) := s.ctrl.lockBegin
          some { s.goto i (.waiting order) with ctrl := ctrl, issued := s.issued ++ [i] }
      | _ => none
  | .poll i stop =>
      match s.threads i with
      | .waiting order =>
          if s.ctrl.rel ≠ order then some (if stop then s.goto i .stopped else s)
          else some { s.goto i .holding with acquired := s.acquired ++ [i] }
      | _ => none
  | .tryLock i =>
      match s.threads i with
      | .idle _ =>
          let (locked, ctrl) := s.ctrl.tryLock
          if locked then
            some { s.goto i .holding with
              ctrl := ctrl
              issued := s.issued ++ [i]
              acquired := s.acquired ++ [i] }
          else some (s.goto i (.idle .busy))
      | _ => none
  -- by the thread that holds the mutex
  | .unlock i =>
      if s.threads i = .holding then some { s.goto i (.idle .ok) with ctrl := s.ctrl.unlock }
      else none

def Step (s s' : State ι) : Prop := ∃ action, s.step action = some s'

end State

-- At most one thread holds the mutex, and the mutex is acquired in the order of the tickets.
structure Sound {ι : Type} (s : State ι) : Prop where
  exclusive : ∀ i j, s.threads i = .holding → s.threads j = .holding → i = j
  ordered : s.acquired <+: s.issued

section Invariant

variable {ι : Type}

def Pc.hasTicket : Pc → Bool
  | idle _ => false
  | _ => true

-- The outstanding tickets are those from rel up to acq, and `queue` has their threads. The thread
-- with the ticket rel is the only one that can hold the mutex.
structure Tickets (s : State ι) (released queue : List ι) : Prop where
  nodup : queue.Nodup
  issued : s.issued = released ++ queue
  acq : s.ctrl.acq = s.ctrl.rel + BitVec.ofNat 16 queue.length
  mem : ∀ i, (s.threads i).hasTicket = true ↔ i ∈ queue
  ticket : ∀ k i, queue[k]? = some i → s.threads i = .stopped ∨
    s.threads i = .waiting (s.ctrl.rel + BitVec.ofNat 16 k) ∨ (k = 0 ∧ s.threads i = .holding)
  acquired : (s.acquired = released ∧ ∀ i, s.threads i ≠ .holding) ∨
    ∃ i, queue.head? = some i ∧ s.threads i = .holding ∧ s.acquired = released ++ [i]

variable {s : State ι} {released queue : List ι} {i j : ι}

theorem eq_zero_of_add_ofNat_eq {rel : BitVec 16} {k : Nat} (hk : k < 65536)
    (h : rel + BitVec.ofNat 16 k = rel) : k = 0 := by
  have hnat := congrArg BitVec.toNat h
  rw [BitVec.toNat_add, BitVec.toNat_ofNat] at hnat
  have hrel := rel.isLt
  omega

theorem add_ofNat_succ (rel : BitVec 16) (k : Nat) :
    rel + BitVec.ofNat 16 (k + 1) = rel + BitVec.ofNat 16 k + 1 := by
  rw [BitVec.ofNat_add, BitVec.add_assoc]
  rfl

theorem Tickets.length_lt [Fintype ι] (h : Tickets s released queue)
    (hcard : Fintype.card ι < 65536) : queue.length < 65536 :=
  Nat.lt_of_le_of_lt h.nodup.length_le_card hcard

-- The thread that holds the mutex is the first of the queue.
theorem Tickets.head_of_holding (h : Tickets s released queue) (hi : s.threads i = .holding) :
    queue.head? = some i := by
  have hmem : i ∈ queue := by
    rw [← h.mem, hi]
    rfl
  obtain ⟨k, hk⟩ := List.mem_iff_getElem?.mp hmem
  rcases h.ticket k i hk with hstopped | hwaiting | ⟨hzero, -⟩
  · rw [hi] at hstopped
    cases hstopped
  · rw [hi] at hwaiting
    cases hwaiting
  · rw [hzero] at hk
    rw [List.head?_eq_getElem?]
    exact hk

theorem Tickets.sound (h : Tickets s released queue) : Sound s where
  exclusive i j hi hj := by
    have heq := (h.head_of_holding hi).symm.trans (h.head_of_holding hj)
    exact Option.some.inj heq
  ordered := by
    rw [h.issued]
    rcases h.acquired with ⟨hacquired, -⟩ | ⟨i, hhead, -, hacquired⟩
    · rw [hacquired]
      exact List.prefix_append _ _
    · obtain ⟨rest, hqueue⟩ := List.head?_eq_some_iff.mp hhead
      rw [hacquired, hqueue]
      exact ⟨rest, by rw [List.append_assoc]; rfl⟩

theorem Tickets.start : Tickets (State.start : State ι) [] [] where
  nodup := List.nodup_nil
  issued := rfl
  acq := rfl
  mem _ := ⟨nofun, nofun⟩
  ticket := nofun
  acquired := Or.inl ⟨rfl, fun _ => nofun⟩

variable [DecidableEq ι]

theorem holding_of_update {threads : ι → Pc} {pc : Pc} (hne : j ≠ i)
    (h : Function.update threads i pc j = .holding) : threads j = .holding := by
  rw [Function.update_of_ne hne] at h
  exact h

-- A thread without a ticket stays without one.
theorem Tickets.fail (h : Tickets s released queue) (hi : (s.threads i).hasTicket = false)
    (result : Code) : Tickets (s.goto i (.idle result)) released queue := by
  have hnot : i ∉ queue := by
    rw [← h.mem, hi]
    nofun
  refine ⟨h.nodup, h.issued, h.acq, ?_, ?_, ?_⟩
  · intro j
    unfold State.goto
    dsimp only
    by_cases hj : j = i
    · rw [hj, Function.update_self]
      exact ⟨nofun, fun hmem => absurd hmem hnot⟩
    · rw [Function.update_of_ne hj]
      exact h.mem j
  · intro k j hk
    have hj : j ≠ i := fun heq => hnot (heq ▸ List.mem_of_getElem? hk)
    unfold State.goto
    dsimp only
    rw [Function.update_of_ne hj]
    exact h.ticket k j hk
  · unfold State.goto
    dsimp only
    rcases h.acquired with ⟨hacquired, hnone⟩ | ⟨j, hhead, hj, hacquired⟩
    · refine Or.inl ⟨hacquired, ?_⟩
      intro j
      by_cases hj : j = i
      · rw [hj, Function.update_self]
        nofun
      · rw [Function.update_of_ne hj]
        exact hnone j
    · right
      have hne : j ≠ i := by
        intro heq
        rw [← heq, hj] at hi
        cases hi
      refine ⟨j, hhead, ?_, hacquired⟩
      rw [Function.update_of_ne hne]
      exact hj

-- A thread takes the next ticket; it holds the mutex at once only if nobody else has a ticket.
theorem Tickets.issue (h : Tickets s released queue) (hi : (s.threads i).hasTicket = false)
    {pc : Pc} {acquired : List ι}
    (hpc : (pc = .waiting s.ctrl.acq ∧ acquired = s.acquired) ∨
      (queue = [] ∧ pc = .holding ∧ acquired = s.acquired ++ [i])) :
    Tickets { s.goto i pc with
      ctrl := { s.ctrl with acq := s.ctrl.acq + 1 }
      issued := s.issued ++ [i]
      acquired := acquired } released (queue ++ [i]) := by
  have hnot : i ∉ queue := by
    rw [← h.mem, hi]
    nofun
  refine ⟨?_, ?_, ?_, ?_, ?_, ?_⟩
  · exact List.nodup_append.mpr ⟨h.nodup, List.nodup_singleton i, fun a ha b hb heq =>
      hnot (List.mem_singleton.mp hb ▸ heq ▸ ha)⟩
  · dsimp only
    rw [h.issued, List.append_assoc]
  · dsimp only
    rw [List.length_append, List.length_singleton, add_ofNat_succ, ← h.acq]
  · intro j
    unfold State.goto
    dsimp only
    by_cases hj : j = i
    · rw [hj, Function.update_self]
      refine ⟨fun _ => List.mem_append_right _ List.mem_cons_self, fun _ => ?_⟩
      rcases hpc with ⟨hpc, -⟩ | ⟨-, hpc, -⟩ <;> rw [hpc] <;> rfl
    · rw [Function.update_of_ne hj, h.mem j, List.mem_append, List.mem_singleton]
      exact ⟨Or.inl, fun hor => hor.resolve_right hj⟩
  · intro k j hk
    unfold State.goto
    dsimp only
    rcases Nat.lt_or_ge k queue.length with hlt | hge
    · rw [List.getElem?_append_left hlt] at hk
      have hj : j ≠ i := fun heq => hnot (heq ▸ List.mem_of_getElem? hk)
      rw [Function.update_of_ne hj]
      exact h.ticket k j hk
    · rw [List.getElem?_append_right hge] at hk
      obtain ⟨hlt, hj⟩ := List.getElem?_eq_some_iff.mp hk
      rw [List.length_singleton] at hlt
      have hlen : k = queue.length := by omega
      rw [List.getElem_singleton] at hj
      rw [← hj, Function.update_self]
      right
      rcases hpc with ⟨hpc, -⟩ | ⟨hnil, hpc, -⟩
      · left
        rw [hpc, h.acq, hlen]
      · right
        rw [hnil] at hlen
        exact ⟨hlen, hpc⟩
  · unfold State.goto
    dsimp only
    rcases hpc with ⟨hpc, hsame⟩ | ⟨hnil, hpc, hmore⟩
    · rw [hsame]
      rcases h.acquired with ⟨hacquired, hnone⟩ | ⟨j, hhead, hj, hacquired⟩
      · refine Or.inl ⟨hacquired, ?_⟩
        intro j
        by_cases hj : j = i
        · rw [hj, Function.update_self, hpc]
          nofun
        · rw [Function.update_of_ne hj]
          exact hnone j
      · right
        have hne : j ≠ i := fun heq => hnot (heq ▸ List.mem_of_head? hhead)
        obtain ⟨rest, hqueue⟩ := List.head?_eq_some_iff.mp hhead
        refine ⟨j, by rw [hqueue]; rfl, ?_, hacquired⟩
        rw [Function.update_of_ne hne]
        exact hj
    · right
      refine ⟨i, by rw [hnil]; rfl, ?_, ?_⟩
      · rw [Function.update_self]
        exact hpc
      · rcases h.acquired with ⟨hacquired, -⟩ | ⟨j, hhead, -⟩
        · rw [hmore, hacquired]
        · rw [hnil] at hhead
          cases hhead

-- The waiting thread finds its ticket called, or is stopped.
theorem Tickets.call (h : Tickets s released queue) (hlt : queue.length < 65536)
    (hi : s.threads i = .waiting s.ctrl.rel) :
    Tickets { s.goto i .holding with acquired := s.acquired ++ [i] } released queue := by
  have hmem : i ∈ queue := by
    rw [← h.mem, hi]
    rfl
  obtain ⟨k, hk⟩ := List.mem_iff_getElem?.mp hmem
  have hzero : k = 0 := by
    obtain ⟨hkl, -⟩ := List.getElem?_eq_some_iff.mp hk
    rcases h.ticket k i hk with hstopped | hwaiting | ⟨hzero, -⟩
    · rw [hi] at hstopped
      cases hstopped
    · rw [hi] at hwaiting
      injection hwaiting with heq
      exact eq_zero_of_add_ofNat_eq (by omega) heq.symm
    · exact hzero
  rw [hzero, ← List.head?_eq_getElem?] at hk
  have hother : ∀ j, s.threads j ≠ .holding := by
    intro j hj
    have heq := Option.some.inj ((h.head_of_holding hj).symm.trans hk)
    rw [← heq, hj] at hi
    cases hi
  refine ⟨h.nodup, h.issued, h.acq, ?_, ?_, ?_⟩
  · intro j
    unfold State.goto
    dsimp only
    by_cases hj : j = i
    · rw [hj, Function.update_self]
      exact ⟨fun _ => hmem, fun _ => rfl⟩
    · rw [Function.update_of_ne hj]
      exact h.mem j
  · intro l j hl
    unfold State.goto
    dsimp only
    by_cases hj : j = i
    · rw [hj, Function.update_self]
      right
      right
      refine ⟨?_, rfl⟩
      rw [hj] at hl
      rw [List.head?_eq_getElem?] at hk
      have hll := (List.getElem?_eq_some_iff.mp hl).1
      exact (List.getElem?_inj hll h.nodup).mp (hl.trans hk.symm)
    · rw [Function.update_of_ne hj]
      exact h.ticket l j hl
  · right
    refine ⟨i, hk, Function.update_self .., ?_⟩
    rcases h.acquired with ⟨hacquired, -⟩ | ⟨j, -, hj, -⟩
    · rw [← hacquired]
    · exact absurd hj (hother j)

theorem Tickets.stop (h : Tickets s released queue) {order : BitVec 16}
    (hi : s.threads i = .waiting order) : Tickets (s.goto i .stopped) released queue := by
  have hmem : i ∈ queue := by
    rw [← h.mem, hi]
    rfl
  refine ⟨h.nodup, h.issued, h.acq, ?_, ?_, ?_⟩
  · intro j
    unfold State.goto
    dsimp only
    by_cases hj : j = i
    · rw [hj, Function.update_self]
      exact ⟨fun _ => hmem, fun _ => rfl⟩
    · rw [Function.update_of_ne hj]
      exact h.mem j
  · intro l j hl
    unfold State.goto
    dsimp only
    by_cases hj : j = i
    · rw [hj, Function.update_self]
      exact Or.inl rfl
    · rw [Function.update_of_ne hj]
      exact h.ticket l j hl
  · unfold State.goto
    dsimp only
    rcases h.acquired with ⟨hacquired, hnone⟩ | ⟨j, hhead, hj, hacquired⟩
    · refine Or.inl ⟨hacquired, ?_⟩
      intro j
      by_cases hj : j = i
      · rw [hj, Function.update_self]
        nofun
      · rw [Function.update_of_ne hj]
        exact hnone j
    · right
      have hne : j ≠ i := by
        intro heq
        rw [heq, hi] at hj
        cases hj
      refine ⟨j, hhead, ?_, hacquired⟩
      rw [Function.update_of_ne hne]
      exact hj

-- The first of the queue leaves it, and the next ticket is called.
theorem Tickets.unlock (h : Tickets s released queue) (hi : s.threads i = .holding) :
    ∃ rest, Tickets { s.goto i (.idle .ok) with ctrl := s.ctrl.unlock } (released ++ [i]) rest := by
  obtain ⟨rest, hqueue⟩ := List.head?_eq_some_iff.mp (h.head_of_holding hi)
  have hnodup := h.nodup
  rw [hqueue] at hnodup
  obtain ⟨hnot, hrest⟩ := List.nodup_cons.mp hnodup
  refine ⟨rest, hrest, ?_, ?_, ?_, ?_, ?_⟩
  · rw [List.append_assoc]
    exact h.issued.trans (by rw [hqueue]; rfl)
  · have hacq := h.acq
    rw [hqueue, List.length_cons, add_ofNat_succ] at hacq
    refine hacq.trans ?_
    rw [BitVec.add_assoc, BitVec.add_comm (BitVec.ofNat 16 rest.length), ← BitVec.add_assoc]
    rfl
  · intro j
    unfold State.goto
    dsimp only
    by_cases hj : j = i
    · rw [hj, Function.update_self]
      exact ⟨nofun, fun hmem => absurd hmem hnot⟩
    · rw [Function.update_of_ne hj, h.mem j, hqueue, List.mem_cons]
      exact ⟨fun hor => hor.resolve_left hj, Or.inr⟩
  · intro k j hk
    have hj : j ≠ i := fun heq => hnot (heq ▸ List.mem_of_getElem? hk)
    unfold State.goto
    dsimp only
    rw [Function.update_of_ne hj]
    have hsucc : queue[k + 1]? = some j := by
      rw [hqueue, List.getElem?_cons_succ]
      exact hk
    rcases h.ticket (k + 1) j hsucc with hstopped | hwaiting | ⟨hzero, -⟩
    · exact Or.inl hstopped
    · right
      left
      rw [hwaiting, add_ofNat_succ, BitVec.add_assoc, BitVec.add_comm (BitVec.ofNat 16 k),
        ← BitVec.add_assoc]
      rfl
    · cases hzero
  · left
    constructor
    · rcases h.acquired with ⟨-, hnone⟩ | ⟨j, hhead, -, hacquired⟩
      · exact absurd hi (hnone i)
      · rw [h.head_of_holding hi] at hhead
        rw [← Option.some.inj hhead] at hacquired
        exact hacquired
    · intro j
      unfold State.goto
      dsimp only
      by_cases hj : j = i
      · rw [hj, Function.update_self]
        nofun
      · rw [Function.update_of_ne hj]
        intro hholding
        have heq := (h.head_of_holding hholding).symm.trans (h.head_of_holding hi)
        exact hj (Option.some.inj heq)

end Invariant

section Run

variable {ι : Type} [DecidableEq ι] [Fintype ι] {s s' : State ι}

def Invariant (s : State ι) : Prop := ∃ released queue, Tickets s released queue

theorem Invariant.step (hcard : Fintype.card ι < 65536) (h : Invariant s) (hstep : s.Step s') :
    Invariant s' := by
  obtain ⟨released, queue, h⟩ := h
  obtain ⟨action, hstep⟩ := hstep
  cases action with
  | lock i =>
      simp only [State.step] at hstep
      split at hstep
      · rename_i result hi
        cases hstep
        exact ⟨released, _, h.issue (by rw [hi]; rfl) (Or.inl ⟨rfl, rfl⟩)⟩
      · cases hstep
  | poll i stop =>
      simp only [State.step] at hstep
      split at hstep
      · rename_i order hi
        split at hstep
        · cases hstep
          split
          · exact ⟨released, queue, h.stop hi⟩
          · exact ⟨released, queue, h⟩
        · rename_i heq
          cases hstep
          rw [← not_not.mp heq] at hi
          exact ⟨released, queue, h.call (h.length_lt hcard) hi⟩
      · cases hstep
  | tryLock i =>
      simp only [State.step, Counter.tryLock] at hstep
      split at hstep
      · rename_i result hi
        have hno : (s.threads i).hasTicket = false := by
          rw [hi]
          rfl
        split at hstep
        · cases hstep
          exact ⟨released, queue, h.fail hno .busy⟩
        · rename_i heq
          cases hstep
          have hzero : queue.length = 0 := by
            have hrel := h.acq.symm.trans (not_not.mp heq).symm
            exact eq_zero_of_add_ofNat_eq (h.length_lt hcard) hrel
          have hnil := List.length_eq_zero_iff.mp hzero
          exact ⟨released, _, h.issue hno (Or.inr ⟨hnil, rfl, rfl⟩)⟩
      · cases hstep
  | unlock i =>
      simp only [State.step] at hstep
      split at hstep
      · rename_i hi
        cases hstep
        obtain ⟨rest, hrest⟩ := h.unlock hi
        exact ⟨_, rest, hrest⟩
      · cases hstep

-- For fewer than 2 ^ 16 threads and runs of any length, over which the counters wrap around.
theorem mutex_sound (hcard : Fintype.card ι < 65536)
    (h : Relation.ReflTransGen State.Step State.start s) : Sound s := by
  have hstart : Invariant (State.start : State ι) := ⟨[], [], Tickets.start⟩
  obtain ⟨released, queue, htickets⟩ := Data.Interleaving.invariant_of_reachable hstart
    (fun _ _ hs hstep => hs.step hcard hstep) h
  exact htickets.sound

end Run

-- One thread holds the mutex and another waits for it.
def contended : State (Fin 2) where
  ctrl := ⟨0, 2⟩
  threads := Function.update (Function.update (fun _ => .idle .ok) 0 .holding) 1 (.waiting 1)
  issued := [0, 1]
  acquired := [0]

theorem mutex_sound_contended : Sound contended :=
  mutex_sound (by decide) (.tail (.tail .refl ⟨.tryLock 0, rfl⟩) ⟨.lock 1, rfl⟩)

end Rpcsx.CellSync.Mutex
