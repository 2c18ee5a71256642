import Mathlib.Logic.Function.Basic
import Mathlib.Logic.Relation
import Rpcsx.Lv2
import Rpcsx.Data.Interleaving

namespace Rpcsx.Lv2.LwMutex

inductive Call where
  | lock (timeout : Bool)
  | trylock
  | unlock (unlock2 : Bool)
deriving DecidableEq, Repr

-- Where a thread stands: in front of the atomic operation it performs next, with the local
-- variables that are still in use.
inductive Pc (ι : Type) where
  | idle (result : Option Code)
  -- _sys_lwmutex_lock
  | lockTry (timeout : Bool)
  | lockOwn (timeout : Bool)
  | lockSleep (timeout : Bool)
  | parked (timeout : Bool)
  | expired
  | barrier
  | timeoutLock
  | timeoutLoad
  | timeoutTry (signaled : BitVec 32) (sq : List ι)
  -- _sys_lwmutex_trylock
  | trylock
  -- _sys_lwmutex_unlock, _sys_lwmutex_unlock2
  | unlockLoad (unlock2 : Bool)
  | unlockSignaled (unlock2 : Bool)
  | unlockCas (unlock2 : Bool) (signaled : BitVec 32)
  | unlockLock (unlock2 : Bool)
  | reownLoad (unlock2 : Bool)
  | reownTry (unlock2 : Bool) (signaled : BitVec 32) (sq : List ι)
  | reownAwake (unlock2 : Bool) (cpu : ι)
deriving DecidableEq, Repr

-- Inside a section of the `shared_mutex` of the object.
def Pc.holds {ι : Type} : Pc ι → Bool
  | timeoutLoad | timeoutTry _ _ | reownLoad _ | reownTry _ _ _ | reownAwake _ _ => true
  | _ => false

-- `signaled` and `sq` are one value, `lv2_control`; the signals are those of lv2_obj::awake, also
-- when they cancel a sleep that has not begun.
structure State (ι : Type) where
  signaled : BitVec 32
  sq : List ι
  mutex : Option ι
  threads : ι → Pc ι
  signal : ι → Bool
  gpr3 : ι → Code

-- The bit that an unlock leaves for the next locker.
def unlockBit (unlock2 : Bool) : BitVec 32 := if unlock2 then 0x80000000 else 1

-- What a locker that takes the signal returns.
def lockResult (signal : BitVec 32) : Code := if ~~~signal &&& 1 ≠ 0 then .ebusy else .ok

namespace State

variable {ι : Type} [DecidableEq ι]

def start : State ι where
  signaled := 0
  sq := []
  mutex := none
  threads _ := .idle none
  signal _ := false
  gpr3 _ := .ok

def goto (s : State ι) (i : ι) (pc : Pc ι) : State ι :=
  { s with threads := Function.update s.threads i pc }

def lock (s : State ι) (i : ι) (pc : Pc ι) : Option (State ι) :=
  if s.mutex = none then some { s.goto i pc with mutex := some i } else none

def unlock (s : State ι) (i : ι) (pc : Pc ι) : State ι := { s.goto i pc with mutex := none }

def setResult (s : State ι) (i : ι) (code : Code) : State ι :=
  { s with gpr3 := Function.update s.gpr3 i code }

-- Taken by the thread that it is for.
def awaken (s : State ι) (i : ι) : State ι :=
  { s with signal := Function.update s.signal i false }

-- compare_and_swap on `lv2_control`, which holds the first thread of the queue
def unchanged (s : State ι) (signaled : BitVec 32) (sq : Option ι) : Bool :=
  s.signaled = signaled ∧ s.sq.head? = sq

end State

section Step

variable {ι : Type} [DecidableEq ι]

def Call.start (s : State ι) (i : ι) : Call → State ι
  | lock timeout => (s.setResult i .ok).goto i (.lockTry timeout)
  | trylock => s.goto i .trylock
  | unlock unlock2 => s.goto i (.unlockLoad unlock2)

variable (protocol : Protocol) (prio : ι → Prio)

-- The next operation of a thread; none while it sleeps or has to wait for the mutex.
def advance (s : State ι) (i : ι) : Option (State ι) :=
  match s.threads i with
  | .idle _ => none
  | .lockTry timeout =>
      if s.signaled ≠ 0 then
        some { s.goto i (.idle (some (lockResult s.signaled))) with signaled := 0 }
      else some (s.goto i (.lockOwn timeout))
  -- lv2_lwmutex::try_own
  | .lockOwn timeout =>
      if s.signaled ≠ 0 then
        some { s.goto i (.idle (some (lockResult s.signaled))) with signaled := 0 }
      else some { s.goto i (.lockSleep timeout) with sq := i :: s.sq }
  | .lockSleep timeout =>
      if s.signal i then some ((s.awaken i).goto i (.idle (some (s.gpr3 i))))
      else some (s.goto i (.parked timeout))
  | .parked _ =>
      if s.signal i then some ((s.awaken i).goto i (.idle (some (s.gpr3 i)))) else none
  | .expired => if s.sq = [] then some (s.goto i .barrier) else some (s.goto i .timeoutLock)
  | .barrier =>
      if s.mutex = none then some ((s.awaken i).goto i (.idle (some (s.gpr3 i)))) else none
  | .timeoutLock => s.lock i .timeoutLoad
  | .timeoutLoad => some (s.goto i (.timeoutTry s.signaled s.sq))
  | .timeoutTry signaled sq =>
      match unqueue sq i with
      | none => some ((s.awaken i).unlock i (.idle (some (s.gpr3 i))))
      | some rest =>
          if sq.head? = some i then
            if s.unchanged signaled sq.head? then
              some { s.unlock i (.idle (some .etimedout)) with sq := rest }
            else some (s.goto i .timeoutLoad)
          -- the thread in front of it is changed in place
          else some { s.unlock i (.idle (some .etimedout)) with sq := s.sq.erase i }
  | .trylock =>
      if s.signaled &&& 1 ≠ 0 then some { s.goto i (.idle (some .ok)) with signaled := 0 }
      else some (s.goto i (.idle (some .ebusy)))
  -- lv2_lwmutex::try_unlock
  | .unlockLoad unlock2 =>
      if s.sq = [] then some (s.goto i (.unlockSignaled unlock2))
      else some (s.goto i (.unlockLock unlock2))
  | .unlockSignaled unlock2 => some (s.goto i (.unlockCas unlock2 s.signaled))
  | .unlockCas unlock2 signaled =>
      if s.unchanged signaled none then
        some { s.goto i (.idle (some .ok)) with signaled := signaled ||| unlockBit unlock2 }
      else some (s.goto i (.unlockLock unlock2))
  | .unlockLock unlock2 => s.lock i (.reownLoad unlock2)
  -- lv2_lwmutex::reown
  | .reownLoad unlock2 => some (s.goto i (.reownTry unlock2 s.signaled s.sq))
  | .reownTry unlock2 signaled sq =>
      match schedule prio protocol sq with
      | none =>
          if s.unchanged signaled sq.head? then
            some { s.unlock i (.idle (some .ok)) with signaled := signaled ||| unlockBit unlock2 }
          else some (s.goto i (.reownLoad unlock2))
      | some (cpu, rest) =>
          if sq.head? = some cpu then
            if s.unchanged signaled sq.head? then
              some { s.goto i (.reownAwake unlock2 cpu) with sq := rest }
            else some (s.goto i (.reownLoad unlock2))
          -- the thread in front of it is changed in place
          else some { s.goto i (.reownAwake unlock2 cpu) with sq := s.sq.erase cpu }
  | .reownAwake unlock2 cpu =>
      some { s.unlock i (.idle (some .ok)) with
        gpr3 := if unlock2 then Function.update s.gpr3 cpu .ebusy else s.gpr3
        signal := Function.update s.signal cpu true }

-- The priorities may be any at any time.
inductive Step (s : State ι) : State ι → Prop where
  | call (i : ι) (result : Option Code) (call : Call) (hidle : s.threads i = .idle result) :
      Step s (call.start s i)
  | run (i : ι) (prio : ι → Prio) (s' : State ι) (h : advance protocol prio s i = some s') :
      Step s s'
  | expire (i : ι) (hparked : s.threads i = .parked true) : Step s (s.goto i .expired)

def Reachable (s : State ι) : Prop := Relation.ReflTransGen (Step protocol) State.start s

end Step

end Rpcsx.Lv2.LwMutex

namespace Rpcsx.Lv2.LwMutex

open Data.Interleaving

-- A thread that waits for an unlock; a thread at the barrier has seen an empty queue.
def Pc.queues {ι : Type} : Pc ι → Bool
  | lockSleep _ | parked _ | expired | timeoutLock | timeoutLoad | timeoutTry _ _ => true
  | _ => false

def Pc.waits {ι : Type} : Pc ι → Bool
  | barrier => true
  | pc => pc.queues

-- The thread that an unlock has taken out of the queue and is about to wake.
def Pc.handing {ι : Type} : Pc ι → Option ι
  | reownAwake _ cpu => some cpu
  | _ => none

namespace State

variable {ι : Type}

def handing (s : State ι) : Option ι := s.mutex.bind fun i => (s.threads i).handing

-- A waiting thread is in one place: in the queue, about to be woken or woken.
structure Good (s : State ι) (j : ι) : Prop where
  queued : j ∈ s.sq → (s.threads j).queues = true ∧ s.signal j = false ∧ s.handing ≠ some j
  handed : s.handing = some j → (s.threads j).waits = true ∧ s.signal j = false
  woken : s.signal j = true → (s.threads j).waits = true
  waiting : (s.threads j).waits = true →
    j ∈ s.sq ∨ s.handing = some j ∨ s.signal j = true

-- Since the thread inside the mutex has loaded the queue, others were only added in front.
def Loaded (s : State ι) (i : ι) : Pc ι → Prop
  | .timeoutTry _ sq => ∃ pre, s.sq = pre ++ sq ∧ i ∉ pre
  | .reownTry _ _ sq => ∃ pre, s.sq = pre ++ sq
  | _ => True

end State

structure Invariant {ι : Type} (s : State ι) : Prop where
  exclusive : Exclusive Pc.holds s.threads s.mutex
  nodup : s.sq.Nodup
  signaled : s.signaled ≠ 0 → s.sq = []
  good : ∀ j, s.Good j
  loaded : ∀ i, s.mutex = some i → s.Loaded i (s.threads i)

section Moves

variable {ι : Type} [DecidableEq ι] {s s' : State ι} {i : ι} {pc : Pc ι}

omit [DecidableEq ι] in
theorem Invariant.start : Invariant (State.start : State ι) where
  exclusive _ := ⟨nofun, nofun⟩
  nodup := List.nodup_nil
  signaled h := absurd rfl h
  good _ := ⟨nofun, nofun, nofun, nofun⟩
  loaded := nofun

omit [DecidableEq ι] in
theorem handing_of_owner (h : s.mutex = some i) : s.handing = (s.threads i).handing := by
  unfold State.handing
  rw [h]
  rfl

omit [DecidableEq ι] in
theorem handing_of_free (h : s.mutex = none) : s.handing = none := by
  unfold State.handing
  rw [h]
  rfl

omit [DecidableEq ι] in
theorem Pc.handing_of_not_holds (h : pc.holds = false) : pc.handing = none := by
  cases pc with
  | reownAwake => cases h
  | _ => rfl

omit [DecidableEq ι] in
theorem State.Good.congr {j : ι} (h : s.Good j) (hthread : s'.threads j = s.threads j)
    (hsq : j ∈ s'.sq ↔ j ∈ s.sq) (hsignal : s'.signal j = s.signal j)
    (hhanding : s'.handing = some j ↔ s.handing = some j) : s'.Good j where
  queued hj := by
    rw [hthread, hsignal, ne_eq, hhanding]
    exact h.queued (hsq.mp hj)
  handed hj := by
    rw [hthread, hsignal]
    exact h.handed (hhanding.mp hj)
  woken hj := by
    rw [hthread]
    rw [hsignal] at hj
    exact h.woken hj
  waiting hj := by
    rw [hthread] at hj
    rw [hsq, hsignal, hhanding]
    exact h.waiting hj

-- A thread that does not wait is nowhere.
omit [DecidableEq ι] in
theorem State.Good.of_awake {j : ι} (hwaits : (s.threads j).waits = false) (hsq : j ∉ s.sq)
    (hsignal : s.signal j = false) (hhanding : s.handing ≠ some j) : s.Good j where
  queued hj := absurd hj hsq
  handed hj := absurd hj hhanding
  woken hj := by
    rw [hsignal] at hj
    cases hj
  waiting hj := by
    rw [hwaits] at hj
    cases hj

omit [DecidableEq ι] in
theorem Pc.not_queues_of_not_waits (h : pc.waits = false) : pc.queues = false := by
  cases pc with
  | barrier => cases h
  | _ => exact h

omit [DecidableEq ι] in
theorem Invariant.nowhere (h : Invariant s) (hawake : (s.threads i).waits = false) :
    i ∉ s.sq ∧ s.signal i = false ∧ s.handing ≠ some i := by
  refine ⟨?_, ?_, ?_⟩
  · intro hi
    have hqueues := ((h.good i).queued hi).1
    rw [Pc.not_queues_of_not_waits hawake] at hqueues
    cases hqueues
  · cases hsignal : s.signal i with
    | false => rfl
    | true =>
        rw [(h.good i).woken hsignal] at hawake
        cases hawake
  · intro hi
    rw [((h.good i).handed hi).1] at hawake
    cases hawake

-- A step outside of the mutex: a thread may enter the queue in front, take the signal or leave
-- one for an empty queue.
theorem Invariant.outside (h : Invariant s) (pc : Pc ι) (hbefore : (s.threads i).holds = false)
    (hafter : pc.holds = false) (hthreads : s'.threads = Function.update s.threads i pc)
    (hmutex : s'.mutex = s.mutex) (hsq : s'.sq = s.sq ∨ i ∉ s.sq ∧ s'.sq = i :: s.sq)
    (hsignaled : s'.signaled ≠ 0 → s'.sq = []) (hsignal : ∀ j, j ≠ i → s'.signal j = s.signal j)
    (hmine : s'.handing = s.handing → s'.Good i) : Invariant s' := by
  have hhanding : s'.handing = s.handing := by
    unfold State.handing
    rw [hmutex]
    cases hm : s.mutex with
    | none => rfl
    | some k =>
        have hne := h.exclusive.ne_of_not_holds hbefore hm
        change (s'.threads k).handing = (s.threads k).handing
        rw [hthreads, Function.update_of_ne hne]
  refine ⟨?_, ?_, hsignaled, ?_, ?_⟩
  · rw [hthreads, hmutex]
    exact h.exclusive.outside hbefore hafter
  · rcases hsq with hsame | ⟨hnew, hpush⟩
    · rw [hsame]
      exact h.nodup
    · rw [hpush]
      exact List.nodup_cons.mpr ⟨hnew, h.nodup⟩
  · intro j
    by_cases hji : j = i
    · rw [hji]
      exact hmine hhanding
    · refine (h.good j).congr ?_ ?_ (hsignal j hji) (by rw [hhanding])
      · rw [hthreads, Function.update_of_ne hji]
      · rcases hsq with hsame | ⟨_, hpush⟩
        · rw [hsame]
        · rw [hpush]
          exact List.mem_cons.trans (or_iff_right hji)
  · intro k hk
    rw [hmutex] at hk
    have hne := h.exclusive.ne_of_not_holds hbefore hk
    have hloaded := h.loaded k hk
    rw [hthreads, Function.update_of_ne hne]
    rcases hsq with hsame | ⟨_, hpush⟩
    · cases hpc : s.threads k with
      | timeoutTry | reownTry =>
          rw [hpc] at hloaded
          unfold State.Loaded at hloaded ⊢
          rw [hsame]
          exact hloaded
      | _ => trivial
    · cases hpc : s.threads k with
      | timeoutTry signaled sq =>
          rw [hpc] at hloaded
          obtain ⟨pre, hpre, hnot⟩ := hloaded
          refine ⟨i :: pre, ?_, ?_⟩
          · rw [hpush, hpre, List.cons_append]
          · intro hmem
            rcases List.mem_cons.mp hmem with heq | hin
            · exact hne heq
            · exact hnot hin
      | reownTry unlock2 signaled sq =>
          rw [hpc] at hloaded
          obtain ⟨pre, hpre⟩ := hloaded
          refine ⟨i :: pre, ?_⟩
          rw [hpush, hpre, List.cons_append]
      | _ => trivial

-- A step of the thread that takes the mutex, has it or gives it back.
theorem Invariant.inside (h : Invariant s) (pc : Pc ι) (hmine : s.mutex = none ∨ s.mutex = some i)
    (hthreads : s'.threads = Function.update s.threads i pc)
    (hmutex : s'.mutex = if pc.holds then some i else none) (hnodup : s'.sq.Nodup)
    (hsignaled : s'.signaled ≠ 0 → s'.sq = []) (hgood : s'.handing = pc.handing → ∀ j, s'.Good j)
    (hloaded : s'.Loaded i pc) : Invariant s' := by
  have hself : s'.threads i = pc := by rw [hthreads, Function.update_self]
  refine ⟨?_, hnodup, hsignaled, hgood ?_, ?_⟩
  · rw [hthreads, hmutex]
    exact h.exclusive.owner hmine
  · cases hpc : pc.holds with
    | false =>
        rw [hpc] at hmutex
        rw [handing_of_free hmutex, Pc.handing_of_not_holds hpc]
    | true =>
        rw [hpc, if_pos rfl] at hmutex
        rw [handing_of_owner hmutex, hself]
  · intro k hk
    rw [hmutex] at hk
    cases hpc : pc.holds with
    | false =>
        rw [hpc] at hk
        cases hk
    | true =>
        rw [hpc, if_pos rfl] at hk
        cases hk
        rw [hself]
        exact hloaded

end Moves

end Rpcsx.Lv2.LwMutex
