import Rpcsx.Data.Interleaving
import Rpcsx.Lv2.EventQueue

namespace Rpcsx.Lv2.EventQueue

open Data.Interleaving

-- A thread that sleeps in sys_event_queue_receive; one at the barrier has seen an empty queue.
def Pc.queues {ι : Type} : Pc ι → Bool
  | parked _ | expired | timeoutLock | timeoutUnqueue => true
  | _ => false

def Pc.waits {ι : Type} : Pc ι → Bool
  | barrier => true
  | pc => pc.queues

-- The threads that were taken out of the queue and are about to be woken.
def Pc.serving {ι : Type} : Pc ι → List ι
  | sendStore _ ppu | sendAwake _ ppu => [ppu]
  | destroyAwake cpus => cpus
  | _ => []

namespace State

variable {ι : Type}

def serving (s : State ι) : List ι :=
  match s.mutex with
  | none => []
  | some i => (s.threads i).serving

-- A waiting thread is in one place: in the queue, about to be woken or woken.
structure Good (s : State ι) (j : ι) : Prop where
  queued : j ∈ s.pq → (s.threads j).queues = true ∧ s.signal j = false ∧ j ∉ s.serving
  served : j ∈ s.serving → (s.threads j).waits = true ∧ s.signal j = false
  woken : s.signal j = true → (s.threads j).waits = true
  waiting : (s.threads j).waits = true → j ∈ s.pq ∨ j ∈ s.serving ∨ s.signal j = true

end State

structure Invariant {ι : Type} (c : Config) (s : State ι) : Prop where
  exclusive : Exclusive Pc.holds s.threads s.mutex
  nodup : s.pq.Nodup
  size : s.events.length ≤ c.size
  empty : s.pq ≠ [] → s.events = []
  storing : ∀ i event ppu, s.threads i = .sendStore event ppu → s.events = []
  good : ∀ j, s.Good j

section Moves

variable {ι : Type} [DecidableEq ι] {c : Config} {s s' : State ι} {i : ι} {pc : Pc ι}

omit [DecidableEq ι] in
theorem Invariant.start : Invariant c (State.start : State ι) where
  exclusive _ := ⟨nofun, nofun⟩
  nodup := List.nodup_nil
  size := Nat.zero_le _
  empty _ := rfl
  storing := nofun
  good _ := ⟨nofun, nofun, nofun, nofun⟩

omit [DecidableEq ι] in
theorem serving_of_owner (h : s.mutex = some i) : s.serving = (s.threads i).serving := by
  unfold State.serving
  rw [h]

omit [DecidableEq ι] in
theorem serving_of_free (h : s.mutex = none) : s.serving = [] := by
  unfold State.serving
  rw [h]

omit [DecidableEq ι] in
theorem Pc.serving_of_not_holds (h : pc.holds = false) : pc.serving = [] := by
  cases pc with
  | sendStore | sendAwake | destroyAwake => cases h
  | _ => rfl

omit [DecidableEq ι] in
theorem Pc.not_queues_of_not_waits (h : pc.waits = false) : pc.queues = false := by
  cases pc with
  | barrier => cases h
  | _ => exact h

omit [DecidableEq ι] in
theorem Pc.waits_of_queues (h : pc.queues = true) : pc.waits = true := by
  cases pc with
  | barrier => rfl
  | _ => exact h

omit [DecidableEq ι] in
theorem State.Good.congr {j : ι} (h : s.Good j) (hthread : s'.threads j = s.threads j)
    (hpq : j ∈ s'.pq ↔ j ∈ s.pq) (hsignal : s'.signal j = s.signal j)
    (hserving : j ∈ s'.serving ↔ j ∈ s.serving) : s'.Good j where
  queued hj := by
    rw [hthread, hsignal, hserving]
    exact h.queued (hpq.mp hj)
  served hj := by
    rw [hthread, hsignal]
    exact h.served (hserving.mp hj)
  woken hj := by
    rw [hthread]
    rw [hsignal] at hj
    exact h.woken hj
  waiting hj := by
    rw [hthread] at hj
    rw [hpq, hsignal, hserving]
    exact h.waiting hj

omit [DecidableEq ι] in
-- A waiting thread goes on where it is.
theorem State.Good.moved (h : s.Good i) (hthread : s'.threads i = pc)
    (hqueues : (s.threads i).queues = true → pc.queues = true)
    (hwaits : pc.waits = (s.threads i).waits) (hpq : i ∈ s'.pq ↔ i ∈ s.pq)
    (hsignal : s'.signal i = s.signal i) (hserving : i ∈ s'.serving ↔ i ∈ s.serving) :
    s'.Good i where
  queued hi := by
    obtain ⟨hq, hs, hh⟩ := h.queued (hpq.mp hi)
    rw [hthread, hsignal, hserving]
    exact ⟨hqueues hq, hs, hh⟩
  served hi := by
    rw [hthread, hsignal, hwaits]
    exact h.served (hserving.mp hi)
  woken hi := by
    rw [hthread, hwaits]
    rw [hsignal] at hi
    exact h.woken hi
  waiting hi := by
    rw [hthread, hwaits] at hi
    rw [hpq, hsignal, hserving]
    exact h.waiting hi

omit [DecidableEq ι] in
-- A thread that does not wait is nowhere.
theorem State.Good.of_awake {j : ι} (hwaits : (s.threads j).waits = false) (hpq : j ∉ s.pq)
    (hsignal : s.signal j = false) (hserving : j ∉ s.serving) : s.Good j where
  queued hj := absurd hj hpq
  served hj := absurd hj hserving
  woken hj := by
    rw [hsignal] at hj
    cases hj
  waiting hj := by
    rw [hwaits] at hj
    cases hj

omit [DecidableEq ι] in
theorem Invariant.nowhere (h : Invariant c s) (hawake : (s.threads i).waits = false) :
    i ∉ s.pq ∧ s.signal i = false ∧ i ∉ s.serving := by
  refine ⟨?_, ?_, ?_⟩
  · intro hi
    have hqueues := ((h.good i).queued hi).1
    rw [Pc.not_queues_of_not_waits hawake] at hqueues
    cases hqueues
  · cases hsignal : s.signal i with
    | false => rfl
    | true =>
        rw [(h.good i).woken hsignal] at hawake
        cases hawake
  · intro hi
    rw [((h.good i).served hi).1] at hawake
    cases hawake

-- A step of a thread that does not have the mutex.
theorem Invariant.outside (h : Invariant c s) (pc : Pc ι) (hbefore : (s.threads i).holds = false)
    (hafter : pc.holds = false) (hthreads : s'.threads = Function.update s.threads i pc)
    (hmutex : s'.mutex = s.mutex) (hevents : s'.events = s.events) (hpq : s'.pq = s.pq)
    (hsignal : ∀ j, j ≠ i → s'.signal j = s.signal j)
    (hmine : s'.serving = s.serving → s'.Good i) : Invariant c s' := by
  have hserving : s'.serving = s.serving := by
    unfold State.serving
    rw [hmutex]
    cases hm : s.mutex with
    | none => rfl
    | some k =>
        have hne := h.exclusive.ne_of_not_holds hbefore hm
        simp only [hthreads, Function.update_of_ne hne]
  refine ⟨?_, ?_, ?_, ?_, ?_, ?_⟩
  · rw [hthreads, hmutex]
    exact h.exclusive.outside hbefore hafter
  · rw [hpq]
    exact h.nodup
  · rw [hevents]
    exact h.size
  · rw [hpq, hevents]
    exact h.empty
  · intro k event ppu hk
    rw [hevents]
    rw [hthreads] at hk
    by_cases hki : k = i
    · rw [hki, Function.update_self] at hk
      rw [hk] at hafter
      cases hafter
    · rw [Function.update_of_ne hki] at hk
      exact h.storing k event ppu hk
  · intro j
    by_cases hji : j = i
    · rw [hji]
      exact hmine hserving
    · refine (h.good j).congr ?_ (by rw [hpq]) (hsignal j hji) (by rw [hserving])
      rw [hthreads, Function.update_of_ne hji]

-- A step of a thread for which the mutex is free or that has it.
theorem Invariant.inside (h : Invariant c s) (pc : Pc ι) (hmine : s.mutex = none ∨ s.mutex = some i)
    (hthreads : s'.threads = Function.update s.threads i pc)
    (hmutex : s'.mutex = if pc.holds then some i else none) (hnodup : s'.pq.Nodup)
    (hsize : s'.events.length ≤ c.size) (hempty : s'.pq ≠ [] → s'.events = [])
    (hstoring : ∀ event ppu, pc = .sendStore event ppu → s'.events = [])
    (hgood : s'.serving = pc.serving → ∀ j, s'.Good j) : Invariant c s' := by
  have hself : s'.threads i = pc := by rw [hthreads, Function.update_self]
  refine ⟨?_, hnodup, hsize, hempty, ?_, hgood ?_⟩
  · rw [hthreads, hmutex]
    exact h.exclusive.owner hmine
  · intro k event ppu hk
    by_cases hki : k = i
    · rw [hki, hself] at hk
      exact hstoring event ppu hk
    · rw [hthreads, Function.update_of_ne hki] at hk
      have hfree := h.exclusive.not_holds_of_ne hmine hki
      rw [hk] at hfree
      cases hfree
  · cases hpc : pc.holds with
    | false =>
        rw [hpc] at hmutex
        rw [serving_of_free hmutex, Pc.serving_of_not_holds hpc]
    | true =>
        rw [hpc, if_pos rfl] at hmutex
        rw [serving_of_owner hmutex, hself]

end Moves

end Rpcsx.Lv2.EventQueue
