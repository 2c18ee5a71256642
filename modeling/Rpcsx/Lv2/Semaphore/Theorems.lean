import Mathlib.Data.Fintype.Card
import Rpcsx.Data.Interleaving
import Rpcsx.Lv2.Semaphore

namespace Rpcsx.Lv2.Semaphore

open Data.Interleaving

namespace Pc

-- A thread between its decrement and the queue, or between the queue and its increment.
def transit : Pc → Nat
  | waitEmplace _ | timeoutInc => 1
  | _ => 0

-- The threads that a post has still to take from the queue.
def waking : Pc → Nat
  | postWake toAwake => toAwake
  | _ => 0

-- What is known of the local variables.
def Ready (c : Config) : Pc → Prop
  | waitCas _ val => 0 < val
  | postCas count val => 0 ≤ val ∧ 0 < count ∧ count ≤ c.max - val
  | postLoad count => count < 2 ^ 31
  | postLock count | postAdd count => 0 < count ∧ count < 2 ^ 31
  | failed => False
  | _ => True

theorem transit_of_not_holds {pc : Pc} (h : pc.holds = false) : pc.transit = 0 := by
  cases pc <;> first | rfl | cases h

theorem waking_of_not_holds {pc : Pc} (h : pc.holds = false) : pc.waking = 0 := by
  cases pc <;> first | rfl | cases h

end Pc

variable {ι : Type} [DecidableEq ι] {c : Config} {s s' : State ι} {i : ι}

-- The thread in the section of the mutex.
def State.inside (s : State ι) : Pc :=
  match s.mutex with
  | some i => s.threads i
  | none => .idle none

-- Threads that wait: in the queue, or on their way into it or out of it.
def State.queued (s : State ι) : Nat := s.sq.length + s.inside.transit

structure Invariant (c : Config) (s : State ι) : Prop where
  inside : Exclusive Pc.holds s.threads s.mutex
  ready : ∀ i, (s.threads i).Ready c
  nodup : s.sq.Nodup
  asleep : ∀ i ∈ s.sq, (s.threads i).sleeps = true
  val_le : s.val ≤ c.max
  queue : (s.queued : Int) = max 0 (-s.val) + s.inside.waking
  conserved : c.initial + s.posts - s.waits = s.val + s.queued

section Frame

variable (pc : Pc)

-- A step outside of the mutex that leaves the queue alone.
theorem Invariant.outside (h : Invariant c s) (hbefore : (s.threads i).holds = false)
    (hpc : pc.holds = false) (hready : pc.Ready c)
    (hsleeps : (s.threads i).sleeps = true → pc.sleeps = true ∨ i ∉ s.sq)
    (hthreads : s'.threads = Function.update s.threads i pc) (hmutex : s'.mutex = s.mutex)
    (hsq : s'.sq = s.sq) (hval : s'.val ≤ c.max) (hneg : max 0 (-s'.val) = max 0 (-s.val))
    (hcount : s'.posts - s'.waits - s'.val = s.posts - s.waits - s.val) : Invariant c s' := by
  have hinside : s'.inside = s.inside := by
    unfold State.inside
    rw [hmutex, hthreads]
    cases hm : s.mutex with
    | none => rfl
    | some j =>
        dsimp only
        rw [Function.update_of_ne (h.inside.ne_of_not_holds hbefore hm)]
  have hqueued : s'.queued = s.queued := by rw [State.queued, State.queued, hsq, hinside]
  refine ⟨?_, ?_, ?_, ?_, hval, ?_, ?_⟩
  · rw [hthreads, hmutex]
    exact h.inside.outside hbefore hpc
  · rw [hthreads]
    exact (Function.forall_update_iff s.threads fun _ pc => pc.Ready c).mpr
      ⟨hready, fun j _ => h.ready j⟩
  · rw [hsq]
    exact h.nodup
  · intro j hj
    rw [hsq] at hj
    rw [hthreads]
    by_cases hji : j = i
    · subst hji
      rw [Function.update_self]
      rcases hsleeps (h.asleep j hj) with hs | hs
      · exact hs
      · exact absurd hj hs
    · rw [Function.update_of_ne hji]
      exact h.asleep j hj
  · rw [hqueued, hinside, hneg]
    exact h.queue
  · rw [hqueued]
    have := h.conserved
    omega

-- A step of the thread that has the mutex, takes it or gives it back.
theorem Invariant.owner (h : Invariant c s) (hmine : s.mutex = none ∨ s.mutex = some i)
    (hready : pc.Ready c) (hthreads : s'.threads = Function.update s.threads i pc)
    (hmutex : s'.mutex = if pc.holds then some i else none) (hnodup : s'.sq.Nodup)
    (hsq : ∀ j ∈ s'.sq, j ≠ i → j ∈ s.sq) (hsleeps : i ∈ s'.sq → pc.sleeps = true)
    (hval : s'.val ≤ c.max)
    (hqueue : ((s'.sq.length + pc.transit : Nat) : Int) = max 0 (-s'.val) + pc.waking)
    (hcount : c.initial + s'.posts - s'.waits = s'.val + ((s'.sq.length + pc.transit : Nat) : Int)) :
    Invariant c s' := by
  have hinside : s'.inside.transit = pc.transit ∧ s'.inside.waking = pc.waking := by
    unfold State.inside
    rw [hmutex]
    cases hpc : pc.holds with
    | true =>
        change (s'.threads i).transit = _ ∧ (s'.threads i).waking = _
        rw [hthreads, Function.update_self]
        exact ⟨rfl, rfl⟩
    | false => exact ⟨(Pc.transit_of_not_holds hpc).symm, (Pc.waking_of_not_holds hpc).symm⟩
  have hqueued : s'.queued = s'.sq.length + pc.transit := by rw [State.queued, hinside.1]
  refine ⟨?_, ?_, hnodup, ?_, hval, ?_, ?_⟩
  · rw [hthreads, hmutex]
    exact h.inside.owner hmine
  · rw [hthreads]
    exact (Function.forall_update_iff s.threads fun _ pc => pc.Ready c).mpr
      ⟨hready, fun j _ => h.ready j⟩
  · intro j hj
    rw [hthreads]
    by_cases hji : j = i
    · subst hji
      rw [Function.update_self]
      exact hsleeps hj
    · rw [Function.update_of_ne hji]
      exact h.asleep j (hsq j hj hji)
  · rw [hqueued, hinside.2]
    exact hqueue
  · rw [hqueued]
    exact hcount

end Frame

section Counts

omit [DecidableEq ι]

theorem Invariant.start (hc : c.Accepted) : Invariant c (State.start (ι := ι) c) := by
  have h0 := hc.initial_nonneg
  refine ⟨?_, ?_, List.nodup_nil, ?_, hc.initial_le, ?_, ?_⟩
  · intro i
    exact ⟨nofun, nofun⟩
  · intro i
    exact trivial
  · intro i hi
    cases hi
  · simp only [State.queued, State.inside, State.start, Pc.transit, Pc.waking, List.length_nil]
    omega
  · simp only [State.queued, State.inside, State.start, Pc.transit, List.length_nil]
    omega

theorem Invariant.free (h : Invariant c s) (hm : s.mutex = none) :
    (s.sq.length : Int) = max 0 (-s.val) ∧ c.initial + s.posts - s.waits = s.val + s.sq.length := by
  have hq := h.queue
  have hc := h.conserved
  simp only [State.queued, State.inside, hm, Pc.transit, Pc.waking] at hq hc
  omega

theorem Invariant.mine {pc : Pc} (h : Invariant c s) (hm : s.mutex = some i)
    (hpc : s.threads i = pc) :
    ((s.sq.length + pc.transit : Nat) : Int) = max 0 (-s.val) + pc.waking ∧
      c.initial + s.posts - s.waits = s.val + ((s.sq.length + pc.transit : Nat) : Int) := by
  have hq := h.queue
  have hc := h.conserved
  simp only [State.queued, State.inside, hm, hpc] at hq hc
  exact ⟨hq, hc⟩

theorem Invariant.awake (h : Invariant c s) (hs : (s.threads i).sleeps = false) : i ∉ s.sq := by
  intro hi
  rw [h.asleep i hi] at hs
  cases hs

theorem Invariant.val_ge [Fintype ι] (h : Invariant c s)
    (hthreads : Fintype.card ι ≤ idCount) : -200 ≤ s.val := by
  have hq := h.queue
  have hl : s.sq.length ≤ Fintype.card ι := h.nodup.length_le_card
  have ht : s.inside.transit ≤ 1 := by
    cases s.inside <;> simp only [Pc.transit] <;> omega
  unfold State.queued at hq
  unfold idCount at hthreads
  omega

end Counts

section Advance

variable {prio : ι → Prio} {pc : Pc}

theorem Invariant.goto (h : Invariant c s) (hbefore : (s.threads i).holds = false)
    (hpc : pc.holds = false) (hready : pc.Ready c)
    (hsleeps : (s.threads i).sleeps = true → pc.sleeps = true ∨ i ∉ s.sq) :
    Invariant c (s.goto i pc) :=
  h.outside pc hbefore hpc hready hsleeps rfl rfl rfl h.val_le rfl rfl

-- The mutex is taken by a thread that is ready for what it does inside.
theorem Invariant.lock (h : Invariant c s) (hs : s.lock i pc = some s') (hpc : pc.holds = true)
    (hready : pc.Ready c) (htransit : pc.transit = 0) (hwaking : pc.waking = 0)
    (hsleeps : (s.threads i).sleeps = true → pc.sleeps = true) : Invariant c s' := by
  unfold State.lock at hs
  split at hs
  · rename_i hm
    cases hs
    obtain ⟨hq, hcount⟩ := h.free hm
    apply h.owner pc (Or.inl hm) hready rfl
    · rw [hpc]
      rfl
    · exact h.nodup
    · intro j hj _
      exact hj
    · intro hi
      exact hsleeps (h.asleep i hi)
    · exact h.val_le
    · rw [htransit, hwaking]
      change ((s.sq.length + 0 : Nat) : Int) = max 0 (-s.val) + (0 : Nat)
      omega
    · rw [htransit]
      exact hcount
  · cases hs

-- Successful operations of sys_semaphore_wait, sys_semaphore_trywait and sys_semaphore_post
-- outside of the mutex.
theorem Invariant.take (h : Invariant c s) (hbefore : (s.threads i).holds = false)
    (hawake : (s.threads i).sleeps = false) (hpos : 0 < s.val) (hlow : s.val < 2 ^ 31)
    (code : Option Code) :
    Invariant c { s.goto i (.idle code) with val := s32 (s.val - 1), waits := s.waits + 1 } := by
  have hval : s32 (s.val - 1) = s.val - 1 := s32_eq (by omega) (by omega)
  have hle := h.val_le
  refine h.outside (.idle code) hbefore rfl trivial ?_ rfl rfl rfl ?_ ?_ ?_
  · intro hs
    rw [hawake] at hs
    cases hs
  · change s32 (s.val - 1) ≤ c.max
    omega
  · change max 0 (-s32 (s.val - 1)) = _
    omega
  · change s.posts - (s.waits + 1) - s32 (s.val - 1) = _
    omega

theorem Invariant.add (h : Invariant c s) (hbefore : (s.threads i).holds = false)
    (hawake : (s.threads i).sleeps = false) {count : Int} (hcount : 0 < count)
    (hnonneg : 0 ≤ s.val) (hfits : count ≤ c.max - s.val) (hmax : c.max < 2 ^ 31)
    (code : Option Code) :
    Invariant c { s.goto i (.idle code) with
      val := s32 (s.val + count), posts := s.posts + count } := by
  have hval : s32 (s.val + count) = s.val + count := s32_eq (by omega) (by omega)
  refine h.outside (.idle code) hbefore rfl trivial ?_ rfl rfl rfl ?_ ?_ ?_
  · intro hs
    rw [hawake] at hs
    cases hs
  · change s32 (s.val + count) ≤ c.max
    omega
  · change max 0 (-s32 (s.val + count)) = _
    omega
  · change s.posts + count - s.waits - s32 (s.val + count) = _
    omega

-- The mutex is given back, or kept, with the queue as it is.
theorem Invariant.inner (h : Invariant c s) (pc : Pc) (hm : s.mutex = some i) (hawake : i ∉ s.sq)
    (hready : pc.Ready c) (hthreads : s'.threads = Function.update s.threads i pc)
    (hmutex : s'.mutex = if pc.holds then some i else none) (hsq : s'.sq = s.sq)
    (hval : s'.val ≤ c.max)
    (hqueue : ((s.sq.length + pc.transit : Nat) : Int) = max 0 (-s'.val) + pc.waking)
    (hcount : c.initial + s'.posts - s'.waits = s'.val + ((s.sq.length + pc.transit : Nat) : Int)) :
    Invariant c s' := by
  refine h.owner pc (Or.inr hm) hready hthreads hmutex ?_ ?_ ?_ hval ?_ ?_
  · rw [hsq]
    exact h.nodup
  · intro j hj _
    rw [hsq] at hj
    exact hj
  · intro hi
    rw [hsq] at hi
    exact absurd hi hawake
  · rw [hsq]
    exact hqueue
  · rw [hsq]
    exact hcount

-- The decrement of sys_semaphore_wait inside of the mutex.
theorem Invariant.dec (h : Invariant c s) {timeout : Bool} (hpc : s.threads i = .waitDec timeout)
    (hlow : -200 ≤ s.val) (hmax : c.max < 2 ^ 31) (hs : advance c prio s i = some s') :
    Invariant c s' := by
  have hm : s.mutex = some i := (h.inside i).mp (by rw [hpc]; rfl)
  have hawake : i ∉ s.sq := h.awake (by rw [hpc]; rfl)
  have hle := h.val_le
  have hval : s32 (s.val - 1) = s.val - 1 := s32_eq (by omega) (by omega)
  obtain ⟨hq, hcount⟩ := h.mine hm hpc
  simp only [Pc.transit, Pc.waking] at hq hcount
  simp only [advance, hpc] at hs
  split at hs
  · cases hs
    refine h.inner (.waitEmplace timeout) hm hawake trivial rfl hm rfl ?_ ?_ ?_
    · change s32 (s.val - 1) ≤ c.max
      omega
    · change ((s.sq.length + 1 : Nat) : Int) = max 0 (-s32 (s.val - 1)) + (0 : Nat)
      omega
    · change c.initial + s.posts - s.waits = s32 (s.val - 1) + ((s.sq.length + 1 : Nat) : Int)
      omega
  · cases hs
    refine h.inner (.idle (some .ok)) hm hawake trivial rfl rfl rfl ?_ ?_ ?_
    · change s32 (s.val - 1) ≤ c.max
      omega
    · change ((s.sq.length + 0 : Nat) : Int) = max 0 (-s32 (s.val - 1)) + (0 : Nat)
      omega
    · change c.initial + s.posts - (s.waits + 1) =
        s32 (s.val - 1) + ((s.sq.length + 0 : Nat) : Int)
      omega

theorem Invariant.emplace (h : Invariant c s) {timeout : Bool}
    (hpc : s.threads i = .waitEmplace timeout) (hs : advance c prio s i = some s') :
    Invariant c s' := by
  have hm : s.mutex = some i := (h.inside i).mp (by rw [hpc]; rfl)
  have hawake : i ∉ s.sq := h.awake (by rw [hpc]; rfl)
  obtain ⟨hq, hcount⟩ := h.mine hm hpc
  simp only [Pc.transit, Pc.waking] at hq hcount
  simp only [advance, hpc] at hs
  cases hs
  refine h.owner (.parked timeout) (Or.inr hm) trivial rfl rfl ?_ ?_ ?_ h.val_le ?_ ?_
  · exact List.nodup_cons.mpr ⟨hawake, h.nodup⟩
  · intro j hj hne
    exact (List.mem_cons.mp hj).resolve_left hne
  · intro _
    rfl
  · change ((s.sq.length + 1 + 0 : Nat) : Int) = max 0 (-s.val) + (0 : Nat)
    omega
  · change c.initial + s.posts - s.waits = s.val + ((s.sq.length + 1 + 0 : Nat) : Int)
    omega

-- A thread that timed out leaves the queue, or finds that a post has taken it from there.
theorem Invariant.unqueue (h : Invariant c s) (hpc : s.threads i = .timeoutUnqueue)
    (hs : advance c prio s i = some s') : Invariant c s' := by
  have hm : s.mutex = some i := (h.inside i).mp (by rw [hpc]; rfl)
  obtain ⟨hq, hcount⟩ := h.mine hm hpc
  simp only [Pc.transit, Pc.waking] at hq hcount
  simp only [advance, hpc] at hs
  split at hs
  · rename_i hnone
    cases hs
    exact h.inner (.idle (some .ok)) hm (unqueue_eq_none.mp hnone) trivial rfl rfl rfl h.val_le
      hq hcount
  · rename_i sq hsome
    obtain ⟨hmem, rfl⟩ := unqueue_eq_some hsome
    have hlength : (s.sq.erase i).length + 1 = s.sq.length := by
      have hpos := List.length_pos_of_mem hmem
      rw [List.length_erase_of_mem hmem]
      omega
    cases hs
    refine h.owner .timeoutInc (Or.inr hm) trivial rfl hm (h.nodup.erase i) ?_ ?_ h.val_le ?_ ?_
    · intro j hj _
      exact List.mem_of_mem_erase hj
    · intro hi
      exact absurd hi (h.nodup.not_mem_erase)
    · change (((s.sq.erase i).length + 1 : Nat) : Int) = max 0 (-s.val) + (0 : Nat)
      omega
    · change c.initial + s.posts - s.waits = s.val + (((s.sq.erase i).length + 1 : Nat) : Int)
      omega

-- The value of a thread that was in the queue is negative: the check of the increment holds.
theorem Invariant.inc (h : Invariant c s) (hpc : s.threads i = .timeoutInc) (hlow : -200 ≤ s.val)
    (hmax : 0 < c.max) (hs : advance c prio s i = some s') : Invariant c s' := by
  have hm : s.mutex = some i := (h.inside i).mp (by rw [hpc]; rfl)
  have hawake : i ∉ s.sq := h.awake (by rw [hpc]; rfl)
  have hle := h.val_le
  obtain ⟨hq, hcount⟩ := h.mine hm hpc
  simp only [Pc.transit, Pc.waking] at hq hcount
  have hneg : s.val < 0 := by omega
  have hval : s32 (s.val + 1) = s.val + 1 := s32_eq (by omega) (by omega)
  simp only [advance, hpc, if_pos hneg] at hs
  cases hs
  refine h.inner (.idle (some .etimedout)) hm hawake trivial rfl rfl rfl ?_ ?_ ?_
  · change s32 (s.val + 1) ≤ c.max
    omega
  · change ((s.sq.length + 0 : Nat) : Int) = max 0 (-s32 (s.val + 1)) + (0 : Nat)
    omega
  · change c.initial + s.posts - s.waits = s32 (s.val + 1) + ((s.sq.length + 0 : Nat) : Int)
    omega

-- The comparison of sys_semaphore_post is one of unsigned values, also of a negative value.
theorem Invariant.post (h : Invariant c s) {count : Int} (hpc : s.threads i = .postAdd count)
    (hlow : -200 ≤ s.val) (hmax : c.max < 2 ^ 31) (hs : advance c prio s i = some s') :
    Invariant c s' := by
  have hm : s.mutex = some i := (h.inside i).mp (by rw [hpc]; rfl)
  have hawake : i ∉ s.sq := h.awake (by rw [hpc]; rfl)
  have hready := h.ready i
  rw [hpc] at hready
  obtain ⟨hpos, hlt⟩ : 0 < count ∧ count < 2 ^ 31 := hready
  have hle := h.val_le
  have hroom : u32 (c.max - s.val) = c.max - s.val := u32_eq (by omega) (by omega)
  have hcount32 : u32 count = count := u32_eq (by omega) (by omega)
  obtain ⟨hq, hcount⟩ := h.mine hm hpc
  simp only [Pc.transit, Pc.waking] at hq hcount
  simp only [advance, hpc, hroom, hcount32] at hs
  split at hs
  · rename_i hfits
    have hval : s32 (s.val + count) = s.val + count := s32_eq (by omega) (by omega)
    cases hs
    refine h.inner (.postWake (min (-min s.val 0) count).toNat) hm hawake trivial rfl hm rfl
      ?_ ?_ ?_
    · change s32 (s.val + count) ≤ c.max
      omega
    · change ((s.sq.length + 0 : Nat) : Int) =
        max 0 (-s32 (s.val + count)) + (min (-min s.val 0) count).toNat
      omega
    · change c.initial + (s.posts + count) - s.waits =
        s32 (s.val + count) + ((s.sq.length + 0 : Nat) : Int)
      omega
  · cases hs
    exact h.inner (.idle (some .ebusy)) hm hawake trivial rfl rfl rfl hle hq hcount

-- A thread is there for each of those that a post wakes.
theorem Invariant.wake (h : Invariant c s) {toAwake : Nat} (hpc : s.threads i = .postWake toAwake)
    (hs : advance c prio s i = some s') : Invariant c s' := by
  have hm : s.mutex = some i := (h.inside i).mp (by rw [hpc]; rfl)
  have hawake : i ∉ s.sq := h.awake (by rw [hpc]; rfl)
  obtain ⟨hq, hcount⟩ := h.mine hm hpc
  simp only [Pc.transit, Pc.waking] at hq hcount
  cases toAwake with
  | zero =>
      simp only [advance, hpc] at hs
      cases hs
      exact h.inner (.idle (some .ok)) hm hawake trivial rfl rfl rfl h.val_le hq hcount
  | succ toAwake =>
      simp only [advance, hpc] at hs
      split at hs
      · rename_i hnone
        rw [schedule_eq_none] at hnone
        rw [hnone, List.length_nil] at hq
        omega
      · rename_i found rest hsome
        have hperm := schedule_perm hsome
        have hlength := hperm.length_eq
        rw [List.length_cons] at hlength
        have hnodup := (List.nodup_cons.mp (hperm.nodup_iff.mp h.nodup)).2
        have hsub {j : ι} (hj : j ∈ rest) : j ∈ s.sq :=
          hperm.mem_iff.mpr (List.mem_cons_of_mem _ hj)
        cases hs
        refine h.owner (.postWake toAwake) (Or.inr hm) trivial rfl hm hnodup ?_ ?_ h.val_le ?_ ?_
        · intro j hj _
          exact hsub hj
        · intro hi
          exact absurd (hsub hi) hawake
        · change ((rest.length + 0 : Nat) : Int) = max 0 (-s.val) + toAwake
          omega
        · change c.initial + s.posts - (s.waits + 1) = s.val + ((rest.length + 0 : Nat) : Int)
          omega

theorem Invariant.advance [Fintype ι] (hthreads : Fintype.card ι ≤ idCount) (hc : c.Accepted)
    (h : Invariant c s) (hs : advance c prio s i = some s') : Invariant c s' := by
  have hlow := h.val_ge hthreads
  have hle := h.val_le
  have hmax := hc.max_s32
  have hready := h.ready i
  cases hpc : s.threads i with
  | idle code => simp only [Semaphore.advance, hpc, reduceCtorEq] at hs
  | waitLoad timeout =>
      have hb : (s.threads i).holds = false := by rw [hpc]; rfl
      have ha : (s.threads i).sleeps = true → False := by rw [hpc]; nofun
      simp only [Semaphore.advance, hpc] at hs
      split at hs
      · rename_i hpos
        cases hs
        exact h.goto hb rfl hpos fun hsleeps => (ha hsleeps).elim
      · cases hs
        exact h.goto hb rfl trivial fun hsleeps => (ha hsleeps).elim
  | waitCas timeout val =>
      have hb : (s.threads i).holds = false := by rw [hpc]; rfl
      have ha : (s.threads i).sleeps = false := by rw [hpc]; rfl
      rw [hpc] at hready
      simp only [Semaphore.advance, hpc] at hs
      split at hs
      · rename_i hval
        cases hs
        rw [← hval]
        rw [← hval] at hready
        exact h.take hb ha hready (by omega) _
      · cases hs
        refine h.goto hb rfl trivial ?_
        rw [ha]
        nofun
  | waitLock timeout =>
      simp only [Semaphore.advance, hpc] at hs
      refine h.lock hs rfl trivial rfl rfl ?_
      rw [hpc]
      nofun
  | waitDec timeout => exact h.dec hpc hlow hmax hs
  | waitEmplace timeout => exact h.emplace hpc hs
  | parked timeout =>
      have hb : (s.threads i).holds = false := by rw [hpc]; rfl
      simp only [Semaphore.advance, hpc] at hs
      split at hs
      · cases hs
      · rename_i hout
        cases hs
        exact h.goto hb rfl trivial fun _ => Or.inr hout
  | timeoutLock =>
      simp only [Semaphore.advance, hpc] at hs
      exact h.lock hs rfl trivial rfl rfl fun _ => rfl
  | timeoutUnqueue => exact h.unqueue hpc hs
  | timeoutInc => exact h.inc hpc hlow hc.max_pos hs
  | tryDec =>
      have hb : (s.threads i).holds = false := by rw [hpc]; rfl
      have ha : (s.threads i).sleeps = false := by rw [hpc]; rfl
      simp only [Semaphore.advance, hpc] at hs
      split at hs
      · rename_i hpos
        cases hs
        exact h.take hb ha hpos (by omega) _
      · cases hs
        refine h.goto hb rfl trivial ?_
        rw [ha]
        nofun
  | postLoad count =>
      have hb : (s.threads i).holds = false := by rw [hpc]; rfl
      have ha : (s.threads i).sleeps = true → False := by rw [hpc]; nofun
      rw [hpc] at hready
      simp only [Semaphore.advance, hpc] at hs
      split at hs
      · rename_i hfast
        obtain ⟨hnonneg, hcount, hfits⟩ := hfast
        rw [s32_eq (by omega) (by omega)] at hfits
        cases hs
        exact h.goto hb rfl ⟨hnonneg, hcount, hfits⟩ fun hsleeps => (ha hsleeps).elim
      · split at hs
        · cases hs
          exact h.goto hb rfl trivial fun hsleeps => (ha hsleeps).elim
        · rename_i hcount
          cases hs
          exact h.goto hb rfl ⟨not_le.mp hcount, hready⟩ fun hsleeps => (ha hsleeps).elim
  | postCas count val =>
      have hb : (s.threads i).holds = false := by rw [hpc]; rfl
      have ha : (s.threads i).sleeps = false := by rw [hpc]; rfl
      rw [hpc] at hready
      obtain ⟨hnonneg, hcount, hfits⟩ := hready
      simp only [Semaphore.advance, hpc] at hs
      split at hs
      · rename_i hval
        cases hs
        rw [← hval]
        rw [← hval] at hnonneg hfits
        exact h.add hb ha hcount hnonneg hfits hmax _
      · cases hs
        apply h.goto hb rfl
        · exact ⟨hcount, by omega⟩
        · rw [ha]
          nofun
  | postLock count =>
      rw [hpc] at hready
      simp only [Semaphore.advance, hpc] at hs
      refine h.lock hs rfl hready rfl rfl ?_
      rw [hpc]
      nofun
  | postAdd count => exact h.post hpc hlow hmax hs
  | postWake toAwake => exact h.wake hpc hs
  | failed =>
      rw [hpc] at hready
      exact hready.elim

end Advance

section Runs

variable [Fintype ι] (hthreads : Fintype.card ι ≤ idCount) (hc : c.Accepted)
include hthreads hc

theorem Invariant.step (h : Invariant c s) (hs : Step c s s') : Invariant c s' := by
  cases hs with
  | call i result call hidle htyped =>
      have hb : (s.threads i).holds = false := by rw [hidle]; rfl
      have ha : (s.threads i).sleeps = true → False := by rw [hidle]; nofun
      cases call with
      | wait timeout => exact h.goto hb rfl trivial fun hsleeps => (ha hsleeps).elim
      | trywait => exact h.goto hb rfl trivial fun hsleeps => (ha hsleeps).elim
      | post count => exact h.goto hb rfl htyped.2 fun hsleeps => (ha hsleeps).elim
  | run i prio s' hrun => exact h.advance hthreads hc hrun
  | expire i hparked =>
      apply h.goto
      · rw [hparked]
        rfl
      · rfl
      · trivial
      · intro _
        exact Or.inl rfl

theorem Invariant.reachable (h : Reachable c s) : Invariant c s :=
  invariant_of_reachable (Invariant.start hc) (fun _ _ hinv hs => hinv.step hthreads hc hs) h

-- In every run: the bound, the queue while the mutex is free, conservation, and no failed check.
theorem semaphore_invariant (h : Reachable c s) :
    s.val ≤ c.max ∧
      (s.mutex = none → (s.sq.length : Int) = max 0 (-s.val)) ∧
      c.initial + s.posts - s.waits = s.val + s.queued ∧
      ∀ i, s.threads i ≠ .failed := by
  have hinv := Invariant.reachable hthreads hc h
  refine ⟨hinv.val_le, fun hm => (hinv.free hm).1, hinv.conserved, ?_⟩
  intro i hfailed
  have hready := hinv.ready i
  rw [hfailed] at hready
  exact hready

end Runs

-- The only thread of a process waits at a value of zero and is in the queue.
theorem semaphore_invariant_asleep :
    ∃ s : State (Fin 1), Reachable ⟨.fifo, 1, 0⟩ s ∧ s.sq = [0] ∧
      (s.mutex = none → (s.sq.length : Int) = max 0 (-s.val)) ∧ 0 + s.posts - s.waits = s.val + 1 := by
  have hprio : Fin 1 → Prio := fun _ => ⟨0, 0⟩
  have hcall : Reachable ⟨.fifo, 1, 0⟩ ((State.start ⟨.fifo, 1, 0⟩).goto (0 : Fin 1) (.waitLoad false)) :=
    .single (.call 0 none (.wait false) rfl trivial)
  have hload := hcall.tail (.run 0 hprio _ rfl)
  have hlock := hload.tail (.run 0 hprio _ rfl)
  have hdec := hlock.tail (.run 0 hprio _ rfl)
  have hemplace := hdec.tail (.run 0 hprio _ rfl)
  obtain ⟨-, hfree, hcount, -⟩ := semaphore_invariant (c := ⟨.fifo, 1, 0⟩) (by decide)
    ⟨by decide, by decide, by decide, by decide⟩ hemplace
  exact ⟨_, hemplace, rfl, hfree, hcount⟩

end Rpcsx.Lv2.Semaphore
