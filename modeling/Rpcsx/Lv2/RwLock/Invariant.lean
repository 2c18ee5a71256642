import Mathlib.Algebra.BigOperators.Group.Finset.Basic
import Mathlib.Algebra.Order.BigOperators.Group.Finset
import Mathlib.Data.Fintype.Card
import Rpcsx.Data.Interleaving
import Rpcsx.Lv2.RwLock

namespace Rpcsx.Lv2.RwLock

open Data.Interleaving

section Bits

variable {owner : Int}

theorem waits_eq_false : waits owner = false ↔ owner % 2 = 0 := by
  unfold waits
  rw [decide_eq_false_iff_not]
  omega

theorem waits_eq_true : waits owner = true ↔ owner % 2 = 1 := by
  unfold waits
  rw [decide_eq_true_iff]

theorem shared_iff : shared owner = true ↔ owner ≤ 0 ∧ owner % 2 = 0 := by
  unfold shared
  rw [decide_eq_true_iff, waits_eq_false]

end Bits

section Counts

variable {ι : Type} [DecidableEq ι] (locks : ι → Nat) (i j : ι)

theorem le_given : locks j ≤ given locks i j := by
  unfold given
  by_cases h : j = i
  · rw [h, Function.update_self]
    omega
  · rw [Function.update_of_ne h]

theorem returned_of_ne {i j : ι} (h : j ≠ i) : returned locks i j = locks j :=
  Function.update_of_ne h _ _

theorem le_givenAll (cpus : List ι) : locks j ≤ givenAll locks cpus j := by
  unfold givenAll
  induction cpus generalizing locks with
  | nil => exact Nat.le_refl _
  | cons cpu cpus ih => exact Nat.le_trans (le_given locks cpu j) (ih (given locks cpu))

variable [Fintype ι]

theorem sum_given : ∑ j, given locks i j = (∑ j, locks j) + 1 := by
  have hupdate := total_update (fun n : Nat => n) locks i (locks i + 1)
  have htotal := total_eq (fun n : Nat => n) locks i
  simp only [total] at hupdate htotal
  unfold given
  omega

theorem sum_returned (h : 0 < locks i) : (∑ j, returned locks i j) + 1 = ∑ j, locks j := by
  have hupdate := total_update (fun n : Nat => n) locks i (locks i - 1)
  have htotal := total_eq (fun n : Nat => n) locks i
  simp only [total] at hupdate htotal
  unfold returned
  omega

omit [DecidableEq ι] in
theorem eq_zero_of_sum (h : ∑ j, locks j = 0) : locks i = 0 :=
  Finset.sum_eq_zero_iff.mp h i (Finset.mem_univ i)

theorem le_sum : locks i ≤ ∑ j, locks j := le_total (fun n : Nat => n) locks i

end Counts

variable {ι : Type} [DecidableEq ι] [Fintype ι]

-- What `owner` says of the locks that are held.
inductive Encodes (id : ι → Int) (owner : Int) (reads writes : ι → Nat) : Prop where
  | written (writer : ι) (howner : owner / 2 = id writer) (hreads : ∀ j, reads j = 0)
      (hwrites : ∀ j, writes j = if j = writer then 1 else 0)
  | read (howner : owner ≤ 0) (hreads : ((∑ j, reads j : Nat) : Int) = -(owner / 2))
      (hwrites : ∀ j, writes j = 0)

-- The ids of threads.
structure Ids (id : ι → Int) : Prop where
  pos : ∀ i, 0 < id i
  inj : Function.Injective id

namespace Encodes

variable {id : ι → Int} {owner : Int} {reads writes : ι → Nat} {i : ι}

theorem zero : Encodes id 0 (fun _ => 0) fun _ => 0 := by
  apply read
  · exact Int.le_refl 0
  · rw [Finset.sum_const_zero]
    rfl
  · intro _
    rfl

-- The wait bit is not part of what is encoded.
theorem wait (h : Encodes id owner reads writes) {owner' : Int}
    (hbit : owner' / 2 = owner / 2) (hzero : owner = 0 → owner' = 0) :
    Encodes id owner' reads writes := by
  cases h with
  | written writer howner hreads hwrites =>
      refine written writer ?_ hreads hwrites
      rw [hbit, howner]
  | read howner hreads hwrites =>
      refine read ?_ ?_ hwrites
      · omega
      · rw [hreads, hbit]

theorem setWait (h : Encodes id owner reads writes) (hne : owner ≠ 0) :
    Encodes id (setWait owner) reads writes := by
  apply h.wait
  · unfold RwLock.setWait
    omega
  · intro hzero
    exact absurd hzero hne

theorem clearWait (h : Encodes id owner reads writes) : Encodes id (clearWait owner) reads writes := by
  apply h.wait
  · unfold RwLock.clearWait
    omega
  · intro hzero
    rw [hzero]
    rfl

theorem giveRead (h : Encodes id owner reads writes) (hids : Ids id) (hle : owner ≤ 0) (i : ι) :
    Encodes id (owner - 2) (given reads i) writes := by
  cases h with
  | written writer howner _ _ =>
      have hpos := hids.pos writer
      omega
  | read howner hreads hwrites =>
      refine read ?_ ?_ hwrites
      · omega
      · rw [sum_given]
        omega

theorem giveReads (h : Encodes id owner reads writes) (hids : Ids id) (hle : owner ≤ 0)
    (cpus : List ι) : Encodes id (owner - 2 * cpus.length) (givenAll reads cpus) writes := by
  unfold givenAll
  induction cpus generalizing owner reads with
  | nil => simpa using h
  | cons cpu cpus ih =>
      have hrest := ih (h.giveRead hids hle cpu) (by omega)
      have howner : owner - 2 - 2 * (cpus.length : Int) = owner - 2 * ((cpu :: cpus).length : Nat) := by
        rw [List.length_cons]
        omega
      rw [howner] at hrest
      exact hrest

-- The read locks of a thread are among those that are counted.
theorem neg_of_reads (h : Encodes id owner reads writes) (hi : 0 < reads i) : owner < 0 := by
  cases h with
  | written writer _ hreads _ =>
      rw [hreads i] at hi
      exact absurd hi (Nat.lt_irrefl 0)
  | read howner hreads _ =>
      have hle := le_sum reads i
      omega

theorem returnRead (h : Encodes id owner reads writes) (hi : 0 < reads i) {owner' : Int}
    (hle : owner' ≤ 0) (hhalf : owner' / 2 = owner / 2 + 1) :
    Encodes id owner' (returned reads i) writes := by
  cases h with
  | written writer _ hreads _ =>
      rw [hreads i] at hi
      exact absurd hi (Nat.lt_irrefl 0)
  | read howner hreads hwrites =>
      have hsum := sum_returned reads i hi
      exact read hle (by omega) hwrites

theorem giveWrite (h : Encodes id 0 reads writes) (hids : Ids id) (i : ι) (bit : Int)
    (hbit : 0 ≤ bit ∧ bit ≤ 1) : Encodes id (2 * id i + bit) reads (given writes i) := by
  cases h with
  | written writer howner _ _ =>
      have hpos := hids.pos writer
      omega
  | read howner hreads hwrites =>
      have hsum : ∑ j, reads j = 0 := by omega
      refine written i (by omega) (fun j => eq_zero_of_sum reads j hsum) ?_
      intro j
      unfold given
      by_cases hj : j = i
      · rw [hj, Function.update_self, hwrites, if_pos rfl]
      · rw [Function.update_of_ne hj, hwrites, if_neg hj]

theorem writer_of_writes (h : Encodes id owner reads writes) (hi : 0 < writes i) :
    owner / 2 = id i ∧ (∀ j, reads j = 0) ∧ ∀ j, writes j = if j = i then 1 else 0 := by
  cases h with
  | written writer howner hreads hwrites =>
      have hwriter : i = writer := by
        by_contra hne
        rw [hwrites i, if_neg hne] at hi
        exact absurd hi (Nat.lt_irrefl 0)
      subst hwriter
      exact ⟨howner, hreads, hwrites⟩
  | read _ _ hwrites =>
      rw [hwrites i] at hi
      exact absurd hi (Nat.lt_irrefl 0)

theorem returnWrite (h : Encodes id owner reads writes) (hi : 0 < writes i) :
    Encodes id 0 reads (returned writes i) := by
  obtain ⟨_, hreads, hwrites⟩ := h.writer_of_writes hi
  apply read
  · exact Int.le_refl 0
  · rw [Finset.sum_eq_zero fun j _ => hreads j]
    rfl
  · intro j
    unfold returned
    by_cases hj : j = i
    · rw [hj, Function.update_self, hwrites, if_pos rfl]
    · rw [Function.update_of_ne hj, hwrites, if_neg hj]

-- The id in `owner` is that of the thread with the write lock.
theorem writes_of_owner (h : Encodes id owner reads writes) (hids : Ids id)
    (howner : owner / 2 = id i) : 0 < writes i := by
  have hpos := hids.pos i
  cases h with
  | written writer hwriter _ hwrites =>
      have heq : i = writer := hids.inj (by rw [← howner, hwriter])
      rw [hwrites i, if_pos heq]
      exact Nat.zero_lt_one
  | read hle _ _ => omega

end Encodes

end Rpcsx.Lv2.RwLock

namespace Rpcsx.Lv2.RwLock

open Data.Interleaving

variable {ι : Type} [DecidableEq ι] [Fintype ι]

namespace Pc

variable {pc : Pc ι} {reads writes reads' writes' : Nat} {owner owner' : Int} {rq wq : List ι}

-- What a thread knows of its local variables and of the locks it has.
def Ready (reads writes : Nat) : Pc ι → Prop
  | rlockCas _ val => val ≤ 0 ∧ val % 2 = 0
  | runlockCas val => val < 0 ∧ val % 2 = 0 ∧ 0 < reads
  | runlockLoad | runlockLock | runlockFetch | runlockSchedule | runlockGrant _ => 0 < reads
  | wunlockLock | wunlockSchedule | wunlockGrant _ | wunlockPop _ | wunlockRelease _
  | wunlockZero => 0 < writes
  | failed => False
  | _ => True

-- What the thread in the section of the mutex has left in the object.
def Settled (owner : Int) (rq wq : List ι) : Pc ι → Prop
  | rlockEmplace _ => owner % 2 = 1 ∧ (owner < 0 → wq ≠ [])
  | wlockEmplace _ _ | wlockRepair => owner % 2 = 1
  | runlockSchedule => owner = -1 ∧ wq ≠ []
  | runlockGrant _ => owner = -1
  | runlockZero | runlockEnsure => False
  | wlockPop _ => owner % 2 = 1 ∧ owner < 0 ∧ wq = []
  | wlockAdd _ => owner % 2 = 1 ∧ owner < 0 ∧ rq = [] ∧ wq = []
  | wlockClear | wunlockRelease _ | wunlockZero => rq = [] ∧ wq = []
  | wunlockGrant _ => True
  | wunlockPop _ => wq = []
  | _ => owner % 2 = 1 → owner < 0 → wq ≠ []

omit [DecidableEq ι] [Fintype ι]

theorem Ready.mono (h : pc.Ready reads writes) (hreads : reads ≤ reads') (hwrites : writes ≤ writes') :
    pc.Ready reads' writes' := by
  cases pc <;> simp only [Ready] at h ⊢ <;> omega

theorem settled_of_not_holds (h : pc.holds = false) :
    pc.Settled owner rq wq ↔ (idle none : Pc ι).Settled owner rq wq := by
  cases pc <;> first | exact Iff.rfl | cases h

-- Only the holder of the mutex changes a value with the wait bit.
theorem Settled.even (h : pc.Settled owner rq wq) (heven : owner % 2 = 0) (heven' : owner' % 2 = 0) :
    pc.Settled owner' rq wq := by
  cases pc <;> simp only [Settled] at h ⊢ <;> first | exact h | omega

end Pc

structure Invariant (id : ι → Int) (s : State ι) : Prop where
  inside : Exclusive Pc.holds s.threads s.mutex
  ready : ∀ i, (s.threads i).Ready (s.reads i) (s.writes i)
  encodes : Encodes id s.owner s.reads s.writes
  queued : s.rq ≠ [] ∨ s.wq ≠ [] → s.owner % 2 = 1
  free : s.mutex = none → (.idle none : Pc ι).Settled s.owner s.rq s.wq
  settled : ∀ i, s.mutex = some i → (s.threads i).Settled s.owner s.rq s.wq

variable {id : ι → Int} {s s' : State ι} {i : ι}

section Frame

variable (pc : Pc ι)

-- A step outside of the mutex: it leaves the queues alone, and a value with the wait bit.
theorem Invariant.outside (h : Invariant id s) (hbefore : (s.threads i).holds = false)
    (hpc : pc.holds = false) (hready : pc.Ready (s'.reads i) (s'.writes i))
    (hothers : ∀ j, j ≠ i → s'.reads j = s.reads j ∧ s'.writes j = s.writes j)
    (hthreads : s'.threads = Function.update s.threads i pc) (hmutex : s'.mutex = s.mutex)
    (hrq : s'.rq = s.rq) (hwq : s'.wq = s.wq) (hencodes : Encodes id s'.owner s'.reads s'.writes)
    (howner : s'.owner = s.owner ∨ s.owner % 2 = 0 ∧ s'.owner % 2 = 0) : Invariant id s' := by
  have hsettled {pc : Pc ι} (hs : pc.Settled s.owner s.rq s.wq) :
      pc.Settled s'.owner s'.rq s'.wq := by
    rw [hrq, hwq]
    rcases howner with heq | ⟨heven, heven'⟩
    · rw [heq]
      exact hs
    · exact hs.even heven heven'
  refine ⟨?_, ?_, hencodes, ?_, ?_, ?_⟩
  · rw [hthreads, hmutex]
    exact h.inside.outside hbefore hpc
  · rw [hthreads]
    refine (Function.forall_update_iff s.threads fun j pc => pc.Ready (s'.reads j) (s'.writes j)).mpr ?_
    refine ⟨hready, fun j hj => ?_⟩
    rw [(hothers j hj).1, (hothers j hj).2]
    exact h.ready j
  · intro hq
    rw [hrq, hwq] at hq
    have hodd := h.queued hq
    omega
  · intro hm
    rw [hmutex] at hm
    exact hsettled (h.free hm)
  · intro j hm
    rw [hmutex] at hm
    rw [hthreads, Function.update_of_ne (h.inside.ne_of_not_holds hbefore hm)]
    exact hsettled (h.settled j hm)

-- A step of the thread that has the mutex, takes it or gives it back.
theorem Invariant.owner (h : Invariant id s) (hmine : s.mutex = none ∨ s.mutex = some i)
    (hready : pc.Ready (s'.reads i) (s'.writes i))
    (hothers : ∀ j, j ≠ i → s.reads j ≤ s'.reads j ∧ s.writes j ≤ s'.writes j)
    (hthreads : s'.threads = Function.update s.threads i pc)
    (hmutex : s'.mutex = if pc.holds then some i else none)
    (hencodes : Encodes id s'.owner s'.reads s'.writes)
    (hqueued : s'.rq ≠ [] ∨ s'.wq ≠ [] → s'.owner % 2 = 1)
    (hsettled : pc.Settled s'.owner s'.rq s'.wq) : Invariant id s' := by
  refine ⟨?_, ?_, hencodes, hqueued, ?_, ?_⟩
  · rw [hthreads, hmutex]
    exact h.inside.owner hmine
  · rw [hthreads]
    refine (Function.forall_update_iff s.threads fun j pc => pc.Ready (s'.reads j) (s'.writes j)).mpr ?_
    exact ⟨hready, fun j hj => (h.ready j).mono (hothers j hj).1 (hothers j hj).2⟩
  · intro hm
    rw [hmutex] at hm
    cases hpc : pc.holds with
    | true =>
        rw [hpc] at hm
        cases hm
    | false => exact (Pc.settled_of_not_holds hpc).mp hsettled
  · intro j hm
    rw [hmutex] at hm
    cases hpc : pc.holds with
    | true =>
        rw [hpc] at hm
        cases hm
        rw [hthreads, Function.update_self]
        exact hsettled
    | false =>
        rw [hpc] at hm
        cases hm

end Frame

section Moves

variable {pc : Pc ι}

theorem Invariant.start : Invariant id (State.start (ι := ι)) := by
  refine ⟨?_, ?_, Encodes.zero, ?_, ?_, ?_⟩
  · intro i
    exact ⟨nofun, nofun⟩
  · intro i
    exact trivial
  · intro hq
    rcases hq with hq | hq
    · exact absurd rfl hq
    · exact absurd rfl hq
  · intro _ hodd
    cases hodd
  · nofun

theorem Invariant.goto (h : Invariant id s) (hbefore : (s.threads i).holds = false)
    (hpc : pc.holds = false) (hready : pc.Ready (s.reads i) (s.writes i)) :
    Invariant id (s.goto i pc) :=
  h.outside pc hbefore hpc hready (fun _ _ => ⟨rfl, rfl⟩) rfl rfl rfl rfl h.encodes (Or.inl rfl)

-- The mutex is taken.
theorem Invariant.lock (h : Invariant id s) (hs : s.lock i pc = some s') (hpc : pc.holds = true)
    (hready : pc.Ready (s.reads i) (s.writes i))
    (hsettled : (.idle none : Pc ι).Settled s.owner s.rq s.wq → pc.Settled s.owner s.rq s.wq) :
    Invariant id s' := by
  unfold State.lock at hs
  split at hs
  · rename_i hm
    cases hs
    refine h.owner pc (Or.inl hm) hready (fun _ _ => ⟨Nat.le_refl _, Nat.le_refl _⟩) rfl ?_
      h.encodes h.queued (hsettled (h.free hm))
    rw [hpc]
    rfl
  · cases hs

-- A step inside of the mutex that changes nothing but the queues.
theorem Invariant.inner (h : Invariant id s) (pc : Pc ι) (hm : s.mutex = some i)
    (hready : pc.Ready (s.reads i) (s.writes i))
    (hthreads : s'.threads = Function.update s.threads i pc)
    (hmutex : s'.mutex = if pc.holds then some i else none) (howner : s'.owner = s.owner)
    (hreads : s'.reads = s.reads) (hwrites : s'.writes = s.writes)
    (hqueued : s'.rq ≠ [] ∨ s'.wq ≠ [] → s.owner % 2 = 1)
    (hsettled : pc.Settled s.owner s'.rq s'.wq) : Invariant id s' := by
  refine h.owner pc (Or.inr hm) ?_ ?_ hthreads hmutex ?_ ?_ ?_
  · rw [hreads, hwrites]
    exact hready
  · intro j _
    rw [hreads, hwrites]
    exact ⟨Nat.le_refl _, Nat.le_refl _⟩
  · rw [howner, hreads, hwrites]
    exact h.encodes
  · rw [howner]
    exact hqueued
  · rw [howner]
    exact hsettled

-- The threads in front of the compare-and-swaps of the readers.
theorem Invariant.giveRead (h : Invariant id s) (hids : Ids id)
    (hbefore : (s.threads i).holds = false) (hle : s.owner ≤ 0) (heven : s.owner % 2 = 0)
    (code : Option Code) :
    Invariant id { s.goto i (.idle code) with owner := s.owner - 2, reads := given s.reads i } := by
  refine h.outside (.idle code) hbefore rfl trivial ?_ rfl rfl rfl rfl
    (h.encodes.giveRead hids hle i) (Or.inr ⟨heven, ?_⟩)
  · intro j hj
    exact ⟨Function.update_of_ne hj _ _, rfl⟩
  · change (s.owner - 2) % 2 = 0
    omega

theorem Invariant.returnRead (h : Invariant id s) (hbefore : (s.threads i).holds = false)
    (hneg : s.owner < 0) (heven : s.owner % 2 = 0) (hi : 0 < s.reads i) (code : Option Code) :
    Invariant id
      { s.goto i (.idle code) with owner := s.owner + 2, reads := returned s.reads i } := by
  refine h.outside (.idle code) hbefore rfl trivial ?_ rfl rfl rfl rfl
    (h.encodes.returnRead hi ?_ ?_) (Or.inr ⟨heven, ?_⟩)
  · intro j hj
    exact ⟨returned_of_ne _ hj, rfl⟩
  · change s.owner + 2 ≤ 0
    omega
  · change (s.owner + 2) / 2 = s.owner / 2 + 1
    omega
  · change (s.owner + 2) % 2 = 0
    omega

-- The compare-and-swaps of the writers.
theorem Invariant.giveWrite (h : Invariant id s) (hids : Ids id)
    (hbefore : (s.threads i).holds = false) (hzero : s.owner = 0) (code : Option Code) :
    Invariant id { s.goto i (.idle code) with owner := 2 * id i, writes := given s.writes i } := by
  have hencodes := h.encodes
  rw [hzero] at hencodes
  have hgiven := hencodes.giveWrite hids i 0 ⟨Int.le_refl 0, by decide⟩
  rw [Int.add_zero] at hgiven
  refine h.outside (.idle code) hbefore rfl trivial ?_ rfl rfl rfl rfl hgiven (Or.inr ⟨?_, ?_⟩)
  · intro j hj
    exact ⟨rfl, Function.update_of_ne hj _ _⟩
  · rw [hzero]
    rfl
  · change 2 * id i % 2 = 0
    omega

theorem Invariant.returnWrite (h : Invariant id s) (hids : Ids id)
    (hbefore : (s.threads i).holds = false) (howner : s.owner = 2 * id i) (code : Option Code) :
    Invariant id { s.goto i (.idle code) with owner := 0, writes := returned s.writes i } := by
  have hi : 0 < s.writes i := h.encodes.writes_of_owner hids (by omega)
  refine h.outside (.idle code) hbefore rfl trivial ?_ rfl rfl rfl rfl
    (h.encodes.returnWrite hi) (Or.inr ⟨?_, rfl⟩)
  · intro j hj
    exact ⟨rfl, returned_of_ne _ hj⟩
  · omega

end Moves

end Rpcsx.Lv2.RwLock
