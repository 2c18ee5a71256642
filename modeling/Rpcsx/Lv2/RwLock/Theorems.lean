import Rpcsx.Lv2.RwLock.Invariant

namespace Rpcsx.Lv2.RwLock

open Data.Interleaving

variable {ι : Type} [DecidableEq ι] [Fintype ι] {id : ι → Int} {protocol : Protocol}
  {prio : ι → Prio} {s s' : State ι} {i : ι}

section Readers

-- sys_rwlock_rlock inside of the mutex.
theorem Invariant.rlockFetch (h : Invariant id s) (hids : Ids id) {timeout : Bool}
    (hpc : s.threads i = .rlockFetch timeout) (hs : advance id protocol prio s i = some s') :
    Invariant id s' := by
  have hm : s.mutex = some i := (h.inside i).mp (by rw [hpc]; rfl)
  have hsettled := h.settled i hm
  rw [hpc] at hsettled
  simp only [advance, hpc] at hs
  split at hs
  · rename_i hshared
    obtain ⟨hle, heven⟩ := shared_iff.mp hshared
    cases hs
    refine h.owner (.idle (some .ok)) (Or.inr hm) trivial ?_ rfl rfl
      (h.encodes.giveRead hids hle i) ?_ ?_
    · intro j _
      exact ⟨le_given _ _ _, Nat.le_refl _⟩
    · intro hq
      have hodd := h.queued hq
      omega
    · intro hodd
      change (s.owner - 2) % 2 = 1 at hodd
      omega
  · rename_i hshared
    rw [shared_iff] at hshared
    have hne : s.owner ≠ 0 := by omega
    cases hs
    refine h.owner (.rlockEmplace timeout) (Or.inr hm) trivial ?_ rfl hm
      (h.encodes.setWait hne) ?_ ?_
    · intro j _
      exact ⟨Nat.le_refl _, Nat.le_refl _⟩
    · intro _
      change setWait s.owner % 2 = 1
      unfold setWait
      omega
    · constructor
      · change setWait s.owner % 2 = 1
        unfold setWait
        omega
      · intro hneg
        change setWait s.owner < 0 at hneg
        unfold setWait at hneg
        exact hsettled (by omega) (by omega)

theorem Invariant.rlockEmplace (h : Invariant id s) {timeout : Bool}
    (hpc : s.threads i = .rlockEmplace timeout) (hs : advance id protocol prio s i = some s') :
    Invariant id s' := by
  have hm : s.mutex = some i := (h.inside i).mp (by rw [hpc]; rfl)
  have hsettled := h.settled i hm
  rw [hpc] at hsettled
  obtain ⟨hodd, hwq⟩ := hsettled
  simp only [advance, hpc] at hs
  cases hs
  exact h.inner (.rlockParked timeout) hm trivial rfl rfl rfl rfl rfl (fun _ => hodd) fun _ => hwq

theorem Invariant.rlockUnqueue (h : Invariant id s) (hpc : s.threads i = .rlockUnqueue)
    (hs : advance id protocol prio s i = some s') : Invariant id s' := by
  have hm : s.mutex = some i := (h.inside i).mp (by rw [hpc]; rfl)
  have hsettled := h.settled i hm
  rw [hpc] at hsettled
  simp only [advance, hpc] at hs
  split at hs
  · cases hs
    exact h.inner (.idle (some .ok)) hm trivial rfl rfl rfl rfl rfl h.queued hsettled
  · rename_i rq hsome
    obtain ⟨hmem, _⟩ := unqueue_eq_some hsome
    cases hs
    exact h.inner (.idle (some .etimedout)) hm trivial rfl rfl rfl rfl rfl
      (fun _ => h.queued (Or.inl (List.ne_nil_of_mem hmem))) hsettled

-- sys_rwlock_runlock inside of the mutex: a reader is not the last one, or a writer waits.
theorem Invariant.runlockFetch (h : Invariant id s) (hpc : s.threads i = .runlockFetch)
    (hs : advance id protocol prio s i = some s') : Invariant id s' := by
  have hm : s.mutex = some i := (h.inside i).mp (by rw [hpc]; rfl)
  have hsettled := h.settled i hm
  have hready := h.ready i
  rw [hpc] at hsettled hready
  have hneg := h.encodes.neg_of_reads hready
  simp only [advance, hpc] at hs
  split at hs
  · rename_i hlt
    cases hs
    refine h.owner (.idle (some .ok)) (Or.inr hm) trivial ?_ rfl rfl
      (h.encodes.returnRead hready ?_ ?_) ?_ ?_
    · intro j hj
      exact ⟨Nat.le_of_eq (returned_of_ne _ hj).symm, Nat.le_refl _⟩
    · change s.owner + 2 ≤ 0
      omega
    · change (s.owner + 2) / 2 = s.owner / 2 + 1
      omega
    · intro hq
      have hodd := h.queued hq
      change (s.owner + 2) % 2 = 1
      omega
    · intro hodd _
      change (s.owner + 2) % 2 = 1 at hodd
      exact hsettled (by omega) hneg
  · split at hs
    · omega
    · have howner : s.owner = -1 := by omega
      cases hs
      refine h.inner .runlockSchedule hm hready rfl hm rfl rfl rfl h.queued ⟨howner, ?_⟩
      exact hsettled (by rw [howner]; rfl) hneg

theorem Invariant.runlockSchedule (h : Invariant id s) (hpc : s.threads i = .runlockSchedule)
    (hs : advance id protocol prio s i = some s') : Invariant id s' := by
  have hm : s.mutex = some i := (h.inside i).mp (by rw [hpc]; rfl)
  have hsettled := h.settled i hm
  have hready := h.ready i
  rw [hpc] at hsettled hready
  obtain ⟨howner, hwq⟩ := hsettled
  simp only [advance, hpc] at hs
  split at hs
  · rename_i cpu wq _
    cases hs
    refine h.inner (.runlockGrant cpu) hm hready rfl hm rfl rfl rfl ?_ howner
    intro _
    rw [howner]
    rfl
  · rename_i hnone
    exact absurd (schedule_eq_none.mp hnone) hwq

omit [DecidableEq ι] [Fintype ι] in
theorem waitBit_bounds (wq rq : List ι) : 0 ≤ waitBit wq rq ∧ waitBit wq rq ≤ 1 := by
  unfold waitBit
  split <;> decide

omit [DecidableEq ι] [Fintype ι] in
theorem waitBit_eq_one {wq rq : List ι} (h : rq ≠ [] ∨ wq ≠ []) : waitBit wq rq = 1 := by
  unfold waitBit
  rw [if_neg]
  rcases h with h | h
  · exact fun hboth => h hboth.2
  · exact fun hboth => h hboth.1

-- The lock goes to a writer from the queue.
theorem Invariant.grant (h : Invariant id s) (hids : Ids id) (hm : s.mutex = some i) {cpu : ι}
    {reads writes : ι → Nat} (hencodes : Encodes id 0 reads writes)
    (hothers : ∀ j, j ≠ i → s.reads j ≤ reads j ∧ s.writes j ≤ writes j) (code : Option Code) :
    Invariant id { s.unlock i (.idle code) with
      owner := 2 * id cpu + waitBit s.wq s.rq, reads := reads, writes := given writes cpu } := by
  have hpos := hids.pos cpu
  have hbit := waitBit_bounds s.wq s.rq
  refine h.owner (.idle code) (Or.inr hm) trivial ?_ rfl rfl
    (hencodes.giveWrite hids cpu _ hbit) ?_ ?_
  · intro j hj
    exact ⟨(hothers j hj).1, Nat.le_trans (hothers j hj).2 (le_given _ _ _)⟩
  · intro hq
    have hone : waitBit s.wq s.rq = 1 := waitBit_eq_one hq
    change (2 * id cpu + waitBit s.wq s.rq) % 2 = 1
    omega
  · intro _ hneg
    change 2 * id cpu + waitBit s.wq s.rq < 0 at hneg
    omega

theorem Invariant.runlockGrant (h : Invariant id s) (hids : Ids id) {cpu : ι}
    (hpc : s.threads i = .runlockGrant cpu) (hs : advance id protocol prio s i = some s') :
    Invariant id s' := by
  have hm : s.mutex = some i := (h.inside i).mp (by rw [hpc]; rfl)
  have howner := h.settled i hm
  have hready := h.ready i
  rw [hpc] at howner hready
  simp only [advance, hpc] at hs
  cases hs
  apply h.grant hids hm
  · apply h.encodes.returnRead hready (Int.le_refl 0)
    rw [howner]
    rfl
  · intro j hj
    exact ⟨Nat.le_of_eq (returned_of_ne _ hj).symm, Nat.le_refl _⟩

end Readers

section Writers

-- sys_rwlock_wlock inside of the mutex.
theorem Invariant.wlockFetch (h : Invariant id s) (hids : Ids id) {timeout : Bool}
    (hpc : s.threads i = .wlockFetch timeout) (hs : advance id protocol prio s i = some s') :
    Invariant id s' := by
  have hm : s.mutex = some i := (h.inside i).mp (by rw [hpc]; rfl)
  simp only [advance, hpc] at hs
  split at hs
  · rename_i hzero
    have hpos := hids.pos i
    have hencodes := h.encodes
    rw [hzero] at hencodes
    have hgiven := hencodes.giveWrite hids i 0 ⟨Int.le_refl 0, by decide⟩
    rw [Int.add_zero] at hgiven
    cases hs
    refine h.owner (.idle (some .ok)) (Or.inr hm) trivial ?_ rfl rfl hgiven ?_ ?_
    · intro j _
      exact ⟨Nat.le_refl _, le_given _ _ _⟩
    · intro hq
      have hodd := h.queued hq
      omega
    · intro _ hneg
      change 2 * id i < 0 at hneg
      omega
  · rename_i hne
    have hodd : setWait s.owner % 2 = 1 := by
      unfold setWait
      omega
    cases hs
    refine h.owner (.wlockEmplace timeout s.owner) (Or.inr hm) trivial ?_ rfl hm
      (h.encodes.setWait hne) (fun _ => hodd) hodd
    intro j _
    exact ⟨Nat.le_refl _, Nat.le_refl _⟩

theorem Invariant.wlockEmplace (h : Invariant id s) {timeout : Bool} {old : Int}
    (hpc : s.threads i = .wlockEmplace timeout old) (hs : advance id protocol prio s i = some s') :
    Invariant id s' := by
  have hm : s.mutex = some i := (h.inside i).mp (by rw [hpc]; rfl)
  have hodd := h.settled i hm
  rw [hpc] at hodd
  simp only [advance, hpc] at hs
  split at hs
  · cases hs
    exact h.inner (.idle (some .edeadlk)) hm trivial rfl rfl rfl rfl rfl (fun _ => hodd)
      fun _ _ => List.cons_ne_nil _ _
  · cases hs
    exact h.inner (.wlockParked timeout) hm trivial rfl rfl rfl rfl rfl (fun _ => hodd)
      fun _ _ => List.cons_ne_nil _ _

theorem Invariant.wlockUnqueue (h : Invariant id s) (hpc : s.threads i = .wlockUnqueue)
    (hs : advance id protocol prio s i = some s') : Invariant id s' := by
  have hm : s.mutex = some i := (h.inside i).mp (by rw [hpc]; rfl)
  have hsettled := h.settled i hm
  rw [hpc] at hsettled
  simp only [advance, hpc] at hs
  split at hs
  · cases hs
    exact h.inner (.idle (some .ok)) hm trivial rfl rfl rfl rfl rfl h.queued hsettled
  · rename_i wq hsome
    obtain ⟨hmem, _⟩ := unqueue_eq_some hsome
    have hodd := h.queued (Or.inr (List.ne_nil_of_mem hmem))
    cases hs
    exact h.inner .wlockRepair hm trivial rfl hm rfl rfl rfl (fun _ => hodd) hodd

-- What a writer that timed out leaves: readers that wait for it alone are let in, and the wait bit
-- goes with the last thread.
theorem Invariant.wlockRepair (h : Invariant id s) (hpc : s.threads i = .wlockRepair)
    (hs : advance id protocol prio s i = some s') : Invariant id s' := by
  have hm : s.mutex = some i := (h.inside i).mp (by rw [hpc]; rfl)
  have hodd : s.owner % 2 = 1 := by
    have hsettled := h.settled i hm
    rw [hpc] at hsettled
    exact hsettled
  simp only [advance, hpc] at hs
  split at hs
  · rename_i hreaders
    obtain ⟨_, hwq, hneg⟩ := hreaders
    cases hs
    exact h.inner (.wlockPop []) hm trivial rfl hm rfl rfl rfl h.queued ⟨hodd, hneg, hwq⟩
  · rename_i hreaders
    split at hs
    · rename_i hempty
      cases hs
      exact h.inner .wlockClear hm trivial rfl hm rfl rfl rfl h.queued hempty
    · rename_i hempty
      cases hs
      refine h.inner (.idle (some .etimedout)) hm trivial rfl rfl rfl rfl rfl h.queued ?_
      intro _ hneg hwq
      change s.wq = [] at hwq
      by_cases hrq : s.rq = []
      · exact hempty ⟨hrq, hwq⟩
      · exact hreaders ⟨hrq, hwq, hneg⟩

theorem Invariant.wlockPop (h : Invariant id s) {cpus : List ι}
    (hpc : s.threads i = .wlockPop cpus) (hs : advance id protocol prio s i = some s') :
    Invariant id s' := by
  have hm : s.mutex = some i := (h.inside i).mp (by rw [hpc]; rfl)
  have hsettled := h.settled i hm
  rw [hpc] at hsettled
  obtain ⟨hodd, hneg, hwq⟩ := hsettled
  simp only [advance, hpc] at hs
  split at hs
  · rename_i cpu rq _
    cases hs
    exact h.inner (.wlockPop (cpu :: cpus)) hm trivial rfl hm rfl rfl rfl (fun _ => hodd)
      ⟨hodd, hneg, hwq⟩
  · rename_i hnone
    cases hs
    exact h.inner (.wlockAdd cpus) hm trivial rfl hm rfl rfl rfl h.queued
      ⟨hodd, hneg, schedule_eq_none.mp hnone, hwq⟩

-- With empty queues the wait bit is not set.
theorem Invariant.emptied (h : Invariant id s) (hm : s.mutex = some i) (hrq : s.rq = [])
    (hwq : s.wq = []) {owner : Int} {reads writes : ι → Nat}
    (hencodes : Encodes id owner reads writes) (heven : owner % 2 = 0)
    (hothers : ∀ j, j ≠ i → s.reads j ≤ reads j ∧ s.writes j ≤ writes j) (code : Option Code) :
    Invariant id { s.unlock i (.idle code) with
      owner := owner, reads := reads, writes := writes } := by
  refine h.owner (.idle code) (Or.inr hm) trivial hothers rfl rfl hencodes ?_ ?_
  · intro hq
    rcases hq with hq | hq
    · exact absurd hrq hq
    · exact absurd hwq hq
  · intro hodd
    change owner % 2 = 1 at hodd
    omega

theorem Invariant.wlockAdd (h : Invariant id s) (hids : Ids id) {cpus : List ι}
    (hpc : s.threads i = .wlockAdd cpus) (hs : advance id protocol prio s i = some s') :
    Invariant id s' := by
  have hm : s.mutex = some i := (h.inside i).mp (by rw [hpc]; rfl)
  have hsettled := h.settled i hm
  rw [hpc] at hsettled
  obtain ⟨_, hneg, hrq, hwq⟩ := hsettled
  simp only [advance, hpc] at hs
  cases hs
  apply h.emptied hm hrq hwq
  · exact (h.encodes.giveReads hids (by omega) cpus).clearWait
  · unfold clearWait
    omega
  · intro j _
    exact ⟨le_givenAll _ _ _, Nat.le_refl _⟩

theorem Invariant.wlockClear (h : Invariant id s) (hpc : s.threads i = .wlockClear)
    (hs : advance id protocol prio s i = some s') : Invariant id s' := by
  have hm : s.mutex = some i := (h.inside i).mp (by rw [hpc]; rfl)
  have hsettled := h.settled i hm
  rw [hpc] at hsettled
  simp only [advance, hpc] at hs
  cases hs
  apply h.emptied hm hsettled.1 hsettled.2 h.encodes.clearWait
  · unfold clearWait
    omega
  · intro j _
    exact ⟨Nat.le_refl _, Nat.le_refl _⟩

-- sys_rwlock_wunlock inside of the mutex.
theorem Invariant.wunlockSchedule (h : Invariant id s) (hpc : s.threads i = .wunlockSchedule)
    (hs : advance id protocol prio s i = some s') : Invariant id s' := by
  have hm : s.mutex = some i := (h.inside i).mp (by rw [hpc]; rfl)
  have hready := h.ready i
  rw [hpc] at hready
  simp only [advance, hpc] at hs
  split at hs
  · rename_i cpu wq hsome
    have hmem := (schedule_perm hsome).mem_iff.mpr List.mem_cons_self
    have hodd := h.queued (Or.inr (List.ne_nil_of_mem hmem))
    cases hs
    exact h.inner (.wunlockGrant cpu) hm hready rfl hm rfl rfl rfl (fun _ => hodd) trivial
  · rename_i hnone
    have hwq := schedule_eq_none.mp hnone
    split at hs
    · cases hs
      exact h.inner (.wunlockPop []) hm hready rfl hm rfl rfl rfl h.queued hwq
    · rename_i hrq
      cases hs
      exact h.inner .wunlockZero hm hready rfl hm rfl rfl rfl h.queued ⟨not_not.mp hrq, hwq⟩

theorem Invariant.wunlockGrant (h : Invariant id s) (hids : Ids id) {cpu : ι}
    (hpc : s.threads i = .wunlockGrant cpu) (hs : advance id protocol prio s i = some s') :
    Invariant id s' := by
  have hm : s.mutex = some i := (h.inside i).mp (by rw [hpc]; rfl)
  have hready := h.ready i
  rw [hpc] at hready
  simp only [advance, hpc] at hs
  cases hs
  apply h.grant hids hm (h.encodes.returnWrite hready)
  intro j hj
  exact ⟨Nat.le_refl _, Nat.le_of_eq (returned_of_ne _ hj).symm⟩

theorem Invariant.wunlockPop (h : Invariant id s) {cpus : List ι}
    (hpc : s.threads i = .wunlockPop cpus) (hs : advance id protocol prio s i = some s') :
    Invariant id s' := by
  have hm : s.mutex = some i := (h.inside i).mp (by rw [hpc]; rfl)
  have hwq := h.settled i hm
  have hready := h.ready i
  rw [hpc] at hwq hready
  simp only [advance, hpc] at hs
  split at hs
  · rename_i cpu rq hsome
    have hmem := (schedule_perm hsome).mem_iff.mpr List.mem_cons_self
    have hodd := h.queued (Or.inl (List.ne_nil_of_mem hmem))
    cases hs
    exact h.inner (.wunlockPop (cpu :: cpus)) hm hready rfl hm rfl rfl rfl (fun _ => hodd) hwq
  · rename_i hnone
    cases hs
    exact h.inner (.wunlockRelease cpus) hm hready rfl hm rfl rfl rfl h.queued
      ⟨schedule_eq_none.mp hnone, hwq⟩

theorem Invariant.wunlockRelease (h : Invariant id s) (hids : Ids id) {cpus : List ι}
    (hpc : s.threads i = .wunlockRelease cpus) (hs : advance id protocol prio s i = some s') :
    Invariant id s' := by
  have hm : s.mutex = some i := (h.inside i).mp (by rw [hpc]; rfl)
  have hsettled := h.settled i hm
  have hready := h.ready i
  rw [hpc] at hsettled hready
  have hencodes := (h.encodes.returnWrite hready).giveReads hids (Int.le_refl 0) cpus
  have howner : (0 : Int) - 2 * cpus.length = -2 * cpus.length := by omega
  rw [howner] at hencodes
  simp only [advance, hpc] at hs
  cases hs
  apply h.emptied hm hsettled.1 hsettled.2 hencodes
  · omega
  · intro j hj
    exact ⟨le_givenAll _ _ _, Nat.le_of_eq (returned_of_ne _ hj).symm⟩

theorem Invariant.wunlockZero (h : Invariant id s) (hpc : s.threads i = .wunlockZero)
    (hs : advance id protocol prio s i = some s') : Invariant id s' := by
  have hm : s.mutex = some i := (h.inside i).mp (by rw [hpc]; rfl)
  have hsettled := h.settled i hm
  have hready := h.ready i
  rw [hpc] at hsettled hready
  simp only [advance, hpc] at hs
  cases hs
  apply h.emptied hm hsettled.1 hsettled.2 (h.encodes.returnWrite hready) rfl
  intro j hj
  exact ⟨Nat.le_refl _, Nat.le_of_eq (returned_of_ne _ hj).symm⟩

end Writers

section Runs

theorem Invariant.trywlockAfter (h : Invariant id s) (hb : (s.threads i).holds = false) (ret : Int) :
    Invariant id (trywlockAfter id s i ret) := by
  unfold RwLock.trywlockAfter
  split
  · exact h.goto hb rfl trivial
  · exact h.goto hb rfl trivial

theorem Invariant.wunlockAfter (h : Invariant id s) (hids : Ids id)
    (hb : (s.threads i).holds = false) : Invariant id (wunlockAfter id s i s.owner) := by
  unfold RwLock.wunlockAfter
  split
  · exact h.goto hb rfl trivial
  · rename_i howner
    split
    · exact h.goto hb rfl (h.encodes.writes_of_owner hids (not_not.mp howner))
    · exact h.goto hb rfl trivial

-- The operations of the readers outside of the mutex.
theorem Invariant.rlockCas (h : Invariant id s) (hids : Ids id) {timeout : Bool} {val : Int}
    (hpc : s.threads i = .rlockCas timeout val) (hs : advance id protocol prio s i = some s') :
    Invariant id s' := by
  have hb : (s.threads i).holds = false := by rw [hpc]; rfl
  have hready := h.ready i
  rw [hpc] at hready
  simp only [advance, hpc] at hs
  split at hs
  · rename_i hval
    rw [← hval] at hready hs
    cases hs
    exact h.giveRead hids hb hready.1 hready.2 _
  · cases hs
    exact h.goto hb rfl trivial

theorem Invariant.tryrlock (h : Invariant id s) (hids : Ids id) (hpc : s.threads i = .tryrlock)
    (hs : advance id protocol prio s i = some s') : Invariant id s' := by
  have hb : (s.threads i).holds = false := by rw [hpc]; rfl
  simp only [advance, hpc] at hs
  split at hs
  · rename_i hshared
    obtain ⟨hle, heven⟩ := shared_iff.mp hshared
    cases hs
    exact h.giveRead hids hb hle heven _
  · cases hs
    exact h.goto hb rfl trivial

theorem Invariant.runlockCas (h : Invariant id s) {val : Int} (hpc : s.threads i = .runlockCas val)
    (hs : advance id protocol prio s i = some s') : Invariant id s' := by
  have hb : (s.threads i).holds = false := by rw [hpc]; rfl
  have hready := h.ready i
  rw [hpc] at hready
  obtain ⟨hneg, heven, hreads⟩ := hready
  simp only [advance, hpc] at hs
  split at hs
  · rename_i hval
    rw [← hval] at hneg heven hs
    cases hs
    exact h.returnRead hb hneg heven hreads _
  · cases hs
    exact h.goto hb rfl hreads

-- The operations of the writers outside of the mutex.
theorem Invariant.wlockCas (h : Invariant id s) (hids : Ids id) {timeout : Bool}
    (hpc : s.threads i = .wlockCas timeout) (hs : advance id protocol prio s i = some s') :
    Invariant id s' := by
  have hb : (s.threads i).holds = false := by rw [hpc]; rfl
  simp only [advance, hpc] at hs
  split at hs
  · rename_i hzero
    cases hs
    exact h.giveWrite hids hb hzero _
  · cases hs
    exact h.goto hb rfl trivial

theorem Invariant.trywlockCas (h : Invariant id s) (hids : Ids id)
    (hpc : s.threads i = .trywlockCas) (hs : advance id protocol prio s i = some s') :
    Invariant id s' := by
  have hb : (s.threads i).holds = false := by rw [hpc]; rfl
  simp only [advance, hpc] at hs
  split at hs
  · rename_i hzero
    cases hs
    exact h.giveWrite hids hb hzero _
  · cases hs
    exact h.trywlockAfter hb _

theorem Invariant.wunlockCas (h : Invariant id s) (hids : Ids id)
    (hpc : s.threads i = .wunlockCas) (hs : advance id protocol prio s i = some s') :
    Invariant id s' := by
  have hb : (s.threads i).holds = false := by rw [hpc]; rfl
  simp only [advance, hpc] at hs
  split at hs
  · rename_i howner
    cases hs
    exact h.returnWrite hids hb howner _
  · cases hs
    exact h.wunlockAfter hids hb

theorem Invariant.advance (h : Invariant id s) (hids : Ids id)
    (hs : advance id protocol prio s i = some s') : Invariant id s' := by
  have hready := h.ready i
  cases hpc : s.threads i with
  | idle code => simp only [RwLock.advance, hpc, reduceCtorEq] at hs
  | rlockLoad timeout =>
      simp only [RwLock.advance, hpc] at hs
      split at hs
      · rename_i hshared
        cases hs
        exact h.goto (by rw [hpc]; rfl) rfl (shared_iff.mp hshared)
      · cases hs
        exact h.goto (by rw [hpc]; rfl) rfl trivial
  | rlockCas timeout val => exact h.rlockCas hids hpc hs
  | rlockLock timeout =>
      simp only [RwLock.advance, hpc] at hs
      exact h.lock hs rfl trivial fun hfree => hfree
  | rlockFetch timeout => exact h.rlockFetch hids hpc hs
  | rlockEmplace timeout => exact h.rlockEmplace hpc hs
  | rlockParked timeout =>
      simp only [RwLock.advance, hpc] at hs
      split at hs
      · cases hs
      · cases hs
        exact h.goto (by rw [hpc]; rfl) rfl trivial
  | rlockExpired =>
      simp only [RwLock.advance, hpc] at hs
      split at hs
      · cases hs
        exact h.goto (by rw [hpc]; rfl) rfl trivial
      · cases hs
        exact h.goto (by rw [hpc]; rfl) rfl trivial
  | rlockBarrier =>
      simp only [RwLock.advance, hpc] at hs
      split at hs
      · cases hs
        exact h.goto (by rw [hpc]; rfl) rfl trivial
      · cases hs
  | rlockTimeoutLock =>
      simp only [RwLock.advance, hpc] at hs
      exact h.lock hs rfl trivial fun hfree => hfree
  | rlockUnqueue => exact h.rlockUnqueue hpc hs
  | tryrlock => exact h.tryrlock hids hpc hs
  | runlockLoad =>
      rw [hpc] at hready
      simp only [RwLock.advance, hpc] at hs
      split at hs
      · rename_i hfast
        cases hs
        exact h.goto (by rw [hpc]; rfl) rfl ⟨hfast.1, waits_eq_false.mp hfast.2, hready⟩
      · cases hs
        exact h.goto (by rw [hpc]; rfl) rfl hready
  | runlockCas val => exact h.runlockCas hpc hs
  | runlockLock =>
      rw [hpc] at hready
      simp only [RwLock.advance, hpc] at hs
      exact h.lock hs rfl hready fun hfree => hfree
  | runlockFetch => exact h.runlockFetch hpc hs
  | runlockSchedule => exact h.runlockSchedule hpc hs
  | runlockGrant cpu => exact h.runlockGrant hids hpc hs
  | runlockZero =>
      have hsettled := h.settled i ((h.inside i).mp (by rw [hpc]; rfl))
      rw [hpc] at hsettled
      exact hsettled.elim
  | runlockEnsure =>
      have hsettled := h.settled i ((h.inside i).mp (by rw [hpc]; rfl))
      rw [hpc] at hsettled
      exact hsettled.elim
  | wlockLoad timeout =>
      simp only [RwLock.advance, hpc] at hs
      split at hs
      · cases hs
        exact h.goto (by rw [hpc]; rfl) rfl trivial
      · split at hs
        · cases hs
          exact h.goto (by rw [hpc]; rfl) rfl trivial
        · cases hs
          exact h.goto (by rw [hpc]; rfl) rfl trivial
  | wlockCas timeout => exact h.wlockCas hids hpc hs
  | wlockLock timeout =>
      simp only [RwLock.advance, hpc] at hs
      exact h.lock hs rfl trivial fun hfree => hfree
  | wlockFetch timeout => exact h.wlockFetch hids hpc hs
  | wlockEmplace timeout old => exact h.wlockEmplace hpc hs
  | wlockParked timeout =>
      simp only [RwLock.advance, hpc] at hs
      split at hs
      · cases hs
      · cases hs
        exact h.goto (by rw [hpc]; rfl) rfl trivial
  | wlockTimeoutLock =>
      simp only [RwLock.advance, hpc] at hs
      exact h.lock hs rfl trivial fun hfree => hfree
  | wlockUnqueue => exact h.wlockUnqueue hpc hs
  | wlockRepair => exact h.wlockRepair hpc hs
  | wlockPop cpus => exact h.wlockPop hpc hs
  | wlockAdd cpus => exact h.wlockAdd hids hpc hs
  | wlockClear => exact h.wlockClear hpc hs
  | trywlockLoad =>
      simp only [RwLock.advance, hpc] at hs
      split at hs
      · cases hs
        exact h.trywlockAfter (by rw [hpc]; rfl) _
      · cases hs
        exact h.goto (by rw [hpc]; rfl) rfl trivial
  | trywlockCas => exact h.trywlockCas hids hpc hs
  | wunlockLoad =>
      simp only [RwLock.advance, hpc] at hs
      split at hs
      · cases hs
        exact h.wunlockAfter hids (by rw [hpc]; rfl)
      · cases hs
        exact h.goto (by rw [hpc]; rfl) rfl trivial
  | wunlockCas => exact h.wunlockCas hids hpc hs
  | wunlockLock =>
      rw [hpc] at hready
      simp only [RwLock.advance, hpc] at hs
      exact h.lock hs rfl hready fun hfree => hfree
  | wunlockSchedule => exact h.wunlockSchedule hpc hs
  | wunlockGrant cpu => exact h.wunlockGrant hids hpc hs
  | wunlockPop cpus => exact h.wunlockPop hpc hs
  | wunlockRelease cpus => exact h.wunlockRelease hids hpc hs
  | wunlockZero => exact h.wunlockZero hpc hs
  | failed =>
      rw [hpc] at hready
      exact hready.elim

theorem Invariant.step (h : Invariant id s) (hids : Ids id) (hs : Step id protocol s s') :
    Invariant id s' := by
  cases hs with
  | call i result call hidle hholds =>
      have hb : (s.threads i).holds = false := by rw [hidle]; rfl
      cases call with
      | runlock => exact h.goto hb rfl (hholds rfl)
      | rlock timeout => exact h.goto hb rfl trivial
      | tryrlock => exact h.goto hb rfl trivial
      | wlock timeout => exact h.goto hb rfl trivial
      | trywlock => exact h.goto hb rfl trivial
      | wunlock => exact h.goto hb rfl trivial
  | run i prio s' hrun => exact h.advance hids hrun
  | expireRead i hparked => exact h.goto (by rw [hparked]; rfl) rfl trivial
  | expireWrite i hparked => exact h.goto (by rw [hparked]; rfl) rfl trivial

theorem Invariant.reachable (hids : Ids id) (h : Reachable id protocol s) : Invariant id s :=
  invariant_of_reachable Invariant.start (fun _ _ hinv hs => hinv.step hids hs) h

-- A writer is alone; `owner` counts the readers; threads wait only where someone will wake them.
theorem rwlock_invariant (hids : Ids id) (h : Reachable id protocol s) :
    (∀ i, 0 < s.writes i →
      s.writes i = 1 ∧ (∀ j, j ≠ i → s.writes j = 0) ∧ (∀ j, s.reads j = 0) ∧ s.owner / 2 = id i) ∧
      (0 < s.owner → ∃ i, 0 < s.writes i) ∧
      (s.owner ≤ 0 → s.owner = -2 * ((∑ j, s.reads j : Nat) : Int) + s.owner % 2) ∧
      (s.mutex = none → s.rq ≠ [] ∨ s.wq ≠ [] → s.owner % 2 = 1) ∧
      (s.mutex = none → s.rq ≠ [] → s.wq = [] → 0 < s.owner) ∧
      (s.owner = 0 → s.rq = [] ∧ s.wq = []) ∧
      ∀ i, s.threads i ≠ .failed := by
  have hinv := Invariant.reachable hids h
  refine ⟨?_, ?_, ?_, fun _ => hinv.queued, ?_, ?_, ?_⟩
  · intro i hi
    obtain ⟨howner, hreads, hwrites⟩ := hinv.encodes.writer_of_writes hi
    refine ⟨?_, ?_, hreads, howner⟩
    · rw [hwrites, if_pos rfl]
    · intro j hj
      rw [hwrites, if_neg hj]
  · intro hpos
    cases hinv.encodes with
    | written writer _ _ hwrites =>
        refine ⟨writer, ?_⟩
        rw [hwrites, if_pos rfl]
        exact Nat.zero_lt_one
    | read hle _ _ => omega
  · intro hle
    cases hinv.encodes with
    | written writer howner _ _ =>
        have hpos := hids.pos writer
        omega
    | read _ hreads _ => omega
  · intro hm hrq hwq
    have hodd := hinv.queued (Or.inl hrq)
    have hneg : ¬ s.owner < 0 := fun hneg => hinv.free hm hodd hneg hwq
    omega
  · intro hzero
    have hodd := hinv.queued
    constructor
    · by_contra hrq
      have := hodd (Or.inl hrq)
      omega
    · by_contra hwq
      have := hodd (Or.inr hwq)
      omega
  · intro i hfailed
    have hready := hinv.ready i
    rw [hfailed] at hready
    exact hready

end Runs

-- A reader waits for a writer.
theorem rwlock_invariant_queued :
    ∃ s : State (Fin 2), Reachable threadId .fifo s ∧ s.rq = [1] ∧ s.mutex = none ∧
      s.owner % 2 = 1 ∧ 0 < s.owner := by
  have hprio : Fin 2 → Prio := fun _ => ⟨0, 0⟩
  have hids : Ids (threadId (n := 2)) := by
    constructor
    · intro i
      unfold threadId
      omega
    · intro i j hij
      unfold threadId at hij
      omega
  have hwlock : Reachable threadId .fifo (State.start.goto (0 : Fin 2) (.wlockLoad false)) :=
    .single (.call 0 none (.wlock false) rfl nofun)
  have hwload := hwlock.tail (.run 0 hprio _ rfl)
  have hwcas := hwload.tail (.run 0 hprio _ rfl)
  have hrlock := hwcas.tail (.call 1 none (.rlock false) rfl nofun)
  have hrload := hrlock.tail (.run 1 hprio _ rfl)
  have hlock := hrload.tail (.run 1 hprio _ rfl)
  have hfetch := hlock.tail (.run 1 hprio _ rfl)
  have hqueued := hfetch.tail (.run 1 hprio _ rfl)
  obtain ⟨-, -, -, hbit, hpos, -, -⟩ := rwlock_invariant hids hqueued
  exact ⟨_, hqueued, rfl, rfl, hbit rfl (Or.inl (List.cons_ne_nil _ _)),
    hpos rfl (List.cons_ne_nil _ _) rfl⟩

end Rpcsx.Lv2.RwLock
