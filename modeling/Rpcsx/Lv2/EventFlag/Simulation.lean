import Rpcsx.Lv2.EventFlag.Invariant

namespace Rpcsx.Lv2.EventFlag

open Data.Interleaving Data.Mask

variable {ι : Type} [DecidableEq ι] {c : Config} {prio : ι → Int} {s s' : State ι} {i : ι} {pc : Pc}

-- A step keeps the invariant, and it is a step of the atomic flag or none at all.
structure Simulates (c : Config) (s s' : State ι) : Prop where
  invariant : Invariant c s'
  step : Relation.ReflGen (Atomic.Step c) s.abstract s'.abstract

theorem Atomic.enter_self (a : Atomic ι) (i : ι) : a.enter i (a.phases i) = a := by
  refine Atomic.ext_fields rfl rfl ?_ rfl
  intro j
  change Function.update a.phases i (a.phases i) j = _
  rw [Function.update_eq_self]

-- A thread is where it was if its registers are the same and it did not enter or leave the queue.
theorem phase_congr {j : ι} (hthread : s'.threads j = s.threads j) (hwaits : s'.waits j = s.waits j)
    (hgpr3 : s'.gpr3 j = s.gpr3 j) (hqueue : j ∈ s'.queue ↔ j ∈ s.queue) :
    s'.phase j = s.phase j := by
  unfold State.phase
  rw [hthread, hwaits, hgpr3]
  simp only [hqueue]

section Outside

-- A thread goes on and its call is still where it was.
theorem Outside.silent (h : Outside s s' i pc) (hinv : Invariant c s)
    (hpattern : s'.pattern = s.pattern) (hwaits : s'.waits = s.waits)
    (hphase : s'.phase i = s.phase i) : Simulates c s s' where
  invariant := h.invariant hinv
  step := by
    have heq : s'.abstract = s.abstract := by
      rw [h.abstract hinv, hpattern, hwaits, hphase]
      exact s.abstract.enter_self i
    rw [heq]

theorem phase_of_idle (result : Option Code) (h : s.threads i = .idle result) :
    s.phase i = .idle result := by
  unfold State.phase
  rw [h]

theorem Outside.finish {code : Code} (h : Outside s s' i (.idle (some code))) (hinv : Invariant c s)
    (hwaits : s'.waits = s.waits) (hstep : Atomic.Step c s.abstract
      { s.abstract.finish i code with pattern := s'.pattern }) : Simulates c s s' where
  invariant := h.invariant hinv
  step := by
    have hidle : s'.threads i = .idle (some code) := by
      rw [h.threads, Function.update_self]
    rw [h.abstract hinv, hwaits, phase_of_idle _ hidle]
    exact .single hstep

end Outside

section Inside

-- The owner of the mutex goes on with the queue and the registers as they are.
theorem abstract_of_inside (hthreads : s'.threads = Function.update s.threads i pc)
    (hsq : s'.sq = s.sq) (hwaits : s'.waits = s.waits) (hgpr3 : s'.gpr3 = s.gpr3)
    (hremoving : s.removing = false) (hremoving' : s'.removing = false) :
    s'.abstract = { s.abstract.enter i (s'.phase i) with pattern := s'.pattern } := by
  have hqueue : s'.queue = s.queue := by
    rw [queue_of_not_removing hremoving, queue_of_not_removing hremoving', hsq]
  refine Atomic.ext_fields rfl hqueue ?_ hwaits
  intro j
  change s'.phase j = Function.update s.phase i (s'.phase i) j
  by_cases hji : j = i
  · rw [hji, Function.update_self]
  · rw [Function.update_of_ne hji]
    apply phase_congr
    · rw [hthreads, Function.update_of_ne hji]
    · rw [hwaits]
    · rw [hgpr3]
    · rw [hqueue]

-- A step of the owner that keeps the queue and the registers and adds no bit.
theorem Invariant.section (h : Invariant c s) (s' : State ι) (pc : Pc)
    (hmine : s.mutex = none ∨ s.mutex = some i)
    (hthreads : s'.threads = Function.update s.threads i pc)
    (hmutex : s'.mutex = if pc.holds then some i else none) (hawake : i ∈ s.sq → pc.asleep = true)
    (hbefore : s.removing = false) (hafter : pc ≠ .setRemove)
    (hcalling : pc.calling = true → (s.threads i).calling = true)
    (hsq : s'.sq = s.sq) (hwaits : s'.waits = s.waits) (hgpr3 : s'.gpr3 = s.gpr3)
    (hpattern : Within s'.pattern s.pattern)
    (hfree : pc.holds = false → s'.Fresh) (howner : pc.holds = true → s'.Owner c i pc) :
    Invariant c s' ∧
      s'.abstract = { s.abstract.enter i (s'.phase i) with pattern := s'.pattern } := by
  have hself : s'.threads i = pc := by
    rw [hthreads, Function.update_self]
  have hremoving : s'.removing = false := by
    cases hpc : pc.holds with
    | false =>
        rw [hpc] at hmutex
        exact removing_of_free hmutex
    | true =>
        rw [hpc, if_pos rfl] at hmutex
        apply removing_of_owner hmutex
        rw [hself]
        exact hafter
  refine ⟨h.inside pc hmine hthreads hmutex ?_ ?_ ?_ ?_ ?_ ?_ hfree howner, ?_⟩
  · rw [hsq]
    exact h.nodup
  · intro j hj _
    rw [hsq] at hj
    exact hj
  · rw [hsq]
    exact hawake
  · intro j _
    rw [hgpr3]
  · intro hpc
    have hcall := hcalling hpc
    exact ⟨h.calling i hcall, h.not_mem (Pc.not_asleep_of_calling hcall)⟩
  · intro j hj
    rw [queue_of_not_removing hremoving, hsq, ← queue_of_not_removing hbefore] at hj
    rw [hwaits]
    exact checkPattern_mono (h.unsatisfied j hj) hpattern
  · exact abstract_of_inside hthreads hsq hwaits hgpr3 hbefore hremoving

-- The owner goes on and its call is still where it was.
theorem Invariant.silent (h : Invariant c s) (s' : State ι) (pc : Pc)
    (hmine : s.mutex = none ∨ s.mutex = some i)
    (hthreads : s'.threads = Function.update s.threads i pc)
    (hmutex : s'.mutex = if pc.holds then some i else none) (hawake : i ∈ s.sq → pc.asleep = true)
    (hbefore : s.removing = false) (hafter : pc ≠ .setRemove)
    (hcalling : pc.calling = true → (s.threads i).calling = true)
    (hsq : s'.sq = s.sq) (hwaits : s'.waits = s.waits) (hgpr3 : s'.gpr3 = s.gpr3)
    (hpattern : s'.pattern = s.pattern) (hphase : s'.phase i = s.phase i)
    (hfree : pc.holds = false → s'.Fresh) (howner : pc.holds = true → s'.Owner c i pc) :
    Simulates c s s' := by
  have hwithin : Within s'.pattern s.pattern := by
    rw [hpattern]
    exact Within.refl
  obtain ⟨hinv, habstract⟩ := h.section s' pc hmine hthreads hmutex hawake hbefore hafter hcalling
    hsq hwaits hgpr3 hwithin hfree howner
  refine ⟨hinv, ?_⟩
  have heq : s'.abstract = s.abstract := by
    rw [habstract, hpattern, hphase]
    exact s.abstract.enter_self i
  rw [heq]

end Inside

section Steps

-- The mutex is taken.
theorem Invariant.lock (h : Invariant c s) (hs : s.lock i pc = some s')
    (hbefore : (s.threads i).asleep = true → pc.asleep = true) (hpc : pc.holds = true)
    (hafter : pc ≠ .setRemove) (hcalling : pc.calling = true → (s.threads i).calling = true)
    (howner : s'.Fresh → s'.Owner c i pc)
    (hphase : s'.threads i = pc → s'.waits = s.waits → s'.gpr3 = s.gpr3 → s'.queue = s.queue →
      s'.phase i = s.phase i) : Simulates c s s' := by
  unfold State.lock at hs
  split at hs
  · rename_i hnone
    cases hs
    have hremoving := removing_of_free hnone
    refine h.silent _ pc (Or.inl hnone) rfl ?_ ?_ hremoving hafter hcalling rfl rfl rfl rfl
      ?_ ?_ ?_
    · rw [hpc]
      rfl
    · intro hi
      exact hbefore (h.asleep i hi)
    · refine hphase (Function.update_self _ _ _) rfl rfl ?_
      have hlocked : State.removing { s.goto i pc with mutex := some i } = false := by
        apply removing_of_owner rfl
        change Function.update s.threads i pc i ≠ _
        rw [Function.update_self]
        exact hafter
      rw [queue_of_not_removing hremoving]
      exact queue_of_not_removing hlocked
    · intro hfree
      rw [hpc] at hfree
      cases hfree
    · intro _
      exact howner (h.free hnone)
  · cases hs

theorem Invariant.mine (h : Invariant c s) (hpc : (s.threads i).holds = true) :
    s.mutex = some i := (h.exclusive i).mp hpc

-- A waiter is taken out of the queue with an error.
theorem abstract_of_leave {k : ι} {code : Code} (hnodup : s.sq.Nodup)
    (hremoving : s.removing = false) (hremoving' : s'.removing = false)
    (hpattern : s'.pattern = s.pattern) (hsq : s'.sq = s.sq.erase k) (hwaits : s'.waits = s.waits)
    (hphase : ∀ j, j ≠ k → s'.threads j = s.threads j ∧ s'.gpr3 j = s.gpr3 j)
    (hk : s'.phase k = .idle (some code)) :
    s'.abstract = { s.abstract.finish k code with queue := s.abstract.queue.erase k } := by
  have hqueue := queue_of_not_removing hremoving
  have hqueue' := queue_of_not_removing hremoving'
  refine Atomic.ext_fields hpattern ?_ ?_ hwaits
  · change s'.queue = s.queue.erase k
    rw [hqueue', hqueue, hsq]
  · intro j
    change s'.phase j = Function.update s.phase k (.idle (some code)) j
    by_cases hjk : j = k
    · rw [hjk, Function.update_self, hk]
    · rw [Function.update_of_ne hjk]
      refine phase_congr (hphase j hjk).1 (by rw [hwaits]) (hphase j hjk).2 ?_
      rw [hqueue', hqueue, hsq, hnodup.mem_erase_iff]
      exact and_iff_right hjk

theorem timeout_unqueue (h : Invariant c s) (hpc : s.threads i = .timeoutUnqueue)
    (hs : advance c prio s i = some s') : Simulates c s s' := by
  have hmine := h.mine (i := i) (by rw [hpc]; rfl)
  have hremoving : s.removing = false := removing_of_owner hmine (by rw [hpc]; nofun)
  have hfresh : s.Fresh := by
    have howner := h.owner i hmine
    rw [hpc] at howner
    exact howner
  have hqueue : s.queue = s.sq := queue_of_not_removing hremoving
  simp only [advance, hpc] at hs
  split at hs
  · rename_i hnone
    cases hs
    have hawake := unqueue_eq_none.mp hnone
    refine h.silent (s.unlock i (.idle (s.gpr3 i))) (.idle (s.gpr3 i)) (Or.inr hmine) rfl rfl
      (fun hi => absurd hi hawake) hremoving nofun nofun rfl rfl rfl rfl ?_ (fun _ => hfresh) nofun
    rw [phase_of_idle (s.gpr3 i) (Function.update_self _ _ _)]
    unfold State.phase
    rw [hpc, hqueue]
    exact (if_neg hawake).symm
  · rename_i sq hsome
    cases hs
    obtain ⟨hmem, hsq⟩ := unqueue_eq_some hsome
    generalize hs' : State.mk _ _ _ _ _ _ _ = s'
    have hthreads : s'.threads = Function.update s.threads i (.idle (some .etimedout)) := by
      rw [← hs']; rfl
    have hsq' : s'.sq = s.sq.erase i := by rw [← hs', ← hsq]
    have hmutex : s'.mutex = none := by rw [← hs']; rfl
    have hpattern : s'.pattern = s.pattern := by rw [← hs']; rfl
    have hwaits : s'.waits = s.waits := by rw [← hs']; rfl
    have hgpr3 : s'.gpr3 = Function.update s.gpr3 i (some .etimedout) := by rw [← hs']; rfl
    have hremoving' := removing_of_free hmutex
    have hother : ∀ j ∈ s'.sq, j ≠ i ∧ j ∈ s.sq := by
      intro j hj
      rw [hsq'] at hj
      exact h.nodup.mem_erase_iff.mp hj
    refine ⟨h.inside (.idle (some .etimedout)) (Or.inr hmine) hthreads hmutex ?_ ?_ ?_ ?_ nofun ?_ ?_
      nofun, .single ?_⟩
    · rw [hsq']
      exact h.nodup.erase i
    · intro j hj _
      exact (hother j hj).2
    · intro hi
      exact absurd rfl (hother i hi).1
    · intro j hj
      have hji : j ≠ i := fun heq => hj (heq ▸ hmem)
      rw [hgpr3, Function.update_of_ne hji]
    · intro j hj
      rw [queue_of_not_removing hremoving'] at hj
      rw [hpattern, hwaits]
      apply h.unsatisfied j
      rw [hqueue]
      exact (hother j hj).2
    · intro _ j hj
      obtain ⟨hji, hjs⟩ := hother j hj
      rw [hgpr3, Function.update_of_ne hji]
      exact hfresh j hjs
    · have hidle : s'.threads i = .idle (some .etimedout) := by rw [hthreads, Function.update_self]
      rw [abstract_of_leave h.nodup hremoving hremoving' hpattern hsq' hwaits ?_
        (phase_of_idle _ hidle)]
      · refine .expire i ?_
        change i ∈ s.queue
        rw [hqueue]
        exact hmem
      · intro j hji
        rw [hthreads, hgpr3, Function.update_of_ne hji, Function.update_of_ne hji]
        exact ⟨rfl, rfl⟩

end Steps

section Set

variable {bitptn pattern toWrite dependantMask : BitVec 64} {count : Nat}

-- The condition of an attempt: the waiters that it does not reach have no CELL_OK from before.
def Calm (c : Config) (prio : ι → Int) (s : State ι) (i : ι) : Prop :=
  ∀ bitptn pattern, s.threads i = .setEvaluate bitptn pattern →
    ∀ j ∈ unreached s.waits (schedulingOrder prio c.protocol s.sq.length s.sq) (pattern ||| bitptn),
      s.gpr3 j ≠ some .ok

end Set

end Rpcsx.Lv2.EventFlag
