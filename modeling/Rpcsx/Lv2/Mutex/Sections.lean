import Rpcsx.Lv2.Mutex.Outside

namespace Rpcsx.Lv2.Mutex

open Data.Interleaving

variable {ι κ : Type} [DecidableEq ι] {s s' : State ι κ} {i j : ι} {pc : Pc ι κ}

-- The places of a thread that a step does not concern.
theorem at_of_owner (s s' : State ι κ) (pc : Pc ι κ)
    (hthreads : s'.threads = Function.update s.threads i pc)
    (hmutex : s'.mutex = if pc.holds then some i else none) (hsq : j ∈ s'.sq ↔ j ∈ s.sq)
    (hconds : ∀ cond, j ∈ s'.conds cond ↔ j ∈ s.conds cond)
    (hstored : pc.stored = some j ↔ s.inside.stored = some j)
    (hmoved : j ∈ pc.moved ↔ j ∈ s.inside.moved) (p : Place κ) : s'.At j p ↔ s.At j p := by
  rw [at_eq_of_owner pc hthreads hmutex]
  cases p with
  | sq => exact hsq
  | cond cond => exact hconds cond
  | stored => exact hstored
  | moved => exact hmoved

-- A step inside that leaves the queues as they are.
theorem Invariant.inner (h : Invariant s) (pc : Pc ι κ) (hmine : s.mutex = none ∨ s.mutex = some i)
    (hthreads : s'.threads = Function.update s.threads i pc)
    (hmutex : s'.mutex = if pc.holds then some i else none) (howner : s'.owner = s.owner)
    (hsq : s'.sq = s.sq) (hconds : s'.conds = s.conds) (hdepth : s'.depth = s.depth)
    (hsignal : s'.signal = s.signal) (hstored : pc.stored = s.inside.stored)
    (hmoved : pc.moved.Perm s.inside.moved)
    (hcount : s'.lockCount = s.lockCount ∨ s.owner = some i)
    (hallows : ∀ p, s.At i p → (s.threads i).Allows p → pc.Allows p)
    (hleaving : pc.leaving = (s.threads i).leaving) (hwaits : pc.waits = (s.threads i).waits)
    (hcounts : pc.Counts (s.owner = some i) s'.lockCount (s.depth i)) (hheld : s'.Held i pc) :
    Invariant s' := by
  have hplace (j : ι) (p : Place κ) : s'.At j p ↔ s.At j p := by
    apply at_of_owner s s' pc hthreads hmutex
    · rw [hsq]
    · intro cond
      rw [hconds]
    · rw [hstored]
    · exact hmoved.mem_iff
  refine h.owner pc hmine hthreads hmutex ?_ ?_ ?_ ?_ ?_ hheld
  · intro hnone
    rw [howner] at hnone
    obtain ⟨hempty, hzero⟩ := h.free hnone
    rcases hcount with heq | hown
    · rw [hsq, heq]
      exact ⟨hempty, hzero⟩
    · rw [hnone] at hown
      cases hown
  · rw [hsq]
    exact h.sq
  · rw [hconds]
    exact h.conds
  · exact hmoved.nodup_iff.mpr h.moved
  · intro j
    by_cases hj : j = i
    · rw [hj]
      unfold State.Good
      rw [howner, hthreads, Function.update_self, hdepth, hsignal,
        show s'.At i = s.At i from funext fun p => propext (hplace i p)]
      exact (h.good i).move hallows hleaving hwaits hcounts
    · apply (h.good j).congr
      · rw [hthreads, Function.update_of_ne hj]
      · rw [howner]
      · exact hplace j
      · rw [hdepth]
      · rw [hsignal]
      · intro hown
        rcases hcount with heq | hown'
        · exact heq
        · rw [hown] at hown'
          exact absurd (Option.some.inj hown') hj

-- The same, from a known place in the code.
theorem Invariant.proceed (h : Invariant s) {pc' : Pc ι κ} (hpc : s.threads i = pc') (pc : Pc ι κ)
    (hm : s.mutex = some i) (hthreads : s'.threads = Function.update s.threads i pc)
    (hmutex : s'.mutex = if pc.holds then some i else none) (howner : s'.owner = s.owner)
    (hsq : s'.sq = s.sq) (hconds : s'.conds = s.conds) (hdepth : s'.depth = s.depth)
    (hsignal : s'.signal = s.signal) (hcount : s'.lockCount = s.lockCount ∨ s.owner = some i)
    (hstored : pc.stored = pc'.stored) (hmoved : pc.moved.Perm pc'.moved)
    (hallows : ∀ p, pc'.Allows p → pc.Allows p) (hleaving : pc.leaving = pc'.leaving)
    (hwaits : pc.waits = pc'.waits)
    (hcounts : pc'.Counts (s.owner = some i) s.lockCount (s.depth i) →
      pc.Counts (s.owner = some i) s'.lockCount (s.depth i)) (hheld : s'.Held i pc) :
    Invariant s' := by
  have hinside : s.inside = pc' := by rw [State.inside, hm, ← hpc]
  have hcounts' := (h.good i).counts
  rw [hpc] at hcounts'
  refine h.inner pc (Or.inr hm) hthreads hmutex howner hsq hconds hdepth hsignal ?_ ?_ hcount ?_ ?_
    ?_ (hcounts hcounts') hheld
  · rw [hinside]
    exact hstored
  · rw [hinside]
    exact hmoved
  · rw [hpc]
    exact fun p _ => hallows p
  · rw [hpc]
    exact hleaving
  · rw [hpc]
    exact hwaits

-- The `shared_mutex` is taken.
theorem Invariant.lock (h : Invariant s) (hs : s.lock i pc = some s') (hpc : pc.holds = true)
    (hstored : pc.stored = none) (hmoved : pc.moved = [])
    (hallows : ∀ p, (s.threads i).Allows p → pc.Allows p)
    (hleaving : pc.leaving = (s.threads i).leaving) (hwaits : pc.waits = (s.threads i).waits)
    (hcounts : pc.Counts (s.owner = some i) s.lockCount (s.depth i)) (hheld : s'.Held i pc) :
    Invariant s' := by
  unfold State.lock at hs
  split at hs
  · rename_i hm
    have hinside : s.inside = .idle none := by rw [State.inside, hm]
    cases hs
    refine h.inner pc (Or.inl hm) rfl ?_ rfl rfl rfl rfl rfl ?_ ?_ (Or.inl rfl) ?_ hleaving hwaits
      hcounts hheld
    · rw [hpc]
      rfl
    · rw [hinside, hstored]
      rfl
    · rw [hinside, hmoved]
      exact List.Perm.refl _
    · intro p _
      exact hallows p
  · cases hs

-- A thread leaves its wait loop with the mutex, from inside of a section.
theorem Invariant.wakesInside (h : Invariant s) (pc : Pc ι κ) (hm : s.mutex = some i)
    (hpc : pc.holds = false) (hstored : (s.threads i).stored = none)
    (hmoved : (s.threads i).moved = []) (hleaving : (s.threads i).leaving = false)
    (howner : s.owner = some i) (depth : Nat)
    (hcounts : pc.Counts (s.owner = some i) s.lockCount depth) :
    Invariant (((s.signaled i).setDepth i depth).unlock i pc) := by
  have hinside : s.inside = s.threads i := by rw [State.inside, hm]
  have hmutex : (((s.signaled i).setDepth i depth).unlock i pc).mutex =
      if pc.holds then some i else none := by
    rw [hpc]
    rfl
  have hplace (j : ι) (p : Place κ) :
      (((s.signaled i).setDepth i depth).unlock i pc).At j p ↔ s.At j p := by
    apply at_of_owner s _ pc rfl hmutex Iff.rfl (fun _ => Iff.rfl)
    · rw [hinside, hstored, Pc.stored_of_not_holds hpc]
    · rw [hinside, hmoved, Pc.moved_of_not_holds hpc]
  refine h.owner pc (Or.inr hm) rfl hmutex h.free h.sq h.conds ?_ ?_ ?_
  · rw [Pc.moved_of_not_holds hpc]
    exact List.nodup_nil
  · intro j
    by_cases hj : j = i
    · rw [hj]
      have hself : (((s.signaled i).setDepth i depth).unlock i pc).threads i = pc :=
        Function.update_self _ _ _
      have hsilent : (((s.signaled i).setDepth i depth).unlock i pc).signal i = false :=
        Function.update_self _ _ _
      have hdepth : (((s.signaled i).setDepth i depth).unlock i pc).depth i = depth :=
        Function.update_self _ _ _
      unfold State.Good
      rw [hself, hsilent, hdepth]
      refine Good.nowhere ?_ (fun _ => howner) (Pc.not_leaving_of_not_holds hpc) hcounts
      intro p hp
      rw [(h.good i).leaving p ((hplace i p).mp hp) howner] at hleaving
      cases hleaving
    · exact (h.good j).congr (Function.update_of_ne hj _ _) Iff.rfl (hplace j)
        (Function.update_of_ne hj _ _) (Function.update_of_ne hj _ _) fun _ => rfl
  · exact State.held_of_not_holds hpc

-- The thread that was handed the mutex is woken and the section ends.
theorem Invariant.awake (h : Invariant s) (pc : Pc ι κ) {cpu : ι} (hm : s.mutex = some i)
    (hpc : pc.holds = false) (hstored : (s.threads i).stored = none)
    (hmoved : (s.threads i).moved = []) (hhanded : s.Handed cpu)
    (hallows : ∀ p, (s.threads i).Allows p → pc.Allows p)
    (hleaving : (s.threads i).leaving = false) (hwaits : pc.waits = (s.threads i).waits)
    (hcounts : pc.Counts (s.owner = some i) s.lockCount (s.depth i)) :
    Invariant ((s.awake cpu).unlock i pc) := by
  have hinside : s.inside = s.threads i := by rw [State.inside, hm]
  have hmutex : ((s.awake cpu).unlock i pc).mutex = if pc.holds then some i else none := by
    rw [hpc]
    rfl
  have hplace (j : ι) (p : Place κ) : ((s.awake cpu).unlock i pc).At j p ↔ s.At j p := by
    apply at_of_owner s _ pc rfl hmutex Iff.rfl (fun _ => Iff.rfl)
    · rw [hinside, hstored, Pc.stored_of_not_holds hpc]
    · rw [hinside, hmoved, Pc.moved_of_not_holds hpc]
  -- every thread but the one that is woken
  have hgood (j : ι) : Mutex.Good (((s.awake cpu).unlock i pc).threads j)
      (s.owner = some j) (((s.awake cpu).unlock i pc).At j) s.lockCount (s.depth j) (s.signal j) := by
    rw [show ((s.awake cpu).unlock i pc).At j = s.At j from funext fun p => propext (hplace j p)]
    by_cases hj : j = i
    · rw [hj, show ((s.awake cpu).unlock i pc).threads i = pc from Function.update_self _ _ _]
      apply (h.good i).move (fun p _ => hallows p) _ hwaits hcounts
      rw [hleaving, Pc.not_leaving_of_not_holds hpc]
    · rw [show ((s.awake cpu).unlock i pc).threads j = s.threads j from Function.update_of_ne hj _ _]
      exact h.good j
  refine h.owner pc (Or.inr hm) rfl hmutex h.free h.sq h.conds ?_ ?_ ?_
  · rw [Pc.moved_of_not_holds hpc]
    exact List.nodup_nil
  · intro j
    have hg := hgood j
    by_cases hj : j = cpu
    · subst hj
      refine ⟨hg.once, hg.allowed, hg.leaving, hg.waits, hg.registered, hg.counts,
        fun _ => ⟨hhanded.owner, ?_⟩⟩
      by_cases hji : j = i
      · subst hji
        rw [show ((s.awake j).unlock j pc).threads j = pc from Function.update_self _ _ _, hwaits]
        exact hhanded.waits
      · rw [show ((s.awake j).unlock i pc).threads j = s.threads j from
          Function.update_of_ne hji _ _]
        exact hhanded.waits
    · have hsignal : ((s.awake cpu).unlock i pc).signal j = s.signal j :=
        Function.update_of_ne hj _ _
      unfold State.Good
      rw [hsignal]
      exact hg
  · exact State.held_of_not_holds hpc

-- The thread inside takes a thread from one place to another, or to the mutex.
theorem Invariant.transfer (h : Invariant s) (pc : Pc ι κ) (x : ι) (hm : s.mutex = some i)
    (hthreads : s'.threads = Function.update s.threads i pc)
    (hmutex : s'.mutex = if pc.holds then some i else none)
    (hfree : s'.owner = none → s'.sq = [] ∧ s'.lockCount = 0) (hnodup : s'.sq.Nodup)
    (hconds : ∀ cond, (s'.conds cond).Nodup) (hmoved : pc.moved.Nodup)
    (hsq : ∀ j, j ≠ x → (j ∈ s'.sq ↔ j ∈ s.sq))
    (hcond : ∀ j cond, j ≠ x → (j ∈ s'.conds cond ↔ j ∈ s.conds cond))
    (hstoredOf : ∀ j, j ≠ x → (pc.stored = some j ↔ (s.threads i).stored = some j))
    (hmovedOf : ∀ j, j ≠ x → (j ∈ pc.moved ↔ j ∈ (s.threads i).moved))
    (howner : ∀ j, j ≠ x → j ≠ i → (s'.owner = some j ↔ s.owner = some j))
    (hcount : ∀ j, j ≠ x → j ≠ i → s.owner = some j → s'.lockCount = s.lockCount)
    (hdepth : ∀ j, j ≠ i → s'.depth j = s.depth j) (hsignal : s'.signal = s.signal)
    (hgoodx : x ≠ i → Mutex.Good (s.threads x) (s'.owner = some x) (Mutex.At s'.sq s'.conds pc x)
      s'.lockCount (s.depth x) (s.signal x))
    (hgoodi : Mutex.Good pc (s'.owner = some i) (Mutex.At s'.sq s'.conds pc i) s'.lockCount
      (s'.depth i) (s.signal i)) (hheld : s'.Held i pc) : Invariant s' := by
  have hinside : s.inside = s.threads i := by rw [State.inside, hm]
  refine h.owner pc (Or.inr hm) hthreads hmutex hfree hnodup hconds hmoved ?_ hheld
  intro j
  by_cases hji : j = i
  · rw [hji]
    unfold State.Good
    rw [at_eq_of_owner pc hthreads hmutex, hthreads, Function.update_self, hsignal]
    exact hgoodi
  · by_cases hjx : j = x
    · unfold State.Good
      rw [at_eq_of_owner pc hthreads hmutex, hthreads, Function.update_of_ne hji, hsignal,
        hdepth j hji]
      rw [hjx] at hji ⊢
      exact hgoodx hji
    · refine (h.good j).congr ?_ (howner j hjx hji) ?_ (hdepth j hji) ?_ (hcount j hjx hji)
      · rw [hthreads, Function.update_of_ne hji]
      · apply at_of_owner s s' pc hthreads hmutex (hsq j hjx) fun cond => hcond j cond hjx
        · rw [hinside]
          exact hstoredOf j hjx
        · rw [hinside]
          exact hmovedOf j hjx
      · rw [hsignal]

section Conds

variable [DecidableEq κ] {conds : κ → List ι} {cond : κ} {sq : List ι}

omit [DecidableEq ι] in
theorem nodup_update (h : ∀ k, (conds k).Nodup) (hsq : sq.Nodup) (k : κ) :
    (Function.update conds cond sq k).Nodup := by
  by_cases hk : k = cond
  · rw [hk, Function.update_self]
    exact hsq
  · rw [Function.update_of_ne hk]
    exact h k

omit [DecidableEq ι] in
theorem mem_update (h : j ∈ sq ↔ j ∈ conds cond) (k : κ) :
    j ∈ Function.update conds cond sq k ↔ j ∈ conds k := by
  by_cases hk : k = cond
  · rw [hk, Function.update_self]
    exact h
  · rw [Function.update_of_ne hk]

-- A thread that is taken from its queue is in none.
omit [DecidableEq ι] in
theorem not_mem_update (h : j ∉ sq) (hothers : ∀ k, j ∈ conds k → k = cond) (k : κ) :
    j ∉ Function.update conds cond sq k := by
  by_cases hk : k = cond
  · rw [hk, Function.update_self]
    exact h
  · rw [Function.update_of_ne hk]
    exact fun hj => hk (hothers k hj)

end Conds

end Rpcsx.Lv2.Mutex
