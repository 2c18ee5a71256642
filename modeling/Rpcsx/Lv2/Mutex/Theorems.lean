import Rpcsx.Lv2.Mutex.Conds

namespace Rpcsx.Lv2.Mutex

open Data.Interleaving

variable {ι κ : Type} [DecidableEq ι] [DecidableEq κ] {c : Config} {prio : ι → Prio} {choice : Bool}
  {s s' : State ι κ} {i j : ι}

section Lock

-- A thread outside of all queues, at a known place in the code.
omit [DecidableEq κ] in
theorem Invariant.goes (h : Invariant s) {pc' : Pc ι κ} (hpc : s.threads i = pc') (pc : Pc ι κ)
    (hbefore : pc'.holds = false) (hafter : pc.holds = false) (hnone : ∀ p, ¬ pc'.Allows p)
    (hawake : pc'.waits = false) (hwaits : pc.waits = false)
    (hcounts : pc'.Counts (s.owner = some i) s.lockCount (s.depth i) →
      pc.Counts (s.owner = some i) s.lockCount (s.depth i)) : Invariant (s.goto i pc) := by
  have hcounts' := (h.good i).counts
  rw [hpc] at hcounts'
  apply h.goto _ hafter _ _ hwaits (hcounts hcounts') <;> rw [hpc]
  · exact hbefore
  · exact hnone
  · exact hawake

omit [DecidableEq κ] in
theorem Invariant.busy (h : Invariant s) {pc' : Pc ι κ} (hpc : s.threads i = pc') (call : LockCall)
    (hbefore : pc'.holds = false) (hnone : ∀ p, ¬ pc'.Allows p) (hawake : pc'.waits = false)
    (hcounts : pc'.Counts (s.owner = some i) s.lockCount (s.depth i) →
      s.owner ≠ some i ∧ s.depth i = 0) : Invariant (s.goto i call.busy) := by
  cases call with
  | lock timeout => exact h.goes hpc (.lockBusy timeout) hbefore rfl hnone hawake rfl hcounts
  | trylock =>
      apply h.goes hpc (.idle (some (.lock, .ebusy))) hbefore rfl hnone hawake rfl
      intro hc
      exact ⟨fun hown => absurd hown (hcounts hc).1, fun _ => (hcounts hc).2, nofun⟩

theorem Invariant.lockLoad (h : Invariant s) {call : LockCall} (hpc : s.threads i = .lockLoad call)
    (hs : advance c prio choice s i = some s') : Invariant s' := by
  simp only [advance, hpc] at hs
  split at hs
  · rename_i hfree
    cases hs
    apply h.goes hpc (.lockCas call s.sq.head?) rfl rfl (fun _ ha => ha) rfl rfl
    intro hc
    have hnot : s.owner ≠ some i := by
      rw [hfree]
      rintro ⟨⟩
    exact ⟨hnot, hc.2 hnot⟩
  · split at hs
    · rename_i hown
      split at hs
      · cases hs
        exact h.goes hpc .lockCheck rfl rfl (fun _ ha => ha) rfl rfl fun hc => ⟨hown, hc.1 hown⟩
      · cases hs
        exact h.goes hpc (.idle (some (.lock, .edeadlk))) rfl rfl (fun _ ha => ha) rfl rfl
          fun hc => ⟨hc.1, hc.2, by rintro ⟨⟩⟩
    · rename_i hnot
      cases hs
      exact h.busy hpc call rfl (fun _ ha => ha) rfl fun hc => ⟨hnot, hc.2 hnot⟩

theorem Invariant.lockCas (h : Invariant s) {call : LockCall} {sq : Option ι}
    (hpc : s.threads i = .lockCas call sq) (hs : advance c prio choice s i = some s') :
    Invariant s' := by
  have hcounts := (h.good i).counts
  rw [hpc] at hcounts
  simp only [advance, hpc] at hs
  split at hs
  · rename_i hsame
    unfold State.unchanged at hsame
    rw [decide_eq_true_iff] at hsame
    cases hs
    apply h.acquire _ _ _ hsame.1 hcounts.2 <;> rw [hpc]
    · rfl
    · exact fun _ ha => ha
    · rfl
  · cases hs
    exact h.busy hpc call rfl (fun _ ha => ha) rfl fun hc => hc

theorem Invariant.lockOwn (h : Invariant s) {timeout : Bool} (hpc : s.threads i = .lockOwn timeout)
    (hs : advance c prio choice s i = some s') : Invariant s' := by
  have hcounts := (h.good i).counts
  rw [hpc] at hcounts
  simp only [advance, hpc] at hs
  split at hs
  · rename_i hfree
    cases hs
    apply h.acquire _ _ _ hfree hcounts.2 <;> rw [hpc]
    · rfl
    · exact fun _ ha => ha
    · rfl
  · rename_i howned
    cases hs
    apply h.push _ _ _ hcounts.1 howned hcounts.2 timeout <;> rw [hpc]
    · rfl
    · exact fun _ ha => ha
    · rfl

-- A thread that was handed the mutex returns from sys_mutex_lock.
omit [DecidableEq κ] in
theorem Invariant.lockReturn (h : Invariant s) (hbefore : (s.threads i).holds = false)
    (howner : s.owner = some i) (hnot : s.mutex = none ∨ s.signal i = true)
    (hcount : s.lockCount = 0) (hdepth : s.depth i = 0) :
    Invariant (((s.signaled i).setDepth i (s.depth i + 1)).goto i (.idle (some (.lock, .ok)))) := by
  apply h.wakes (.idle (some (.lock, .ok))) hbefore rfl howner hnot
  rw [hcount, hdepth]
  exact ⟨fun _ => rfl, fun hn => absurd howner hn, fun _ => howner⟩

theorem Invariant.lockBarrier (h : Invariant s) (hpc : s.threads i = .lockBarrier)
    (hs : advance c prio choice s i = some s') : Invariant s' := by
  have hgood := h.good i
  have hcounts := hgood.counts
  rw [hpc] at hcounts
  simp only [advance, hpc] at hs
  split at hs
  · rename_i hm
    -- no thread is in a section, and the queue was empty before
    have howner : s.owner = some i := by
      rcases hgood.waits (by rw [hpc]; rfl) with hown | ⟨p, hp⟩
      · exact hown
      · have hallows := hgood.allowed p hp
        rw [hpc] at hallows
        cases hallows
        change s.inside.stored = some i at hp
        rw [State.inside, hm] at hp
        cases hp
    cases hs
    exact h.lockReturn (by rw [hpc]; rfl) howner (Or.inl hm) (hcounts.1 howner) hcounts.2
  · cases hs

theorem Invariant.lockTimeoutTry (h : Invariant s) {owner : Option ι} {sq : List ι}
    (hpc : s.threads i = .lockTimeoutTry owner sq) (hs : advance c prio choice s i = some s') :
    Invariant s' := by
  have hm : s.mutex = some i := (h.inside i).mp (by rw [hpc]; rfl)
  have hgood := h.good i
  have hcounts := hgood.counts
  rw [hpc] at hcounts
  have hstored : (s.threads i).stored = none := by rw [hpc]; rfl
  have hmoved : (s.threads i).moved = [] := by rw [hpc]; rfl
  have hleaving : (s.threads i).leaving = false := by rw [hpc]; rfl
  obtain ⟨pushed, hpushed, hnot⟩ : ∃ pushed, s.sq = pushed ++ sq ∧ i ∉ pushed := by
    have hheld := h.held i hm
    rw [hpc] at hheld
    exact hheld
  simp only [advance, hpc] at hs
  split at hs
  · rename_i hnone
    have hsq : i ∉ s.sq := by
      rw [hpushed, List.mem_append]
      rintro (hp | hp)
      · exact hnot hp
      · exact unqueue_eq_none.mp hnone hp
    have howner : s.owner = some i := by
      rcases hgood.waits (by rw [hpc]; rfl) with hown | ⟨p, hp⟩
      · exact hown
      · have hallows := hgood.allowed p hp
        rw [hpc] at hallows
        rcases hallows with he | he
        · rw [he] at hp
          exact absurd hp hsq
        · rw [he, State.at_eq_inside hm, Mutex.At, hstored] at hp
          cases hp
    cases hs
    apply h.wakesInside (.idle (some (.lock, .ok))) hm rfl hstored hmoved hleaving howner
    rw [hcounts.1 howner, hcounts.2]
    exact ⟨fun _ => rfl, fun hn => absurd howner hn, fun _ => howner⟩
  · rename_i rest hsome
    obtain ⟨hmem, rfl⟩ := unqueue_eq_some hsome
    have hmem' : i ∈ s.sq := by
      rw [hpushed]
      exact List.mem_append_right _ hmem
    have hremoved := h.unqueue hm hmem' hstored hmoved hleaving hcounts.2
    split at hs
    · split at hs
      · rename_i hsame
        rw [← State.unchanged_sq h.sq hpushed hsame] at hs
        cases hs
        exact hremoved
      · cases hs
        exact h.proceed hpc .lockTimeoutLoad hm rfl hm rfl rfl rfl rfl rfl (Or.inl rfl) rfl
          (List.Perm.refl _) (fun _ ha => ha) rfl rfl (fun hc => hc) trivial
    · cases hs
      exact hremoved

end Lock

section Unlock

theorem Invariant.unlockCas (h : Invariant s) (hpc : s.threads i = .unlockCas)
    (hs : advance c prio choice s i = some s') : Invariant s' := by
  have hcounts := (h.good i).counts
  rw [hpc] at hcounts
  simp only [advance, hpc] at hs
  split at hs
  · rename_i hsame
    unfold State.unchanged at hsame
    rw [decide_eq_true_iff, List.head?_eq_none_iff] at hsame
    cases hs
    apply h.release _ _ _ hsame.1 hsame.2 hcounts.2.1 hcounts.2.2 <;> rw [hpc]
    · rfl
    · exact fun _ ha => ha
    · rfl
  · cases hs
    exact h.goes hpc .unlockLock rfl rfl (fun _ ha => ha) rfl rfl fun hc => hc

theorem Invariant.unlockCheck (h : Invariant s) {sq : Option ι} (hpc : s.threads i = .unlockCheck sq)
    (hs : advance c prio choice s i = some s') : Invariant s' := by
  simp only [advance, hpc] at hs
  split at hs
  · rename_i hcount
    cases hs
    exact h.goes hpc .unlockDec rfl rfl (fun _ ha => ha) rfl rfl fun hc => ⟨hc.1, hc.2, hcount⟩
  · rename_i hcount
    have hzero : s.lockCount = 0 := not_not.mp hcount
    have hcounts (hc : (.unlockCheck sq : Pc ι κ).Counts (s.owner = some i) s.lockCount (s.depth i)) :
        s.owner = some i ∧ s.lockCount = 0 ∧ s.depth i = 1 := by
      refine ⟨hc.1, hzero, ?_⟩
      rw [← hc.2, hzero]
    split at hs
    · cases hs
      exact h.goes hpc .unlockCas rfl rfl (fun _ ha => ha) rfl rfl hcounts
    · cases hs
      exact h.goes hpc .unlockLock rfl rfl (fun _ ha => ha) rfl rfl hcounts

-- The owner changes its count, from a known place in the code.
omit [DecidableEq κ] in
theorem Invariant.recounts (h : Invariant s) {pc' : Pc ι κ} (hpc : s.threads i = pc') (pc : Pc ι κ)
    (hbefore : pc'.holds = false) (hafter : pc.holds = false) (hnone : ∀ p, ¬ pc'.Allows p)
    (hawake : pc'.waits = false) (hwaits : pc.waits = false) (howner : s.owner = some i)
    (lockCount depth : Nat) (hcounts : pc.Counts (s.owner = some i) lockCount depth) :
    Invariant ({ s.setDepth i depth with lockCount := lockCount }.goto i pc) := by
  apply h.counted pc _ hafter _ _ hwaits howner lockCount depth hcounts <;> rw [hpc]
  · exact hbefore
  · exact hnone
  · exact hawake

-- The `shared_mutex` is taken by a thread at a known place in the code.
omit [DecidableEq κ] in
theorem Invariant.enters (h : Invariant s) {pc' pc : Pc ι κ} (hpc : s.threads i = pc')
    (hs : s.lock i pc = some s') (hafter : pc.holds = true) (hstored : pc.stored = none)
    (hmoved : pc.moved = []) (hallows : ∀ p, pc'.Allows p → pc.Allows p)
    (hleaving : pc.leaving = pc'.leaving) (hwaits : pc.waits = pc'.waits)
    (hcounts : pc'.Counts (s.owner = some i) s.lockCount (s.depth i) →
      pc.Counts (s.owner = some i) s.lockCount (s.depth i)) (hheld : s'.Held i pc) :
    Invariant s' := by
  have hcounts' := (h.good i).counts
  rw [hpc] at hcounts'
  apply h.lock hs hafter hstored hmoved _ _ _ (hcounts hcounts') hheld <;> rw [hpc]
  · exact hallows
  · exact hleaving
  · exact hwaits

end Unlock

section Runs

theorem Invariant.advance (h : Invariant s) (hs : advance c prio choice s i = some s') :
    Invariant s' := by
  cases hpc : s.threads i with
  | idle last => simp only [Mutex.advance, hpc, reduceCtorEq] at hs
  | lockLoad call => exact h.lockLoad hpc hs
  | lockCas call sq => exact h.lockCas hpc hs
  | lockCheck =>
      simp only [Mutex.advance, hpc] at hs
      split at hs
      · cases hs
        exact h.goes hpc (.idle (some (.lock, .ekresource))) rfl rfl (fun _ ha => ha) rfl rfl
          fun hc => ⟨fun _ => hc.2, fun hn => absurd hc.1 hn, by rintro ⟨⟩⟩
      · cases hs
        exact h.goes hpc .lockInc rfl rfl (fun _ ha => ha) rfl rfl fun hc => hc
  | lockInc =>
      have hcounts := (h.good i).counts
      rw [hpc] at hcounts
      simp only [Mutex.advance, hpc] at hs
      cases hs
      apply h.recounts hpc (.idle (some (.lock, .ok))) rfl rfl (fun _ ha => ha) rfl rfl hcounts.1
      rw [hcounts.2]
      exact ⟨fun _ => rfl, fun hn => absurd hcounts.1 hn, fun _ => hcounts.1⟩
  | lockBusy timeout =>
      simp only [Mutex.advance, hpc] at hs
      split at hs
      · cases hs
        exact h.goes hpc (.lockLoad (.lock timeout)) rfl rfl (fun _ ha => ha) rfl rfl
          fun hc => ⟨fun hown => absurd hown hc.1, fun _ => hc.2⟩
      · cases hs
        exact h.goes hpc (.lockOwn timeout) rfl rfl (fun _ ha => ha) rfl rfl fun hc => hc
  | lockOwn timeout => exact h.lockOwn hpc hs
  | lockParked timeout =>
      have hcounts := (h.good i).counts
      rw [hpc] at hcounts
      simp only [Mutex.advance, hpc] at hs
      split at hs
      · rename_i hsignal
        have howner := ((h.good i).signal hsignal).1
        cases hs
        exact h.lockReturn (by rw [hpc]; rfl) howner (Or.inr hsignal) (hcounts.1 howner) hcounts.2
      · cases hs
  | lockExpired =>
      have hallowed := (h.good i).allowed
      have hcounts := (h.good i).counts
      rw [hpc] at hallowed hcounts
      simp only [Mutex.advance, hpc] at hs
      split at hs
      · rename_i hempty
        cases hs
        refine h.sleeps (by rw [hpc]; rfl) rfl (by rw [hpc]; rfl) rfl ?_ hcounts
        intro p hp
        rcases hallowed p hp with he | he
        · rw [he] at hp
          change i ∈ s.sq at hp
          rw [hempty] at hp
          cases hp
        · exact he
      · cases hs
        exact h.sleeps (by rw [hpc]; rfl) rfl (by rw [hpc]; rfl) rfl hallowed hcounts
  | lockBarrier => exact h.lockBarrier hpc hs
  | lockTimeoutLock =>
      simp only [Mutex.advance, hpc] at hs
      exact h.enters hpc hs rfl rfl rfl (fun _ ha => ha) rfl rfl (fun hc => hc) trivial
  | lockTimeoutLoad =>
      have hm : s.mutex = some i := (h.inside i).mp (by rw [hpc]; rfl)
      simp only [Mutex.advance, hpc] at hs
      cases hs
      exact h.proceed hpc (.lockTimeoutTry s.owner s.sq) hm rfl hm rfl rfl rfl rfl rfl (Or.inl rfl)
        rfl (List.Perm.refl _) (fun _ ha => ha) rfl rfl (fun hc => hc) ⟨[], rfl, List.not_mem_nil⟩
  | lockTimeoutTry owner sq => exact h.lockTimeoutTry hpc hs
  | unlockLoad =>
      simp only [Mutex.advance, hpc] at hs
      split at hs
      · rename_i hown
        cases hs
        exact h.goes hpc (.unlockCheck s.sq.head?) rfl rfl (fun _ ha => ha) rfl rfl
          fun hc => ⟨hown, hc.1 hown⟩
      · cases hs
        exact h.goes hpc (.idle (some (.unlock, .eperm))) rfl rfl (fun _ ha => ha) rfl rfl
          fun hc => ⟨hc.1, hc.2, by rintro ⟨⟩⟩
  | unlockCheck sq => exact h.unlockCheck hpc hs
  | unlockDec =>
      have hcounts := (h.good i).counts
      rw [hpc] at hcounts
      obtain ⟨hown, hcount, hne⟩ := hcounts
      simp only [Mutex.advance, hpc] at hs
      cases hs
      apply h.recounts hpc (.idle (some (.unlock, .ok))) rfl rfl (fun _ ha => ha) rfl rfl hown
      refine ⟨fun _ => ?_, fun hn => absurd hown hn, by rintro ⟨⟩⟩
      omega
  | unlockCas => exact h.unlockCas hpc hs
  | unlockLock =>
      simp only [Mutex.advance, hpc] at hs
      exact h.enters hpc hs rfl rfl rfl (fun _ ha => ha) rfl rfl (fun hc => hc) trivial
  | reownLoad after => exact h.reownLoad hpc hs
  | reownTry after owner sq => exact h.reownTry hpc hs
  | reownStore after cpu => exact h.reownStore hpc hs
  | reownAwake after cpu => exact h.reownAwake hpc hs
  | waitCheck cond timeout =>
      simp only [Mutex.advance, hpc] at hs
      split at hs
      · rename_i hown
        cases hs
        exact h.goes hpc (.waitLock cond timeout) rfl rfl (fun _ ha => ha) rfl rfl
          fun hc => ⟨hown, hc.1 hown⟩
      · cases hs
        exact h.goes hpc (.idle (some (.wait, .eperm))) rfl rfl (fun _ ha => ha) rfl rfl
          fun hc => ⟨hc.1, hc.2, by rintro ⟨⟩⟩
  | waitLock cond timeout =>
      simp only [Mutex.advance, hpc] at hs
      exact h.enters hpc hs rfl rfl rfl (fun _ ha => ha) rfl rfl (fun hc => hc) trivial
  | waitEmplace cond timeout => exact h.waitEmplace hpc hs
  | waitExchange cond timeout => exact h.waitExchange hpc hs
  | waitParked cond timeout count code =>
      have hcounts := (h.good i).counts
      rw [hpc] at hcounts
      simp only [Mutex.advance, hpc] at hs
      split at hs
      · rename_i hsignal
        have howner := ((h.good i).signal hsignal).1
        have hwakes := h.wakes (.waitEnsure count code) (by rw [hpc]; rfl) rfl howner
          (Or.inr hsignal) (s.depth i) ⟨howner, hcounts.1 howner, hcounts.2⟩
        rw [show (s.signaled i).setDepth i (s.depth i) = s.signaled i from State.setDepth_self i]
          at hwakes
        cases hs
        exact hwakes
      · cases hs
  | waitTimeoutLock cond count code =>
      simp only [Mutex.advance, hpc] at hs
      exact h.enters hpc hs rfl rfl rfl (fun _ ha => ha) rfl rfl (fun hc => hc) trivial
  | waitUnqueue cond count code => exact h.waitUnqueue hpc hs
  | waitOwn cond count => exact h.waitOwn hpc hs
  | waitOwnerCheck cond count code => exact h.waitOwnerCheck hpc hs
  | waitEnsure count code =>
      have hcounts := (h.good i).counts
      rw [hpc] at hcounts
      simp only [Mutex.advance, hpc, if_pos hcounts.1] at hs
      cases hs
      exact h.goes hpc (.waitRestore count code) rfl rfl (fun _ ha => ha) rfl rfl fun hc => hc
  | waitRestore count code =>
      have hcounts := (h.good i).counts
      rw [hpc] at hcounts
      have hrestored := h.recounts hpc (.idle (some (.wait, code))) rfl rfl (fun _ ha => ha) rfl rfl
        hcounts.1 count (s.depth i)
        ⟨fun _ => hcounts.2.2.symm, fun hn => absurd hcounts.1 hn, fun _ => hcounts.1⟩
      rw [State.setDepth_self i] at hrestored
      simp only [Mutex.advance, hpc] at hs
      cases hs
      exact hrestored
  | signalLoad cond call =>
      simp only [Mutex.advance, hpc] at hs
      split at hs
      · cases hs
        exact h.goes hpc (.idle (some (.signal, .esrch))) rfl rfl (fun _ ha => ha) rfl rfl
          fun hc => ⟨hc.1, hc.2, by rintro ⟨⟩⟩
      · split at hs
        · cases hs
          exact h.goes hpc (.signalBarrier cond call) rfl rfl (fun _ ha => ha) rfl rfl fun hc => hc
        · cases hs
          exact h.goes hpc (.signalLock cond call) rfl rfl (fun _ ha => ha) rfl rfl fun hc => hc
  | signalBarrier cond call =>
      simp only [Mutex.advance, hpc] at hs
      split at hs
      · split at hs
        · cases hs
          exact h.goes hpc (.signalLoad cond call) rfl rfl (fun _ ha => ha) rfl rfl fun hc => hc
        · cases hs
          exact h.goes hpc (.idle (some (.signal, call.missed))) rfl rfl (fun _ ha => ha) rfl rfl
            fun hc => ⟨hc.1, hc.2, by rintro ⟨⟩⟩
      · cases hs
  | signalLock cond call =>
      simp only [Mutex.advance, hpc] at hs
      exact h.enters hpc hs rfl rfl rfl (fun _ ha => ha) rfl rfl (fun hc => hc) trivial
  | signalCheck cond call =>
      have hm : s.mutex = some i := (h.inside i).mp (by rw [hpc]; rfl)
      simp only [Mutex.advance, hpc] at hs
      split at hs
      · cases hs
        exact h.proceed hpc (.signalLoad cond call) hm rfl rfl rfl rfl rfl rfl rfl (Or.inl rfl) rfl
          (List.Perm.refl _) (fun _ ha => ha) rfl rfl (fun hc => hc) trivial
      · cases hs
        cases call with
        | one =>
            exact h.proceed hpc (.signalSchedule cond) hm rfl hm rfl rfl rfl rfl rfl (Or.inl rfl) rfl
              (List.Perm.refl _) (fun _ ha => ha) rfl rfl (fun hc => hc) trivial
        | all =>
            exact h.proceed hpc (.allTake cond) hm rfl hm rfl rfl rfl rfl rfl (Or.inl rfl) rfl
              (List.Perm.refl _) (fun _ ha => ha) rfl rfl (fun hc => hc) trivial
        | target cpu =>
            exact h.proceed hpc (.signalUnqueue cond cpu) hm rfl hm rfl rfl rfl rfl rfl (Or.inl rfl)
              rfl (List.Perm.refl _) (fun _ ha => ha) rfl rfl (fun hc => hc) trivial
  | signalSchedule cond => exact h.signalSchedule hpc hs
  | signalUnqueue cond cpu => exact h.signalUnqueue hpc hs
  | signalOwn cpu => exact h.signalOwn hpc hs
  | signalAwake cpu => exact h.signalAwake hpc hs
  | allTake cond => exact h.allTake hpc hs
  | allSchedule sq result => exact h.allSchedule hpc hs
  | allOwn cpu sq result => exact h.allOwn hpc hs
  | failed =>
      have hcounts := (h.good i).counts
      rw [hpc] at hcounts
      exact hcounts.elim

theorem Invariant.step (h : Invariant s) (hs : Step c s s') : Invariant s' := by
  cases hs with
  | call i last call hidle =>
      cases call with
      | lock call =>
          exact h.goes hidle (.lockLoad call) rfl rfl (fun _ ha => ha) rfl rfl fun hc => ⟨hc.1, hc.2.1⟩
      | unlock =>
          exact h.goes hidle .unlockLoad rfl rfl (fun _ ha => ha) rfl rfl fun hc => ⟨hc.1, hc.2.1⟩
      | wait cond timeout =>
          exact h.goes hidle (.waitCheck cond timeout) rfl rfl (fun _ ha => ha) rfl rfl
            fun hc => ⟨hc.1, hc.2.1⟩
      | signal cond call =>
          exact h.goes hidle (.signalLoad cond call) rfl rfl (fun _ ha => ha) rfl rfl
            fun hc => ⟨hc.1, hc.2.1⟩
  | run i prio choice s' hrun => exact h.advance hrun
  | expireLock i hparked =>
      have hgood := h.good i
      unfold State.Good at hgood
      rw [hparked] at hgood
      exact h.sleeps (by rw [hparked]; rfl) rfl (by rw [hparked]; rfl) rfl hgood.allowed hgood.counts
  | expireWait i cond count code hparked =>
      have hgood := h.good i
      unfold State.Good at hgood
      rw [hparked] at hgood
      exact h.sleeps (by rw [hparked]; rfl) rfl (by rw [hparked]; rfl) rfl hgood.allowed hgood.counts

theorem Invariant.reachable (h : Reachable c s) : Invariant s :=
  invariant_of_reachable Invariant.start (fun _ _ hinv hs => hinv.step hs) h

end Runs

section Results

-- Inside sys_cond_wait.
def Pc.inWait : Pc ι κ → Bool
  | waitCheck _ _ | waitLock _ _ | waitEmplace _ _ | waitExchange _ _ | reownLoad (.wait _ _ _)
  | reownTry (.wait _ _ _) _ _ | reownStore (.wait _ _ _) _ | reownAwake (.wait _ _ _) _
  | waitParked _ _ _ _ | waitTimeoutLock _ _ _ | waitUnqueue _ _ _ | waitOwn _ _
  | waitOwnerCheck _ _ _ | waitEnsure _ _ | waitRestore _ _ => true
  | _ => false

theorem advance_depth_of_ne (hs : advance c prio choice s j = some s') (hne : i ≠ j) :
    s'.depth i = s.depth i := by
  cases hpc : s.threads j <;> simp only [advance, hpc, State.lock] at hs <;>
    (repeat' split at hs) <;> cases hs <;>
    first | rfl | exact Function.update_of_ne hne _ _ | exact After.release_depth_of_ne _ hne

theorem advance_depth_of_inWait (hs : advance c prio choice s i = some s')
    (hwait : (s.threads i).inWait = true) : s'.depth i = s.depth i := by
  cases hpc : s.threads i with
  | reownLoad after | reownTry after _ _ | reownStore after _ =>
      cases after with
      | unlock =>
          rw [hpc] at hwait
          cases hwait
      | wait cond timeout count =>
          simp only [advance, hpc] at hs
          (repeat' split at hs) <;> cases hs <;> rfl
  | reownAwake after cpu =>
      cases cpu <;> simp only [advance, hpc] at hs <;> cases hs <;> rfl
  | waitCheck _ _ | waitLock _ _ | waitEmplace _ _ | waitExchange _ _ | waitParked _ _ _ _
  | waitTimeoutLock _ _ _ | waitUnqueue _ _ _ | waitOwn _ _ | waitOwnerCheck _ _ _ | waitEnsure _ _
  | waitRestore _ _ =>
      simp only [advance, hpc, State.lock] at hs
      (repeat' split at hs) <;> cases hs <;> rfl
  | _ =>
      rw [hpc] at hwait
      cases hwait

-- What a thread locks again and again is counted while it waits.
theorem step_depth_of_inWait (hs : Step c s s') (hwait : (s.threads i).inWait = true) :
    s'.depth i = s.depth i := by
  cases hs with
  | call j last call hidle => rfl
  | run j prio choice s' hrun =>
      by_cases hj : i = j
      · rw [← hj] at hrun
        exact advance_depth_of_inWait hrun hwait
      · exact advance_depth_of_ne hrun hj
  | expireLock j hparked => rfl
  | expireWait j cond count code hparked => rfl

-- A thread has locked the mutex more often than unlocked it, and does not wait.
def State.Holds (s : State ι κ) (i : ι) : Prop := 0 < s.depth i ∧ (s.threads i).inWait = false

omit [DecidableEq ι] [DecidableEq κ] in
theorem Pc.Counts.own_of_depth {pc : Pc ι κ} {own : Prop} {lockCount depth : Nat}
    (h : pc.Counts own lockCount depth) (hdepth : 0 < depth) (hwait : pc.inWait = false) : own := by
  by_contra hown
  have hzero : depth = 0 := by
    cases pc with
    | reownLoad after | reownTry after _ _ | reownStore after _ =>
        cases after with
        | unlock => exact absurd h.1 hown
        | wait cond timeout count => cases hwait
    | reownAwake after cpu =>
        cases after with
        | unlock => exact h.2
        | wait cond timeout count => cases hwait
    | idle last => exact h.2.1 hown
    | lockCheck | lockInc | unlockCheck _ | unlockDec | unlockCas | unlockLock =>
        exact absurd h.1 hown
    | lockCas _ _ | lockBusy _ | lockOwn _ | lockParked _ | lockExpired | lockBarrier
    | lockTimeoutLock | lockTimeoutLoad | lockTimeoutTry _ _ => exact h.2
    | failed => exact h.elim
    | _ => first | exact h.2 hown | cases hwait
  omega

-- One owner; every thread in at most one queue, and not with the mutex but for the moment in which
-- sys_cond_wait gives it up; a thread that comes back has it, as often as before.
theorem mutex_invariant (h : Reachable c s) :
    (∀ i, s.Holds i → s.owner = some i) ∧
      (s.owner = none → s.sq = []) ∧
      s.sq.Nodup ∧ (∀ cond, (s.conds cond).Nodup) ∧
      (∀ i cond, i ∈ s.sq → i ∉ s.conds cond) ∧
      (∀ i cond cond', i ∈ s.conds cond → i ∈ s.conds cond' → cond = cond') ∧
      (∀ i ∈ s.sq, s.owner ≠ some i) ∧
      (∀ i cond, i ∈ s.conds cond → s.owner = some i →
        s.mutex = some i ∧ (s.threads i).leaving = true) ∧
      (∀ i last, s.threads i = .idle (some last) → Pc.acquired last = true → s.owner = some i) ∧
      (∀ i last, s.threads i = .idle last → s.owner = some i → s.lockCount + 1 = s.depth i) ∧
      (∀ i s', (s.threads i).inWait = true → Step c s s' → s'.depth i = s.depth i) ∧
      ∀ i, s.threads i ≠ .failed := by
  have hinv := Invariant.reachable h
  refine ⟨?_, fun hnone => (hinv.free hnone).1, hinv.sq, hinv.conds, ?_, ?_, ?_, ?_, ?_, ?_, ?_, ?_⟩
  · intro i hi
    exact (hinv.good i).counts.own_of_depth hi.1 hi.2
  · intro i cond hsq hcond
    cases (hinv.good i).once .sq (.cond cond) hsq hcond
  · intro i cond cond' hcond hcond'
    exact Place.cond.inj ((hinv.good i).once (.cond cond) (.cond cond') hcond hcond')
  · intro i hsq hown
    have hallows := (hinv.good i).allowed .sq hsq
    have hleaving := (hinv.good i).leaving .sq hsq hown
    rw [Pc.not_leaving_of_waits hallows.waits_of_sq] at hleaving
    cases hleaving
  · intro i cond hcond hown
    have hleaving := (hinv.good i).leaving (.cond cond) hcond hown
    refine ⟨(hinv.inside i).mp ?_, hleaving⟩
    cases hholds : (s.threads i).holds with
    | true => rfl
    | false =>
        rw [Pc.not_leaving_of_not_holds hholds] at hleaving
        cases hleaving
  · intro i last hidle hacquired
    have hcounts := (hinv.good i).counts
    rw [hidle] at hcounts
    exact hcounts.2.2 hacquired
  · intro i last hidle hown
    have hcounts := (hinv.good i).counts
    rw [hidle] at hcounts
    exact hcounts.1 hown
  · intro i s' hwait hs
    exact step_depth_of_inWait hs hwait
  · intro i hfailed
    have hcounts := (hinv.good i).counts
    rw [hfailed] at hcounts
    exact hcounts

end Results

-- The only thread of a process locks the mutex: it is the owner, with the mutex locked once.
theorem mutex_invariant_locked :
    ∃ s : State (Fin 1) Unit, Reachable ⟨.fifo, false⟩ s ∧ s.Holds 0 ∧ s.owner = some 0 ∧
      s.lockCount + 1 = s.depth 0 := by
  have hprio : Fin 1 → Prio := fun _ => ⟨0, 0⟩
  have hcall : Reachable ⟨.fifo, false⟩
      ((State.start (κ := Unit)).goto (0 : Fin 1) (.lockLoad (.lock false))) :=
    .single (.call 0 none (.lock (.lock false)) rfl)
  have hload := hcall.tail (.run 0 hprio false _ rfl)
  have hcas := hload.tail (.run 0 hprio false _ rfl)
  obtain ⟨hholds, -, -, -, -, -, -, -, -, hcount, -, -⟩ := mutex_invariant hcas
  have howner := hholds 0 ⟨Nat.zero_lt_one, rfl⟩
  exact ⟨_, hcas, ⟨Nat.zero_lt_one, rfl⟩, howner, hcount 0 _ rfl howner⟩

-- The owner of the mutex is in the queue of the condition variable it begins to wait for.
theorem owner_in_cond_queue :
    ∃ s : State (Fin 1) Unit, Reachable ⟨.fifo, false⟩ s ∧ 0 ∈ s.conds () ∧ s.owner = some 0 := by
  have hprio : Fin 1 → Prio := fun _ => ⟨0, 0⟩
  have hcall : Reachable ⟨.fifo, false⟩
      ((State.start (κ := Unit)).goto (0 : Fin 1) (.lockLoad (.lock false))) :=
    .single (.call 0 none (.lock (.lock false)) rfl)
  have hload := hcall.tail (.run 0 hprio false _ rfl)
  have hcas := hload.tail (.run 0 hprio false _ rfl)
  have hwait := hcas.tail (.call 0 _ (.wait () false) rfl)
  have hcheck := hwait.tail (.run 0 hprio false _ rfl)
  have hlock := hcheck.tail (.run 0 hprio false _ rfl)
  have hemplace := hlock.tail (.run 0 hprio false _ rfl)
  exact ⟨_, hemplace, List.mem_cons_self, rfl⟩

end Rpcsx.Lv2.Mutex
