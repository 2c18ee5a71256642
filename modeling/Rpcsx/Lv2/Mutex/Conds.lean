import Rpcsx.Lv2.Mutex.Reown

namespace Rpcsx.Lv2.Mutex

open Data.Interleaving

variable {ι κ : Type} [DecidableEq ι] [DecidableEq κ] {c : Config} {prio : ι → Prio} {choice : Bool}
  {s s' : State ι κ} {i j : ι}

section Waits

-- sys_cond_wait: the owner is in the queue of the condition variable before it gives up the mutex.
theorem Invariant.waitEmplace (h : Invariant s) {cond : κ} {timeout : Bool}
    (hpc : s.threads i = .waitEmplace cond timeout) (hs : advance c prio choice s i = some s') :
    Invariant s' := by
  have hm : s.mutex = some i := (h.inside i).mp (by rw [hpc]; rfl)
  have hnowhere := h.nowhere (i := i) (by rw [hpc]; exact fun _ ha => ha)
  have hcounts := (h.good i).counts
  rw [hpc] at hcounts
  have hsilent := h.silent (i := i) (by rw [hpc]; rfl)
  simp only [advance, hpc] at hs
  cases hs
  refine h.transfer (.waitExchange cond timeout) i hm rfl hm h.free h.sq ?_ List.nodup_nil
    (fun _ _ => Iff.rfl) ?_ ?_ ?_ (fun _ _ _ => Iff.rfl) (fun _ _ _ _ => rfl) (fun _ _ => rfl) rfl
    (fun hne => absurd rfl hne) ?_ trivial
  · exact nodup_update h.conds (List.nodup_cons.mpr ⟨hnowhere (.cond cond), h.conds cond⟩)
  · intro j k hj
    apply mem_update
    rw [emplace, List.mem_cons]
    exact ⟨fun hjm => hjm.resolve_left hj, Or.inr⟩
  · rw [hpc]
    exact fun _ _ => Iff.rfl
  · rw [hpc]
    exact fun _ _ => Iff.rfl
  · rw [hsilent]
    refine Good.only (.cond cond) ?_ rfl (fun _ => rfl) hcounts
    intro p
    cases p with
    | sq => exact ⟨fun hp => absurd hp (hnowhere .sq), by rintro ⟨⟩⟩
    | cond k =>
        change i ∈ Function.update s.conds cond (i :: s.conds cond) k ↔ _
        by_cases hk : k = cond
        · rw [hk, Function.update_self]
          exact ⟨fun _ => rfl, fun _ => List.mem_cons_self⟩
        · rw [Function.update_of_ne hk]
          exact ⟨fun hp => absurd hp (hnowhere (.cond k)), fun he => absurd (Place.cond.inj he) hk⟩
    | stored => exact ⟨by rintro ⟨⟩, by rintro ⟨⟩⟩
    | moved => exact ⟨by rintro ⟨⟩, by rintro ⟨⟩⟩

theorem Invariant.waitExchange (h : Invariant s) {cond : κ} {timeout : Bool}
    (hpc : s.threads i = .waitExchange cond timeout) (hs : advance c prio choice s i = some s') :
    Invariant s' := by
  have hm : s.mutex = some i := (h.inside i).mp (by rw [hpc]; rfl)
  have hcounts := (h.good i).counts
  rw [hpc] at hcounts
  simp only [advance, hpc] at hs
  cases hs
  exact h.proceed hpc (.reownLoad (.wait cond timeout s.lockCount)) hm rfl hm rfl rfl rfl rfl rfl
    (Or.inr hcounts.1) rfl (List.Perm.refl _) (fun _ ha => ha) rfl rfl
    (fun hc => ⟨hc.1, rfl, hc.2.symm⟩) trivial

-- The wait timed out: the thread takes itself from the queue, if it is still there.
theorem Invariant.waitUnqueue (h : Invariant s) {cond : κ} {count : Nat} {code : Code}
    (hpc : s.threads i = .waitUnqueue cond count code) (hs : advance c prio choice s i = some s') :
    Invariant s' := by
  have hm : s.mutex = some i := (h.inside i).mp (by rw [hpc]; rfl)
  have hcounts := (h.good i).counts
  rw [hpc] at hcounts
  simp only [advance, hpc] at hs
  split at hs
  · rename_i sq hsome
    obtain ⟨hmem, rfl⟩ := unqueue_eq_some hsome
    have hat : s.At i (.cond cond) := hmem
    have hnot : s.owner ≠ some i := by
      intro hown
      have hleaving := (h.good i).leaving (.cond cond) hat hown
      rw [hpc] at hleaving
      cases hleaving
    cases hs
    refine h.transfer (.waitOwn cond count) i hm rfl hm h.free h.sq ?_ List.nodup_nil
      (fun _ _ => Iff.rfl) ?_ ?_ ?_ (fun _ _ _ => Iff.rfl) (fun _ _ _ _ => rfl) (fun _ _ => rfl) rfl
      (fun hne => absurd rfl hne) ?_ trivial
    · exact nodup_update h.conds ((h.conds cond).erase i)
    · intro j k hj
      exact mem_update (List.mem_erase_of_ne hj) k
    · rw [hpc]
      exact fun _ _ => Iff.rfl
    · rw [hpc]
      exact fun _ _ => Iff.rfl
    · rw [(h.good i).signal_eq_false hnot]
      refine Good.nowhere ?_ (by rintro ⟨⟩) rfl ⟨hnot, hcounts.2⟩
      intro p hp
      cases p with
      | sq => cases (h.good i).once .sq (.cond cond) hp hat
      | cond k =>
          apply not_mem_update (h.conds cond).not_mem_erase _ k hp
          intro k hk
          exact Place.cond.inj ((h.good i).once (.cond k) (.cond cond) hk hat)
      | stored => cases hp
      | moved => cases hp
  · cases hs
    exact h.proceed hpc (.waitOwnerCheck cond count code) hm rfl hm rfl rfl rfl rfl rfl
      (Or.inl rfl) rfl (List.Perm.refl _) (fun _ ha => ha) rfl rfl (fun hc => hc) trivial

theorem Invariant.waitOwn (h : Invariant s) {cond : κ} {count : Nat}
    (hpc : s.threads i = .waitOwn cond count) (hs : advance c prio choice s i = some s') :
    Invariant s' := by
  have hm : s.mutex = some i := (h.inside i).mp (by rw [hpc]; rfl)
  have hnowhere := h.nowhere (i := i) (by rw [hpc]; exact fun _ ha => ha)
  have hsilent := h.silent (i := i) (by rw [hpc]; rfl)
  have hcounts := (h.good i).counts
  rw [hpc] at hcounts
  simp only [advance, hpc] at hs
  split at hs
  · rename_i hfree
    cases hs
    refine h.transfer (.waitEnsure count .etimedout) i hm rfl rfl (by rintro ⟨⟩) h.sq h.conds List.nodup_nil
      (fun _ _ => Iff.rfl) (fun _ _ _ => Iff.rfl) ?_ ?_ ?_ (fun _ _ _ _ => rfl) (fun _ _ => rfl) rfl
      (fun hne => absurd rfl hne) ?_ trivial
    · rw [hpc]
      exact fun _ _ => Iff.rfl
    · rw [hpc]
      exact fun _ _ => Iff.rfl
    · intro j hj _
      change some i = some j ↔ s.owner = some j
      rw [hfree]
      exact ⟨fun he => absurd (Option.some.inj he).symm hj, by rintro ⟨⟩⟩
    · rw [hsilent]
      refine Good.nowhere ?_ (by rintro ⟨⟩) rfl ⟨rfl, (h.free hfree).2, hcounts.2⟩
      intro p hp
      cases p with
      | sq => exact hnowhere .sq hp
      | cond k => exact hnowhere (.cond k) hp
      | stored => cases hp
      | moved => cases hp
  · rename_i howned
    cases hs
    refine h.transfer (.waitParked cond false count .etimedout) i hm rfl rfl ?_ ?_ h.conds
      List.nodup_nil ?_ (fun _ _ _ => Iff.rfl) ?_ ?_ (fun _ _ _ => Iff.rfl) (fun _ _ _ _ => rfl)
      (fun _ _ => rfl) rfl (fun hne => absurd rfl hne) ?_ trivial
    · intro hnone
      exact absurd hnone howned
    · exact List.nodup_cons.mpr ⟨hnowhere .sq, h.sq⟩
    · intro j hj
      exact ⟨fun hjm => (List.mem_cons.mp hjm).resolve_left hj, List.mem_cons_of_mem _⟩
    · rw [hpc]
      exact fun _ _ => Iff.rfl
    · rw [hpc]
      exact fun _ _ => Iff.rfl
    · rw [hsilent]
      refine Good.only .sq ?_ (Or.inl rfl) (fun hown => absurd hown hcounts.1)
        ⟨fun hown => absurd hown hcounts.1, hcounts.2⟩
      intro p
      cases p with
      | sq => exact ⟨fun _ => rfl, fun _ => List.mem_cons_self⟩
      | cond k => exact ⟨fun hp => absurd hp (hnowhere (.cond k)), by rintro ⟨⟩⟩
      | stored => exact ⟨by rintro ⟨⟩, by rintro ⟨⟩⟩
      | moved => exact ⟨by rintro ⟨⟩, by rintro ⟨⟩⟩

theorem Invariant.waitOwnerCheck (h : Invariant s) {cond : κ} {count : Nat} {code : Code}
    (hpc : s.threads i = .waitOwnerCheck cond count code)
    (hs : advance c prio choice s i = some s') : Invariant s' := by
  have hm : s.mutex = some i := (h.inside i).mp (by rw [hpc]; rfl)
  have hcounts := (h.good i).counts
  rw [hpc] at hcounts
  simp only [advance, hpc] at hs
  split at hs
  · rename_i hown
    cases hs
    have hwakes := h.wakesInside (.waitEnsure count code) hm rfl (by rw [hpc]; rfl)
      (by rw [hpc]; rfl) (by rw [hpc]; rfl) hown (s.depth i) ⟨hown, hcounts.1 hown, hcounts.2⟩
    rw [show (s.signaled i).setDepth i (s.depth i) = s.signaled i from State.setDepth_self i]
      at hwakes
    exact hwakes
  · cases hs
    exact h.proceed hpc (.waitParked cond false count code) hm rfl rfl rfl rfl rfl rfl rfl
      (Or.inl rfl) rfl (List.Perm.refl _) (fun _ ha => ha) rfl rfl (fun hc => hc) trivial

end Waits

section Signals

-- A thread is taken from the queue of a condition variable.
theorem Invariant.take (h : Invariant s) {cond : κ} {cpu : ι} {sq : List ι} (hm : s.mutex = some i)
    (hstored : (s.threads i).stored = none) (hmoved : (s.threads i).moved = [])
    (hnone : ∀ p, ¬ (s.threads i).Allows p)
    (hcounts : (.signalOwn cpu : Pc ι κ).Counts (s.owner = some i) s.lockCount (s.depth i))
    (hwaits : (s.threads i).waits = false) (hmem : cpu ∈ s.conds cond) (hnodup : sq.Nodup)
    (hnot : cpu ∉ sq) (hsq : ∀ j, j ≠ cpu → (j ∈ sq ↔ j ∈ s.conds cond)) :
    Invariant ((s.setCond cond sq).goto i (.signalOwn cpu)) := by
  have hnowhere := h.nowhere hnone
  have hat : s.At cpu (.cond cond) := hmem
  have hcpu : cpu ≠ i := by
    intro he
    rw [he] at hat
    exact hnowhere _ hat
  have hholds := h.inside.not_holds_of_ne (Or.inr hm) hcpu
  have hnotown : s.owner ≠ some cpu := by
    intro hown
    have hleaving := (h.good cpu).leaving _ hat hown
    rw [Pc.not_leaving_of_not_holds hholds] at hleaving
    cases hleaving
  have hothers (k : κ) (hk : cpu ∈ s.conds k) : k = cond :=
    Place.cond.inj ((h.good cpu).once (.cond k) (.cond cond) hk hat)
  refine h.transfer (.signalOwn cpu) cpu hm rfl hm h.free h.sq ?_ (List.nodup_singleton cpu)
    (fun _ _ => Iff.rfl) ?_ ?_ ?_ (fun _ _ _ => Iff.rfl) (fun _ _ _ _ => rfl) (fun _ _ => rfl) rfl ?_
    ?_ trivial
  · exact nodup_update h.conds hnodup
  · intro j k hj
    exact mem_update (hsq j hj) k
  · rw [hstored]
    exact fun _ _ => Iff.rfl
  · intro j hj
    rw [hmoved]
    exact ⟨fun hjm => absurd (List.mem_singleton.mp hjm) hj, nofun⟩
  · intro _
    rw [(h.good cpu).signal_eq_false hnotown]
    apply (h.good cpu).put hnotown hnotown .moved
      (((h.good cpu).allowed _ hat).moved_of_cond hholds)
    intro p
    cases p with
    | sq => exact ⟨fun hp => absurd ((h.good cpu).once .sq (.cond cond) hp hat) nofun, nofun⟩
    | cond k => exact ⟨fun hp => absurd hp (not_mem_update hnot hothers k), nofun⟩
    | stored => exact ⟨nofun, nofun⟩
    | moved => exact ⟨fun _ => rfl, fun _ => List.mem_singleton_self cpu⟩
  · rw [h.silent hwaits]
    refine Good.nowhere ?_ nofun rfl hcounts
    intro p hp
    cases p with
    | sq => exact hnowhere .sq hp
    | cond k => exact hnowhere (.cond k) ((mem_update (hsq i hcpu.symm) k).mp hp)
    | stored => cases hp
    | moved => exact hcpu (List.mem_singleton.mp hp).symm

theorem Invariant.signalSchedule (h : Invariant s) {cond : κ}
    (hpc : s.threads i = .signalSchedule cond) (hs : advance c prio choice s i = some s') :
    Invariant s' := by
  have hm : s.mutex = some i := (h.inside i).mp (by rw [hpc]; rfl)
  have hcounts := (h.good i).counts
  rw [hpc] at hcounts
  simp only [advance, hpc] at hs
  split at hs
  · cases hs
    exact h.proceed hpc (.idle (some (.signal, .ok))) hm rfl rfl rfl rfl rfl rfl rfl (Or.inl rfl) rfl
      (List.Perm.refl _) (fun _ ha => ha) rfl rfl (fun hc => ⟨hc.1, hc.2, by rintro ⟨⟩⟩) trivial
  · rename_i cpu sq hsome
    have hperm := schedule_perm hsome
    have hnodup := List.nodup_cons.mp (hperm.nodup_iff.mp (h.conds cond))
    cases hs
    refine h.take hm (by rw [hpc]; rfl) (by rw [hpc]; rfl) (by rw [hpc]; exact fun _ ha => ha)
      hcounts (by rw [hpc]; rfl) (hperm.mem_iff.mpr List.mem_cons_self) hnodup.2 hnodup.1 ?_
    intro j hj
    rw [hperm.mem_iff, List.mem_cons]
    exact ⟨Or.inr, fun hjm => hjm.resolve_left hj⟩

theorem Invariant.signalUnqueue (h : Invariant s) {cond : κ} {cpu : ι}
    (hpc : s.threads i = .signalUnqueue cond cpu) (hs : advance c prio choice s i = some s') :
    Invariant s' := by
  have hm : s.mutex = some i := (h.inside i).mp (by rw [hpc]; rfl)
  have hcounts := (h.good i).counts
  rw [hpc] at hcounts
  simp only [advance, hpc] at hs
  split at hs
  · rename_i hmem
    split at hs
    · rename_i hnone
      exact absurd hmem (unqueue_eq_none.mp hnone)
    · rename_i sq hsome
      obtain ⟨_, rfl⟩ := unqueue_eq_some hsome
      cases hs
      exact h.take hm (by rw [hpc]; rfl) (by rw [hpc]; rfl) (by rw [hpc]; exact fun _ ha => ha)
        hcounts (by rw [hpc]; rfl) hmem ((h.conds cond).erase cpu) (h.conds cond).not_mem_erase
        fun j hj => List.mem_erase_of_ne hj
  · cases hs
    exact h.proceed hpc (.idle (some (.signal, .eperm))) hm rfl rfl rfl rfl rfl rfl rfl (Or.inl rfl)
      rfl (List.Perm.refl _) (fun _ ha => ha) rfl rfl (fun hc => ⟨hc.1, hc.2, by rintro ⟨⟩⟩) trivial

-- What is known of the first of the threads that were taken from a queue.
omit [DecidableEq ι] [DecidableEq κ] in
theorem Invariant.moved_head (h : Invariant s) {cpu : ι} {rest : List ι} (hm : s.mutex = some i)
    (hmoved : (s.threads i).moved = cpu :: rest) (hnone : ∀ p, ¬ (s.threads i).Allows p) :
    cpu ≠ i ∧ cpu ∉ rest ∧ rest.Nodup ∧ s.owner ≠ some cpu ∧ (s.threads cpu).Allows .moved ∧
      (s.threads cpu).waits = true ∧ cpu ∉ s.sq ∧ ∀ cond, cpu ∉ s.conds cond := by
  have hat : s.At cpu .moved := by
    rw [State.at_eq_inside hm]
    change cpu ∈ (s.threads i).moved
    rw [hmoved]
    exact List.mem_cons_self
  have hallows := (h.good cpu).allowed _ hat
  have hcpu : cpu ≠ i := by
    intro he
    rw [he] at hallows
    exact hnone _ hallows
  have hholds := h.inside.not_holds_of_ne (Or.inr hm) hcpu
  have hnodup : (cpu :: rest).Nodup := by
    have hall := h.moved
    rw [State.inside, hm] at hall
    dsimp only at hall
    rw [hmoved] at hall
    exact hall
  rw [List.nodup_cons] at hnodup
  refine ⟨hcpu, hnodup.1, hnodup.2, ?_, hallows, hallows.waits hholds, ?_, ?_⟩
  · intro hown
    have hleaving := (h.good cpu).leaving _ hat hown
    rw [Pc.not_leaving_of_not_holds hholds] at hleaving
    cases hleaving
  · intro hsq
    cases (h.good cpu).once .sq .moved hsq hat
  · intro cond hc
    cases (h.good cpu).once (.cond cond) .moved hc hat

-- lv2_mutex::try_own for a thread that was taken from a queue: the mutex is free.
omit [DecidableEq κ] in
theorem Invariant.movedOwn (h : Invariant s) (pc : Pc ι κ) {cpu : ι} {rest : List ι}
    (hm : s.mutex = some i) (hmoved : (s.threads i).moved = cpu :: rest)
    (hstored : (s.threads i).stored = none) (hnone : ∀ p, ¬ (s.threads i).Allows p)
    (hawake : (s.threads i).waits = false) (hholds : pc.holds = true) (hrest : pc.moved = rest)
    (hstored' : pc.stored = none) (hwaits : pc.waits = false) (hleaving : pc.leaving = false)
    (hcounts : pc.Counts (some cpu = some i) s.lockCount (s.depth i)) (howner : s.owner = none)
    (hheld : ∀ t : State ι κ, t.Handed cpu → t.Held i pc) :
    Invariant ((s.own (some cpu)).goto i pc) := by
  obtain ⟨hcpu, hnot, hnodup, hnotown, _, hwaiting, hsq, hconds⟩ := h.moved_head hm hmoved hnone
  have hnowhere := h.nowhere hnone
  have hsilent := (h.good cpu).signal_eq_false hnotown
  refine h.transfer pc cpu hm rfl ?_ nofun h.sq h.conds ?_ (fun _ _ => Iff.rfl)
    (fun _ _ _ => Iff.rfl) ?_ ?_ ?_ (fun _ _ _ _ => rfl) (fun _ _ => rfl) rfl ?_ ?_ ?_
  · rw [hholds]
    exact hm
  · rw [hrest]
    exact hnodup
  · rw [hstored, hstored']
    exact fun _ _ => Iff.rfl
  · intro j hj
    rw [hrest, hmoved, List.mem_cons]
    exact ⟨Or.inr, fun hjm => hjm.resolve_left hj⟩
  · intro j hj _
    change some cpu = some j ↔ s.owner = some j
    rw [howner]
    exact ⟨fun he => absurd (Option.some.inj he).symm hj, nofun⟩
  · intro _
    have hzero : ((s.own (some cpu)).goto i pc).lockCount = 0 := (h.free howner).2
    rw [hzero, hsilent]
    apply (h.good cpu).handed hnotown rfl hwaiting
    intro p hp
    cases p with
    | sq => exact hsq hp
    | cond cond => exact hconds cond hp
    | stored =>
        change pc.stored = some cpu at hp
        rw [hstored'] at hp
        cases hp
    | moved =>
        change cpu ∈ pc.moved at hp
        rw [hrest] at hp
        exact hnot hp
  · rw [h.silent hawake]
    refine Good.nowhere ?_ (by rw [hwaits]; nofun) hleaving hcounts
    intro p hp
    apply hnowhere p
    rw [State.at_eq_inside hm]
    cases p with
    | sq | cond _ => exact hp
    | stored =>
        change pc.stored = some i at hp
        rw [hstored'] at hp
        cases hp
    | moved =>
        change i ∈ pc.moved at hp
        change i ∈ (s.threads i).moved
        rw [hrest] at hp
        rw [hmoved]
        exact List.mem_cons_of_mem _ hp
  · apply hheld
    refine ⟨rfl, ?_, hsilent⟩
    change (Function.update s.threads i pc cpu).waits = true
    rw [Function.update_of_ne hcpu]
    exact hwaiting

-- And it is not.
omit [DecidableEq κ] in
theorem Invariant.movedPush (h : Invariant s) (pc : Pc ι κ) {cpu : ι} {rest : List ι}
    (hm : s.mutex = some i) (hmoved : (s.threads i).moved = cpu :: rest)
    (hstored : (s.threads i).stored = none) (hnone : ∀ p, ¬ (s.threads i).Allows p)
    (hawake : (s.threads i).waits = false) (hrest : pc.moved = rest) (hstored' : pc.stored = none)
    (hwaits : pc.waits = false) (hleaving : pc.leaving = false)
    (hcounts : pc.Counts (s.owner = some i) s.lockCount (s.depth i)) (howner : s.owner ≠ none)
    (hthreads : s'.threads = Function.update s.threads i pc)
    (hmutex : s'.mutex = if pc.holds then some i else none) (hown : s'.owner = s.owner)
    (hsq' : s'.sq = cpu :: s.sq) (hconds' : s'.conds = s.conds) (hdepth : s'.depth = s.depth)
    (hsignal : s'.signal = s.signal) (hcount : s'.lockCount = s.lockCount) (hheld : s'.Held i pc) :
    Invariant s' := by
  obtain ⟨hcpu, hnot, hnodup, hnotown, hallows, _, hsq, hconds⟩ := h.moved_head hm hmoved hnone
  have hnowhere := h.nowhere hnone
  refine h.transfer pc cpu hm hthreads hmutex ?_ ?_ ?_ ?_ ?_ ?_ ?_ ?_ ?_ ?_ ?_ hsignal ?_ ?_ hheld
  · rw [hown]
    exact fun hn => absurd hn howner
  · rw [hsq']
    exact List.nodup_cons.mpr ⟨hsq, h.sq⟩
  · rw [hconds']
    exact h.conds
  · rw [hrest]
    exact hnodup
  · intro j hj
    rw [hsq', List.mem_cons]
    exact ⟨fun hjm => hjm.resolve_left hj, Or.inr⟩
  · rw [hconds']
    exact fun _ _ _ => Iff.rfl
  · rw [hstored, hstored']
    exact fun _ _ => Iff.rfl
  · intro j hj
    rw [hrest, hmoved, List.mem_cons]
    exact ⟨Or.inr, fun hjm => hjm.resolve_left hj⟩
  · rw [hown]
    exact fun _ _ _ => Iff.rfl
  · exact fun _ _ _ _ => hcount
  · rw [hdepth]
    exact fun _ _ => rfl
  · intro _
    rw [(h.good cpu).signal_eq_false hnotown, hown]
    apply (h.good cpu).put hnotown hnotown .sq hallows.sq_of_moved
    intro p
    rw [hsq', hconds']
    cases p with
    | sq => exact ⟨fun _ => rfl, fun _ => List.mem_cons_self⟩
    | cond cond => exact ⟨fun hp => absurd hp (hconds cond), nofun⟩
    | stored =>
        change pc.stored = some cpu ↔ _
        rw [hstored']
        exact ⟨nofun, nofun⟩
    | moved =>
        change cpu ∈ pc.moved ↔ _
        rw [hrest]
        exact ⟨fun hp => absurd hp hnot, nofun⟩
  · rw [h.silent hawake, hown, hcount, hdepth, hsq', hconds']
    refine Good.nowhere ?_ (by rw [hwaits]; nofun) hleaving hcounts
    intro p hp
    apply hnowhere p
    rw [State.at_eq_inside hm]
    cases p with
    | sq => exact (List.mem_cons.mp hp).resolve_left hcpu.symm
    | cond cond => exact hp
    | stored =>
        change pc.stored = some i at hp
        rw [hstored'] at hp
        cases hp
    | moved =>
        change i ∈ pc.moved at hp
        change i ∈ (s.threads i).moved
        rw [hrest] at hp
        rw [hmoved]
        exact List.mem_cons_of_mem _ hp

theorem Invariant.signalOwn (h : Invariant s) {cpu : ι} (hpc : s.threads i = .signalOwn cpu)
    (hs : advance c prio choice s i = some s') : Invariant s' := by
  have hm : s.mutex = some i := (h.inside i).mp (by rw [hpc]; rfl)
  have hmoved : (s.threads i).moved = [cpu] := by rw [hpc]; rfl
  have hstored : (s.threads i).stored = none := by rw [hpc]; rfl
  have hnone (p : Place κ) : ¬ (s.threads i).Allows p := by rw [hpc]; exact fun ha => ha
  have hawake : (s.threads i).waits = false := by rw [hpc]; rfl
  have hcpu := (h.moved_head hm hmoved hnone).1
  have hcounts := (h.good i).counts
  rw [hpc] at hcounts
  simp only [advance, hpc] at hs
  split at hs
  · rename_i hfree
    cases hs
    refine h.movedOwn (.signalAwake cpu) hm hmoved hstored hnone hawake rfl rfl rfl rfl rfl ?_ hfree
      fun _ hhanded => hhanded
    refine ⟨fun he => absurd (Option.some.inj he) hcpu, fun _ => hcounts.2 ?_⟩
    rw [hfree]
    rintro ⟨⟩
  · rename_i howned
    cases hs
    exact h.movedPush (.idle (some (.signal, .ok))) hm hmoved hstored hnone hawake rfl rfl rfl rfl
      ⟨hcounts.1, hcounts.2, by rintro ⟨⟩⟩ howned rfl rfl rfl rfl rfl rfl rfl rfl trivial

-- A thread that signals wakes the one that has got the mutex.
omit [DecidableEq κ] in
theorem Invariant.signalEnd (h : Invariant s) {cpu : ι} (hm : s.mutex = some i)
    (hstored : (s.threads i).stored = none) (hmoved : (s.threads i).moved = [])
    (hnone : ∀ p, ¬ (s.threads i).Allows p) (hleaving : (s.threads i).leaving = false)
    (hawake : (s.threads i).waits = false)
    (hcounts : (.signalAwake cpu : Pc ι κ).Counts (s.owner = some i) s.lockCount (s.depth i))
    (hhanded : s.Handed cpu) :
    Invariant ((s.awake cpu).unlock i (.idle (some (.signal, .ok)))) :=
  h.awake (.idle (some (.signal, .ok))) hm rfl hstored hmoved hhanded
    (fun p ha => absurd ha (hnone p)) hleaving hawake.symm ⟨hcounts.1, hcounts.2, nofun⟩

theorem Invariant.signalAwake (h : Invariant s) {cpu : ι} (hpc : s.threads i = .signalAwake cpu)
    (hs : advance c prio choice s i = some s') : Invariant s' := by
  have hm : s.mutex = some i := (h.inside i).mp (by rw [hpc]; rfl)
  have hcounts := (h.good i).counts
  have hheld := h.held i hm
  rw [hpc] at hcounts hheld
  simp only [advance, hpc] at hs
  cases hs
  apply h.signalEnd hm _ _ _ _ _ hcounts hheld <;> rw [hpc]
  · rfl
  · rfl
  · exact fun _ ha => ha
  · rfl
  · rfl

-- sys_cond_signal_all takes the whole queue.
theorem Invariant.allTake (h : Invariant s) {cond : κ} (hpc : s.threads i = .allTake cond)
    (hs : advance c prio choice s i = some s') : Invariant s' := by
  have hm : s.mutex = some i := (h.inside i).mp (by rw [hpc]; rfl)
  have hnowhere := h.nowhere (i := i) (by rw [hpc]; exact fun _ ha => ha)
  have hsilent := h.silent (i := i) (by rw [hpc]; rfl)
  have hinside : s.inside = .allTake cond := by rw [State.inside, hm, ← hpc]
  have hcounts := (h.good i).counts
  rw [hpc] at hcounts
  simp only [advance, hpc] at hs
  rw [Option.some.injEq] at hs
  have hthreads : s'.threads = Function.update s.threads i (.allSchedule (s.conds cond) none) := by
    rw [← hs]
    rfl
  have hmutex : s'.mutex = some i := by
    rw [← hs]
    exact hm
  have hrest : s'.owner = s.owner ∧ s'.sq = s.sq ∧ s'.lockCount = s.lockCount ∧
      s'.depth = s.depth ∧ s'.signal = s.signal := by
    rw [← hs]
    exact ⟨rfl, rfl, rfl, rfl, rfl⟩
  obtain ⟨howner, hsq, hcount, hdepth, hsignal⟩ := hrest
  have hconds : s'.conds = Function.update s.conds cond [] := by
    rw [← hs]
    rfl
  refine h.owner (.allSchedule (s.conds cond) none) (Or.inr hm) hthreads hmutex ?_ ?_ ?_
    (h.conds cond) ?_ trivial
  · rw [howner, hsq, hcount]
    exact h.free
  · rw [hsq]
    exact h.sq
  · rw [hconds]
    exact nodup_update h.conds List.nodup_nil
  · intro j
    unfold State.Good
    rw [at_eq_of_owner (.allSchedule (s.conds cond) none) hthreads hmutex, howner, hsq, hcount,
      hdepth, hsignal, hconds, hthreads]
    by_cases hji : j = i
    · rw [hji, Function.update_self, hsilent]
      refine Good.nowhere ?_ (by rintro ⟨⟩) rfl hcounts
      intro p hp
      cases p with
      | sq => exact hnowhere .sq hp
      | cond k =>
          by_cases hk : k = cond
          · rw [hk, Mutex.At, Function.update_self] at hp
            cases hp
          · rw [Mutex.At, Function.update_of_ne hk] at hp
            exact hnowhere (.cond k) hp
      | stored => cases hp
      | moved => exact hnowhere (.cond cond) hp
    · rw [Function.update_of_ne hji]
      have hgood := h.good j
      by_cases hj : j ∈ s.conds cond
      · have hat : s.At j (.cond cond) := hj
        have hholds := h.inside.not_holds_of_ne (Or.inr hm) hji
        have hnotown : s.owner ≠ some j := by
          intro hown
          have hleaving := hgood.leaving _ hat hown
          rw [Pc.not_leaving_of_not_holds hholds] at hleaving
          cases hleaving
        have hothers (k : κ) (hk : j ∈ s.conds k) : k = cond :=
          Place.cond.inj (hgood.once (.cond k) (.cond cond) hk hat)
        rw [hgood.signal_eq_false hnotown]
        apply hgood.put hnotown hnotown .moved ((hgood.allowed _ hat).moved_of_cond hholds)
        intro p
        cases p with
        | sq => exact ⟨fun hp => absurd (hgood.once .sq (.cond cond) hp hat) (by rintro ⟨⟩), (by rintro ⟨⟩)⟩
        | cond k =>
            exact ⟨fun hp => absurd hp (not_mem_update List.not_mem_nil hothers k), by rintro ⟨⟩⟩
        | stored => exact ⟨by rintro ⟨⟩, by rintro ⟨⟩⟩
        | moved => exact ⟨fun _ => rfl, fun _ => hj⟩
      · refine Mutex.Good.congr hgood Iff.rfl ?_ fun _ => rfl
        intro p
        unfold State.At
        rw [hinside]
        cases p with
        | sq => exact Iff.rfl
        | cond k =>
            exact mem_update ⟨fun hjm => absurd hjm List.not_mem_nil, fun hjm => absurd hjm hj⟩ k
        | stored => exact Iff.rfl
        | moved => exact ⟨fun hp => absurd hp hj, fun hp => absurd hp List.not_mem_nil⟩

theorem Invariant.allSchedule (h : Invariant s) {sq : List ι} {result : Option ι}
    (hpc : s.threads i = .allSchedule sq result) (hs : advance c prio choice s i = some s') :
    Invariant s' := by
  have hm : s.mutex = some i := (h.inside i).mp (by rw [hpc]; rfl)
  have hcounts := (h.good i).counts
  have hheld := h.held i hm
  rw [hpc] at hcounts hheld
  simp only [advance, hpc] at hs
  split at hs
  · rename_i cpu rest hsome
    have hperm := schedule_perm hsome
    cases hs
    refine h.proceed hpc (.allOwn cpu rest result) hm rfl hm rfl rfl rfl rfl rfl (Or.inl rfl) rfl
      hperm.symm (fun _ ha => ha) rfl rfl (fun hc => hc) ?_
    cases result with
    | none => trivial
    | some first =>
        have hhanded : s.Handed first := hheld
        refine ⟨hhanded.owner, ?_, hhanded.silent⟩
        change (Function.update s.threads i _ first).waits = true
        rw [Function.update_of_ne (hhanded.ne (by rw [hpc]; rfl))]
        exact hhanded.waits
  · rename_i hnone
    have hempty := schedule_eq_none.mp hnone
    cases result with
    | none =>
        cases hs
        refine h.proceed hpc (.idle (some (.signal, .ok))) hm rfl rfl rfl rfl rfl rfl rfl (Or.inl rfl)
          rfl ?_ (fun _ ha => ha) rfl rfl (fun hc => ⟨hc.1, hc.2, by rintro ⟨⟩⟩) trivial
        rw [hempty]
        exact List.Perm.refl _
    | some first =>
        cases hs
        apply h.signalEnd hm _ _ _ _ _ hcounts hheld <;> rw [hpc]
        · rfl
        · exact hempty
        · exact fun _ ha => ha
        · rfl
        · rfl

-- Only one of the threads can find the mutex free: it keeps it until it is woken.
theorem Invariant.allOwn (h : Invariant s) {cpu : ι} {sq : List ι} {result : Option ι}
    (hpc : s.threads i = .allOwn cpu sq result) (hs : advance c prio choice s i = some s') :
    Invariant s' := by
  have hm : s.mutex = some i := (h.inside i).mp (by rw [hpc]; rfl)
  have hmoved : (s.threads i).moved = cpu :: sq := by rw [hpc]; rfl
  have hstored : (s.threads i).stored = none := by rw [hpc]; rfl
  have hnone (p : Place κ) : ¬ (s.threads i).Allows p := by rw [hpc]; exact fun ha => ha
  have hawake : (s.threads i).waits = false := by rw [hpc]; rfl
  have hcpu := (h.moved_head hm hmoved hnone).1
  have hcounts := (h.good i).counts
  have hheld := h.held i hm
  rw [hpc] at hcounts hheld
  simp only [advance, hpc] at hs
  split at hs
  · rename_i hfree
    cases result with
    | some first =>
        have howner := hheld.owner
        rw [hfree] at howner
        cases howner
    | none =>
        rw [if_pos rfl] at hs
        cases hs
        refine h.movedOwn (.allSchedule sq (some cpu)) hm hmoved hstored hnone hawake rfl rfl rfl rfl
          rfl ?_ hfree fun _ hhanded => hhanded
        refine ⟨fun he => absurd (Option.some.inj he) hcpu, fun _ => hcounts.2 ?_⟩
        rw [hfree]
        rintro ⟨⟩
  · rename_i howned
    cases hs
    refine h.movedPush (.allSchedule sq result) hm hmoved hstored hnone hawake rfl rfl rfl rfl
      hcounts howned rfl hm rfl rfl rfl rfl rfl rfl ?_
    cases result with
    | none => trivial
    | some first =>
        have hhanded : s.Handed first := hheld
        refine ⟨hhanded.owner, ?_, hhanded.silent⟩
        change (Function.update s.threads i _ first).waits = true
        rw [Function.update_of_ne (hhanded.ne (by rw [hpc]; rfl))]
        exact hhanded.waits

end Signals

end Rpcsx.Lv2.Mutex
