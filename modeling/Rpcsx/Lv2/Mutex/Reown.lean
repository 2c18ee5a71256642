import Rpcsx.Lv2.Mutex.Sections

namespace Rpcsx.Lv2.Mutex

open Data.Interleaving

variable {ι κ : Type} [DecidableEq ι] [DecidableEq κ] {c : Config} {prio : ι → Prio} {choice : Bool}
  {s s' : State ι κ} {i j : ι}

section Queue

omit [DecidableEq κ]

omit [DecidableEq ι] in
theorem State.at_eq_inside (hm : s.mutex = some i) :
    s.At j = Mutex.At s.sq s.conds (s.threads i) j := by
  unfold State.At State.inside
  rw [hm]

-- A queue with the same first thread as before has had no thread added.
omit [DecidableEq ι] in
theorem eq_of_head {pushed sq : List ι} (hnodup : (pushed ++ sq).Nodup)
    (hhead : (pushed ++ sq).head? = sq.head?) : pushed = [] := by
  cases pushed with
  | nil => rfl
  | cons first pushed =>
      rw [List.cons_append, List.head?_cons] at hhead
      have hmem : first ∈ sq := List.mem_of_head? hhead.symm
      rw [List.cons_append, List.nodup_cons] at hnodup
      exact absurd (List.mem_append_right pushed hmem) hnodup.1

theorem State.unchanged_sq {owner : Option ι} {pushed sq : List ι} (hnodup : s.sq.Nodup)
    (hpushed : s.sq = pushed ++ sq) (h : s.unchanged owner sq.head? = true) : s.sq = sq := by
  unfold State.unchanged at h
  rw [decide_eq_true_iff] at h
  have hhead := h.2
  rw [hpushed] at hnodup hhead
  rw [hpushed, eq_of_head hnodup hhead]
  rfl

-- A thread takes itself from the queue.
theorem Invariant.unqueue (h : Invariant s) (hm : s.mutex = some i) (hmem : i ∈ s.sq)
    (hstored : (s.threads i).stored = none) (hmoved : (s.threads i).moved = [])
    (hleaving : (s.threads i).leaving = false) (hdepth : s.depth i = 0) :
    Invariant ({ s with sq := s.sq.erase i }.unlock i (.idle (some (.lock, .etimedout)))) := by
  have hnot : s.owner ≠ some i := by
    intro hown
    rw [(h.good i).leaving .sq hmem hown] at hleaving
    cases hleaving
  refine h.transfer (.idle (some (.lock, .etimedout))) i hm rfl rfl ?_ (h.sq.erase i) h.conds
    List.nodup_nil ?_ (fun _ _ _ => Iff.rfl) ?_ ?_ (fun _ _ _ => Iff.rfl) (fun _ _ _ _ => rfl)
    (fun _ _ => rfl) rfl (fun hne => absurd rfl hne) ?_ trivial
  · intro hnone
    rw [(h.free hnone).1] at hmem
    cases hmem
  · intro j hj
    exact List.mem_erase_of_ne hj
  · intro j _
    rw [hstored]
    rfl
  · intro j _
    rw [hmoved]
    rfl
  · rw [(h.good i).signal_eq_false hnot]
    refine Good.nowhere ?_ nofun rfl ⟨fun hown => absurd hown hnot, fun _ => hdepth, nofun⟩
    intro p hp
    cases p with
    | sq => exact h.sq.not_mem_erase hp
    | cond cond => cases (h.good i).once (.cond cond) .sq hp hmem
    | stored => cases hp
    | moved => cases hp

end Queue

section Reown

omit [DecidableEq κ]

-- The ghost count of the thread that gives the mutex up.
def After.released : After κ → Nat → Nat
  | unlock, depth => depth - 1
  | wait _ _ _, depth => depth

theorem After.release_depth (after : After κ) : (after.release s i).depth i = after.released (s.depth i) := by
  cases after with
  | unlock => exact Function.update_self _ _ _
  | wait cond timeout count => rfl

theorem After.release_depth_of_ne (after : After κ) (h : j ≠ i) :
    (after.release s i).depth j = s.depth j := by
  cases after with
  | unlock => exact Function.update_of_ne h _ _
  | wait cond timeout count => rfl

variable {after : After κ} {own own' : Prop} {place place' : Place κ → Prop}
  {lockCount lockCount' depth : Nat} {signal : Bool}

omit [DecidableEq ι] in
theorem Good.reowns (h : Good (.reownLoad after : Pc ι κ) own place lockCount depth signal) :
    own ∧ lockCount = 0 := by
  have hcounts := h.counts
  cases after with
  | unlock => exact ⟨hcounts.1, hcounts.2.1⟩
  | wait cond timeout count => exact ⟨hcounts.1, hcounts.2.1⟩

-- The caller of reown without the mutex: outside of all queues, or in that of a condition variable.
omit [DecidableEq ι] in
theorem Good.givenUp (h : Good (.reownLoad after : Pc ι κ) own place lockCount depth signal)
    (hown : ¬ own') (hplace : ∀ p, place' p ↔ place p) (cpu : Option ι) :
    Good (.reownAwake after cpu) own' place' lockCount' (after.released depth) signal := by
  have hsignal : signal = false := by
    cases hs : signal with
    | false => rfl
    | true =>
        have hwaits := (h.signal hs).2
        cases hwaits
  have hcounts := h.counts
  rw [hsignal]
  cases after with
  | unlock =>
      refine nowhere ?_ nofun rfl ⟨hown, ?_⟩
      · intro p hp
        exact h.allowed p ((hplace p).mp hp)
      · change depth - 1 = 0
        rw [hcounts.2.2]
  | wait cond timeout count =>
      refine only (.cond cond) ?_ rfl (fun ho => absurd ho hown)
        ⟨fun ho => absurd ho hown, hcounts.2.2⟩
      intro p
      constructor
      · intro hp
        exact h.allowed p ((hplace p).mp hp)
      · intro hp
        obtain ⟨q, hq⟩ := h.registered rfl
        have heq : q = .cond cond := h.allowed q hq
        rw [hp, ← heq]
        exact (hplace q).mpr hq

-- The mutex goes from its owner to a thread that sleeps.
theorem Invariant.hand (h : Invariant s) (after : After κ) (cpu : ι) (sq : List ι)
    (hm : s.mutex = some i)
    (hgood : Mutex.Good (.reownLoad after : Pc ι κ) (s.owner = some i) (s.At i) s.lockCount
      (s.depth i) (s.signal i))
    (hstored : ∀ j, j ≠ cpu → (s.threads i).stored ≠ some j) (hmoved : (s.threads i).moved = [])
    (hcpu : cpu ≠ i) (hwaits : (s.threads cpu).waits = true) (hnodup : sq.Nodup)
    (hsq : ∀ j, j ≠ cpu → (j ∈ sq ↔ j ∈ s.sq)) (hnot : cpu ∉ sq)
    (hcond : ∀ cond, cpu ∉ s.conds cond) :
    Invariant ((after.release { s.own (some cpu) with sq := sq } i).goto i
      (.reownAwake after (some cpu))) := by
  obtain ⟨hown, hzero⟩ := hgood.reowns
  have hnotown : s.owner ≠ some cpu := by
    rw [hown]
    exact fun he => hcpu (Option.some.inj he).symm
  have hsilent := (h.good cpu).signal_eq_false hnotown
  generalize hs' : (after.release { s.own (some cpu) with sq := sq } i).goto i
    (.reownAwake after (some cpu)) = s'
  have hthreads : s'.threads = Function.update s.threads i (.reownAwake after (some cpu)) := by
    subst hs'
    cases after <;> rfl
  have hmutex : s'.mutex = some i := by
    subst hs'
    cases after <;> exact hm
  have howner : s'.owner = some cpu := by
    subst hs'
    cases after <;> rfl
  have hcount : s'.lockCount = s.lockCount := by
    subst hs'
    cases after <;> rfl
  have hsq' : s'.sq = sq := by
    subst hs'
    cases after <;> rfl
  have hconds : s'.conds = s.conds := by
    subst hs'
    cases after <;> rfl
  have hsignal : s'.signal = s.signal := by
    subst hs'
    cases after <;> rfl
  refine h.transfer (.reownAwake after (some cpu)) cpu hm hthreads hmutex ?_ ?_ ?_ List.nodup_nil
    ?_ ?_ ?_ ?_ ?_ (fun _ _ _ _ => hcount) ?_ hsignal ?_ ?_ ?_
  · rw [howner]
    nofun
  · rw [hsq']
    exact hnodup
  · rw [hconds]
    exact h.conds
  · rw [hsq']
    exact hsq
  · rw [hconds]
    exact fun _ _ _ => Iff.rfl
  · intro j hj
    exact ⟨nofun, fun he => absurd he (hstored j hj)⟩
  · intro j _
    rw [hmoved]
    rfl
  · intro j hj hji
    rw [howner, hown]
    exact ⟨fun he => absurd (Option.some.inj he).symm hj,
      fun he => absurd (Option.some.inj he).symm hji⟩
  · intro j hj
    subst hs'
    exact After.release_depth_of_ne after hj
  · intro _
    rw [hcount, hzero, hsilent, hsq', hconds]
    apply (h.good cpu).handed hnotown howner hwaits
    intro p hp
    cases p with
    | sq => exact hnot hp
    | cond cond => exact hcond cond hp
    | stored => cases hp
    | moved => cases hp
  · have hdepth : s'.depth i = after.released (s.depth i) := by
      subst hs'
      exact After.release_depth after
    rw [hdepth, hsq', hconds]
    apply hgood.givenUp
    · rw [howner]
      exact fun he => hcpu (Option.some.inj he)
    · intro p
      rw [State.at_eq_inside hm]
      cases p with
      | sq => exact hsq i hcpu.symm
      | cond cond => exact Iff.rfl
      | stored => exact ⟨nofun, fun he => absurd he (hstored i hcpu.symm)⟩
      | moved =>
          change i ∈ [] ↔ i ∈ (s.threads i).moved
          rw [hmoved]
  · refine ⟨howner, ?_, ?_⟩
    · rw [hthreads, Function.update_of_ne hcpu]
      exact hwaits
    · rw [hsignal]
      exact hsilent

-- No thread waits for the mutex.
theorem Invariant.giveUp (h : Invariant s) (after : After κ) (hm : s.mutex = some i)
    (hgood : Mutex.Good (.reownLoad after : Pc ι κ) (s.owner = some i) (s.At i) s.lockCount
      (s.depth i) (s.signal i))
    (hstored : (s.threads i).stored = none) (hmoved : (s.threads i).moved = []) (hsq : s.sq = []) :
    Invariant ((after.release (s.own none) i).goto i (.reownAwake after none)) := by
  obtain ⟨hown, hzero⟩ := hgood.reowns
  generalize hs' : (after.release (s.own none) i).goto i (.reownAwake after none) = s'
  have hthreads : s'.threads = Function.update s.threads i (.reownAwake after none) := by
    subst hs'
    cases after <;> rfl
  have hmutex : s'.mutex = some i := by
    subst hs'
    cases after <;> exact hm
  have howner : s'.owner = none := by
    subst hs'
    cases after <;> rfl
  have hcount : s'.lockCount = s.lockCount := by
    subst hs'
    cases after <;> rfl
  have hsq' : s'.sq = s.sq := by
    subst hs'
    cases after <;> rfl
  have hconds : s'.conds = s.conds := by
    subst hs'
    cases after <;> rfl
  have hsignal : s'.signal = s.signal := by
    subst hs'
    cases after <;> rfl
  refine h.transfer (.reownAwake after none) i hm hthreads hmutex ?_ ?_ ?_ List.nodup_nil
    ?_ ?_ ?_ ?_ ?_ (fun _ _ _ _ => hcount) ?_ hsignal (fun hne => absurd rfl hne) ?_ trivial
  · rw [hsq', hsq, hcount]
    exact fun _ => ⟨rfl, hzero⟩
  · rw [hsq']
    exact h.sq
  · rw [hconds]
    exact h.conds
  · rw [hsq']
    exact fun _ _ => Iff.rfl
  · rw [hconds]
    exact fun _ _ _ => Iff.rfl
  · rw [hstored]
    exact fun _ _ => Iff.rfl
  · rw [hmoved]
    exact fun _ _ => Iff.rfl
  · intro j _ hji
    rw [howner, hown]
    exact ⟨nofun, fun he => absurd (Option.some.inj he).symm hji⟩
  · intro j hj
    subst hs'
    exact After.release_depth_of_ne after hj
  · have hdepth : s'.depth i = after.released (s.depth i) := by
      subst hs'
      exact After.release_depth after
    rw [hdepth, hsq', hconds]
    apply hgood.givenUp
    · rw [howner]
      nofun
    · intro p
      rw [State.at_eq_inside hm]
      cases p with
      | sq | cond _ => exact Iff.rfl
      | stored =>
          change none = some i ↔ (s.threads i).stored = some i
          rw [hstored]
      | moved =>
          change i ∈ [] ↔ i ∈ (s.threads i).moved
          rw [hmoved]

-- Another thread was added to the queue: the operation starts again.
theorem Invariant.reownRetry (h : Invariant s) {owner : Option ι} {sq : List ι}
    (hpc : s.threads i = .reownTry after owner sq) : Invariant (s.goto i (.reownLoad after)) := by
  have hm : s.mutex = some i := (h.inside i).mp (by rw [hpc]; rfl)
  cases after with
  | unlock =>
      exact h.proceed hpc (.reownLoad .unlock) hm rfl hm rfl rfl rfl rfl rfl (Or.inl rfl) rfl
        (List.Perm.refl _) (fun _ ha => ha) rfl rfl (fun hc => hc) trivial
  | wait cond timeout count =>
      exact h.proceed hpc (.reownLoad (.wait cond timeout count)) hm rfl hm rfl rfl rfl rfl rfl
        (Or.inl rfl) rfl (List.Perm.refl _) (fun _ ha => ha) rfl rfl (fun hc => hc) trivial

variable [DecidableEq κ]

theorem Invariant.reownLoad (h : Invariant s) (hpc : s.threads i = .reownLoad after)
    (hs : advance c prio choice s i = some s') : Invariant s' := by
  have hm : s.mutex = some i := (h.inside i).mp (by rw [hpc]; rfl)
  simp only [advance, hpc] at hs
  cases hs
  cases after with
  | unlock =>
      exact h.proceed hpc (.reownTry .unlock s.owner s.sq) hm rfl hm rfl rfl rfl rfl rfl
        (Or.inl rfl) rfl (List.Perm.refl _) (fun _ ha => ha) rfl rfl (fun hc => hc) ⟨[], rfl⟩
  | wait cond timeout count =>
      exact h.proceed hpc (.reownTry (.wait cond timeout count) s.owner s.sq) hm rfl hm rfl rfl rfl
        rfl rfl (Or.inl rfl) rfl (List.Perm.refl _) (fun _ ha => ha) rfl rfl (fun hc => hc) ⟨[], rfl⟩

theorem Invariant.reownTry (h : Invariant s) {owner : Option ι} {sq : List ι}
    (hpc : s.threads i = .reownTry after owner sq) (hs : advance c prio choice s i = some s') :
    Invariant s' := by
  have hm : s.mutex = some i := (h.inside i).mp (by rw [hpc]; rfl)
  obtain ⟨pushed, hpushed⟩ : ∃ pushed, s.sq = pushed ++ sq := by
    have hheld := h.held i hm
    rw [hpc] at hheld
    exact hheld
  have hgood : Mutex.Good (.reownLoad after : Pc ι κ) (s.owner = some i) (s.At i) s.lockCount
      (s.depth i) (s.signal i) := by
    have hg := h.good i
    unfold State.Good at hg
    rw [hpc] at hg
    cases after <;> exact hg.move (fun _ _ ha => ha) rfl rfl hg.counts
  have hstored : (s.threads i).stored = none := by rw [hpc]; rfl
  have hmoved : (s.threads i).moved = [] := by rw [hpc]; rfl
  obtain ⟨hown, _⟩ := hgood.reowns
  simp only [advance, hpc] at hs
  split at hs
  · rename_i hnone
    have hempty := schedule_eq_none.mp hnone
    split at hs
    · rename_i hsame
      have hsq := State.unchanged_sq h.sq hpushed hsame
      cases hs
      exact h.giveUp after hm hgood hstored hmoved (hsq.trans hempty)
    · cases hs
      exact h.reownRetry hpc
  · rename_i cpu rest hsome
    have hperm := schedule_perm hsome
    have hmem : cpu ∈ s.sq := by
      rw [hpushed]
      exact List.mem_append_right _ (hperm.mem_iff.mpr List.mem_cons_self)
    have hallows := (h.good cpu).allowed .sq hmem
    have hwaits := hallows.waits_of_sq
    have hcpu : cpu ≠ i := by
      intro he
      rw [he, hpc] at hwaits
      cases hwaits
    have hnotown : s.owner ≠ some cpu := by
      rw [hown]
      exact fun he => hcpu (Option.some.inj he).symm
    have hcond (cond : κ) : cpu ∉ s.conds cond := by
      intro hc
      cases (h.good cpu).once (.cond cond) .sq hc hmem
    split at hs
    · split at hs
      · rename_i hsame
        have hsq := State.unchanged_sq h.sq hpushed hsame
        have hnodup : (cpu :: rest).Nodup := by
          rw [← hperm.nodup_iff, ← hsq]
          exact h.sq
        rw [List.nodup_cons] at hnodup
        cases hs
        refine h.hand after cpu rest hm hgood (by rw [hstored]; nofun) hmoved hcpu hwaits hnodup.2 ?_
          hnodup.1 hcond
        intro j hj
        rw [hsq, hperm.mem_iff, List.mem_cons]
        exact ⟨Or.inr, fun hjm => hjm.resolve_left hj⟩
      · cases hs
        exact h.reownRetry hpc
    · cases hs
      refine h.transfer (.reownStore after cpu) cpu hm rfl hm ?_ (h.sq.erase cpu) h.conds
        List.nodup_nil (fun j hj => List.mem_erase_of_ne hj) (fun _ _ _ => Iff.rfl) ?_ ?_
        (fun _ _ _ => Iff.rfl) (fun _ _ _ _ => rfl) (fun _ _ => rfl) rfl ?_ ?_ trivial
      · intro hnone
        change s.owner = none at hnone
        rw [hown] at hnone
        cases hnone
      · intro j hj
        rw [hstored]
        exact ⟨fun he => absurd (Option.some.inj he).symm hj, nofun⟩
      · rw [hmoved]
        exact fun _ _ => Iff.rfl
      · intro _
        rw [(h.good cpu).signal_eq_false hnotown]
        apply (h.good cpu).put hnotown hnotown .stored hallows.stored_of_sq
        intro p
        cases p with
        | sq => exact ⟨fun hp => absurd hp h.sq.not_mem_erase, nofun⟩
        | cond cond => exact ⟨fun hp => absurd hp (hcond cond), nofun⟩
        | stored => exact ⟨fun _ => rfl, fun _ => rfl⟩
        | moved => exact ⟨nofun, nofun⟩
      · have hplace : Mutex.At (s.sq.erase cpu) s.conds (.reownStore after cpu) i = s.At i := by
          rw [State.at_eq_inside hm]
          apply funext
          intro p
          apply propext
          cases p with
          | sq => exact List.mem_erase_of_ne hcpu.symm
          | cond cond => exact Iff.rfl
          | stored =>
              change some cpu = some i ↔ (s.threads i).stored = some i
              rw [hstored]
              exact ⟨fun he => absurd (Option.some.inj he) hcpu, nofun⟩
          | moved =>
              change i ∈ [] ↔ i ∈ (s.threads i).moved
              rw [hmoved]
        change Mutex.Good _ (s.owner = some i) (Mutex.At (s.sq.erase cpu) s.conds _ i) s.lockCount
          (s.depth i) (s.signal i)
        rw [hplace]
        cases after <;> exact hgood.move (fun _ _ ha => ha) rfl rfl hgood.counts

theorem Invariant.reownStore (h : Invariant s) {cpu : ι} (hpc : s.threads i = .reownStore after cpu)
    (hs : advance c prio choice s i = some s') : Invariant s' := by
  have hm : s.mutex = some i := (h.inside i).mp (by rw [hpc]; rfl)
  have hgood : Mutex.Good (.reownLoad after : Pc ι κ) (s.owner = some i) (s.At i) s.lockCount
      (s.depth i) (s.signal i) := by
    have hg := h.good i
    unfold State.Good at hg
    rw [hpc] at hg
    cases after <;> exact hg.move (fun _ _ ha => ha) rfl rfl hg.counts
  have hat : s.At cpu .stored := by
    rw [State.at_eq_inside hm, hpc]
    rfl
  have hwaits := ((h.good cpu).allowed .stored hat).waits_of_stored
  have hcpu : cpu ≠ i := by
    intro he
    rw [he, hpc] at hwaits
    cases hwaits
  simp only [advance, hpc] at hs
  cases hs
  refine h.hand after cpu s.sq hm hgood ?_ (by rw [hpc]; rfl) hcpu hwaits h.sq (fun _ _ => Iff.rfl)
    ?_ ?_
  · intro j hj he
    rw [hpc] at he
    exact hj (Option.some.inj he).symm
  · intro hsq
    cases (h.good cpu).once .sq .stored hsq hat
  · intro cond hc
    cases (h.good cpu).once (.cond cond) .stored hc hat

-- The caller of reown ends its section, and wakes the thread that has the mutex now.
theorem Invariant.reownAwake (h : Invariant s) {cpu : Option ι}
    (hpc : s.threads i = .reownAwake after cpu) (hs : advance c prio choice s i = some s') :
    Invariant s' := by
  have hm : s.mutex = some i := (h.inside i).mp (by rw [hpc]; rfl)
  have hcounts := (h.good i).counts
  have hheld := h.held i hm
  rw [hpc] at hcounts hheld
  cases cpu with
  | none =>
      simp only [advance, hpc] at hs
      cases hs
      cases after with
      | unlock =>
          exact h.proceed hpc (.idle (some (.unlock, .ok))) hm rfl rfl rfl rfl rfl rfl rfl
            (Or.inl rfl) rfl (List.Perm.refl _) (fun _ ha => ha) rfl rfl
            (fun hc => ⟨fun hown => absurd hown hc.1, fun _ => hc.2, nofun⟩) trivial
      | wait cond timeout count =>
          exact h.proceed hpc (.waitParked cond timeout count .ok) hm rfl rfl rfl rfl rfl rfl rfl
            (Or.inl rfl) rfl (List.Perm.refl _) (fun _ ha => Or.inr (Or.inr (Or.inr ha))) rfl rfl
            (fun hc => hc) trivial
  | some cpu =>
      simp only [advance, hpc] at hs
      cases hs
      cases after with
      | unlock =>
          apply h.awake (.idle (some (.unlock, .ok))) hm rfl _ _ hheld _ _ _
            ⟨fun hown => absurd hown hcounts.1, fun _ => hcounts.2, nofun⟩ <;> rw [hpc]
          · rfl
          · rfl
          · exact fun _ ha => ha
          · rfl
          · rfl
      | wait cond timeout count =>
          apply h.awake (.waitParked cond timeout count .ok) hm rfl _ _ hheld _ _ _ hcounts <;> rw [hpc]
          · rfl
          · rfl
          · exact fun _ ha => Or.inr (Or.inr (Or.inr ha))
          · rfl
          · rfl

end Reown

end Rpcsx.Lv2.Mutex
