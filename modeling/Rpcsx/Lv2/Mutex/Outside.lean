import Rpcsx.Lv2.Mutex.Invariant

namespace Rpcsx.Lv2.Mutex

open Data.Interleaving

variable {ι κ : Type} [DecidableEq ι] {s s' : State ι κ} {i j : ι} {pc : Pc ι κ}

omit [DecidableEq ι] in
theorem Invariant.nowhere (h : Invariant s) (hnone : ∀ p, ¬ (s.threads i).Allows p) (p : Place κ) :
    ¬ s.At i p := fun hp => hnone p ((h.good i).allowed p hp)

omit [DecidableEq ι] in
theorem Invariant.silent (h : Invariant s) (hwaits : (s.threads i).waits = false) :
    s.signal i = false := by
  cases hs : s.signal i with
  | false => rfl
  | true =>
      rw [((h.good i).signal hs).2] at hwaits
      cases hwaits

-- The places of a thread after a step that leaves the queues as they are.
theorem at_of_outside (s' : State ι κ) (pc : Pc ι κ) (h : Invariant s) (hbefore : (s.threads i).holds = false)
    (hthreads : s'.threads = Function.update s.threads i pc) (hmutex : s'.mutex = s.mutex)
    (hconds : s'.conds = s.conds) (hsq : s'.sq = s.sq) (j : ι) (p : Place κ) :
    s'.At j p ↔ s.At j p := by
  have hinside := inside_of_outside pc h hbefore hthreads hmutex
  cases p with
  | sq =>
      change j ∈ s'.sq ↔ _
      rw [hsq]
      rfl
  | cond cond =>
      change j ∈ s'.conds cond ↔ _
      rw [hconds]
      rfl
  | stored =>
      change s'.inside.stored = some j ↔ _
      rw [hinside]
      rfl
  | moved =>
      change j ∈ s'.inside.moved ↔ _
      rw [hinside]
      rfl

-- A step outside of the `shared_mutex` of a thread that is in no queue.
theorem Invariant.running (h : Invariant s) (pc : Pc ι κ) (hbefore : (s.threads i).holds = false)
    (hpc : pc.holds = false) (hnone : ∀ p, ¬ (s.threads i).Allows p)
    (hawake : (s.threads i).waits = false) (hwaits : pc.waits = false)
    (hthreads : s'.threads = Function.update s.threads i pc) (hmutex : s'.mutex = s.mutex)
    (hconds : s'.conds = s.conds) (hsq : s'.sq = s.sq) (hsignal : s'.signal = s.signal)
    (hfree : s'.owner = none → s'.sq = [] ∧ s'.lockCount = 0)
    (howner : ∀ j, j ≠ i → (s'.owner = some j ↔ s.owner = some j))
    (hcount : ∀ j, j ≠ i → s.owner = some j → s'.lockCount = s.lockCount)
    (hdepth : ∀ j, j ≠ i → s'.depth j = s.depth j)
    (hcounts : pc.Counts (s'.owner = some i) s'.lockCount (s'.depth i)) : Invariant s' := by
  refine h.outside pc hbefore hpc hthreads hmutex hconds (Or.inl hsq) ?_ hfree howner hcount ?_ ?_ ?_
  · rw [hsq]
    exact h.sq
  · intro j hj
    exact ⟨hdepth j hj, by rw [hsignal]⟩
  · have hself : s'.threads i = pc := by rw [hthreads, Function.update_self]
    unfold State.Good
    rw [hself, hsignal, h.silent hawake]
    refine Good.nowhere ?_ ?_ (Pc.not_leaving_of_not_holds hpc) hcounts
    · intro p hp
      exact h.nowhere hnone p ((at_of_outside s' pc h hbefore hthreads hmutex hconds hsq i p).mp hp)
    · rw [hwaits]
      nofun
  · intro _ hhanded
    rw [hhanded.waits] at hawake
    cases hawake

theorem Invariant.goto (h : Invariant s) (hbefore : (s.threads i).holds = false)
    (hpc : pc.holds = false) (hnone : ∀ p, ¬ (s.threads i).Allows p)
    (hawake : (s.threads i).waits = false) (hwaits : pc.waits = false)
    (hcounts : pc.Counts (s.owner = some i) s.lockCount (s.depth i)) : Invariant (s.goto i pc) :=
  h.running pc hbefore hpc hnone hawake hwaits rfl rfl rfl rfl rfl h.free (fun _ _ => Iff.rfl)
    (fun _ _ _ => rfl) (fun _ _ => rfl) hcounts

-- The mutex is free and a thread takes it.
theorem Invariant.acquire (h : Invariant s) (hbefore : (s.threads i).holds = false)
    (hnone : ∀ p, ¬ (s.threads i).Allows p) (hawake : (s.threads i).waits = false)
    (howner : s.owner = none) (hdepth : s.depth i = 0) :
    Invariant (((s.own (some i)).setDepth i (s.depth i + 1)).goto i (.idle (some (.lock, .ok)))) := by
  refine h.running (.idle (some (.lock, .ok))) hbefore rfl hnone hawake rfl rfl rfl rfl rfl rfl nofun
    ?_ (fun _ _ _ => rfl) ?_ ?_
  · intro j hj
    change some i = some j ↔ s.owner = some j
    rw [howner]
    exact ⟨fun he => absurd (Option.some.inj he).symm hj, nofun⟩
  · intro j hj
    exact Function.update_of_ne hj _ _
  · change (some i = some i → s.lockCount + 1 = Function.update s.depth i (s.depth i + 1) i) ∧ _
    rw [Function.update_self, (h.free howner).2, hdepth]
    exact ⟨fun _ => rfl, fun hn => absurd rfl hn, fun _ => rfl⟩

-- The owner changes its count, or gives the mutex up with no thread in the queue.
theorem Invariant.counted (h : Invariant s) (pc : Pc ι κ) (hbefore : (s.threads i).holds = false)
    (hpc : pc.holds = false) (hnone : ∀ p, ¬ (s.threads i).Allows p)
    (hawake : (s.threads i).waits = false) (hwaits : pc.waits = false) (howner : s.owner = some i)
    (lockCount depth : Nat) (hcounts : pc.Counts (s.owner = some i) lockCount depth) :
    Invariant ({ s.setDepth i depth with lockCount := lockCount }.goto i pc) := by
  refine h.running pc hbefore hpc hnone hawake hwaits rfl rfl rfl rfl rfl ?_ (fun _ _ => Iff.rfl)
    ?_ ?_ ?_
  · intro hn
    change s.owner = none at hn
    rw [howner] at hn
    cases hn
  · intro j hj hown
    rw [howner] at hown
    exact absurd (Option.some.inj hown).symm hj
  · intro j hj
    exact Function.update_of_ne hj _ _
  · change pc.Counts (s.owner = some i) lockCount (Function.update s.depth i depth i)
    rw [Function.update_self]
    exact hcounts

theorem Invariant.release (h : Invariant s) (hbefore : (s.threads i).holds = false)
    (hnone : ∀ p, ¬ (s.threads i).Allows p) (hawake : (s.threads i).waits = false)
    (howner : s.owner = some i) (hsq : s.sq = []) (hcount : s.lockCount = 0) (hdepth : s.depth i = 1) :
    Invariant (((s.own none).setDepth i (s.depth i - 1)).goto i (.idle (some (.unlock, .ok)))) := by
  refine h.running (.idle (some (.unlock, .ok))) hbefore rfl hnone hawake rfl rfl rfl rfl rfl rfl
    (fun _ => ⟨hsq, hcount⟩) ?_ (fun _ _ _ => rfl) ?_ ?_
  · intro j hj
    change none = some j ↔ s.owner = some j
    rw [howner]
    exact ⟨nofun, fun he => absurd (Option.some.inj he).symm hj⟩
  · intro j hj
    exact Function.update_of_ne hj _ _
  · change (none = some i → _) ∧ (¬ none = some i → Function.update s.depth i (s.depth i - 1) i = 0) ∧ _
    rw [Function.update_self, hdepth]
    exact ⟨nofun, fun _ => rfl, nofun⟩

-- A thread that cannot get the mutex adds itself to the queue.
theorem Invariant.push (h : Invariant s) (hbefore : (s.threads i).holds = false)
    (hnone : ∀ p, ¬ (s.threads i).Allows p) (hawake : (s.threads i).waits = false)
    (hnot : s.owner ≠ some i) (howner : s.owner ≠ none) (hdepth : s.depth i = 0) (timeout : Bool) :
    Invariant ((s.push i).goto i (.lockParked timeout)) := by
  have hnowhere := h.nowhere hnone
  have hinside : ((s.push i).goto i (.lockParked timeout)).inside = s.inside :=
    inside_of_outside (.lockParked timeout) h hbefore rfl rfl
  refine h.outside (.lockParked timeout) hbefore rfl rfl rfl rfl (Or.inr rfl) ?_ ?_
    (fun _ _ => Iff.rfl) (fun _ _ _ => rfl) (fun _ _ => ⟨rfl, rfl⟩) ?_ ?_
  · exact List.nodup_cons.mpr ⟨hnowhere .sq, h.sq⟩
  · intro hn
    exact absurd hn howner
  · have hself : ((s.push i).goto i (.lockParked timeout)).threads i = .lockParked timeout :=
      Function.update_self _ _ _
    unfold State.Good
    have hsilent : ((s.push i).goto i (.lockParked timeout)).signal i = false := h.silent hawake
    rw [hself, hsilent]
    refine Good.only .sq ?_ (Or.inl rfl) (fun hown => absurd hown hnot)
      ⟨fun hown => absurd hown hnot, hdepth⟩
    intro p
    cases p with
    | sq => exact ⟨fun _ => rfl, fun _ => List.mem_cons_self⟩
    | cond cond => exact ⟨fun hp => absurd hp (hnowhere (.cond cond)), nofun⟩
    | stored =>
        refine ⟨fun hp => ?_, nofun⟩
        change (State.inside _).stored = some i at hp
        rw [hinside] at hp
        exact absurd hp (hnowhere .stored)
    | moved =>
        refine ⟨fun hp => ?_, nofun⟩
        change i ∈ (State.inside _).moved at hp
        rw [hinside] at hp
        exact absurd hp (hnowhere .moved)
  · intro _ hhanded
    rw [hhanded.waits] at hawake
    cases hawake

-- A thread that sleeps, awake for a moment.
theorem Invariant.sleeps (h : Invariant s) (hbefore : (s.threads i).holds = false)
    (hpc : pc.holds = false) (hwaits : (s.threads i).waits = true) (hwaits' : pc.waits = true)
    (hallows : ∀ p, s.At i p → pc.Allows p)
    (hcounts : pc.Counts (s.owner = some i) s.lockCount (s.depth i)) : Invariant (s.goto i pc) := by
  have hgood := h.good i
  have hleaving := Pc.not_leaving_of_not_holds hbefore
  have hself : (s.goto i pc).threads i = pc := Function.update_self _ _ _
  have hat (p : Place κ) : (s.goto i pc).At i p ↔ s.At i p :=
    at_of_outside (s.goto i pc) pc h hbefore rfl rfl rfl rfl i p
  have hplace : (s.goto i pc).At i = s.At i := funext fun p => propext (hat p)
  refine h.outside pc hbefore hpc rfl rfl rfl (Or.inl rfl) h.sq h.free (fun _ _ => Iff.rfl)
    (fun _ _ _ => rfl) (fun _ _ => ⟨rfl, rfl⟩) ?_ ?_
  · unfold State.Good
    rw [hself, hplace]
    refine ⟨hgood.once, hallows, ?_, ?_, ?_, hcounts, ?_⟩
    · intro p hp hown
      rw [hgood.leaving p hp hown] at hleaving
      cases hleaving
    · intro _
      exact hgood.waits hwaits
    · rw [Pc.not_leaving_of_not_holds hpc]
      nofun
    · intro hsignal
      exact ⟨(hgood.signal hsignal).1, hwaits'⟩
  · intro _ hhanded
    refine ⟨hhanded.owner, ?_, hhanded.silent⟩
    rw [hself]
    exact hwaits'

theorem State.setDepth_self (i : ι) : s.setDepth i (s.depth i) = s := by
  unfold State.setDepth
  rw [Function.update_eq_self]

-- A thread leaves its wait loop with the mutex.
theorem Invariant.wakes (h : Invariant s) (pc : Pc ι κ) (hbefore : (s.threads i).holds = false)
    (hpc : pc.holds = false) (howner : s.owner = some i) (hnot : s.mutex = none ∨ s.signal i = true) (depth : Nat)
    (hcounts : pc.Counts (s.owner = some i) s.lockCount depth) :
    Invariant (((s.signaled i).setDepth i depth).goto i pc) := by
  have hleaving := Pc.not_leaving_of_not_holds hbefore
  have hself : (((s.signaled i).setDepth i depth).goto i pc).threads i = pc :=
    Function.update_self _ _ _
  have hat (p : Place κ) : (((s.signaled i).setDepth i depth).goto i pc).At i p ↔ s.At i p :=
    at_of_outside (((s.signaled i).setDepth i depth).goto i pc) pc h hbefore rfl rfl rfl rfl i p
  have hsilent : (((s.signaled i).setDepth i depth).goto i pc).signal i = false :=
    Function.update_self _ _ _
  have hdepth : (((s.signaled i).setDepth i depth).goto i pc).depth i = depth :=
    Function.update_self _ _ _
  refine h.outside pc hbefore hpc rfl rfl rfl (Or.inl rfl) h.sq h.free (fun _ _ => Iff.rfl)
    (fun _ _ _ => rfl) ?_ ?_ ?_
  · intro j hj
    exact ⟨Function.update_of_ne hj _ _, Function.update_of_ne hj _ _⟩
  · unfold State.Good
    rw [hself, hsilent, hdepth]
    refine Good.nowhere ?_ (fun _ => howner) (Pc.not_leaving_of_not_holds hpc) hcounts
    intro p hp
    rw [(h.good i).leaving p ((hat p).mp hp) howner] at hleaving
    cases hleaving
  · intro hm hhanded
    rcases hnot with hfree | hsignal
    · exact absurd hfree hm
    · rw [hhanded.silent] at hsignal
      cases hsignal

end Rpcsx.Lv2.Mutex
