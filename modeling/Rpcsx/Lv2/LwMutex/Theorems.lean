import Rpcsx.Lv2.LwMutex

namespace Rpcsx.Lv2.LwMutex

open Data.Interleaving

variable {ι : Type} [DecidableEq ι] {protocol : Protocol} {prio : ι → Prio} {s s' : State ι} {i : ι}
  {pc : Pc ι}

section Outside

-- A thread that does not wait goes on.
theorem Invariant.running (h : Invariant s) (s' : State ι) (pc : Pc ι)
    (hbefore : (s.threads i).holds = false) (hafter : pc.holds = false)
    (hawake : (s.threads i).waits = false) (hwaits : pc.waits = false)
    (hthreads : s'.threads = Function.update s.threads i pc) (hmutex : s'.mutex = s.mutex)
    (hsq : s'.sq = s.sq) (hsignal : s'.signal = s.signal)
    (hsignaled : s'.signaled ≠ 0 → s.sq = []) : Invariant s' := by
  obtain ⟨hout, hsilent, hfree⟩ := h.nowhere hawake
  refine h.outside pc hbefore hafter hthreads hmutex (Or.inl hsq) ?_ (fun _ _ => by rw [hsignal]) ?_
  · rw [hsq]
    exact hsignaled
  · intro hhanding
    apply State.Good.of_awake
    · rw [hthreads, Function.update_self]
      exact hwaits
    · rw [hsq]
      exact hout
    · rw [hsignal]
      exact hsilent
    · rw [hhanding]
      exact hfree

omit [DecidableEq ι] in
-- A waiting thread goes on where it is.
theorem State.Good.moved (h : s.Good i) (hthread : s'.threads i = pc)
    (hqueues : (s.threads i).queues = true → pc.queues = true)
    (hwaits : pc.waits = (s.threads i).waits) (hsq : i ∈ s'.sq ↔ i ∈ s.sq)
    (hsignal : s'.signal i = s.signal i) (hhanding : s'.handing = some i ↔ s.handing = some i) :
    s'.Good i where
  queued hi := by
    obtain ⟨hq, hs, hh⟩ := h.queued (hsq.mp hi)
    rw [hthread, hsignal, ne_eq, hhanding]
    exact ⟨hqueues hq, hs, hh⟩
  handed hi := by
    rw [hthread, hsignal, hwaits]
    exact h.handed (hhanding.mp hi)
  woken hi := by
    rw [hthread, hwaits]
    rw [hsignal] at hi
    exact h.woken hi
  waiting hi := by
    rw [hthread, hwaits] at hi
    rw [hsq, hsignal, hhanding]
    exact h.waiting hi

theorem Invariant.waiting_goto (h : Invariant s) (hbefore : (s.threads i).holds = false)
    (hafter : pc.holds = false) (hqueues : (s.threads i).queues = true → pc.queues = true)
    (hwaits : pc.waits = (s.threads i).waits) : Invariant (s.goto i pc) := by
  refine h.outside pc hbefore hafter rfl rfl (Or.inl rfl) h.signaled (fun _ _ => rfl) ?_
  intro hhanding
  exact (h.good i).moved (Function.update_self _ _ _) hqueues hwaits Iff.rfl rfl (by rw [hhanding])

-- The thread that was woken takes its signal.
theorem Invariant.taken (h : Invariant s) (code : Code) (hbefore : (s.threads i).holds = false)
    (hsignal : s.signal i = true) : Invariant ((s.awaken i).goto i (.idle (some code))) := by
  have hgood := h.good i
  have hsq : i ∉ s.sq := by
    intro hi
    rw [(hgood.queued hi).2.1] at hsignal
    cases hsignal
  have hfree : s.handing ≠ some i := by
    intro hi
    rw [(hgood.handed hi).2] at hsignal
    cases hsignal
  refine h.outside (.idle (some code)) hbefore rfl rfl rfl (Or.inl rfl) h.signaled ?_ ?_
  · intro j hj
    exact Function.update_of_ne hj _ _
  · intro hhanding
    refine State.Good.of_awake ?_ hsq (Function.update_self _ _ _) ?_
    · change Pc.waits (Function.update s.threads i _ i) = false
      rw [Function.update_self]
      rfl
    · rw [hhanding]
      exact hfree

theorem lock_own (h : Invariant s) {timeout : Bool} (hpc : s.threads i = .lockOwn timeout)
    (hzero : s.signaled = 0) :
    Invariant { s.goto i (.lockSleep timeout) with sq := i :: s.sq } := by
  have hbefore : (s.threads i).holds = false := by rw [hpc]; rfl
  obtain ⟨hout, hsilent, hfree⟩ := h.nowhere (i := i) (by rw [hpc]; rfl)
  refine h.outside (.lockSleep timeout) hbefore rfl rfl rfl (Or.inr ⟨hout, rfl⟩) ?_ (fun _ _ => rfl) ?_
  · intro hne
    exact absurd hzero hne
  · intro hhanding
    have hthread : (State.goto s i (.lockSleep timeout)).threads i = .lockSleep timeout :=
      Function.update_self _ _ _
    constructor
    · intro _
      change Pc.queues ((State.goto s i (.lockSleep timeout)).threads i) = true ∧ s.signal i = false ∧ _
      rw [hthread, hhanding]
      exact ⟨rfl, hsilent, hfree⟩
    · intro hi
      rw [hhanding] at hi
      exact absurd hi hfree
    · intro hi
      change s.signal i = true at hi
      rw [hsilent] at hi
      cases hi
    · intro _
      exact Or.inl List.mem_cons_self

end Outside

section Inside

-- The mutex is taken.
theorem Invariant.locked (h : Invariant s) (hs : s.lock i pc = some s') (hpc : pc.holds = true)
    (hhanding : pc.handing = none) (hqueues : (s.threads i).queues = true → pc.queues = true)
    (hwaits : pc.waits = (s.threads i).waits) (hloaded : s'.Loaded i pc) : Invariant s' := by
  unfold State.lock at hs
  split at hs
  · rename_i hnone
    cases hs
    refine h.inside pc (Or.inl hnone) rfl (by rw [hpc]; rfl) h.nodup h.signaled ?_ hloaded
    intro hh j
    have hnow : s.handing = none := handing_of_free hnone
    have hsame : State.handing { s.goto i pc with mutex := some i } = s.handing := by
      rw [hh, hhanding, hnow]
    by_cases hji : j = i
    · rw [hji]
      exact (h.good i).moved (Function.update_self _ _ _) hqueues hwaits Iff.rfl rfl (by rw [hsame])
    · refine (h.good j).congr (Function.update_of_ne hji _ _) Iff.rfl rfl ?_
      rw [hsame]
  · cases hs

-- The owner goes on and the queue stays.
theorem Invariant.owner_goto (h : Invariant s) (pc : Pc ι) (hmine : s.mutex = some i)
    (hpc : pc.holds = true) (hbefore : (s.threads i).handing = none) (hhanding : pc.handing = none)
    (hqueues : (s.threads i).queues = true → pc.queues = true)
    (hwaits : pc.waits = (s.threads i).waits) (hloaded : s.Loaded i pc) :
    Invariant (s.goto i pc) := by
  have hnow : s.handing = none := by rw [handing_of_owner hmine, hbefore]
  refine h.inside pc (Or.inr hmine) rfl (by rw [hpc]; exact hmine) h.nodup h.signaled ?_ ?_
  · intro hh j
    have hsame : (s.goto i pc).handing = s.handing := by rw [hh, hhanding, hnow]
    by_cases hji : j = i
    · rw [hji]
      exact (h.good i).moved (Function.update_self _ _ _) hqueues hwaits Iff.rfl rfl (by rw [hsame])
    · refine (h.good j).congr (Function.update_of_ne hji _ _) Iff.rfl rfl ?_
      rw [hsame]
  · cases pc with
    | timeoutTry => exact hloaded
    | reownTry => exact hloaded
    | _ => trivial

omit [DecidableEq ι] in
-- compare_and_swap on the first thread of the queue shows that nobody was added.
theorem eq_of_head {pre sq : List ι} (hnodup : (pre ++ sq).Nodup)
    (h : (pre ++ sq).head? = sq.head?) : pre ++ sq = sq := by
  cases pre with
  | nil => rfl
  | cons first pre =>
      cases sq with
      | nil => cases h
      | cons it rest =>
          cases h
          exact absurd rfl ((List.nodup_append.mp hnodup).2.2 first List.mem_cons_self first
            List.mem_cons_self)

-- The thread whose time is over takes itself out of the queue.
theorem timeout_leave (h : Invariant s) {signaled : BitVec 32} {sq : List ι}
    (hpc : s.threads i = .timeoutTry signaled sq) (hmem : i ∈ s.sq) :
    Invariant { s.unlock i (.idle (some .etimedout)) with sq := s.sq.erase i } := by
  have hmine : s.mutex = some i := (h.exclusive i).mp (by rw [hpc]; rfl)
  have hnow : s.handing = none := by rw [handing_of_owner hmine, hpc]; rfl
  refine h.inside (.idle (some .etimedout)) (Or.inr hmine) rfl rfl (h.nodup.erase i) ?_ ?_ trivial
  · intro hne
    have hempty := h.signaled hne
    rw [hempty] at hmem
    cases hmem
  · intro hh j
    by_cases hji : j = i
    · rw [hji]
      apply State.Good.of_awake
      · change Pc.waits (Function.update s.threads i _ i) = false
        rw [Function.update_self]
        rfl
      · intro hi
        exact absurd rfl (h.nodup.mem_erase_iff.mp hi).1
      · exact ((h.good i).queued hmem).2.1
      · rw [hh]
        nofun
    · refine (h.good j).congr (Function.update_of_ne hji _ _) ?_ rfl ?_
      · exact h.nodup.mem_erase_iff.trans (and_iff_right hji)
      · rw [hh, hnow]
        rfl

theorem timeout_try (h : Invariant s) {signaled : BitVec 32} {sq : List ι}
    (hpc : s.threads i = .timeoutTry signaled sq) (hs : advance protocol prio s i = some s') :
    Invariant s' := by
  have hmine : s.mutex = some i := (h.exclusive i).mp (by rw [hpc]; rfl)
  have hnow : s.handing = none := by rw [handing_of_owner hmine, hpc]; rfl
  have hloaded := h.loaded i hmine
  rw [hpc] at hloaded
  obtain ⟨pre, hpre, hnot⟩ := hloaded
  simp only [advance, hpc] at hs
  split at hs
  · rename_i hnone
    cases hs
    have hout : i ∉ s.sq := by
      rw [hpre]
      intro hi
      rcases List.mem_append.mp hi with hin | hin
      · exact hnot hin
      · exact unqueue_eq_none.mp hnone hin
    refine h.inside (.idle (some (s.gpr3 i))) (Or.inr hmine) rfl rfl h.nodup h.signaled ?_ trivial
    intro hh j
    by_cases hji : j = i
    · rw [hji]
      refine State.Good.of_awake ?_ hout (Function.update_self _ _ _) ?_
      · change Pc.waits (Function.update s.threads i _ i) = false
        rw [Function.update_self]
        rfl
      · rw [hh]
        nofun
    · refine (h.good j).congr (Function.update_of_ne hji _ _) Iff.rfl (Function.update_of_ne hji _ _) ?_
      rw [hh, hnow]
      rfl
  · rename_i rest hsome
    obtain ⟨hmem, hrest⟩ := unqueue_eq_some hsome
    have hin : i ∈ s.sq := by
      rw [hpre]
      exact List.mem_append_right _ hmem
    split at hs
    · split at hs
      · rename_i hunchanged
        cases hs
        have hhead := (of_decide_eq_true hunchanged).2
        have heq : s.sq = sq := by
          rw [hpre] at hhead ⊢
          exact eq_of_head (hpre ▸ h.nodup) hhead
        rw [hrest, ← heq]
        exact timeout_leave h hpc hin
      · cases hs
        exact h.owner_goto .timeoutLoad hmine rfl (by rw [hpc]; rfl) rfl (fun _ => rfl)
          (by rw [hpc]; rfl) trivial
    · cases hs
      exact timeout_leave h hpc hin

-- An unlock takes a thread out of the queue.
theorem reown_leave (h : Invariant s) {unlock2 : Bool} {signaled : BitVec 32} {sq : List ι}
    (hpc : s.threads i = .reownTry unlock2 signaled sq) {cpu : ι} (hmem : cpu ∈ s.sq) :
    Invariant { s.goto i (.reownAwake unlock2 cpu) with sq := s.sq.erase cpu } := by
  have hmine : s.mutex = some i := (h.exclusive i).mp (by rw [hpc]; rfl)
  have hnow : s.handing = none := by rw [handing_of_owner hmine, hpc]; rfl
  have hnowhere := h.nowhere (i := i) (by rw [hpc]; rfl)
  have hne : cpu ≠ i := fun heq => hnowhere.1 (heq ▸ hmem)
  refine h.inside (.reownAwake unlock2 cpu) (Or.inr hmine) rfl hmine (h.nodup.erase cpu) ?_ ?_ trivial
  · intro hsignaled
    have hempty := h.signaled hsignaled
    rw [hempty] at hmem
    cases hmem
  · intro hh j
    by_cases hjc : j = cpu
    · rw [hjc]
      obtain ⟨hqueues, hsilent, _⟩ := (h.good cpu).queued hmem
      have hthread : (s.goto i (.reownAwake unlock2 cpu)).threads cpu = s.threads cpu :=
        Function.update_of_ne hne _ _
      have hwaits : (s.threads cpu).waits = true := by
        cases hcpu : s.threads cpu with
        | barrier => rfl
        | _ =>
            rw [hcpu] at hqueues
            exact hqueues
      constructor
      · intro hin
        exact absurd rfl (h.nodup.mem_erase_iff.mp hin).1
      · intro _
        change Pc.waits ((s.goto i (.reownAwake unlock2 cpu)).threads cpu) = true ∧ _
        rw [hthread]
        exact ⟨hwaits, hsilent⟩
      · intro _
        change Pc.waits ((s.goto i (.reownAwake unlock2 cpu)).threads cpu) = true
        rw [hthread]
        exact hwaits
      · intro _
        exact Or.inr (Or.inl hh)
    · have hhanding : State.handing
          { s.goto i (.reownAwake unlock2 cpu) with sq := s.sq.erase cpu } ≠ some j := by
        rw [hh]
        intro heq
        exact hjc (Option.some.inj heq).symm
      by_cases hji : j = i
      · rw [hji] at hhanding ⊢
        refine State.Good.of_awake ?_ ?_ hnowhere.2.1 hhanding
        · change Pc.waits (Function.update s.threads i _ i) = false
          rw [Function.update_self]
          rfl
        · intro hin
          exact hnowhere.1 (List.mem_of_mem_erase hin)
      · refine (h.good j).congr (Function.update_of_ne hji _ _) ?_ rfl ?_
        · exact h.nodup.mem_erase_iff.trans (and_iff_right hjc)
        · rw [hnow]
          exact ⟨fun hj => absurd hj hhanding, nofun⟩

end Inside

section Unlock

-- In _sys_lwmutex_unlock or _sys_lwmutex_unlock2.
def Pc.unlocks : Pc ι → Bool
  | unlockLoad _ | unlockSignaled _ | unlockCas _ _ | unlockLock _ | reownLoad _ | reownTry _ _ _
  | reownAwake _ _ => true
  | _ => false

-- What a step of an unlock does: nothing yet, or it leaves the signal for the next locker, or it
-- takes a thread out of the queue, or it wakes the thread that it has taken.
inductive Unlocks (s s' : State ι) (i : ι) : Prop where
  | pending (hpc : (s'.threads i).unlocks = true) (hfree : (s'.threads i).handing = none)
      (hsq : s'.sq = s.sq) (hsignaled : s'.signaled = s.signaled) (hsignal : s'.signal = s.signal)
  | signaled (hpc : s'.threads i = .idle (some .ok)) (hempty : s.sq = []) (hsq : s'.sq = [])
      (hsignaled : s'.signaled ≠ 0) (hsignal : s'.signal = s.signal)
  | takes (cpu : ι) (hmem : cpu ∈ s.sq) (hpc : (s'.threads i).handing = some cpu)
      (hsq : s'.sq = s.sq.erase cpu) (hsignaled : s'.signaled = s.signaled)
      (hsignal : s'.signal = s.signal)
  | wakes (cpu : ι) (hpc : (s.threads i).handing = some cpu) (hout : cpu ∉ s.sq)
      (hdone : s'.threads i = .idle (some .ok)) (hsq : s'.sq = s.sq)
      (hsignaled : s'.signaled = s.signaled)
      (hsignal : s'.signal = Function.update s.signal cpu true)

omit [DecidableEq ι] in
theorem or_unlockBit_ne_zero (signaled : BitVec 32) (unlock2 : Bool) :
    signaled ||| unlockBit unlock2 ≠ 0 := by
  cases unlock2 with
  | false =>
      intro h
      have hbit := congrArg (fun value => value.getLsbD 0) h
      simp [unlockBit] at hbit
  | true =>
      intro h
      have hbit := congrArg (fun value => value.getLsbD 31) h
      simp [unlockBit] at hbit

theorem unlock_cas (h : Invariant s) {unlock2 : Bool} {signaled : BitVec 32}
    (hpc : s.threads i = .unlockCas unlock2 signaled) (hs : advance protocol prio s i = some s') :
    Invariant s' ∧ Unlocks s s' i := by
  have hbefore : (s.threads i).holds = false := by rw [hpc]; rfl
  have hawake : (s.threads i).waits = false := by rw [hpc]; rfl
  simp only [advance, hpc] at hs
  split at hs
  · rename_i hunchanged
    cases hs
    have hempty : s.sq = [] := List.head?_eq_none_iff.mp (of_decide_eq_true hunchanged).2
    refine ⟨h.running _ (.idle (some .ok)) hbefore rfl hawake rfl rfl rfl rfl rfl fun _ => hempty, ?_⟩
    exact .signaled (Function.update_self _ _ _) hempty hempty (or_unlockBit_ne_zero _ _) rfl
  · cases hs
    refine ⟨h.running _ (.unlockLock unlock2) hbefore rfl hawake rfl rfl rfl rfl rfl h.signaled, ?_⟩
    refine .pending ?_ ?_ rfl rfl rfl
    · simp [State.goto, Pc.unlocks]
    · simp [State.goto, Pc.handing]

theorem reown_try (h : Invariant s) {unlock2 : Bool} {signaled : BitVec 32} {sq : List ι}
    (hpc : s.threads i = .reownTry unlock2 signaled sq) (hs : advance protocol prio s i = some s') :
    Invariant s' ∧ Unlocks s s' i := by
  have hmine : s.mutex = some i := (h.exclusive i).mp (by rw [hpc]; rfl)
  have hnow : s.handing = none := by rw [handing_of_owner hmine, hpc]; rfl
  have hloaded := h.loaded i hmine
  rw [hpc] at hloaded
  obtain ⟨pre, hpre⟩ := hloaded
  have hretry : Invariant (s.goto i (.reownLoad unlock2)) ∧
      Unlocks s (s.goto i (.reownLoad unlock2)) i := by
    refine ⟨h.owner_goto (.reownLoad unlock2) hmine rfl (by rw [hpc]; rfl) rfl (by rw [hpc]; nofun)
      (by rw [hpc]; rfl) trivial, .pending ?_ ?_ rfl rfl rfl⟩
    · simp [State.goto, Pc.unlocks]
    · simp [State.goto, Pc.handing]
  have hsame : s.unchanged signaled sq.head? = true → s.sq = sq := by
    intro hunchanged
    have hhead := (of_decide_eq_true hunchanged).2
    rw [hpre] at hhead ⊢
    exact eq_of_head (hpre ▸ h.nodup) hhead
  simp only [advance, hpc] at hs
  split at hs
  · rename_i hnone
    split at hs
    · rename_i hunchanged
      cases hs
      have hempty : s.sq = [] := by
        rw [hsame hunchanged]
        exact schedule_eq_none.mp hnone
      refine ⟨?_, .signaled (Function.update_self _ _ _) hempty hempty (or_unlockBit_ne_zero _ _) rfl⟩
      refine h.inside (.idle (some .ok)) (Or.inr hmine) rfl rfl h.nodup (fun _ => hempty) ?_ trivial
      intro hh j
      by_cases hji : j = i
      · obtain ⟨hout, hsilent, _⟩ := h.nowhere (i := i) (by rw [hpc]; rfl)
        rw [hji]
        refine State.Good.of_awake ?_ hout hsilent (by rw [hh]; nofun)
        change Pc.waits (Function.update s.threads i _ i) = false
        rw [Function.update_self]
        rfl
      · refine (h.good j).congr (Function.update_of_ne hji _ _) Iff.rfl rfl ?_
        rw [hh, hnow]
        rfl
    · cases hs
      exact hretry
  · rename_i cpu rest hsome
    have hmem : cpu ∈ s.sq := by
      rw [hpre]
      exact List.mem_append_right _ ((schedule_perm hsome).mem_iff.mpr List.mem_cons_self)
    have htaken : Unlocks s { s.goto i (.reownAwake unlock2 cpu) with sq := s.sq.erase cpu } i := by
      refine .takes cpu hmem ?_ rfl rfl rfl
      simp [State.goto, Pc.handing]
    split at hs
    · split at hs
      · rename_i hunchanged
        cases hs
        have heq := hsame hunchanged
        rw [schedule_eq_erase (heq ▸ h.nodup) hsome, ← heq]
        exact ⟨reown_leave h hpc hmem, htaken⟩
      · cases hs
        exact hretry
    · cases hs
      exact ⟨reown_leave h hpc hmem, htaken⟩

theorem reown_awake (h : Invariant s) {unlock2 : Bool} {cpu : ι}
    (hpc : s.threads i = .reownAwake unlock2 cpu) (hs : advance protocol prio s i = some s') :
    Invariant s' ∧ Unlocks s s' i := by
  have hmine : s.mutex = some i := (h.exclusive i).mp (by rw [hpc]; rfl)
  have hnow : s.handing = some cpu := by rw [handing_of_owner hmine, hpc]; rfl
  have hnowhere := h.nowhere (i := i) (by rw [hpc]; rfl)
  have hne : cpu ≠ i := by
    intro heq
    rw [heq] at hnow
    exact hnowhere.2.2 hnow
  obtain ⟨hwaits, hsilent⟩ := (h.good cpu).handed hnow
  have hout : cpu ∉ s.sq := fun hmem => ((h.good cpu).queued hmem).2.2 hnow
  simp only [advance, hpc] at hs
  cases hs
  refine ⟨?_, .wakes cpu (by rw [hpc]; rfl) hout (Function.update_self _ _ _) rfl rfl rfl⟩
  refine h.inside (.idle (some .ok)) (Or.inr hmine) rfl rfl h.nodup h.signaled ?_ trivial
  intro hh j
  by_cases hjc : j = cpu
  · rw [hjc]
    have hthread : (s.unlock i (.idle (some .ok))).threads cpu = s.threads cpu :=
      Function.update_of_ne hne _ _
    constructor
    · intro hin
      exact absurd hin hout
    · intro hin
      rw [hh] at hin
      cases hin
    · intro _
      change Pc.waits ((s.unlock i (.idle (some .ok))).threads cpu) = true
      rw [hthread]
      exact hwaits
    · intro _
      exact Or.inr (Or.inr (Function.update_self _ _ _))
  · by_cases hji : j = i
    · rw [hji]
      refine State.Good.of_awake ?_ hnowhere.1 ?_ (by rw [hh]; nofun)
      · change Pc.waits (Function.update s.threads i _ i) = false
        rw [Function.update_self]
        rfl
      · change Function.update s.signal cpu true i = false
        rw [Function.update_of_ne hne.symm]
        exact hnowhere.2.1
    · refine (h.good j).congr (Function.update_of_ne hji _ _) Iff.rfl (Function.update_of_ne hjc _ _) ?_
      rw [hh, hnow]
      exact ⟨nofun, fun heq => absurd (Option.some.inj heq).symm hjc⟩

-- Every step of an unlock.
theorem unlock_step (h : Invariant s) (hpc : (s.threads i).unlocks = true)
    (hs : advance protocol prio s i = some s') : Invariant s' ∧ Unlocks s s' i := by
  cases hthread : s.threads i with
  | unlockLoad unlock2 =>
      have hbefore : (s.threads i).holds = false := by rw [hthread]; rfl
      have hawake : (s.threads i).waits = false := by rw [hthread]; rfl
      simp only [advance, hthread] at hs
      split at hs
      · cases hs
        refine ⟨h.running _ (.unlockSignaled unlock2) hbefore rfl hawake rfl rfl rfl rfl rfl h.signaled,
          .pending ?_ ?_ rfl rfl rfl⟩
        · simp [State.goto, Pc.unlocks]
        · simp [State.goto, Pc.handing]
      · cases hs
        refine ⟨h.running _ (.unlockLock unlock2) hbefore rfl hawake rfl rfl rfl rfl rfl h.signaled,
          .pending ?_ ?_ rfl rfl rfl⟩
        · simp [State.goto, Pc.unlocks]
        · simp [State.goto, Pc.handing]
  | unlockSignaled unlock2 =>
      have hbefore : (s.threads i).holds = false := by rw [hthread]; rfl
      have hawake : (s.threads i).waits = false := by rw [hthread]; rfl
      simp only [advance, hthread] at hs
      cases hs
      refine ⟨h.running _ (.unlockCas unlock2 s.signaled) hbefore rfl hawake rfl rfl rfl rfl rfl
        h.signaled, .pending ?_ ?_ rfl rfl rfl⟩
      · simp [State.goto, Pc.unlocks]
      · simp [State.goto, Pc.handing]
  | unlockCas unlock2 signaled => exact unlock_cas h hthread hs
  | unlockLock unlock2 =>
      simp only [advance, hthread] at hs
      refine ⟨h.locked hs rfl rfl (by rw [hthread]; nofun) (by rw [hthread]; rfl) trivial, ?_⟩
      unfold State.lock at hs
      split at hs
      · cases hs
        refine .pending ?_ ?_ rfl rfl rfl
        · simp [State.goto, Pc.unlocks]
        · simp [State.goto, Pc.handing]
      · cases hs
  | reownLoad unlock2 =>
      have hmine : s.mutex = some i := (h.exclusive i).mp (by rw [hthread]; rfl)
      simp only [advance, hthread] at hs
      cases hs
      refine ⟨h.owner_goto (.reownTry unlock2 s.signaled s.sq) hmine rfl (by rw [hthread]; rfl) rfl
        (by rw [hthread]; nofun) (by rw [hthread]; rfl) ⟨[], rfl⟩, .pending ?_ ?_ rfl rfl rfl⟩
      · simp [State.goto, Pc.unlocks]
      · simp [State.goto, Pc.handing]
  | reownTry unlock2 signaled sq => exact reown_try h hthread hs
  | reownAwake unlock2 cpu => exact reown_awake h hthread hs
  | _ =>
      rw [hthread] at hpc
      cases hpc

end Unlock

section Results

theorem advance_invariant (h : Invariant s) (hs : advance protocol prio s i = some s') :
    Invariant s' := by
  cases hpc : s.threads i with
  | idle result => simp [advance, hpc] at hs
  | lockTry timeout =>
      have hbefore : (s.threads i).holds = false := by rw [hpc]; rfl
      have hawake : (s.threads i).waits = false := by rw [hpc]; rfl
      simp only [advance, hpc] at hs
      split at hs
      · cases hs
        exact h.running _ (.idle _) hbefore rfl hawake rfl rfl rfl rfl rfl fun hne => absurd rfl hne
      · cases hs
        exact h.running _ (.lockOwn timeout) hbefore rfl hawake rfl rfl rfl rfl rfl h.signaled
  | lockOwn timeout =>
      have hbefore : (s.threads i).holds = false := by rw [hpc]; rfl
      have hawake : (s.threads i).waits = false := by rw [hpc]; rfl
      simp only [advance, hpc] at hs
      split at hs
      · cases hs
        exact h.running _ (.idle _) hbefore rfl hawake rfl rfl rfl rfl rfl fun hne => absurd rfl hne
      · rename_i hzero
        cases hs
        exact lock_own h hpc (not_not.mp hzero)
  | lockSleep timeout =>
      have hbefore : (s.threads i).holds = false := by rw [hpc]; rfl
      simp only [advance, hpc] at hs
      split at hs
      · rename_i hsignal
        cases hs
        exact h.taken _ hbefore hsignal
      · cases hs
        exact h.waiting_goto hbefore rfl (fun _ => rfl) (by rw [hpc]; rfl)
  | parked timeout =>
      have hbefore : (s.threads i).holds = false := by rw [hpc]; rfl
      simp only [advance, hpc] at hs
      split at hs
      · rename_i hsignal
        cases hs
        exact h.taken _ hbefore hsignal
      · cases hs
  | expired =>
      have hbefore : (s.threads i).holds = false := by rw [hpc]; rfl
      simp only [advance, hpc] at hs
      split at hs
      · rename_i hempty
        cases hs
        refine h.outside .barrier hbefore rfl rfl rfl (Or.inl rfl) h.signaled (fun _ _ => rfl) ?_
        intro hhanding
        have hthread : (s.goto i .barrier).threads i = .barrier := Function.update_self _ _ _
        have hout : i ∉ s.sq := by
          rw [hempty]
          exact List.not_mem_nil
        constructor
        · intro hin
          exact absurd hin hout
        · intro hin
          rw [hhanding] at hin
          rw [hthread]
          exact ⟨rfl, ((h.good i).handed hin).2⟩
        · intro _
          rw [hthread]
          rfl
        · intro _
          rw [hhanding]
          exact (h.good i).waiting (by rw [hpc]; rfl)
      · cases hs
        exact h.waiting_goto hbefore rfl (fun _ => rfl) (by rw [hpc]; rfl)
  | barrier =>
      have hbefore : (s.threads i).holds = false := by rw [hpc]; rfl
      simp only [advance, hpc] at hs
      split at hs
      · rename_i hfree
        cases hs
        have hout : i ∉ s.sq := by
          intro hin
          have hqueues := ((h.good i).queued hin).1
          rw [hpc] at hqueues
          cases hqueues
        rcases (h.good i).waiting (by rw [hpc]; rfl) with hin | hhanded | hsignal
        · exact absurd hin hout
        · rw [handing_of_free hfree] at hhanded
          cases hhanded
        · exact h.taken _ hbefore hsignal
      · cases hs
  | timeoutLock =>
      simp only [advance, hpc] at hs
      exact h.locked hs rfl rfl (fun _ => rfl) (by rw [hpc]; rfl) trivial
  | timeoutLoad =>
      have hmine : s.mutex = some i := (h.exclusive i).mp (by rw [hpc]; rfl)
      simp only [advance, hpc] at hs
      cases hs
      exact h.owner_goto (.timeoutTry s.signaled s.sq) hmine rfl (by rw [hpc]; rfl) rfl (fun _ => rfl)
        (by rw [hpc]; rfl) ⟨[], rfl, List.not_mem_nil⟩
  | timeoutTry signaled sq => exact timeout_try h hpc hs
  | trylock =>
      have hbefore : (s.threads i).holds = false := by rw [hpc]; rfl
      have hawake : (s.threads i).waits = false := by rw [hpc]; rfl
      simp only [advance, hpc] at hs
      split at hs
      · cases hs
        exact h.running _ (.idle _) hbefore rfl hawake rfl rfl rfl rfl rfl fun hne => absurd rfl hne
      · cases hs
        exact h.running _ (.idle _) hbefore rfl hawake rfl rfl rfl rfl rfl h.signaled
  | unlockLoad | unlockSignaled | unlockCas | unlockLock | reownLoad | reownTry | reownAwake =>
      exact (unlock_step h (by rw [hpc]; rfl) hs).1

theorem step_invariant (h : Invariant s) (hs : Step protocol s s') : Invariant s' := by
  cases hs with
  | call i result call hidle =>
      have hbefore : (s.threads i).holds = false := by rw [hidle]; rfl
      have hawake : (s.threads i).waits = false := by rw [hidle]; rfl
      cases call with
      | lock timeout =>
          exact h.running _ (.lockTry timeout) hbefore rfl hawake rfl rfl rfl rfl rfl h.signaled
      | trylock => exact h.running _ .trylock hbefore rfl hawake rfl rfl rfl rfl rfl h.signaled
      | unlock unlock2 =>
          exact h.running _ (.unlockLoad unlock2) hbefore rfl hawake rfl rfl rfl rfl rfl h.signaled
  | run i prio _ hs => exact advance_invariant h hs
  | expire i hparked =>
      exact h.waiting_goto (by rw [hparked]; rfl) rfl (fun _ => rfl) (by rw [hparked]; rfl)

-- The signal is never set while threads are queued; an unlock leaves it for the next locker, or
-- takes one thread out of the queue and wakes it; nobody is queued and woken at the same time; and
-- a thread that sleeps and is not queued has been or is about to be woken.
theorem lwmutex_invariant (h : Reachable protocol s) :
    (s.signaled ≠ 0 → s.sq = []) ∧
    (∀ i prio s', (s.threads i).unlocks = true → advance protocol prio s i = some s' →
      Unlocks s s' i) ∧
    (s.sq.Nodup ∧ ∀ j ∈ s.sq, s.signal j = false ∧ ∀ i, (s.threads i).handing ≠ some j) ∧
    (∀ j timeout, s.threads j = .parked timeout →
      j ∈ s.sq ∨ (∃ i, (s.threads i).handing = some j) ∨ s.signal j = true) ∧
    (∀ j ∈ s.sq, ∀ i prio s', (s.threads i).unlocks = true → advance protocol prio s i = some s' →
      s'.signaled = 0) := by
  have hinv : Invariant s := invariant_of_reachable Invariant.start (fun _ _ => step_invariant) h
  have hunlocks : ∀ i prio s', (s.threads i).unlocks = true → advance protocol prio s i = some s' →
      Unlocks s s' i := fun i prio s' hpc hs => (unlock_step hinv hpc hs).2
  have hhanding : ∀ i j, (s.threads i).handing = some j → s.handing = some j := by
    intro i j hj
    have hholds : (s.threads i).holds = true := by
      cases hpc : (s.threads i).holds with
      | true => rfl
      | false =>
          rw [Pc.handing_of_not_holds hpc] at hj
          cases hj
    rw [handing_of_owner ((hinv.exclusive i).mp hholds)]
    exact hj
  refine ⟨hinv.signaled, hunlocks, ⟨hinv.nodup, ?_⟩, ?_, ?_⟩
  · intro j hj
    obtain ⟨_, hsilent, hfree⟩ := (hinv.good j).queued hj
    exact ⟨hsilent, fun i hi => hfree (hhanding i j hi)⟩
  · intro j timeout hpc
    rcases (hinv.good j).waiting (by rw [hpc]; rfl) with hin | hhanded | hsignal
    · exact Or.inl hin
    · unfold State.handing at hhanded
      obtain ⟨i, _, hi⟩ := Option.bind_eq_some_iff.mp hhanded
      exact Or.inr (Or.inl ⟨i, hi⟩)
    · exact Or.inr (Or.inr hsignal)
  · intro j hj i prio s' hpc hs
    have hzero : s.signaled = 0 := by
      by_contra hne
      rw [hinv.signaled hne] at hj
      cases hj
    cases hunlocks i prio s' hpc hs with
    | pending _ _ _ hsignaled => rw [hsignaled, hzero]
    | signaled _ hempty =>
        rw [hempty] at hj
        cases hj
    | takes _ _ _ _ hsignaled => rw [hsignaled, hzero]
    | wakes _ _ _ _ _ hsignaled => rw [hsignaled, hzero]

end Results

-- One thread sleeps in the queue, and an unlock of another one takes it out.
theorem lwmutex_invariant_queued : ∃ s s' : State (Fin 2), Reachable .fifo s ∧ s.sq = [0] ∧
    advance .fifo (fun _ => ⟨0, 0⟩) s 1 = some s' ∧ s'.sq = [] ∧ Unlocks s s' 1 := by
  have hlock : Reachable .fifo ((State.start.setResult 0 .ok).goto (0 : Fin 2) (.lockTry false)) :=
    .single (.call 0 none (.lock false) rfl)
  have hown := hlock.tail (.run 0 (fun _ => ⟨0, 0⟩) _ rfl)
  have hsleep := hown.tail (.run 0 (fun _ => ⟨0, 0⟩) _ rfl)
  have hparked := hsleep.tail (.run 0 (fun _ => ⟨0, 0⟩) _ rfl)
  have hunlock := hparked.tail (.call 1 none (.unlock false) rfl)
  have hload := hunlock.tail (.run 1 (fun _ => ⟨0, 0⟩) _ rfl)
  have hlocked := hload.tail (.run 1 (fun _ => ⟨0, 0⟩) _ rfl)
  have hreown := hlocked.tail (.run 1 (fun _ => ⟨0, 0⟩) _ rfl)
  exact ⟨_, _, hreown, rfl, rfl, rfl, (lwmutex_invariant hreown).2.1 1 (fun _ => ⟨0, 0⟩) _ rfl rfl⟩

end Rpcsx.Lv2.LwMutex
