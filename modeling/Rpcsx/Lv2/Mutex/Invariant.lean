import Rpcsx.Data.Interleaving
import Rpcsx.Lv2.Mutex

namespace Rpcsx.Lv2.Mutex

open Data.Interleaving

variable {ι κ : Type}

-- Where a thread that does not run can be: in one of the queues, or taken from one by the thread
-- that holds the `shared_mutex`.
inductive Place (κ : Type) where
  | sq
  | cond (cond : κ)
  | stored
  | moved
deriving DecidableEq, Repr

namespace Pc

-- Taken from the queue of the mutex, to become the owner.
def stored : Pc ι κ → Option ι
  | reownStore _ cpu => some cpu
  | _ => none

-- Taken from the queue of a condition variable, to own the mutex or to wait for it.
def moved : Pc ι κ → List ι
  | signalOwn cpu => [cpu]
  | allSchedule sq _ => sq
  | allOwn cpu sq _ => cpu :: sq
  | _ => []

-- Asleep, or on the way out of it.
def waits : Pc ι κ → Bool
  | lockParked _ | lockExpired | lockBarrier | lockTimeoutLock | lockTimeoutLoad | lockTimeoutTry _ _
  | reownAwake (.wait _ _ _) _ | waitParked _ _ _ _ | waitTimeoutLock _ _ _ | waitUnqueue _ _ _
  | waitOwnerCheck _ _ _ => true
  | _ => false

-- In the queue of a condition variable with the mutex not yet given up.
def leaving : Pc ι κ → Bool
  | waitExchange _ _ | reownLoad (.wait _ _ _) | reownTry (.wait _ _ _) _ _
  | reownStore (.wait _ _ _) _ => true
  | _ => false

def Allows : Pc ι κ → Place κ → Prop
  | lockParked _, p | lockExpired, p | lockTimeoutLock, p | lockTimeoutLoad, p
  | lockTimeoutTry _ _, p => p = .sq ∨ p = .stored
  | lockBarrier, p => p = .stored
  | waitParked cond _ _ _, p | waitTimeoutLock cond _ _, p | waitUnqueue cond _ _, p
  | waitOwnerCheck cond _ _, p => p = .sq ∨ p = .stored ∨ p = .moved ∨ p = .cond cond
  | waitExchange cond _, p | reownLoad (.wait cond _ _), p | reownTry (.wait cond _ _) _ _, p
  | reownStore (.wait cond _ _) _, p | reownAwake (.wait cond _ _) _, p => p = .cond cond
  | _, _ => False

-- The last call has left the thread with the mutex.
def acquired : Returned × Code → Bool
  | (.lock, .ok) | (.wait, .ok) | (.wait, .etimedout) => true
  | _ => false

-- How often the mutex is locked, for a thread that is its owner or not.
def Counts (own : Prop) (lockCount depth : Nat) : Pc ι κ → Prop
  | idle last =>
      (own → lockCount + 1 = depth) ∧ (¬ own → depth = 0) ∧ (last.any acquired = true → own)
  | lockCas _ _ | lockBusy _ | lockOwn _ => ¬ own ∧ depth = 0
  | lockCheck | lockInc | unlockCheck _ | waitLock _ _ | waitEmplace _ _ | waitExchange _ _ =>
      own ∧ lockCount + 1 = depth
  | unlockDec => own ∧ lockCount + 1 = depth ∧ lockCount ≠ 0
  | unlockCas | unlockLock | reownLoad .unlock | reownTry .unlock _ _ | reownStore .unlock _ =>
      own ∧ lockCount = 0 ∧ depth = 1
  | reownLoad (.wait _ _ count) | reownTry (.wait _ _ count) _ _ | reownStore (.wait _ _ count) _
  | waitEnsure count _ | waitRestore count _ => own ∧ lockCount = 0 ∧ depth = count + 1
  | reownAwake .unlock _ => ¬ own ∧ depth = 0
  | lockParked _ | lockExpired | lockBarrier | lockTimeoutLock | lockTimeoutLoad
  | lockTimeoutTry _ _ => (own → lockCount = 0) ∧ depth = 0
  | reownAwake (.wait _ _ count) _ | waitParked _ _ count _ | waitTimeoutLock _ count _
  | waitUnqueue _ count _ | waitOwnerCheck _ count _ =>
      (own → lockCount = 0) ∧ depth = count + 1
  | waitOwn _ count => ¬ own ∧ depth = count + 1
  | failed => False
  | _ => (own → lockCount + 1 = depth) ∧ (¬ own → depth = 0)

variable {pc : Pc ι κ}

theorem stored_of_not_holds (h : pc.holds = false) : pc.stored = none := by
  cases pc <;> first | rfl | cases h

theorem moved_of_not_holds (h : pc.holds = false) : pc.moved = [] := by
  cases pc <;> first | rfl | cases h

-- The count of locks is that of the owner.
theorem Counts.of_not_own {own : Prop} {lockCount lockCount' depth : Nat} (hown : ¬ own)
    (h : pc.Counts own lockCount depth) : pc.Counts own lockCount' depth := by
  cases pc with
  | reownLoad after | reownTry after _ _ | reownStore after _ | reownAwake after _ =>
      cases after <;> simp only [Counts] at h ⊢ <;> tauto
  | _ => simp only [Counts] at h ⊢ <;> tauto

-- A thread that waits is handed the mutex.
theorem Counts.handed {depth : Nat} {lockCount : Nat} (hwaits : pc.waits = true)
    (h : pc.Counts False lockCount depth) : pc.Counts True 0 depth := by
  cases pc with
  | reownAwake after cpu =>
      cases after with
      | unlock => cases hwaits
      | wait cond timeout count => exact ⟨fun _ => rfl, h.2⟩
  | lockParked _ | lockExpired | lockBarrier | lockTimeoutLock | lockTimeoutLoad | lockTimeoutTry _ _
  | waitParked _ _ _ _ | waitTimeoutLock _ _ _ | waitUnqueue _ _ _ | waitOwnerCheck _ _ _ =>
      exact ⟨fun _ => rfl, h.2⟩
  | _ => cases hwaits

-- Threads in a queue that do not run inside of the `shared_mutex` are asleep.
theorem Allows.waits {p : Place κ} (h : pc.Allows p) (hholds : pc.holds = false) :
    pc.waits = true := by
  cases pc <;> first | rfl | exact h.elim | cases hholds

theorem not_leaving_of_not_holds (h : pc.holds = false) : pc.leaving = false := by
  cases pc <;> first | rfl | cases h

theorem not_leaving_of_waits (h : pc.waits = true) : pc.leaving = false := by
  cases pc with
  | reownLoad after | reownTry after _ _ | reownStore after _ | reownAwake after _ =>
      cases after <;> first | rfl | cases h
  | _ => first | rfl | cases h

theorem Allows.waits_of_stored (h : pc.Allows .stored) : pc.waits = true := by
  cases pc with
  | reownLoad after | reownTry after _ _ | reownStore after _ | reownAwake after _ =>
      cases after <;> first | exact h.elim | cases h
  | _ => first | rfl | exact h.elim | cases h

-- From the queue of the mutex into the hands of its owner.
theorem Allows.stored_of_sq (h : pc.Allows .sq) : pc.Allows .stored := by
  cases pc with
  | reownLoad after | reownTry after _ _ | reownStore after _ | reownAwake after _ =>
      cases after <;> first | exact h.elim | cases h
  | lockParked _ | lockExpired | lockTimeoutLock | lockTimeoutLoad | lockTimeoutTry _ _ =>
      exact Or.inr rfl
  | waitParked _ _ _ _ | waitTimeoutLock _ _ _ | waitUnqueue _ _ _ | waitOwnerCheck _ _ _ =>
      exact Or.inr (Or.inl rfl)
  | _ => first | exact h.elim | cases h

-- From the queue of a condition variable into the hands of a thread that signals it.
theorem Allows.moved_of_cond {cond : κ} (h : pc.Allows (.cond cond)) (hholds : pc.holds = false) :
    pc.Allows .moved := by
  cases pc with
  | waitParked _ _ _ _ | waitTimeoutLock _ _ _ => exact Or.inr (Or.inr (Or.inl rfl))
  | lockParked _ | lockExpired | lockBarrier | lockTimeoutLock => simp [Allows] at h
  | _ => first | exact h.elim | cases hholds

-- And from there to the queue of the mutex.
theorem Allows.sq_of_moved (h : pc.Allows .moved) : pc.Allows .sq := by
  cases pc with
  | reownLoad after | reownTry after _ _ | reownStore after _ | reownAwake after _ =>
      cases after <;> first | exact h.elim | cases h
  | waitParked _ _ _ _ | waitTimeoutLock _ _ _ | waitUnqueue _ _ _ | waitOwnerCheck _ _ _ =>
      exact Or.inl rfl
  | lockParked _ | lockExpired | lockBarrier | lockTimeoutLock | lockTimeoutLoad
  | lockTimeoutTry _ _ => simp [Allows] at h
  | _ => first | exact h.elim | cases h

theorem Allows.waits_of_sq (h : pc.Allows .sq) : pc.waits = true := by
  cases pc with
  | reownLoad after | reownTry after _ _ | reownStore after _ | reownAwake after _ =>
      cases after <;> first | exact h.elim | cases h
  | _ => first | rfl | exact h.elim | cases h

end Pc

-- What holds of one thread: its place in the queues, the mutex and the counts.
structure Good (pc : Pc ι κ) (own : Prop) (place : Place κ → Prop) (lockCount depth : Nat)
    (signal : Bool) : Prop where
  once : ∀ p q, place p → place q → p = q
  allowed : ∀ p, place p → pc.Allows p
  leaving : ∀ p, place p → own → pc.leaving = true
  waits : pc.waits = true → own ∨ ∃ p, place p
  registered : pc.leaving = true → ∃ p, place p
  counts : pc.Counts own lockCount depth
  signal : signal = true → own ∧ pc.waits = true

namespace Good

variable {pc : Pc ι κ} {own own' : Prop} {place place' : Place κ → Prop}
  {lockCount lockCount' depth : Nat} {signal : Bool}

-- Nothing that concerns the thread has changed.
theorem congr (h : Good pc own place lockCount depth signal) (hown : own' ↔ own)
    (hplace : ∀ p, place' p ↔ place p) (hcount : own → lockCount' = lockCount) :
    Good pc own' place' lockCount' depth signal := by
  have heq : place' = place := funext fun p => propext (hplace p)
  rw [propext hown, heq]
  refine ⟨h.once, h.allowed, h.leaving, h.waits, h.registered, ?_, h.signal⟩
  by_cases ho : own
  · rw [hcount ho]
    exact h.counts
  · exact h.counts.of_not_own ho

-- A thread that is in no queue, and one that is in one of them.
theorem nowhere (hplace : ∀ p, ¬ place p) (hwaits : pc.waits = true → own)
    (hleaving : pc.leaving = false) (hcounts : pc.Counts own lockCount depth) :
    Good pc own place lockCount depth false := by
  refine ⟨?_, ?_, ?_, fun hw => Or.inl (hwaits hw), ?_, hcounts, nofun⟩
  · intro p _ hp
    exact absurd hp (hplace p)
  · intro p hp
    exact absurd hp (hplace p)
  · intro p hp
    exact absurd hp (hplace p)
  · rw [hleaving]
    nofun

theorem only (p : Place κ) (hplace : ∀ q, place q ↔ q = p) (hallows : pc.Allows p)
    (hleaving : own → pc.leaving = true) (hcounts : pc.Counts own lockCount depth) :
    Good pc own place lockCount depth false := by
  have hp : ∃ p, place p := ⟨p, (hplace p).mpr rfl⟩
  refine ⟨?_, ?_, fun _ _ => hleaving, fun _ => Or.inr hp, fun _ => hp, hcounts, nofun⟩
  · intro q r hq hr
    rw [(hplace q).mp hq, (hplace r).mp hr]
  · intro q hq
    rw [(hplace q).mp hq]
    exact hallows

-- The thread is taken from where it is and gets the mutex.
theorem handed (h : Good pc own place lockCount depth signal) (hown : ¬ own) (hown' : own')
    (hwaits : pc.waits = true) (hplace : ∀ p, ¬ place' p) :
    Good pc own' place' 0 depth false := by
  have hcounts := h.counts
  rw [propext (iff_false_intro hown)] at hcounts
  refine nowhere hplace (fun _ => hown') (Pc.not_leaving_of_waits hwaits) ?_
  rw [propext (iff_true_intro hown')]
  exact hcounts.handed hwaits

-- The thread is taken from where it is and put somewhere else.
theorem put (h : Good pc own place lockCount depth signal) (hown : ¬ own) (hown' : ¬ own')
    (p : Place κ) (hallows : pc.Allows p) (hplace : ∀ q, place' q ↔ q = p) :
    Good pc own' place' lockCount' depth false := by
  have hcounts : pc.Counts own lockCount' depth := h.counts.of_not_own hown
  rw [propext (iff_false_intro hown)] at hcounts
  refine only p hplace hallows (fun ho => absurd ho hown') ?_
  rw [propext (iff_false_intro hown')]
  exact hcounts

-- The thread goes on and stays where it is.
theorem move {pc' : Pc ι κ} {depth' : Nat} (h : Good pc own place lockCount depth signal)
    (hallows : ∀ p, place p → pc.Allows p → pc'.Allows p)
    (hleaving : pc'.leaving = pc.leaving) (hwaits : pc'.waits = pc.waits)
    (hcounts : pc'.Counts own lockCount' depth') : Good pc' own place lockCount' depth' signal := by
  refine ⟨h.once, ?_, ?_, ?_, ?_, hcounts, ?_⟩
  · intro p hp
    exact hallows p hp (h.allowed p hp)
  · rw [hleaving]
    exact h.leaving
  · rw [hwaits]
    exact h.waits
  · rw [hleaving]
    exact h.registered
  · rw [hwaits]
    exact h.signal

theorem signal_eq_false (h : Good pc own place lockCount depth signal) (hown : ¬ own) :
    signal = false := by
  cases signal with
  | false => rfl
  | true => exact absurd (h.signal rfl).1 hown

end Good

-- The thread in the section of the `shared_mutex`.
def State.inside (s : State ι κ) : Pc ι κ :=
  match s.mutex with
  | some i => s.threads i
  | none => .idle none

def At (sq : List ι) (conds : κ → List ι) (inside : Pc ι κ) (i : ι) : Place κ → Prop
  | .sq => i ∈ sq
  | .cond cond => i ∈ conds cond
  | .stored => inside.stored = some i
  | .moved => i ∈ inside.moved

def State.At (s : State ι κ) (i : ι) : Place κ → Prop := Mutex.At s.sq s.conds s.inside i

def State.Good (s : State ι κ) (i : ι) : Prop :=
  Mutex.Good (s.threads i) (s.owner = some i) (s.At i) s.lockCount (s.depth i) (s.signal i)

-- The owner sleeps and is about to be woken.
structure State.Handed (s : State ι κ) (cpu : ι) : Prop where
  owner : s.owner = some cpu
  waits : (s.threads cpu).waits = true
  silent : s.signal cpu = false

theorem State.Handed.ne {s : State ι κ} {cpu i : ι} (h : s.Handed cpu)
    (hawake : (s.threads i).waits = false) : cpu ≠ i := by
  intro he
  rw [← he, h.waits] at hawake
  cases hawake

-- What the thread in the section knows of the queue it has looked at and of the thread to wake.
def State.Held (s : State ι κ) (i : ι) : Pc ι κ → Prop
  | .lockTimeoutTry _ sq => ∃ pushed, s.sq = pushed ++ sq ∧ i ∉ pushed
  | .reownTry _ _ sq => ∃ pushed, s.sq = pushed ++ sq
  | .reownAwake _ (some cpu) | .signalAwake cpu | .allSchedule _ (some cpu)
  | .allOwn _ _ (some cpu) => s.Handed cpu
  | _ => True

structure Invariant (s : State ι κ) : Prop where
  inside : Exclusive Pc.holds s.threads s.mutex
  free : s.owner = none → s.sq = [] ∧ s.lockCount = 0
  sq : s.sq.Nodup
  conds : ∀ cond, (s.conds cond).Nodup
  moved : s.inside.moved.Nodup
  good : ∀ i, s.Good i
  held : ∀ i, s.mutex = some i → s.Held i (s.threads i)

theorem Invariant.start : Invariant (State.start (ι := ι) (κ := κ)) := by
  refine ⟨?_, fun _ => ⟨rfl, rfl⟩, List.nodup_nil, fun _ => List.nodup_nil, List.nodup_nil, ?_, nofun⟩
  · intro i
    exact ⟨nofun, nofun⟩
  · intro i
    have hnowhere (p : Place κ) : ¬ (State.start (ι := ι) (κ := κ)).At i p := by
      cases p with
      | stored => nofun
      | sq | cond _ | moved => exact List.not_mem_nil
    refine ⟨?_, ?_, ?_, nofun, nofun, ⟨nofun, fun _ => rfl, nofun⟩, nofun⟩
    · intro p _ hp
      exact absurd hp (hnowhere p)
    · intro p hp
      exact absurd hp (hnowhere p)
    · intro p hp
      exact absurd hp (hnowhere p)

variable [DecidableEq ι] {s s' : State ι κ} {i j : ι}

section Frame

variable (pc : Pc ι κ)

omit [DecidableEq ι] in
theorem State.Good.congr (h : s.Good j) (hthreads : s'.threads j = s.threads j)
    (howner : s'.owner = some j ↔ s.owner = some j) (hplace : ∀ p, s'.At j p ↔ s.At j p)
    (hdepth : s'.depth j = s.depth j) (hsignal : s'.signal j = s.signal j)
    (hcount : s.owner = some j → s'.lockCount = s.lockCount) : s'.Good j := by
  unfold State.Good
  rw [hthreads, hdepth, hsignal]
  exact Mutex.Good.congr h howner hplace hcount

theorem inside_of_outside (h : Invariant s) (hbefore : (s.threads i).holds = false)
    (hthreads : s'.threads = Function.update s.threads i pc) (hmutex : s'.mutex = s.mutex) :
    s'.inside = s.inside := by
  unfold State.inside
  rw [hmutex, hthreads]
  cases hm : s.mutex with
  | none => rfl
  | some j =>
      dsimp only
      rw [Function.update_of_ne (h.inside.ne_of_not_holds hbefore hm)]

theorem inside_of_owner (hthreads : s'.threads = Function.update s.threads i pc)
    (hmutex : s'.mutex = if pc.holds then some i else none) :
    s'.inside.stored = pc.stored ∧ s'.inside.moved = pc.moved := by
  unfold State.inside
  rw [hmutex]
  cases hpc : pc.holds with
  | true =>
      change (s'.threads i).stored = _ ∧ (s'.threads i).moved = _
      rw [hthreads, Function.update_self]
      exact ⟨rfl, rfl⟩
  | false => exact ⟨(Pc.stored_of_not_holds hpc).symm, (Pc.moved_of_not_holds hpc).symm⟩

theorem at_eq_of_owner (hthreads : s'.threads = Function.update s.threads i pc)
    (hmutex : s'.mutex = if pc.holds then some i else none) :
    s'.At j = Mutex.At s'.sq s'.conds pc j := by
  obtain ⟨hstored, hmoved⟩ := inside_of_owner pc hthreads hmutex
  apply funext
  intro p
  cases p with
  | sq | cond _ => rfl
  | stored =>
      change (s'.inside.stored = some j) = _
      rw [hstored]
      rfl
  | moved =>
      change (j ∈ s'.inside.moved) = _
      rw [hmoved]
      rfl

-- The thread in a section is asked nothing new by threads that add themselves to the queue.
omit [DecidableEq ι] in
theorem State.Held.mono {pc : Pc ι κ} (h : s.Held j pc)
    (hsq : s'.sq = s.sq ∨ ∃ i, i ≠ j ∧ s'.sq = i :: s.sq)
    (hhanded : ∀ cpu, s.Handed cpu → s'.Handed cpu) : s'.Held j pc := by
  have hpush {sq : List ι} (hs : ∃ pushed, s.sq = pushed ++ sq ∧ j ∉ pushed) :
      ∃ pushed, s'.sq = pushed ++ sq ∧ j ∉ pushed := by
    obtain ⟨pushed, hpushed, hj⟩ := hs
    rcases hsq with heq | ⟨i, hne, hcons⟩
    · exact ⟨pushed, heq.trans hpushed, hj⟩
    · refine ⟨i :: pushed, ?_, ?_⟩
      · rw [hcons, hpushed, List.cons_append]
      · exact List.not_mem_cons_of_ne_of_not_mem hne.symm hj
  cases pc with
  | lockTimeoutTry owner sq => exact hpush h
  | reownTry after owner sq =>
      obtain ⟨pushed, hpushed⟩ := h
      rcases hsq with heq | ⟨i, _, hcons⟩
      · exact ⟨pushed, heq.trans hpushed⟩
      · exact ⟨i :: pushed, by rw [hcons, hpushed, List.cons_append]⟩
  | reownAwake after cpu =>
      cases cpu with
      | none => trivial
      | some cpu => exact hhanded cpu h
  | signalAwake cpu => exact hhanded cpu h
  | allSchedule sq result =>
      cases result with
      | none => trivial
      | some cpu => exact hhanded cpu h
  | allOwn cpu sq result =>
      cases result with
      | none => trivial
      | some cpu => exact hhanded cpu h
  | _ => trivial

-- A step outside of the `shared_mutex`.
theorem Invariant.outside (h : Invariant s) (hbefore : (s.threads i).holds = false)
    (hpc : pc.holds = false) (hthreads : s'.threads = Function.update s.threads i pc)
    (hmutex : s'.mutex = s.mutex) (hconds : s'.conds = s.conds)
    (hsq : s'.sq = s.sq ∨ s'.sq = i :: s.sq) (hnodup : s'.sq.Nodup)
    (hfree : s'.owner = none → s'.sq = [] ∧ s'.lockCount = 0)
    (howner : ∀ j, j ≠ i → (s'.owner = some j ↔ s.owner = some j))
    (hcount : ∀ j, j ≠ i → s.owner = some j → s'.lockCount = s.lockCount)
    (hothers : ∀ j, j ≠ i → s'.depth j = s.depth j ∧ s'.signal j = s.signal j)
    (hgood : s'.Good i) (hstays : s.mutex ≠ none → s.Handed i → s'.Handed i) : Invariant s' := by
  have hinside := inside_of_outside pc h hbefore hthreads hmutex
  have hplace (j : ι) (hj : j ≠ i) (p : Place κ) : s'.At j p ↔ s.At j p := by
    cases p with
    | sq =>
        change j ∈ s'.sq ↔ j ∈ s.sq
        rcases hsq with heq | hcons
        · rw [heq]
        · rw [hcons, List.mem_cons]
          exact ⟨fun hm => hm.resolve_left hj, Or.inr⟩
    | cond cond =>
        change j ∈ s'.conds cond ↔ _
        rw [hconds]
        rfl
    | stored =>
        change s'.inside.stored = some j ↔ _
        rw [hinside]
        rfl
    | moved =>
        change j ∈ s'.inside.moved ↔ _
        rw [hinside]
        rfl
  refine ⟨?_, hfree, hnodup, ?_, ?_, ?_, ?_⟩
  · rw [hthreads, hmutex]
    exact h.inside.outside hbefore hpc
  · rw [hconds]
    exact h.conds
  · rw [hinside]
    exact h.moved
  · intro j
    by_cases hj : j = i
    · rw [hj]
      exact hgood
    · apply (h.good j).congr _ (howner j hj) (hplace j hj) (hothers j hj).1 (hothers j hj).2
        (hcount j hj)
      rw [hthreads, Function.update_of_ne hj]
  · intro j hm
    rw [hmutex] at hm
    have hj := h.inside.ne_of_not_holds hbefore hm
    rw [hthreads, Function.update_of_ne hj]
    apply (h.held j hm).mono
    · exact hsq.imp_right fun hcons => ⟨i, hj.symm, hcons⟩
    · intro cpu hhanded
      by_cases hcpu : cpu = i
      · subst hcpu
        exact hstays (by rw [hm]; nofun) hhanded
      · refine ⟨(howner cpu hcpu).mpr hhanded.owner, ?_, ?_⟩
        · rw [hthreads, Function.update_of_ne hcpu]
          exact hhanded.waits
        · rw [(hothers cpu hcpu).2]
          exact hhanded.silent

omit [DecidableEq ι] in
theorem State.held_of_not_holds {pc : Pc ι κ} (hpc : pc.holds = false) : s.Held i pc := by
  cases pc <;> trivial

-- A step of the thread that has the `shared_mutex`, takes it or gives it back.
theorem Invariant.owner (h : Invariant s) (hmine : s.mutex = none ∨ s.mutex = some i)
    (hthreads : s'.threads = Function.update s.threads i pc)
    (hmutex : s'.mutex = if pc.holds then some i else none)
    (hfree : s'.owner = none → s'.sq = [] ∧ s'.lockCount = 0) (hnodup : s'.sq.Nodup)
    (hconds : ∀ cond, (s'.conds cond).Nodup) (hmoved : pc.moved.Nodup)
    (hgood : ∀ j, s'.Good j) (hheld : s'.Held i pc) : Invariant s' := by
  refine ⟨?_, hfree, hnodup, hconds, ?_, hgood, ?_⟩
  · rw [hthreads, hmutex]
    exact h.inside.owner hmine
  · rw [(inside_of_owner pc hthreads hmutex).2]
    exact hmoved
  · intro j hm
    rw [hmutex] at hm
    cases hpc : pc.holds with
    | true =>
        rw [hpc] at hm
        cases hm
        rw [hthreads, Function.update_self]
        exact hheld
    | false =>
        rw [hpc] at hm
        cases hm

end Frame

end Rpcsx.Lv2.Mutex
