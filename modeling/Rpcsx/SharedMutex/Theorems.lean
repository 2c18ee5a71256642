import Rpcsx.SharedMutex.Balance
import Rpcsx.Data.Interleaving

namespace Rpcsx.SharedMutex

open Rpcsx.Data.Interleaving

section Step

variable {readers writers queued owing : Nat} {m : Word} {t : Thread}

-- Every atomic operation keeps the balance of the thread that performs it with the others.
theorem step_balanced (h : Balanced readers writers queued owing m t) (hroom : queued < cOne)
    {r : Word × Thread} (hstep : step m t = some r) :
    Balanced readers writers queued owing r.1 r.2 := by
  have hlt := h.value_lt
  have hr := h.ready
  have hbit := and_cSig_ne_zero hlt
  have hone : cOne < cErr := by decide
  have hq := Thread.queued.eq_1 t
  have ho := Thread.owing.eq_1 t
  unfold step at hstep
  unfold Thread.Ready at hr
  cases hpc : t.pc <;> simp only [hpc, Option.some.injEq, reduceCtorEq] at hstep hr hq ho
  case lock =>
    subst hstep
    by_cases hv : m.value = 0
    · rw [if_pos hv]
      exact h.acquire hv hq ho trivial rfl rfl
    · rw [if_neg hv]
      exact h.impLock hq ho hlt
  case tryLock =>
    subst hstep
    exact balanced_exchange (fun hv => h.acquire hv hq ho trivial rfl rfl)
      (h.continue hq ho trivial rfl rfl)
  case lockSteal val =>
    subst hstep
    refine balanced_exchange ?_ (h.continue hq ho trivial rfl rfl)
    rintro rfl
    exact h.stealWriter hr hq ho
  case lockSpin i =>
    subst hstep
    by_cases hv : m.value = 0
    · simp only [if_pos hv]
      exact h.continue hq ho trivial rfl rfl
    · by_cases hs : m.value &&& cSig ≠ 0
      · simp only [if_neg hv, if_pos hs]
        exact h.continue hq ho (hbit.mp hs) rfl rfl
      · simp only [if_neg hv, if_neg hs]
        exact h.nextLockSpin hq ho i
  case lockSpinTry i =>
    subst hstep
    exact balanced_exchange (fun hv => h.acquire hv hq ho trivial rfl rfl) (h.nextLockSpin hq ho i)
  case lockSpinSteal i old =>
    subst hstep
    refine balanced_exchange ?_ (h.nextLockSpin hq ho i)
    rintro rfl
    exact h.stealWriter hr hq ho
  case lockAdd =>
    subst hstep
    exact h.enqueue .return true hq ho hroom
  case shared =>
    subst hstep
    by_cases hv : cOne - 1 ≤ m.value
    · simp only [if_pos hv]
      exact h.impLockShared hq ho hlt
    · simp only [if_neg hv]
      exact h.continue hq ho (Nat.not_le.mp hv) rfl rfl
  case sharedCas value =>
    subst hstep
    refine balanced_exchange ?_ (h.impLockShared hq ho (by omega))
    rintro rfl
    exact h.share hr hq ho
  case tryShared =>
    subst hstep
    by_cases hv : m.value < cOne - 1
    · simp only [if_pos hv]
      exact h.continue hq ho hv rfl rfl
    · simp only [if_neg hv]
      exact h.continue hq ho trivial rfl rfl
  case trySharedCas value =>
    subst hstep
    refine balanced_exchange ?_ (h.continue hq ho trivial rfl rfl)
    rintro rfl
    exact h.share hr hq ho
  case sharedSteal val =>
    subst hstep
    refine balanced_exchange ?_ (h.continue hq ho trivial rfl rfl)
    rintro rfl
    exact h.stealReader hr hq ho
  case sharedSpin i =>
    subst hstep
    by_cases hv : m.value < cOne - 1
    · simp only [if_pos hv]
      exact h.continue hq ho hv rfl rfl
    · simp only [if_neg hv]
      exact h.continue hq ho trivial rfl rfl
  case sharedSpinCas i value =>
    subst hstep
    refine balanced_exchange ?_ (h.continue hq ho trivial rfl rfl)
    rintro rfl
    exact h.share hr hq ho
  case sharedSpinLoad i =>
    subst hstep
    by_cases hs : m.value &&& cSig ≠ 0
    · simp only [if_pos hs]
      exact h.continue hq ho (hbit.mp hs) rfl rfl
    · simp only [if_neg hs]
      exact h.nextSharedSpin hq ho i
  case sharedSpinSteal i old =>
    subst hstep
    refine balanced_exchange ?_ (h.nextSharedSpin hq ho i)
    rintro rfl
    exact h.stealReader hr hq ho
  case sharedAdd =>
    subst hstep
    exact h.enqueue .downgrade true hq ho hroom
  case waitLoad k =>
    subst hstep
    exact h.testSignal hq ho k m.value
  case waitCas k old =>
    subst hstep
    refine balanced_exchange ?_ (h.testSignal hq ho k m.value)
    rintro rfl
    exact h.take hr k hq ho
  case waitChange k old =>
    subst hstep
    exact h.goto trivial hq.symm ho.symm
  case unlock =>
    subst hstep
    exact h.unlock hr hq ho
  case unlockShared =>
    subst hstep
    exact h.unlockShared hr hq ho
  case signal =>
    subst hstep
    exact h.signal hq ho
  case tryUpgrade =>
    subst hstep
    by_cases hv : singleReader m.value
    · simp only [if_pos hv]
      exact h.continue hq ho ⟨hr, hv⟩ rfl rfl
    · simp only [if_neg hv]
      exact h.continue hq ho trivial rfl rfl
  case tryUpgradeCas value =>
    subst hstep
    refine balanced_exchange ?_ (h.continue hq ho trivial rfl rfl)
    rintro rfl
    exact h.upgrade hr.1 hr.2 hq ho
  case upgrade =>
    subst hstep
    by_cases hv : singleReader m.value
    · simp only [if_pos hv]
      exact h.continue hq ho ⟨hr, hv⟩ rfl rfl
    · simp only [if_neg hv]
      exact h.continue hq ho hr rfl rfl
  case upgradeCas value =>
    subst hstep
    refine balanced_exchange ?_ (h.continue hq ho hr.1 rfl rfl)
    rintro rfl
    exact h.upgrade hr.1 hr.2 hq ho
  case upgradeSpin i =>
    subst hstep
    by_cases hv : singleReader m.value
    · simp only [if_pos hv]
      exact h.continue hq ho ⟨hr, hv⟩ rfl rfl
    · simp only [if_neg hv]
      exact h.nextUpgradeSpin hr hq ho i
  case upgradeSpinCas i value =>
    subst hstep
    refine balanced_exchange ?_ (h.nextUpgradeSpin hr.1 hq ho i)
    rintro rfl
    exact h.upgrade hr.1 hr.2 hq ho
  case upgradeAdd =>
    subst hstep
    exact h.upgradeAdd hr hq ho hroom
  case downgrade =>
    subst hstep
    exact h.downgrade hr hq ho
  case lockUnlock =>
    subst hstep
    by_cases hv : m.value ≠ 0
    · simp only [if_pos hv]
      exact h.continue hq ho trivial rfl rfl
    · simp only [if_neg hv]
      exact h.continue hq ho trivial rfl rfl
  case lockUnlockSpin i max =>
    subst hstep
    by_cases hv : m.value % cOne = 0 ∧ (m.value / cOne < max ∨ cSig ≤ m.value)
    · simp only [if_pos hv]
      exact h.continue hq ho trivial rfl rfl
    · simp only [if_neg hv]
      split <;> exact h.continue hq ho trivial rfl rfl
  case lockUnlockAdd =>
    subst hstep
    exact h.enqueue .unlock false hq ho hroom

-- A call starts with the locks it needs and touches nothing yet.
theorem start_balanced (h : Balanced readers writers queued owing m t) (hidle : t.pc = .idle)
    {call : Call} {t' : Thread} (hcall : call.start t = some t') :
    Balanced readers writers queued owing m t' := by
  have hq : t.queued = 0 := by simp [Thread.queued, hidle]
  have ho : t.owing = 0 := by simp [Thread.owing, hidle]
  cases call <;> simp only [Call.start, Option.some.injEq] at hcall
  case lock | tryLock | lockShared | tryLockShared | lockUnlock =>
    subst hcall
    exact h.continue hq ho trivial rfl rfl
  case unlock | unlockShared | lockUpgrade | tryLockUpgrade | lockDowngrade =>
    split at hcall
    · obtain rfl : t.goto _ = t' := Option.some.inj hcall
      exact h.continue hq ho ‹_› rfl rfl
    · cases hcall

end Step

section Run

variable {ι : Type} [Fintype ι]

namespace State

def readers (s : State ι) : Nat := total Thread.shared s.threads

def writers (s : State ι) : Nat := total Thread.exclusive s.threads

def queued (s : State ι) : Nat := total Thread.queued s.threads

def owing (s : State ι) : Nat := total Thread.owing s.threads

def ledger (s : State ι) : Ledger := ⟨s.readers, s.writers, s.queued, s.owing, s.word.outstanding⟩

-- The invariant of the mutex over all its threads.
structure Invariant (s : State ι) : Prop where
  ready : ∀ i, (s.threads i).Ready
  sound : s.ledger.Sound
  value_eq : s.word.value = s.ledger.word

end State

theorem initial_invariant : (State.initial : State ι).Invariant := by
  have hl : (State.initial : State ι).ledger = ⟨0, 0, 0, 0, 0⟩ := by
    simp [State.ledger, State.readers, State.writers, State.queued, State.owing, total,
      State.initial, Thread.queued, Thread.owing]
  refine ⟨fun _ => trivial, ?_, ?_⟩
  · rw [hl]
    exact ⟨by simp, by simp, by decide, by simp, by simp, by decide⟩
  · rw [hl]
    rfl

variable [DecidableEq ι]

theorem State.Invariant.balanced {s : State ι} (h : s.Invariant) (i : ι) :
    Balanced (others Thread.shared s.threads i) (others Thread.exclusive s.threads i)
      (others Thread.queued s.threads i) (others Thread.owing s.threads i) s.word
      (s.threads i) := by
  have hl : s.ledger = SharedMutex.ledger (others Thread.shared s.threads i)
      (others Thread.exclusive s.threads i) (others Thread.queued s.threads i)
      (others Thread.owing s.threads i) s.word (s.threads i) := by
    simp only [State.ledger, State.readers, State.writers, State.queued, State.owing,
      SharedMutex.ledger, total_eq _ s.threads i]
  exact ⟨h.ready i, hl ▸ h.sound, hl ▸ h.value_eq⟩

-- Conversely, one thread that keeps its balance with the others keeps the invariant.
theorem Balanced.invariant {s : State ι} (h : s.Invariant) (i : ι) {m : Word} {t : Thread}
    (hb : Balanced (others Thread.shared s.threads i) (others Thread.exclusive s.threads i)
      (others Thread.queued s.threads i) (others Thread.owing s.threads i) m t) :
    (⟨m, Function.update s.threads i t⟩ : State ι).Invariant := by
  have hl : (⟨m, Function.update s.threads i t⟩ : State ι).ledger =
      SharedMutex.ledger (others Thread.shared s.threads i)
        (others Thread.exclusive s.threads i) (others Thread.queued s.threads i)
        (others Thread.owing s.threads i) m t := by
    simp only [State.ledger, State.readers, State.writers, State.queued, State.owing,
      SharedMutex.ledger, total_update]
  refine ⟨?_, hl ▸ hb.sound, hl ▸ hb.value_eq⟩
  intro j
  by_cases hj : j = i
  · subst hj
    simpa using hb.ready
  · simpa [Function.update_of_ne hj] using h.ready j

theorem step_invariant (hcard : Fintype.card ι < 2 ^ 14) (s s' : State ι) (h : s.Invariant)
    (hstep : Step s s') : s'.Invariant := by
  cases hstep with
  | call i call t hidle hcall => exact (start_balanced (h.balanced i) hidle hcall).invariant h i
  | run i m t hrun =>
      have hroom : others Thread.queued s.threads i < cOne := by
        have hlt := others_lt_card Thread.queued s.threads i Thread.queued_le_one
        have hone : cOne = 2 ^ 14 := rfl
        omega
      exact (step_balanced (h.balanced i) hroom hrun).invariant h i

theorem reachable_invariant (hcard : Fintype.card ι < 2 ^ 14) {s : State ι} (h : Reachable s) :
    s.Invariant :=
  invariant_of_reachable initial_invariant (step_invariant hcard) h

-- Mutual exclusion, and the meaning of the word, in every reachable state. No ensure() of the
-- mutex fails.
theorem mutual_exclusion (hcard : Fintype.card ι < 2 ^ 14) (s : State ι) (h : Reachable s) :
    s.writers ≤ 1 ∧
      (∀ i j, 0 < (s.threads i).exclusive → 0 < (s.threads j).exclusive → i = j) ∧
      (∀ i j, 0 < (s.threads i).exclusive → (s.threads j).shared = 0) ∧
      s.word.outstanding ≤ 1 ∧
      s.word.value = s.readers + cOne * (s.writers + s.queued) + cSig * s.word.outstanding ∧
      ∀ i, (s.threads i).pc ≠ .failed := by
  obtain ⟨hready, hsound, hvalue⟩ := reachable_invariant hcard h
  have hone : s.writers + s.word.outstanding + s.owing ≤ 1 := hsound.one_owner
  have halone : 0 < s.readers → s.writers + s.word.outstanding + s.owing = 0 :=
    hsound.readers_alone
  refine ⟨by omega, ?_, ?_, by omega, hvalue, ?_⟩
  · intro i j hi hj
    by_contra hne
    have hle := add_le_total Thread.exclusive s.threads i hne
    simp only [State.writers] at hone
    omega
  · intro i j hi
    have hx := le_total Thread.exclusive s.threads i
    have hsh := le_total Thread.shared s.threads j
    simp only [State.writers, State.readers] at hone halone
    omega
  · intro i hf
    have hr := hready i
    simp [Thread.Ready, hf] at hr

end Run

-- One of two threads holds the lock after its fast path.
theorem mutual_exclusion_first_locker : ∃ s : State (Fin 2), Reachable s ∧
    0 < (s.threads 0).exclusive ∧ s.writers ≤ 1 ∧ (s.threads 1).shared = 0 ∧
    s.word.value = s.readers + cOne * (s.writers + s.queued) + cSig * s.word.outstanding := by
  have hcall := Step.call (State.initial : State (Fin 2)) 0 .lock ⟨.lock, 0, 0⟩ rfl rfl
  have hrun := Step.run (⟨⟨0, 0⟩, Function.update State.initial.threads 0 ⟨.lock, 0, 0⟩⟩ :
    State (Fin 2)) 0 ⟨cOne, 0⟩ ⟨.idle, 0, 1⟩ (by decide)
  have hr := (Relation.ReflTransGen.refl.tail hcall).tail hrun
  obtain ⟨hw, -, hs, -, hv, -⟩ := mutual_exclusion (by decide) _ hr
  exact ⟨_, hr, by decide, hw, hs 0 1 (by decide), hv⟩

end Rpcsx.SharedMutex
