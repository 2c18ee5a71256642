import Rpcsx.SharedMutex
import Mathlib.Data.Nat.Bitwise

namespace Rpcsx.SharedMutex

theorem cOne_eq : cOne = 16384 := rfl

theorem cSig_eq : cSig = 1073741824 := rfl

theorem cErr_eq : cErr = 2147483648 := rfl

-- Below `c_err` the notification bit is the test against `c_sig`.
theorem and_cSig_ne_zero {value : Nat} (h : value < cErr) : value &&& cSig ≠ 0 ↔ cSig ≤ value := by
  have hs : cSig = 2 ^ 30 := rfl
  have he : cErr = 2 ^ 31 := rfl
  rw [hs, Nat.and_two_pow, Nat.testBit_eq_decide_div_mod_eq]
  rw [he] at h
  by_cases hle : 2 ^ 30 ≤ value
  · simp
    omega
  · simp
    omega

namespace Thread

-- Whether a thread waits for a notification, and whether it has to send one.
def queued (t : Thread) : Nat :=
  match t.pc with
  | .waitLoad _ | .waitCas _ _ | .waitChange _ _ => 1
  | _ => 0

def owing (t : Thread) : Nat :=
  match t.pc with
  | .signal => 1
  | _ => 0

theorem queued_le_one (t : Thread) : t.queued ≤ 1 := by
  unfold queued
  split <;> omega

-- What a thread relies on at its next atomic operation: the locks that it releases or
-- converts there, and the tests that its local copy of the word passed.
def Ready (t : Thread) : Prop :=
  match t.pc with
  | .failed => False
  | .lockSteal val | .lockSpinSteal _ val | .sharedSteal val | .sharedSpinSteal _ val
  | .waitCas _ val => cSig ≤ val
  | .sharedCas value | .trySharedCas value | .sharedSpinCas _ value => value < cOne - 1
  | .unlock | .downgrade => 0 < t.exclusive
  | .unlockShared | .tryUpgrade | .upgrade | .upgradeSpin _ | .upgradeAdd => 0 < t.shared
  | .tryUpgradeCas value | .upgradeCas value | .upgradeSpinCas _ value =>
      0 < t.shared ∧ singleReader value
  | _ => True

end Thread

-- How the lock is owned: all readers, writers, queued writers and threads that owe a
-- notification, and the notifications that were sent.
structure Ledger where
  readers : Nat
  writers : Nat
  queued : Nat
  owing : Nat
  outstanding : Nat

namespace Ledger

def word (l : Ledger) : Nat := l.readers + cOne * (l.writers + l.queued) + cSig * l.outstanding

-- One writer, one notification on its way, or any number of readers own the lock. While no one
-- does, no one waits, and a notification is only sent to someone who waits.
structure Sound (l : Ledger) : Prop where
  one_owner : l.writers + l.outstanding + l.owing ≤ 1
  readers_alone : 0 < l.readers → l.writers + l.outstanding + l.owing = 0
  readers_lt : l.readers < cOne
  queue_owned : 0 < l.queued → 0 < l.readers + l.writers + l.outstanding + l.owing
  signal_waited : 0 < l.outstanding + l.owing → 0 < l.queued
  queued_le : l.queued ≤ cOne

end Ledger

section Balance

-- What the other threads hold.
variable (readers writers queued owing : Nat) {m : Word} {t : Thread}

def ledger (m : Word) (t : Thread) : Ledger :=
  ⟨readers + t.shared, writers + t.exclusive, queued + t.queued, owing + t.owing, m.outstanding⟩

structure Balanced (m : Word) (t : Thread) : Prop where
  ready : t.Ready
  sound : (ledger readers writers queued owing m t).Sound
  value_eq : m.value = (ledger readers writers queued owing m t).word

variable {readers writers queued owing}

-- The balance in plain numbers.
theorem balanced_iff : Balanced readers writers queued owing m t ↔ t.Ready ∧
    (writers + t.exclusive + m.outstanding + (owing + t.owing) ≤ 1 ∧
      (0 < readers + t.shared → writers + t.exclusive + m.outstanding + (owing + t.owing) = 0) ∧
      readers + t.shared < 16384 ∧
      (0 < queued + t.queued → 0 < readers + t.shared + (writers + t.exclusive) + m.outstanding +
        (owing + t.owing)) ∧
      (0 < m.outstanding + (owing + t.owing) → 0 < queued + t.queued) ∧
      queued + t.queued ≤ 16384) ∧
    m.value = readers + t.shared + 16384 * (writers + t.exclusive + (queued + t.queued)) +
      1073741824 * m.outstanding := by
  constructor
  · rintro ⟨hr, ⟨h₁, h₂, h₃, h₄, h₅, h₆⟩, hv⟩
    exact ⟨hr, ⟨h₁, h₂, h₃, h₄, h₅, h₆⟩, hv⟩
  · rintro ⟨hr, ⟨h₁, h₂, h₃, h₄, h₅, h₆⟩, hv⟩
    exact ⟨hr, ⟨h₁, h₂, h₃, h₄, h₅, h₆⟩, hv⟩

theorem Balanced.value_lt (h : Balanced readers writers queued owing m t) : m.value < cErr := by
  have he : cErr = 2147483648 := rfl
  rw [balanced_iff] at h
  omega

-- Steps that leave the word alone and neither start nor end a wait.
theorem Balanced.goto {pc : Pc} (h : Balanced readers writers queued owing m t)
    (hr : (t.goto pc).Ready) (hq : (t.goto pc).queued = t.queued)
    (ho : (t.goto pc).owing = t.owing) : Balanced readers writers queued owing m (t.goto pc) := by
  rw [balanced_iff] at h ⊢
  rw [hq, ho]
  exact ⟨hr, h.2⟩

section Moves

variable {pc : Pc} (h : Balanced readers writers queued owing m t)

include h

-- A free mutex is taken.
theorem Balanced.acquire (hv : m.value = 0) (hq : t.queued = 0) (ho : t.owing = 0)
    (hr : (⟨pc, t.shared, t.exclusive + 1⟩ : Thread).Ready)
    (hq' : (⟨pc, t.shared, t.exclusive + 1⟩ : Thread).queued = 0)
    (ho' : (⟨pc, t.shared, t.exclusive + 1⟩ : Thread).owing = 0) :
    Balanced readers writers queued owing ⟨cOne, m.outstanding⟩ ⟨pc, t.shared, t.exclusive + 1⟩ := by
  have hc : cOne = 16384 := rfl
  rw [balanced_iff] at h ⊢
  rw [hq', ho']
  refine ⟨hr, ?_⟩
  simp only
  omega

-- The notification on its way is taken by a writer that was not queued.
theorem Balanced.stealWriter (hv : cSig ≤ m.value) (hq : t.queued = 0) (ho : t.owing = 0) :
    Balanced readers writers queued owing ⟨add (sub m.value cSig) cOne, m.outstanding - 1⟩
      t.acquire := by
  have hc : cOne = 16384 := rfl
  have hs : cSig = 1073741824 := rfl
  have hq' : t.acquire.queued = 0 := rfl
  have ho' : t.acquire.owing = 0 := rfl
  rw [balanced_iff] at h ⊢
  rw [hq', ho']
  refine ⟨trivial, ?_⟩
  simp only [add, sub, Thread.acquire]
  omega

theorem Balanced.stealReader (hv : cSig ≤ m.value) (hq : t.queued = 0) (ho : t.owing = 0) :
    Balanced readers writers queued owing ⟨add (sub m.value cSig) 1, m.outstanding - 1⟩
      t.share := by
  have hs : cSig = 1073741824 := rfl
  have hq' : t.share.queued = 0 := rfl
  have ho' : t.share.owing = 0 := rfl
  rw [balanced_iff] at h ⊢
  rw [hq', ho']
  refine ⟨trivial, ?_⟩
  simp only [add, sub, Thread.share]
  omega

-- The queued writer that the notification was meant for takes it.
theorem Balanced.take (hv : cSig ≤ m.value) (k : After) (hq : t.queued = 1) (ho : t.owing = 0) :
    Balanced readers writers queued owing ⟨sub m.value cSig, m.outstanding - 1⟩
      ⟨k.resume, t.shared, t.exclusive + 1⟩ := by
  have hs : cSig = 1073741824 := rfl
  have hq' : (⟨k.resume, t.shared, t.exclusive + 1⟩ : Thread).queued = 0 := by cases k <;> rfl
  have ho' : (⟨k.resume, t.shared, t.exclusive + 1⟩ : Thread).owing = 0 := by cases k <;> rfl
  rw [balanced_iff] at h ⊢
  rw [hq', ho']
  refine ⟨by cases k <;> simp [Thread.Ready, After.resume], ?_⟩
  simp only [sub]
  omega

-- Another reader joins while no writer holds the mutex or waits for it.
theorem Balanced.share (hv : m.value < cOne - 1) (hq : t.queued = 0) (ho : t.owing = 0) :
    Balanced readers writers queued owing ⟨add m.value 1, m.outstanding⟩ t.share := by
  have hc : cOne = 16384 := rfl
  have hq' : t.share.queued = 0 := rfl
  have ho' : t.share.owing = 0 := rfl
  rw [balanced_iff] at h ⊢
  rw [hq', ho']
  refine ⟨trivial, ?_⟩
  simp only [add, Thread.share]
  omega

-- A writer takes a free mutex or joins the queue.
theorem Balanced.enqueue (k : After) (checked : Bool) (hq : t.queued = 0) (ho : t.owing = 0)
    (hroom : queued < cOne) :
    Balanced readers writers queued owing (SharedMutex.enqueue m t k checked).1
      (SharedMutex.enqueue m t k checked).2 := by
  by_cases hv : m.value = 0
  · have hadd : add m.value cOne = cOne := by rw [hv]; rfl
    simp only [SharedMutex.enqueue, hv, if_true]
    rw [← hv, hadd]
    exact h.acquire hv hq ho (by cases k <;> simp [Thread.Ready, After.resume])
      (by cases k <;> rfl) (by cases k <;> rfl)
  · have hroom' : m.value % cSig + cOne < cSig := by
      rw [balanced_iff] at h
      simp only [cSig_eq, cOne_eq] at hroom ⊢
      omega
    simp only [SharedMutex.enqueue, hv, if_false, hroom', not_true, and_false]
    rw [balanced_iff] at h ⊢
    have hq' : (t.goto (.waitLoad k)).queued = 1 := rfl
    have ho' : (t.goto (.waitLoad k)).owing = 0 := rfl
    rw [hq', ho']
    refine ⟨trivial, ?_⟩
    simp only [cOne_eq] at hroom
    simp only [add, cOne_eq, Thread.goto]
    omega

theorem Balanced.unlock (hx : 0 < t.exclusive) (hq : t.queued = 0) (ho : t.owing = 0) :
    Balanced readers writers queued owing ⟨sub m.value cOne, m.outstanding⟩ ⟨
      if m.value = cOne then .idle
      else if ¬(sub m.value cOne < cErr) then .failed
      else if sub m.value cOne ≠ 0 then .signal else .idle, t.shared, t.exclusive - 1⟩ := by
  rw [balanced_iff] at h
  have hv : m.value = 16384 * (queued + 1) := by omega
  have hsub : sub m.value cOne = 16384 * queued := by
    simp only [sub, cOne_eq]
    omega
  have herr : ¬¬(16384 * queued < cErr) := by
    rw [cErr_eq]
    omega
  rw [hsub]
  by_cases hnone : queued = 0
  · have hone : m.value = cOne := by
      rw [cOne_eq]
      omega
    rw [if_pos hone, balanced_iff]
    refine ⟨trivial, ?_⟩
    simp only [Thread.queued, Thread.owing]
    omega
  · have hone : m.value ≠ cOne := by
      rw [cOne_eq]
      omega
    rw [if_neg hone, if_neg herr, if_pos (by omega), balanced_iff]
    refine ⟨trivial, ?_⟩
    simp only [Thread.queued, Thread.owing]
    omega

theorem Balanced.unlockShared (hx : 0 < t.shared) (hq : t.queued = 0) (ho : t.owing = 0) :
    Balanced readers writers queued owing ⟨sub m.value 1, m.outstanding⟩ ⟨
      if m.value < cOne then .idle
      else if ¬(sub m.value 1 < cErr) then .failed
      else if sub m.value 1 % cOne = 0 then .signal else .idle, t.shared - 1, t.exclusive⟩ := by
  rw [balanced_iff] at h
  have hv : m.value = readers + t.shared + 16384 * queued := by omega
  have hsub : sub m.value 1 = readers + t.shared - 1 + 16384 * queued := by
    simp only [sub]
    omega
  have herr : ¬¬(readers + t.shared - 1 + 16384 * queued < cErr) := by
    rw [cErr_eq]
    omega
  rw [hsub]
  by_cases hnone : queued = 0
  · have hlt : m.value < cOne := by
      rw [cOne_eq]
      omega
    rw [if_pos hlt, balanced_iff]
    refine ⟨trivial, ?_⟩
    simp only [Thread.queued, Thread.owing]
    omega
  · have hge : ¬m.value < cOne := by
      rw [cOne_eq]
      omega
    rw [if_neg hge, if_neg herr]
    by_cases hlast : readers + t.shared = 1
    · have hmod : (readers + t.shared - 1 + 16384 * queued) % cOne = 0 := by
        rw [cOne_eq]
        omega
      rw [if_pos hmod, balanced_iff]
      refine ⟨trivial, ?_⟩
      simp only [Thread.queued, Thread.owing]
      omega
    · have hmod : (readers + t.shared - 1 + 16384 * queued) % cOne ≠ 0 := by
        rw [cOne_eq]
        omega
      rw [if_neg hmod, balanced_iff]
      refine ⟨trivial, ?_⟩
      simp only [Thread.queued, Thread.owing]
      omega

theorem Balanced.signal (hq : t.queued = 0) (ho : t.owing = 1) :
    Balanced readers writers queued owing ⟨add m.value cSig, m.outstanding + 1⟩
      (t.goto .idle) := by
  have hs : cSig = 1073741824 := rfl
  have hq' : (t.goto .idle).queued = 0 := rfl
  have ho' : (t.goto .idle).owing = 0 := rfl
  rw [balanced_iff] at h ⊢
  rw [hq', ho']
  refine ⟨trivial, ?_⟩
  simp only [add, Thread.goto]
  omega

-- The only reader turns into the writer.
theorem Balanced.upgrade (hx : 0 < t.shared) (hv : singleReader m.value) (hq : t.queued = 0)
    (ho : t.owing = 0) :
    Balanced readers writers queued owing ⟨upgradeWord m.value, m.outstanding⟩ (upgraded t) := by
  have hq' : (upgraded t).queued = 0 := rfl
  have ho' : (upgraded t).owing = 0 := rfl
  rw [balanced_iff] at h ⊢
  rw [hq', ho']
  refine ⟨trivial, ?_⟩
  simp only [singleReader, add, sub, cOne_eq] at hv
  simp only [upgradeWord, add, sub, upgraded, cOne_eq]
  omega

theorem Balanced.upgradeAdd (hx : 0 < t.shared) (hq : t.queued = 0) (ho : t.owing = 0)
    (hroom : queued < cOne) :
    let m' : Word := ⟨add m.value (cOne - 1), m.outstanding⟩
    let r := if ¬(m.value % cSig + cOne - 1 < cSig) then (m', ⟨.failed, t.shared - 1, t.exclusive⟩)
      else if m.value % cOne = 1 then (m', upgraded t)
      else (m', ⟨.waitLoad .return, t.shared - 1, t.exclusive⟩)
    Balanced readers writers queued owing r.1 r.2 := by
  intro m' r
  have hroom' : m.value % cSig + cOne - 1 < cSig := by
    rw [balanced_iff] at h
    simp only [cSig_eq, cOne_eq] at hroom ⊢
    omega
  by_cases hone : m.value % cOne = 1
  · have hr : r = (m', upgraded t) := by simp only [r, hroom', hone, not_true, if_false, if_true]
    have hq' : (upgraded t).queued = 0 := rfl
    have ho' : (upgraded t).owing = 0 := rfl
    rw [hr]
    rw [balanced_iff] at h ⊢
    rw [hq', ho']
    refine ⟨trivial, ?_⟩
    simp only [cOne_eq] at hone
    simp only [m', add, upgraded, cOne_eq]
    omega
  · have hr : r = (m', ⟨.waitLoad .return, t.shared - 1, t.exclusive⟩) := by
      simp only [r, hroom', hone, not_true, if_false]
    rw [hr]
    rw [balanced_iff] at h ⊢
    refine ⟨trivial, ?_⟩
    simp only [cOne_eq] at hone hroom
    simp only [m', add, Thread.queued, Thread.owing, cOne_eq]
    omega

theorem Balanced.downgrade (hx : 0 < t.exclusive) (hq : t.queued = 0) (ho : t.owing = 0) :
    Balanced readers writers queued owing ⟨sub m.value (cOne - 1), m.outstanding⟩
      ⟨.idle, t.shared + 1, t.exclusive - 1⟩ := by
  rw [balanced_iff] at h ⊢
  refine ⟨trivial, ?_⟩
  simp only [sub, Thread.queued, Thread.owing, cOne_eq]
  omega

-- A thread outside the queue goes on to an operation outside it.
theorem Balanced.continue (hq : t.queued = 0) (ho : t.owing = 0) (hr : (t.goto pc).Ready)
    (hq' : (t.goto pc).queued = 0) (ho' : (t.goto pc).owing = 0) :
    Balanced readers writers queued owing m (t.goto pc) :=
  h.goto hr (hq'.trans hq.symm) (ho'.trans ho.symm)

theorem Balanced.impLock (hq : t.queued = 0) (ho : t.owing = 0) {val : Nat} (hval : val < cErr) :
    Balanced readers writers queued owing m (t.goto (SharedMutex.impLock val)) := by
  unfold SharedMutex.impLock
  rw [if_pos hval]
  by_cases hs : val &&& cSig ≠ 0
  · rw [if_pos hs]
    exact h.continue hq ho ((and_cSig_ne_zero hval).mp hs) rfl rfl
  · rw [if_neg hs]
    exact h.continue hq ho trivial rfl rfl

theorem Balanced.impLockShared (hq : t.queued = 0) (ho : t.owing = 0) {val : Nat}
    (hval : val < cErr) :
    Balanced readers writers queued owing m (t.goto (SharedMutex.impLockShared val)) := by
  unfold SharedMutex.impLockShared
  rw [if_pos hval]
  by_cases hs : val &&& cSig ≠ 0
  · rw [if_pos hs]
    exact h.continue hq ho ((and_cSig_ne_zero hval).mp hs) rfl rfl
  · rw [if_neg hs]
    exact h.continue hq ho trivial rfl rfl

theorem Balanced.nextLockSpin (hq : t.queued = 0) (ho : t.owing = 0) (i : Nat) :
    Balanced readers writers queued owing m (t.goto (SharedMutex.nextLockSpin i)) := by
  unfold SharedMutex.nextLockSpin
  split <;> exact h.continue hq ho trivial rfl rfl

theorem Balanced.nextSharedSpin (hq : t.queued = 0) (ho : t.owing = 0) (i : Nat) :
    Balanced readers writers queued owing m (t.goto (SharedMutex.nextSharedSpin i)) := by
  unfold SharedMutex.nextSharedSpin
  split <;> exact h.continue hq ho trivial rfl rfl

theorem Balanced.nextUpgradeSpin (hx : 0 < t.shared) (hq : t.queued = 0) (ho : t.owing = 0)
    (i : Nat) : Balanced readers writers queued owing m (t.goto (SharedMutex.nextUpgradeSpin i)) := by
  unfold SharedMutex.nextUpgradeSpin
  split <;> exact h.continue hq ho hx rfl rfl

theorem Balanced.testSignal (hq : t.queued = 1) (ho : t.owing = 0) (k : After) (old : Nat) :
    Balanced readers writers queued owing m (t.goto (SharedMutex.testSignal k old)) := by
  unfold SharedMutex.testSignal
  by_cases hs : cSig ≤ old
  · rw [if_pos hs]
    exact h.goto hs hq.symm ho.symm
  · rw [if_neg hs]
    exact h.goto trivial hq.symm ho.symm

end Moves

theorem balanced_exchange {old new outstanding : Nat} {success failure : Thread}
    (hs : m.value = old → Balanced readers writers queued owing ⟨new, outstanding⟩ success)
    (hf : Balanced readers writers queued owing m failure) :
    Balanced readers writers queued owing (exchange m old new outstanding success failure).1
      (exchange m old new outstanding success failure).2 := by
  unfold exchange
  by_cases hv : m.value = old
  · rw [if_pos hv]
    exact hs hv
  · rw [if_neg hv]
    exact hf

end Balance

end Rpcsx.SharedMutex
