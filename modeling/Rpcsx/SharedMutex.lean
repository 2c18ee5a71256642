import Mathlib

namespace Rpcsx.SharedMutex

def cOne : Nat := 1 <<< 14

def cSig : Nat := 1 <<< 30

def cErr : Nat := 1 <<< 31

-- Arithmetic of `u32`.
def add (a b : Nat) : Nat := (a + b) % 2 ^ 32

def sub (a b : Nat) : Nat := (a + 2 ^ 32 - b % 2 ^ 32) % 2 ^ 32

-- What a thread does after `imp_wait`.
inductive After where
  | return
  | downgrade
  | unlock
  deriving DecidableEq, Repr

-- Where a thread stands: in front of the atomic operation it performs next, with the local
-- variables that are still in use.
inductive Pc where
  | idle
  -- lock, try_lock, imp_lock
  | lock
  | tryLock
  | lockSteal (val : Nat)
  | lockSpin (i : Nat)
  | lockSpinTry (i : Nat)
  | lockSpinSteal (i old : Nat)
  | lockAdd
  -- lock_shared, try_lock_shared, imp_lock_shared
  | shared
  | sharedCas (value : Nat)
  | tryShared
  | trySharedCas (value : Nat)
  | sharedSteal (val : Nat)
  | sharedSpin (i : Nat)
  | sharedSpinCas (i value : Nat)
  | sharedSpinLoad (i : Nat)
  | sharedSpinSteal (i old : Nat)
  | sharedAdd
  -- imp_wait: the load and the exchange of `fetch_op`, and the wait for a change
  | waitLoad (k : After)
  | waitCas (k : After) (old : Nat)
  | waitChange (k : After) (old : Nat)
  -- unlock, unlock_shared, imp_signal
  | unlock
  | unlockShared
  | signal
  -- lock_upgrade, try_lock_upgrade, imp_lock_upgrade, lock_downgrade
  | tryUpgrade
  | tryUpgradeCas (value : Nat)
  | upgrade
  | upgradeCas (value : Nat)
  | upgradeSpin (i : Nat)
  | upgradeSpinCas (i value : Nat)
  | upgradeAdd
  | downgrade
  -- lock_unlock, imp_lock_unlock
  | lockUnlock
  | lockUnlockSpin (i max : Nat)
  | lockUnlockAdd
  -- an ensure() failed
  | failed
  deriving DecidableEq, Repr

-- A thread with the locks it holds.
structure Thread where
  pc : Pc
  shared : Nat
  exclusive : Nat
  deriving DecidableEq, Repr

-- `m_value`, with a ghost count of the `c_sig` notifications that were sent and not taken.
structure Word where
  value : Nat
  outstanding : Nat
  deriving DecidableEq, Repr

namespace Thread

def goto (t : Thread) (pc : Pc) : Thread := { t with pc := pc }

def acquire (t : Thread) : Thread := ⟨.idle, t.shared, t.exclusive + 1⟩

def share (t : Thread) : Thread := ⟨.idle, t.shared + 1, t.exclusive⟩

end Thread

-- The calls of a thread.
inductive Call where
  | lock
  | tryLock
  | unlock
  | lockShared
  | tryLockShared
  | unlockShared
  | lockUpgrade
  | tryLockUpgrade
  | lockDowngrade
  | lockUnlock
  deriving DecidableEq, Repr

-- A thread releases or converts only what it holds.
def Call.start (t : Thread) : Call → Option Thread
  | lock => some (t.goto .lock)
  | tryLock => some (t.goto .tryLock)
  | unlock => if 0 < t.exclusive then some (t.goto .unlock) else none
  | lockShared => some (t.goto .shared)
  | tryLockShared => some (t.goto .tryShared)
  | unlockShared => if 0 < t.shared then some (t.goto .unlockShared) else none
  | lockUpgrade => if 0 < t.shared then some (t.goto .upgrade) else none
  | tryLockUpgrade => if 0 < t.shared then some (t.goto .tryUpgrade) else none
  | lockDowngrade => if 0 < t.exclusive then some (t.goto .downgrade) else none
  | lockUnlock => some (t.goto .lockUnlock)

section Code

variable (m : Word) (t : Thread)

-- The code after a failed fast path: `ensure(val < c_err)` and the test of the notification bit.
def impLock (val : Nat) : Pc :=
  if val < cErr then if val &&& cSig ≠ 0 then .lockSteal val else .lockSpin 0 else .failed

def impLockShared (val : Nat) : Pc :=
  if val < cErr then if val &&& cSig ≠ 0 then .sharedSteal val else .sharedSpin 0 else .failed

-- The end of an iteration of the loops of `imp_lock`, `imp_lock_shared`, `imp_lock_upgrade`.
def nextLockSpin (i : Nat) : Pc := if i + 1 < 10 then .lockSpin (i + 1) else .lockAdd

def nextSharedSpin (i : Nat) : Pc := if i + 1 < 10 then .sharedSpin (i + 1) else .sharedAdd

def nextUpgradeSpin (i : Nat) : Pc := if i + 1 < 10 then .upgradeSpin (i + 1) else .upgradeAdd

-- `imp_wait` after its load, and after an exchange that failed.
def testSignal (k : After) (old : Nat) : Pc :=
  if cSig ≤ old then .waitCas k old else .waitChange k old

-- A thread that holds the exclusive lock goes on to what it acquired the lock for.
def After.resume : After → Pc
  | .return => .idle
  | .downgrade => .downgrade
  | .unlock => .unlock

-- Compare and swap: on success the word and the thread change, otherwise only the thread.
def exchange (old new : Nat) (outstanding : Nat) (success failure : Thread) : Word × Thread :=
  if m.value = old then (⟨new, outstanding⟩, success) else (m, failure)

-- `fetch_add(c_one)` of a writer.
def enqueue (k : After) (checked : Bool) : Word × Thread :=
  let m' : Word := ⟨add m.value cOne, m.outstanding⟩
  if m.value = 0 then (m', ⟨k.resume, t.shared, t.exclusive + 1⟩)
  else if checked ∧ ¬(m.value % cSig + cOne < cSig) then (m', t.goto .failed)
  else (m', t.goto (.waitLoad k))

-- `(value + c_one - 1) % c_one == 0` of `try_lock_upgrade`.
def singleReader (value : Nat) : Prop := sub (add value cOne) 1 % cOne = 0

instance (value : Nat) : Decidable (singleReader value) :=
  inferInstanceAs (Decidable (_ = 0))

def upgradeWord (value : Nat) : Nat := sub (add value cOne) 1

def upgraded : Thread := ⟨.idle, t.shared - 1, t.exclusive + 1⟩

-- One atomic operation of a thread and the code up to its next one.
def step : Option (Word × Thread) :=
  match t.pc with
  | .idle => none
  | .failed => none
  | .lock => some <|
      if m.value = 0 then (⟨cOne, m.outstanding⟩, t.acquire) else (m, t.goto (impLock m.value))
  | .tryLock => some (exchange m 0 cOne m.outstanding t.acquire (t.goto .idle))
  | .lockSteal val => some (exchange m val (add (sub val cSig) cOne) (m.outstanding - 1) t.acquire
      (t.goto (.lockSpin 0)))
  | .lockSpin i => some (m, t.goto <|
      if m.value = 0 then .lockSpinTry i
      else if m.value &&& cSig ≠ 0 then .lockSpinSteal i m.value
      else nextLockSpin i)
  | .lockSpinTry i => some (exchange m 0 cOne m.outstanding t.acquire (t.goto (nextLockSpin i)))
  | .lockSpinSteal i old => some (exchange m old (add (sub old cSig) cOne) (m.outstanding - 1)
      t.acquire (t.goto (nextLockSpin i)))
  | .lockAdd => some (enqueue m t .return true)
  | .shared => some (m, t.goto <|
      if cOne - 1 ≤ m.value then impLockShared m.value else .sharedCas m.value)
  | .sharedCas value => some (exchange m value (add value 1) m.outstanding t.share
      (t.goto (impLockShared value)))
  | .tryShared => some (m, t.goto <|
      if m.value < cOne - 1 then .trySharedCas m.value else .idle)
  | .trySharedCas value => some (exchange m value (add value 1) m.outstanding t.share
      (t.goto .idle))
  | .sharedSteal val => some (exchange m val (add (sub val cSig) 1) (m.outstanding - 1) t.share
      (t.goto (.sharedSpin 0)))
  | .sharedSpin i => some (m, t.goto <|
      if m.value < cOne - 1 then .sharedSpinCas i m.value else .sharedSpinLoad i)
  | .sharedSpinCas i value => some (exchange m value (add value 1) m.outstanding t.share
      (t.goto (.sharedSpinLoad i)))
  | .sharedSpinLoad i => some (m, t.goto <|
      if m.value &&& cSig ≠ 0 then .sharedSpinSteal i m.value else nextSharedSpin i)
  | .sharedSpinSteal i old => some (exchange m old (add (sub old cSig) 1) (m.outstanding - 1) t.share
      (t.goto (nextSharedSpin i)))
  | .sharedAdd => some (enqueue m t .downgrade true)
  | .waitLoad k => some (m, t.goto (testSignal k m.value))
  | .waitCas k old => some (exchange m old (sub old cSig) (m.outstanding - 1)
      ⟨k.resume, t.shared, t.exclusive + 1⟩ (t.goto (testSignal k m.value)))
  | .waitChange k _ => some (m, t.goto (.waitLoad k))
  | .unlock => some (⟨sub m.value cOne, m.outstanding⟩, ⟨
      if m.value = cOne then .idle
      else if ¬(sub m.value cOne < cErr) then .failed
      else if sub m.value cOne ≠ 0 then .signal else .idle, t.shared, t.exclusive - 1⟩)
  | .unlockShared => some (⟨sub m.value 1, m.outstanding⟩, ⟨
      if m.value < cOne then .idle
      else if ¬(sub m.value 1 < cErr) then .failed
      else if sub m.value 1 % cOne = 0 then .signal else .idle, t.shared - 1, t.exclusive⟩)
  | .signal => some (⟨add m.value cSig, m.outstanding + 1⟩, t.goto .idle)
  | .tryUpgrade => some (m, t.goto <|
      if singleReader m.value then .tryUpgradeCas m.value else .idle)
  | .tryUpgradeCas value => some (exchange m value (upgradeWord value) m.outstanding (upgraded t)
      (t.goto .idle))
  | .upgrade => some (m, t.goto <|
      if singleReader m.value then .upgradeCas m.value else .upgradeSpin 0)
  | .upgradeCas value => some (exchange m value (upgradeWord value) m.outstanding (upgraded t)
      (t.goto (.upgradeSpin 0)))
  | .upgradeSpin i => some (m, t.goto <|
      if singleReader m.value then .upgradeSpinCas i m.value else nextUpgradeSpin i)
  | .upgradeSpinCas i value => some (exchange m value (upgradeWord value) m.outstanding (upgraded t)
      (t.goto (nextUpgradeSpin i)))
  | .upgradeAdd =>
      let m' : Word := ⟨add m.value (cOne - 1), m.outstanding⟩
      some <|
        if ¬(m.value % cSig + cOne - 1 < cSig) then (m', ⟨.failed, t.shared - 1, t.exclusive⟩)
        else if m.value % cOne = 1 then (m', upgraded t)
        else (m', ⟨.waitLoad .return, t.shared - 1, t.exclusive⟩)
  | .downgrade => some (⟨sub m.value (cOne - 1), m.outstanding⟩,
      ⟨.idle, t.shared + 1, t.exclusive - 1⟩)
  | .lockUnlock => some (m, t.goto <| if m.value ≠ 0 then .lockUnlockSpin 0 1 else .idle)
  | .lockUnlockSpin i max => some (m, t.goto <|
      if m.value % cOne = 0 ∧ (m.value / cOne < max ∨ cSig ≤ m.value) then .idle
      else if i + 1 < 30 then .lockUnlockSpin (i + 1) (m.value / cOne)
      else .lockUnlockAdd)
  | .lockUnlockAdd => some (enqueue m t .unlock false)

end Code

-- The mutex and all the threads that use it.
structure State (ι : Type) where
  word : Word
  threads : ι → Thread

variable {ι : Type} [DecidableEq ι]

def State.initial : State ι := ⟨⟨0, 0⟩, fun _ => ⟨.idle, 0, 0⟩⟩

-- Any thread may go on next; an idle one chooses its next call.
inductive Step : State ι → State ι → Prop where
  | call (s : State ι) (i : ι) (call : Call) (t : Thread) (hidle : (s.threads i).pc = .idle)
      (hcall : call.start (s.threads i) = some t) :
      Step s { s with threads := Function.update s.threads i t }
  | run (s : State ι) (i : ι) (m : Word) (t : Thread)
      (hstep : step s.word (s.threads i) = some (m, t)) :
      Step s ⟨m, Function.update s.threads i t⟩

def Reachable (s : State ι) : Prop := Relation.ReflTransGen Step State.initial s

end Rpcsx.SharedMutex
