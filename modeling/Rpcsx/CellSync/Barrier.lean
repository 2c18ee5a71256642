import Mathlib.Data.BitVec
import Mathlib.Data.List.Basic
import Mathlib.Logic.Function.Basic
import Rpcsx.CellSync
import Rpcsx.Data.Interleaving

namespace Rpcsx.CellSync.Barrier

-- `value` is signed.
structure Ctrl where
  value : BitVec 16
  count : BitVec 16
deriving DecidableEq

def tryNotify (ctrl : Ctrl) : Bool × Ctrl :=
  if ctrl.value &&& 0x8000 ≠ 0 then (false, ctrl)
  else
    let value := ctrl.value + 1
    (true, { ctrl with
      value := if value.toInt = ctrl.count.toNat then value ||| 0x8000 else value })

def tryWait (ctrl : Ctrl) : Bool × Ctrl :=
  if ctrl.value &&& 0x8000 = 0 then (false, ctrl)
  else
    let value := ctrl.value - 1
    (true, { ctrl with value := if value.toInt = -0x8000 then 0 else value })

inductive Half where
  | notify
  | wait
deriving DecidableEq

def Half.try_ : Half → Ctrl → Bool × Ctrl
  | notify => tryNotify
  | wait => tryWait

inductive Pc where
  | idle (result : Code)
  -- in the loop of cellSyncBarrierNotify or cellSyncBarrierWait
  | looping (half : Half)
  | stopped
deriving DecidableEq

-- The object, the threads, and a ghost list of the halves that have completed.
structure State (ι : Type) where
  ctrl : Ctrl
  threads : ι → Pc
  log : List Half

inductive Action (ι : Type) where
  | call (i : ι) (half : Half)
  -- one pass of the loop; `stop` is what test_stopped answers
  | attempt (i : ι) (stop : Bool)
  -- cellSyncBarrierTryNotify and cellSyncBarrierTryWait
  | tryCall (i : ι) (half : Half)

namespace State

variable {ι : Type}

def cellSyncBarrierInitialize (totalCount : BitVec 16) : Option (State ι) :=
  if totalCount = 0 ∨ 32767 < totalCount then none
  else some ⟨⟨0, totalCount⟩, fun _ => .idle .ok, []⟩

variable [DecidableEq ι]

def goto (s : State ι) (i : ι) (pc : Pc) : State ι :=
  { s with threads := Function.update s.threads i pc }

-- The atomic operation on the word, with what the thread does when it fails.
def try_ (s : State ι) (i : ι) (half : Half) (failed : State ι) : State ι :=
  let (done, ctrl) := half.try_ s.ctrl
  if done then { s.goto i (.idle .ok) with ctrl := ctrl, log := s.log ++ [half] } else failed

def step (s : State ι) : Action ι → Option (State ι)
  | .call i half =>
      match s.threads i with
      | .idle _ => some (s.goto i (.looping half))
      | _ => none
  | .attempt i stop =>
      match s.threads i with
      | .looping half => some (s.try_ i half (if stop then s.goto i .stopped else s))
      | _ => none
  | .tryCall i half =>
      match s.threads i with
      | .idle _ => some (s.try_ i half (s.goto i (.idle .busy)))
      | _ => none

def Step (s s' : State ι) : Prop := ∃ action, s.step action = some s'

end State

-- What has completed before a half: the wait of a round comes after all notifies of the round, the
-- notify of a round after all waits of the round before it.
def InTurn (n : Nat) (before : List Half) : Half → Prop
  | .wait => (before.count .wait / n + 1) * n ≤ before.count .notify
  | .notify => before.count .notify / n * n ≤ before.count .wait

structure Sound {ι : Type} (n : Nat) (s : State ι) : Prop where
  inTurn : ∀ before half after, s.log = before ++ half :: after → InTurn n before half
  initial : ∀ r, s.log.count .notify = r * n → s.log.count .wait = r * n → s.ctrl.value = 0

section Invariant

variable {ι : Type} {s s' : State ι} {n : Nat}

-- In the first half of a round `value` counts the notifies, in the second half the waits that are
-- still missing.
structure Invariant (n : Nat) (s : State ι) : Prop where
  inTurn : ∀ before half after, s.log = before ++ half :: after → InTurn n before half
  count : s.ctrl.count.toNat = n
  half : ∃ r, (s.ctrl.value.toNat < n ∧ s.log.count .notify = r * n + s.ctrl.value.toNat ∧
      s.log.count .wait = r * n) ∨
    (32768 < s.ctrl.value.toNat ∧ s.ctrl.value.toNat ≤ 32768 + n ∧
      s.log.count .notify = (r + 1) * n ∧
      s.log.count .wait + (s.ctrl.value.toNat - 32768) = (r + 1) * n)

theorem sign_eq_zero_iff (value : BitVec 16) : value &&& 0x8000 = 0 ↔ value.toNat < 32768 := by
  rw [show (0x8000 : BitVec 16) = BitVec.twoPow 16 15 from rfl, BitVec.and_twoPow]
  have hmsb := BitVec.msb_eq_decide value
  rw [BitVec.msb_eq_getLsbD_last] at hmsb
  simp only [Nat.reduceSub, Nat.reducePow] at hmsb
  rw [hmsb]
  by_cases h : 32768 ≤ value.toNat
  · simp [h]
  · simp [h]
    omega

theorem toNat_or_sign {value : BitVec 16} (h : value.toNat < 32768) :
    (value ||| 0x8000).toNat = value.toNat + 32768 := by
  rw [BitVec.toNat_or, Nat.or_comm]
  exact (Nat.two_pow_add_eq_or_of_lt (i := 15) (by omega) 1).symm.trans (Nat.add_comm _ _)

theorem toInt_of_lt {value : BitVec 16} (h : value.toNat < 32768) : value.toInt = value.toNat := by
  rw [BitVec.toInt_eq_toNat_cond]
  omega

theorem toInt_eq_min_iff {value : BitVec 16} : value.toInt = -0x8000 ↔ value.toNat = 32768 := by
  have hlt := value.isLt
  rw [BitVec.toInt_eq_toNat_cond]
  omega

theorem inTurn_append {log : List Half} {half : Half}
    (hlog : ∀ before half after, log = before ++ half :: after → InTurn n before half)
    (hhalf : InTurn n log half) (before : List Half) (half' : Half) (after : List Half)
    (hsplit : log ++ [half] = before ++ half' :: after) : InTurn n before half' := by
  rcases List.eq_nil_or_concat after with hnil | ⟨rest, last, hlast⟩
  · rw [hnil] at hsplit
    obtain ⟨hbefore, heq⟩ := List.append_inj' hsplit rfl
    cases heq
    rw [← hbefore]
    exact hhalf
  · rw [hlast, List.concat_eq_append, ← List.cons_append, ← List.append_assoc] at hsplit
    exact hlog before half' rest (List.append_inj' hsplit rfl).1

theorem Invariant.sound (h : Invariant n s) : Sound n s where
  inTurn := h.inTurn
  initial r hnotify hwait := by
    obtain ⟨r', ⟨hlt, hn, hw⟩ | ⟨hlt, hle, hn, hw⟩⟩ := h.half
    · apply BitVec.eq_of_toNat_eq
      change s.ctrl.value.toNat = 0
      omega
    · omega

theorem Invariant.notify (h : Invariant n s) (hn : n ≤ 32767) {ctrl : Ctrl}
    (htry : tryNotify s.ctrl = (true, ctrl)) (threads : ι → Pc) :
    Invariant n ⟨ctrl, threads, s.log ++ [.notify]⟩ := by
  unfold tryNotify at htry
  split at htry
  · cases htry
  · rename_i hsign
    injection htry with _ hctrl
    rw [not_not, sign_eq_zero_iff] at hsign
    obtain ⟨r, ⟨hlt, hnotify, hwait⟩ | ⟨hlt, -⟩⟩ := h.half
    · have hsucc : (s.ctrl.value + 1).toNat = s.ctrl.value.toNat + 1 := by
        rw [BitVec.toNat_add]
        change (s.ctrl.value.toNat + 1) % 65536 = _
        omega
      have hdiv : s.log.count .notify / n = r := by
        apply Nat.div_eq_of_lt_le
        · omega
        · rw [Nat.succ_mul]
          omega
      rw [← hctrl]
      refine ⟨inTurn_append h.inTurn ?_, h.count, r, ?_⟩
      · unfold InTurn
        dsimp only
        rw [hdiv, hwait]
      · dsimp only
        rw [List.count_append, List.count_append, List.count_singleton_self,
          List.count_singleton, toInt_of_lt (by omega), hsucc, h.count]
        split
        · rename_i hfull
          right
          rw [toNat_or_sign (by omega), hsucc, Nat.succ_mul]
          simp only [beq_iff_eq, reduceCtorEq, if_false]
          omega
        · rename_i hmore
          left
          rw [hsucc]
          simp only [beq_iff_eq, reduceCtorEq, if_false]
          omega
    · omega

theorem Invariant.wait (h : Invariant n s) (hn : n ≤ 32767) {ctrl : Ctrl}
    (htry : tryWait s.ctrl = (true, ctrl)) (threads : ι → Pc) :
    Invariant n ⟨ctrl, threads, s.log ++ [.wait]⟩ := by
  unfold tryWait at htry
  split at htry
  · cases htry
  · rename_i hsign
    injection htry with _ hctrl
    rw [sign_eq_zero_iff] at hsign
    obtain ⟨r, ⟨hlt, -⟩ | ⟨hlt, hle, hnotify, hwait⟩⟩ := h.half
    · omega
    · have hpred : (s.ctrl.value - 1).toNat = s.ctrl.value.toNat - 1 := by
        have hbound := s.ctrl.value.isLt
        rw [BitVec.toNat_sub]
        change (65536 - 1 + s.ctrl.value.toNat) % 65536 = _
        omega
      have hdiv : s.log.count .wait / n = r := by
        apply Nat.div_eq_of_lt_le
        · rw [Nat.succ_mul] at hwait
          omega
        · omega
      rw [← hctrl]
      refine ⟨inTurn_append h.inTurn ?_, h.count, ?_⟩
      · unfold InTurn
        dsimp only
        rw [hdiv, hnotify]
      · dsimp only
        rw [List.count_append, List.count_append, List.count_singleton_self,
          List.count_singleton]
        simp only [beq_iff_eq, reduceCtorEq, if_false, Nat.add_zero]
        split
        · rename_i hmin
          rw [toInt_eq_min_iff, hpred] at hmin
          refine ⟨r + 1, Or.inl ?_⟩
          change 0 < n ∧ _ = (r + 1) * n + 0 ∧ _
          omega
        · rename_i hmore
          rw [toInt_eq_min_iff, hpred] at hmore
          refine ⟨r, Or.inr ?_⟩
          rw [hpred]
          omega

variable [DecidableEq ι]

theorem Invariant.goto (h : Invariant n s) (i : ι) (pc : Pc) : Invariant n (s.goto i pc) :=
  ⟨h.inTurn, h.count, h.half⟩

theorem Invariant.try_ (h : Invariant n s) (hn : n ≤ 32767) {i : ι} {half : Half}
    {failed : State ι} (hfailed : Invariant n failed) : Invariant n (s.try_ i half failed) := by
  unfold State.try_
  cases half with
  | notify =>
      cases htry : tryNotify s.ctrl with
      | mk done ctrl =>
          cases done with
          | true => simpa [Half.try_, htry] using h.notify hn htry _
          | false => simpa [Half.try_, htry] using hfailed
  | wait =>
      cases htry : tryWait s.ctrl with
      | mk done ctrl =>
          cases done with
          | true => simpa [Half.try_, htry] using h.wait hn htry _
          | false => simpa [Half.try_, htry] using hfailed

theorem Invariant.step (h : Invariant n s) (hn : n ≤ 32767) (hstep : s.Step s') :
    Invariant n s' := by
  obtain ⟨action, hstep⟩ := hstep
  cases action with
  | call i half =>
      simp only [State.step] at hstep
      split at hstep
      · cases hstep
        exact h.goto i _
      · cases hstep
  | attempt i stop =>
      simp only [State.step] at hstep
      split at hstep
      · cases hstep
        apply h.try_ hn
        split
        · exact h.goto i _
        · exact h
      · cases hstep
  | tryCall i half =>
      simp only [State.step] at hstep
      split at hstep
      · cases hstep
        exact h.try_ hn (h.goto i _)
      · cases hstep

omit [DecidableEq ι] in
-- What cellSyncBarrierInitialize accepts.
theorem start_eq_of_accepted {totalCount : BitVec 16}
    (h : State.cellSyncBarrierInitialize totalCount = some s) :
    0 < totalCount.toNat ∧ totalCount.toNat ≤ 32767 ∧
      s = ⟨⟨0, totalCount⟩, fun _ => .idle .ok, []⟩ := by
  unfold State.cellSyncBarrierInitialize at h
  split at h
  · cases h
  · rename_i haccepted
    injection h with h
    rw [not_or, BitVec.not_lt, BitVec.le_def] at haccepted
    obtain ⟨hne, hle⟩ := haccepted
    refine ⟨?_, hle, h.symm⟩
    rcases Nat.eq_zero_or_pos totalCount.toNat with hzero | hpos
    · exact absurd (BitVec.eq_of_toNat_eq hzero) hne
    · exact hpos

end Invariant

section Run

variable {ι : Type} [DecidableEq ι] {start s : State ι} {totalCount : BitVec 16}

theorem barrier_sound (hstart : State.cellSyncBarrierInitialize totalCount = some start)
    (h : Relation.ReflTransGen State.Step start s) : Sound totalCount.toNat s := by
  obtain ⟨hpos, hle, hs⟩ := start_eq_of_accepted hstart
  have hinv : Invariant totalCount.toNat start := by
    rw [hs]
    refine ⟨?_, rfl, 0, Or.inl ⟨hpos, ?_, ?_⟩⟩
    · intro before half after hsplit
      cases before <;> cases hsplit
    · rw [Nat.zero_mul]
      rfl
    · rw [Nat.zero_mul]
      rfl
  exact (Data.Interleaving.invariant_of_reachable hinv (fun _ _ hs hstep => hs.step hle hstep) h).sound

end Run

-- cellSyncBarrierTryNotify and cellSyncBarrierTryWait where they can start.
def State.tried {ι : Type} [DecidableEq ι] (s : State ι) (i : ι) (half : Half) : State ι :=
  s.try_ i half (s.goto i (.idle .busy))

-- A barrier of two threads in the middle of a round.
def halfway : State (Fin 2) :=
  (((⟨⟨0, 2⟩, fun _ => .idle .ok, []⟩ : State (Fin 2)).tried 0 .notify).tried 1 .notify).tried 0 .wait

theorem barrier_sound_halfway : Sound 2 halfway := by
  have hstart : State.cellSyncBarrierInitialize (2 : BitVec 16) =
      some (⟨⟨0, 2⟩, fun _ => .idle .ok, []⟩ : State (Fin 2)) := rfl
  exact barrier_sound hstart (.tail (.tail (.single ⟨.tryCall 0 .notify, rfl⟩)
    ⟨.tryCall 1 .notify, rfl⟩) ⟨.tryCall 0 .wait, rfl⟩)

end Rpcsx.CellSync.Barrier
