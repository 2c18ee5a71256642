import Rpcsx.Data.Interleaving
import Rpcsx.Orbis.RwLock

namespace Rpcsx.Orbis.RwLock

open Rpcsx.Data.Interleaving

variable {ι : Type} [DecidableEq ι] {s s' : State ι} {i : ι} {t : Thread}

-- What a call has done to the owner bit and to the number of readers.
def effects (changes : List (BitVec 32 × BitVec 32)) : List (BitVec 32 × BitVec 32) :=
  changes.filter fun change => !quiet change

-- A call that has returned: a lock has been taken by one change, an error has changed nothing.
def Returned (changes : List (BitVec 32 × BitVec 32)) : Call × ErrorCode → Prop
  | (.rdlock _, code) =>
      if code = .ok then ∃ w, effects changes = [(w, w + 1)] ∧ owned w = false
      else effects changes = []
  | (.wrlock, code) =>
      if code = .ok then ∃ w, effects changes = [(w, w ||| kUrwLockWriteOwner)] ∧ unlocked w = true
      else effects changes = []
  | (.unlock, _) => True

-- What is expected of the lock in every state.
structure Exclusion (s : State ι) : Prop where
  returned : ∀ i result, (s.threads i).pc = .idle (some result) →
    Returned (s.threads i).changes result
  one_writer : s.writers.length ≤ 1
  no_reader : s.writers ≠ [] → s.readers = []

-- The loop of umtx_rw_wrlock that takes the lock finds the state word as it has read it, as long
-- as it has not taken the lock.
def Calm (s : State ι) : Action ι → Prop
  | .advance i _ _ => ∀ blockedReaders error state,
      (s.threads i).pc = .wrlock (.acquire blockedReaders error state false) → unlocked state = true →
      s.state = state
  | _ => True

def CalmStep (s s' : State ι) : Prop := ∃ action, Calm s action ∧ step s action = some s'

-- The word and the holders of the lock.
structure Balanced (state : BitVec 32) (writers readers : List ι) : Prop where
  owner : writers.length = if owned state then 1 else 0
  count : (state &&& kUrwLockMaxReaders).toNat = readers.length
  apart : owned state = true → readers = []

-- In a call that has changed nothing so far, and knows nothing of the word.
def Pc.plain : Pc → Bool
  | .idle _ | .unlock (.owner _) | .unlock (.reader _) | .unlock (.notify _)
  | .wrlock (.acquire _ _ _ true) => false
  | _ => true

def ThreadOk (state : BitVec 32) (writers : List ι) (i : ι) (t : Thread) : Prop :=
  match t.pc with
  | .idle none | .unlock (.notify _) => True
  | .idle (some result) => Returned t.changes result
  | .unlock (.owner seen) => owned seen = true
  | .unlock (.reader seen) => owned seen = false ∧ seen &&& kUrwLockMaxReaders ≠ 0
  | .wrlock (.acquire _ _ seen true) => owned state = true ∧ i ∈ writers ∧ unlocked seen = true ∧
      effects t.changes = [(seen, seen ||| kUrwLockWriteOwner)]
  | _ => effects t.changes = []

structure Invariant (s : State ι) : Prop where
  inside : Exclusive (fun t : Thread => t.pc.holds) s.threads s.mutex
  balanced : Balanced s.state s.writers s.readers
  threads : ∀ i, ThreadOk s.state s.writers i (s.threads i)

section Balanced

variable {state state' : BitVec 32} {writers readers : List ι} {holder : ι}

omit [DecidableEq ι]

theorem owned_congr {w w' : BitVec 32} (h : quiet (w, w') = true) : owned w' = owned w := by
  unfold owned
  rw [(quiet_iff.mp h).1]

theorem Balanced.quiet (h : Balanced state writers readers) (hq : quiet (state, state') = true) :
    Balanced state' writers readers where
  owner := by
    rw [owned_congr hq]
    exact h.owner
  count := by
    rw [(quiet_iff.mp hq).2]
    exact h.count
  apart := by
    rw [owned_congr hq]
    exact h.apart

theorem Balanced.addReader (h : Balanced state writers readers) (howned : owned state = false)
    (hmax : state &&& kUrwLockMaxReaders ≠ kUrwLockMaxReaders) :
    Balanced (state + 1) writers (holder :: readers) := by
  obtain ⟨howned', hcount⟩ := add_reader howned hmax
  refine ⟨?_, ?_, ?_⟩
  · rw [h.owner, howned, howned']
  · rw [hcount, h.count]
    rfl
  · rw [howned']
    nofun

theorem Balanced.addWriter (h : Balanced state writers readers) (hfree : unlocked state = true) :
    Balanced (state ||| kUrwLockWriteOwner) (holder :: writers) readers := by
  obtain ⟨howned, hcount⟩ := unlocked_iff.mp hfree
  refine ⟨?_, ?_, ?_⟩
  · rw [owned_or_owner, List.length_cons, h.owner, howned]
    rfl
  · rw [readers_or_owner]
    exact h.count
  · intro _
    have hreaders := h.count
    rw [hcount] at hreaders
    exact List.length_eq_zero_iff.mp hreaders.symm

theorem Balanced.removeWriter [DecidableEq ι] (h : Balanced state writers readers)
    (howned : owned state = true) (hmem : holder ∈ writers) :
    Balanced (state &&& ~~~kUrwLockWriteOwner) (writers.erase holder) readers := by
  refine ⟨?_, ?_, ?_⟩
  · rw [owned_remove_owner, List.length_erase_of_mem hmem, h.owner, howned]
    rfl
  · rw [readers_remove_owner]
    exact h.count
  · rw [owned_remove_owner]
    nofun

theorem Balanced.removeReader [DecidableEq ι] (h : Balanced state writers readers)
    (howned : owned state = false) (hsome : state &&& kUrwLockMaxReaders ≠ 0)
    (hmem : holder ∈ readers) : Balanced (state - 1) writers (readers.erase holder) := by
  obtain ⟨howned', hcount⟩ := remove_reader howned hsome
  refine ⟨?_, ?_, ?_⟩
  · rw [h.owner, howned, howned']
  · have hreaders := h.count
    rw [List.length_erase_of_mem hmem]
    omega
  · rw [howned']
    nofun

end Balanced

section Frame

variable {changes : List (BitVec 32 × BitVec 32)} {pc : Pc}

theorem effects_quiet {change : BitVec 32 × BitVec 32} (h : quiet change = true) :
    effects (changes ++ [change]) = effects changes := by
  unfold effects
  rw [List.filter_append, List.filter_cons_of_neg (by rw [h]; decide), List.filter_nil,
    List.append_nil]

theorem effects_loud {change : BitVec 32 × BitVec 32} (h : quiet change = false) :
    effects (changes ++ [change]) = effects changes ++ [change] := by
  unfold effects
  rw [List.filter_append, List.filter_cons_of_pos (by rw [h]; rfl), List.filter_nil]

omit [DecidableEq ι] in
theorem ThreadOk.of_plain {state : BitVec 32} {writers : List ι} (hpc : pc.plain = true) :
    ThreadOk state writers i ⟨pc, changes⟩ ↔ effects changes = [] := by
  unfold ThreadOk
  cases pc with
  | idle result => cases hpc
  | rdlock fflag pc => exact Iff.rfl
  | wrlock pc =>
      cases pc with
      | acquire blockedReaders error state mine =>
          cases mine with
          | true => cases hpc
          | false => exact Iff.rfl
      | _ => exact Iff.rfl
  | unlock pc =>
      cases pc with
      | enter => exact Iff.rfl
      | load => exact Iff.rfl
      | _ => cases hpc

omit [DecidableEq ι] in
-- A thread outside of the chain lock does not depend on the word.
theorem ThreadOk.outside {state state' : BitVec 32} {writers writers' : List ι}
    (h : ThreadOk state writers i t) (ht : t.pc.holds = false) : ThreadOk state' writers' i t := by
  obtain ⟨pc, changes⟩ := t
  unfold ThreadOk at h ⊢
  cases pc with
  | idle result => cases result <;> exact h
  | rdlock fflag pc => exact h
  | wrlock pc =>
      cases pc with
      | acquire blockedReaders error state mine => cases ht
      | _ => exact h
  | unlock pc => cases pc <;> exact h

-- A step of the thread that has the chain lock, takes it or gives it back.
theorem Invariant.owner (h : Invariant s) (hmine : s.mutex = none ∨ s.mutex = some i) (t : Thread)
    (hthreads : s'.threads = Function.update s.threads i t)
    (hmutex : s'.mutex = if t.pc.holds then some i else none)
    (hok : ThreadOk s'.state s'.writers i t) (hbalanced : Balanced s'.state s'.writers s'.readers) :
    Invariant s' where
  inside := by
    rw [hthreads, hmutex]
    exact h.inside.owner hmine
  balanced := hbalanced
  threads j := by
    rw [hthreads]
    by_cases hj : j = i
    · rw [hj, Function.update_self]
      exact hok
    · rw [Function.update_of_ne hj]
      exact (h.threads j).outside (h.inside.not_holds_of_ne hmine hj)

-- A step that does not touch the owner bit and the number of readers.
theorem Invariant.plain (h : Invariant s) (hmine : s.mutex = none ∨ s.mutex = some i)
    (hplain : (s.threads i).pc.plain = true)
    (hthreads : s'.threads = Function.update s.threads i ⟨pc, changes⟩)
    (heffects : effects changes = effects (s.threads i).changes) (hpc : pc.plain = true)
    (hmutex : s'.mutex = if pc.holds then some i else none)
    (hstate : quiet (s.state, s'.state) = true) (hwriters : s'.writers = s.writers)
    (hreaders : s'.readers = s.readers) : Invariant s' := by
  apply h.owner hmine ⟨pc, changes⟩ hthreads hmutex
  · have hbefore := (ThreadOk.of_plain hplain).mp (h.threads i)
    exact (ThreadOk.of_plain hpc).mpr (heffects.trans hbefore)
  · rw [hwriters, hreaders]
    exact h.balanced.quiet hstate

end Frame

section Steps

variable {spurious : Bool} {holder : ι} {fflag : BitVec 64} {state : BitVec 32} {pc : Pc}

theorem change_goto (s : State ι) (i : ι) (state : BitVec 32) (pc : Pc) :
    ((s.change i state).goto i pc).threads =
      Function.update s.threads i ⟨pc, (s.threads i).changes ++ [(s.state, state)]⟩ := by
  simp only [State.change, State.goto, Function.update_self, Function.update_idem]

theorem Invariant.plain_goto (h : Invariant s) (hmine : s.mutex = none ∨ s.mutex = some i)
    (hplain : (s.threads i).pc.plain = true) (hpc : pc.plain = true)
    (hthreads : s'.threads = (s.goto i pc).threads)
    (hmutex : s'.mutex = if pc.holds then some i else none) (hstate : s'.state = s.state)
    (hwriters : s'.writers = s.writers) (hreaders : s'.readers = s.readers) : Invariant s' := by
  apply h.plain hmine hplain hthreads rfl hpc hmutex _ hwriters hreaders
  rw [hstate]
  exact quiet_refl _

theorem Invariant.leave (h : Invariant s) (hmine : s.mutex = none ∨ s.mutex = some i) (c : Call)
    (code : ErrorCode) (hresult : Returned (s.threads i).changes (c, code)) :
    Invariant (s.leave i c code) :=
  h.owner hmine ⟨.idle (some (c, code)), (s.threads i).changes⟩ rfl rfl hresult h.balanced

theorem quiet_addReader (howned : owned state = false)
    (hmax : state &&& kUrwLockMaxReaders ≠ kUrwLockMaxReaders) :
    quiet (state, state + 1) = false := by
  rw [← Bool.not_eq_true, quiet_iff]
  rintro ⟨_, hsame⟩
  have hcount := (add_reader howned hmax).2
  rw [hsame] at hcount
  omega

theorem quiet_addWriter (hfree : unlocked state = true) :
    quiet (state, state ||| kUrwLockWriteOwner) = false := by
  rw [← Bool.not_eq_true]
  intro hquiet
  have howned := owned_congr hquiet
  rw [owned_or_owner, (unlocked_iff.mp hfree).1] at howned
  cases howned

omit [DecidableEq ι] in
theorem wrflags_owned (s : State ι) (h : state &&& s.wrflags fflag = 0) : owned state = false := by
  have howner : kUrwLockWriteOwner = s.wrflags fflag &&& kUrwLockWriteOwner := by
    unfold State.wrflags
    split <;> rfl
  unfold owned
  rw [howner, ← BitVec.and_assoc, h]
  rfl

omit [DecidableEq ι] in
theorem Invariant.mutex_of_holds (h : Invariant s) (hpc : (s.threads i).pc = pc)
    (hholds : pc.holds = true) : s.mutex = some i := by
  apply (h.inside i).mp
  dsimp only
  rw [hpc]
  exact hholds

theorem Invariant.umtxRwRdlock (h : Invariant s) {pc : RdPc}
    (hpc : (s.threads i).pc = .rdlock fflag pc)
    (hstep : s.umtxRwRdlock i fflag spurious pc = some s') : Invariant s' := by
  have hplain : (s.threads i).pc.plain = true := by
    rw [hpc]
    rfl
  have heffects : effects (s.threads i).changes = [] := (ThreadOk.of_plain hplain).mp (h.threads i)
  have hmutex := h.mutex_of_holds hpc
  cases pc with
  | enter =>
      simp only [State.umtxRwRdlock, State.lock] at hstep
      split at hstep
      · rename_i hfree
        cases hstep
        exact h.plain_goto (Or.inl hfree) hplain rfl rfl rfl rfl rfl rfl
      · cases hstep
  | load =>
      cases hstep
      exact h.plain_goto (Or.inr (hmutex rfl)) hplain rfl rfl (hmutex rfl) rfl rfl rfl
  | acquire state =>
      have hmine := hmutex rfl
      simp only [State.umtxRwRdlock] at hstep
      split at hstep
      · rename_i hfree
        have howned := wrflags_owned s hfree
        split at hstep
        · cases hstep
          exact h.leave (Or.inr hmine) (.rdlock fflag) .AGAIN heffects
        · rename_i hmax
          split at hstep
          · rename_i hsame
            cases hstep
            subst hsame
            refine h.owner (Or.inr hmine) _ (change_goto ..) rfl ?_
              (h.balanced.addReader howned hmax)
            refine ⟨s.state, ?_, howned⟩
            rw [effects_loud (quiet_addReader howned hmax), heffects]
            rfl
          · cases hstep
            exact h.plain_goto (Or.inr hmine) hplain rfl rfl hmine rfl rfl rfl
      · cases hstep
        exact h.plain_goto (Or.inr hmine) hplain rfl rfl hmine rfl rfl rfl
  | mark state =>
      have hmine := hmutex rfl
      simp only [State.umtxRwRdlock, State.rdMarked] at hstep
      split at hstep
      · rename_i hmark
        split at hstep
        · rename_i hsame
          obtain ⟨rfl, _⟩ := hsame
          split at hstep
          · cases hstep
            exact h.plain (Or.inr hmine) hplain (change_goto ..)
              (effects_quiet (quiet_readWaiters _)) rfl hmine (quiet_readWaiters _) rfl rfl
          · cases hstep
            exact h.plain (Or.inr hmine) hplain (change_goto ..)
              (effects_quiet (quiet_readWaiters _)) rfl hmine (quiet_readWaiters _) rfl rfl
        · cases hstep
          exact h.plain_goto (Or.inr hmine) hplain rfl rfl hmine rfl rfl rfl
      · split at hstep
        · cases hstep
          exact h.plain_goto (Or.inr hmine) hplain rfl rfl hmine rfl rfl rfl
        · cases hstep
          exact h.plain_goto (Or.inr hmine) hplain rfl rfl hmine rfl rfl rfl
  | sleep state =>
      have hmine := hmutex rfl
      simp only [State.umtxRwRdlock, State.rdLeave] at hstep
      split at hstep
      · cases hstep
        exact h.plain_goto (Or.inr hmine) hplain rfl rfl rfl rfl rfl rfl
      · cases hstep
        refine h.plain_goto (Or.inr hmine) hplain ?_ rfl ?_ rfl rfl rfl
        · split <;> rfl
        · split <;> exact hmine
  | asleep state => cases hstep
  | reload =>
      cases hstep
      exact h.plain_goto (Or.inr (hmutex rfl)) hplain rfl rfl (hmutex rfl) rfl rfl rfl
  | clear state =>
      have hmine := hmutex rfl
      simp only [State.umtxRwRdlock] at hstep
      split at hstep
      · rename_i hsame
        obtain ⟨rfl, _⟩ := hsame
        cases hstep
        have hthreads : (s.change i (s.state &&& ~~~kUrwLockReadWaiters)).threads =
            Function.update s.threads i ⟨.rdlock fflag (.clear s.state), (s.threads i).changes ++
              [(s.state, s.state &&& ~~~kUrwLockReadWaiters)]⟩ := by
          rw [← hpc]
          rfl
        exact h.plain (Or.inr hmine) hplain hthreads
          (effects_quiet (quiet_clearReadWaiters _)) rfl hmine (quiet_clearReadWaiters _) rfl rfl
      · cases hstep
        exact h.plain_goto (Or.inr hmine) hplain rfl rfl hmine rfl rfl rfl

theorem Invariant.wrMarked (h : Invariant s) (hmine : s.mutex = some i)
    (hplain : (s.threads i).pc.plain = true) {blockedReaders : Nat} :
    Invariant (s.wrMarked i blockedReaders state) := by
  unfold State.wrMarked
  split
  · exact h.plain_goto (Or.inr hmine) hplain rfl rfl hmine rfl rfl rfl
  · exact h.plain_goto (Or.inr hmine) hplain rfl rfl hmine rfl rfl rfl

theorem Invariant.wrLeave (h : Invariant s) (hmine : s.mutex = some i)
    (hplain : (s.threads i).pc.plain = true) (error : ErrorCode) :
    Invariant (s.wrLeave i error) := by
  refine h.plain_goto (Or.inr hmine) hplain ?_ rfl ?_ rfl rfl rfl
  · split <;> rfl
  · unfold State.wrLeave
    dsimp only
    split <;> exact hmine

theorem Invariant.umtxRwWrlock (h : Invariant s) {pc : WrPc} (hpc : (s.threads i).pc = .wrlock pc)
    (hcalm : Calm s (.advance i spurious holder))
    (hstep : s.umtxRwWrlock i spurious pc = some s') : Invariant s' := by
  have hmutex := h.mutex_of_holds hpc
  have hother (hplain : (Pc.wrlock pc).plain = true) : (s.threads i).pc.plain = true := by
    rw [hpc]
    exact hplain
  cases pc with
  | acquire blockedReaders error state mine =>
      have hmine := hmutex rfl
      have hok := h.threads i
      unfold ThreadOk at hok
      rw [hpc] at hok
      simp only [State.umtxRwWrlock] at hstep
      cases mine with
      | true =>
          -- the word has the owner bit, so the second compare-exchange fails
          obtain ⟨howned, hmem, hfree, heffects⟩ := hok
          rw [if_pos hfree] at hstep
          have hne : s.state ≠ state := by
            intro heq
            rw [heq, (unlocked_iff.mp hfree).1] at howned
            cases howned
          rw [if_neg hne] at hstep
          cases hstep
          exact h.leave (Or.inr hmine) .wrlock .ok ⟨state, heffects, hfree⟩
      | false =>
          have heffects : effects (s.threads i).changes = [] := hok
          have hplain := hother rfl
          split at hstep
          · rename_i hfree
            have hsame := hcalm blockedReaders error state hpc hfree
            subst hsame
            rw [if_pos rfl] at hstep
            cases hstep
            refine h.owner (Or.inr hmine) _ (change_goto ..) hmine ?_ (h.balanced.addWriter hfree)
            refine ⟨owned_or_owner _, List.mem_cons_self, hfree, ?_⟩
            dsimp only
            rw [effects_loud (quiet_addWriter hfree), heffects]
            rfl
          · split at hstep
            · rename_i herror
              have hresult : Returned (s.threads i).changes (.wrlock, error) := by
                unfold Returned
                dsimp only
                rw [if_neg herror]
                exact heffects
              split at hstep
              · cases hstep
                exact h.owner (Or.inr hmine) ⟨.idle (some (.wrlock, error)), _⟩ rfl rfl hresult
                  h.balanced
              · cases hstep
                exact h.leave (Or.inr hmine) .wrlock error hresult
            · cases hstep
              exact h.plain_goto (Or.inr hmine) hplain rfl rfl hmine rfl rfl rfl
  | enter =>
      have hplain := hother rfl
      simp only [State.umtxRwWrlock, State.lock] at hstep
      split at hstep
      · rename_i hfree
        cases hstep
        exact h.plain_goto (Or.inl hfree) hplain rfl rfl rfl rfl rfl rfl
      · cases hstep
  | load blockedReaders error =>
      cases hstep
      exact h.plain_goto (Or.inr (hmutex rfl)) (hother rfl) rfl rfl (hmutex rfl) rfl rfl rfl
  | reload blockedReaders =>
      cases hstep
      exact h.plain_goto (Or.inr (hmutex rfl)) (hother rfl) rfl rfl (hmutex rfl) rfl rfl rfl
  | mark blockedReaders state =>
      have hmine := hmutex rfl
      have hplain := hother rfl
      simp only [State.umtxRwWrlock] at hstep
      split at hstep
      · split at hstep
        · rename_i hsame
          subst hsame
          cases hstep
          have hthreads : (s.change i (s.state ||| kUrwLockWriteWaiters)).threads =
              Function.update s.threads i ⟨.wrlock (.mark blockedReaders s.state),
                (s.threads i).changes ++ [(s.state, s.state ||| kUrwLockWriteWaiters)]⟩ := by
            rw [← hpc]
            rfl
          exact h.plain (Or.inr hmine) hplain hthreads (effects_quiet (quiet_writeWaiters _)) rfl
            hmine (quiet_writeWaiters _) rfl rfl
        · cases hstep
          exact h.wrMarked hmine hplain
      · cases hstep
        exact h.wrMarked hmine hplain
  | sleep state =>
      have hmine := hmutex rfl
      simp only [State.umtxRwWrlock] at hstep
      split at hstep
      · cases hstep
        exact h.wrLeave hmine (hother rfl) .ok
      · cases hstep
        exact h.plain_goto (Or.inr hmine) (hother rfl) rfl rfl rfl rfl rfl rfl
  | asleep => cases hstep
  | woken =>
      cases hstep
      exact h.plain_goto (Or.inr (hmutex rfl)) (hother rfl) rfl rfl (hmutex rfl) rfl rfl rfl
  | clearLoad error =>
      cases hstep
      exact h.plain_goto (Or.inr (hmutex rfl)) (hother rfl) rfl rfl (hmutex rfl) rfl rfl rfl
  | clear error state =>
      have hmine := hmutex rfl
      simp only [State.umtxRwWrlock] at hstep
      split at hstep
      · rename_i hsame
        obtain ⟨rfl, _⟩ := hsame
        cases hstep
        exact h.plain (Or.inr hmine) (hother rfl) (change_goto ..)
          (effects_quiet (quiet_clearWriteWaiters _)) rfl hmine (quiet_clearWriteWaiters _) rfl rfl
      · cases hstep
        exact h.plain_goto (Or.inr hmine) (hother rfl) rfl rfl hmine rfl rfl rfl

theorem Invariant.unOwner (h : Invariant s) (hmine : s.mutex = some i) (howned : owned s.state = true) :
    Invariant (s.goto i (.unlock (.owner s.state))) :=
  h.owner (Or.inr hmine) ⟨.unlock (.owner s.state), _⟩ rfl hmine howned h.balanced

-- A word that counts readers does not have the owner bit.
theorem Invariant.unReader (h : Invariant s) (hmine : s.mutex = some i)
    (hsome : s.state &&& kUrwLockMaxReaders ≠ 0) :
    Invariant (s.goto i (.unlock (.reader s.state))) := by
  have howned : owned s.state = false := by
    rw [← Bool.not_eq_true]
    intro howned
    have hcount := h.balanced.count
    rw [h.balanced.apart howned] at hcount
    exact hsome (BitVec.eq_of_toNat_eq hcount)
  exact h.owner (Or.inr hmine) ⟨.unlock (.reader s.state), _⟩ rfl hmine ⟨howned, hsome⟩ h.balanced

theorem Invariant.umtxRwUnlock (h : Invariant s) {pc : UnPc} (hpc : (s.threads i).pc = .unlock pc)
    (hstep : s.umtxRwUnlock i spurious holder pc = some s') : Invariant s' := by
  have hmutex := h.mutex_of_holds hpc
  have hother (hplain : (Pc.unlock pc).plain = true) : (s.threads i).pc.plain = true := by
    rw [hpc]
    exact hplain
  cases pc with
  | enter =>
      simp only [State.umtxRwUnlock, State.lock] at hstep
      split at hstep
      · rename_i hfree
        cases hstep
        exact h.plain_goto (Or.inl hfree) (hother rfl) rfl rfl rfl rfl rfl rfl
      · cases hstep
  | load =>
      simp only [State.umtxRwUnlock] at hstep
      split at hstep
      · rename_i howned
        cases hstep
        exact h.unOwner (hmutex rfl) howned
      · rename_i howned
        split at hstep
        · rename_i hsome
          cases hstep
          exact h.unReader (hmutex rfl) hsome
        · cases hstep
          exact h.leave (Or.inr (hmutex rfl)) .unlock .PERM trivial
  | owner state =>
      have hmine := hmutex rfl
      have howned : owned state = true := by
        have hok := h.threads i
        unfold ThreadOk at hok
        rw [hpc] at hok
        exact hok
      simp only [State.umtxRwUnlock] at hstep
      split at hstep
      · rename_i hsame
        obtain ⟨rfl, _⟩ := hsame
        split at hstep
        · rename_i hmem
          cases hstep
          exact h.owner (Or.inr hmine) _ (change_goto ..) hmine trivial
            (h.balanced.removeWriter howned hmem)
        · cases hstep
      · split at hstep
        · rename_i howned'
          cases hstep
          exact h.unOwner hmine howned'
        · cases hstep
          exact h.leave (Or.inr hmine) .unlock .PERM trivial
  | reader state =>
      have hmine := hmutex rfl
      obtain ⟨howned, hsome⟩ : owned state = false ∧ state &&& kUrwLockMaxReaders ≠ 0 := by
        have hok := h.threads i
        unfold ThreadOk at hok
        rw [hpc] at hok
        exact hok
      simp only [State.umtxRwUnlock] at hstep
      split at hstep
      · rename_i hsame
        obtain ⟨rfl, _⟩ := hsame
        split at hstep
        · rename_i hmem
          cases hstep
          exact h.owner (Or.inr hmine) _ (change_goto ..) hmine trivial
            (h.balanced.removeReader howned hsome hmem)
        · cases hstep
      · split at hstep
        · rename_i hsome'
          cases hstep
          exact h.unReader hmine hsome'
        · cases hstep
          exact h.leave (Or.inr hmine) .unlock .PERM trivial
  | notify state =>
      have hmine := hmutex rfl
      cases hstep
      have hsame : ∀ count, (s.notifyN count).threads = s.threads ∧
          (s.notifyN count).state = s.state ∧ (s.notifyN count).writers = s.writers ∧
          (s.notifyN count).readers = s.readers := by
        intro count
        unfold State.notifyN
        split <;> exact ⟨rfl, rfl, rfl, rfl⟩
      unfold State.unlockNotify
      split
      all_goals
        obtain ⟨hthreads, hstate, hwriters, hreaders⟩ := hsame _
        refine h.owner (Or.inr hmine) ⟨.idle (some (.unlock, .ok)), (s.threads i).changes⟩ ?_ rfl
          trivial ?_
        · unfold State.leave State.goto
          dsimp only
          rw [hthreads]
        · unfold State.leave State.goto
          dsimp only
          rw [hstate, hwriters, hreaders]
          exact h.balanced

theorem Invariant.wake (h : Invariant s) {code : ErrorCode} (hstep : s.wake i code = some s') :
    Invariant s' := by
  unfold State.wake at hstep
  split at hstep
  · rename_i hfree
    split at hstep
    · rename_i fflag state hpc
      have hplain : (s.threads i).pc.plain = true := by
        rw [hpc]
        rfl
      split at hstep
      · cases hstep
        exact h.plain_goto (Or.inl hfree) hplain rfl rfl rfl rfl rfl rfl
      · split at hstep
        · cases hstep
          exact h
        · cases hstep
          unfold State.rdLeave
          refine h.plain_goto (Or.inl hfree) hplain ?_ rfl ?_ rfl rfl rfl
          · dsimp only
            split <;> rfl
          · dsimp only
            split <;> rfl
    · rename_i hpc
      have hplain : (s.threads i).pc.plain = true := by
        rw [hpc]
        rfl
      split at hstep
      · cases hstep
        exact h.plain_goto (Or.inl hfree) hplain rfl rfl rfl rfl rfl rfl
      · split at hstep
        · cases hstep
          exact h
        · cases hstep
          unfold State.wrLeave
          refine h.plain_goto (Or.inl hfree) hplain ?_ rfl ?_ rfl rfl rfl
          · dsimp only
            split <;> rfl
          · dsimp only
            split <;> rfl
    · cases hstep
  · cases hstep

end Steps

section User

omit [DecidableEq ι] in
-- In user mode the word is changed while another thread may have the chain lock.
theorem Invariant.user (h : Invariant s) {state : BitVec 32} {writers readers : List ι}
    (hbalanced : Balanced state writers readers)
    (hmine : ∀ j, owned s.state = true → j ∈ s.writers → (s.threads j).pc.holds = true →
      owned state = true ∧ j ∈ writers) :
    Invariant { s with state := state, writers := writers, readers := readers } where
  inside := h.inside
  balanced := hbalanced
  threads j := by
    have hok := h.threads j
    generalize ht : s.threads j = t at hok
    obtain ⟨pc, changes⟩ := t
    unfold ThreadOk at hok ⊢
    cases pc with
    | wrlock pc =>
        cases pc with
        | acquire blockedReaders error seen mine =>
            cases mine with
            | false => exact hok
            | true =>
                obtain ⟨howned, hmem, hrest⟩ := hok
                have hholds : (s.threads j).pc.holds = true := by
                  rw [ht]
                  rfl
                obtain ⟨howned', hmem'⟩ := hmine j howned hmem hholds
                exact ⟨howned', hmem', hrest⟩
        | _ => exact hok
    | idle result => cases result <;> exact hok
    | rdlock fflag pc => exact hok
    | unlock pc => cases pc <;> exact hok

theorem Invariant.userUnlock (h : Invariant s) {result : Option (Call × ErrorCode)}
    (hpc : (s.threads i).pc = .idle result) (howned : owned s.state = true) (hmem : i ∈ s.writers) :
    Invariant { s with
      state := s.state &&& ~~~kUrwLockWriteOwner
      writers := s.writers.erase i } := by
  apply h.user (h.balanced.removeWriter howned hmem)
  intro j _ hj hholds
  -- the only writer is outside
  have hlength := h.balanced.owner
  rw [howned, if_pos rfl] at hlength
  obtain ⟨k, hk⟩ := List.length_eq_one_iff.mp hlength
  rw [hk, List.mem_singleton] at hmem hj
  rw [hj, ← hmem, hpc] at hholds
  cases hholds

theorem Invariant.step (h : Invariant s) {action : Action ι} (hcalm : Calm s action)
    (hstep : step s action = some s') : Invariant s' := by
  cases action with
  | call i c =>
      simp only [RwLock.step] at hstep
      split at hstep
      · rename_i result hpc
        cases hstep
        have hbefore : (s.threads i).pc.holds = false := by
          rw [hpc]
          rfl
        have hafter : (⟨c.start, []⟩ : Thread).pc.holds = false := by
          cases c <;> rfl
        refine ⟨h.inside.outside hbefore hafter, h.balanced, ?_⟩
        intro j
        dsimp only
        by_cases hj : j = i
        · rw [hj, Function.update_self]
          cases c <;> exact rfl
        · rw [Function.update_of_ne hj]
          exact h.threads j
      · cases hstep
  | advance i spurious holder =>
      simp only [RwLock.step, State.advance] at hstep
      split at hstep
      · cases hstep
      · rename_i hpc
        exact h.umtxRwRdlock hpc hstep
      · rename_i hpc
        exact h.umtxRwWrlock hpc hcalm hstep
      · rename_i hpc
        exact h.umtxRwUnlock hpc hstep
  | wake i code => exact h.wake hstep
  | userRdlock i =>
      simp only [RwLock.step] at hstep
      split at hstep
      · split at hstep
        · rename_i hfree
          cases hstep
          apply h.user (h.balanced.addReader hfree.1 hfree.2)
          intro j howned
          rw [hfree.1] at howned
          cases howned
        · cases hstep
      · cases hstep
  | userWrlock i =>
      simp only [RwLock.step] at hstep
      split at hstep
      · split at hstep
        · rename_i hfree
          cases hstep
          apply h.user (h.balanced.addWriter hfree)
          intro j howned
          rw [(unlocked_iff.mp hfree).1] at howned
          cases howned
        · cases hstep
      · cases hstep
  | userUnlock i =>
      simp only [RwLock.step] at hstep
      split at hstep
      · rename_i result hpc
        split at hstep
        · rename_i howned
          split at hstep
          · rename_i hmem
            cases hstep
            exact h.userUnlock hpc howned hmem
          · cases hstep
        · rename_i howned
          rw [Bool.not_eq_true] at howned
          split at hstep
          · rename_i hread
            cases hstep
            apply h.user (h.balanced.removeReader howned hread.2 hread.1)
            intro j howned'
            rw [howned] at howned'
            cases howned'
          · cases hstep
      · cases hstep

end User

section Runs

omit [DecidableEq ι] in
theorem Invariant.start (flags : BitVec 32) : Invariant (State.start flags : State ι) where
  inside i := ⟨nofun, nofun⟩
  balanced := by
    refine ⟨?_, ?_, fun _ => rfl⟩
    · change 0 = if owned 0 = true then 1 else 0
      decide
    · change ((0 : BitVec 32) &&& kUrwLockMaxReaders).toNat = 0
      decide
  threads _ := trivial

omit [DecidableEq ι] in
theorem Invariant.exclusion (h : Invariant s) : Exclusion s where
  returned i result hpc := by
    have hok := h.threads i
    unfold ThreadOk at hok
    rw [hpc] at hok
    exact hok
  one_writer := by
    rw [h.balanced.owner]
    split <;> decide
  no_reader hne := by
    apply h.balanced.apart
    by_contra howned
    have hlength := h.balanced.owner
    rw [if_neg howned] at hlength
    exact hne (List.length_eq_zero_iff.mp hlength)

-- In a run whose steps are calm the lock excludes.
theorem rwlock_excludes {flags : BitVec 32}
    (h : Relation.ReflTransGen CalmStep (State.start flags) s) : Exclusion s := by
  have hinv : Invariant s := by
    apply invariant_of_reachable (Invariant.start flags) _ h
    rintro s s' hinv ⟨action, hcalm, hstep⟩
    exact hinv.step hcalm hstep
  exact hinv.exclusion

end Runs

-- A thread takes the lock in the kernel.
theorem rwlock_excludes_writer : ∃ s : State Bool,
    Relation.ReflTransGen CalmStep (State.start 0) s ∧ s.writers = [true] ∧ Exclusion s := by
  obtain ⟨s, hrun, hwriters⟩ : ∃ s : State Bool,
      Relation.ReflTransGen CalmStep (State.start 0) s ∧ s.writers = [true] := by
    refine ⟨_, .head ⟨.call true .wrlock, trivial, rfl⟩ (.head ⟨.advance true false true, ?_, rfl⟩
      (.head ⟨.advance true false true, ?_, rfl⟩ (.head ⟨.advance true false true, ?_, rfl⟩
        (.single ⟨.advance true false true, ?_, rfl⟩)))), rfl⟩
    · intro _ _ _ hpc
      cases hpc
    · intro _ _ _ hpc
      cases hpc
    · intro _ _ _ hpc _
      cases hpc
      rfl
    · intro _ _ _ hpc
      cases hpc
  exact ⟨s, hrun, hwriters, rwlock_excludes hrun⟩

-- A reader comes in user mode between the load and the compare-exchange.
def readerBetween : List (Action Bool) :=
  [.call true .wrlock, .advance true false true, .advance true false true, .userRdlock false,
    .advance true false true]

theorem writer_with_reader : ¬∀ s : State Bool,
    Relation.ReflTransGen Step (State.start 0) s → Exclusion s := by
  intro hclaim
  obtain ⟨s, hrun, hwriters, hreaders⟩ : ∃ s : State Bool,
      readerBetween.foldlM step (State.start 0) = some s ∧ s.writers = [true] ∧
        s.readers = [false] := ⟨_, rfl, rfl, rfl⟩
  have hreach : Relation.ReflTransGen Step (State.start 0) s :=
    reachable_of_foldlM (fun _ action _ h => ⟨action, h⟩) hrun
  have hnone := (hclaim s hreach).no_reader (by rw [hwriters]; nofun)
  rw [hreaders] at hnone
  cases hnone

end Rpcsx.Orbis.RwLock
