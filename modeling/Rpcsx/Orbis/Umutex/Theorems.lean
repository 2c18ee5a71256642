import Rpcsx.Data.Interleaving
import Rpcsx.Orbis.Umutex

namespace Rpcsx.Orbis.Umutex

open Rpcsx.Data.Interleaving

variable {s s' : State} {i : Tid} {t : Thread} {pc : Pc}

-- A call of do_unlock_normal that has returned.
def Answered (t : Thread) (code : ErrorCode) : Prop :=
  (t.wasOwner = true → code = .ok) ∧
    (t.wasOwner = false → code = .PERM ∧ t.changes = [])

-- The thread is about to take a waiter from the queue.
def Notifies (pc : Pc) : Prop :=
  (∃ ok, pc = .unlock (.notify ok)) ∨ ∃ owner, pc = .wake (.notify owner) ∧ ident owner = 0

-- What is expected of the mutex in every state.
structure Sound (s : State) : Prop where
  one_owner : s.owners.length ≤ 1
  owner : ∀ i ∈ s.owners, ident s.owner = i.val
  unlocked : ∀ i code, (s.threads i).pc = .idle (some (.unlock, code)) →
    Answered (s.threads i) code
  -- a queued thread has the bit, or is about to set it itself, or another thread takes it from the
  -- queue next
  waiters : ∀ i ∈ s.sleepQueue, contested s.owner = true ∨
    (∃ mode owner, (s.threads i).pc = .lock mode (.mark owner)) ∨
    ∃ j, j ≠ i ∧ Notifies (s.threads j).pc ∧ (s.shared = true ∨ s.sleepQueue = [i])
  settled : s.mutex = none → s.sleepQueue ≠ [] → contested s.owner = true

def Pc.queued : Pc → Prop
  | .lock _ (.mark _) | .lock _ .asleep => True
  | _ => False

-- The word and the threads that have the mutex.
def Owned (owner : BitVec 32) (owners : List Tid) : Prop :=
  owners = [] ∧ ident owner = 0 ∨ ∃ i, owners = [i] ∧ ident owner = i.val

def ThreadOk (owner : BitVec 32) (owners : List Tid) (i : Tid) (t : Thread) : Prop :=
  match t.pc with
  | .idle (some (.unlock, code)) => Answered t code
  | .unlock .enter | .unlock .load => (t.wasOwner = true ↔ i ∈ owners) ∧ t.changes = []
  | .unlock (.fast seen) => t.wasOwner = true ∧ owner = seen ∧ seen = i.val
  | .unlock (.slow seen) => t.wasOwner = true ∧ owner = seen ∧ ident seen = i.val
  | .unlock (.notify ok) => t.wasOwner = true ∧ ok = true
  | _ => True

-- What the thread with the chain lock has left to do for the waiters.
def Settled (shared : Bool) (owner : BitVec 32) (queue : List Tid) (i : Tid) (pc : Pc) : Prop :=
  match pc with
  | .lock _ (.mark _) => ∃ before, queue = before ++ [i] ∧ (before ≠ [] → contested owner = true)
  | .unlock (.notify _) => shared = true ∨ contested owner = true ∨ queue.length ≤ 1
  | .wake .clear => queue.length ≤ 1 ∧ (queue ≠ [] → contested owner = true)
  | .wake (.notify seen) =>
      if ident seen = 0 then contested owner = true ∨ queue.length ≤ 1
      else queue ≠ [] → contested owner = true
  | _ => queue ≠ [] → contested owner = true

structure Invariant (s : State) : Prop where
  inside : Exclusive (fun t : Thread => t.pc.holds) s.threads s.mutex
  owned : Owned s.owner s.owners
  nodup : s.sleepQueue.Nodup
  queued : ∀ i ∈ s.sleepQueue, (s.threads i).pc.queued
  threads : ∀ i, ThreadOk s.owner s.owners i (s.threads i)
  free : s.mutex = none → s.sleepQueue ≠ [] → contested s.owner = true
  settled : ∀ i, s.mutex = some i → Settled s.shared s.owner s.sleepQueue i (s.threads i).pc

section Frame

variable {owner owner' : BitVec 32} {owners owners' : List Tid}

-- A thread outside of the chain lock knows no more than whether it is an owner.
theorem ThreadOk.outside (h : ThreadOk owner owners i t) (ht : t.pc.holds = false)
    (hmem : i ∈ owners' ↔ i ∈ owners) : ThreadOk owner' owners' i t := by
  obtain ⟨pc, wasOwner, changes⟩ := t
  unfold ThreadOk at h ⊢
  cases pc with
  | idle result =>
      cases result with
      | none => trivial
      | some result =>
          obtain ⟨c, code⟩ := result
          cases c <;> exact h
  | lock mode pc => trivial
  | wake pc => trivial
  | unlock pc =>
      cases pc with
      | enter => exact ⟨h.1.trans hmem.symm, h.2⟩
      | _ => cases ht

theorem settled_of_not_holds {shared : Bool} {queue : List Tid} (hpc : pc.holds = false) :
    Settled shared owner queue i pc ↔ (queue ≠ [] → contested owner = true) := by
  unfold Settled
  cases pc with
  | idle result => exact Iff.rfl
  | lock mode pc => cases pc <;> first | exact Iff.rfl | cases hpc
  | unlock pc => cases pc <;> first | exact Iff.rfl | cases hpc
  | wake pc => cases pc <;> first | exact Iff.rfl | cases hpc

-- A step of the thread that has the chain lock, takes it or gives it back.
theorem Invariant.holder (h : Invariant s) (hmine : s.mutex = none ∨ s.mutex = some i) (t : Thread)
    (hthreads : s'.threads = Function.update s.threads i t)
    (hmutex : s'.mutex = if t.pc.holds then some i else none) (hok : ThreadOk s'.owner s'.owners i t)
    (howned : Owned s'.owner s'.owners) (hothers : ∀ j, j ≠ i → (j ∈ s'.owners ↔ j ∈ s.owners))
    (hnodup : s'.sleepQueue.Nodup)
    (hqueued : ∀ j ∈ s'.sleepQueue, j = i ∧ t.pc.queued ∨ j ≠ i ∧ j ∈ s.sleepQueue)
    (hsettled : Settled s'.shared s'.owner s'.sleepQueue i t.pc) : Invariant s' where
  inside := by
    rw [hthreads, hmutex]
    exact h.inside.owner hmine
  owned := howned
  nodup := hnodup
  queued j hj := by
    rw [hthreads]
    rcases hqueued j hj with ⟨rfl, hpc⟩ | ⟨hne, hmem⟩
    · rw [Function.update_self]
      exact hpc
    · rw [Function.update_of_ne hne]
      exact h.queued j hmem
  threads j := by
    rw [hthreads]
    by_cases hj : j = i
    · rw [hj, Function.update_self]
      exact hok
    · rw [Function.update_of_ne hj]
      exact (h.threads j).outside (h.inside.not_holds_of_ne hmine hj) (hothers j hj)
  free hnone := by
    rw [hmutex] at hnone
    cases hpc : t.pc.holds with
    | true =>
        rw [hpc] at hnone
        cases hnone
    | false => exact (settled_of_not_holds hpc).mp hsettled
  settled j hj := by
    rw [hmutex] at hj
    cases hpc : t.pc.holds with
    | true =>
        rw [hpc] at hj
        cases hj
        rw [hthreads, Function.update_self]
        exact hsettled
    | false =>
        rw [hpc] at hj
        cases hj

-- A step that leaves the word, the owners and the queue.
theorem Invariant.goto (h : Invariant s) (hmine : s.mutex = none ∨ s.mutex = some i)
    (hthreads : s'.threads = (s.goto i pc).threads)
    (hmutex : s'.mutex = if pc.holds then some i else none)
    (hok : ThreadOk s.owner s.owners i { s.threads i with pc := pc })
    (hout : i ∉ s.sleepQueue) (hsettled : Settled s.shared s.owner s.sleepQueue i pc)
    (hflags : s'.flags = s.flags) (howner : s'.owner = s.owner) (howners : s'.owners = s.owners)
    (hqueue : s'.sleepQueue = s.sleepQueue) : Invariant s' := by
  refine h.holder hmine { s.threads i with pc := pc } hthreads hmutex ?_ ?_ ?_ ?_ ?_ ?_
  · rw [howner, howners]
    exact hok
  · rw [howner, howners]
    exact h.owned
  · intro j _
    rw [howners]
  · rw [hqueue]
    exact h.nodup
  · intro j hj
    rw [hqueue] at hj
    exact Or.inr ⟨fun heq => hout (heq ▸ hj), hj⟩
  · unfold State.shared
    rw [hflags, howner, hqueue]
    exact hsettled

theorem Invariant.mutex_of_holds (h : Invariant s) (hpc : (s.threads i).pc = pc)
    (hholds : pc.holds = true) : s.mutex = some i := by
  apply (h.inside i).mp
  dsimp only
  rw [hpc]
  exact hholds

theorem Invariant.not_queued (h : Invariant s) (hpc : (s.threads i).pc = pc) (hq : ¬pc.queued) :
    i ∉ s.sleepQueue := by
  intro hmem
  have hqueued := h.queued i hmem
  rw [hpc] at hqueued
  exact hq hqueued

-- Who has the chain lock knows that the waiters have the bit.
theorem Invariant.settled_at (h : Invariant s) (hpc : (s.threads i).pc = pc)
    (hmutex : s.mutex = some i) : Settled s.shared s.owner s.sleepQueue i pc := by
  rw [← hpc]
  exact h.settled i hmutex

-- The mutex is taken while nobody has it.
theorem Owned.take (h : Owned owner owners) (hfree : ident owner = 0) (hnew : ident owner' = i.val) :
    Owned owner' (i :: owners) := by
  rcases h with ⟨rfl, _⟩ | ⟨j, _, hj⟩
  · exact Or.inr ⟨i, rfl, hnew⟩
  · rw [hfree] at hj
    exact absurd hj.symm (tid_ne_zero j)

theorem Owned.release (h : Owned owner owners) (hmine : ident owner = i.val)
    (hnew : ident owner' = 0) : Owned owner' (owners.erase i) := by
  rcases h with ⟨_, hfree⟩ | ⟨j, rfl, hj⟩
  · rw [hfree] at hmine
    exact absurd hmine.symm (tid_ne_zero i)
  · rw [hmine] at hj
    have hij : i = j := Subtype.ext hj
    left
    rw [hij, List.erase_cons_head]
    exact ⟨rfl, hnew⟩

theorem Owned.mem_iff (h : Owned owner owners) : i ∈ owners ↔ ident owner = i.val := by
  rcases h with ⟨rfl, hfree⟩ | ⟨j, rfl, hj⟩
  · rw [hfree]
    exact ⟨nofun, fun heq => absurd heq.symm (tid_ne_zero i)⟩
  · rw [List.mem_singleton, hj]
    exact ⟨fun heq => heq ▸ rfl, fun heq => (Subtype.ext heq).symm⟩

end Frame

section Steps

theorem change_goto (s : State) (i : Tid) (owner : BitVec 32) (pc : Pc) :
    ((s.change i owner).goto i pc).threads = Function.update s.threads i
      ⟨pc, (s.threads i).wasOwner, (s.threads i).changes ++ [(s.owner, owner)]⟩ := by
  simp only [State.change, State.goto, Function.update_self, Function.update_idem]

theorem mem_cons_other {owners : List Tid} (j : Tid) (hj : j ≠ i) :
    j ∈ i :: owners ↔ j ∈ owners := by
  rw [List.mem_cons]
  exact ⟨fun h => h.resolve_left hj, Or.inr⟩

theorem queue_nil (h : s.sleepQueue ≠ [] → contested s.owner = true)
    (hfree : contested s.owner = false) : s.sleepQueue = [] := by
  by_contra hne
  rw [h hne] at hfree
  cases hfree

theorem queue_others (hout : i ∉ s.sleepQueue) {p : Prop} :
    ∀ j ∈ s.sleepQueue, j = i ∧ p ∨ j ≠ i ∧ j ∈ s.sleepQueue :=
  fun _ hj => Or.inr ⟨fun heq => hout (heq ▸ hj), hj⟩

theorem Invariant.doLockNormal (h : Invariant s) {mode : Mode} {pc : LockPc}
    (hpc : (s.threads i).pc = .lock mode pc) (hstep : s.doLockNormal i mode pc = some s') :
    Invariant s' := by
  have hmutex := h.mutex_of_holds hpc
  cases pc with
  | enter =>
      have hout := h.not_queued hpc id
      simp only [State.doLockNormal, State.lock] at hstep
      split at hstep
      · rename_i hfree
        cases hstep
        exact h.goto (Or.inl hfree) rfl rfl trivial hout (h.free hfree) rfl rfl rfl rfl
      · cases hstep
  | load error =>
      have hmine := hmutex rfl
      have hout := h.not_queued hpc id
      have hsettled : s.sleepQueue ≠ [] → contested s.owner = true := h.settled_at hpc hmine
      simp only [State.doLockNormal] at hstep
      split at hstep
      · split at hstep
        · cases hstep
          exact h.goto (Or.inr hmine) rfl rfl trivial hout hsettled rfl rfl rfl rfl
        · cases hstep
          exact h.goto (Or.inr hmine) rfl hmine trivial hout hsettled rfl rfl rfl rfl
      · cases hstep
        exact h.goto (Or.inr hmine) rfl hmine trivial hout hsettled rfl rfl rfl rfl
  | take error =>
      have hmine := hmutex rfl
      have hout := h.not_queued hpc id
      have hsettled : s.sleepQueue ≠ [] → contested s.owner = true := h.settled_at hpc hmine
      simp only [State.doLockNormal] at hstep
      split at hstep
      · rename_i hunowned
        cases hstep
        have hident : ident s.owner = 0 := by
          rw [hunowned]
          decide
        have hqueue : s.sleepQueue = [] := queue_nil hsettled (by
          rw [hunowned]
          decide)
        refine h.holder (Or.inr hmine) _ (change_goto ..) rfl trivial
          (h.owned.take hident (ident_tid i)) mem_cons_other h.nodup (queue_others hout) ?_
        exact fun hne => absurd hqueue hne
      · split at hstep
        · cases hstep
          exact h.goto (Or.inr hmine) rfl hmine trivial hout hsettled rfl rfl rfl rfl
        · cases hstep
          exact h.goto (Or.inr hmine) rfl hmine trivial hout hsettled rfl rfl rfl rfl
  | takeContested error =>
      have hmine := hmutex rfl
      have hout := h.not_queued hpc id
      have hsettled : s.sleepQueue ≠ [] → contested s.owner = true := h.settled_at hpc hmine
      simp only [State.doLockNormal] at hstep
      split at hstep
      · rename_i hcontested
        cases hstep
        have hident : ident s.owner = 0 := by
          rw [hcontested]
          decide
        exact h.holder (Or.inr hmine) _ (change_goto ..) rfl trivial
          (h.owned.take hident ((ident_or i.val).trans (ident_tid i))) mem_cons_other h.nodup
          (queue_others hout) fun _ => contested_or i.val
      · cases hstep
        exact h.goto (Or.inr hmine) rfl hmine trivial hout hsettled rfl rfl rfl rfl
  | check error owner =>
      have hmine := hmutex rfl
      have hout := h.not_queued hpc id
      have hsettled : s.sleepQueue ≠ [] → contested s.owner = true := h.settled_at hpc hmine
      simp only [State.doLockNormal] at hstep
      split at hstep
      · cases hstep
        exact h.goto (Or.inr hmine) rfl rfl trivial hout hsettled rfl rfl rfl rfl
      · split at hstep
        · cases hstep
          exact h.goto (Or.inr hmine) rfl rfl trivial hout hsettled rfl rfl rfl rfl
        · split at hstep
          · cases hstep
            exact h.goto (Or.inr hmine) rfl rfl trivial hout hsettled rfl rfl rfl rfl
          · cases hstep
            refine h.holder (Or.inr hmine) ⟨.lock mode (.mark owner), _, _⟩ rfl hmine trivial h.owned
              (fun _ _ => Iff.rfl) ?_ ?_ ⟨s.sleepQueue, rfl, hsettled⟩
            · dsimp only
              rw [List.nodup_append]
              refine ⟨h.nodup, List.nodup_singleton i, ?_⟩
              intro a ha b hb heq
              rw [List.mem_singleton.mp hb] at heq
              exact hout (heq ▸ ha)
            · intro j hj
              rcases List.mem_append.mp hj with hj | hj
              · exact Or.inr ⟨fun heq => hout (heq ▸ hj), hj⟩
              · exact Or.inl ⟨List.mem_singleton.mp hj, trivial⟩
  | mark owner =>
      have hmine := hmutex rfl
      obtain ⟨before, hqueue, hsettled⟩ : ∃ before, s.sleepQueue = before ++ [i] ∧
          (before ≠ [] → contested s.owner = true) := h.settled_at hpc hmine
      simp only [State.doLockNormal] at hstep
      split at hstep
      · rename_i hsame
        subst hsame
        cases hstep
        have howned : Owned (s.owner ||| kUmutexContested) s.owners := by
          unfold Owned
          rw [ident_or]
          exact h.owned
        refine h.holder (Or.inr hmine) _ (change_goto ..) rfl trivial howned (fun _ _ => Iff.rfl)
          h.nodup ?_ fun _ => contested_or s.owner
        intro j hj
        by_cases hji : j = i
        · exact Or.inl ⟨hji, trivial⟩
        · exact Or.inr ⟨hji, hj⟩
      · cases hstep
        have hnodup := h.nodup
        rw [hqueue, List.nodup_append] at hnodup
        have hfresh : i ∉ before := fun hmem => hnodup.2.2 i hmem i (List.mem_singleton_self i) rfl
        have herase : s.sleepQueue.erase i = before := by
          rw [hqueue, List.erase_append_right _ hfresh, List.erase_cons_head, List.append_nil]
        refine h.holder (Or.inr hmine) ⟨.lock mode (.load .ok), _, _⟩ rfl hmine trivial h.owned
          (fun _ _ => Iff.rfl) ?_ ?_ ?_
        · dsimp only
          rw [herase]
          exact hnodup.1
        · intro j hj
          dsimp only at hj
          rw [herase] at hj
          refine Or.inr ⟨fun heq => hfresh (heq ▸ hj), ?_⟩
          rw [hqueue]
          exact List.mem_append_left _ hj
        · dsimp only
          rw [herase]
          exact hsettled
  | asleep => cases hstep

theorem Invariant.wake (h : Invariant s) {code : ErrorCode} (hstep : s.wake i code = some s') :
    Invariant s' := by
  unfold State.wake at hstep
  split at hstep
  · rename_i mode hpc
    split at hstep
    · rename_i hfree
      cases hstep
      refine h.holder (Or.inl hfree) ⟨.lock mode (.load _), _, _⟩ rfl rfl trivial h.owned
        (fun _ _ => Iff.rfl) (h.nodup.erase i) ?_ ?_
      · intro j hj
        exact Or.inr (h.nodup.mem_erase_iff.mp hj)
      · intro hne
        apply h.free hfree
        intro hnil
        apply hne
        dsimp only
        rw [hnil]
        rfl
    · cases hstep
  · cases hstep

theorem mem_erase_other {owners : List Tid} (j : Tid) (hj : j ≠ i) :
    j ∈ owners.erase i ↔ j ∈ owners := List.mem_erase_of_ne hj

-- The queue after a notification.
theorem Invariant.notified (h : Invariant s) (hmine : s.mutex = some i) (hout : i ∉ s.sleepQueue)
    {c : Call} {code : ErrorCode} (hok : ThreadOk s.owner s.owners i
      { s.threads i with pc := .idle (some (c, code)) })
    (hsettled : s.shared = true ∨ contested s.owner = true ∨ s.sleepQueue.length ≤ 1) :
    Invariant ((if s.shared then s.notifyAll else s.notifyOne).leave i c code) := by
  split
  · exact h.holder (Or.inr hmine) { s.threads i with pc := .idle (some (c, code)) } rfl rfl hok
      h.owned (fun _ _ => Iff.rfl) List.nodup_nil nofun fun hne => absurd rfl hne
  · rename_i hshared
    refine h.holder (Or.inr hmine) { s.threads i with pc := .idle (some (c, code)) } rfl rfl hok
      h.owned (fun _ _ => Iff.rfl) (h.nodup.sublist (List.drop_sublist 1 _)) ?_ ?_
    · intro j hj
      have hmem := List.mem_of_mem_drop hj
      exact Or.inr ⟨fun heq => hout (heq ▸ hmem), hmem⟩
    · intro hne
      rcases hsettled with hall | hcontested | hlength
      · exact absurd hall hshared
      · exact hcontested
      · exact absurd (List.drop_eq_nil_of_le hlength) hne

theorem Invariant.doUnlockNormal (h : Invariant s) {pc : UnlockPc}
    (hpc : (s.threads i).pc = .unlock pc) (hstep : s.doUnlockNormal i pc = some s') :
    Invariant s' := by
  have hmutex := h.mutex_of_holds hpc
  have hout := h.not_queued hpc id
  have hok := h.threads i
  unfold ThreadOk at hok
  rw [hpc] at hok
  cases pc with
  | enter =>
      simp only [State.doUnlockNormal, State.lock] at hstep
      split at hstep
      · rename_i hfree
        cases hstep
        exact h.goto (Or.inl hfree) rfl rfl hok hout (h.free hfree) rfl rfl rfl rfl
      · cases hstep
  | load =>
      have hmine := hmutex rfl
      obtain ⟨hwas, hchanges⟩ := hok
      have hsettled : s.sleepQueue ≠ [] → contested s.owner = true := h.settled_at hpc hmine
      simp only [State.doUnlockNormal] at hstep
      split at hstep
      · rename_i hother
        cases hstep
        refine h.goto (Or.inr hmine) rfl rfl ?_ hout hsettled rfl rfl rfl rfl
        refine ⟨fun hw => ?_, fun _ => ⟨rfl, hchanges⟩⟩
        exact absurd (h.owned.mem_iff.mp (hwas.mp hw)) hother
      · rename_i hident
        rw [ne_eq, not_not] at hident
        have hw := hwas.mpr (h.owned.mem_iff.mpr hident)
        split at hstep
        · rename_i hsign
          have hfree := signExtend_eq_zero.mp hsign
          have hword : s.owner = i.val := (ident_of_free hfree).symm.trans hident
          cases hstep
          exact h.goto (Or.inr hmine) rfl hmine ⟨hw, rfl, hword⟩ hout hsettled rfl rfl rfl rfl
        · cases hstep
          exact h.goto (Or.inr hmine) rfl hmine ⟨hw, rfl, hident⟩ hout hsettled rfl rfl rfl rfl
  | fast owner =>
      have hmine := hmutex rfl
      obtain ⟨hw, rfl, hword⟩ := hok
      have hsettled : s.sleepQueue ≠ [] → contested s.owner = true := h.settled_at hpc hmine
      have hident : ident s.owner = i.val := by
        rw [hword]
        exact ident_tid i
      have hqueue : s.sleepQueue = [] := queue_nil hsettled (by
        rw [hword]
        exact contested_tid i)
      simp only [State.doUnlockNormal, if_true] at hstep
      cases hstep
      have hfree : ident kUmutexUnowned = 0 := by decide
      refine h.holder (Or.inr hmine) _ (change_goto ..) rfl ?_ (h.owned.release hident hfree)
        mem_erase_other h.nodup (queue_others hout) fun hne => absurd hqueue hne
      refine ⟨fun _ => rfl, fun hnot => ?_⟩
      dsimp only at hnot
      rw [hw] at hnot
      cases hnot
  | slow owner =>
      have hmine := hmutex rfl
      obtain ⟨hw, rfl, hident⟩ := hok
      have hsettled : s.sleepQueue ≠ [] → contested s.owner = true := h.settled_at hpc hmine
      simp only [State.doUnlockNormal, if_true] at hstep
      cases hstep
      refine h.holder (Or.inr hmine) _ (change_goto ..) hmine ⟨hw, rfl⟩ ?_ mem_erase_other h.nodup
        (queue_others hout) ?_
      · apply h.owned.release hident
        dsimp only [State.goto, State.change]
        split <;> decide
      · by_cases hfree : s.shared = true ∨ s.sleepQueue.length ≤ 1
        · exact hfree.imp_right Or.inr
        · right
          left
          dsimp only [State.goto, State.change]
          rw [if_neg hfree]
          decide
  | notify ok =>
      have hmine := hmutex rfl
      obtain ⟨hw, rfl⟩ := hok
      have hsettled : s.shared = true ∨ contested s.owner = true ∨ s.sleepQueue.length ≤ 1 :=
        h.settled_at hpc hmine
      cases hstep
      refine h.notified hmine hout ?_ hsettled
      refine ⟨fun _ => rfl, fun hnot => ?_⟩
      dsimp only at hnot
      rw [hw] at hnot
      cases hnot

theorem Invariant.umtxWakeUmutex (h : Invariant s) {pc : WakePc} (hpc : (s.threads i).pc = .wake pc)
    (hstep : s.umtxWakeUmutex i pc = some s') : Invariant s' := by
  have hmutex := h.mutex_of_holds hpc
  have hout := h.not_queued hpc id
  cases pc with
  | enter =>
      simp only [State.umtxWakeUmutex, State.lock] at hstep
      split at hstep
      · rename_i hfree
        cases hstep
        exact h.goto (Or.inl hfree) rfl rfl trivial hout (h.free hfree) rfl rfl rfl rfl
      · cases hstep
  | load =>
      have hmine := hmutex rfl
      have hsettled : s.sleepQueue ≠ [] → contested s.owner = true := h.settled_at hpc hmine
      simp only [State.umtxWakeUmutex] at hstep
      split at hstep
      · cases hstep
        exact h.goto (Or.inr hmine) rfl rfl trivial hout hsettled rfl rfl rfl rfl
      · rename_i hident
        rw [ne_eq, not_not] at hident
        split at hstep
        · rename_i hlength
          cases hstep
          exact h.goto (Or.inr hmine) rfl hmine trivial hout ⟨hlength, hsettled⟩ rfl rfl rfl rfl
        · rename_i hlength
          cases hstep
          refine h.goto (Or.inr hmine) rfl hmine trivial hout ?_ rfl rfl rfl rfl
          unfold Settled
          dsimp only
          rw [if_pos hident]
          left
          apply hsettled
          intro hnil
          rw [hnil] at hlength
          exact hlength (Nat.zero_le 1)
  | clear =>
      have hmine := hmutex rfl
      obtain ⟨hlength, hsettled⟩ : s.sleepQueue.length ≤ 1 ∧
          (s.sleepQueue ≠ [] → contested s.owner = true) := h.settled_at hpc hmine
      simp only [State.umtxWakeUmutex] at hstep
      split at hstep
      · rename_i hcontested
        cases hstep
        have hfree : ident s.owner = 0 := by
          rw [hcontested]
          exact ident_contested
        have howned : Owned kUmutexUnowned s.owners := by
          rcases h.owned with ⟨hnil, _⟩ | ⟨j, _, hj⟩
          · exact Or.inl ⟨hnil, by decide⟩
          · rw [hfree] at hj
            exact absurd hj.symm (tid_ne_zero j)
        refine h.holder (Or.inr hmine) _ (change_goto ..) hmine trivial howned (fun _ _ => Iff.rfl)
          h.nodup (queue_others hout) ?_
        unfold Settled
        dsimp only
        rw [if_pos ident_contested]
        exact Or.inr hlength
      · cases hstep
        refine h.goto (Or.inr hmine) rfl hmine trivial hout ?_ rfl rfl rfl rfl
        unfold Settled
        dsimp only
        split
        · exact Or.inr hlength
        · exact hsettled
  | notify owner =>
      have hmine := hmutex rfl
      have hsettled := h.settled_at hpc hmine
      unfold Settled at hsettled
      dsimp only at hsettled
      simp only [State.umtxWakeUmutex] at hstep
      split at hstep
      · rename_i hnotify
        cases hstep
        rw [if_pos hnotify.2] at hsettled
        exact h.notified hmine hout trivial (Or.inr hsettled)
      · rename_i hnotify
        cases hstep
        refine h.goto (Or.inr hmine) rfl rfl trivial hout ?_ rfl rfl rfl rfl
        intro hne
        have hident : ident owner ≠ 0 := by
          intro hzero
          exact hnotify ⟨fun hlength => hne (List.length_eq_zero_iff.mp hlength), hzero⟩
        rw [if_neg hident] at hsettled
        exact hsettled hne

end Steps

section User

-- In user mode the word is changed while another thread may have the chain lock; it keeps the bit.
theorem Invariant.user (h : Invariant s) {owner : BitVec 32} {owners : List Tid}
    (howned : Owned owner owners) (hcontested : contested owner = contested s.owner)
    (hidle : (s.threads i).pc.holds = false ∧ (s.threads i).pc ≠ .unlock .enter)
    (hothers : ∀ j, j ≠ i → (j ∈ owners ↔ j ∈ s.owners))
    (hfree : ∀ j, j ≠ i → ident s.owner ≠ j.val) :
    Invariant { s with owner := owner, owners := owners } where
  inside := h.inside
  owned := howned
  nodup := h.nodup
  queued := h.queued
  threads j := by
    have hok := h.threads j
    by_cases hj : j = i
    · subst hj
      generalize s.threads j = t at hok hidle
      obtain ⟨pc, wasOwner, changes⟩ := t
      unfold ThreadOk at hok ⊢
      cases pc with
      | idle result =>
          cases result with
          | none => trivial
          | some result =>
              obtain ⟨c, code⟩ := result
              cases c <;> exact hok
      | lock mode pc => trivial
      | wake pc => trivial
      | unlock pc =>
          cases pc with
          | enter => exact absurd rfl hidle.2
          | _ => cases hidle.1
    · have hmem := hothers j hj
      have hne := hfree j hj
      generalize s.threads j = t at hok
      obtain ⟨pc, wasOwner, changes⟩ := t
      unfold ThreadOk at hok ⊢
      cases pc with
      | idle result =>
          cases result with
          | none => trivial
          | some result =>
              obtain ⟨c, code⟩ := result
              cases c <;> exact hok
      | lock mode pc => trivial
      | wake pc => trivial
      | unlock pc =>
          cases pc with
          | enter => exact ⟨hok.1.trans hmem.symm, hok.2⟩
          | load => exact ⟨hok.1.trans hmem.symm, hok.2⟩
          | fast seen =>
              obtain ⟨_, rfl, hword⟩ := hok
              rw [hword, ident_tid] at hne
              exact absurd rfl hne
          | slow seen =>
              obtain ⟨_, rfl, hword⟩ := hok
              exact absurd hword hne
          | notify ok => exact hok
  free hnone hne := by
    dsimp only
    rw [hcontested]
    exact h.free hnone hne
  settled j hj := by
    have hsettled := h.settled j hj
    unfold Settled at hsettled ⊢
    dsimp only
    rw [hcontested]
    exact hsettled

theorem Invariant.step (h : Invariant s) {action : Action} (hstep : step s action = some s') :
    Invariant s' := by
  cases action with
  | call i c =>
      simp only [Umutex.step] at hstep
      split at hstep
      · rename_i result hpc
        cases hstep
        have hout := h.not_queued hpc id
        have hbefore : (s.threads i).pc.holds = false := by
          rw [hpc]
          rfl
        have hafter : c.start.holds = false := by
          cases c <;> rfl
        refine ⟨h.inside.outside hbefore hafter, h.owned, h.nodup, ?_, ?_, h.free, ?_⟩
        · intro j hj
          dsimp only
          have hne : j ≠ i := fun heq => hout (heq ▸ hj)
          rw [Function.update_of_ne hne]
          exact h.queued j hj
        · intro j
          dsimp only
          by_cases hj : j = i
          · rw [hj, Function.update_self]
            cases c with
            | lock mode => trivial
            | wake => trivial
            | unlock => exact ⟨decide_eq_true_iff, rfl⟩
          · rw [Function.update_of_ne hj]
            exact h.threads j
        · intro j hj
          dsimp only
          rw [Function.update_of_ne (h.inside.ne_of_not_holds hbefore hj)]
          exact h.settled j hj
      · cases hstep
  | advance i =>
      simp only [Umutex.step, State.advance] at hstep
      split at hstep
      · cases hstep
      · rename_i hpc
        exact h.doLockNormal hpc hstep
      · rename_i hpc
        exact h.doUnlockNormal hpc hstep
      · rename_i hpc
        exact h.umtxWakeUmutex hpc hstep
  | wake i code => exact h.wake hstep
  | userLock i =>
      simp only [Umutex.step] at hstep
      split at hstep
      · rename_i result hpc
        split at hstep
        · rename_i hunowned
          cases hstep
          have hident : ident s.owner = 0 := by
            rw [hunowned]
            decide
          refine h.user (h.owned.take hident (ident_tid i)) ?_ ?_ mem_cons_other ?_
          · rw [contested_tid, hunowned]
            decide
          · rw [hpc]
            exact ⟨rfl, nofun⟩
          · intro j _
            rw [hident]
            exact (tid_ne_zero j).symm
        · cases hstep
      · cases hstep
  | userUnlock i =>
      simp only [Umutex.step] at hstep
      split at hstep
      · rename_i result hpc
        split at hstep
        · rename_i hword
          cases hstep
          have hident : ident s.owner = i.val := by
            rw [hword]
            exact ident_tid i
          refine h.user (h.owned.release hident (by decide)) ?_ ?_ mem_erase_other ?_
          · rw [hword, contested_tid]
            decide
          · rw [hpc]
            exact ⟨rfl, nofun⟩
          · intro j hj
            rw [hident]
            exact fun heq => hj (Subtype.ext heq.symm)
        · cases hstep
      · cases hstep

end User

section Runs

theorem Invariant.start (flags : BitVec 32) : Invariant (State.start flags) where
  inside i := ⟨nofun, nofun⟩
  owned := by
    have hfree : ident kUmutexUnowned = 0 := by decide
    exact Or.inl ⟨rfl, hfree⟩
  nodup := List.nodup_nil
  queued := nofun
  threads _ := trivial
  free _ hne := absurd rfl hne
  settled := nofun

theorem Invariant.waiter (h : Invariant s) (hi : i ∈ s.sleepQueue) : contested s.owner = true ∨
    (∃ mode owner, (s.threads i).pc = .lock mode (.mark owner)) ∨
    ∃ j, j ≠ i ∧ Notifies (s.threads j).pc ∧ (s.shared = true ∨ s.sleepQueue = [i]) := by
  have hne : s.sleepQueue ≠ [] := List.ne_nil_of_mem hi
  have hqueue (hlength : s.sleepQueue.length ≤ 1) : s.sleepQueue = [i] := by
    obtain ⟨j, hj⟩ := List.length_eq_one_iff.mp
      (Nat.le_antisymm hlength (List.length_pos_iff.mpr hne))
    rw [hj, List.mem_singleton] at hi
    rw [hj, hi]
  have hother {j : Tid} (hpc : ¬(s.threads j).pc.queued) : j ≠ i :=
    fun heq => hpc (heq ▸ h.queued i hi)
  cases hmutex : s.mutex with
  | none => exact Or.inl (h.free hmutex hne)
  | some j =>
      have hsettled := h.settled j hmutex
      generalize hpc : (s.threads j).pc = pc at hsettled
      have hj := @hother j
      rw [hpc] at hj
      unfold Settled at hsettled
      split at hsettled
      · rename_i mode owner
        obtain ⟨before, hbefore, hcontested⟩ := hsettled
        by_cases hempty : before = []
        · rw [hempty, List.nil_append] at hbefore
          rw [hbefore, List.mem_singleton] at hi
          rw [← hi] at hpc
          exact Or.inr (Or.inl ⟨mode, owner, hpc⟩)
        · exact Or.inl (hcontested hempty)
      · rename_i ok
        rcases hsettled with hshared | hcontested | hlength
        · exact Or.inr (Or.inr ⟨j, hj id, by rw [hpc]; exact Or.inl ⟨ok, rfl⟩, Or.inl hshared⟩)
        · exact Or.inl hcontested
        · exact Or.inr (Or.inr ⟨j, hj id, by rw [hpc]; exact Or.inl ⟨ok, rfl⟩,
            Or.inr (hqueue hlength)⟩)
      · exact Or.inl (hsettled.2 hne)
      · rename_i seen
        split at hsettled
        · rename_i hident
          rcases hsettled with hcontested | hlength
          · exact Or.inl hcontested
          · exact Or.inr (Or.inr ⟨j, hj id, by rw [hpc]; exact Or.inr ⟨seen, rfl, hident⟩,
              Or.inr (hqueue hlength)⟩)
        · exact Or.inl (hsettled hne)
      · exact Or.inl (hsettled hne)

-- In every state of every run the mutex has one owner at most, only the owner unlocks it, and no
-- queued thread is left without the bit.
theorem umutex_sound {flags : BitVec 32}
    (h : Relation.ReflTransGen Step (State.start flags) s) : Sound s := by
  have hinv : Invariant s := by
    apply invariant_of_reachable (Invariant.start flags) _ h
    rintro s s' hinv ⟨action, hstep⟩
    exact hinv.step hstep
  refine ⟨?_, ?_, ?_, fun i hi => hinv.waiter hi, hinv.free⟩
  · rcases hinv.owned with ⟨hnil, _⟩ | ⟨j, hj, _⟩
    · rw [hnil]
      exact Nat.zero_le 1
    · rw [hj]
      exact Nat.le_refl 1
  · exact fun i hi => hinv.owned.mem_iff.mp hi
  · intro i code hpc
    have hok := hinv.threads i
    unfold ThreadOk at hok
    rw [hpc] at hok
    exact hok

end Runs

def first : Tid := ⟨1, by decide⟩

def second : Tid := ⟨2, by decide⟩

-- One thread takes the mutex in user mode, a second one queues up behind it.
def queuesUp : List Action :=
  [.userLock first, .call second (.lock .lock), .advance second, .advance second, .advance second,
    .advance second, .advance second]

theorem umutex_sound_queued : ∃ s, Relation.ReflTransGen Step (State.start 0) s ∧
    s.sleepQueue = [second] ∧ Sound s := by
  obtain ⟨s, hrun, hqueue⟩ : ∃ s, queuesUp.foldlM step (State.start 0) = some s ∧
      s.sleepQueue = [second] := ⟨_, rfl, rfl⟩
  have hreach : Relation.ReflTransGen Step (State.start 0) s :=
    reachable_of_foldlM (fun _ action _ h => ⟨action, h⟩) hrun
  exact ⟨s, hreach, hqueue, umutex_sound hreach⟩

end Rpcsx.Orbis.Umutex
