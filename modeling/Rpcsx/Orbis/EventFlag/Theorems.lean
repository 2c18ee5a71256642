import Rpcsx.Data.Interleaving
import Rpcsx.Orbis.EventFlag.Notify

namespace Rpcsx.Orbis.EventFlag

open Rpcsx.Data Rpcsx.Data.Mask

variable {ι : Type} [DecidableEq ι] {s s' : State ι} {i : ι} {p : Pattern} {t : Thread}

-- Set is an OR of the bits, and an offer of the resulting value to the waiters in their order.
structure SetEffect (s : State ι) (bits : BitVec 64) : Prop where
  value : (s.notify .set bits).1.value = offerAll (s.value ||| bits) s.waitingThreads
  waiter : ∀ before w after, s.waitingThreads = before ++ w :: after →
    if w.test (offerAll (s.value ||| bits) before) then
      w ∉ (s.notify .set bits).1.waitingThreads ∧ (s.notify .set bits).1.threads w.thread =
        (s.threads w.thread).release .set (offerAll (s.value ||| bits) before)
    else
      w ∈ (s.notify .set bits).1.waitingThreads ∧
        (s.notify .set bits).1.threads w.thread = s.threads w.thread
  other : ∀ i, (∀ w ∈ s.waitingThreads, w.thread ≠ i) →
    (s.notify .set bits).1.threads i = s.threads i
  order : (s.notify .set bits).1.waitingThreads.Sublist s.waitingThreads
  result : (s.notify .set bits).1.waitingThreads.length + (s.notify .set bits).2 =
    s.waitingThreads.length
  isDeleted : (s.notify .set bits).1.isDeleted = s.isDeleted

-- The result of a call and what the call has done to the flag.
structure Truthful (t : Thread) (p : Pattern) (result : ErrorCode) : Prop where
  ok_iff : result = .ok ↔ ∃ v, t.clears = [v] ∧ p.test v = true
  pattern : result = .ok → t.clears = [t.evfResultPattern]
  kept : result = .TIMEDOUT ∨ result = .CANCELED ∨ result = .ACCES →
    ∀ v ∈ t.clears, p.applyClear v = v

-- What is expected of the flag in every state.
structure Sound (s : State ι) : Prop where
  set : ∀ bits, SetEffect s bits
  returned : ∀ i p result, (s.threads i).pc = .returned p result → Truthful (s.threads i) p result
  nodup : (s.waitingThreads.map fun w => w.thread).Nodup
  waits : ∀ w ∈ s.waitingThreads, ∃ timeout, (s.threads w.thread).pc = .asleep w.toPattern timeout

-- A thread has been released by Set and has not returned yet.
def Released (t : Thread) (p : Pattern) : Prop :=
  t.clears = [t.evfResultPattern] ∧ p.test t.evfResultPattern = true

-- A thread has been released by Destroy, and its clear has changed nothing.
def Harmless (t : Thread) (p : Pattern) : Prop :=
  ∀ v ∈ t.clears, p.test v = false ∧ p.applyClear v = v

-- The sleep of a thread that Set has released ends without an error, and Destroy comes when no
-- such thread is still asleep and when the clears of the waiters change nothing.
def Calm (s : State ι) : Action ι → Prop
  | .wake i code _ =>
      s.isDeleted = false → (s.threads i).evfIsCancelled = some false → code = .ok
  | .notify .destroy _ =>
      (∀ w ∈ s.waitingThreads, w.applyClear s.value = s.value) ∧
      (s.isDeleted = false → ∀ i p timeout, (s.threads i).pc = .asleep p timeout →
        (s.threads i).evfIsCancelled ≠ some false)
  | _ => True

def CalmStep (s s' : State ι) : Prop := ∃ action, Calm s action ∧ step s action = some s'

-- What holds of one thread.
def ThreadOk (isDeleted : Bool) (queue : List (WaitingThread ι)) (i : ι) (t : Thread) : Prop :=
  match t.pc with
  | .outside => True
  | .entering _ _ => t.evfIsCancelled = none ∧ t.clears = []
  | .asleep p _ =>
      match t.evfIsCancelled with
      | none => ⟨p, i⟩ ∈ queue ∧ t.clears = []
      | some true => t.clears = []
      | some false => if isDeleted then Harmless t p else Released t p
  | .returned p result => Truthful t p result

structure Invariant (s : State ι) : Prop where
  nodup : (s.waitingThreads.map fun w => w.thread).Nodup
  waits : ∀ w ∈ s.waitingThreads, (∃ timeout,
    (s.threads w.thread).pc = .asleep w.toPattern timeout) ∧
      (s.threads w.thread).evfIsCancelled = none
  unsatisfied : ∀ w ∈ s.waitingThreads, w.test s.value = false
  deleted : s.isDeleted = true → s.waitingThreads = []
  threads : ∀ i, ThreadOk s.isDeleted s.waitingThreads i (s.threads i)

-- The invariant of the threads other than one, which is not in the queue.
structure Without (s : State ι) (i : ι) : Prop where
  nodup : (s.waitingThreads.map fun w => w.thread).Nodup
  waits : ∀ w ∈ s.waitingThreads, (∃ timeout,
    (s.threads w.thread).pc = .asleep w.toPattern timeout) ∧
      (s.threads w.thread).evfIsCancelled = none
  unsatisfied : ∀ w ∈ s.waitingThreads, w.test s.value = false
  deleted : s.isDeleted = true → s.waitingThreads = []
  absent : ∀ w ∈ s.waitingThreads, w.thread ≠ i
  threads : ∀ j, j ≠ i → ThreadOk s.isDeleted s.waitingThreads j (s.threads j)

section Results

variable {result : ErrorCode}

-- A call that fails without a clear.
theorem truthful_of_failed (hclears : t.clears = []) (hresult : result ≠ .ok) :
    Truthful t p result where
  ok_iff := by
    rw [hclears]
    exact ⟨fun h => absurd h hresult, fun ⟨_, h, _⟩ => nomatch h⟩
  pattern h := absurd h hresult
  kept _ v hv := by
    rw [hclears] at hv
    cases hv

theorem truthful_of_released (h : Released t p) : Truthful t p .ok where
  ok_iff := ⟨fun _ => ⟨_, h⟩, fun _ => rfl⟩
  pattern _ := h.1
  kept h := by rcases h with h | h | h <;> cases h

theorem truthful_of_harmless (h : Harmless t p) : Truthful t p .ACCES where
  ok_iff := by
    refine ⟨nofun, ?_⟩
    rintro ⟨v, hclears, htest⟩
    have hv : v ∈ t.clears := by
      rw [hclears]
      exact List.mem_singleton_self v
    rw [(h v hv).1] at htest
    cases htest
  pattern := nofun
  kept _ v hv := (h v hv).2

end Results

section Without

omit [DecidableEq ι] in
theorem ThreadOk.queue {isDeleted : Bool} {queue queue' : List (WaitingThread ι)}
    (h : ThreadOk isDeleted queue i t) (hq : ∀ p, ⟨p, i⟩ ∈ queue → ⟨p, i⟩ ∈ queue') :
    ThreadOk isDeleted queue' i t := by
  unfold ThreadOk at h ⊢
  cases hpc : t.pc with
  | outside => trivial
  | entering p timeout =>
      rw [hpc] at h
      exact h
  | asleep p timeout =>
      rw [hpc] at h
      dsimp only at h ⊢
      cases hcancelled : t.evfIsCancelled with
      | none =>
          rw [hcancelled] at h
          exact ⟨hq p h.1, h.2⟩
      | some canceled =>
          rw [hcancelled] at h
          cases canceled with
          | true => exact h
          | false => exact h
  | returned p result =>
      rw [hpc] at h
      exact h

omit [DecidableEq ι] in
-- A thread that is not asleep, or that has been released, is not in the queue.
theorem Invariant.without (h : Invariant s)
    (hi : ∀ p timeout, (s.threads i).pc = .asleep p timeout → (s.threads i).evfIsCancelled ≠ none) :
    Without s i where
  nodup := h.nodup
  waits := h.waits
  unsatisfied := h.unsatisfied
  deleted := h.deleted
  absent w hw heq := by
    obtain ⟨⟨timeout, hpc⟩, hcancelled⟩ := h.waits w hw
    rw [heq] at hpc hcancelled
    exact hi _ _ hpc hcancelled
  threads j _ := h.threads j

theorem Without.put (h : Without s i) (ht : ThreadOk s.isDeleted s.waitingThreads i t) :
    Invariant (s.put i t) where
  nodup := h.nodup
  waits w hw := by
    have hwaits := h.waits w hw
    dsimp only [State.put]
    rw [Function.update_of_ne (h.absent w hw)]
    exact hwaits
  unsatisfied := h.unsatisfied
  deleted := h.deleted
  threads j := by
    dsimp only [State.put]
    by_cases hj : j = i
    · rw [hj, Function.update_self]
      exact ht
    · rw [Function.update_of_ne hj]
      exact h.threads j hj

-- The thread joins the queue and sleeps.
theorem Without.sleep (h : Without s i) (hdeleted : s.isDeleted = false) {timeout : Option Nat}
    (hcancelled : (s.threads i).evfIsCancelled = none) (hclears : (s.threads i).clears = [])
    (htest : p.test s.value = false) :
    Invariant { s.put i { s.threads i with pc := .asleep p timeout, evfResultPattern := 0 } with
      waitingThreads := s.waitingThreads ++ [⟨p, i⟩] } where
  nodup := by
    dsimp only
    rw [List.map_append, List.nodup_append]
    refine ⟨h.nodup, List.nodup_singleton _, ?_⟩
    intro a ha b hb
    obtain ⟨w, hw, rfl⟩ := List.mem_map.mp ha
    rw [List.map_singleton, List.mem_singleton] at hb
    rw [hb]
    exact h.absent w hw
  waits w hw := by
    dsimp only [State.put]
    rcases List.mem_append.mp hw with hw | hw
    · have hwaits := h.waits w hw
      rw [Function.update_of_ne (h.absent w hw)]
      exact hwaits
    · rw [List.mem_singleton.mp hw, Function.update_self]
      exact ⟨⟨timeout, rfl⟩, hcancelled⟩
  unsatisfied w hw := by
    rcases List.mem_append.mp hw with hw | hw
    · exact h.unsatisfied w hw
    · rw [List.mem_singleton.mp hw]
      exact htest
  deleted hd := by
    change s.isDeleted = true at hd
    rw [hdeleted] at hd
    cases hd
  threads j := by
    dsimp only [State.put]
    by_cases hj : j = i
    · rw [hj, Function.update_self]
      unfold ThreadOk
      dsimp only
      rw [hcancelled]
      exact ⟨List.mem_append_right _ (List.mem_singleton_self _), hclears⟩
    · rw [Function.update_of_ne hj]
      exact (h.threads j hj).queue fun _ hmem => List.mem_append_left _ hmem

omit [DecidableEq ι] in
-- Bits are taken from the value.
theorem Invariant.lower (h : Invariant s) {value : BitVec 64} (hw : Within value s.value) :
    Invariant { s with value := value } :=
  ⟨h.nodup, h.waits, fun w hm => Pattern.test_mono (h.unsatisfied w hm) hw, h.deleted, h.threads⟩

-- A sleeping thread takes itself from the queue.
theorem Invariant.unqueue (h : Invariant s) {timeout : Option Nat}
    (hpc : (s.threads i).pc = .asleep p timeout) : Without (s.unqueue i p) i := by
  unfold State.unqueue
  split
  · rename_i hcancelled
    have hsub : (s.waitingThreads.filter fun w => w ≠ ⟨p, i⟩).Sublist s.waitingThreads :=
      List.filter_sublist
    refine ⟨h.nodup.sublist (hsub.map _), fun w hw => h.waits w (hsub.subset hw),
      fun w hw => h.unsatisfied w (hsub.subset hw), ?_, ?_, ?_⟩
    · intro hdeleted
      dsimp only
      rw [h.deleted hdeleted]
      rfl
    · intro w hw heq
      obtain ⟨hmem, hne⟩ := List.mem_filter.mp hw
      obtain ⟨⟨timeout', hpc'⟩, _⟩ := h.waits w hmem
      rw [heq, hpc] at hpc'
      obtain ⟨pattern, thread⟩ := w
      change thread = i at heq
      cases hpc'
      subst heq
      exact absurd rfl (of_decide_eq_true hne)
    · intro j hj
      apply (h.threads j).queue
      intro p' hmem
      have hne : (⟨p', j⟩ : WaitingThread ι) ≠ ⟨p, i⟩ := by
        intro heq
        cases heq
        exact hj rfl
      exact List.mem_filter.mpr ⟨hmem, decide_eq_true hne⟩
  · rename_i hcancelled
    exact h.without fun _ _ _ => hcancelled

-- The loop of wait from its head on.
theorem Without.round (h : Without s i) {timeout : Option Nat} {result : ErrorCode}
    (hnone : (s.threads i).evfIsCancelled = none →
      (s.threads i).clears = [] ∧ (result = .ok ∨ p.test s.value = false))
    (htrue : (s.threads i).evfIsCancelled = some true → (s.threads i).clears = [])
    (hfalse : (s.threads i).evfIsCancelled = some false →
      if s.isDeleted then Harmless (s.threads i) p else Released (s.threads i) p ∧ result = .ok) :
    Invariant (s.round i p timeout result) := by
  unfold State.round
  dsimp only
  split
  · rename_i hdeleted
    rw [if_pos hdeleted] at hfalse
    apply h.put
    unfold ThreadOk
    dsimp only
    cases hcancelled : (s.threads i).evfIsCancelled with
    | none => exact truthful_of_failed (hnone hcancelled).1 nofun
    | some canceled =>
        cases canceled with
        | true => exact truthful_of_failed (htrue hcancelled) nofun
        | false => exact truthful_of_harmless (hfalse hcancelled)
  · rename_i hdeleted
    rw [if_neg hdeleted] at hfalse
    split
    · rename_i hcancelled
      exact h.put (truthful_of_failed (htrue hcancelled) nofun)
    · rename_i hcanceled
      split
      · rename_i hcancelled
        obtain ⟨hreleased, rfl⟩ := hfalse hcancelled
        exact h.put (truthful_of_released hreleased)
      · rename_i hset
        have hcancelled : (s.threads i).evfIsCancelled = none := by
          cases hc : (s.threads i).evfIsCancelled with
          | none => rfl
          | some canceled =>
              cases canceled with
              | true => exact absurd hc hcanceled
              | false => exact absurd hc hset
        obtain ⟨hclears, hresult⟩ := hnone hcancelled
        split
        · rename_i htest
          rcases hresult with rfl | hresult
          · have hreleased : Truthful { s.threads i with
                pc := .returned p .ok
                evfResultPattern := s.value
                clears := s.value :: (s.threads i).clears } p .ok := by
              apply truthful_of_released
              rw [hclears]
              exact ⟨rfl, htest⟩
            have hput : Invariant (s.put i { s.threads i with
                pc := .returned p .ok
                evfResultPattern := s.value
                clears := s.value :: (s.threads i).clears }) := h.put hreleased
            exact hput.lower Pattern.applyClear_within
          · rw [hresult] at htest
            cases htest
        · rename_i htest
          split
          · exact h.put (truthful_of_failed hclears nofun)
          · split
            · exact h.put (truthful_of_failed hclears nofun)
            · rw [Bool.not_eq_true] at htest hdeleted
              exact h.sleep hdeleted hcancelled hclears htest

end Without

section Notify

variable {type : NotifyType} {bits : BitVec 64}

-- What a notification does to a waiter, with the value that is offered to it.
theorem notify_waiter (h : Invariant s) (type : NotifyType) (bits : BitVec 64)
    {w : WaitingThread ι} (hw : w ∈ s.waitingThreads) :
    w ∈ (s.notify type bits).1.waitingThreads ∧
        (s.notify type bits).1.threads w.thread = s.threads w.thread ∨
      ∃ v, (type = .set → w.test v = true) ∧ (type = .destroy →
          (∀ w ∈ s.waitingThreads, w.applyClear s.value = s.value) → v = s.value) ∧
        w ∉ (s.notify type bits).1.waitingThreads ∧
        (s.notify type bits).1.threads w.thread = (s.threads w.thread).release type v := by
  obtain ⟨before, after, hsplit⟩ := List.append_of_mem hw
  have hat := eraseIf_at type (s.offered type bits) s.threads h.nodup hsplit
  dsimp only at hat
  split at hat
  · exact Or.inl hat
  · rename_i htest
    refine Or.inr ⟨_, ?_, ?_, hat⟩
    · intro hset
      rw [← Bool.not_eq_false]
      exact fun hfalse => htest ⟨hset, hfalse⟩
    · rintro rfl hquiet
      apply eraseIf_quiet
      intro w hw
      apply hquiet
      rw [hsplit]
      exact List.mem_append_left _ hw

theorem notify_other (type : NotifyType) (bits : BitVec 64)
    (hi : ∀ w ∈ s.waitingThreads, w.thread ≠ i) :
    (s.notify type bits).1.threads i = s.threads i :=
  eraseIf_other type hi _ _

theorem notify_mem {w : WaitingThread ι} (hw : w ∈ (s.notify type bits).1.waitingThreads) :
    w ∈ s.waitingThreads ∧ type = .set ∧ w.test (s.notify type bits).1.value = false := by
  have hunsatisfied := eraseIf_unsatisfied hw
  refine ⟨(eraseIf_sublist ..).subset hw, hunsatisfied.1, ?_⟩
  unfold State.notify
  dsimp only
  rw [if_neg (by rw [hunsatisfied.1]; nofun)]
  exact hunsatisfied.2

omit [DecidableEq ι] in
theorem ThreadOk.deleted {queue : List (WaitingThread ι)} (h : ThreadOk false queue i t)
    (hawake : ∀ p timeout, t.pc = .asleep p timeout → t.evfIsCancelled ≠ some false) :
    ThreadOk true queue i t := by
  unfold ThreadOk at h ⊢
  cases hpc : t.pc with
  | asleep p timeout =>
      rw [hpc] at h
      dsimp only at h ⊢
      cases hcancelled : t.evfIsCancelled with
      | none =>
          rw [hcancelled] at h
          exact h
      | some canceled =>
          rw [hcancelled] at h
          cases canceled with
          | true => exact h
          | false => exact absurd hcancelled (hawake p timeout hpc)
  | _ =>
      rw [hpc] at h
      exact h

-- A thread that is not in the queue.
theorem Invariant.notify_absent (h : Invariant s) (hcalm : Calm s (.notify type bits))
    (hi : ∀ w ∈ s.waitingThreads, w.thread ≠ i) :
    ThreadOk (s.notify type bits).1.isDeleted (s.notify type bits).1.waitingThreads i
      (s.threads i) := by
  have hqueue : ∀ p, ⟨p, i⟩ ∈ s.waitingThreads → ⟨p, i⟩ ∈ (s.notify type bits).1.waitingThreads :=
    fun p hmem => absurd rfl (hi _ hmem)
  have hok := (h.threads i).queue hqueue
  have hnew : (s.notify type bits).1.isDeleted = (s.isDeleted || decide (type = .destroy)) := rfl
  rw [hnew]
  cases hdeleted : s.isDeleted with
  | true =>
      rw [hdeleted] at hok
      exact hok
  | false =>
      rw [hdeleted] at hok
      cases type with
      | set => exact hok
      | cancel => exact hok
      | destroy => exact hok.deleted (hcalm.2 hdeleted i)

-- A thread of the queue.
theorem Invariant.notify_present (h : Invariant s) (hcalm : Calm s (.notify type bits))
    {w : WaitingThread ι} (hw : w ∈ s.waitingThreads) :
    ThreadOk (s.notify type bits).1.isDeleted (s.notify type bits).1.waitingThreads w.thread
      ((s.notify type bits).1.threads w.thread) := by
  obtain ⟨⟨timeout, hpc⟩, hcancelled⟩ := h.waits w hw
  have hclears : (s.threads w.thread).clears = [] := by
    have hok := h.threads w.thread
    unfold ThreadOk at hok
    rw [hpc] at hok
    dsimp only at hok
    rw [hcancelled] at hok
    exact hok.2
  have hdeleted : s.isDeleted = false := by
    cases hd : s.isDeleted with
    | false => rfl
    | true =>
        rw [h.deleted hd] at hw
        cases hw
  rcases notify_waiter h type bits hw with ⟨hkept, hsame⟩ | ⟨v, htest, hquiet, _, hthread⟩
  · rw [hsame]
    unfold ThreadOk
    rw [hpc]
    dsimp only
    rw [hcancelled]
    exact ⟨hkept, hclears⟩
  · rw [hthread]
    unfold ThreadOk Thread.release
    dsimp only
    rw [hpc, hclears]
    have hnew : (s.notify type bits).1.isDeleted = decide (type = .destroy) := by
      change (s.isDeleted || decide (type = .destroy)) = _
      rw [hdeleted, Bool.false_or]
    rw [hnew]
    cases type with
    | set => exact ⟨rfl, htest rfl⟩
    | cancel => exact rfl
    | destroy =>
        intro v' hv'
        change v' ∈ [v] at hv'
        rw [List.mem_singleton.mp hv', hquiet rfl hcalm.1]
        exact ⟨h.unsatisfied w hw, hcalm.1 w hw⟩

theorem Invariant.notify (h : Invariant s) (hcalm : Calm s (.notify type bits)) :
    Invariant (s.notify type bits).1 where
  nodup := h.nodup.sublist ((eraseIf_sublist ..).map _)
  waits w hw := by
    obtain ⟨hmem, hset, _⟩ := notify_mem hw
    rcases notify_waiter h type bits hmem with ⟨_, hsame⟩ | ⟨v, _, _, hgone, _⟩
    · rw [hsame]
      exact h.waits w hmem
    · exact absurd hw hgone
  unsatisfied w hw := (notify_mem hw).2.2
  deleted hdeleted := by
    apply List.eq_nil_iff_forall_not_mem.mpr
    intro w hw
    obtain ⟨hmem, rfl, _⟩ := notify_mem hw
    change (s.isDeleted || false) = true at hdeleted
    rw [Bool.or_false] at hdeleted
    rw [h.deleted hdeleted] at hmem
    cases hmem
  threads i := by
    by_cases hi : ∃ w ∈ s.waitingThreads, w.thread = i
    · obtain ⟨w, hw, rfl⟩ := hi
      exact h.notify_present hcalm hw
    · have habsent : ∀ w ∈ s.waitingThreads, w.thread ≠ i := fun w hw heq => hi ⟨w, hw, heq⟩
      rw [notify_other type bits habsent]
      exact h.notify_absent hcalm habsent

end Notify

section Runs

omit [DecidableEq ι] in
theorem Invariant.start (single : Bool) (initPattern : BitVec 64) :
    Invariant (State.start single initPattern : State ι) :=
  ⟨List.nodup_nil, nofun, nofun, fun _ => rfl, fun _ => trivial⟩

omit [DecidableEq ι] in
theorem Invariant.free (h : Invariant s) (hfree : (s.threads i).pc.Free) : Without s i := by
  apply h.without
  intro p timeout hpc
  rw [hpc] at hfree
  exact absurd hfree id

theorem Invariant.tryWait (h : Invariant s) (hfree : (s.threads i).pc.Free) :
    Invariant (s.tryWait i p) := by
  have hw := h.free hfree
  unfold State.tryWait
  dsimp only
  split
  · exact hw.put (truthful_of_failed rfl nofun)
  · split
    · rename_i htest
      have hreleased : Truthful { s.threads i with
          pc := .returned p .ok
          evfResultPattern := s.value
          clears := [s.value] } p .ok := truthful_of_released ⟨rfl, htest⟩
      have hput : Invariant (s.put i { s.threads i with
          pc := .returned p .ok
          evfResultPattern := s.value
          clears := [s.value] }) := hw.put hreleased
      exact hput.lower Pattern.applyClear_within
    · exact hw.put (truthful_of_failed rfl nofun)

theorem Invariant.wake (h : Invariant s) {timeout timeout' : Option Nat} {code : ErrorCode}
    {remaining : Nat} (hpc : (s.threads i).pc = .asleep p timeout)
    (hcalm : Calm s (.wake i code remaining)) :
    Invariant ((s.unqueue i p).round i p timeout' code) := by
  have hok := h.threads i
  unfold ThreadOk at hok
  rw [hpc] at hok
  dsimp only at hok
  have hthreads : (s.unqueue i p).threads = s.threads := by
    unfold State.unqueue
    split <;> rfl
  have hvalue : (s.unqueue i p).value = s.value := by
    unfold State.unqueue
    split <;> rfl
  have hdeleted : (s.unqueue i p).isDeleted = s.isDeleted := by
    unfold State.unqueue
    split <;> rfl
  apply (h.unqueue hpc).round
  all_goals
    rw [hthreads]
    intro hcancelled
    rw [hcancelled] at hok
  · rw [hvalue]
    exact ⟨hok.2, Or.inr (h.unsatisfied _ hok.1)⟩
  · exact hok
  · rw [hdeleted]
    dsimp only at hok
    cases hd : s.isDeleted with
    | true =>
        rw [hd] at hok
        exact hok
    | false =>
        rw [hd] at hok
        exact ⟨hok, hcalm hd hcancelled⟩

theorem Invariant.step (h : Invariant s) {action : Action ι} (hcalm : Calm s action)
    (hstep : step s action = some s') : Invariant s' := by
  cases action with
  | call i p timeout =>
      simp only [EventFlag.step] at hstep
      split at hstep
      · rename_i hfree
        cases hstep
        exact (h.free hfree).put ⟨rfl, rfl⟩
      · cases hstep
  | enter i =>
      simp only [EventFlag.step] at hstep
      split at hstep
      · rename_i p timeout hpc
        cases hstep
        have hok := h.threads i
        unfold ThreadOk at hok
        rw [hpc] at hok
        have hawake : ∀ p timeout, (s.threads i).pc = .asleep p timeout →
            (s.threads i).evfIsCancelled ≠ none := by
          intro p' timeout' hpc'
          rw [hpc] at hpc'
          cases hpc'
        apply (h.without hawake).round
        · exact fun _ => ⟨hok.2, Or.inl rfl⟩
        · exact fun _ => hok.2
        · intro hcancelled
          rw [hok.1] at hcancelled
          cases hcancelled
      · cases hstep
  | wake i code remaining =>
      simp only [EventFlag.step] at hstep
      split at hstep
      · rename_i p timeout hpc
        cases hstep
        exact h.wake hpc hcalm
      · cases hstep
  | tryWait i p =>
      simp only [EventFlag.step] at hstep
      split at hstep
      · rename_i hfree
        cases hstep
        exact h.tryWait hfree
      · cases hstep
  | notify type bits =>
      cases hstep
      exact h.notify hcalm
  | clear bits =>
      cases hstep
      exact h.lower within_and_left

theorem Invariant.setEffect (h : Invariant s) (bits : BitVec 64) : SetEffect s bits where
  value := by
    unfold State.notify State.offered
    dsimp only
    rw [if_neg nofun, if_pos rfl]
    exact eraseIf_set ..
  waiter before w after hsplit := by
    have hat := eraseIf_at .set (s.offered .set bits) s.threads h.nodup hsplit
    dsimp only at hat
    rw [eraseIf_set] at hat
    change if NotifyType.set = .set ∧ w.test (offerAll (s.value ||| bits) before) = false then
      _ else _ at hat
    cases htest : w.test (offerAll (s.value ||| bits) before) with
    | true =>
        rw [htest, if_neg (fun hf => nomatch hf.2)] at hat
        exact hat
    | false =>
        rw [htest, if_pos ⟨rfl, rfl⟩] at hat
        exact hat
  other i hi := notify_other .set bits hi
  order := eraseIf_sublist ..
  result := eraseIf_length ..
  isDeleted := Bool.or_false _

theorem Invariant.sound (h : Invariant s) : Sound s where
  set := h.setEffect
  returned i p result hpc := by
    have hok := h.threads i
    unfold ThreadOk at hok
    rw [hpc] at hok
    exact hok
  nodup := h.nodup
  waits w hw := (h.waits w hw).1

-- In a run whose steps are calm the flag is sound in every state.
theorem event_flag_sound {single : Bool} {initPattern : BitVec 64}
    (h : Relation.ReflTransGen CalmStep (State.start single initPattern) s) : Sound s := by
  have hinv : Invariant s := by
    apply Interleaving.invariant_of_reachable (Invariant.start single initPattern) _ h
    rintro s s' hinv ⟨action, hcalm, hstep⟩
    exact hinv.step hcalm hstep
  exact hinv.sound

end Runs

-- A thread waits for a bit, and takes it.
def oneBit : Pattern := ⟨1, 0x21⟩

theorem event_flag_sound_wait : ∃ s : State Bool,
    Relation.ReflTransGen CalmStep (State.start false 0) s ∧
      (s.threads true).evfResultPattern = 1 ∧ Sound s := by
  obtain ⟨s, hrun, hpattern⟩ : ∃ s : State Bool,
      Relation.ReflTransGen CalmStep (State.start false 0) s ∧
        (s.threads true).evfResultPattern = 1 := by
    refine ⟨_, .head ⟨.call true oneBit none, trivial, rfl⟩ (.head ⟨.enter true, trivial, rfl⟩
      (.head ⟨.notify .set 1, trivial, rfl⟩ (.single ⟨.wake true .ok 0, ?_, rfl⟩))), rfl⟩
    exact fun _ _ => rfl
  exact ⟨s, hrun, hpattern, event_flag_sound hrun⟩

-- The sleep of a thread ends with a time-out after Set has released it.
def lateRelease : List (Action Bool) :=
  [.call true oneBit (some 10), .enter true, .notify .set 1, .wake true .TIMEDOUT 0]

theorem taken_bits_reported_as_timeout : ¬∀ s : State Bool,
    Relation.ReflTransGen Step (State.start false 0) s → Sound s := by
  intro hclaim
  obtain ⟨s, hrun, hpc, hclears⟩ : ∃ s : State Bool, lateRelease.foldlM step (State.start false 0) = some s ∧
      (s.threads true).pc = .returned oneBit .TIMEDOUT ∧ (s.threads true).clears = [1] :=
    ⟨_, rfl, rfl, rfl⟩
  have hreach : Relation.ReflTransGen Step (State.start false 0) s :=
    Interleaving.reachable_of_foldlM (fun _ action _ h => ⟨action, h⟩) hrun
  have htruthful := (hclaim s hreach).returned true oneBit .TIMEDOUT hpc
  have hkept := htruthful.kept (Or.inl rfl) 1 (by rw [hclears]; exact List.mem_singleton_self 1)
  exact absurd hkept (by decide)

end Rpcsx.Orbis.EventFlag
