import Rpcsx.Data.Interleaving
import Rpcsx.Orbis.UmtxChain.Queue

namespace Rpcsx.Orbis.UmtxChain

variable {κ : Type} [DecidableEq κ]

-- What notify_n does to the queue: the first `count` threads on the key are notified, and nothing
-- else happens to any thread.
structure Released (s s' : State κ) (key : κ) (count : Nat) : Prop where
  queue : s'.queued key = (s.queued key).drop count
  other : ∀ key', key' ≠ key → s'.queued key' = s.queued key'
  notified : ∀ i ∈ (s.queued key).take count, (s'.threads i).endings = [.notified]
  untouched : ∀ i, i ∉ (s.queued key).take count → s'.threads i = s.threads i

-- The claims about a state. In `waits` the thread is in its queue, or one notify has targeted it.
structure Sound (s : State κ) : Prop where
  notify : ∀ key (count : Int), 0 < count →
    (s.notifyN key count).2 = min count.toNat (s.queued key).length ∧
      Released s (s.notifyN key count).1 key count.toNat
  queue : ∀ key, (s.queued key).Nodup
  queued : ∀ key, ∀ i ∈ s.queued key,
    (s.threads i).endings = [] ∧ ∃ w node, (s.threads i).pc = .asleep w node ∧ w.key = key
  waits : ∀ i w node, (s.threads i).pc = .asleep w node →
    ((s.threads i).endings = [] ∧ i ∈ s.queued w.key) ∨ (s.threads i).endings = [.notified]
  returned : ∀ i w slept reused result, (s.threads i).pc = .returned w slept reused result →
    ((s.threads i).endings = [.notified] ∨ (s.threads i).endings = [.erased i]) ∧
      (slept = true → result = .ok → (s.threads i).endings = [.notified])
  own : ∀ i j, .erased j ∈ (s.threads i).endings → j = i
  reused : ∀ i w slept result, (s.threads i).pc = .returned w slept true result →
    (s.threads i).endings = [.notified] ∧ result ≠ .TIMEDOUT
  hasWaiters : ∀ key, ∀ i ∈ s.queued key, ∀ w node, (s.threads i).pc = .asleep w node →
    w.kind ≠ .wait → s.hasWaiters key = true

section Notify

variable {s : State κ} {e : Entry κ} {key : κ}

-- The first entry with the key, and the queues without it.
theorem State.find_queued
    (hfind : (s.sleepQueue.find? fun e => e.key = key) = some e) :
    e ∈ s.sleepQueue ∧ s.queued key = e.waiter :: (s.release e).queued key ∧
      ∀ key', key' ≠ key → (s.release e).queued key' = s.queued key' := by
  obtain ⟨hkey, before, after, hlist, hbefore⟩ := List.find?_eq_some_iff_append.mp hfind
  have hkey : e.key = key := by simpa using hkey
  have hbefore : ∀ e' ∈ before, e'.key ≠ key := by
    intro e' he'
    simpa using hbefore e' he'
  have hnot : e ∉ before := fun hmem => hbefore e hmem hkey
  have herase : s.sleepQueue.erase e = before ++ after := by
    rw [hlist, List.erase_append_right _ hnot, List.erase_cons_head]
  have hnone : (before.filter fun e => e.key = key) = [] := by
    rw [List.filter_eq_nil_iff]
    intro e' he'
    simpa using hbefore e' he'
  refine ⟨List.mem_of_find?_eq_some hfind, ?_, ?_⟩
  · unfold State.queued State.release State.recycle
    dsimp only
    rw [herase, hlist, List.filter_append, List.filter_append, hnone,
      List.filter_cons_of_pos (by simpa using hkey)]
    rfl
  · intro key' hne
    unfold State.queued State.release State.recycle
    dsimp only
    rw [herase, hlist, List.filter_append, List.filter_append,
      List.filter_cons_of_neg (by simpa [hkey] using hne.symm)]

theorem Invariant.release_threads (h : Invariant s) (he : e ∈ s.sleepQueue) :
    ((s.release e).threads e.waiter).endings = [.notified] ∧
      ∀ i, i ≠ e.waiter → (s.release e).threads i = s.threads i := by
  obtain ⟨w, hpc, -, hnone, -⟩ := h.waiting e he
  unfold State.release State.recycle
  dsimp only
  constructor
  · rw [Function.update_self, hnone]
    rfl
  · intro i hi
    rw [Function.update_of_ne hi]

theorem Invariant.notifyLoop (key : κ) (count : Nat) (h : Invariant s) :
    Invariant (State.notifyLoop key count s).1 ∧
      (State.notifyLoop key count s).2 = min count (s.queued key).length ∧
      Released s (State.notifyLoop key count s).1 key count ∧
      (State.notifyLoop key count s).1.hasWaiters = s.hasWaiters := by
  induction count generalizing s with
  | zero => exact ⟨h, (Nat.zero_min _).symm, ⟨rfl, fun _ _ => rfl, nofun, fun _ _ => rfl⟩, rfl⟩
  | succ count ih =>
      unfold State.notifyLoop
      split
      · rename_i e hfind
        obtain ⟨he, hqueue, hother⟩ := State.find_queued hfind
        obtain ⟨hnotified, huntouched⟩ := h.release_threads he
        obtain ⟨hinv, hcount, hreleased, hwaiters⟩ := ih (h.release he)
        have hnodup := h.queued_nodup key
        rw [hqueue] at hnodup
        have hgone : e.waiter ∉ (s.release e).queued key := (List.nodup_cons.mp hnodup).1
        refine ⟨hinv, ?_, ⟨?_, ?_, ?_, ?_⟩, hwaiters⟩
        · dsimp only
          rw [hcount, hqueue, List.length_cons]
          omega
        · rw [hqueue, List.drop_succ_cons]
          exact hreleased.queue
        · intro key' hne
          exact (hreleased.other key' hne).trans (hother key' hne)
        · intro i hi
          rw [hqueue, List.take_succ_cons] at hi
          rcases List.mem_cons.mp hi with hfirst | hrest
          · rw [hfirst, hreleased.untouched _ fun hmem => hgone (List.mem_of_mem_take hmem)]
            exact hnotified
          · exact hreleased.notified i hrest
        · intro i hi
          rw [hqueue, List.take_succ_cons, List.mem_cons, not_or] at hi
          exact (hreleased.untouched i hi.2).trans (huntouched i hi.1)
      · rename_i hfind
        have hnone : s.queued key = [] := by
          rw [List.eq_nil_iff_forall_not_mem]
          intro i hi
          obtain ⟨e, he, hkey, -⟩ := State.mem_queued.mp hi
          exact List.find?_eq_none.mp hfind e he (by simpa using hkey)
        refine ⟨h, ?_, ⟨?_, fun _ _ => rfl, ?_, fun _ _ => rfl⟩, rfl⟩
        · rw [hnone, List.length_nil, Nat.min_zero]
        · rw [hnone, List.drop_nil]
        · rw [hnone, List.take_nil]
          nofun

-- notify_all leaves nobody on the key.
theorem Invariant.notifyAll (key : κ) (h : Invariant s) :
    Invariant (s.notifyAll key).1 ∧ (s.notifyAll key).1.queued key = [] := by
  obtain ⟨hinv, -, hreleased, -⟩ := h.notifyLoop key sintMax.toNat
  refine ⟨hinv, ?_⟩
  rw [State.notifyAll, State.notifyN, hreleased.queue]
  exact List.drop_eq_nil_of_le (h.queued_length_le key)

-- has_waiters may be cleared when nobody is queued on the key.
theorem Invariant.clearWaiters (h : Invariant s) (hnone : s.queued key = []) :
    Invariant (s.setHasWaiters key false) where
  nodup := h.nodup
  made := h.made
  field := h.field
  waiting e he := by
    obtain ⟨w, hpc, hkey, hends, hw⟩ := h.waiting e he
    refine ⟨w, hpc, hkey, hends, ?_⟩
    intro hkind
    have hne : e.key ≠ key := by
      intro heq
      have hmem : e.waiter ∈ s.queued key := State.mem_queued.mpr ⟨e, he, heq, rfl⟩
      rw [hnone] at hmem
      cases hmem
    exact (Function.update_of_ne hne ..).trans (hw hkind)
  threads := h.threads

theorem Invariant.signal (h : Invariant s) (shared : κ → Bool) :
    Invariant (s.signal shared key) := by
  unfold State.signal
  split
  · obtain ⟨hinv, hnone⟩ := h.notifyAll key
    exact hinv.clearWaiters hnone
  · obtain ⟨hinv, hcount, hreleased, -⟩ := h.notifyLoop key 1
    split
    · rename_i hle
      apply hinv.clearWaiters
      rw [hreleased.queue]
      apply List.drop_eq_nil_of_le
      rw [State.notifyOne, State.notifyN, show (1 : Int).toNat = 1 from rfl, hcount] at hle
      omega
    · exact hinv

end Notify

section Wait

variable {s : State κ} {i : Tid} {w : Wait κ} {node : Nat}

omit [DecidableEq κ] in
theorem State.put_self {t : Thread κ} : (s.put i t).threads i = t := Function.update_self ..

-- A waiting call up to its sleep.
theorem Invariant.enter (h : Invariant s) (hfree : (s.threads i).pc.free = true) :
    ∃ node, Invariant (s.enter i w) ∧ ((s.enter i w).threads i).pc = .asleep w node ∧
      (s.enter i w).thr node = some i := by
  have hwaiters : ∀ key, s.hasWaiters key = true →
      Function.update s.hasWaiters w.key true key = true := by
    intro key hset
    rw [Function.update_apply]
    split
    · rfl
    · exact hset
  unfold State.enter State.enqueue
  cases hspare : s.spareQueue with
  | cons node rest =>
      have hnodup := h.nodup
      have hmade := h.made
      rw [hspare] at hnodup hmade
      refine ⟨node, ?_⟩
      dsimp only
      split
      · rename_i hkind
        exact ⟨h.insert hfree hnodup hmade (fun _ hset => hset) (absurd hkind),
          congrArg Thread.pc State.put_self, Function.update_self ..⟩
      · exact ⟨h.insert hfree hnodup hmade hwaiters fun _ => Function.update_self ..,
          congrArg Thread.pc State.put_self, Function.update_self ..⟩
  | nil =>
      have hnodup : (s.sleepQueue.map Entry.node ++ [s.nodes]).Nodup := by
        have hqueue := (List.nodup_append.mp h.nodup).1
        refine List.nodup_append.mpr ⟨hqueue, List.nodup_singleton _, ?_⟩
        intro a ha b hb heq
        have hlt := h.made a (List.mem_append_left _ ha)
        rw [heq, List.mem_singleton.mp hb] at hlt
        exact absurd hlt (Nat.lt_irrefl _)
      have hmade : ∀ n ∈ s.sleepQueue.map Entry.node ++ [s.nodes], n < s.nodes + 1 := by
        intro n hn
        rcases List.mem_append.mp hn with hold | hnew
        · exact Nat.lt_succ_of_lt (h.made n (List.mem_append_left _ hold))
        · rw [List.mem_singleton.mp hnew]
          exact Nat.lt_succ_self _
      refine ⟨s.nodes, ?_⟩
      dsimp only
      split
      · rename_i hkind
        exact ⟨h.insert hfree hnodup hmade (fun _ hset => hset) (absurd hkind),
          congrArg Thread.pc State.put_self, Function.update_self ..⟩
      · exact ⟨h.insert hfree hnodup hmade hwaiters fun _ => Function.update_self ..,
          congrArg Thread.pc State.put_self, Function.update_self ..⟩

-- A thread whose node is still its own takes it out of the queue.
theorem Invariant.leave_own (h : Invariant s) (hpc : (s.threads i).pc = .asleep w node)
    (hmine : s.thr node = some i) {slept : Bool} {result : ErrorCode}
    (hresult : slept = true → result ≠ .ok) :
    Invariant ((s.erase i node).put i
      { (s.erase i node).threads i with pc := .returned w slept false result }) := by
  obtain ⟨hends, hmem⟩ := h.queued_of_mine hpc hmine
  rw [h.erase_own hpc hmine]
  have hput := h.dequeue hmem (t := ⟨.returned w slept false result, [.erased i]⟩) (Or.inl rfl)
    ⟨Or.inr rfl, fun hslept hok => absurd hok (hresult hslept), nofun⟩
  unfold State.recycle State.put
  dsimp only
  rw [Function.update_self, Function.update_idem, hends]
  exact hput

omit [DecidableEq κ] in
-- A thread that has been notified leaves, whoever has its node now.
theorem Invariant.leave_other (h : Invariant s) (hpc : (s.threads i).pc = .asleep w node)
    (hmine : s.thr node ≠ some i) {slept reused : Bool} {result : ErrorCode}
    (hreused : reused = true → result ≠ .TIMEDOUT) :
    Invariant (s.put i { s.threads i with pc := .returned w slept reused result }) := by
  have hends := h.notified_of_not_mine hpc hmine
  have hother : ∀ e ∈ s.sleepQueue, e.waiter ≠ i := by
    intro e he
    apply h.not_queued_of_notified _ he
    rw [hends]
    nofun
  refine ⟨h.nodup, h.made, h.field, ?_, ?_⟩
  · intro e he
    obtain ⟨w', hw⟩ := h.waiting e he
    refine ⟨w', ?_⟩
    unfold State.put
    dsimp only
    rw [Function.update_of_ne (hother e he)]
    exact hw
  · intro j
    unfold State.put
    dsimp only
    by_cases hj : j = i
    · rw [hj, Function.update_self]
      exact ⟨Or.inl hends, fun _ _ => hends, fun htrue => ⟨hends, hreused htrue⟩⟩
    · rw [Function.update_of_ne hj]
      exact h.threads j

theorem Invariant.finish (h : Invariant s) (hpc : (s.threads i).pc = .asleep w node)
    {slept : Bool} {result : ErrorCode}
    (hresult : slept = true → s.thr node = some i → result ≠ .ok)
    (hreused : w.kind = .wait → (∃ j, j ≠ i ∧ s.thr node = some j) → result ≠ .TIMEDOUT) :
    Invariant (s.finish i w node slept result) := by
  by_cases hmine : s.thr node = some i
  · have hleave := h.leave_own hpc hmine fun hslept => hresult hslept hmine
    cases hkind : w.kind with
    | wait | sem => simpa [State.finish, hmine, hkind] using hleave
    | cv =>
        simp only [State.finish, hmine, hkind, if_true, decide_true, Bool.not_true, Bool.false_and]
        split
        · rename_i hnone
          exact hleave.clearWaiters hnone
        · exact hleave
  · cases hkind : w.kind with
    | cv | sem =>
        have hleave : Invariant (s.put i { s.threads i with
            pc := .returned w slept (s.thr node).isSome .ok }) := h.leave_other hpc hmine nofun
        simpa [State.finish, hmine, hkind] using hleave
    | wait =>
        have hleave : Invariant (s.put i { s.threads i with
            pc := .returned w slept (s.thr node).isSome result }) := by
          apply h.leave_other hpc hmine
          intro hsome
          obtain ⟨j, hj⟩ := Option.isSome_iff_exists.mp hsome
          refine hreused hkind ⟨j, ?_, hj⟩
          intro heq
          rw [heq] at hj
          exact hmine hj
        simpa [State.finish, hmine, hkind] using hleave

end Wait

section Run

variable {s s' : State κ} {shared : κ → Bool}

-- umtx_wait does not come back from its sleep with a time-out when another thread has its node.
def Calm (s : State κ) : Action κ → Prop
  | .wake i code _ => ∀ w node j, (s.threads i).pc = .asleep w node → w.kind = .wait →
      s.thr node = some j → j ≠ i → code ≠ .TIMEDOUT
  | _ => True

theorem Invariant.wake (h : Invariant s) {i : Tid} {w : Wait κ} {node : Nat} {code : ErrorCode}
    {expired : Bool} (hpc : (s.threads i).pc = .asleep w node)
    (hcalm : Calm s (.wake i code expired)) (hwake : s.wake i w node code expired = some s') :
    Invariant s' := by
  have hother : w.kind = .wait → (∃ j, j ≠ i ∧ s.thr node = some j) → code ≠ .TIMEDOUT := by
    rintro hkind ⟨j, hne, hj⟩
    exact hcalm w node j hpc hkind hj hne
  have hmine_only : s.thr node = some i → ¬ ∃ j, j ≠ i ∧ s.thr node = some j := by
    rintro hmine ⟨j, hne, hj⟩
    rw [hmine] at hj
    exact hne (Option.some.inj hj).symm
  simp only [State.wake] at hwake
  split at hwake
  · split at hwake
    · rename_i hmine
      cases hwake
      exact h.finish hpc (fun _ heq => absurd heq hmine) hother
    · rename_i hmine
      have hmine := not_not.mp hmine
      split at hwake
      · cases hwake
        exact h.finish hpc nofun fun _ hex => absurd hex (hmine_only hmine)
      · split at hwake
        · rename_i hcode
          cases hwake
          exact h.finish hpc (fun _ _ => hcode) hother
        · cases hwake
          exact h
  · split at hwake
    · cases hwake
    · split at hwake
      · rename_i hend
        cases hwake
        refine h.finish hpc (fun _ hmine => ?_) hother
        rcases hend with hcode | hnot
        · exact hcode
        · exact absurd hmine hnot
      · cases hwake
        exact h

theorem Invariant.wait (h : Invariant s) {i : Tid} {w : Wait κ} {sleeps : Bool}
    {error : ErrorCode} (hfree : (s.threads i).pc.free = true) :
    Invariant (s.wait i w sleeps error) := by
  obtain ⟨node, hinv, hpc, hmine⟩ := h.enter (w := w) hfree
  unfold State.wait
  dsimp only
  split
  · exact hinv
  · have hawake : false = true → (s.enter i w).thr node = some i → error ≠ .ok := nofun
    rw [hpc]
    apply hinv.finish hpc hawake
    rintro - ⟨j, hne, hj⟩
    rw [hmine] at hj
    exact absurd (Option.some.inj hj).symm hne

theorem Invariant.step (h : Invariant s) {action : Action κ} (hcalm : Calm s action)
    (hstep : step shared s action = some s') : Invariant s' := by
  cases action with
  | wait i w sleeps error =>
      simp only [UmtxChain.step] at hstep
      split at hstep
      · rename_i hguard
        cases hstep
        exact h.wait hguard.1
      · cases hstep
  | wake i code expired =>
      simp only [UmtxChain.step] at hstep
      split at hstep
      · rename_i w node hpc
        exact h.wake hpc hcalm hstep
      · cases hstep
  | wakePrivate key count =>
      cases hstep
      exact (h.notifyLoop key count.toNat).1
  | cvSignal key | semWake key =>
      cases hstep
      exact h.signal shared
  | cvBroadcast key =>
      cases hstep
      obtain ⟨hinv, hnone⟩ := h.notifyAll key
      exact hinv.clearWaiters hnone

theorem Invariant.sound (h : Invariant s) : Sound s where
  notify key count _ := by
    obtain ⟨-, hcount, hreleased, -⟩ := h.notifyLoop key count.toNat
    exact ⟨hcount, hreleased⟩
  queue := h.queued_nodup
  queued key i hi := by
    obtain ⟨e, he, hkey, hwaiter⟩ := State.mem_queued.mp hi
    obtain ⟨w, hpc, hw, hends, -⟩ := h.waiting e he
    rw [hwaiter] at hpc hends
    exact ⟨hends, w, e.node, hpc, hw.trans hkey⟩
  waits i w node hpc := by
    have hok := h.threads i
    unfold ThreadOk at hok
    rw [hpc] at hok
    rcases hok with ⟨hends, hmem⟩ | ⟨hends, -⟩
    · exact Or.inl ⟨hends, State.mem_queued.mpr ⟨_, hmem, rfl, rfl⟩⟩
    · exact Or.inr hends
  returned i w slept reused result hpc := by
    have hok := h.threads i
    unfold ThreadOk at hok
    rw [hpc] at hok
    exact ⟨hok.1, hok.2.1⟩
  own i j hmem := by
    have hok := h.threads i
    unfold ThreadOk at hok
    split at hok
    · rw [hok] at hmem
      cases hmem
    · rcases hok with ⟨hends, -⟩ | ⟨hends, -⟩ <;> rw [hends] at hmem
      · cases hmem
      · cases List.mem_singleton.mp hmem
    · rcases hok.1 with hends | hends <;> rw [hends] at hmem
      · cases List.mem_singleton.mp hmem
      · cases List.mem_singleton.mp hmem
        rfl
  reused i w slept result hpc := by
    have hok := h.threads i
    unfold ThreadOk at hok
    rw [hpc] at hok
    exact hok.2.2 rfl
  hasWaiters key i hi w node hpc hkind := by
    obtain ⟨e, he, hkey, hwaiter⟩ := State.mem_queued.mp hi
    obtain ⟨w', hpc', -, -, hset⟩ := h.waiting e he
    rw [hwaiter, hpc] at hpc'
    injection hpc' with hw
    rw [← hw, hkey] at hset
    exact hset hkind

def CalmStep (shared : κ → Bool) (s s' : State κ) : Prop :=
  ∃ action, step shared s action = some s' ∧ Calm s action

-- In every run in which no umtx_wait with a time-out loses its node before it looks.
theorem chain_sound (h : Relation.ReflTransGen (CalmStep shared) State.start s) : Sound s := by
  apply Invariant.sound
  refine Data.Interleaving.invariant_of_reachable Invariant.start ?_ h
  rintro s s' hinv ⟨action, hstep, hcalm⟩
  exact hinv.step hcalm hstep

end Run

section Examples

-- A thread waits with a time-out, and is notified when its sleep has already ended.
def notified : State Nat :=
  let s : State Nat := State.start.wait 0 ⟨.wait, 4096, true⟩ true .ok
  (s.notifyN 4096 1).1

-- Another thread waits on another key and gets the node of the first.
def recycled : State Nat := notified.wait 1 ⟨.wait, 8192, false⟩ true .ok

theorem recycled_reachable : Relation.ReflTransGen (CalmStep fun _ => false) State.start recycled :=
  .tail (.tail (.single ⟨.wait 0 ⟨.wait, 4096, true⟩ true .ok, rfl, trivial⟩)
    ⟨.wakePrivate 4096 1, rfl, trivial⟩) ⟨.wait 1 ⟨.wait, 8192, false⟩ true .ok, rfl, trivial⟩

theorem chain_sound_recycled : Sound recycled := chain_sound recycled_reachable

-- The first thread now reports that the time is over, although a notify has ended its wait.
theorem notified_wait_times_out :
    ∃ s, Relation.ReflTransGen (Step fun _ => false) (State.start : State Nat) s ∧ ¬ Sound s := by
  have hrun : Relation.ReflTransGen (Step fun _ => false) (State.start : State Nat) recycled :=
    recycled_reachable.lift id fun _ _ ⟨action, hstep, _⟩ => ⟨action, hstep⟩
  refine ⟨recycled.finish 0 ⟨.wait, 4096, true⟩ 0 true .TIMEDOUT,
    hrun.tail ⟨.wake 0 .TIMEDOUT true, rfl⟩, ?_⟩
  intro hsound
  exact (hsound.reused 0 ⟨.wait, 4096, true⟩ true .TIMEDOUT rfl).2 rfl

end Examples

end Rpcsx.Orbis.UmtxChain
