import Mathlib.Data.List.Basic
import Rpcsx.Orbis.UmtxChain

namespace Rpcsx.Orbis.UmtxChain

section Defs

variable {κ : Type}

-- What a thread is like that is not in the middle of a section.
def ThreadOk (sleepQueue : List (Entry κ)) (thr : Nat → Option Tid) (i : Tid) (t : Thread κ) :
    Prop :=
  match t.pc with
  | .idle => t.endings = []
  | .asleep w node =>
      (t.endings = [] ∧ ⟨w.key, node, i⟩ ∈ sleepQueue) ∨
        (t.endings = [.notified] ∧ thr node ≠ some i)
  | .returned _ slept reused result =>
      (t.endings = [.notified] ∨ t.endings = [.erased i]) ∧
        (slept = true → result = .ok → t.endings = [.notified]) ∧
        (reused = true → t.endings = [.notified] ∧ result ≠ .TIMEDOUT)

-- The thread of an entry sleeps at its node, and nothing has ended this sleep.
def Waiting (s : State κ) (e : Entry κ) : Prop :=
  ∃ w, (s.threads e.waiter).pc = .asleep w e.node ∧ w.key = e.key ∧
    (s.threads e.waiter).endings = [] ∧ (w.kind ≠ .wait → s.hasWaiters e.key = true)

-- A node is in one queue and once, and the field of a queued node names its own waiter. A field
-- of a spare node is void: it may name a thread that sleeps at another node.
structure Invariant (s : State κ) : Prop where
  nodup : (s.sleepQueue.map Entry.node ++ s.spareQueue).Nodup
  made : ∀ node ∈ s.sleepQueue.map Entry.node ++ s.spareQueue, node < s.nodes
  field : ∀ e ∈ s.sleepQueue, s.thr e.node = some e.waiter
  waiting : ∀ e ∈ s.sleepQueue, Waiting s e
  threads : ∀ i, ThreadOk s.sleepQueue s.thr i (s.threads i)

theorem Invariant.start [DecidableEq κ] : Invariant (State.start : State κ) where
  nodup := List.nodup_nil
  made := nofun
  field := nofun
  waiting := nofun
  threads _ := rfl

end Defs

section Queue

variable {κ : Type} {s : State κ} {e e' : Entry κ} {i : Tid} {w : Wait κ} {node : Nat}

theorem Invariant.entry_eq_of_node (h : Invariant s) (he : e ∈ s.sleepQueue)
    (he' : e' ∈ s.sleepQueue) (hnode : e.node = e'.node) : e = e' :=
  List.inj_on_of_nodup_map (List.nodup_append.mp h.nodup).1 he he' hnode

theorem Invariant.entry_eq (h : Invariant s) (he : e ∈ s.sleepQueue) (he' : e' ∈ s.sleepQueue)
    (hwaiter : e.waiter = e'.waiter) : e = e' := by
  obtain ⟨w, hpc, -⟩ := h.waiting e he
  obtain ⟨w', hpc', -⟩ := h.waiting e' he'
  rw [hwaiter, hpc'] at hpc
  injection hpc with _ hnode
  exact h.entry_eq_of_node he he' hnode.symm

theorem Invariant.waiters_nodup (h : Invariant s) : (s.sleepQueue.map Entry.waiter).Nodup := by
  have hqueue : s.sleepQueue.Nodup := List.Nodup.of_map _ (List.nodup_append.mp h.nodup).1
  exact List.Nodup.map_on (fun e he e' he' hwaiter => h.entry_eq he he' hwaiter) hqueue

-- The entry of a thread that nobody has notified.
theorem Invariant.queued_of_mine (h : Invariant s) (hpc : (s.threads i).pc = .asleep w node)
    (hmine : s.thr node = some i) :
    (s.threads i).endings = [] ∧ ⟨w.key, node, i⟩ ∈ s.sleepQueue := by
  have hok := h.threads i
  unfold ThreadOk at hok
  rw [hpc] at hok
  rcases hok with hqueued | ⟨-, hother⟩
  · exact hqueued
  · exact absurd hmine hother

theorem Invariant.notified_of_not_mine (h : Invariant s)
    (hpc : (s.threads i).pc = .asleep w node) (hmine : s.thr node ≠ some i) :
    (s.threads i).endings = [.notified] := by
  have hok := h.threads i
  unfold ThreadOk at hok
  rw [hpc] at hok
  rcases hok with ⟨-, hqueued⟩ | ⟨hnotified, -⟩
  · exact absurd (h.field _ hqueued) hmine
  · exact hnotified

-- A thread outside of the waiting calls is in no queue.
theorem Invariant.waiter_ne_of_free (h : Invariant s) (hfree : (s.threads i).pc.free = true)
    (he : e ∈ s.sleepQueue) : e.waiter ≠ i := by
  intro heq
  obtain ⟨w, hpc, -⟩ := h.waiting e he
  rw [heq] at hpc
  rw [hpc] at hfree
  cases hfree

theorem Invariant.not_queued_of_notified (h : Invariant s)
    (hends : (s.threads i).endings ≠ []) (he : e ∈ s.sleepQueue) : e.waiter ≠ i := by
  intro heq
  obtain ⟨w, -, -, hnone, -⟩ := h.waiting e he
  rw [heq] at hnone
  exact hends hnone

variable [DecidableEq κ] {key : κ}

theorem State.mem_queued : i ∈ s.queued key ↔ ∃ e ∈ s.sleepQueue, e.key = key ∧ e.waiter = i := by
  unfold State.queued
  simp only [List.mem_map, List.mem_filter, decide_eq_true_eq]
  constructor
  · rintro ⟨e, ⟨he, hkey⟩, hi⟩
    exact ⟨e, he, hkey, hi⟩
  · rintro ⟨e, he, hkey, hi⟩
    exact ⟨e, ⟨he, hkey⟩, hi⟩

theorem Invariant.queued_nodup (h : Invariant s) (key : κ) : (s.queued key).Nodup :=
  h.waiters_nodup.sublist (List.filter_sublist.map _)

theorem Invariant.queued_length_le (h : Invariant s) (key : κ) :
    (s.queued key).length ≤ sintMax.toNat := by
  have hle := (h.queued_nodup key).length_le_card
  rw [Fintype.card_fin] at hle
  exact hle

end Queue

section Dequeue

variable {κ : Type} [DecidableEq κ] {s : State κ} {e : Entry κ} {i : Tid}

-- A node goes to the spare queue; its thread is in order afterwards.
theorem Invariant.dequeue (h : Invariant s) (he : e ∈ s.sleepQueue) {thr' : Nat → Option Tid}
    {t : Thread κ} (hthr : thr' = s.thr ∨ thr' = Function.update s.thr e.node none)
    (ht : ThreadOk (s.sleepQueue.erase e) thr' e.waiter t) :
    Invariant { s with
      sleepQueue := s.sleepQueue.erase e
      spareQueue := e.node :: s.spareQueue
      thr := thr'
      threads := Function.update s.threads e.waiter t } := by
  have hperm : ((s.sleepQueue.erase e).map Entry.node ++ e.node :: s.spareQueue).Perm
      (s.sleepQueue.map Entry.node ++ s.spareQueue) := by
    have hcons := (List.perm_cons_erase he).map Entry.node
    exact List.perm_middle.trans (hcons.symm.append_right s.spareQueue)
  have hqueue : s.sleepQueue.Nodup := List.Nodup.of_map _ (List.nodup_append.mp h.nodup).1
  have hrest : ∀ e' ∈ s.sleepQueue.erase e, e' ∈ s.sleepQueue ∧ e' ≠ e := by
    intro e' he'
    obtain ⟨hne, hmem⟩ := (List.Nodup.mem_erase_iff hqueue).mp he'
    exact ⟨hmem, hne⟩
  refine ⟨hperm.nodup_iff.mpr h.nodup, ?_, ?_, ?_, ?_⟩
  · intro node hnode
    exact h.made node (hperm.mem_iff.mp hnode)
  · intro e' he'
    obtain ⟨hmem, hne⟩ := hrest e' he'
    have hnode : e'.node ≠ e.node := fun heq => hne (h.entry_eq_of_node hmem he heq)
    have hfield : thr' e'.node = s.thr e'.node := by
      rcases hthr with hsame | hnone
      · rw [hsame]
      · rw [hnone, Function.update_of_ne hnode]
    exact hfield.trans (h.field e' hmem)
  · intro e' he'
    obtain ⟨hmem, hne⟩ := hrest e' he'
    have hwaiter : e'.waiter ≠ e.waiter := fun heq => hne (h.entry_eq hmem he heq)
    obtain ⟨w, hw⟩ := h.waiting e' hmem
    refine ⟨w, ?_⟩
    dsimp only
    rw [Function.update_of_ne hwaiter]
    exact hw
  · intro j
    by_cases hj : j = e.waiter
    · rw [hj]
      dsimp only
      rw [Function.update_self]
      exact ht
    · dsimp only
      rw [Function.update_of_ne hj]
      have hok := h.threads j
      unfold ThreadOk at hok ⊢
      split
      · rename_i hpc
        rw [hpc] at hok
        exact hok
      · rename_i w node hpc
        rw [hpc] at hok
        rcases hok with ⟨hnone, hmem⟩ | ⟨hnotified, hfield⟩
        · left
          refine ⟨hnone, (List.mem_erase_of_ne ?_).mpr hmem⟩
          intro heq
          exact hj (congrArg Entry.waiter heq)
        · right
          refine ⟨hnotified, ?_⟩
          rcases hthr with hsame | hnone
          · rw [hsame]
            exact hfield
          · rw [hnone, Function.update_apply]
            split
            · nofun
            · exact hfield
      · rename_i hpc
        rw [hpc] at hok
        exact hok

-- A pass of the loop of notify_n.
theorem Invariant.release (h : Invariant s) (he : e ∈ s.sleepQueue) :
    Invariant (s.release e) := by
  obtain ⟨w, hpc, -, hnone, -⟩ := h.waiting e he
  apply h.dequeue he (Or.inr rfl)
  unfold ThreadOk
  dsimp only
  rw [hpc]
  right
  constructor
  · rw [hnone]
    rfl
  · rw [Function.update_self]
    nofun

-- The erase of a thread's own node.
theorem Invariant.erase_own (h : Invariant s) {w : Wait κ} {node : Nat}
    (hpc : (s.threads i).pc = .asleep w node) (hmine : s.thr node = some i) :
    s.erase i node = s.recycle ⟨w.key, node, i⟩ (.erased i) := by
  obtain ⟨-, hmem⟩ := h.queued_of_mine hpc hmine
  unfold State.erase
  split
  · rename_i e hfind
    have hnode : e.node = node := by simpa using List.find?_some hfind
    rw [h.entry_eq_of_node (List.mem_of_find?_eq_some hfind) hmem hnode]
  · rename_i hfind
    have hnot := List.find?_eq_none.mp hfind _ hmem
    exact absurd (decide_eq_true rfl) hnot

end Dequeue

section Enqueue

variable {κ : Type} {s : State κ} {i : Tid} {w : Wait κ} {node : Nat}

-- A thread takes a node that is in no queue any more.
theorem Invariant.insert (h : Invariant s) (hfree : (s.threads i).pc.free = true)
    {spareQueue : List Nat} {nodes : Nat} {hasWaiters : κ → Bool}
    (hnodup : (s.sleepQueue.map Entry.node ++ node :: spareQueue).Nodup)
    (hmade : ∀ n ∈ s.sleepQueue.map Entry.node ++ node :: spareQueue, n < nodes)
    (hwaiters : ∀ key, s.hasWaiters key = true → hasWaiters key = true)
    (hset : w.kind ≠ .wait → hasWaiters w.key = true) :
    Invariant ({
      sleepQueue := s.sleepQueue ++ [⟨w.key, node, i⟩]
      spareQueue := spareQueue
      nodes := nodes
      thr := Function.update s.thr node (some i)
      hasWaiters := hasWaiters
      threads := Function.update s.threads i ⟨.asleep w node, []⟩ } : State κ) := by
  have hlist : (s.sleepQueue ++ [(⟨w.key, node, i⟩ : Entry κ)]).map Entry.node ++ spareQueue =
      s.sleepQueue.map Entry.node ++ node :: spareQueue := by
    rw [List.map_append, List.append_assoc]
    rfl
  have hnode : ∀ e ∈ s.sleepQueue, e.node ≠ node := by
    intro e he heq
    have hdisjoint := (List.nodup_append.mp hnodup).2.2
    exact hdisjoint e.node (List.mem_map_of_mem he) node List.mem_cons_self heq
  refine ⟨?_, ?_, ?_, ?_, ?_⟩
  · dsimp only
    rw [hlist]
    exact hnodup
  · dsimp only
    rw [hlist]
    exact hmade
  · intro e he
    dsimp only
    rcases List.mem_append.mp he with hold | hnew
    · rw [Function.update_of_ne (hnode e hold)]
      exact h.field e hold
    · cases List.mem_singleton.mp hnew
      exact Function.update_self ..
  · intro e he
    rcases List.mem_append.mp he with hold | hnew
    · obtain ⟨w', hpc, hkey, hnone, hw⟩ := h.waiting e hold
      refine ⟨w', ?_⟩
      dsimp only
      rw [Function.update_of_ne (h.waiter_ne_of_free hfree hold)]
      exact ⟨hpc, hkey, hnone, fun hkind => hwaiters _ (hw hkind)⟩
    · cases List.mem_singleton.mp hnew
      refine ⟨w, ?_⟩
      dsimp only
      rw [Function.update_self]
      exact ⟨rfl, rfl, rfl, hset⟩
  · intro j
    dsimp only
    by_cases hj : j = i
    · rw [hj, Function.update_self]
      left
      exact ⟨rfl, List.mem_append_right _ List.mem_cons_self⟩
    · rw [Function.update_of_ne hj]
      have hok := h.threads j
      unfold ThreadOk at hok ⊢
      split
      · rename_i hpc
        rw [hpc] at hok
        exact hok
      · rename_i w' node' hpc
        rw [hpc] at hok
        rcases hok with ⟨hnone, hmem⟩ | ⟨hnotified, hfield⟩
        · left
          exact ⟨hnone, List.mem_append_left _ hmem⟩
        · right
          refine ⟨hnotified, ?_⟩
          rw [Function.update_apply]
          split
          · intro heq
            exact hj (Option.some.inj heq).symm
          · exact hfield
      · rename_i hpc
        rw [hpc] at hok
        exact hok

end Enqueue

end Rpcsx.Orbis.UmtxChain
