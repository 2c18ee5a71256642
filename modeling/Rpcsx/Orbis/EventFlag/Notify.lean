import Rpcsx.Data.Mask
import Rpcsx.Orbis.EventFlag

namespace Rpcsx.Orbis.EventFlag

open Rpcsx.Data.Mask

section Pattern

variable {p : Pattern} {value value' : BitVec 64}

theorem Pattern.test_eq_false : p.test value = false ↔
    if p.waitMode &&& kEvfWaitModeAnd ≠ 0 then ¬Within p.bitPattern value
    else Apart value p.bitPattern := by
  unfold Pattern.test
  split
  · rw [decide_eq_false_iff_not, and_eq_right_iff]
  · rw [decide_eq_false_iff_not, ne_eq, not_not, and_eq_zero_iff]

-- A waiter that a value does not satisfy is not satisfied by fewer bits.
theorem Pattern.test_mono (h : p.test value = false) (hw : Within value' value) :
    p.test value' = false := by
  rw [Pattern.test_eq_false] at h ⊢
  split
  · rename_i hand
    rw [if_pos hand] at h
    exact fun hin => h (hin.trans hw)
  · rename_i hor
    rw [if_neg hor] at h
    exact fun k hk => h k (hw k hk)

theorem Pattern.applyClear_within : Within (p.applyClear value) value := by
  unfold Pattern.applyClear
  split
  · exact zero_within
  · split
    · exact within_and_left
    · exact Within.refl

end Pattern

section Erase

variable {ι : Type} [DecidableEq ι] {type : NotifyType} {value : BitVec 64} {threads : ι → Thread}
  {before after queue : List (WaitingThread ι)} {w : WaitingThread ι} {i : ι}

theorem eraseIf_cons (type : NotifyType) (w : WaitingThread ι) (rest : List (WaitingThread ι))
    (value : BitVec 64) (threads : ι → Thread) :
    eraseIf type (w :: rest) value threads =
      if type = .set ∧ w.test value = false then
        { eraseIf type rest value threads with
          waitingThreads := w :: (eraseIf type rest value threads).waitingThreads }
      else
        { eraseIf type rest (w.applyClear value)
            (Function.update threads w.thread ((threads w.thread).release type value)) with
          result := (eraseIf type rest (w.applyClear value)
            (Function.update threads w.thread ((threads w.thread).release type value))).result
              + 1 } := rfl

theorem eraseIf_append (type : NotifyType) (before after : List (WaitingThread ι))
    (value : BitVec 64) (threads : ι → Thread) :
    eraseIf type (before ++ after) value threads =
      ⟨(eraseIf type before value threads).waitingThreads ++
          (eraseIf type after (eraseIf type before value threads).patValue
            (eraseIf type before value threads).threads).waitingThreads,
        (eraseIf type after (eraseIf type before value threads).patValue
          (eraseIf type before value threads).threads).patValue,
        (eraseIf type after (eraseIf type before value threads).patValue
          (eraseIf type before value threads).threads).threads,
        (eraseIf type before value threads).result +
          (eraseIf type after (eraseIf type before value threads).patValue
            (eraseIf type before value threads).threads).result⟩ := by
  induction before generalizing value threads with
  | nil =>
      change eraseIf type after value threads = ⟨_, _, _, 0 + _⟩
      rw [Nat.zero_add]
      rfl
  | cons w rest ih =>
      rw [List.cons_append]
      simp only [eraseIf_cons]
      split
      · rw [ih]
        rfl
      · rw [ih]
        simp only [Erased.mk.injEq, true_and]
        omega

theorem eraseIf_within (type : NotifyType) (queue : List (WaitingThread ι)) (value : BitVec 64)
    (threads : ι → Thread) : Within (eraseIf type queue value threads).patValue value := by
  induction queue generalizing value threads with
  | nil => exact Within.refl
  | cons w rest ih =>
      rw [eraseIf_cons]
      split
      · exact ih value threads
      · exact (ih _ _).trans Pattern.applyClear_within

theorem eraseIf_sublist (type : NotifyType) (queue : List (WaitingThread ι)) (value : BitVec 64)
    (threads : ι → Thread) : (eraseIf type queue value threads).waitingThreads.Sublist queue := by
  induction queue generalizing value threads with
  | nil => exact List.Sublist.refl _
  | cons w rest ih =>
      rw [eraseIf_cons]
      split
      · exact (ih value threads).cons_cons w
      · exact (ih _ _).cons w

-- A thread that is not in the queue is left alone.
theorem eraseIf_other (type : NotifyType) (h : ∀ w ∈ queue, w.thread ≠ i) (value : BitVec 64)
    (threads : ι → Thread) :
    (eraseIf type queue value threads).threads i = threads i := by
  induction queue generalizing value threads with
  | nil => rfl
  | cons w rest ih =>
      have hrest : ∀ w ∈ rest, w.thread ≠ i := fun w hw => h w (List.mem_cons_of_mem _ hw)
      rw [eraseIf_cons]
      split
      · exact ih hrest value threads
      · rw [ih hrest, Function.update_of_ne (h w List.mem_cons_self).symm]

-- Who is still in the queue is not satisfied by what is left.
theorem eraseIf_unsatisfied (h : w ∈ (eraseIf type queue value threads).waitingThreads) :
    type = .set ∧ w.test (eraseIf type queue value threads).patValue = false := by
  induction queue generalizing value threads with
  | nil => cases h
  | cons w' rest ih =>
      rw [eraseIf_cons] at h ⊢
      split at h
      · rename_i htest
        rw [if_pos htest]
        rcases List.mem_cons.mp h with rfl | h
        · exact ⟨htest.1, Pattern.test_mono htest.2 (eraseIf_within type rest value threads)⟩
        · exact ih h
      · rename_i htest
        rw [if_neg htest]
        exact ih h

-- What happens to one waiter of the queue.
theorem eraseIf_at (type : NotifyType) (value : BitVec 64) (threads : ι → Thread)
    (hnodup : (queue.map (fun w => w.thread)).Nodup) (hsplit : queue = before ++ w :: after) :
    let patValue := (eraseIf type before value threads).patValue
    if type = .set ∧ w.test patValue = false then
      w ∈ (eraseIf type queue value threads).waitingThreads ∧
        (eraseIf type queue value threads).threads w.thread = threads w.thread
    else
      w ∉ (eraseIf type queue value threads).waitingThreads ∧
        (eraseIf type queue value threads).threads w.thread =
          (threads w.thread).release type patValue := by
  subst hsplit
  rw [List.map_append, List.nodup_append] at hnodup
  obtain ⟨_, hright, hne⟩ := hnodup
  rw [List.map_cons, List.nodup_cons] at hright
  have hbefore : ∀ v ∈ before, v.thread ≠ w.thread := by
    intro v hv
    exact hne _ (List.mem_map_of_mem hv) _ List.mem_cons_self
  have hafter : ∀ v ∈ after, v.thread ≠ w.thread := by
    intro v hv heq
    exact hright.1 (heq ▸ List.mem_map_of_mem hv)
  rw [eraseIf_append]
  dsimp only
  generalize hvalue : (eraseIf type before value threads).patValue = patValue
  have hsame := eraseIf_other type hbefore value threads
  split
  · rename_i htest
    rw [eraseIf_cons, if_pos htest]
    refine ⟨List.mem_append_right _ List.mem_cons_self, ?_⟩
    exact (eraseIf_other type hafter _ _).trans hsame
  · rename_i htest
    rw [eraseIf_cons, if_neg htest]
    refine ⟨?_, ?_⟩
    · intro hmem
      rcases List.mem_append.mp hmem with hmem | hmem
      · exact hbefore w ((eraseIf_sublist ..).subset hmem) rfl
      · exact hafter w ((eraseIf_sublist ..).subset hmem) rfl
    · dsimp only
      rw [eraseIf_other type hafter, Function.update_self, hsame]

-- Clears that change nothing.
theorem eraseIf_quiet (type : NotifyType) (h : ∀ w ∈ queue, w.applyClear value = value)
    (threads : ι → Thread) : (eraseIf type queue value threads).patValue = value := by
  induction queue generalizing threads with
  | nil => rfl
  | cons w rest ih =>
      have hrest : ∀ w ∈ rest, w.applyClear value = value :=
        fun w hw => h w (List.mem_cons_of_mem _ hw)
      rw [eraseIf_cons]
      split
      · exact ih hrest threads
      · rw [h w List.mem_cons_self]
        exact ih hrest _

end Erase

-- What the clears of some waiters leave of a value, each of them in its turn.
def offerAll {ι : Type} (value : BitVec 64) (waiters : List (WaitingThread ι)) : BitVec 64 :=
  waiters.foldl (fun value w => if w.test value then w.applyClear value else value) value

theorem eraseIf_set {ι : Type} [DecidableEq ι] (queue : List (WaitingThread ι)) (value : BitVec 64)
    (threads : ι → Thread) :
    (eraseIf .set queue value threads).patValue = offerAll value queue := by
  induction queue generalizing value threads with
  | nil => rfl
  | cons w rest ih =>
      rw [eraseIf_cons, offerAll, List.foldl_cons]
      cases htest : w.test value with
      | false =>
          rw [if_pos ⟨rfl, rfl⟩]
          exact ih value threads
      | true =>
          rw [if_neg (by simp)]
          exact ih _ _

theorem eraseIf_length {ι : Type} [DecidableEq ι] (type : NotifyType)
    (queue : List (WaitingThread ι)) (value : BitVec 64) (threads : ι → Thread) :
    (eraseIf type queue value threads).waitingThreads.length +
      (eraseIf type queue value threads).result = queue.length := by
  induction queue generalizing value threads with
  | nil => rfl
  | cons w rest ih =>
      rw [eraseIf_cons]
      split
      · have := ih value threads
        simp only [List.length_cons]
        omega
      · have := ih (w.applyClear value)
          (Function.update threads w.thread ((threads w.thread).release type value))
        simp only [List.length_cons]
        omega

end Rpcsx.Orbis.EventFlag
