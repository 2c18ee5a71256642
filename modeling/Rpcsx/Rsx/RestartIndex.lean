import Mathlib.Algebra.Notation.Defs
import Mathlib.Data.List.Basic

namespace Rpcsx.Rsx.RestartIndex

section Strip

variable {α : Type}

-- Every other triangle of a strip is wound the other way.
def oriented (position : Nat) (a b c : α) : α × α × α :=
  if position % 2 = 0 then (a, b, c) else (b, a, c)

-- The triangles of a strip whose first vertex has the given position.
def triangles : Nat → List α → List (α × α × α)
  | position, a :: b :: c :: rest =>
      oriented position a b c :: triangles (position + 1) (b :: c :: rest)
  | _, _ => []

-- The triangles of a strip that have three different vertices.
def proper [DecidableEq α] (strip : List α) : List (α × α × α) :=
  (triangles 0 strip).filter fun t => decide (t.1 ≠ t.2.1 ∧ t.2.1 ≠ t.2.2 ∧ t.1 ≠ t.2.2)

theorem triangles_concat (position : Nat) (strip : List α) (a b c : α) :
    triangles position (strip ++ [a, b, c]) =
      triangles position (strip ++ [a, b]) ++ [oriented (position + strip.length) a b c] := by
  induction strip generalizing position with
  | nil => rfl
  | cons x strip ih =>
      have hrec := ih (position + 1)
      rw [Nat.add_right_comm, Nat.add_assoc] at hrec
      match strip with
      | [] => simp [triangles]
      | [y] => simp [triangles]
      | y :: z :: strip => simpa [triangles] using hrec

variable [DecidableEq α]

theorem proper_concat (strip : List α) (a b c : α) :
    proper (strip ++ [a, b, c]) =
      proper (strip ++ [a, b]) ++ if a ≠ b ∧ b ≠ c ∧ a ≠ c then [oriented strip.length a b c] else
        [] := by
  have hturn : (b ≠ a ∧ a ≠ c ∧ b ≠ c) ↔ (a ≠ b ∧ b ≠ c ∧ a ≠ c) :=
    ⟨fun h => ⟨h.1.symm, h.2.2, h.2.1⟩, fun h => ⟨h.1.symm, h.2.2, h.2.1⟩⟩
  rw [proper, triangles_concat, List.filter_append, Nat.zero_add, oriented, ← proper]
  congr 1
  split
  · simp only [List.filter_cons, List.filter_nil, decide_eq_true_eq]
  · simp only [List.filter_cons, List.filter_nil, decide_eq_true_eq, hturn]

theorem proper_repeat (strip : List α) (a : α) :
    proper (strip ++ [a, a]) = proper (strip ++ [a]) := by
  rcases List.eq_nil_or_concat strip with rfl | ⟨strip, x, rfl⟩
  · rfl
  · rw [List.concat_eq_append, List.append_assoc, List.append_assoc]
    simp only [List.singleton_append]
    rw [proper_concat, if_neg (by simp), List.append_nil]

theorem proper_repeated (strip : List α) (a b : α) :
    proper (strip ++ [a, a, b]) = proper (strip ++ [a, a]) := by
  rw [proper_concat, if_neg (by simp), List.append_nil]

end Strip

section Remove

variable {α : Type} [DecidableEq α]

-- What the loop does from `src[n]` on.
def removeFrom (restartIndex : α) : List α → List α → α → List α
  | [], dst, _ => dst
  | index :: rest, dst, lastIndex =>
      if index = restartIndex then
        match _hskip : rest.dropWhile fun index => decide (index = restartIndex) with
        | [] => dst
        | next :: rest' =>
            let dst := dst ++ [lastIndex]
            let dst := if dst.length % 2 = 0 then dst ++ [lastIndex] else dst
            removeFrom restartIndex (next :: rest') (dst ++ [next]) next
      else removeFrom restartIndex rest (dst ++ [index]) index
termination_by src => src.length
decreasing_by
  · have hlength := (List.dropWhile_sublist (l := rest)
      fun index => decide (index = restartIndex)).length_le
    rw [_hskip] at hlength
    simp only [List.length_cons] at hlength ⊢
    omega
  · simp only [List.length_cons]
    omega

def removeRestartIndex [Zero α] (src : List α) (restartIndex : α) : List α :=
  removeFrom restartIndex src [] 0

variable {restartIndex lastIndex index next : α} {src rest dst cur : List α}
  {done : List (α × α × α)}

theorem removeFrom_restart (h : rest.dropWhile (fun index => decide (index = restartIndex)) = [])
    (dst : List α) (lastIndex : α) :
    removeFrom restartIndex (restartIndex :: rest) dst lastIndex = dst := by
  rw [removeFrom, if_pos rfl]
  split
  · rfl
  · rename_i hskip
    rw [h] at hskip
    cases hskip

-- What is written between two strips.
def bridge (dst : List α) (lastIndex next : α) : List α :=
  (if (dst ++ [lastIndex]).length % 2 = 0 then dst ++ [lastIndex] ++ [lastIndex]
    else dst ++ [lastIndex]) ++ [next]

theorem removeFrom_bridge
    (h : rest.dropWhile (fun index => decide (index = restartIndex)) = next :: src)
    (dst : List α) (lastIndex : α) :
    removeFrom restartIndex (restartIndex :: rest) dst lastIndex =
      removeFrom restartIndex (next :: src) (bridge dst lastIndex next) next := by
  rw [removeFrom, if_pos rfl]
  split
  · rename_i hskip
    rw [h] at hskip
    cases hskip
  · rename_i hskip
    rw [h] at hskip
    cases hskip
    rfl

theorem removeFrom_index (h : index ≠ restartIndex) (dst : List α) (lastIndex : α) :
    removeFrom restartIndex (index :: rest) dst lastIndex =
      removeFrom restartIndex rest (dst ++ [index]) index := by
  rw [removeFrom, if_neg h]

omit [DecidableEq α] in
theorem length_bridge (dst : List α) (lastIndex next : α) :
    (bridge dst lastIndex next).length % 2 = 0 ∧
      (bridge dst lastIndex next).length ≤ dst.length + 2 + dst.length % 2 := by
  unfold bridge
  split
  · rename_i h
    simp only [List.length_append, List.length_singleton] at h ⊢
    omega
  · rename_i h
    simp only [List.length_append, List.length_singleton] at h ⊢
    omega

theorem proper_bridge (h : dst = [] ∨ dst.getLast? = some lastIndex) (next : α) :
    proper (bridge dst lastIndex next) = proper dst := by
  rcases h with rfl | h
  · rfl
  · obtain ⟨strip, rfl⟩ := List.getLast?_eq_some_iff.mp h
    unfold bridge
    split
    · have happend : strip ++ [lastIndex] ++ [lastIndex] ++ [lastIndex] ++ [next] =
          strip ++ [lastIndex] ++ [lastIndex, lastIndex, next] := by simp
      rw [happend, proper_repeated, proper_repeat, List.append_assoc]
      exact proper_repeat strip lastIndex
    · have happend : strip ++ [lastIndex] ++ [lastIndex] ++ [next] =
          strip ++ [lastIndex, lastIndex, next] := by simp
      rw [happend, proper_repeated, proper_repeat]

-- `cur` is the strip that is being written. It starts at an even position, and where something
-- stands in front of it, its first vertex is written twice.
def Joined (dst cur src : List α) : Prop :=
  ∃ pre, dst = pre ++ cur ∧ pre.length % 2 = 0 ∧
    (pre = [] ∨ ∃ first, pre.getLast? = some first ∧ (cur ++ src).head? = some first)

omit [DecidableEq α] in
theorem Joined.push (h : Joined dst cur (index :: src)) :
    Joined (dst ++ [index]) (cur ++ [index]) src := by
  obtain ⟨pre, rfl, heven, hfirst⟩ := h
  refine ⟨pre, by rw [List.append_assoc], heven, ?_⟩
  rw [List.append_assoc, List.singleton_append]
  exact hfirst

-- The strip has the triangles that it would have on its own.
theorem Joined.proper_push (h : Joined dst cur (index :: src))
    (hdone : proper dst = done ++ proper cur) :
    proper (dst ++ [index]) = done ++ proper (cur ++ [index]) := by
  obtain ⟨pre, rfl, heven, hfirst⟩ := h
  rcases List.eq_nil_or_concat cur with rfl | ⟨cur, b, rfl⟩
  · rw [List.append_nil] at hdone ⊢
    rcases hfirst with rfl | ⟨first, hlast, hhead⟩
    · exact hdone
    · obtain rfl : index = first := Option.some.inj hhead
      obtain ⟨strip, rfl⟩ := List.getLast?_eq_some_iff.mp hlast
      rw [List.append_assoc]
      exact (proper_repeat strip index).trans hdone
  · rw [List.concat_eq_append] at hdone hfirst ⊢
    rcases List.eq_nil_or_concat cur with rfl | ⟨cur, a, rfl⟩
    · rcases hfirst with rfl | ⟨first, hlast, hhead⟩
      · exact hdone
      · obtain rfl : b = first := Option.some.inj hhead
        obtain ⟨strip, rfl⟩ := List.getLast?_eq_some_iff.mp hlast
        have happend : strip ++ [b] ++ ([] ++ [b]) ++ [index] = strip ++ [b, b, index] := by simp
        rw [happend, proper_repeated]
        have hdone' : proper (strip ++ [b, b]) = done ++ proper [b] := by simpa using hdone
        exact hdone'
    · have hdst : pre ++ (cur.concat a ++ [b]) = (pre ++ cur) ++ [a, b] := by simp
      have hcur : cur.concat a ++ [b] = cur ++ [a, b] := by simp
      have hparity : oriented (pre ++ cur).length a b index = oriented cur.length a b index := by
        have heq : (pre ++ cur).length % 2 = cur.length % 2 := by
          rw [List.length_append]
          omega
        rw [oriented, oriented, heq]
      rw [hdst, hcur] at hdone
      rw [hdst, hcur]
      simp only [List.append_assoc, List.cons_append, List.nil_append]
      rw [← List.append_assoc, proper_concat, proper_concat, hdone, hparity, List.append_assoc]

omit [DecidableEq α] in
theorem Joined.bridge (next : α) (src : List α) :
    Joined (bridge dst lastIndex next) [] (next :: src) := by
  refine ⟨_, (List.append_nil _).symm, (length_bridge dst lastIndex next).1, Or.inr ⟨next, ?_, rfl⟩⟩
  exact List.getLast?_concat

-- Restarts at the front make no strip with a triangle.
theorem strips_dropWhile (p : α → Bool) (src : List α) :
    (src.splitOnP p).flatMap proper = ((src.dropWhile p).splitOnP p).flatMap proper := by
  induction src with
  | nil => rfl
  | cons index src ih =>
      cases hp : p index with
      | false => rw [List.dropWhile_cons_of_neg (by rw [hp]; exact Bool.false_ne_true)]
      | true =>
          rw [List.dropWhile_cons_of_pos hp, List.splitOnP_cons_eq_if_modifyHead, if_pos hp,
            List.flatMap_cons, ih]
          rfl

theorem removeFrom_proper (src dst : List α) (lastIndex : α) (h : Joined dst cur src)
    (hlast : dst = [] ∨ dst.getLast? = some lastIndex) (hdone : proper dst = done ++ proper cur) :
    proper (removeFrom restartIndex src dst lastIndex) = done ++
      (src.splitOnPPrepend (fun index => decide (index = restartIndex)) cur.reverse).flatMap
        proper := by
  induction src, dst, lastIndex using removeFrom.induct restartIndex generalizing cur done with
  | case1 dst _ => simpa [removeFrom] using hdone
  | case2 rest dst lastIndex hskip =>
      rw [removeFrom_restart hskip, List.splitOnPPrepend_cons_pos (by simp), List.flatMap_cons,
        strips_dropWhile, hskip, List.reverse_reverse, ← List.append_assoc, ← hdone]
      simp [proper, triangles]
  | case3 rest dst lastIndex next src hskip _ =>
      rename_i ih
      rw [removeFrom_bridge hskip, List.splitOnPPrepend_cons_pos (by simp), List.flatMap_cons,
        strips_dropWhile, hskip, List.reverse_reverse, ← List.append_assoc, ← hdone]
      refine ih (Joined.bridge next src) (Or.inr List.getLast?_concat) ?_
      exact (proper_bridge hlast next).trans (List.append_nil _).symm
  | case4 index rest dst lastIndex hindex ih =>
      rw [removeFrom_index hindex, List.splitOnPPrepend_cons_neg (by simpa using hindex),
        ih h.push (Or.inr List.getLast?_concat) (h.proper_push hdone), List.reverse_concat]

theorem next_ne_restart
    (h : rest.dropWhile (fun index => decide (index = restartIndex)) = next :: src) :
    next ≠ restartIndex ∧ src.length + 1 ≤ rest.length := by
  have hhead := List.head?_dropWhile_not (fun index => decide (index = restartIndex)) rest
  have hsub := (List.dropWhile_sublist (l := rest)
    fun index => decide (index = restartIndex)).length_le
  rw [h] at hhead hsub
  exact ⟨by simpa using hhead, hsub⟩

-- A restart makes room for two of the three indices at most that a bridge has. Behind a bridge an
-- index follows that takes the place of only one.
theorem removeFrom_length (src dst : List α) (lastIndex : α) {bound : Nat}
    (hbound : dst.length + 2 * src.length ≤ bound ∨ dst.length + 2 * src.length ≤ bound + 1 ∧
      src ≠ [] ∧ src.head? ≠ some restartIndex) :
    (removeFrom restartIndex src dst lastIndex).length ≤ bound := by
  induction src, dst, lastIndex using removeFrom.induct restartIndex with
  | case1 dst _ =>
      rw [removeFrom]
      rcases hbound with hbound | ⟨-, hne, -⟩
      · simpa using hbound
      · exact absurd rfl hne
  | case2 rest dst lastIndex hskip =>
      rw [removeFrom_restart hskip]
      rcases hbound with hbound | ⟨-, -, hne⟩
      · omega
      · exact absurd rfl hne
  | case3 rest dst lastIndex next src hskip _ =>
      rename_i ih
      obtain ⟨hnext, hlength⟩ := next_ne_restart hskip
      have hbridge := (length_bridge dst lastIndex next).2
      rw [removeFrom_bridge hskip]
      apply ih
      change (bridge dst lastIndex next).length + _ ≤ _ ∨
        (bridge dst lastIndex next).length + _ ≤ _ ∧ _
      rcases hbound with hbound | ⟨-, -, hne⟩
      · refine Or.inr ⟨?_, by simp, by simpa using hnext⟩
        simp only [List.length_cons] at hbound ⊢
        omega
      · exact absurd rfl hne
  | case4 index rest dst lastIndex hindex ih =>
      rw [removeFrom_index hindex]
      apply ih
      simp only [List.length_cons, List.length_append, List.length_nil] at hbound ⊢
      omega

theorem removeFrom_not_mem (src dst : List α) (lastIndex : α) (hlast : lastIndex ≠ restartIndex)
    (hdst : restartIndex ∉ dst) : restartIndex ∉ removeFrom restartIndex src dst lastIndex := by
  induction src, dst, lastIndex using removeFrom.induct restartIndex with
  | case1 dst _ =>
      rw [removeFrom]
      exact hdst
  | case2 rest dst lastIndex hskip =>
      rw [removeFrom_restart hskip]
      exact hdst
  | case3 rest dst lastIndex next src hskip _ =>
      rename_i ih
      obtain ⟨hnext, -⟩ := next_ne_restart hskip
      rw [removeFrom_bridge hskip]
      apply ih hnext
      change restartIndex ∉ bridge dst lastIndex next
      unfold bridge
      split <;> simp [hdst, hlast.symm, hnext.symm]
  | case4 index rest dst lastIndex hindex ih =>
      rw [removeFrom_index hindex]
      apply ih hindex
      simp [hdst, Ne.symm hindex]

-- The output fits into the buffer, has no restart in it, and draws the triangles of the separate
-- strips.
theorem removeRestartIndex_strips [Zero α] (src : List α) (restartIndex : α) :
    (removeRestartIndex src restartIndex).length ≤ 2 * src.length ∧
      (restartIndex = 0 ∨ restartIndex ∉ removeRestartIndex src restartIndex) ∧
      proper (removeRestartIndex src restartIndex) =
        (src.splitOnP fun index => decide (index = restartIndex)).flatMap proper := by
  refine ⟨?_, ?_, ?_⟩
  · exact removeFrom_length src [] 0 (Or.inl (by simp))
  · by_cases hzero : restartIndex = 0
    · exact Or.inl hzero
    · exact Or.inr (removeFrom_not_mem src [] 0 (Ne.symm hzero) (by simp))
  · have hstart : Joined [] [] src := ⟨[], rfl, rfl, Or.inl rfl⟩
    have hnil : proper ([] : List α) = [] ++ proper [] := rfl
    exact removeFrom_proper src [] 0 hstart (Or.inl rfl) hnil

end Remove

end Rpcsx.Rsx.RestartIndex
