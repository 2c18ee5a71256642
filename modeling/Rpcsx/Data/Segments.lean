import Mathlib.Data.List.Basic

namespace Rpcsx.Data.Segments

variable {α : Type} {base pos n k : Nat} {stream more : List α} {s t : Nat × List α}
  {segments others : List (Nat × List α)}

-- Two segments, each a position and its data, do not overlap.
def Apart (s t : Nat × List α) : Prop := s.1 + s.2.length ≤ t.1 ∨ t.1 + t.2.length ≤ s.1

theorem Apart.symm (h : Apart s t) : Apart t s := Or.symm h

-- A segment of a stream whose first position is `base`.
structure Within (base : Nat) (stream : List α) (s : Nat × List α) : Prop where
  base_le : base ≤ s.1
  le_end : s.1 + s.2.length ≤ base + stream.length
  data : (stream.drop (s.1 - base)).take s.2.length = s.2
  ne_nil : s.2 ≠ []

-- The end of a segment.
def tail (s : Nat × List α) (k : Nat) : Nat × List α := (s.1 + k, s.2.drop k)

theorem Within.length_pos (h : Within base stream s) : 0 < s.2.length :=
  List.length_pos_iff.mpr h.ne_nil

theorem Within.append (h : Within base stream s) (more : List α) :
    Within base (stream ++ more) s where
  base_le := h.base_le
  le_end := by
    have := h.le_end
    rw [List.length_append]
    omega
  data := by
    have hle := h.le_end
    have hbase := h.base_le
    rw [List.drop_append_of_le_length (by omega), List.take_append_of_le_length]
    · exact h.data
    · rw [List.length_drop]
      omega
  ne_nil := h.ne_nil

theorem Within.tail (h : Within base stream s) (hk : k < s.2.length) :
    Within base stream (tail s k) where
  base_le := Nat.le_trans h.base_le (Nat.le_add_right ..)
  le_end := by
    have := h.le_end
    unfold Segments.tail
    rw [List.length_drop]
    omega
  data := by
    have hbase := h.base_le
    have hdata := congrArg (List.drop k) h.data
    unfold Segments.tail
    rw [List.drop_take, List.drop_drop] at hdata
    have hpos : s.1 + k - base = s.1 - base + k := by omega
    rw [List.length_drop, hpos]
    exact hdata
  ne_nil := by
    intro hnil
    have := congrArg List.length hnil
    unfold Segments.tail at this
    rw [List.length_drop, List.length_nil] at this
    omega

-- New data behind a stream.
theorem Within.last (base : Nat) (stream : List α) (hne : more ≠ []) :
    Within base (stream ++ more) (base + stream.length, more) where
  base_le := Nat.le_add_right ..
  le_end := by
    rw [List.length_append]
    dsimp only
    omega
  data := by
    dsimp only
    rw [Nat.add_sub_cancel_left, List.drop_left, List.take_length]
  ne_nil := hne

theorem Within.apart_end (h : Within base stream s) (hs : base + stream.length ≤ t.1) :
    Apart s t := by
  have := h.le_end
  exact Or.inl (by omega)

theorem Apart.tail (h : Apart s t) (hk : k ≤ t.2.length) : Apart s (tail t k) := by
  unfold Apart Segments.tail at *
  rw [List.length_drop]
  omega

-- Where the segments that follow each other from a position on end.
def reach : List (Nat × List α) → Nat → Nat
  | [], pos => pos
  | (key, data) :: rest, pos => if key = pos then reach rest (pos + data.length) else pos

theorem reach_ge (segments : List (Nat × List α)) (pos : Nat) : pos ≤ reach segments pos := by
  induction segments generalizing pos with
  | nil => exact Nat.le_refl pos
  | cons s rest ih =>
      obtain ⟨key, data⟩ := s
      unfold reach
      split
      · exact Nat.le_trans (Nat.le_add_right ..) (ih _)
      · exact Nat.le_refl pos

theorem reach_le {bound : Nat} (hpos : pos ≤ bound)
    (h : ∀ s ∈ segments, s.1 + s.2.length ≤ bound) : reach segments pos ≤ bound := by
  induction segments generalizing pos with
  | nil => exact hpos
  | cons s rest ih =>
      have hs := h s List.mem_cons_self
      obtain ⟨key, data⟩ := s
      unfold reach
      split
      · rename_i hkey
        dsimp only at hs
        exact ih (by omega) fun t ht => h t (List.mem_cons_of_mem _ ht)
      · exact hpos

-- Segments in order, none of them before a position.
structure Laid (pos : Nat) (segments : List (Nat × List α)) : Prop where
  le : ∀ s ∈ segments, pos ≤ s.1
  apart : segments.Pairwise fun s t => s.1 + s.2.length ≤ t.1

theorem Laid.tail (h : Laid pos (s :: others)) : Laid (s.1 + s.2.length) others where
  le := (List.pairwise_cons.mp h.apart).1
  apart := (List.pairwise_cons.mp h.apart).2

theorem Laid.apart_or_eq (h : Laid pos segments) :
    ∀ s ∈ segments, ∀ t ∈ segments, s.1 = t.1 ∨ Apart s t := by
  have hordered : segments.Pairwise fun s t => s.1 = t.1 ∨ Apart s t :=
    h.apart.imp fun hst => Or.inr (Or.inl hst)
  have hreversed : segments.Pairwise (flip fun s t => s.1 = t.1 ∨ Apart s t) :=
    h.apart.imp fun hst => Or.inr (Or.inr hst)
  have hself : ∀ s ∈ segments, s.1 = s.1 ∨ Apart s s := fun s _ => Or.inl rfl
  intro s hs t ht
  exact List.Pairwise.forall_of_forall_of_flip hself hordered hreversed hs ht

-- The first bytes of the segments, and what is left of them.
def collect : List (Nat × List α) → Nat → List (Nat × List α) × List α
  | [], _ => ([], [])
  | s :: rest, n =>
      if n = 0 then (s :: rest, [])
      else if s.2.length ≤ n then
        ((collect rest (n - s.2.length)).1, s.2 ++ (collect rest (n - s.2.length)).2)
      else (tail s n :: rest, s.2.take n)

theorem collect_zero (segments : List (Nat × List α)) : collect segments 0 = (segments, []) := by
  cases segments with
  | nil => rfl
  | cons s rest => exact if_pos rfl

theorem collect_whole (hn : n ≠ 0) (hle : s.2.length ≤ n) :
    collect (s :: segments) n = ((collect segments (n - s.2.length)).1,
      s.2 ++ (collect segments (n - s.2.length)).2) := by
  rw [collect, if_neg hn, if_pos hle]

theorem collect_part (hn : n ≠ 0) (hlt : ¬s.2.length ≤ n) :
    collect (s :: segments) n = (tail s n :: segments, s.2.take n) := by
  rw [collect, if_neg hn, if_neg hlt]

theorem reach_of_lt (h : ∀ s ∈ segments, pos < s.1) : reach segments pos = pos := by
  cases segments with
  | nil => rfl
  | cons s rest => exact if_neg (Nat.ne_of_gt (h s List.mem_cons_self))

-- What is collected is the next part of the stream.
theorem collect_data (hlaid : Laid pos segments) (hwithin : ∀ s ∈ segments, Within base stream s)
    (hbase : base ≤ pos) (hn : pos + n ≤ reach segments pos) :
    (collect segments n).2 = (stream.drop (pos - base)).take n := by
  induction segments generalizing pos n with
  | nil =>
      have hzero : n = 0 := by
        change pos + n ≤ pos at hn
        omega
      rw [hzero, List.take_zero]
      rfl
  | cons s rest ih =>
      obtain ⟨key, data⟩ := s
      unfold collect
      split
      · rename_i hzero
        rw [hzero, List.take_zero]
      · rename_i hpos
        have hkey : key = pos := by
          by_contra hne
          have hreach : reach ((key, data) :: rest) pos = pos := if_neg hne
          omega
        subst hkey
        have hreach : reach ((key, data) :: rest) key = reach rest (key + data.length) := if_pos rfl
        have hs := hwithin (key, data) List.mem_cons_self
        have hdata : (stream.drop (key - base)).take data.length = data := hs.data
        split
        · rename_i hle
          change data.length ≤ n at hle
          have hnext := ih hlaid.tail (fun t ht => hwithin t (List.mem_cons_of_mem _ ht))
            (n := n - data.length) (Nat.le_trans hbase (Nat.le_add_right ..)) (by
              change key + data.length + (n - data.length) ≤ reach rest (key + data.length)
              omega)
          have hsplit : n = data.length + (n - data.length) := by omega
          change data ++ (collect rest (n - data.length)).2 = _
          rw [hnext, hsplit, List.take_add, hdata, Nat.add_sub_cancel_left, List.drop_drop]
          congr 3
          change key + data.length - base = key - base + data.length
          omega
        · rename_i hlt
          change ¬data.length ≤ n at hlt
          change data.take n = _
          rw [← hdata, List.take_take, Nat.min_eq_left (by omega)]

theorem collect_reach (hlaid : Laid pos segments) (hwithin : ∀ s ∈ segments, s.2 ≠ [])
    (hn : pos + n ≤ reach segments pos) :
    Laid (pos + n) (collect segments n).1 ∧
      reach (collect segments n).1 (pos + n) = reach segments pos := by
  induction segments generalizing pos n with
  | nil =>
      change pos + n ≤ pos at hn
      have hzero : n = 0 := by omega
      subst hzero
      exact ⟨⟨nofun, List.Pairwise.nil⟩, rfl⟩
  | cons s rest ih =>
      obtain ⟨key, data⟩ := s
      unfold collect
      split
      · rename_i hzero
        subst hzero
        exact ⟨hlaid, rfl⟩
      · rename_i hpos
        have hkey : key = pos := by
          by_contra hne
          have hreach : reach ((key, data) :: rest) pos = pos := if_neg hne
          omega
        subst hkey
        have hreach : reach ((key, data) :: rest) key = reach rest (key + data.length) := if_pos rfl
        split
        · rename_i hle
          change data.length ≤ n at hle
          have hsum : key + n = key + data.length + (n - data.length) := by omega
          rw [hreach, hsum]
          apply ih hlaid.tail fun t ht => hwithin t (List.mem_cons_of_mem _ ht)
          change key + data.length + (n - data.length) ≤ reach rest (key + data.length)
          omega
        · rename_i hlt
          change ¬data.length ≤ n at hlt
          have hrest := List.pairwise_cons.mp hlaid.apart
          have hend : key + n + (data.drop n).length = key + data.length := by
            rw [List.length_drop]
            omega
          refine ⟨⟨?_, ?_⟩, ?_⟩
          · intro t ht
            rcases List.mem_cons.mp ht with rfl | ht
            · exact Nat.le_refl _
            · have := hrest.1 t ht
              dsimp only at this
              omega
          · rw [List.pairwise_cons]
            refine ⟨?_, hrest.2⟩
            intro t ht
            have := hrest.1 t ht
            unfold tail
            dsimp only at this ⊢
            omega
          · rw [hreach]
            change (if key + n = key + n then reach rest (key + n + (data.drop n).length)
              else key + n) = _
            rw [if_pos rfl, hend]

-- What is left are segments and the end of one, which starts at the next position.
theorem mem_collect (hlaid : Laid pos segments) (hne : ∀ s ∈ segments, s.2 ≠ [])
    (hn : pos + n ≤ reach segments pos) (ht : t ∈ (collect segments n).1) :
    ∃ s ∈ segments, ∃ k, k < s.2.length ∧ t = tail s k ∧ (k = 0 ∨ t.1 = pos + n) := by
  have hwhole : ∀ s ∈ segments, s.2 ≠ [] ∧ s = tail s 0 := by
    intro s hs
    exact ⟨hne s hs, by simp [tail]⟩
  induction segments generalizing pos n with
  | nil => cases ht
  | cons s rest ih =>
      obtain ⟨key, data⟩ := s
      unfold collect at ht
      split at ht
      · obtain ⟨hnil, heq⟩ := hwhole t ht
        exact ⟨t, ht, 0, List.length_pos_iff.mpr hnil, heq, Or.inl rfl⟩
      · rename_i hpos
        have hkey : key = pos := by
          by_contra hne
          have hreach : reach ((key, data) :: rest) pos = pos := if_neg hne
          omega
        subst hkey
        have hreach : reach ((key, data) :: rest) key = reach rest (key + data.length) := if_pos rfl
        split at ht
        · rename_i hle
          change data.length ≤ n at hle
          obtain ⟨s, hs, k, hk, heq, hlast⟩ := ih hlaid.tail
            (fun t ht => hne t (List.mem_cons_of_mem _ ht))
            (by
              change key + data.length + (n - data.length) ≤ reach rest (key + data.length)
              omega) ht
            fun t ht => hwhole t (List.mem_cons_of_mem _ ht)
          refine ⟨s, List.mem_cons_of_mem _ hs, k, hk, heq, hlast.imp_right fun h => ?_⟩
          rw [h]
          dsimp only
          omega
        · rename_i hlt
          change ¬data.length ≤ n at hlt
          rcases List.mem_cons.mp ht with rfl | ht
          · exact ⟨(key, data), List.mem_cons_self, n, by dsimp only; omega, rfl, Or.inr rfl⟩
          · have hmem := List.mem_cons_of_mem (key, data) ht
            obtain ⟨hnil, heq⟩ := hwhole t hmem
            exact ⟨t, hmem, 0, List.length_pos_iff.mpr hnil, heq, Or.inl rfl⟩

end Rpcsx.Data.Segments
