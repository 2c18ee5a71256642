import Mathlib.Data.List.Sort
import Mathlib.Order.Basic

namespace Rpcsx.Data

-- A map kept in key order, as a balanced search tree presents itself through its
-- iterators. The order is a field, so an unsorted map cannot be built.
structure OrderedMap (κ α : Type) [LinearOrder κ] where
  entries : List (κ × α)
  sorted : entries.Pairwise fun x y => x.1 < y.1

namespace OrderedMap

variable {κ α : Type} [LinearOrder κ]

@[ext] theorem ext {m n : OrderedMap κ α} (h : m.entries = n.entries) : m = n := by
  cases m; cases n; cases h; rfl

def empty : OrderedMap κ α := ⟨[], List.Pairwise.nil⟩

instance : Inhabited (OrderedMap κ α) := ⟨empty⟩

def size (m : OrderedMap κ α) : Nat := m.entries.length

def find? (m : OrderedMap κ α) (key : κ) : Option α :=
  (m.entries.find? (·.1 = key)).map Prod.snd

-- An iterator is the key it stands at. The past-the-end iterator is `none`.
def begin (m : OrderedMap κ α) : Option κ := m.entries.head?.map Prod.fst

def lowerBound (m : OrderedMap κ α) (key : κ) : Option κ :=
  (m.entries.find? (key ≤ ·.1)).map Prod.fst

-- The key after and the key before a present key.
def next (m : OrderedMap κ α) (key : κ) : Option κ :=
  (m.entries.find? (key < ·.1)).map Prod.fst

def prev (m : OrderedMap κ α) (key : κ) : Option κ :=
  (m.entries.filter (·.1 < key)).getLast?.map Prod.fst

theorem splice_sorted (m : OrderedMap κ α) (key : κ) (value : α) :
    (m.entries.filter (·.1 < key) ++ (key, value) :: m.entries.filter (key < ·.1)).Pairwise
      fun x y => x.1 < y.1 := by
  rw [List.pairwise_append, List.pairwise_cons]
  refine ⟨m.sorted.filter _, ⟨?_, m.sorted.filter _⟩, ?_⟩
  · intro x hx
    simpa using (List.mem_filter.mp hx).2
  · intro x hx y hy
    have hk : x.1 < key := by simpa using (List.mem_filter.mp hx).2
    rcases List.mem_cons.mp hy with rfl | hy
    · exact hk
    · exact hk.trans (by simpa using (List.mem_filter.mp hy).2)

-- Stores a value under a key, whether or not the key was present.
def assign (m : OrderedMap κ α) (key : κ) (value : α) : OrderedMap κ α :=
  ⟨_, m.splice_sorted key value⟩

-- Inserts unless the key is present. The flag tells whether it inserted.
def emplace (m : OrderedMap κ α) (key : κ) (value : α) : OrderedMap κ α × Bool :=
  if (m.find? key).isSome then (m, false) else (m.assign key value, true)

def erase (m : OrderedMap κ α) (key : κ) : OrderedMap κ α :=
  ⟨m.entries.filter (·.1 ≠ key), m.sorted.filter _⟩

section Cursor

-- The lemmas below read a map at an entry that splits it in two.
variable {m : OrderedMap κ α} {before after : List (κ × α)} {key : κ} {value : α}

theorem lt_of_before (h : m.entries = before ++ (key, value) :: after) :
    ∀ x ∈ before, x.1 < key := by
  have hs := m.sorted
  rw [h, List.pairwise_append] at hs
  exact fun x hx => hs.2.2 x hx (key, value) (by simp)

theorem lt_of_after (h : m.entries = before ++ (key, value) :: after) :
    ∀ x ∈ after, key < x.1 := by
  have hs := m.sorted
  rw [h, List.pairwise_append, List.pairwise_cons] at hs
  exact hs.2.1.1

theorem filter_lt_at (h : m.entries = before ++ (key, value) :: after) :
    m.entries.filter (·.1 < key) = before := by
  have hb : before.filter (·.1 < key) = before := by
    rw [List.filter_eq_self]
    intro x hx
    simpa using lt_of_before h x hx
  have ha : after.filter (·.1 < key) = [] := by
    rw [List.filter_eq_nil_iff]
    intro x hx
    simpa using (lt_of_after h x hx).le
  simp [h, List.filter_append, hb, ha]

theorem filter_gt_at (h : m.entries = before ++ (key, value) :: after) :
    m.entries.filter (key < ·.1) = after := by
  have hb : before.filter (key < ·.1) = [] := by
    rw [List.filter_eq_nil_iff]
    intro x hx
    simpa using (lt_of_before h x hx).le
  have ha : after.filter (key < ·.1) = after := by
    rw [List.filter_eq_self]
    intro x hx
    simpa using lt_of_after h x hx
  simp [h, List.filter_append, hb, ha]

theorem find?_at (h : m.entries = before ++ (key, value) :: after) :
    m.find? key = some value := by
  have hb : before.find? (·.1 = key) = none := by
    rw [List.find?_eq_none]
    intro x hx
    simpa using (lt_of_before h x hx).ne
  simp [find?, h, List.find?_append, hb]

theorem next_at (h : m.entries = before ++ (key, value) :: after) :
    m.next key = after.head?.map Prod.fst := by
  rw [next, ← List.head?_filter, filter_gt_at h]

theorem prev_at (h : m.entries = before ++ (key, value) :: after) :
    m.prev key = before.getLast?.map Prod.fst := by
  rw [prev, filter_lt_at h]

theorem assign_at (h : m.entries = before ++ (key, value) :: after) (new : α) :
    (m.assign key new).entries = before ++ (key, new) :: after := by
  simp only [assign, filter_lt_at h, filter_gt_at h]

theorem erase_at (h : m.entries = before ++ (key, value) :: after) :
    (m.erase key).entries = before ++ after := by
  have hb : before.filter (fun x => decide (x.1 ≠ key)) = before := by
    rw [List.filter_eq_self]
    intro x hx
    simpa using (lt_of_before h x hx).ne
  have ha : after.filter (fun x => decide (x.1 ≠ key)) = after := by
    rw [List.filter_eq_self]
    intro x hx
    simpa using (lt_of_after h x hx).ne'
  simp only [erase, h, List.filter_append, hb, List.filter_cons, ha]
  simp

theorem lowerBound_at (h : m.entries = before ++ (key, value) :: after) {bound : κ}
    (hb : ∀ x ∈ before, x.1 < bound) (hk : bound ≤ key) :
    m.lowerBound bound = some key := by
  have hn : before.find? (bound ≤ ·.1) = none := by
    rw [List.find?_eq_none]
    intro x hx
    simpa using hb x hx
  simp [lowerBound, h, List.find?_append, hn, hk]

end Cursor

theorem lowerBound_none {m : OrderedMap κ α} {bound : κ}
    (hb : ∀ x ∈ m.entries, x.1 < bound) : m.lowerBound bound = none := by
  simpa [lowerBound] using hb

section Split

variable (m : OrderedMap κ α)

-- Every key cuts the entries in three: the keys below, the key itself if present, the
-- keys above.
theorem entries_split (key : κ) :
    m.entries = m.entries.filter (·.1 < key) ++ (m.find? key).toList.map (key, ·) ++
      m.entries.filter (key < ·.1) := by
  obtain ⟨entries, hs⟩ := m
  simp only [find?]
  induction entries with
  | nil => rfl
  | cons x rest ih =>
      obtain ⟨first, old⟩ := x
      obtain ⟨hx, hr⟩ := List.pairwise_cons.mp hs
      have hi := ih hr
      rcases lt_trichotomy first key with hk | rfl | hk
      · simpa [hk, hk.ne, hk.le] using hi
      · have hlt : rest.filter (·.1 < first) = [] := by
          rw [List.filter_eq_nil_iff]
          intro y hy
          simpa using (hx y hy).le
        have hgt : rest.filter (first < ·.1) = rest := by
          rw [List.filter_eq_self]
          intro y hy
          simpa using hx y hy
        simp [hlt, hgt]
      · have hlt : rest.filter (·.1 < key) = [] := by
          rw [List.filter_eq_nil_iff]
          intro y hy
          simpa using (hk.trans (hx y hy)).le
        have hgt : rest.filter (key < ·.1) = rest := by
          rw [List.filter_eq_self]
          intro y hy
          simpa using hk.trans (hx y hy)
        have hf : rest.find? (·.1 = key) = none := by
          rw [List.find?_eq_none]
          intro y hy
          simpa using (hk.trans (hx y hy)).ne'
        simp [hk, hk.le, hk.ne', hlt, hgt, hf]

theorem entries_split_le (key : κ) :
    m.entries = m.entries.filter (·.1 < key) ++ m.entries.filter (key ≤ ·.1) := by
  have hs := m.entries_split key
  have hf : m.entries.filter (key ≤ ·.1) =
      (m.find? key).toList.map (key, ·) ++ m.entries.filter (key < ·.1) := by
    conv_lhs => rw [hs]
    simp only [List.filter_append, List.filter_filter, List.filter_map]
    have hb : m.entries.filter (fun x => decide (key ≤ x.1) && decide (x.1 < key)) = [] := by
      rw [List.filter_eq_nil_iff]
      intro x _
      simp
    have ha : m.entries.filter (fun x => decide (key ≤ x.1) && decide (key < x.1)) =
        m.entries.filter (key < ·.1) := by
      apply List.filter_congr
      intro x _
      by_cases hx : key < x.1
      · simp [hx, hx.le]
      · simp [hx]
    rw [hb, ha]
    simp [Function.comp_def]
  rw [hf, ← List.append_assoc]
  exact hs

theorem entries_split_lt (key : κ) :
    m.entries = m.entries.filter (·.1 ≤ key) ++ m.entries.filter (key < ·.1) := by
  have hs := m.entries_split key
  have hf : m.entries.filter (·.1 ≤ key) =
      m.entries.filter (·.1 < key) ++ (m.find? key).toList.map (key, ·) := by
    conv_lhs => rw [hs]
    simp only [List.filter_append, List.filter_filter, List.filter_map]
    have hb : m.entries.filter (fun x => decide (x.1 ≤ key) && decide (x.1 < key)) =
        m.entries.filter (·.1 < key) := by
      apply List.filter_congr
      intro x _
      by_cases hx : x.1 < key
      · simp [hx, hx.le]
      · simp [hx]
    have ha : m.entries.filter (fun x => decide (x.1 ≤ key) && decide (key < x.1)) = [] := by
      rw [List.filter_eq_nil_iff]
      intro x _
      simp
    rw [hb, ha]
    simp [Function.comp_def]
  rw [hf]
  exact hs

-- The two ends of a range cut them in five.
theorem entries_split_range {lo hi : κ} (hlt : lo < hi) :
    m.entries = m.entries.filter (·.1 < lo) ++ (m.find? lo).toList.map (lo, ·) ++
      (m.entries.filter (fun x => lo < x.1 ∧ x.1 < hi) ++ (m.find? hi).toList.map (hi, ·)) ++
        m.entries.filter (hi < ·.1) := by
  let above : OrderedMap κ α := ⟨m.entries.filter (lo < ·.1), m.sorted.filter _⟩
  have hf : above.find? hi = m.find? hi := by
    simp only [above, find?, List.find?_filter]
    congr 2
    funext x
    by_cases hx : x.1 = hi <;> simp [hx, hlt]
  have hm : above.entries.filter (·.1 < hi) =
      m.entries.filter (fun x => lo < x.1 ∧ x.1 < hi) := by
    simp [above, List.filter_filter, Bool.and_comm]
  have ha : above.entries.filter (hi < ·.1) = m.entries.filter (hi < ·.1) := by
    simp only [above, List.filter_filter]
    apply List.filter_congr
    intro x _
    by_cases hx : hi < x.1
    · simp [hx, hlt.trans hx]
    · simp [hx]
  have hs := m.entries_split lo
  have hs' := above.entries_split hi
  rw [hf, hm, ha] at hs'
  rw [show m.entries.filter (lo < ·.1) = above.entries from rfl, hs'] at hs
  simpa only [List.append_assoc] using hs

theorem filter_le_range {lo hi : κ} (hlt : lo < hi) :
    m.entries.filter (·.1 ≤ hi) =
      m.entries.filter (·.1 < lo) ++ (m.find? lo).toList.map (lo, ·) ++
        (m.entries.filter (fun x => lo < x.1 ∧ x.1 < hi) ++ (m.find? hi).toList.map (hi, ·)) := by
  conv_lhs => rw [m.entries_split_range hlt]
  rw [List.filter_append]
  have hr : (m.entries.filter (hi < ·.1)).filter (·.1 ≤ hi) = [] := by
    rw [List.filter_eq_nil_iff]
    intro x hx
    simpa using (List.mem_filter.mp hx).2
  rw [hr, List.append_nil, List.filter_eq_self]
  intro x hx
  simp only [List.mem_append, List.mem_filter, List.mem_map] at hx
  rcases hx with (⟨_, hx⟩ | ⟨_, _, rfl⟩) | ⟨_, hx⟩ | ⟨_, _, rfl⟩
  · simpa using ((of_decide_eq_true hx).trans hlt).le
  · simpa using hlt.le
  · simpa using (of_decide_eq_true hx).2.le
  · simp

theorem emplace_entries (key : κ) (value : α) :
    (m.emplace key value).1.entries =
      m.entries.filter (·.1 < key) ++ (key, (m.find? key).getD value) ::
        m.entries.filter (key < ·.1) := by
  unfold emplace
  cases hf : m.find? key with
  | none => simp [assign]
  | some old =>
      have hs := m.entries_split key
      simp only [hf, Option.toList_some, List.map_cons, List.map_nil, List.append_assoc,
        List.singleton_append] at hs
      simpa using hs

theorem emplace_between {m : OrderedMap κ α} {before after : List (κ × α)} {key : κ}
    (h : m.entries = before ++ after) (hb : ∀ x ∈ before, x.1 < key)
    (ha : ∀ x ∈ after, key < x.1) (value : α) :
    (m.emplace key value).1.entries = before ++ (key, value) :: after := by
  have hf : m.find? key = none := by
    simp only [find?, Option.map_eq_none_iff, List.find?_eq_none, h, List.mem_append]
    rintro x (hx | hx)
    · simpa using (hb x hx).ne
    · simpa using (ha x hx).ne'
  have hl : m.entries.filter (·.1 < key) = before := by
    rw [h, List.filter_append, List.filter_eq_self.mpr (by simpa using hb),
      List.filter_eq_nil_iff.mpr (fun x hx => by simpa using (ha x hx).le), List.append_nil]
  have hr : m.entries.filter (key < ·.1) = after := by
    rw [h, List.filter_append, List.filter_eq_nil_iff.mpr (fun x hx => by simpa using (hb x hx).le),
      List.filter_eq_self.mpr (by simpa using ha), List.nil_append]
  rw [emplace_entries, hl, hr, hf, Option.getD_none]

theorem find?_eq_none_iff {m : OrderedMap κ α} {key : κ} :
    m.find? key = none ↔ ∀ entry ∈ m.entries, entry.1 ≠ key := by
  unfold find?
  rw [Option.map_eq_none_iff, List.find?_eq_none]
  simp only [decide_eq_true_eq, ne_eq]

-- A new key adds one entry.
theorem emplace_perm {m : OrderedMap κ α} {key : κ} (h : ∀ entry ∈ m.entries, entry.1 ≠ key)
    (value : α) : (m.emplace key value).1.entries.Perm ((key, value) :: m.entries) := by
  have hfind := find?_eq_none_iff.mpr h
  have hsplit := m.entries_split key
  rw [hfind] at hsplit
  simp only [Option.toList_none, List.map_nil, List.append_nil] at hsplit
  rw [m.emplace_entries, hfind, Option.getD_none]
  have hmiddle : (m.entries.filter (·.1 < key) ++ (key, value) ::
      m.entries.filter (key < ·.1)).Perm ((key, value) ::
        (m.entries.filter (·.1 < key) ++ m.entries.filter (key < ·.1))) := List.perm_middle
  rwa [← hsplit] at hmiddle

-- What is in a map behind an insertion.
theorem mem_emplace {m : OrderedMap κ α} {key : κ} {value : α} {entry : κ × α}
    (h : entry ∈ (m.emplace key value).1.entries) : entry ∈ m.entries ∨ entry = (key, value) := by
  cases hfind : m.find? key with
  | some old =>
      rw [emplace, if_pos (by rw [hfind]; rfl)] at h
      exact .inl h
  | none =>
      have hperm := emplace_perm (find?_eq_none_iff.mp hfind) value
      exact (List.mem_cons.mp (hperm.mem_iff.mp h)).symm

theorem mem_emplace_of_mem {m : OrderedMap κ α} {entry : κ × α} (h : entry ∈ m.entries) (key : κ)
    (value : α) : entry ∈ (m.emplace key value).1.entries := by
  cases hfind : m.find? key with
  | some old => rwa [emplace, if_pos (by rw [hfind]; rfl)]
  | none =>
      have hperm := emplace_perm (find?_eq_none_iff.mp hfind) value
      exact hperm.mem_iff.mpr (List.mem_cons_of_mem _ h)

theorem emplace_inserted (key : κ) (value : α) :
    (m.emplace key value).2 = (m.find? key).isNone := by
  unfold emplace
  cases m.find? key <;> rfl

theorem find?_emplace_self (key : κ) (value : α) :
    (m.emplace key value).1.find? key = some ((m.find? key).getD value) :=
  find?_at (m.emplace_entries key value)

theorem find?_emplace_ne {key other : κ} (value : α) (hne : other ≠ key) :
    (m.emplace key value).1.find? other = m.find? other := by
  have hs := m.entries_split key
  cases hf : m.find? key with
  | some old => simp [emplace, hf]
  | none =>
      simp only [hf, Option.toList_none, List.map_nil, List.append_nil] at hs
      have hm : (m.emplace key value).1 = m.assign key value := by simp [emplace, hf]
      rw [hm]
      simp only [find?, assign]
      conv_rhs => rw [hs]
      rw [List.find?_append, List.find?_append,
        List.find?_cons_of_neg (by simpa using Ne.symm hne)]

-- Inserting both ends of a range leaves the three stretches around them as they were.
theorem emplace_emplace_entries {lo hi : κ} (hlt : lo < hi) (atLo atHi : α) :
    ((m.emplace lo atLo).1.emplace hi atHi).1.entries =
      m.entries.filter (·.1 < lo) ++ (lo, (m.find? lo).getD atLo) ::
        (m.entries.filter (fun x => lo < x.1 ∧ x.1 < hi) ++ (hi, (m.find? hi).getD atHi) ::
          m.entries.filter (hi < ·.1)) := by
  rw [emplace_entries, emplace_entries, m.find?_emplace_ne atLo hlt.ne']
  have hb : (m.entries.filter (·.1 < lo)).filter (·.1 < hi) = m.entries.filter (·.1 < lo) := by
    rw [List.filter_eq_self]
    intro x hx
    have hk : x.1 < lo := by simpa using (List.mem_filter.mp hx).2
    simpa using hk.trans hlt
  have hb' : (m.entries.filter (·.1 < lo)).filter (hi < ·.1) = [] := by
    rw [List.filter_eq_nil_iff]
    intro x hx
    have hk : x.1 < lo := by simpa using (List.mem_filter.mp hx).2
    simpa using (hk.trans hlt).le
  have ha : (m.entries.filter (lo < ·.1)).filter (hi < ·.1) = m.entries.filter (hi < ·.1) := by
    rw [List.filter_filter]
    apply List.filter_congr
    intro x _
    by_cases hx : hi < x.1
    · simp [hx, hlt.trans hx]
    · simp [hx]
  have hm : (m.entries.filter (lo < ·.1)).filter (·.1 < hi) =
      m.entries.filter (fun x => lo < x.1 ∧ x.1 < hi) := by
    rw [List.filter_filter]
    apply List.filter_congr
    intro x _
    simp [Bool.and_comm]
  rw [List.filter_append, List.filter_append, List.filter_cons_of_pos (by simpa using hlt),
    List.filter_cons_of_neg (by simpa using hlt.le), hb, hb', ha, hm]
  simp

end Split

end OrderedMap

end Rpcsx.Data
