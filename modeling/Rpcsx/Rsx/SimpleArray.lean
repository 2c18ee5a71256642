import Mathlib.Data.List.Count
import Mathlib.Data.List.TakeDrop

namespace Rpcsx.Rsx.SimpleArray

variable {α : Type}

-- The loop of `erase_if`. The elements from `size` on are still in memory.
structure Scan (α : Type) where
  data : List α
  size : Nat
  ptr : Nat
  last : Nat
  ret : Bool

-- The item at `ptr` is overwritten and the array shrinks.
def Scan.fill (s : Scan α) (moved : α) : Scan α where
  data := s.data.set s.ptr moved
  size := s.size - 1
  ptr := s.ptr + 1
  last := s.size - 1
  ret := true

def Scan.round (p : α → Bool) (s : Scan α) : Scan α :=
  match s.data[s.ptr]?, s.data[s.last]? with
  | some item, some moved => if p item then s.fill moved else { s with ptr := s.ptr + 1 }
  | _, _ => s

def Scan.run (p : α → Bool) : Nat → Scan α → Scan α
  | 0, s => s
  | rounds + 1, s => if s.ptr < s.last then run p rounds (s.round p) else s

def eraseIf (p : α → Bool) (data : List α) : List α × Bool :=
  if data.length = 0 then (data, false)
  else
    let s := Scan.run p data.length ⟨data, data.length, 0, data.length - 1, false⟩
    (s.data.take s.size, s.ret)

-- What is copied into the holes, in the order of the holes. `last` becomes the end of the shrunken
-- array, so that the last element is copied twice.
def moved (data : List α) : Nat → List α
  | 0 => []
  | removed + 1 => data.reverse.take 1 ++ data.reverse.take removed

theorem moved_succ {data : List α} {removed last : Nat} {item : α} (hitem : data[last]? = some item)
    (hle : removed ≤ data.length)
    (hlast : last = if removed = 0 then data.length - 1 else data.length - removed) :
    moved data (removed + 1) = moved data removed ++ [item] := by
  obtain ⟨hlt, rfl⟩ := List.getElem?_eq_some_iff.mp hitem
  cases removed with
  | zero =>
      rw [if_pos rfl] at hlast
      subst hlast
      simp only [moved, List.take_zero, List.append_nil, List.nil_append]
      rw [List.take_one, List.head?_reverse, List.getLast?_eq_getElem?, List.getElem?_eq_getElem hlt]
      rfl
  | succ removed =>
      rw [if_neg (Nat.succ_ne_zero _)] at hlast
      subst hlast
      have hr : removed < data.reverse.length := by
        rw [List.length_reverse]
        omega
      have hget : data.reverse[removed] = data[data.length - (removed + 1)] := by
        rw [List.getElem_reverse]
        congr 1
        omega
      simp only [moved, List.append_assoc]
      rw [List.take_succ_eq_append_getElem hr, hget]

-- Where the loop is after `removed` removals.
structure Scanned (p : α → Bool) (data : List α) (s : Scan α) (removed : Nat) : Prop where
  length : s.data.length = data.length
  rest : s.data.drop s.ptr = data.drop s.ptr
  count : (data.take s.ptr).countP p = removed
  size : s.size + removed = data.length
  last : s.last = if removed = 0 then data.length - 1 else data.length - removed
  ret : s.ret = decide (0 < removed)
  kept : (s.data.take s.ptr).Perm ((data.take s.ptr).filter (fun x => !p x) ++ moved data removed)

-- Where the loop ends: `scanned` elements have been looked at.
structure Ended (p : α → Bool) (data : List α) (s : Scan α) (scanned removed : Nat) : Prop where
  lt : scanned < data.length
  count : (data.take scanned).countP p = removed
  stop : removed = 0 ∧ scanned + 1 = data.length ∨ 1 ≤ removed ∧ scanned + removed = data.length ∨
    2 ≤ removed ∧ scanned + removed = data.length + 1 ∧
      ∃ item, data[scanned - 1]? = some item ∧ p item = true
  ret : s.ret = decide (0 < removed)
  kept : (s.data.take s.size).Perm ((data.take scanned).filter (fun x => !p x) ++
    (data.reverse.take 1 ++ data.reverse.take (data.length - scanned - 1)))

variable {p : α → Bool} {data : List α} {s : Scan α} {removed : Nat}

theorem Scanned.start :
    Scanned p data ⟨data, data.length, 0, data.length - 1, false⟩ 0 where
  length := rfl
  rest := rfl
  count := rfl
  size := rfl
  last := rfl
  ret := rfl
  kept := List.Perm.refl _

theorem Scanned.getElem?_eq (h : Scanned p data s removed) {i : Nat} (hi : s.ptr ≤ i) :
    s.data[i]? = data[i]? := by
  have hdrop := congrArg (fun l => l[i - s.ptr]?) h.rest
  simp only [List.getElem?_drop, Nat.add_sub_cancel' hi] at hdrop
  exact hdrop

theorem Scanned.keep (h : Scanned p data s removed) {item : α} (hitem : data[s.ptr]? = some item)
    (hp : p item = false) : Scanned p data { s with ptr := s.ptr + 1 } removed := by
  obtain ⟨hlt, rfl⟩ := List.getElem?_eq_some_iff.mp hitem
  have hitem' := (h.getElem?_eq (Nat.le_refl _)).trans hitem
  obtain ⟨hlt', hget⟩ := List.getElem?_eq_some_iff.mp hitem'
  refine ⟨h.length, ?_, ?_, h.size, h.last, h.ret, ?_⟩
  · rw [← List.drop_drop, ← List.drop_drop, h.rest]
  · rw [List.take_succ_eq_append_getElem hlt, List.countP_append, h.count]
    simp [hp]
  · rw [List.take_succ_eq_append_getElem hlt', List.take_succ_eq_append_getElem hlt,
      List.filter_append, hget]
    simp only [List.filter_cons, hp, Bool.not_false, if_true, List.filter_nil]
    refine (h.kept.append_right _).trans ?_
    rw [List.append_assoc, List.append_assoc]
    exact List.perm_append_comm.append_left _

theorem Scanned.remove (h : Scanned p data s removed) (hlt : s.ptr < s.last) {item moved : α}
    (hitem : data[s.ptr]? = some item) (hmoved : data[s.last]? = some moved)
    (hp : p item = true) :
    Scanned p data (s.fill moved) (removed + 1) := by
  obtain ⟨hget, rfl⟩ := List.getElem?_eq_some_iff.mp hitem
  have hlast := (List.getElem?_eq_some_iff.mp hmoved).1
  have hsize := h.size
  have hpos : 0 < s.size := by
    have hl := h.last
    split at hl <;> omega
  have hlength : s.ptr < s.data.length := by
    rw [h.length]
    exact hget
  refine ⟨?_, ?_, ?_, ?_, ?_, ?_, ?_⟩ <;> simp only [Scan.fill]
  · rw [List.length_set, h.length]
  · rw [List.drop_set_of_lt (show s.ptr < s.ptr + 1 by omega), ← List.drop_drop, ← List.drop_drop, h.rest]
  · rw [List.take_succ_eq_append_getElem hget, List.countP_append, h.count]
    simp [hp]
  · omega
  · rw [if_neg (Nat.succ_ne_zero _)]
    omega
  · simp
  · have htake : (s.data.set s.ptr moved).take (s.ptr + 1) = s.data.take s.ptr ++ [moved] := by
      rw [List.take_succ_eq_append_getElem (by rw [List.length_set]; exact hlength),
        List.take_set_of_le (Nat.le_refl _), List.getElem_set_self]
    rw [htake, List.take_succ_eq_append_getElem hget, List.filter_append,
      moved_succ hmoved (by omega) h.last]
    simp only [List.filter_cons, hp, Bool.not_true, Bool.false_eq_true, if_false, List.filter_nil,
      List.append_nil]
    rw [← List.append_assoc]
    exact h.kept.append_right _

-- The last removal may have been of the last element that was left.
theorem Scanned.ended_after (h : Scanned p data s removed) (hremoved : 1 ≤ removed)
    (hptr : s.ptr + 1 = s.last) {item moved : α} (hitem : data[s.ptr]? = some item)
    (hp : p item = true) :
    Ended p data (s.fill moved) (s.ptr + 1) (removed + 1) := by
  obtain ⟨hget, hitem'⟩ := List.getElem?_eq_some_iff.mp hitem
  have hsize := h.size
  have hlast := h.last
  rw [if_neg (by omega)] at hlast
  obtain ⟨k, rfl⟩ := Nat.exists_eq_add_of_le' hremoved
  refine ⟨by omega, ?_, ?_, ?_, ?_⟩
  · rw [List.take_succ_eq_append_getElem hget, List.countP_append, h.count, hitem']
    simp [hp]
  · exact Or.inr (Or.inr ⟨by omega, by omega, item, hitem, hp⟩)
  · simp [Scan.fill]
  · have hsize' : s.size - 1 = s.ptr := by omega
    have hrest : data.length - (s.ptr + 1) - 1 = k := by omega
    simp only [Scan.fill]
    rw [hsize', List.take_set_of_le (Nat.le_refl _), List.take_succ_eq_append_getElem hget,
      List.filter_append, hitem', hrest]
    simp only [List.filter_cons, hp, Bool.not_true, Bool.false_eq_true, if_false, List.filter_nil,
      List.append_nil]
    exact h.kept

theorem Scanned.ended (h : Scanned p data s removed) (hne : 0 < data.length)
    (hptr : s.ptr = s.last) : Ended p data s s.ptr removed := by
  have hsize := h.size
  have hlast := h.last
  cases removed with
  | zero =>
      rw [if_pos rfl] at hlast
      refine ⟨by omega, h.count, Or.inl ⟨rfl, by omega⟩, h.ret, ?_⟩
      have hdata : s.data.take s.size = s.data.take s.ptr ++ data.drop s.ptr := by
        rw [← h.rest, List.take_append_drop, List.take_of_length_le (by rw [h.length]; omega)]
      have hdrop : data.reverse.take 1 = data.drop s.ptr := by
        have hend : data.length - 1 = s.ptr := by omega
        rw [List.take_reverse, hend, List.drop_eq_getElem_cons (by omega : s.ptr < data.length),
          List.drop_of_length_le (by omega : data.length ≤ s.ptr + 1), List.reverse_singleton]
      have hrest : data.length - s.ptr - 1 = 0 := by omega
      have hkept := h.kept
      simp only [moved, List.append_nil] at hkept
      rw [hdata, hdrop, hrest, List.take_zero, List.append_nil]
      exact hkept.append_right _
  | succ k =>
      rw [if_neg (Nat.succ_ne_zero k)] at hlast
      refine ⟨by omega, h.count, Or.inr (Or.inl ⟨by omega, by omega⟩), h.ret, ?_⟩
      have hsize' : s.size = s.ptr := by omega
      have hrest : data.length - s.ptr - 1 = k := by omega
      rw [hsize', hrest]
      exact h.kept

theorem Scanned.run (hne : 0 < data.length) (rounds : Nat) (h : Scanned p data s removed)
    (hle : s.ptr ≤ s.last) (hrounds : s.last ≤ s.ptr + rounds) :
    ∃ scanned removed, Ended p data (Scan.run p rounds s) scanned removed := by
  induction rounds generalizing s removed with
  | zero => exact ⟨_, _, h.ended hne (by omega)⟩
  | succ rounds ih =>
      rw [Scan.run]
      split
      · rename_i hlt
        have hlast := h.last
        have hsize := h.size
        have hin : s.last < data.length := by
          split at hlast <;> omega
        obtain ⟨item, hitem⟩ : ∃ item, data[s.ptr]? = some item :=
          ⟨_, List.getElem?_eq_getElem (by omega)⟩
        obtain ⟨moved, hmoved⟩ : ∃ moved, data[s.last]? = some moved :=
          ⟨_, List.getElem?_eq_getElem hin⟩
        have hround : s.round p =
            if p item then s.fill moved else { s with ptr := s.ptr + 1 } := by
          simp only [Scan.round, h.getElem?_eq (Nat.le_refl _), hitem, h.getElem?_eq hle, hmoved]
        rw [hround]
        cases hp : p item with
        | false =>
            rw [if_neg Bool.false_ne_true]
            exact ih (h.keep hitem hp) hlt (by dsimp only; omega)
        | true =>
            rw [if_pos rfl]
            by_cases hend : 1 ≤ removed ∧ s.ptr + 1 = s.last
            · have hstop : Scan.run p rounds (s.fill moved) = s.fill moved := by
                cases rounds with
                | zero => rfl
                | succ rounds =>
                    rw [if_neg (by omega)] at hlast
                    exact if_neg (by simp only [Scan.fill]; omega)
              rw [hstop]
              exact ⟨_, _, h.ended_after hend.1 hend.2 hitem hp⟩
            · apply ih (h.remove hlt hitem hmoved hp)
              · simp only [Scan.fill]
                split at hlast <;> omega
              · simp only [Scan.fill]
                split at hlast <;> omega
      · exact ⟨_, _, h.ended hne (by omega)⟩

-- The array keeps exactly what the predicate does not hold of, and the answer says whether there
-- was anything to remove.
def Erases (p : α → Bool) (data : List α) : Prop :=
  (eraseIf p data).1.Perm (data.filter fun x => !p x) ∧
    ((eraseIf p data).2 = true ↔ ∃ x ∈ data, p x = true)

-- How many elements lie behind the last one that the predicate holds of.
def behind (p : α → Bool) (data : List α) : Nat :=
  (data.reverse.takeWhile fun x => !p x).length

theorem le_behind_iff {t : Nat} (ht : t ≤ data.length) :
    t ≤ behind p data ↔ ∀ x ∈ data.reverse.take t, p x = false := by
  have hlist : ∀ (t : Nat) (list : List α), t ≤ list.length →
      (t ≤ (list.takeWhile fun x => !p x).length ↔ ∀ x ∈ list.take t, p x = false) := by
    intro t list
    induction list generalizing t with
    | nil =>
        intro ht
        obtain rfl : t = 0 := Nat.le_zero.mp ht
        simp
    | cons x list ih =>
        intro ht
        cases t with
        | zero => simp
        | succ t =>
            have hrec := ih t (Nat.le_of_succ_le_succ ht)
            cases hp : p x with
            | false => simp [hp, hrec]
            | true => simp [hp]
  exact hlist t data.reverse (by rwa [List.length_reverse])

-- The copies of the last elements make up for the tail that is cut off.
theorem tail_perm_iff {t : Nat} (h1 : 1 ≤ t) (ht : t ≤ data.length) :
    (data.reverse.take 1 ++ data.reverse.take (t - 1)).Perm
        ((data.reverse.take t).filter fun x => !p x) ↔
      t ≤ behind p data ∧ data.reverse[t - 1]? = data.reverse[0]? := by
  obtain ⟨k, rfl⟩ := Nat.exists_eq_add_of_le' h1
  have hk : k < data.reverse.length := by
    rw [List.length_reverse]
    omega
  have htake := List.take_succ_eq_append_getElem hk
  have hfirst : data.reverse.take 1 = [data.reverse[0]] := by
    rw [List.take_succ_eq_append_getElem (by omega), List.take_zero, List.nil_append]
  have hall : (∀ x ∈ data.reverse.take (k + 1), p x = false) →
      ((data.reverse.take (k + 1)).filter fun x => !p x) = data.reverse.take (k + 1) := by
    intro h
    rw [List.filter_eq_self]
    intro x hx
    rw [h x hx]
    rfl
  rw [le_behind_iff ht, Nat.add_sub_cancel]
  constructor
  · intro hperm
    have hlength := hperm.length_eq
    have hfilter : ((data.reverse.take (k + 1)).filter fun x => !p x).length =
        (data.reverse.take (k + 1)).length := by
      rw [← hlength]
      simp only [List.length_append, List.length_take]
      omega
    have hp : ∀ x ∈ data.reverse.take (k + 1), p x = false := by
      intro x hx
      have hx' := List.length_filter_eq_length_iff.mp hfilter x hx
      simpa using hx'
    refine ⟨hp, ?_⟩
    rw [hall hp, htake, hfirst] at hperm
    have hlast := (List.perm_append_left_iff _).mp (List.perm_append_comm.trans hperm)
    have heq := List.perm_singleton.mp hlast
    rw [List.getElem?_eq_getElem hk, List.getElem?_eq_getElem (by omega : 0 < data.reverse.length)]
    exact congrArg some (List.singleton_inj.mp heq).symm
  · rintro ⟨hp, hget⟩
    rw [List.getElem?_eq_getElem hk,
      List.getElem?_eq_getElem (by omega : 0 < data.reverse.length)] at hget
    rw [hall hp, htake, hfirst, Option.some.inj hget]
    exact List.perm_append_comm

-- Nothing to remove, or enough elements behind the last one to remove and the copies are of
-- elements that are lost.
def Refills (p : α → Bool) (data : List α) : Prop :=
  data.countP p = 0 ∨ 1 ≤ behind p data ∧ data.countP p ≤ behind p data + 1 ∧
    data.reverse[min (behind p data) (data.countP p) - 1]? = data.reverse[0]?

theorem countP_reverse_tail {scanned : Nat} (hle : scanned ≤ data.length) :
    (data.drop scanned).countP p = (data.reverse.take (data.length - scanned)).countP p := by
  rw [List.take_reverse, Nat.sub_sub_self hle, List.countP_reverse]

theorem Ended.countP_add {scanned : Nat} (h : Ended p data s scanned removed) :
    data.countP p = removed + (data.drop scanned).countP p := by
  rw [← h.count, ← List.countP_append, List.take_append_drop]

theorem Ended.countP_eq {scanned : Nat} (h : Ended p data s scanned removed)
    (hle : data.length - scanned ≤ behind p data) : data.countP p = removed := by
  have hzero : (data.drop scanned).countP p = 0 := by
    rw [le_behind_iff (Nat.sub_le _ _)] at hle
    rw [countP_reverse_tail (Nat.le_of_lt h.lt), List.countP_eq_zero]
    intro x hx
    rw [hle x hx]
    exact Bool.false_ne_true
  rw [h.countP_add, hzero, Nat.add_zero]

theorem Ended.refills_iff {scanned : Nat} (h : Ended p data s scanned removed) :
    data.length - scanned ≤ behind p data ∧
        data.reverse[data.length - scanned - 1]? = data.reverse[0]? ↔ Refills p data := by
  have hlt := h.lt
  have hstop := h.stop
  have hcount := h.countP_add
  have hbehind : behind p data ≤ data.length :=
    Nat.le_trans (List.takeWhile_sublist _).length_le (Nat.le_of_eq List.length_reverse)
  have hremoved : removed ≤ scanned := by
    rw [← h.count]
    exact Nat.le_trans List.countP_le_length (List.length_take_le _ _)
  -- when the last removal is of the element in front of the tail, the tail ends there
  have hexact : scanned + removed = data.length + 1 →
      ¬data.length - scanned + 1 ≤ behind p data := by
    intro hs hle
    obtain ⟨item, hitem, hp⟩ : ∃ item, data[scanned - 1]? = some item ∧ p item = true := by
      rcases hstop with hstop | hstop | ⟨-, -, hstop⟩
      · omega
      · omega
      · exact hstop
    rw [le_behind_iff (by omega)] at hle
    have hmem : item ∈ data.reverse.take (data.length - scanned + 1) := by
      rw [List.take_reverse, List.mem_reverse]
      apply List.mem_of_getElem? (i := 0)
      rw [List.getElem?_drop, show data.length - (data.length - scanned + 1) + 0 =
        scanned - 1 by omega]
      exact hitem
    rw [hle item hmem] at hp
    cases hp
  constructor
  · rintro ⟨hle, hget⟩
    have hc := h.countP_eq hle
    by_cases hzero : removed = 0
    · exact Or.inl (by omega)
    · refine Or.inr ⟨by omega, by omega, ?_⟩
      rw [show min (behind p data) (data.countP p) - 1 = data.length - scanned - 1 by omega]
      exact hget
  · intro hrefills
    have hle : data.length - scanned ≤ behind p data := by
      by_contra hgt
      have hmore : (data.drop scanned).countP p ≠ 0 := by
        intro hzero
        apply hgt
        rw [le_behind_iff (Nat.sub_le _ _)]
        intro x hx
        rw [countP_reverse_tail (Nat.le_of_lt hlt), List.countP_eq_zero] at hzero
        simpa using hzero x hx
      rcases hrefills with hzero | ⟨h1, hle, -⟩ <;> omega
    have hc := h.countP_eq hle
    refine ⟨hle, ?_⟩
    rcases hrefills with hzero | ⟨h1, hle', hget⟩
    · rw [show data.length - scanned - 1 = 0 by omega]
    · rw [show data.length - scanned - 1 = min (behind p data) (data.countP p) - 1 by omega]
      exact hget

theorem eraseIf_erases_iff (p : α → Bool) (data : List α) : Erases p data ↔ Refills p data := by
  by_cases hne : data.length = 0
  · obtain rfl := List.length_eq_zero_iff.mp hne
    exact iff_of_true ⟨List.Perm.refl _, by simp [eraseIf]⟩ (Or.inl rfl)
  obtain ⟨scanned, removed, h⟩ := (Scanned.start (p := p)).run (Nat.pos_of_ne_zero hne) data.length
    (Nat.zero_le _) (by dsimp only; omega)
  have hlt := h.lt
  have hfilter : (data.filter fun x => !p x).Perm ((data.take scanned).filter (fun x => !p x) ++
      (data.reverse.take (data.length - scanned)).filter fun x => !p x) := by
    conv_lhs => rw [← List.take_append_drop scanned data, List.filter_append]
    apply List.Perm.append_left
    rw [List.take_reverse, Nat.sub_sub_self (Nat.le_of_lt hlt), List.filter_reverse]
    exact (List.reverse_perm _).symm
  have hperm : (eraseIf p data).1.Perm (data.filter fun x => !p x) ↔ Refills p data := by
    rw [← h.refills_iff, ← tail_perm_iff (by omega) (Nat.sub_le _ _), eraseIf, if_neg hne]
    constructor
    · intro hp
      exact (List.perm_append_left_iff _).mp (h.kept.symm.trans (hp.trans hfilter))
    · intro hp
      exact h.kept.trans ((hp.append_left _).trans hfilter.symm)
  constructor
  · exact fun hmeets => hperm.mp hmeets.1
  · intro hrefills
    refine ⟨hperm.mpr hrefills, ?_⟩
    have hret : (eraseIf p data).2 = decide (0 < removed) := by
      rw [eraseIf, if_neg hne]
      exact h.ret
    rw [hret, decide_eq_true_eq, ← h.countP_eq (h.refills_iff.mpr hrefills).1, List.countP_pos_iff]

-- Of two elements to remove the second is replaced by the copy that the first left.
theorem eraseIf_two : ¬Erases (fun x => decide (x = 0)) [0, 0, 1, 2, 3] := by
  rintro ⟨hperm, -⟩
  exact absurd (hperm.count_eq 2) (by decide)

end Rpcsx.Rsx.SimpleArray
