import Rpcsx.AddressRange
import Mathlib.Data.List.Perm.Basic

namespace Rpcsx.AddressRangeVector

open AddressRange

variable {newRange exclusion : AddressRange}

-- What counts of a vector: its valid members, in any order.
def members (data : AddressRangeVector) : List AddressRange := data.filter AddressRange.valid

def touched (newRange r : AddressRange) : Bool := r.valid && r.touches newRange

theorem invalid_valid : AddressRange.invalid.valid = false := rfl

theorem members_append (l r : AddressRangeVector) : members (l ++ r) = members l ++ members r :=
  List.filter_append ..

theorem members_cons_of_valid {r : AddressRange} (h : r.valid = true) (l : AddressRangeVector) :
    members (r :: l) = r :: members l := List.filter_cons_of_pos h

theorem members_cons_of_not {r : AddressRange} (h : r.valid = false) (l : AddressRangeVector) :
    members (r :: l) = members l := List.filter_cons_of_neg (by simp [h])

-- Storing into an invalid slot adds a member.
theorem members_set {l : AddressRangeVector} {k : Nat} {old r : AddressRange}
    (hk : l[k]? = some old) (hold : old.valid = false) (hr : r.valid = true) :
    (members (l.set k r)).Perm (r :: members l) := by
  obtain ⟨hlt, rfl⟩ := List.getElem?_eq_some_iff.mp hk
  have hsplit : l = l.take k ++ l[k] :: l.drop (k + 1) := by
    rw [List.getElem_cons_drop, List.take_append_drop]
  have hset : l.set k r = l.take k ++ r :: l.drop (k + 1) := List.set_eq_take_append_cons_drop ▸
    (by rw [if_pos hlt])
  rw [hset, members_append, members_cons_of_valid hr]
  have hl : members l = members (l.take k) ++ members (l.drop (k + 1)) := by
    conv_lhs => rw [hsplit]
    rw [members_append, members_cons_of_not hold]
  rw [hl]
  exact List.perm_middle

section Merge

-- Once a member is found it takes in all that touch the new range, and those are invalidated.
theorem mergeLoop_found (newRange : AddressRange) (pre mid : AddressRangeVector) (hull : AddressRange) (invalid : Option Nat)
    (rest : AddressRangeVector) :
    (mergeLoop newRange (pre ++ hull :: mid) (some pre.length) invalid rest).1 =
        pre ++ (rest.filter (touched newRange)).foldl getMinMax hull ::
          (mid ++ rest.map fun r => if touched newRange r then .invalid else r) ∧
      (mergeLoop newRange (pre ++ hull :: mid) (some pre.length) invalid rest).2.1 =
        some pre.length := by
  induction rest generalizing mid hull invalid with
  | nil => simp [mergeLoop]
  | cons r rest ih =>
      by_cases hv : r.valid = true
      · by_cases ht : r.touches newRange = true
        · have htouched : touched newRange r = true := by simp [touched, hv, ht]
          have hmodify : (pre ++ hull :: mid).modify pre.length (·.getMinMax r) ++ [.invalid] =
              pre ++ hull.getMinMax r :: (mid ++ [.invalid]) := by
            rw [List.modify_eq_take_cons_drop (by simp)]
            simp
          simp only [mergeLoop, hv, ht, hmodify, Bool.not_true, if_true, Bool.false_eq_true, if_false]
          rw [(ih (mid ++ [AddressRange.invalid]) (hull.getMinMax r) invalid).1,
            (ih (mid ++ [AddressRange.invalid]) (hull.getMinMax r) invalid).2,
            List.filter_cons_of_pos htouched, List.foldl_cons, List.map_cons, if_pos htouched,
            List.append_assoc]
          exact ⟨rfl, rfl⟩
        · have hnot : touched newRange r = false := by simp [touched, ht]
          have hpush : pre ++ hull :: mid ++ [r] = pre ++ hull :: (mid ++ [r]) := by simp
          simp only [mergeLoop, hv, ht, hpush, Bool.not_true, Bool.false_eq_true, if_false]
          rw [(ih (mid ++ [r]) hull invalid).1, (ih (mid ++ [r]) hull invalid).2,
            List.filter_cons_of_neg (by simp [hnot]), List.map_cons, if_neg (by simp [hnot]),
            List.append_assoc]
          exact ⟨rfl, rfl⟩
      · have hnot : touched newRange r = false := by simp [touched, hv]
        have hpush : pre ++ hull :: mid ++ [r] = pre ++ hull :: (mid ++ [r]) := by simp
        simp only [mergeLoop, hv, hpush, Bool.not_false, if_true]
        rw [(ih (mid ++ [r]) hull _).1, (ih (mid ++ [r]) hull _).2,
          List.filter_cons_of_neg (by simp [hnot]), List.map_cons, if_neg (by simp [hnot]),
          List.append_assoc]
        exact ⟨rfl, rfl⟩

-- A member pointed at for reuse is an invalid one.
def PointsAtInvalid (data : AddressRangeVector) (invalid : Option Nat) : Prop :=
  ∀ k, invalid = some k → ∃ r, data[k]? = some r ∧ r.valid = false

theorem PointsAtInvalid.append {data : AddressRangeVector} {invalid : Option Nat}
    (h : PointsAtInvalid data invalid) (r : AddressRange) :
    PointsAtInvalid (data ++ [r]) invalid := by
  intro k hk
  obtain ⟨old, hold, hv⟩ := h k hk
  obtain ⟨hlt, -⟩ := List.getElem?_eq_some_iff.mp hold
  exact ⟨old, by rw [List.getElem?_append_left hlt]; exact hold, hv⟩

theorem PointsAtInvalid.last (data : AddressRangeVector) {r : AddressRange} (h : r.valid = false) :
    PointsAtInvalid (data ++ [r]) (some data.length) := by
  rintro k ⟨⟩
  exact ⟨r, by simp, h⟩

theorem mergeLoop_none (before rest : AddressRangeVector) (invalid : Option Nat)
    (hinvalid : PointsAtInvalid before invalid)
    (hnone : ∀ r ∈ rest, touched newRange r = false) :
    ∃ invalid', mergeLoop newRange before none invalid rest = (before ++ rest, none, invalid') ∧
      PointsAtInvalid (before ++ rest) invalid' := by
  induction rest generalizing before invalid with
  | nil => exact ⟨invalid, by simp [mergeLoop], by simpa using hinvalid⟩
  | cons r rest ih =>
      have hr := hnone r (by simp)
      have hrest : ∀ r ∈ rest, touched newRange r = false := fun q hq => hnone q (by simp [hq])
      have happ : before ++ r :: rest = before ++ [r] ++ rest := by simp
      rw [happ]
      by_cases hv : r.valid = true
      · have ht : r.touches newRange = false := by simpa [touched, hv] using hr
        simp only [mergeLoop, hv, ht, Bool.not_true, Bool.false_eq_true, if_false]
        exact ih _ _ (hinvalid.append r) hrest
      · rw [Bool.not_eq_true] at hv
        simp only [mergeLoop, hv, Bool.not_false, if_true]
        exact ih _ _ (PointsAtInvalid.last before hv) hrest

-- Up to the first member that touches the new range nothing changes.
theorem mergeLoop_first (before left : AddressRangeVector) (first : AddressRange)
    (invalid : Option Nat) (rest : AddressRangeVector)
    (hnone : ∀ r ∈ left, touched newRange r = false) (hfirst : touched newRange first = true) :
    ∃ invalid', mergeLoop newRange before none invalid (left ++ first :: rest) =
      mergeLoop newRange (before ++ left ++ [first.getMinMax newRange])
        (some (before ++ left).length) invalid' rest := by
  induction left generalizing before invalid with
  | nil =>
      simp only [touched, Bool.and_eq_true] at hfirst
      refine ⟨invalid, ?_⟩
      simp [mergeLoop, hfirst]
  | cons r left ih =>
      have hr := hnone r (by simp)
      have hleft : ∀ r ∈ left, touched newRange r = false := fun q hq => hnone q (by simp [hq])
      have happ : before ++ r :: left = before ++ [r] ++ left := by simp
      rw [happ, List.cons_append]
      by_cases hv : r.valid = true
      · have ht : r.touches newRange = false := by simpa [touched, hv] using hr
        simp only [mergeLoop, hv, ht, Bool.not_true, Bool.false_eq_true, if_false]
        exact ih _ _ hleft
      · rw [Bool.not_eq_true] at hv
        simp only [mergeLoop, hv, Bool.not_false, if_true]
        exact ih _ _ hleft

theorem getMinMax_of_valid {r other : AddressRange} (hr : r.valid = true)
    (ho : other.valid = true) : (r.getMinMax other).start = min r.start other.start ∧
      (r.getMinMax other).stop = max r.stop other.stop := by
  simp only [getMinMax, hr, ho, if_true]
  exact ⟨trivial, trivial⟩

theorem valid_iff (r : AddressRange) : r.valid = true ↔ r.start ≤ r.stop := decide_eq_true_iff

theorem getMinMax_valid {r other : AddressRange} (hr : r.valid = true) (ho : other.valid = true) :
    (r.getMinMax other).valid = true := by
  obtain ⟨hs, he⟩ := getMinMax_of_valid hr ho
  rw [valid_iff] at hr ho ⊢
  omega

theorem getMinMax_comm (r other : AddressRange) : r.getMinMax other = other.getMinMax r := by
  simp only [getMinMax, Nat.min_comm, Nat.max_comm]

theorem foldl_getMinMax_valid {hull : AddressRange} (hv : hull.valid = true)
    {l : List AddressRange} (hl : ∀ r ∈ l, r.valid = true) :
    (l.foldl getMinMax hull).valid = true := by
  induction l generalizing hull with
  | nil => exact hv
  | cons r l ih => exact ih (getMinMax_valid hv (hl r (by simp))) fun q hq => hl q (by simp [hq])

theorem members_map_invalid (rest : AddressRangeVector) :
    members (rest.map fun r => if touched newRange r then .invalid else r) =
      (members rest).filter fun r => !touched newRange r := by
  induction rest with
  | nil => rfl
  | cons r rest ih =>
      rw [List.map_cons]
      by_cases ht : touched newRange r = true
      · have hv : r.valid = true := by simp only [touched, Bool.and_eq_true] at ht; exact ht.1
        rw [if_pos ht, members_cons_of_not invalid_valid, ih, members_cons_of_valid hv,
          List.filter_cons_of_neg (by simp [ht])]
      · rw [if_neg ht]
        by_cases hv : r.valid = true
        · rw [members_cons_of_valid hv, ih, members_cons_of_valid hv,
            List.filter_cons_of_pos (by simp [ht])]
        · rw [Bool.not_eq_true] at hv
          rw [members_cons_of_not hv, ih, members_cons_of_not hv]

theorem filter_members_touched (l : AddressRangeVector) :
    (members l).filter (touched newRange) = l.filter (touched newRange) := by
  rw [members, List.filter_filter]
  apply List.filter_congr
  intro r _
  cases hr : r.valid <;> simp [touched, hr]

theorem filter_touched_eq_nil {l : AddressRangeVector} (h : ∀ r ∈ l, touched newRange r = false) :
    (members l).filter (touched newRange) = [] ∧
      (members l).filter (fun r => !touched newRange r) = members l := by
  constructor
  · rw [List.filter_eq_nil_iff]
    intro r hr
    simp [h r (List.mem_of_mem_filter hr)]
  · rw [List.filter_eq_self]
    intro r hr
    simp [h r (List.mem_of_mem_filter hr)]

-- The members after a merge: those that do not touch the new range, and one range around it and
-- all that do.
theorem merge_members (data : AddressRangeVector) (hv : newRange.valid = true) :
    (members (data.merge newRange)).Perm
      (((members data).filter (touched newRange)).foldl getMinMax newRange ::
        (members data).filter fun r => !touched newRange r) := by
  cases hf : data.find? (touched newRange) with
  | none =>
      have hnone : ∀ r ∈ data, touched newRange r = false := by
        intro r hr
        simpa using List.find?_eq_none.mp hf r hr
      obtain ⟨invalid, hloop, hinvalid⟩ := mergeLoop_none [] data none
        (fun k hk => by cases hk) hnone
      obtain ⟨hnil, hself⟩ := filter_touched_eq_nil hnone
      rw [hnil, hself, List.foldl_nil, merge, if_neg (by simp [hv]), hloop]
      cases invalid with
      | none =>
          show (members (data ++ [newRange])).Perm _
          rw [members_append, members_cons_of_valid hv]
          exact List.perm_append_singleton _ _
      | some k =>
          obtain ⟨old, hold, hinv⟩ := hinvalid k rfl
          exact members_set hold hinv hv
  | some first =>
      obtain ⟨hfirst, left, rest, rfl, hleft⟩ := List.find?_eq_some_iff_append.mp hf
      have hleft' : ∀ r ∈ left, touched newRange r = false := by
        intro r hr
        simpa using hleft r hr
      have hfv : first.valid = true := by
        simp only [touched, Bool.and_eq_true] at hfirst
        exact hfirst.1
      obtain ⟨invalid, hloop⟩ := mergeLoop_first [] left first none rest hleft' hfirst
      obtain ⟨hdata, hfound⟩ := mergeLoop_found newRange left []
        (first.getMinMax newRange) invalid rest
      obtain ⟨hnil, hself⟩ := filter_touched_eq_nil hleft'
      have hmerge : merge (left ++ first :: rest) newRange =
          left ++ (rest.filter (touched newRange)).foldl getMinMax (first.getMinMax newRange) ::
            rest.map fun r => if touched newRange r then .invalid else r := by
        rw [merge, if_neg (by simp [hv]), hloop]
        simp only [List.nil_append] at hdata ⊢
        generalize mergeLoop newRange (left ++ [first.getMinMax newRange]) (some left.length)
          invalid rest = result at hdata hfound ⊢
        obtain ⟨loopData, found, loopInvalid⟩ := result
        obtain rfl : found = some left.length := hfound
        exact hdata
      have hhull : ((rest.filter (touched newRange)).foldl getMinMax
          (first.getMinMax newRange)).valid = true := by
        apply foldl_getMinMax_valid (getMinMax_valid hfv hv)
        intro r hr
        have ht := List.of_mem_filter hr
        simp only [touched, Bool.and_eq_true] at ht
        exact ht.1
      rw [hmerge, members_append, members_cons_of_valid hhull, members_map_invalid, members_append,
        members_cons_of_valid hfv, List.filter_append, List.filter_append, hnil, hself,
        List.nil_append, List.filter_cons_of_pos hfirst, List.filter_cons_of_neg (by simp [hfirst]),
        List.foldl_cons, getMinMax_comm newRange first, filter_members_touched]
      exact List.perm_middle

end Merge

section Exclude

-- What `exclude` leaves of one member.
def pieces (exclusion r : AddressRange) : List AddressRange :=
  if !r.overlaps exclusion then [r]
  else if exclusion.overlapsAddress r.start && exclusion.overlapsAddress r.stop then []
  else if exclusion.overlapsAddress r.start then [r.withStart exclusion.nextAddress]
  else if exclusion.overlapsAddress r.stop then [r.withStop exclusion.prevAddress]
  else [r.withStop exclusion.prevAddress, r.withStart exclusion.nextAddress]

theorem overlaps_iff (r other : AddressRange) :
    r.overlaps other = true ↔ r.start ≤ other.stop ∧ other.start ≤ r.stop := by
  simp [AddressRange.overlaps]

theorem overlapsAddress_iff (r : AddressRange) (address : Nat) :
    r.overlapsAddress address = true ↔ r.start ≤ address ∧ address ≤ r.stop := by
  simp [overlapsAddress]

theorem nextAddress_of_lt {r : AddressRange} {n : Nat} (h : r.stop < n) (hn : n < 2 ^ 32) :
    r.nextAddress = r.stop + 1 := Nat.mod_eq_of_lt (by omega)

theorem prevAddress_of_pos {r : AddressRange} (h : 0 < r.start) : r.prevAddress = r.start - 1 := by
  have hlt := r.start_lt
  rw [prevAddress, show r.start + (2 ^ 32 - 1) = r.start - 1 + 2 ^ 32 by omega, Nat.add_mod_right,
    Nat.mod_eq_of_lt (by omega)]

-- A piece is the part of the member before the exclusion or the part behind it.
theorem pieces_cases {r : AddressRange} (hr : r.valid = true)
    (ho : r.overlaps exclusion = true) {q : AddressRange} :
    q ∈ pieces exclusion r ↔
      (r.start < exclusion.start ∧ q.start = r.start ∧ q.stop = exclusion.start - 1) ∨
      (exclusion.stop < r.stop ∧ q.start = exclusion.stop + 1 ∧ q.stop = r.stop) := by
  have hb := exclusion.start_lt
  have hb' := exclusion.stop_lt
  have hq := r.start_lt
  have hq' := r.stop_lt
  rw [valid_iff] at hr
  rw [overlaps_iff] at ho
  have hext (a b : AddressRange) : a = b ↔ a.start = b.start ∧ a.stop = b.stop := by
    cases a
    cases b
    simp
  rw [pieces, if_neg (by rw [(overlaps_iff r exclusion).mpr ho]; simp)]
  by_cases hhead : exclusion.overlapsAddress r.start = true
  · have hhead' := (overlapsAddress_iff _ _).mp hhead
    by_cases htail : exclusion.overlapsAddress r.stop = true
    · have htail' := (overlapsAddress_iff _ _).mp htail
      rw [if_pos (by rw [hhead, htail]; rfl)]
      simp only [List.not_mem_nil, false_iff]
      omega
    · have htail' : ¬(exclusion.start ≤ r.stop ∧ r.stop ≤ exclusion.stop) :=
        fun hc => htail ((overlapsAddress_iff _ _).mpr hc)
      have hnext := nextAddress_of_lt (show exclusion.stop < r.stop by omega) hq'
      rw [if_neg (by simp [htail]), if_pos hhead, List.mem_singleton, hext]
      simp only [withStart, hnext, Nat.mod_eq_of_lt (show exclusion.stop + 1 < 2 ^ 32 by omega)]
      omega
  · have hhead' : ¬(exclusion.start ≤ r.start ∧ r.start ≤ exclusion.stop) :=
      fun hc => hhead ((overlapsAddress_iff _ _).mpr hc)
    by_cases htail : exclusion.overlapsAddress r.stop = true
    · have htail' := (overlapsAddress_iff _ _).mp htail
      have hprev := prevAddress_of_pos (show 0 < exclusion.start by omega)
      rw [if_neg (by simp [hhead]), if_neg hhead, if_pos htail, List.mem_singleton, hext]
      simp only [withStop, hprev, Nat.mod_eq_of_lt (show exclusion.start - 1 < 2 ^ 32 by omega)]
      omega
    · have htail' : ¬(exclusion.start ≤ r.stop ∧ r.stop ≤ exclusion.stop) :=
        fun hc => htail ((overlapsAddress_iff _ _).mpr hc)
      have hnext := nextAddress_of_lt (show exclusion.stop < r.stop by omega) hq'
      have hprev := prevAddress_of_pos (show 0 < exclusion.start by omega)
      rw [if_neg (by simp [hhead]), if_neg hhead, if_neg htail]
      simp only [List.mem_cons, List.not_mem_nil, or_false, hext, withStop, withStart, hprev, hnext,
        Nat.mod_eq_of_lt (show exclusion.stop + 1 < 2 ^ 32 by omega),
        Nat.mod_eq_of_lt (show exclusion.start - 1 < 2 ^ 32 by omega)]
      omega

theorem pieces_of_not_overlaps {r : AddressRange} (ho : r.overlaps exclusion = false) :
    pieces exclusion r = [r] := if_pos (by simp [ho])

theorem pieces_valid (exclusion : AddressRange) {r : AddressRange} (hr : r.valid = true) :
    ∀ q ∈ pieces exclusion r, q.valid = true := by
  intro q hq
  by_cases ho : r.overlaps exclusion = true
  · have hcases := (pieces_cases hr ho).mp hq
    rw [valid_iff] at hr ⊢
    rw [overlaps_iff] at ho
    omega
  · rw [pieces_of_not_overlaps (by simpa using ho), List.mem_singleton] at hq
    rw [hq]
    exact hr

-- One turn of the loop: the member is replaced by its first piece, and a second piece goes into
-- an invalid slot or to the end.
theorem excludeLoop_cons (exclusion : AddressRange) {r : AddressRange} (hv : r.valid = true)
    (before pushed : AddressRangeVector) (invalid : Option Nat) (rest : AddressRangeVector) :
    (pieces exclusion r = [] ∧ excludeLoop exclusion before pushed invalid (r :: rest) =
      excludeLoop exclusion (before ++ [.invalid]) pushed (some before.length) rest) ∨
    (∃ q, pieces exclusion r = [q] ∧ excludeLoop exclusion before pushed invalid (r :: rest) =
      excludeLoop exclusion (before ++ [q]) pushed invalid rest) ∨
    ∃ q t, pieces exclusion r = [q, t] ∧
      (∀ k, invalid = some k → excludeLoop exclusion before pushed invalid (r :: rest) =
        excludeLoop exclusion (before.set k t ++ [q]) pushed none rest) ∧
      (invalid = none → excludeLoop exclusion before pushed invalid (r :: rest) =
        excludeLoop exclusion (before ++ [q]) (pushed ++ [t]) none rest) := by
  simp only [excludeLoop, hv, Bool.not_true, Bool.false_eq_true, if_false, pieces]
  by_cases ho : r.overlaps exclusion = true
  · simp only [ho, Bool.not_true, Bool.false_eq_true, if_false]
    by_cases hboth :
        (exclusion.overlapsAddress r.start && exclusion.overlapsAddress r.stop) = true
    · exact Or.inl ⟨if_pos hboth, if_pos hboth⟩
    · simp only [if_neg hboth]
      by_cases hhead : exclusion.overlapsAddress r.start = true
      · exact Or.inr (Or.inl ⟨_, if_pos hhead, if_pos hhead⟩)
      · simp only [if_neg hhead]
        by_cases htail : exclusion.overlapsAddress r.stop = true
        · exact Or.inr (Or.inl ⟨_, if_pos htail, if_pos htail⟩)
        · simp only [if_neg htail]
          refine Or.inr (Or.inr ⟨_, _, rfl, ?_, ?_⟩)
          · rintro k rfl
            rfl
          · rintro rfl
            rfl
  · rw [Bool.not_eq_true] at ho
    simp only [ho, Bool.not_false, if_true]
    exact Or.inr (Or.inl ⟨r, rfl, rfl⟩)

-- The members after the loop: the pieces of those before it.
theorem excludeLoop_members (exclusion : AddressRange) (before pushed : AddressRangeVector)
    (invalid : Option Nat) (hinvalid : PointsAtInvalid before invalid) (rest : AddressRangeVector) :
    (members (excludeLoop exclusion before pushed invalid rest)).Perm
      (members before ++ (members pushed ++ (members rest).flatMap (pieces exclusion))) := by
  induction rest generalizing before pushed invalid with
  | nil => simp [excludeLoop, members]
  | cons r rest ih =>
      have hnone (l : AddressRangeVector) : PointsAtInvalid l none := fun k hk => by cases hk
      by_cases hv : r.valid = true
      · have hvalid := pieces_valid exclusion hv
        rw [members_cons_of_valid hv, List.flatMap_cons]
        rcases excludeLoop_cons exclusion hv before pushed invalid rest with
          ⟨hp, hloop⟩ | ⟨q, hp, hloop⟩ | ⟨q, t, hp, hset, hpush⟩
        · have h := ih _ pushed _ (PointsAtInvalid.last before invalid_valid)
          rw [members_append, members_cons_of_not invalid_valid] at h
          rw [hp, hloop]
          simpa [members] using h
        · have hq := hvalid q (by simp [hp])
          have h := ih _ pushed _ (hinvalid.append q)
          rw [members_append, members_cons_of_valid hq] at h
          rw [hp, hloop]
          refine h.trans ?_
          rw [List.perm_iff_count]
          intro x
          simp only [members, List.filter_nil, List.count_append, List.count_cons, List.count_nil]
          omega
        · have hq := hvalid q (by simp [hp])
          have ht := hvalid t (by simp [hp])
          rw [hp]
          cases invalid with
          | some k =>
              obtain ⟨old, hold, hinv⟩ := hinvalid k rfl
              have h := ih (before.set k t ++ [q]) pushed none (hnone _)
              rw [members_append, members_cons_of_valid hq] at h
              rw [hset k rfl]
              refine h.trans ?_
              refine (((members_set hold hinv ht).append_right _).append_right _).trans ?_
              rw [List.perm_iff_count]
              intro x
              simp only [members, List.filter_nil, List.count_append, List.count_cons,
                List.count_nil]
              omega
          | none =>
              have h := ih (before ++ [q]) (pushed ++ [t]) none (hnone _)
              rw [members_append, members_append, members_cons_of_valid hq,
                members_cons_of_valid ht] at h
              rw [hpush rfl]
              refine h.trans ?_
              rw [List.perm_iff_count]
              intro x
              simp only [members, List.filter_nil, List.count_append, List.count_cons,
                List.count_nil]
              omega
      · rw [Bool.not_eq_true] at hv
        have h := ih _ pushed _ (PointsAtInvalid.last before hv)
        rw [members_append, members_cons_of_not hv] at h
        rw [members_cons_of_not hv]
        simp only [excludeLoop, hv, Bool.not_false, if_true]
        simpa [members] using h

theorem exclude_members (data : AddressRangeVector) (he : exclusion.valid = true) :
    (members (data.exclude exclusion)).Perm ((members data).flatMap (pieces exclusion)) := by
  have h := excludeLoop_members exclusion [] [] none (fun k hk => by cases hk) data
  rw [exclude, if_neg (by simp [he])]
  simpa [members] using h

end Exclude

end Rpcsx.AddressRangeVector
