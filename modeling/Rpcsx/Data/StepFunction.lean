import Rpcsx.Data.OrderedMap

namespace Rpcsx.Data

-- Sorted breakpoints denote a step function: the value at an address is the one of the
-- last breakpoint at or below it, and a default before the first.
namespace StepFunction

variable {κ β : Type}

def lastFrom (default : β) (points : List (κ × β)) : β :=
  (points.getLast?.map Prod.snd).getD default

section

variable {d : β} {points left right : List (κ × β)}

@[simp] theorem lastFrom_nil : lastFrom d ([] : List (κ × β)) = d := rfl

@[simp] theorem lastFrom_cons (p : κ × β) : lastFrom d (p :: points) = lastFrom p.2 points := by
  cases points with
  | nil => rfl
  | cons q rest => simp [lastFrom, List.getLast?_cons]

@[simp] theorem lastFrom_append :
    lastFrom d (left ++ right) = lastFrom (lastFrom d left) right := by
  induction left generalizing d with
  | nil => rfl
  | cons p rest ih => simp [ih]

end

variable [LinearOrder κ]

def valueAt (default : β) (points : List (κ × β)) (x : κ) : β :=
  lastFrom default (points.filter (·.1 ≤ x))

variable {d : β} {points : List (κ × β)} {lo hi x : κ} {v : β}

-- Between two neighbouring breakpoints the value is constant.
theorem valueAt_gap {before after : List (κ × β)} (hb : ∀ p ∈ before, p.1 ≤ x)
    (ha : ∀ p ∈ after, x < p.1) : valueAt d (before ++ after) x = lastFrom d before := by
  rw [valueAt, List.filter_append, List.filter_eq_self.mpr (by simpa using hb),
    List.filter_eq_nil_iff.mpr (by simpa using ha), List.append_nil]

-- Past a cut the value only depends on the value at the cut and the breakpoints after it.
theorem valueAt_of_le (hs : points.Pairwise fun p q => p.1 < q.1) (hx : hi ≤ x) :
    valueAt d points x =
      lastFrom (valueAt d points hi) ((points.filter (hi < ·.1)).filter (·.1 ≤ x)) := by
  induction points generalizing d with
  | nil => rfl
  | cons p rest ih =>
      obtain ⟨hp, hr⟩ := List.pairwise_cons.mp hs
      have hi' := ih (d := p.2) hr
      by_cases hk : p.1 ≤ hi
      · have hkx := hk.trans hx
        simp only [valueAt, List.filter_cons, hk, hkx, hk.not_gt] at hi' ⊢
        simpa using hi'
      · have hk' : hi < p.1 := not_le.mp hk
        have hle : rest.filter (·.1 ≤ hi) = [] := by
          rw [List.filter_eq_nil_iff]
          intro q hq
          simpa using hk'.trans (hp q hq)
        have hgt : rest.filter (hi < ·.1) = rest := by
          rw [List.filter_eq_self]
          intro q hq
          simpa using hk'.trans (hp q hq)
        simp [valueAt, hk, hk', hle, hgt]

theorem filter_le_of_lt (hx : x < lo) :
    (points.filter (·.1 < lo)).filter (·.1 ≤ x) = points.filter (·.1 ≤ x) := by
  rw [List.filter_filter]
  apply List.filter_congr
  intro p _
  by_cases hp : p.1 ≤ x
  · simp [hp, lt_of_le_of_lt hp hx]
  · simp [hp]

-- Overwriting the range from `lo` to `hi`: each end needs a breakpoint unless the value
-- there does not change.
theorem valueAt_splice (hs : points.Pairwise fun p q => p.1 < q.1) (hlt : lo < hi)
    {atLo atHi : List (κ × β)}
    (hLo : atLo = [(lo, v)] ∨ atLo = [] ∧ lastFrom d (points.filter (·.1 < lo)) = v)
    (hHi : atHi = [(hi, valueAt d points hi)] ∨ atHi = [] ∧ valueAt d points hi = v) :
    valueAt d (points.filter (·.1 < lo) ++ atLo ++ atHi ++ points.filter (hi < ·.1)) x =
      if lo ≤ x ∧ x < hi then v else valueAt d points x := by
  have hAtLo (h : x < lo) : atLo.filter (·.1 ≤ x) = [] := by
    rcases hLo with rfl | ⟨rfl, _⟩ <;> simp [h]
  have hAtHi (h : x < hi) : atHi.filter (·.1 ≤ x) = [] := by
    rcases hHi with rfl | ⟨rfl, _⟩ <;> simp [h]
  have hRight (h : x < hi) : (points.filter (hi < ·.1)).filter (·.1 ≤ x) = [] := by
    rw [List.filter_eq_nil_iff]
    intro p hp
    have hk : hi < p.1 := by simpa using (List.mem_filter.mp hp).2
    simpa using h.trans hk
  have hLeft (h : lo ≤ x) :
      (points.filter (·.1 < lo)).filter (·.1 ≤ x) = points.filter (·.1 < lo) := by
    rw [List.filter_eq_self]
    intro p hp
    have hk : p.1 < lo := by simpa using (List.mem_filter.mp hp).2
    simpa using hk.le.trans h
  have hIn (h : lo ≤ x) : lastFrom d (points.filter (·.1 < lo) ++ atLo.filter (·.1 ≤ x)) = v := by
    rcases hLo with rfl | ⟨rfl, hv⟩
    · simp [h]
    · simpa using hv
  rcases lt_or_ge x lo with hx | hx
  · have hxhi := hx.trans hlt
    simp only [hx.not_ge, false_and, if_false]
    unfold valueAt
    simp only [List.filter_append, hAtLo hx, hAtHi hxhi, hRight hxhi, List.append_nil,
      filter_le_of_lt hx]
  · rcases lt_or_ge x hi with hxhi | hxhi
    · simp only [hx, hxhi, and_self, if_true]
      unfold valueAt
      simp only [List.filter_append, hLeft hx, hAtHi hxhi, hRight hxhi, List.append_nil]
      exact hIn hx
    · simp only [hxhi.not_gt, and_false, if_false]
      rw [valueAt_of_le hs hxhi]
      conv_lhs => unfold valueAt
      simp only [List.filter_append, hLeft hx]
      rw [lastFrom_append, lastFrom_append, hIn hx]
      rcases hHi with rfl | ⟨rfl, hv⟩
      · simp [hxhi]
      · simp [hv]

theorem splice_pairwise (hs : points.Pairwise fun p q => p.1 < q.1) (hlt : lo < hi)
    {atLo atHi : List (κ × β)} (hLo : ∀ p ∈ atLo, p.1 = lo) (hHi : ∀ p ∈ atHi, p.1 = hi)
    (hLo1 : atLo.length ≤ 1) (hHi1 : atHi.length ≤ 1) :
    (points.filter (·.1 < lo) ++ atLo ++ atHi ++ points.filter (hi < ·.1)).Pairwise
      fun p q => p.1 < q.1 := by
  have single {l : List (κ × β)} (hl : l.length ≤ 1) : l.Pairwise fun p q => p.1 < q.1 := by
    match l, hl with
    | [], _ => exact List.Pairwise.nil
    | [p], _ => exact List.pairwise_singleton _ p
  have hb : ∀ p ∈ points.filter (·.1 < lo), p.1 < lo := fun p hp => by
    simpa using (List.mem_filter.mp hp).2
  have ha : ∀ p ∈ points.filter (hi < ·.1), hi < p.1 := fun p hp => by
    simpa using (List.mem_filter.mp hp).2
  rw [List.pairwise_append, List.pairwise_append, List.pairwise_append]
  refine ⟨⟨⟨hs.filter _, single hLo1, ?_⟩, single hHi1, ?_⟩, hs.filter _, ?_⟩
  · intro p hp q hq
    exact hLo q hq ▸ hb p hp
  · intro p hp q hq
    rw [hHi q hq]
    rcases List.mem_append.mp hp with hp | hp
    · exact (hb p hp).trans hlt
    · exact hLo p hp ▸ hlt
  · intro p hp q hq
    apply lt_of_le_of_lt _ (ha q hq)
    rcases List.mem_append.mp hp with hp | hp
    · rcases List.mem_append.mp hp with hp | hp
      · exact ((hb p hp).trans hlt).le
      · exact (hLo p hp ▸ hlt).le
    · exact (hHi p hp).le

end StepFunction

end Rpcsx.Data
