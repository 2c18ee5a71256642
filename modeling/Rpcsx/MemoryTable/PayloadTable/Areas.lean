import Rpcsx.MemoryTable.PayloadTable.Operations
import Rpcsx.Data.Runs

namespace Rpcsx.MemoryTable.PayloadTable

open Rpcsx.Data Rpcsx.Data.StepFunction Rpcsx.Data.Runs

variable {T : Type} {t : PayloadTable T}

-- The stretches between neighbouring points that carry a payload.
def areasOf : List (Nat × Payload T) → List (AreaInfo T)
  | (lo, p) :: (hi, q) :: rest =>
      (p.after.map (AreaInfo.mk lo hi)).toList ++ areasOf ((hi, q) :: rest)
  | _ => []

theorem areasOf_pair (p q : Nat × Payload T) (rest : List (Nat × Payload T)) :
    areasOf (p :: q :: rest) =
      (p.2.after.map (AreaInfo.mk p.1 q.1)).toList ++ areasOf (q :: rest) := rfl

theorem areasOf_short {points : List (Nat × Payload T)}
    (h : ∀ lo p hi q rest, points = (lo, p) :: (hi, q) :: rest → False) : areasOf points = [] := by
  match points, h with
  | [], _ => rfl
  | [_], _ => rfl
  | (lo, p) :: (hi, q) :: rest, h => exact absurd rfl (h lo p hi q rest)

theorem areasOf_cons_closed (key : Nat) {p : Payload T} (hp : p.after = none)
    (rest : List (Nat × Payload T)) : areasOf ((key, p) :: rest) = areasOf rest := by
  cases rest with
  | nil => rfl
  | cons q rest => simp [areasOf_pair, hp]

theorem mem_areasOf_adjacent {before after : List (Nat × Payload T)} {lo hi : Nat}
    {p q : Payload T} {payload : T} (hp : p.after = some payload) :
    ⟨lo, hi, payload⟩ ∈ areasOf (before ++ (lo, p) :: (hi, q) :: after) := by
  induction before with
  | nil => simp [areasOf_pair, hp]
  | cons r before ih =>
      cases before with
      | nil => simp [areasOf_pair, hp]
      | cons r' before =>
          simp only [List.cons_append, areasOf_pair, List.mem_append] at ih ⊢
          exact .inr ih

-- Every area starts at a point of the list.
theorem begin_mem_of_mem_areasOf {points : List (Nat × Payload T)} {area : AreaInfo T}
    (h : area ∈ areasOf points) : ∃ p, (area.beginAddress, p) ∈ points ∧
      p.after = some area.payload := by
  induction points using areasOf.induct with
  | case1 lo p hi q rest ih =>
      simp only [areasOf_pair, List.mem_append, Option.mem_toList, Option.map_eq_some_iff] at h
      rcases h with ⟨payload, hp, rfl⟩ | h
      · exact ⟨p, by simp, hp⟩
      · obtain ⟨p', hp', ha⟩ := ih h
        exact ⟨p', List.mem_cons_of_mem _ hp', ha⟩
  | case2 points hne =>
      rw [areasOf_short hne] at h
      cases h

section Points

variable {points : List (Nat × Payload T)}

theorem areasOf_ordered (hs : points.Pairwise fun p q => p.1 < q.1) :
    (areasOf points).Pairwise (fun a b => a.endAddress ≤ b.beginAddress) ∧
      ∀ a ∈ areasOf points, a.beginAddress < a.endAddress := by
  induction points using areasOf.induct with
  | case1 lo p hi q rest ih =>
      obtain ⟨hlo, hr⟩ := List.pairwise_cons.mp hs
      obtain ⟨hord, hpos⟩ := ih hr
      have hhi := (List.pairwise_cons.mp hr).1
      simp only [areasOf_pair, List.pairwise_append, List.mem_append]
      refine ⟨⟨?_, hord, ?_⟩, ?_⟩
      · cases p.after <;> simp
      · intro a ha b hb
        obtain ⟨payload, -, rfl⟩ : ∃ payload, p.after = some payload ∧
          AreaInfo.mk lo hi payload = a := by simpa using ha
        obtain ⟨r, hr, -⟩ := begin_mem_of_mem_areasOf hb
        rcases List.mem_cons.mp hr with heq | hr
        · simp only [Prod.mk.injEq] at heq
          exact heq.1.ge
        · exact (hhi _ hr).le
      · rintro a (ha | ha)
        · obtain ⟨payload, -, rfl⟩ : ∃ payload, p.after = some payload ∧
            AreaInfo.mk lo hi payload = a := by simpa using ha
          exact hlo (hi, q) (by simp)
        · exact hpos a ha
  | case2 points hne =>
      simp [areasOf_short hne]

-- The areas carry the step function of the points.
theorem areasOf_covers (hs : points.Pairwise fun p q => p.1 < q.1)
    (hlast : stateAfter none points = none) (x : Nat) (v : T) :
    stateAfter none (points.filter (·.1 ≤ x)) = some v ↔
      ∃ a ∈ areasOf points, a.beginAddress ≤ x ∧ x < a.endAddress ∧ a.payload = v := by
  induction points using areasOf.induct with
  | case1 lo p hi q rest ih =>
      obtain ⟨hlo, hr⟩ := List.pairwise_cons.mp hs
      have hhi := (List.pairwise_cons.mp hr).1
      have hlt : lo < hi := hlo (hi, q) (by simp)
      have hrec := ih hr (by simpa using hlast)
      simp only [areasOf_pair, List.mem_append, or_and_right, exists_or, ← hrec]
      rcases Nat.lt_or_ge x hi with hx | hx
      · have hrest : rest.filter (·.1 ≤ x) = [] := by
          rw [List.filter_eq_nil_iff]
          intro r hr
          have := hhi r hr
          simp only [decide_eq_true_eq]
          simp only at this
          omega
        by_cases hxl : lo ≤ x
        · cases ha : p.after <;> simp [hrest, hxl, Nat.not_le.mpr hx, hx, ha]
        · cases ha : p.after <;> simp [hrest, hxl, Nat.not_le.mpr hx]
      · have hxl : lo ≤ x := by omega
        cases ha : p.after <;> simp [hx, hxl, Nat.not_lt.mpr hx]
  | case2 points hne =>
      have hnil : areasOf points = [] := areasOf_short hne
      cases points with
      | nil => simp [hnil]
      | cons point rest =>
          cases rest with
          | nil =>
              obtain ⟨lo, p⟩ := point
              have hp : p.after = none := by simpa using hlast
              by_cases hx : lo ≤ x <;> simp [hx, hp, hnil]
          | cons next rest => exact absurd rfl (hne _ _ _ _ _)

end Points

theorem areasOf_partition (hw : WellFormed t) :
    Partition AreaInfo.beginAddress AreaInfo.endAddress AreaInfo.payload t.lookup
      (areasOf t.mAreas.entries) := by
  obtain ⟨hord, hpos⟩ := areasOf_ordered t.mAreas.sorted
  refine ⟨hord, hpos, ?_⟩
  intro x v
  rw [lookup_eq]
  exact areasOf_covers t.mAreas.sorted hw.2 x v

theorem areaAt_adjacent {before after : List (Nat × Payload T)} {lo hi : Nat} {p q : Payload T}
    {payload : T} (h : t.mAreas.entries = before ++ (lo, p) :: (hi, q) :: after)
    (hp : p.after = some payload) : t.areaAt (some lo) = .ok ⟨lo, hi, payload⟩ := by
  have h' : t.mAreas.entries = (before ++ [(lo, p)]) ++ (hi, q) :: after := by simp [h]
  simp [areaAt, deref_at h, stdNext_at h, deref_at h', Payload.get_eq hp, bind, Except.bind, pure,
    Except.pure]

-- Iteration from an open point on reports the areas of the points from there.
theorem areasFrom_eq (fuel : Nat) (before rest : List (Nat × Payload T))
    (h : t.mAreas.entries = before ++ rest) (hchain : Chained (stateAfter none before) rest)
    (hlast : stateAfter (stateAfter none before) rest = none)
    (hopen : ∀ p, rest.head? = some p → p.2.after.isSome) (hfuel : rest.length ≤ fuel) :
    t.areasFrom fuel (rest.head?.map Prod.fst) = .ok (areasOf rest) := by
  induction fuel generalizing before rest with
  | zero =>
      have hnil : rest = [] := List.length_eq_zero_iff.mp (by omega)
      simp [hnil, areasFrom, areasOf_short]
  | succ fuel ih =>
      match rest with
      | [] => simp [areasFrom, areasOf_short]
      | [(lo, p)] =>
          have hs := hopen (lo, p) rfl
          simp only [stateAfter_cons, stateAfter_nil] at hlast
          simp [hlast] at hs
      | (lo, p) :: (hi, q) :: rest =>
          obtain ⟨payload, hp⟩ := Option.isSome_iff_exists.mp (hopen (lo, p) rfl)
          have h' : t.mAreas.entries = (before ++ [(lo, p)]) ++ (hi, q) :: rest := by simp [h]
          have hq := hchain.2.1
          rw [hp] at hq
          simp only [List.length_cons] at hfuel
          simp only [areasFrom, List.head?_cons, Option.map_some, areaAt_adjacent h hp, increment,
            stdNext_at h, deref_at h', bind, Except.bind, reduceCtorEq, if_false]
          cases q with
          | O data => simp [Payload.Fits] at hq
          | X =>
              have hrec := ih (before ++ [(lo, p), (hi, .X)]) rest
                (by simp [h]) (by simpa [Payload.after] using hchain.2.2)
                (by simpa using hlast) ?_ (by omega)
              · simp [Payload.isCloseOpen, stdNext_at h', hrec, areasOf_pair, hp,
                  areasOf_cons_closed hi (show (Payload.X : Payload T).after = none from rfl),
                  pure, Except.pure]
              · intro r hr
                cases rest with
                | nil => simp at hr
                | cons r' rest =>
                    obtain rfl : r' = r := by simpa using hr
                    have hf := hchain.2.2.1
                    cases hr' : r'.2 <;> simp_all [Payload.Fits, Payload.after]
          | XO data =>
              have hrec := ih (before ++ [(lo, p)]) ((hi, .XO data) :: rest)
                h' (by simpa [hp] using hchain.2) (by simpa using hlast)
                (by simp [Payload.after]) (by simp only [List.length_cons]; omega)
              simp only [List.head?_cons, Option.map_some] at hrec
              simp [Payload.isCloseOpen, hrec, areasOf_pair, hp, pure, Except.pure]

theorem areas_eq (hw : WellFormed t) : t.areas = .ok (areasOf t.mAreas.entries) := by
  apply areasFrom_eq t.mAreas.size [] _ rfl hw.1 hw.2 _ le_rfl
  intro p (hp : t.mAreas.entries.head? = some p)
  obtain ⟨hchain, -⟩ := hw
  cases he : t.mAreas.entries with
  | nil => simp [he] at hp
  | cons q rest =>
      rw [he] at hchain hp
      obtain rfl : q = p := by simpa using hp
      have hf := hchain.1
      cases hq : q.2 <;> simp_all [Payload.Fits, Payload.after]

-- The area at the iterator that a query returns, if it is not `end()`.
def report (t : PayloadTable T) (it : Option Nat) : Except Fault (Option (AreaInfo T)) :=
  match it with
  | none => .ok none
  | some key => do return some (← t.areaAt (some key))

section Query

variable {address : Nat}

-- Between two neighbouring points nothing changes.
theorem lookup_gap {before after : List (Nat × Payload T)} {x : Nat}
    (h : t.mAreas.entries = before ++ after) (hb : ∀ p ∈ before, p.1 ≤ x)
    (ha : ∀ p ∈ after, x < p.1) : t.lookup x = stateAfter none before := by
  rw [lookup_eq, h, List.filter_append, List.filter_eq_self.mpr (by simpa using hb),
    List.filter_eq_nil_iff.mpr (by simpa using ha), List.append_nil]

-- An open point has a point after it.
theorem WellFormed.exists_next (hw : WellFormed t) {before after : List (Nat × Payload T)}
    {key : Nat} {p : Payload T} (h : t.mAreas.entries = before ++ (key, p) :: after)
    (hp : p.after.isSome) : ∃ last q rest, after = (last, q) :: rest := by
  have hlast := hw.2
  rw [h] at hlast
  cases after with
  | nil =>
      simp only [stateAfter_append, stateAfter_cons, stateAfter_nil] at hlast
      simp [hlast] at hp
  | cons q rest => exact ⟨q.1, q.2, rest, rfl⟩

theorem report_adjacent {before after : List (Nat × Payload T)} {lo hi : Nat} {p q : Payload T}
    {payload : T} (h : t.mAreas.entries = before ++ (lo, p) :: (hi, q) :: after)
    (hp : p.after = some payload) : t.report (some lo) = .ok (some ⟨lo, hi, payload⟩) := by
  simp [report, areaAt_adjacent h hp, bind, Except.bind, pure, Except.pure]

-- The points around an address, as `lower_bound` sees them.
theorem lowerBound_cases (t : PayloadTable T) (address : Nat) :
    (t.mAreas.lowerBound address = none ∧ ∀ p ∈ t.mAreas.entries, p.1 < address) ∨
    ∃ before key p after, t.mAreas.entries = before ++ (key, p) :: after ∧
      t.mAreas.lowerBound address = some key ∧ address ≤ key ∧ ∀ q ∈ before, q.1 < address := by
  have hsplit := t.mAreas.entries_split_le address
  have hb : ∀ p ∈ t.mAreas.entries.filter (·.1 < address), p.1 < address := fun p hp => by
    simpa using (List.mem_filter.mp hp).2
  cases hr : t.mAreas.entries.filter (address ≤ ·.1) with
  | nil =>
      rw [hr, List.append_nil] at hsplit
      rw [← hsplit] at hb
      exact .inl ⟨OrderedMap.lowerBound_none hb, hb⟩
  | cons p after =>
      have hp : p ∈ t.mAreas.entries.filter (address ≤ ·.1) := by simp [hr]
      have hle : address ≤ p.1 := by simpa using (List.mem_filter.mp hp).2
      rw [hr] at hsplit
      exact .inr ⟨_, p.1, p.2, after, hsplit, OrderedMap.lowerBound_at hsplit hb hle, hle, hb⟩

-- With no point in front the state is closed, so a Close or CloseOpen point has one.
theorem WellFormed.exists_previous (hw : WellFormed t) {before after : List (Nat × Payload T)}
    {key : Nat} {p : Payload T} (h : t.mAreas.entries = before ++ (key, p) :: after)
    (hp : p.isOpen = false) :
    ∃ init last q payload, before = init ++ [(last, q)] ∧ q.after = some payload := by
  have hchain := hw.1
  rw [h, chained_append] at hchain
  have hfit := hchain.2.1
  have hs : (stateAfter none before).isSome := by
    cases p with
    | O data => simp [Payload.isOpen] at hp
    | X => exact hfit
    | XO data => exact hfit
  rcases List.eq_nil_or_concat' before with rfl | ⟨init, ⟨last, q⟩, rfl⟩
  · simp at hs
  · simp only [stateAfter_append, stateAfter_cons, stateAfter_nil] at hs
    obtain ⟨payload, hq⟩ := Option.isSome_iff_exists.mp hs
    exact ⟨init, last, q, payload, rfl, hq⟩

-- With an Open point behind it the address is not mapped.
theorem WellFormed.closed_before (hw : WellFormed t) {before after : List (Nat × Payload T)}
    {key : Nat} {p : Payload T} (h : t.mAreas.entries = before ++ (key, p) :: after)
    (hp : p.isOpen = true) : stateAfter none before = none := by
  have hchain := hw.1
  rw [h, chained_append] at hchain
  cases p with
  | O data => exact hchain.2.1
  | X => simp [Payload.isOpen] at hp
  | XO data => simp [Payload.isOpen] at hp

theorem queryArea_eq (hw : WellFormed t) :
    (t.queryArea address >>= t.report) = .ok ((areasOf t.mAreas.entries).find?
      fun a => a.beginAddress ≤ address ∧ address < a.endAddress) := by
  have hpart := areasOf_partition hw
  rcases lowerBound_cases t address with ⟨hlb, hall⟩ | ⟨before, key, p, after, h, hlb, hle, hbefore⟩
  · have hn : t.lookup address = none := by
      rw [lookup_gap (List.append_nil _).symm (fun p hp => (hall p hp).le) (by simp), hw.2]
    rw [hpart.find?_contains_none hn]
    simp [queryArea, hlb, report, bind, Except.bind, pure, Except.pure]
  · have hafter := OrderedMap.lt_of_after h
    by_cases hk : key = address
    · subst hk
      cases hp : p.after with
      | none =>
          have hc : p.isClose = true := by cases p <;> simp_all [Payload.after, Payload.isClose]
          have hn : t.lookup key = none := by
            rw [lookup_gap (h.trans (List.append_cons _ _ _)) _ hafter]
            · simp [hp]
            · intro q hq
              rcases List.mem_append.mp hq with hq | hq
              · exact (hbefore q hq).le
              · simp [List.mem_singleton.mp hq]
          rw [hpart.find?_contains_none hn]
          simp [queryArea, hlb, deref_at h, hc, report, bind, Except.bind, pure, Except.pure]
      | some payload =>
          have hc : p.isClose = false := by cases p <;> simp_all [Payload.after, Payload.isClose]
          obtain ⟨last, q, rest, rfl⟩ := hw.exists_next h (by simp [hp])
          have h' : t.mAreas.entries = (before ++ [(key, p)]) ++ (last, q) :: rest := by simp [h]
          have hlt : key < last := hafter (last, q) (by simp)
          have hmem : (⟨key, last, payload⟩ : AreaInfo T) ∈ areasOf t.mAreas.entries :=
            h ▸ mem_areasOf_adjacent hp
          rw [hpart.find?_contains hmem le_rfl hlt]
          simp [queryArea, hlb, deref_at h, hc, stdNext_at h, deref_at h', Nat.not_lt.mpr hlt.le,
            report_adjacent h hp, bind, Except.bind, pure, Except.pure]
    · have hlt : address < key := by omega
      cases ho : p.isOpen with
      | true =>
          have hn : t.lookup address = none := by
            rw [lookup_gap h (fun q hq => (hbefore q hq).le), hw.closed_before h ho]
            intro q hq
            rcases List.mem_cons.mp hq with rfl | hq
            · exact hlt
            · exact hlt.trans (hafter q hq)
          rw [hpart.find?_contains_none hn]
          simp [queryArea, hlb, deref_at h, hk, ho, report, bind, Except.bind, pure, Except.pure]
      | false =>
          obtain ⟨init, last, q, payload, rfl, hq⟩ := hw.exists_previous h ho
          have hat : t.mAreas.entries = init ++ (last, q) :: (key, p) :: after := by simp [h]
          have hmem : (⟨last, key, payload⟩ : AreaInfo T) ∈ areasOf t.mAreas.entries :=
            hat ▸ mem_areasOf_adjacent hq
          have hle' : last ≤ address := (hbefore (last, q) (by simp)).le
          rw [hpart.find?_contains hmem hle' hlt]
          simp [queryArea, hlb, deref_at h, hk, ho, stdPrev_at hat, Nat.not_lt.mpr hle,
            report_adjacent hat hq, bind, Except.bind, pure, Except.pure]

theorem lowerBound_eq (hw : WellFormed t) :
    (t.lowerBound address >>= t.report) = .ok ((areasOf t.mAreas.entries).find?
      fun a => address < a.endAddress) := by
  have hpart := areasOf_partition hw
  rcases lowerBound_cases t address with ⟨hlb, hall⟩ | ⟨before, key, p, after, h, hlb, hle, hbefore⟩
  · have hn (x : Nat) (hx : address ≤ x) : t.lookup x = none := by
      rw [lookup_gap (List.append_nil _).symm (fun p hp => (hall p hp).le.trans hx) (by simp), hw.2]
    simp [lowerBound, hlb, hpart.find?_after_none hn, report, bind, Except.bind, pure, Except.pure]
  · have hafter := OrderedMap.lt_of_after h
    have hat := h.trans (List.append_cons _ _ _)
    have hbefore' (x : Nat) (hx : key ≤ x) : ∀ q ∈ before ++ [(key, p)], q.1 ≤ x := by
      intro q hq
      rcases List.mem_append.mp hq with hq | hq
      · exact ((hbefore q hq).le.trans hle).trans hx
      · simpa [List.mem_singleton.mp hq] using hx
    by_cases hk : key = address
    · subst hk
      cases hp : p.after with
      | none =>
          have hc : p.isClose = true := by cases p <;> simp_all [Payload.after, Payload.isClose]
          cases after with
          | nil =>
              have hn (x : Nat) (hx : key ≤ x) : t.lookup x = none := by
                rw [lookup_gap hat (hbefore' x hx) (by simp)]
                simp [hp]
              simp [lowerBound, hlb, deref_at h, hc, stdNext_at h, hpart.find?_after_none hn, report,
                bind, Except.bind]
          | cons r after =>
              -- the area behind the Close point starts at the next point
              obtain ⟨first, r⟩ := r
              have hchain := hw.1
              rw [hat, chained_append] at hchain
              have hr := hchain.2.1
              simp only [stateAfter_append, stateAfter_cons, stateAfter_nil, hp] at hr
              obtain ⟨payload, hpay⟩ : ∃ payload, r.after = some payload := by
                cases r <;> simp_all [Payload.Fits, Payload.after]
              obtain ⟨last, q, rest, rfl⟩ := hw.exists_next hat (by simp [hpay])
              have hmem : (⟨first, last, payload⟩ : AreaInfo T) ∈ areasOf t.mAreas.entries :=
                hat ▸ mem_areasOf_adjacent hpay
              have hf : key < first := hafter (first, r) (by simp)
              have hl : first < last := OrderedMap.lt_of_after hat (last, q) (by simp)
              have hgap (x : Nat) (hx : key ≤ x) (hx' : x < first) : t.lookup x = none := by
                rw [lookup_gap hat (hbefore' x hx)]
                · simp [hp]
                · intro q hq
                  rcases List.mem_cons.mp hq with rfl | hq
                  · exact hx'
                  · exact hx'.trans (OrderedMap.lt_of_after hat q hq)
              rw [hpart.find?_after hmem (hf.trans hl) hgap]
              simp [lowerBound, hlb, deref_at h, hc, stdNext_at h, report_adjacent hat hpay, bind,
                Except.bind]
      | some payload =>
          have hc : p.isClose = false := by cases p <;> simp_all [Payload.after, Payload.isClose]
          obtain ⟨last, q, rest, rfl⟩ := hw.exists_next h (by simp [hp])
          have hmem : (⟨key, last, payload⟩ : AreaInfo T) ∈ areasOf t.mAreas.entries :=
            h ▸ mem_areasOf_adjacent hp
          rw [hpart.find?_after hmem (hafter (last, q) (by simp)) (fun x hx hx' => by
            simp only at hx'; omega)]
          simp [lowerBound, hlb, deref_at h, hc, report_adjacent h hp, bind, Except.bind, pure,
            Except.pure]
    · have hlt : address < key := by omega
      cases ho : p.isOpen with
      | true =>
          obtain ⟨payload, hpay⟩ : ∃ payload, p.after = some payload := by
            cases p <;> simp_all [Payload.isOpen, Payload.after]
          obtain ⟨last, q, rest, rfl⟩ := hw.exists_next h (by simp [hpay])
          have hmem : (⟨key, last, payload⟩ : AreaInfo T) ∈ areasOf t.mAreas.entries :=
            h ▸ mem_areasOf_adjacent hpay
          have hgap (x : Nat) (hx : address ≤ x) (hx' : x < key) : t.lookup x = none := by
            rw [lookup_gap h (fun q hq => (hbefore q hq).le.trans hx), hw.closed_before h ho]
            intro q hq
            rcases List.mem_cons.mp hq with rfl | hq
            · exact hx'
            · exact hx'.trans (hafter q hq)
          rw [hpart.find?_after hmem (hlt.trans (hafter (last, q) (by simp))) hgap]
          simp [lowerBound, hlb, deref_at h, hk, ho, report_adjacent h hpay, bind, Except.bind, pure,
            Except.pure]
      | false =>
          obtain ⟨init, last, q, payload, rfl, hq⟩ := hw.exists_previous h ho
          have hat' : t.mAreas.entries = init ++ (last, q) :: (key, p) :: after := by simp [h]
          have hmem : (⟨last, key, payload⟩ : AreaInfo T) ∈ areasOf t.mAreas.entries :=
            hat' ▸ mem_areasOf_adjacent hq
          have hle' : last < address := hbefore (last, q) (by simp)
          rw [hpart.find?_after hmem hlt (fun x hx hx' => by simp only at hx'; omega)]
          simp [lowerBound, hlb, deref_at h, hk, ho, stdPrev_at hat', report_adjacent hat' hq, bind,
            Except.bind, pure, Except.pure]

end Query

end Rpcsx.MemoryTable.PayloadTable
