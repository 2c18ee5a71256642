import Rpcsx.MemoryTable.PayloadTable.Refinement

namespace Rpcsx.MemoryTable.PayloadTable

open Rpcsx.Data Rpcsx.Data.StepFunction Rpcsx.Data.Runs
open Payload (between)

variable {T : Type} {t : PayloadTable T} {lo hi : Nat}

-- The payload of the area an iterator stands at, through the reference that `get` returns.
def setPayload (t : PayloadTable T) (it : Nat) (payload : T) : Except Fault (PayloadTable T) := do
  let point ← deref t.mAreas (some it)
  return t.assign it (← point.2.exchange payload).2

section Reachable

variable [DecidableEq T] [Inhabited T]

-- The tables that the calls of the class lead to. Iterators stand at areas.
inductive Reachable : PayloadTable T → Prop where
  | empty : Reachable empty
  | map {t t' : PayloadTable T} {beginAddress endAddress it : Nat} {payload : T}
      {merge noOverride : Bool} : Reachable t →
      t.map beginAddress endAddress payload merge noOverride = .ok (t', it) → Reachable t'
  | unmap {t t' : PayloadTable T} {beginAddress endAddress : Nat} : Reachable t →
      beginAddress < endAddress → t.unmap beginAddress endAddress = .ok t' → Reachable t'
  | unmapArea {t t' : PayloadTable T} {list : List (AreaInfo T)} {area : AreaInfo T} :
      Reachable t → t.areas = .ok list → area ∈ list →
      t.unmapArea area.beginAddress = .ok t' → Reachable t'
  | setPayload {t t' : PayloadTable T} {it : Nat} {payload : T} : Reachable t →
      t.setPayload it payload = .ok t' → Reachable t'

end Reachable

theorem adjacent_of_mem_areasOf {points : List (Nat × Payload T)} {area : AreaInfo T}
    (h : area ∈ areasOf points) : ∃ before p q after,
      points = before ++ (area.beginAddress, p) :: (area.endAddress, q) :: after ∧
        p.after = some area.payload := by
  induction points using areasOf.induct with
  | case1 lo p hi q rest ih =>
      simp only [areasOf_pair, List.mem_append, Option.mem_toList, Option.map_eq_some_iff] at h
      rcases h with ⟨payload, hp, rfl⟩ | h
      · exact ⟨[], p, q, rest, rfl, hp⟩
      · obtain ⟨before, p', q', after, hpoints, hp'⟩ := ih h
        exact ⟨(lo, p) :: before, p', q', after, by rw [hpoints]; rfl, hp'⟩
  | case2 points hne =>
      rw [areasOf_short hne] at h
      cases h

-- What the invariant says of two neighbouring points.
theorem WellFormed.adjacent (hw : WellFormed t) {before after : List (Nat × Payload T)}
    {p q : Payload T} (h : t.mAreas.entries = before ++ (lo, p) :: (hi, q) :: after) :
    p = between (stateAfter none before) p.after ∧ q = between p.after q.after := by
  have hchain := hw.1
  rw [h, chained_append] at hchain
  exact ⟨Payload.eq_between hchain.2.1, Payload.eq_between hchain.2.2.1⟩

theorem lookup_at {before after : List (Nat × Payload T)} {key : Nat} {p : Payload T}
    (h : t.mAreas.entries = before ++ (key, p) :: after) : t.lookup key = p.after := by
  rw [lookup_gap (h.trans (List.append_cons _ _ _)) _ (OrderedMap.lt_of_after h)]
  · simp
  · intro q hq
    rcases List.mem_append.mp hq with hq | hq
    · exact (OrderedMap.lt_of_before h q hq).le
    · rw [List.mem_singleton.mp hq]

-- Up to the next point nothing changes.
theorem lookup_adjacent {before after : List (Nat × Payload T)} {p q : Payload T}
    (h : t.mAreas.entries = before ++ (lo, p) :: (hi, q) :: after) {x : Nat} (hlo : lo ≤ x)
    (hhi : x < hi) : t.lookup x = p.after := by
  have h' := h.trans (List.append_cons _ _ _)
  rw [lookup_gap h']
  · simp
  · intro r hr
    rcases List.mem_append.mp hr with hr | hr
    · exact (OrderedMap.lt_of_before h r hr).le.trans hlo
    · rwa [List.mem_singleton.mp hr]
  · intro r hr
    rcases List.mem_cons.mp hr with rfl | hr
    · exact hhi
    · exact hhi.trans (OrderedMap.lt_of_after h' r hr)

section Steps

variable [DecidableEq T]

theorem unmapArea_wellFormed (hw : WellFormed t) {area : AreaInfo T}
    (ha : area ∈ areasOf t.mAreas.entries) {t' : PayloadTable T}
    (hok : t.unmapArea area.beginAddress = .ok t') : WellFormed t' := by
  obtain ⟨lo, hi, payload⟩ := area
  obtain ⟨before, p, q, after, h, hp⟩ := adjacent_of_mem_areasOf ha
  simp only at h hok hp
  obtain ⟨hpb, hqb⟩ := hw.adjacent h
  have hlt : lo < hi := OrderedMap.lt_of_after h (hi, q) (by simp)
  have h' := h.trans (List.append_cons _ _ _)
  have hpoints := h
  rw [hpb, hqb, hp] at hpoints
  obtain ⟨t₁, hun, h₁⟩ := unmapArea_spec hpoints
  obtain rfl : t₁ = t' := Except.ok.inj (hun.symm.trans hok)
  have hentries : t₁.mAreas.entries = overwrite false none lo hi t := by
    rw [h₁, overwrite, OrderedMap.filter_lt_at h, OrderedMap.filter_gt_at h', lookup_at h']
    simp [between]
  exact overwrite_wellFormed hw hlt (by simp) hentries

omit [DecidableEq T] in
theorem chained_congr {a b : Option T} (h : a.isSome = b.isSome)
    {points : List (Nat × Payload T)} (hc : Chained a points) : Chained b points := by
  match points, hc with
  | [], _ => trivial
  | (key, .O data) :: rest, ⟨hfit, hrest⟩ =>
      refine ⟨?_, hrest⟩
      have ha : a = none := hfit
      rw [ha] at h
      exact Option.not_isSome_iff_eq_none.mp (by rw [← h]; simp)
  | (key, .X) :: rest, ⟨hfit, hrest⟩ => exact ⟨h.symm.trans hfit, hrest⟩
  | (key, .XO data) :: rest, ⟨hfit, hrest⟩ => exact ⟨h.symm.trans hfit, hrest⟩

omit [DecidableEq T] in
theorem setPayload_wellFormed (hw : WellFormed t) {it : Nat} {payload : T} {t' : PayloadTable T}
    (hok : t.setPayload it payload = .ok t') : WellFormed t' := by
  have hsplit := t.mAreas.entries_split it
  cases hf : t.mAreas.find? it with
  | none => simp [setPayload, deref, hf, bind, Except.bind] at hok
  | some point =>
      rw [hf] at hsplit
      simp only [Option.toList_some, List.map_cons, List.map_nil, List.append_assoc,
        List.singleton_append] at hsplit
      cases hx : point.exchange payload with
      | error fault => simp [setPayload, deref_at hsplit, hx, bind, Except.bind] at hok
      | ok result =>
          simp only [setPayload, deref_at hsplit, hx, bind, Except.bind, pure, Except.pure,
            Except.ok.injEq] at hok
          have hentries := assign_entries hsplit result.2
          rw [hok] at hentries
          -- the point keeps its kind, so both its neighbours still fit
          have hkind : point.after.isSome ∧ result.2.after.isSome ∧
              (∀ before, point.Fits before → result.2.Fits before) := by
            cases point with
            | O data =>
                obtain rfl : (data, Payload.O payload) = result := Except.ok.inj hx
                exact ⟨rfl, rfl, fun _ hfit => hfit⟩
            | X => simp [Payload.exchange] at hx
            | XO data =>
                obtain rfl : (data, Payload.XO payload) = result := Except.ok.inj hx
                exact ⟨rfl, rfl, fun _ hfit => hfit⟩
          obtain ⟨hsome, hsome', hfits⟩ := hkind
          obtain ⟨last, q, rest, hrest⟩ := hw.exists_next hsplit hsome
          obtain ⟨hchain, hlast⟩ := hw
          rw [hsplit, hrest] at hchain hlast
          rw [hrest] at hentries
          rw [WellFormed, hentries]
          rw [chained_append] at hchain ⊢
          refine ⟨⟨hchain.1, hfits _ hchain.2.1, ?_⟩, by simpa using hlast⟩
          exact chained_congr (hsome.trans hsome'.symm) hchain.2.2

variable [Inhabited T]

-- Both ends are points already, and no point is in between.
def BothEnds (t : PayloadTable T) (lo hi : Nat) : Prop :=
  (t.mAreas.find? lo).isSome ∧ (t.mAreas.find? hi).isSome ∧ t.mAreas.next lo = some hi

theorem map_bothEnds (hlt : lo < hi) (hb : BothEnds t lo hi) (payload : T) (merge : Bool) :
    t.map lo hi payload merge true = .ok (t, lo) := by
  obtain ⟨hlo, hhi, hnext⟩ := hb
  simp [map, check, hlt, OrderedMap.emplace, hlo, hhi, hnext, bind, Except.bind, pure,
    Except.pure]

theorem map_override (hlt : lo < hi) (hb : ¬BothEnds t lo hi) (payload : T)
    (merge noOverride : Bool) :
    t.map lo hi payload merge noOverride = t.map lo hi payload merge false := by
  have hbi := t.mAreas.emplace_inserted lo (Payload.O payload)
  have hei := (t.mAreas.emplace lo (Payload.O payload)).1.emplace_inserted hi .X
  rw [t.mAreas.find?_emplace_ne (Payload.O payload) hlt.ne'] at hei
  have hguard : (noOverride && !(t.mAreas.find? lo).isNone && !(t.mAreas.find? hi).isNone &&
      decide (((t.mAreas.emplace lo (.O payload)).1.emplace hi .X).1.next lo = some hi)) =
        false := by
    by_contra hg
    simp only [Bool.not_eq_false, Bool.and_eq_true, Bool.not_eq_true', Option.isNone_eq_false_iff,
      decide_eq_true_eq] at hg
    obtain ⟨⟨⟨-, hlo⟩, hhi⟩, hnext⟩ := hg
    simp only [OrderedMap.emplace, hlo, hhi, if_true] at hnext
    exact hb ⟨hlo, hhi, hnext⟩
  simp only [map, check, hlt, decide_true, if_true, hbi, hei, bind, Except.bind]
  rw [hguard]
  simp

theorem map_wellFormed (hw : WellFormed t) {payload : T} {merge noOverride : Bool}
    {t' : PayloadTable T} {it : Nat}
    (hok : t.map lo hi payload merge noOverride = .ok (t', it)) : WellFormed t' := by
  by_cases hlt : lo < hi
  · by_cases hb : BothEnds t lo hi ∧ noOverride = true
    · obtain ⟨hb, rfl⟩ := hb
      rw [map_bothEnds hlt hb] at hok
      obtain ⟨rfl, -⟩ := Prod.mk.inj (Except.ok.inj hok)
      exact hw
    · have hplain : t.map lo hi payload merge noOverride = t.map lo hi payload merge false := by
        cases noOverride with
        | false => rfl
        | true => exact map_override hlt (fun hends => hb ⟨hends, rfl⟩) payload merge true
      obtain ⟨t₁, it₁, hok₁, he, -⟩ := map_entries hw hlt payload merge
      rw [hplain, hok₁] at hok
      obtain ⟨rfl, -⟩ := Prod.mk.inj (Except.ok.inj hok)
      exact overwrite_wellFormed hw hlt (by simp) he
  · simp [map, check, hlt, bind, Except.bind] at hok

theorem Reachable.wellFormed (h : Reachable t) : WellFormed t := by
  induction h with
  | empty => exact ⟨trivial, rfl⟩
  | map _ hok ih => exact map_wellFormed ih hok
  | unmap _ hlt hok ih =>
      obtain ⟨t₁, hok₁, he⟩ := unmap_entries ih hlt
      obtain rfl := Except.ok.inj (hok₁.symm.trans hok)
      exact overwrite_wellFormed ih hlt (by simp) he
  | unmapArea _ hareas hmem hok ih =>
      rw [areas_eq ih] at hareas
      obtain rfl := Except.ok.inj hareas
      exact unmapArea_wellFormed ih hmem hok
  | setPayload _ hok ih => exact setPayload_wellFormed ih hok

end Steps

theorem bothEnds_iff : BothEnds t lo hi ↔ ∃ before p q after,
    t.mAreas.entries = before ++ (lo, p) :: (hi, q) :: after := by
  constructor
  · rintro ⟨hlo, -, hnext⟩
    obtain ⟨p, hp⟩ := Option.isSome_iff_exists.mp hlo
    have hsplit := t.mAreas.entries_split lo
    simp only [hp, Option.toList_some, List.map_cons, List.map_nil, List.append_assoc,
      List.singleton_append] at hsplit
    rw [OrderedMap.next_at hsplit] at hnext
    cases hafter : t.mAreas.entries.filter (lo < ·.1) with
    | nil => simp [hafter] at hnext
    | cons q after =>
        rw [hafter] at hsplit hnext
        obtain rfl : q.1 = hi := by simpa using hnext
        exact ⟨_, p, q.2, after, hsplit⟩
  · rintro ⟨before, p, q, after, h⟩
    have h' := h.trans (List.append_cons _ _ _)
    exact ⟨by simp [OrderedMap.find?_at h], by simp [OrderedMap.find?_at h'],
      by simp [OrderedMap.next_at h]⟩

-- An area ends at the begin of the range, one begins at its end, and none is in between.
def IsGap (list : List (AreaInfo T)) (lo hi : Nat) : Prop :=
  (∃ area ∈ list, area.endAddress = lo) ∧ (∃ area ∈ list, area.beginAddress = hi) ∧
    ∀ area ∈ list, area.endAddress ≤ lo ∨ hi ≤ area.beginAddress

-- The area list and the partial map tell the same.
theorem lookup_eq_none (hw : WellFormed t)
    (h : ∀ area ∈ areasOf t.mAreas.entries, area.endAddress ≤ lo ∨ hi ≤ area.beginAddress) {x : Nat}
    (hlo : lo ≤ x) (hhi : x < hi) : t.lookup x = none := by
  cases hx : t.lookup x with
  | none => rfl
  | some value =>
      obtain ⟨area, hmem, hbegin, hend, -⟩ := ((areasOf_partition hw).covers x value).mp hx
      have := h area hmem
      omega

-- A stretch without a payload between two neighbouring points is a gap.
theorem isGap_of_closed (hw : WellFormed t) {before after : List (Nat × Payload T)}
    {p q : Payload T} (h : t.mAreas.entries = before ++ (lo, p) :: (hi, q) :: after)
    (hp : p.after = none) : IsGap (areasOf t.mAreas.entries) lo hi := by
  have h' := h.trans (List.append_cons _ _ _)
  refine ⟨?_, ?_, ?_⟩
  · have hclosed : p.isOpen = false := by cases p <;> simp_all [Payload.after, Payload.isOpen]
    obtain ⟨init, last, r, payload, rfl, hr⟩ := hw.exists_previous h hclosed
    have hat : t.mAreas.entries = init ++ (last, r) :: (lo, p) :: (hi, q) :: after := by simp [h]
    exact ⟨⟨last, lo, payload⟩, hat ▸ mem_areasOf_adjacent hr, rfl⟩
  · have hsome : q.after.isSome := by
      have hchain := hw.1
      rw [h, chained_append] at hchain
      have hfit := hchain.2.2.1
      rw [hp] at hfit
      cases q <;> simp_all [Payload.Fits, Payload.after]
    obtain ⟨payload, hpay⟩ := Option.isSome_iff_exists.mp hsome
    obtain ⟨last, r, rest, rfl⟩ := hw.exists_next h' hsome
    exact ⟨⟨hi, last, payload⟩, h' ▸ mem_areasOf_adjacent hpay, rfl⟩
  · intro area hmem
    have hpart := areasOf_partition hw
    by_contra hin
    have hlt : lo < hi := OrderedMap.lt_of_after h (hi, q) (by simp)
    have hpos := hpart.nonempty area hmem
    have hx := (hpart.covers (max lo area.beginAddress) area.payload).mpr
      ⟨area, hmem, le_max_right _ _, by omega, rfl⟩
    rw [lookup_adjacent h (le_max_left _ _) (by omega), hp] at hx
    cases hx

-- The ends of a gap are neighbouring points.
theorem IsGap.bothEnds (hw : WellFormed t) (hlt : lo < hi)
    (hgap : IsGap (areasOf t.mAreas.entries) lo hi) : BothEnds t lo hi := by
  obtain ⟨⟨area, hmem, hend⟩, ⟨next, hnext, hbegin⟩, hout⟩ := hgap
  obtain ⟨before, r, p, after, h, -⟩ := adjacent_of_mem_areasOf hmem
  rw [hend] at h
  have h' := h.trans (List.append_cons _ _ _)
  have hp : p.after = none := by
    rw [← lookup_at h']
    exact lookup_eq_none hw hout le_rfl hlt
  obtain ⟨point, hpoint, hsome⟩ := begin_mem_of_mem_areasOf hnext
  rw [hbegin] at hpoint
  -- the point at the end of the gap is one of those behind its begin
  have hbehind : (hi, point) ∈ after := by
    rw [h'] at hpoint
    rcases List.mem_append.mp hpoint with hb | hb
    · exact absurd (OrderedMap.lt_of_before h' _ hb) hlt.not_gt
    · rcases List.mem_cons.mp hb with heq | hb
      · exact absurd (Prod.mk.inj heq).1 hlt.ne'
      · exact hb
  cases after with
  | nil => simp at hbehind
  | cons q after =>
      have hlo : lo < q.1 := OrderedMap.lt_of_after h' q (by simp)
      obtain ⟨-, ⟨following, hfollow, hkey⟩, -⟩ := isGap_of_closed hw h' hp
      have hfirst : hi ≤ q.1 := by
        have hpos := (areasOf_partition hw).nonempty following hfollow
        have := hout following hfollow
        omega
      have hle : q.1 ≤ hi := by
        rcases List.mem_cons.mp hbehind with heq | hb
        · rw [← heq]
        · exact (OrderedMap.lt_of_after (h'.trans (List.append_cons _ _ _)) _ hb).le
      obtain rfl : q.1 = hi := le_antisymm hle hfirst
      exact bothEnds_iff.mpr ⟨_, p, q.2, after, h'⟩

-- The address is in an area of the table that has the payload.
def Maps (t : PayloadTable T) (address : Nat) (payload : T) : Prop :=
  ∃ list, t.areas = .ok list ∧ ∃ area ∈ list,
    area.beginAddress ≤ address ∧ address < area.endAddress ∧ area.payload = payload

theorem maps_iff (hw : WellFormed t) {x : Nat} {payload : T} :
    Maps t x payload ↔ t.lookup x = some payload := by
  rw [(areasOf_partition hw).covers x payload]
  constructor
  · rintro ⟨list, hlist, hmem⟩
    rw [areas_eq hw] at hlist
    rwa [← Except.ok.inj hlist] at hmem
  · exact fun hmem => ⟨_, areas_eq hw, hmem⟩

-- The payload of the range after a call that does not override: the old one where the range
-- is one area already.
def keptPayload (list : List (AreaInfo T)) (lo hi : Nat) (payload : T) : T :=
  ((list.find? fun area => area.beginAddress = lo ∧ area.endAddress = hi).map
    AreaInfo.payload).getD payload

theorem keptPayload_adjacent (hw : WellFormed t) {before after : List (Nat × Payload T)}
    {p q : Payload T} (h : t.mAreas.entries = before ++ (lo, p) :: (hi, q) :: after) {old : T}
    (hp : p.after = some old) (payload : T) :
    keptPayload (areasOf t.mAreas.entries) lo hi payload = old := by
  have hlt : lo < hi := OrderedMap.lt_of_after h (hi, q) (by simp)
  have hmem : (⟨lo, hi, old⟩ : AreaInfo T) ∈ areasOf t.mAreas.entries :=
    h ▸ mem_areasOf_adjacent hp
  unfold keptPayload
  cases hf : (areasOf t.mAreas.entries).find?
      fun area => area.beginAddress = lo ∧ area.endAddress = hi with
  | none =>
      have hn := List.find?_eq_none.mp hf _ hmem
      simp at hn
  | some area =>
      have harea := List.find?_some hf
      simp only [decide_eq_true_eq] at harea
      obtain rfl := (areasOf_partition hw).eq_of_mem (List.mem_of_find?_eq_some hf) hmem (x := lo)
        (by omega) ⟨le_rfl, hlt⟩
      rfl

theorem keptPayload_eq_new (hb : ¬BothEnds t lo hi) (payload : T) :
    keptPayload (areasOf t.mAreas.entries) lo hi payload = payload := by
  unfold keptPayload
  cases hf : (areasOf t.mAreas.entries).find?
      fun area => area.beginAddress = lo ∧ area.endAddress = hi with
  | none => rfl
  | some area =>
      have harea := List.find?_some hf
      simp only [decide_eq_true_eq] at harea
      obtain ⟨before, p, q, after, h, -⟩ := adjacent_of_mem_areasOf (List.mem_of_find?_eq_some hf)
      rw [harea.1, harea.2] at h
      exact absurd (bothEnds_iff.mpr ⟨before, p, q, after, h⟩) hb

theorem Covers.areaAt {it address : Nat} {payload : T} (hc : Covers t it address payload)
    (hw : WellFormed t) : ∃ area, t.areaAt (some it) = .ok area ∧
      area.beginAddress ≤ address ∧ address < area.endAddress := by
  obtain ⟨before, point, rest, h, hpoint, hle, hrest⟩ := hc
  obtain ⟨last, q, rest', rfl⟩ := hw.exists_next h (by simp [hpoint])
  exact ⟨_, areaAt_adjacent h hpoint, hle, hrest (last, q) (by simp)⟩

-- What the call promises without overriding: the whole range is mapped, and the iterator
-- stands at an area that holds its begin.
def MapsRange [DecidableEq T] [Inhabited T] (t : PayloadTable T) (list : List (AreaInfo T))
    (lo hi : Nat) (payload : T) (merge : Bool) : Prop :=
  ∃ t' it, t.map lo hi payload merge true = .ok (t', it) ∧
    (∀ x, lo ≤ x → x < hi → Maps t' x (keptPayload list lo hi payload)) ∧
    ∃ area, t'.areaAt (some it) = .ok area ∧ area.beginAddress ≤ lo ∧ lo < area.endAddress

theorem map_noOverride_iff [DecidableEq T] [Inhabited T] (ht : Reachable t) (hlt : lo < hi)
    (payload : T) (merge : Bool) :
    ∃ list, t.areas = .ok list ∧ (MapsRange t list lo hi payload merge ↔ ¬IsGap list lo hi) := by
  have hw := ht.wellFormed
  refine ⟨_, areas_eq hw, ?_⟩
  by_cases hb : BothEnds t lo hi
  · have hmap := map_bothEnds hlt hb payload merge
    obtain ⟨before, p, q, after, h⟩ := bothEnds_iff.mp hb
    cases hp : p.after with
    | some old =>
        have hmem : (⟨lo, hi, old⟩ : AreaInfo T) ∈ areasOf t.mAreas.entries :=
          h ▸ mem_areasOf_adjacent hp
        apply iff_of_true
        · refine ⟨t, lo, hmap, ?_, _, areaAt_adjacent h hp, le_rfl, hlt⟩
          intro x hlo hhi
          rw [keptPayload_adjacent hw h hp, maps_iff hw, lookup_adjacent h hlo hhi, hp]
        · rintro ⟨-, -, hout⟩
          have := hout _ hmem
          simp only at this
          omega
    | none =>
        apply iff_of_false
        · rintro ⟨t', it, hok, hmaps, -⟩
          rw [hmap] at hok
          obtain ⟨rfl, -⟩ := Prod.mk.inj (Except.ok.inj hok)
          have hlo := (maps_iff hw).mp (hmaps lo le_rfl hlt)
          rw [lookup_at h, hp] at hlo
          cases hlo
        · exact not_not.mpr (isGap_of_closed hw h hp)
  · obtain ⟨t', it, hok, he, -, hcovers⟩ := map_entries hw hlt payload merge
    have hw' : WellFormed t' := overwrite_wellFormed hw hlt (by simp) he
    apply iff_of_true
    · refine ⟨t', it, (map_override hlt hb payload merge true).trans hok, ?_, hcovers.areaAt hw'⟩
      intro x hlo hhi
      rw [keptPayload_eq_new hb, maps_iff hw', lookup_overwrite hlt he x, if_pos ⟨hlo, hhi⟩]
    · exact fun hgap => hb (hgap.bothEnds hw hlt)

-- Two areas with a gap between them.
def twoAreas : PayloadTable Nat := ⟨⟨[(0, .O 1), (10, .X), (20, .O 2), (30, .X)], by decide⟩⟩

theorem twoAreas_reachable : Reachable twoAreas := by
  let oneArea : PayloadTable Nat := ⟨⟨[(0, .O 1), (10, .X)], by decide⟩⟩
  have hfirst : (empty : PayloadTable Nat).map 0 10 1 true false = .ok (oneArea, 0) := rfl
  have hsecond : oneArea.map 20 30 2 true false = .ok (twoAreas, 20) := rfl
  exact (Reachable.empty.map hfirst).map hsecond

theorem map_noOverride_iff_overlap : ∃ list, twoAreas.areas = .ok list ∧
    (MapsRange twoAreas list 5 25 3 true ↔ ¬IsGap list 5 25) :=
  map_noOverride_iff twoAreas_reachable (by decide) 3 true

-- A range that is exactly a gap stays unmapped, and the iterator stands at no area.
theorem map_noOverride_gap : Reachable twoAreas ∧
    twoAreas.areas = .ok [⟨0, 10, 1⟩, ⟨20, 30, 2⟩] ∧
    ¬MapsRange twoAreas [⟨0, 10, 1⟩, ⟨20, 30, 2⟩] 10 20 3 true := by
  refine ⟨twoAreas_reachable, rfl, ?_⟩
  rintro ⟨t', it, hok, -, area, harea, -⟩
  have hmap : twoAreas.map 10 20 3 true true = .ok (twoAreas, 10) := rfl
  rw [hmap] at hok
  obtain ⟨rfl, rfl⟩ := Prod.mk.inj (Except.ok.inj hok)
  have hclosed : twoAreas.areaAt (some 10) = .error .assertion := rfl
  rw [hclosed] at harea
  cases harea

end Rpcsx.MemoryTable.PayloadTable
