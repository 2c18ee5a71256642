import Rpcsx.AddressRange.Theorems

namespace Rpcsx.AddressRangeVector

open AddressRange

theorem inside_iff (r other : AddressRange) :
    r.inside other = true ↔ other.start ≤ r.start ∧ r.stop ≤ other.stop := decide_eq_true_iff

theorem addresses_subset_iff {r : AddressRange} (hr : r.valid = true) (other : AddressRange) :
    addresses r ⊆ addresses other ↔ r.inside other = true := by
  rw [valid_iff] at hr
  rw [inside_iff]
  constructor
  · intro hsub
    exact ⟨(hsub (show r.start ∈ addresses r from ⟨le_refl _, hr⟩)).1,
      (hsub (show r.stop ∈ addresses r from ⟨hr, le_refl _⟩)).2⟩
  · rintro ⟨hstart, hstop⟩ x ⟨hx₁, hx₂⟩
    exact ⟨by omega, by omega⟩

theorem inside_antisymm {r other : AddressRange} (h : r.inside other = true)
    (h' : other.inside r = true) : r = other := by
  rw [inside_iff] at h h'
  cases r with
  | mk start stop start_lt stop_lt =>
      cases other with
      | mk start' stop' start_lt' stop_lt' =>
          simp only [AddressRange.mk.injEq]
          simp only at h h'
          omega

theorem overlaps_addresses_iff {r other : AddressRange} (hr : r.valid = true)
    (ho : other.valid = true) :
    r.overlaps other = true ↔ (addresses r ∩ addresses other).Nonempty := by
  rw [valid_iff] at hr ho
  rw [overlaps_iff]
  constructor
  · rintro ⟨h, h'⟩
    refine ⟨max r.start other.start, ⟨?_, ?_⟩, ⟨?_, ?_⟩⟩
    · exact le_max_left _ _
    · exact max_le hr h'
    · exact le_max_right _ _
    · exact max_le h ho
  · rintro ⟨x, ⟨hx₁, hx₂⟩, hx₃, hx₄⟩
    omega

theorem contains_iff (data : AddressRangeVector) (r : AddressRange) :
    data.contains r = true ↔ ∃ q ∈ members data, q.inside r = true := by
  simp only [contains, List.any_eq_true, Bool.and_eq_true, members, List.mem_filter, and_assoc]

theorem overlaps_members_iff (data : AddressRangeVector) (r : AddressRange) :
    data.overlaps r = true ↔ ∃ q ∈ members data, q.overlaps r = true := by
  simp only [overlaps, List.any_eq_true, Bool.and_eq_true, members, List.mem_filter, and_assoc]

section Consistent

variable {data : AddressRangeVector} {r : AddressRange}

-- Members that do not touch leave a gap behind each of them.
theorem Apart.gap (h : Apart (members data)) {q : AddressRange} (hq : q ∈ members data) :
    q.stop + 1 ∉ denote data := by
  rintro ⟨other, ho, hstart, hstop⟩
  have hv := valid_of_mem hq
  have hv' := valid_of_mem ho
  have hle := (valid_iff q).mp hv
  have hne : q ≠ other := by
    rintro rfl
    omega
  have happart := h.not_touches hq ho hne hv hv'
  have htouch : q.touches other = true := (touches_iff hv hv').mpr (Or.inl ⟨by omega, by omega⟩)
  rw [happart] at htouch
  cases htouch

-- What the members cover together one of them covers alone.
theorem covered_iff (h : Apart (members data)) (hr : r.valid = true) :
    addresses r ⊆ denote data ↔ ∃ q ∈ members data, r.inside q = true := by
  constructor
  · intro hsub
    have hle := (valid_iff r).mp hr
    obtain ⟨q, hq, hstart, hstop⟩ := hsub (show r.start ∈ addresses r from ⟨le_refl _, hle⟩)
    refine ⟨q, hq, (inside_iff _ _).mpr ⟨hstart, ?_⟩⟩
    by_contra hlt
    exact h.gap hq (hsub ⟨by omega, by omega⟩)
  · rintro ⟨q, hq, hin⟩ x hx
    exact ⟨q, hq, (addresses_subset_iff hr q).mpr hin hx⟩

theorem overlaps_denote_iff (hr : r.valid = true) :
    data.overlaps r = true ↔ (addresses r ∩ denote data).Nonempty := by
  rw [overlaps_members_iff]
  constructor
  · rintro ⟨q, hq, ho⟩
    obtain ⟨x, hx, hx'⟩ := (overlaps_addresses_iff (valid_of_mem hq) hr).mp ho
    exact ⟨x, hx', q, hq, hx⟩
  · rintro ⟨x, hx, q, hq, hx'⟩
    exact ⟨q, hq, (overlaps_addresses_iff (valid_of_mem hq) hr).mpr ⟨x, hx', hx⟩⟩

-- A member inside a range that lies inside a member is that range.
theorem eq_of_inside_inside (h : Apart (members data)) {q other : AddressRange}
    (hq : q ∈ members data) (ho : other ∈ members data) (hin : q.inside r = true)
    (hin' : r.inside other = true) : r = q := by
  have hv := valid_of_mem hq
  have hv' := valid_of_mem ho
  have hle := (valid_iff q).mp hv
  have heq : q = other := by
    by_contra hne
    have happart := h.not_touches hq ho hne hv hv'
    rw [inside_iff] at hin hin'
    have htouch : q.touches other = true :=
      (touches_iff hv hv').mpr (Or.inl ⟨by omega, by omega⟩)
    rw [happart] at htouch
    cases htouch
  subst heq
  exact inside_antisymm hin' hin

theorem contains_denote_iff (h : Apart (members data)) (hr : r.valid = true) :
    (data.contains r = true ↔ addresses r ⊆ denote data) ↔
      r ∈ members data ∨ ∀ q ∈ members data, q.inside r = false ∧ r.inside q = false := by
  rw [contains_iff, covered_iff h hr]
  constructor
  · intro hiff
    by_cases hin : ∃ q ∈ members data, q.inside r = true
    · obtain ⟨q, hq, hqr⟩ := hin
      obtain ⟨other, ho, hro⟩ := hiff.mp ⟨q, hq, hqr⟩
      exact Or.inl (eq_of_inside_inside h hq ho hqr hro ▸ hq)
    · refine Or.inr fun q hq => ⟨?_, ?_⟩
      · rw [← Bool.not_eq_true]
        exact fun hqr => hin ⟨q, hq, hqr⟩
      · rw [← Bool.not_eq_true]
        exact fun hrq => hin (hiff.mpr ⟨q, hq, hrq⟩)
  · rintro (hmem | hnone)
    · have hself : r.inside r = true := (inside_iff r r).mpr ⟨le_refl _, le_refl _⟩
      exact iff_of_true ⟨r, hmem, hself⟩ ⟨r, hmem, hself⟩
    · constructor
      · rintro ⟨q, hq, hqr⟩
        rw [(hnone q hq).1] at hqr
        cases hqr
      · rintro ⟨q, hq, hrq⟩
        rw [(hnone q hq).2] at hrq
        cases hrq

-- The queries of a vector, and of a range about a vector, agree with the addresses they are about.
def QueriesAgree (data : AddressRangeVector) (r : AddressRange) : Prop :=
  (data.contains r = true ↔ ∀ x ∈ addresses r, ∃ q ∈ members data, x ∈ addresses q) ∧
    (r.insideVector data = true ↔ ∀ x ∈ addresses r, ∃ q ∈ members data, x ∈ addresses q) ∧
    (data.overlaps r = true ↔ ∃ x ∈ addresses r, ∃ q ∈ members data, x ∈ addresses q) ∧
    (r.overlapsVector data = true ↔ ∃ x ∈ addresses r, ∃ q ∈ members data, x ∈ addresses q)

-- `contains` asks whether a member lies inside the range, not the range inside a member: the two
-- agree for a range that is a member, and for one that neither holds a member nor lies in one.
theorem queriesAgree_iff (hc : checkConsistency data = true) (hr : r.valid = true) :
    QueriesAgree data r ↔
      r ∈ members data ∨ ∀ q ∈ members data, q.inside r = false ∧ r.inside q = false := by
  have h := (checkConsistency_iff data).mp hc
  rw [← contains_denote_iff h hr]
  have ho : data.overlaps r = true ↔ (addresses r ∩ denote data).Nonempty :=
    overlaps_denote_iff hr
  exact ⟨fun hagree => hagree.1, fun hcontains => ⟨hcontains, hcontains, ho, ho⟩⟩

end Consistent

theorem queriesAgree_iff_member :
    QueriesAgree [⟨0x1000, 0x1FFF, by omega, by omega⟩] ⟨0x1000, 0x1FFF, by omega, by omega⟩ :=
  (queriesAgree_iff (by decide) (by decide)).mpr (Or.inl (by decide))

-- One page of a range of two is not found in it.
theorem contains_misses_part :
    ¬∀ (data : AddressRangeVector) (r : AddressRange), checkConsistency data = true →
      r.valid = true → QueriesAgree data r := by
  intro hall
  have hagree := hall [⟨0x1000, 0x2FFF, by omega, by omega⟩] ⟨0x1000, 0x1FFF, by omega, by omega⟩
    (by decide) (by decide)
  have hcontains := hagree.1.mpr (by
    rintro x ⟨hx₁, hx₂⟩
    exact ⟨_, List.mem_singleton.mpr rfl, hx₁, le_trans hx₂ (by decide)⟩)
  exact absurd hcontains (by decide)

theorem overlapsVector_iff (data other : AddressRangeVector) :
    overlapsVector data other = true ↔ (denote data ∩ denote other).Nonempty := by
  simp only [overlapsVector, List.any_eq_true, Bool.and_eq_true]
  constructor
  · rintro ⟨q, hq, hv, q', hq', hv', ho⟩
    obtain ⟨x, hx, hx'⟩ := (overlaps_addresses_iff hv hv').mp ho
    exact ⟨x, ⟨q, mem_members_iff.mpr ⟨hq, hv⟩, hx⟩, q', mem_members_iff.mpr ⟨hq', hv'⟩, hx'⟩
  · rintro ⟨x, ⟨q, hq, hx⟩, q', hq', hx'⟩
    have hm := mem_members_iff.mp hq
    have hm' := mem_members_iff.mp hq'
    exact ⟨q, hm.1, hm.2, q', hm'.1, hm'.2, (overlaps_addresses_iff hm.2 hm'.2).mpr ⟨x, hx, hx'⟩⟩

theorem inside_denote_iff (data : AddressRangeVector) (r : AddressRange) :
    inside data r = true ↔ denote data ⊆ addresses r := by
  simp only [inside, List.all_eq_true, Bool.or_eq_true, Bool.not_eq_eq_eq_not, Bool.not_true]
  constructor
  · rintro hall x ⟨q, hq, hx⟩
    have hm := mem_members_iff.mp hq
    rcases hall q hm.1 with hv | hin
    · rw [hm.2] at hv
      cases hv
    · exact (addresses_subset_iff hm.2 r).mpr hin hx
  · intro hsub q hq
    cases hv : q.valid with
    | false => exact Or.inl rfl
    | true =>
        refine Or.inr ((addresses_subset_iff hv r).mp fun x hx => hsub ?_)
        exact ⟨q, mem_members_iff.mpr ⟨hq, hv⟩, hx⟩

end Rpcsx.AddressRangeVector
