import Rpcsx.AddressRange.Members
import Mathlib.Data.List.Induction
import Mathlib.Data.List.Nodup
import Mathlib.Data.List.Pairwise
import Mathlib.Data.Set.Basic

namespace Rpcsx.AddressRangeVector

open AddressRange Rpcsx.Data.Machine

-- Two ranges overlap or lie side by side.
def Adjacent (r other : AddressRange) : Prop :=
  r.start ≤ other.stop + 1 ∧ other.start ≤ r.stop + 1

-- They meet around the end of the address space.
def MeetAround (r other : AddressRange) : Prop :=
  (r.stop = 2 ^ 32 - 1 ∧ other.start = 0) ∨ (r.start = 0 ∧ other.stop = 2 ^ 32 - 1)

theorem touches_iff {r other : AddressRange} (hr : r.valid = true) (ho : other.valid = true) :
    r.touches other = true ↔ Adjacent r other ∨ MeetAround r other := by
  have h₁ := r.start_lt
  have h₂ := r.stop_lt
  have h₃ := other.start_lt
  have h₄ := other.stop_lt
  rw [valid_iff] at hr ho
  have hnext : other.start = r.nextAddress ↔
      (r.stop + 1 < 2 ^ 32 ∧ other.start = r.stop + 1) ∨ (r.stop = 2 ^ 32 - 1 ∧ other.start = 0) := by
    by_cases h : r.stop + 1 < 2 ^ 32
    · rw [nextAddress, Nat.mod_eq_of_lt h]
      omega
    · rw [nextAddress, show r.stop + 1 = 2 ^ 32 by omega, Nat.mod_self]
      omega
  have hprev : other.stop = r.prevAddress ↔
      (0 < r.start ∧ other.stop = r.start - 1) ∨ (r.start = 0 ∧ other.stop = 2 ^ 32 - 1) := by
    by_cases h : 0 < r.start
    · rw [prevAddress_of_pos h]
      omega
    · rw [prevAddress, show r.start = 0 by omega, Nat.zero_add, Nat.mod_eq_of_lt (by omega)]
      omega
  rw [touches, Bool.or_eq_true, Bool.or_eq_true, overlaps_iff, beq_iff_eq, beq_iff_eq, hnext, hprev,
    Adjacent, MeetAround]
  omega

theorem touches_comm {r other : AddressRange} (hr : r.valid = true) (ho : other.valid = true) :
    r.touches other = true ↔ other.touches r = true := by
  rw [touches_iff hr ho, touches_iff ho hr, Adjacent, Adjacent, MeetAround, MeetAround]
  omega

-- The addresses of a range and of a vector.
def addresses (r : AddressRange) : Set Nat := {x | r.start ≤ x ∧ x ≤ r.stop}

def denote (data : AddressRangeVector) : Set Nat := {x | ∃ r ∈ members data, x ∈ addresses r}

theorem addresses_of_not_valid {r : AddressRange} (h : r.valid = false) : addresses r = ∅ := by
  ext x
  have hlt : ¬r.start ≤ r.stop := fun hc => by simp [(valid_iff r).mpr hc] at h
  simp only [addresses, Set.mem_ofPred_eq, Set.mem_empty_iff_false, iff_false]
  omega

theorem valid_of_mem {data : AddressRangeVector} {r : AddressRange} (h : r ∈ members data) :
    r.valid = true := List.of_mem_filter h

-- No two of the members touch; on members this does not depend on their order.
def Apart (l : List AddressRange) : Prop :=
  l.Pairwise fun r other => r.valid = true → other.valid = true → r.touches other = false

theorem Apart.perm {l m : List AddressRange} (h : Apart l) (hp : l.Perm m) : Apart m := by
  refine (hp.pairwise_iff fun {r other} hrel hv hv' => ?_).mp h
  rw [← Bool.not_eq_true, touches_comm hv hv', Bool.not_eq_true]
  exact hrel hv' hv

theorem Apart.not_touches {l : List AddressRange} (h : Apart l) {r other : AddressRange}
    (hr : r ∈ l) (ho : other ∈ l) (hne : r ≠ other) (hv : r.valid = true)
    (hv' : other.valid = true) : r.touches other = false := by
  obtain ⟨i, hi, rfl⟩ := List.getElem_of_mem hr
  obtain ⟨j, hj, rfl⟩ := List.getElem_of_mem ho
  have hp := List.pairwise_iff_getElem.mp h
  rcases Nat.lt_trichotomy i j with hij | rfl | hij
  · exact hp i j hi hj hij hv hv'
  · exact absurd rfl hne
  · rw [← Bool.not_eq_true, touches_comm hv hv', Bool.not_eq_true]
    exact hp j i hj hi hij hv' hv

theorem checkConsistency_iff (data : AddressRangeVector) :
    checkConsistency data = true ↔ Apart (members data) := by
  induction data with
  | nil => simp [checkConsistency, Apart, members]
  | cons r rest ih =>
      rw [checkConsistency, Bool.and_eq_true, ih]
      by_cases hv : r.valid = true
      · have hcons : Apart (r :: members rest) ↔ (∀ q ∈ members rest, r.valid = true →
            q.valid = true → r.touches q = false) ∧ Apart (members rest) := List.pairwise_cons
        rw [members_cons_of_valid hv, hcons]
        simp only [hv, Bool.not_true, Bool.false_or, List.all_eq_true, Bool.or_eq_true,
          Bool.not_eq_eq_eq_not, members, List.mem_filter]
        refine and_congr_left fun _ => ⟨fun hall q hq _ hqv => ?_, fun hall q hq => ?_⟩
        · rcases hall q hq.1 with h | h
          · rw [hqv] at h
            cases h
          · exact h
        · by_cases hqv : q.valid = true
          · exact Or.inr (hall q ⟨hq, hqv⟩ trivial hqv)
          · exact Or.inl (by simpa using hqv)
      · rw [Bool.not_eq_true] at hv
        rw [members_cons_of_not hv]
        simp [hv]

theorem denote_congr {data : AddressRangeVector} {l : List AddressRange}
    (h : (members data).Perm l) (x : Nat) : x ∈ denote data ↔ ∃ r ∈ l, x ∈ addresses r := by
  simp only [denote, Set.mem_ofPred_eq, h.mem_iff]

section Merge

variable {newRange : AddressRange}

-- The smallest range around a range and the ranges of a list.
structure Hull (newRange : AddressRange) (l : List AddressRange) (hull : AddressRange) : Prop where
  start_le : hull.start ≤ newRange.start
  le_stop : newRange.stop ≤ hull.stop
  within : ∀ r ∈ l, hull.start ≤ r.start ∧ r.stop ≤ hull.stop
  start_eq : hull.start = newRange.start ∨ ∃ r ∈ l, hull.start = r.start
  stop_eq : hull.stop = newRange.stop ∨ ∃ r ∈ l, hull.stop = r.stop

theorem Hull.extend {l : List AddressRange} {hull r : AddressRange} (h : Hull newRange l hull)
    (hv : hull.valid = true) (hr : r.valid = true) :
    Hull newRange (l ++ [r]) (hull.getMinMax r) := by
  obtain ⟨hs, he⟩ := getMinMax_of_valid hv hr
  have hstart := h.start_le
  have hstop := h.le_stop
  refine ⟨by omega, by omega, ?_, ?_, ?_⟩
  · intro q hq
    rcases List.mem_append.mp hq with hq | hq
    · have := h.within q hq
      omega
    · obtain rfl := List.mem_singleton.mp hq
      omega
  · by_cases hmin : hull.start ≤ r.start
    · rw [hs, Nat.min_eq_left hmin]
      rcases h.start_eq with heq | ⟨q, hq, heq⟩
      · exact Or.inl heq
      · exact Or.inr ⟨q, by simp [hq], heq⟩
    · rw [hs, Nat.min_eq_right (by omega)]
      exact Or.inr ⟨r, by simp, rfl⟩
  · by_cases hmax : r.stop ≤ hull.stop
    · rw [he, Nat.max_eq_left hmax]
      rcases h.stop_eq with heq | ⟨q, hq, heq⟩
      · exact Or.inl heq
      · exact Or.inr ⟨q, by simp [hq], heq⟩
    · rw [he, Nat.max_eq_right (by omega)]
      exact Or.inr ⟨r, by simp, rfl⟩

theorem foldl_hull (hv : newRange.valid = true) {l : List AddressRange}
    (hl : ∀ r ∈ l, r.valid = true) : Hull newRange l (l.foldl getMinMax newRange) := by
  induction l using List.reverseRecOn with
  | nil => exact ⟨Nat.le_refl _, Nat.le_refl _, by simp, Or.inl rfl, Or.inl rfl⟩
  | append_singleton l r ih =>
      have hl' : ∀ q ∈ l, q.valid = true := fun q hq => hl q (by simp [hq])
      rw [List.foldl_append]
      exact (ih hl').extend (foldl_getMinMax_valid hv hl') (hl r (by simp))

-- When all that is taken in lies at the new range, nothing else is.
theorem Hull.mem_iff {l : List AddressRange} {hull : AddressRange} (h : Hull newRange l hull)
    (hadj : ∀ r ∈ l, Adjacent r newRange) (x : Nat) :
    x ∈ addresses hull ↔ x ∈ addresses newRange ∨ ∃ r ∈ l, x ∈ addresses r := by
  have hstart := h.start_le
  have hstop := h.le_stop
  simp only [addresses, Set.mem_ofPred_eq]
  constructor
  · rintro ⟨hlo, hhi⟩
    by_cases hleft : x < newRange.start
    · rcases h.start_eq with heq | ⟨r, hr, heq⟩
      · omega
      · have := (hadj r hr).2
        exact Or.inr ⟨r, hr, by omega, by omega⟩
    · by_cases hright : newRange.stop < x
      · rcases h.stop_eq with heq | ⟨r, hr, heq⟩
        · omega
        · have := (hadj r hr).1
          exact Or.inr ⟨r, hr, by omega, by omega⟩
      · exact Or.inl ⟨by omega, by omega⟩
  · rintro (hx | ⟨r, hr, hx⟩)
    · omega
    · have := h.within r hr
      omega

theorem Hull.not_touches {l : List AddressRange} {hull other : AddressRange}
    (h : Hull newRange l hull) (hv : newRange.valid = true) (hhull : hull.valid = true)
    (hl : ∀ r ∈ l, r.valid = true) (hadj : ∀ r ∈ l, Adjacent r newRange)
    (ho : other.valid = true) (hnew : other.touches newRange = false)
    (hapart : ∀ r ∈ l, other.touches r = false) : hull.touches other = false := by
  have hnew' : ¬(Adjacent other newRange ∨ MeetAround other newRange) := by
    rw [← touches_iff ho hv, hnew]
    simp
  have hapart' : ∀ r ∈ l, ¬(Adjacent other r ∨ MeetAround other r) := by
    intro r hr
    rw [← touches_iff ho (hl r hr), hapart r hr]
    simp
  rw [← Bool.not_eq_true, touches_iff hhull ho]
  rw [valid_iff] at hv ho
  have hstart := h.start_le
  have hstop := h.le_stop
  -- the ends of the hull are ends of the new range or of a range it took in
  rcases h.start_eq with hs | ⟨r, hr, hs⟩ <;> rcases h.stop_eq with he | ⟨q, hq, he⟩
  · simp only [Adjacent, MeetAround] at hnew' ⊢
    omega
  · have h₁ := hadj q hq
    have h₂ := hapart' q hq
    simp only [Adjacent, MeetAround] at hnew' h₁ h₂ ⊢
    omega
  · have h₁ := hadj r hr
    have h₂ := hapart' r hr
    simp only [Adjacent, MeetAround] at hnew' h₁ h₂ ⊢
    omega
  · have h₁ := hadj q hq
    have h₂ := hapart' q hq
    have h₃ := hadj r hr
    have h₄ := hapart' r hr
    simp only [Adjacent, MeetAround] at hnew' h₁ h₂ h₃ h₄ ⊢
    omega

end Merge

-- What the calls make of a set of addresses.
def next (addrs : Set Nat) : Call → Unit → Set Nat
  | .merge range, _ => addrs ∪ addresses range
  | .exclude range, _ => addrs \ addresses range

def Meets (data : AddressRangeVector) (addrs : Set Nat) (call : Call) (result : Unit) : Prop :=
  checkConsistency (step data call).1 = true ∧ denote (step data call).1 = next addrs call result

-- The code takes address 0 for the successor of the last address. A merge has no member that the
-- new range meets there only, and an exclusion does not cut the whole address space in two.
def KeepsEndsApart (data : AddressRangeVector) : Call → Prop
  | .merge range => range.valid = true → ∀ r ∈ data, r.valid = true → MeetAround r range →
      Adjacent r range
  | .exclude range => range.valid = true → 0 < range.start → range.stop < 2 ^ 32 - 1 →
      ∀ r ∈ data, ¬(r.start = 0 ∧ r.stop = 2 ^ 32 - 1)

structure Represents (data : AddressRangeVector) (addrs : Set Nat) : Prop where
  apart : Apart (members data)
  denote_eq : denote data = addrs

theorem empty_represents : Represents [] ∅ :=
  ⟨List.Pairwise.nil, by ext x; simp [denote, members]⟩

theorem mem_members_iff {data : AddressRangeVector} {r : AddressRange} :
    r ∈ members data ↔ r ∈ data ∧ r.valid = true := List.mem_filter

variable {data : AddressRangeVector} {addrs : Set Nat}

theorem Represents.mem_iff (h : Represents data addrs) (x : Nat) :
    x ∈ addrs ↔ ∃ r ∈ members data, x ∈ addresses r := by
  rw [← h.denote_eq]
  exact Iff.rfl

theorem Represents.merge (h : Represents data addrs) {range : AddressRange}
    (hv : range.valid = true) (hkeep : KeepsEndsApart data (.merge range)) :
    Represents (data.merge range) (addrs ∪ addresses range) := by
  have hperm := merge_members data hv
  have htouched {r : AddressRange} (hr : r ∈ (members data).filter (touched range)) :
      r ∈ members data ∧ r.valid = true ∧ r.touches range = true := by
    obtain ⟨hmem, ht⟩ := List.mem_filter.mp hr
    simp only [touched, Bool.and_eq_true] at ht
    exact ⟨hmem, ht⟩
  have hvalid : ∀ r ∈ (members data).filter (touched range), r.valid = true :=
    fun r hr => (htouched hr).2.1
  have hadj : ∀ r ∈ (members data).filter (touched range), Adjacent r range := by
    intro r hr
    obtain ⟨hmem, hrv, ht⟩ := htouched hr
    rcases (touches_iff hrv hv).mp ht with hadj | haround
    · exact hadj
    · exact hkeep hv r (mem_members_iff.mp hmem).1 hrv haround
  have hhull := foldl_hull hv hvalid
  have hhullValid := foldl_getMinMax_valid hv hvalid
  constructor
  · apply Apart.perm _ hperm.symm
    refine List.pairwise_cons.mpr ⟨?_, h.apart.filter _⟩
    intro other ho _ hov
    obtain ⟨hmem, hnot⟩ := List.mem_filter.mp ho
    have hnew : other.touches range = false := by simpa [touched, hov] using hnot
    apply hhull.not_touches hv hhullValid hvalid hadj hov hnew
    intro r hr
    obtain ⟨hrmem, hrv, ht⟩ := htouched hr
    apply h.apart.not_touches hmem hrmem _ hov hrv
    rintro rfl
    rw [hnew] at ht
    cases ht
  · ext x
    rw [denote_congr hperm, Set.mem_union, h.mem_iff]
    simp only [List.mem_cons, exists_eq_or_imp, hhull.mem_iff hadj]
    constructor
    · rintro ((hx | ⟨r, hr, hx⟩) | ⟨r, hr, hx⟩)
      · exact Or.inr hx
      · exact Or.inl ⟨r, List.mem_of_mem_filter hr, hx⟩
      · exact Or.inl ⟨r, List.mem_of_mem_filter hr, hx⟩
    · rintro (⟨r, hr, hx⟩ | hx)
      · by_cases ht : touched range r = true
        · exact Or.inl (Or.inr ⟨r, List.mem_filter.mpr ⟨hr, ht⟩, hx⟩)
        · exact Or.inr ⟨r, List.mem_filter.mpr ⟨hr, by simpa using ht⟩, hx⟩
      · exact Or.inl (Or.inl hx)

-- A member met around the end only is joined to the new range across addresses of neither.
theorem Represents.merge_fails (h : Represents data addrs) {range : AddressRange}
    (hv : range.valid = true) (hkeep : ¬KeepsEndsApart data (.merge range)) :
    denote (data.merge range) ≠ addrs ∪ addresses range := by
  simp only [KeepsEndsApart, not_forall] at hkeep
  obtain ⟨-, r, hr, hrv, haround, hnot⟩ := hkeep
  have hmem : r ∈ members data := mem_members_iff.mpr ⟨hr, hrv⟩
  have ht : r.touches range = true := (touches_iff hrv hv).mpr (Or.inr haround)
  have hperm := merge_members data hv
  have htouched : r ∈ (members data).filter (touched range) :=
    List.mem_filter.mpr ⟨hmem, by simp [touched, hrv, ht]⟩
  have hhull := foldl_hull hv (l := (members data).filter (touched range)) (by
    intro q hq
    have hq' := List.of_mem_filter hq
    simp only [touched, Bool.and_eq_true] at hq'
    exact hq'.1)
  have hwithin := hhull.within r htouched
  have hstart := hhull.start_le
  have hstop := hhull.le_stop
  -- an address next to the member is not of the set, as no other member touches it
  have hgap {x : Nat} (hx : x + 1 = r.start ∨ x = r.stop + 1) : x ∉ addrs := by
    rw [h.mem_iff]
    rintro ⟨q, hq, hxq⟩
    have hqv := valid_of_mem hq
    simp only [addresses, Set.mem_ofPred_eq] at hxq
    have hne : q ≠ r := by
      rintro rfl
      omega
    have happ := h.apart.not_touches hq hmem hne hqv hrv
    have hadj : Adjacent q r := by
      rw [valid_iff] at hrv
      simp only [Adjacent]
      omega
    rw [(touches_iff hqv hrv).mpr (Or.inl hadj)] at happ
    cases happ
  intro heq
  have hin {x : Nat} (hx : x ∈ addresses
      (((members data).filter (touched range)).foldl getMinMax range)) :
      x ∈ addrs ∪ addresses range := by
    rw [← heq, denote_congr hperm]
    exact ⟨_, by simp, hx⟩
  have hrstop := r.stop_lt
  have hnewstop := range.stop_lt
  rw [valid_iff] at hrv hv
  simp only [Adjacent] at hnot
  rcases haround with ⟨hend, hzero⟩ | ⟨hzero, hend⟩
  · rcases hin (x := r.start - 1) ⟨by omega, by omega⟩ with hx | hx
    · exact hgap (by omega) hx
    · simp only [addresses, Set.mem_ofPred_eq] at hx
      omega
  · rcases hin (x := r.stop + 1) ⟨by omega, by omega⟩ with hx | hx
    · exact hgap (by omega) hx
    · simp only [addresses, Set.mem_ofPred_eq] at hx
      omega

section Exclude

variable {exclusion : AddressRange}

-- The pieces of a member are its addresses outside the exclusion.
theorem mem_pieces_iff {r : AddressRange} (hr : r.valid = true) (x : Nat) : (∃ q ∈ pieces exclusion r, x ∈ addresses q) ↔
      x ∈ addresses r ∧ x ∉ addresses exclusion := by
  by_cases ho : r.overlaps exclusion = true
  · have hcases {q : AddressRange} := pieces_cases (q := q) hr ho
    rw [valid_iff] at hr
    rw [overlaps_iff] at ho
    have hb := exclusion.start_lt
    have hb' := r.stop_lt
    simp only [addresses, Set.mem_ofPred_eq]
    constructor
    · rintro ⟨q, hq, hx⟩
      have := hcases.mp hq
      omega
    · rintro ⟨hx, hnot⟩
      by_cases hleft : x < exclusion.start
      · exact ⟨⟨r.start, exclusion.start - 1, r.start_lt, by omega⟩,
          hcases.mpr (Or.inl ⟨by omega, rfl, rfl⟩), by show r.start ≤ x; omega,
          by show x ≤ exclusion.start - 1; omega⟩
      · exact ⟨⟨exclusion.stop + 1, r.stop, by omega, r.stop_lt⟩,
          hcases.mpr (Or.inr ⟨by omega, rfl, rfl⟩), by show exclusion.stop + 1 ≤ x; omega,
          by show x ≤ r.stop; omega⟩
  · rw [pieces_of_not_overlaps (by simpa using ho)]
    have hno : ¬(r.start ≤ exclusion.stop ∧ exclusion.start ≤ r.stop) :=
      fun hc => ho ((overlaps_iff _ _).mpr hc)
    simp only [List.mem_singleton, exists_eq_left, addresses, Set.mem_ofPred_eq]
    omega

theorem within_of_mem_pieces {r q : AddressRange} (hr : r.valid = true) (hq : q ∈ pieces exclusion r) :
    r.start ≤ q.start ∧ q.stop ≤ r.stop := by
  by_cases ho : r.overlaps exclusion = true
  · have hcases := (pieces_cases hr ho).mp hq
    rw [overlaps_iff] at ho
    omega
  · rw [pieces_of_not_overlaps (by simpa using ho), List.mem_singleton] at hq
    rw [hq]
    exact ⟨Nat.le_refl _, Nat.le_refl _⟩

-- Pieces of two members that do not touch do not touch either.
theorem pieces_not_touches {r other q t : AddressRange} (hr : r.valid = true)
    (ho : other.valid = true) (hnot : r.touches other = false) (hq : q ∈ pieces exclusion r)
    (ht : t ∈ pieces exclusion other) : q.touches t = false := by
  have hw := within_of_mem_pieces hr hq
  have hw' := within_of_mem_pieces ho ht
  have hstop := r.stop_lt
  have hstop' := other.stop_lt
  have hn : ¬(Adjacent r other ∨ MeetAround r other) := by
    rw [← touches_iff hr ho, hnot]
    simp
  rw [← Bool.not_eq_true,
    touches_iff (pieces_valid exclusion hr q hq) (pieces_valid exclusion ho t ht)]
  simp only [Adjacent, MeetAround] at hn ⊢
  omega

-- The two pieces of one member meet around the end when it is the whole address space.
theorem pieces_touch_iff {r q t : AddressRange} (hr : r.valid = true) (he : exclusion.valid = true)
    (hq : q ∈ pieces exclusion r) (ht : t ∈ pieces exclusion r) (hne : q ≠ t)
    (htouch : q.touches t = true) :
    0 < exclusion.start ∧ exclusion.stop < 2 ^ 32 - 1 ∧ r.start = 0 ∧ r.stop = 2 ^ 32 - 1 := by
  rw [touches_iff (pieces_valid exclusion hr q hq) (pieces_valid exclusion hr t ht)] at htouch
  have hext (a b : AddressRange) (hs : a.start = b.start) (hb : a.stop = b.stop) : a = b := by
    cases a
    cases b
    simp_all
  by_cases ho : r.overlaps exclusion = true
  · have h₁ := (pieces_cases hr ho).mp hq
    have h₂ := (pieces_cases hr ho).mp ht
    have hsame : ¬(q.start = t.start ∧ q.stop = t.stop) := fun hc => hne (hext q t hc.1 hc.2)
    have hstop := r.stop_lt
    rw [valid_iff] at hr he
    rw [overlaps_iff] at ho
    simp only [Adjacent, MeetAround] at htouch
    omega
  · rw [pieces_of_not_overlaps (by simpa using ho), List.mem_singleton] at hq ht
    exact absurd (hq.trans ht.symm) hne

theorem pieces_nodup (r : AddressRange) : (pieces exclusion r).Nodup := by
  have hstop := r.stop_lt
  rw [pieces]
  split
  · simp
  · rename_i ho
    rw [Bool.not_eq_eq_eq_not, Bool.not_true, Bool.not_eq_false, overlaps_iff] at ho
    split
    · simp
    · split
      · simp
      · rename_i hhead
        split
        · simp
        · rename_i htail
          rw [overlapsAddress_iff] at hhead htail
          have hnext := nextAddress_of_lt (show exclusion.stop < r.stop by omega) hstop
          have hne : r.withStop exclusion.prevAddress ≠ r.withStart exclusion.nextAddress := by
            intro heq
            have hs := congrArg AddressRange.start heq
            rw [withStop_start, withStart_start, hnext, Nat.mod_eq_of_lt (by omega)] at hs
            omega
          exact List.nodup_cons.mpr
            ⟨fun hc => hne (List.mem_singleton.mp hc), List.nodup_singleton _⟩

theorem Represents.exclude (h : Represents data addrs) (he : exclusion.valid = true)
    (hkeep : KeepsEndsApart data (.exclude exclusion)) :
    Represents (data.exclude exclusion) (addrs \ addresses exclusion) := by
  have hperm := exclude_members data he
  constructor
  · apply Apart.perm _ hperm.symm
    rw [Apart, List.pairwise_flatMap]
    constructor
    · intro r hr
      have hrv := valid_of_mem hr
      apply List.Nodup.pairwise_of_forall_ne (pieces_nodup r)
      intro q hq t ht hne _ _
      rw [← Bool.not_eq_true]
      intro htouch
      obtain ⟨hlo, hhi, hzero, hend⟩ := pieces_touch_iff hrv he hq ht hne htouch
      exact hkeep he hlo hhi r (mem_members_iff.mp hr).1 ⟨hzero, hend⟩
    · refine h.apart.imp_of_mem fun {r other} hr ho hnot q hq t ht _ _ => ?_
      exact pieces_not_touches (valid_of_mem hr) (valid_of_mem ho)
        (hnot (valid_of_mem hr) (valid_of_mem ho)) hq ht
  · ext x
    rw [denote_congr hperm, Set.mem_sdiff, h.mem_iff]
    simp only [List.mem_flatMap]
    constructor
    · rintro ⟨q, ⟨r, hr, hq⟩, hx⟩
      obtain ⟨hxr, hnot⟩ := (mem_pieces_iff (valid_of_mem hr) x).mp ⟨q, hq, hx⟩
      exact ⟨⟨r, hr, hxr⟩, hnot⟩
    · rintro ⟨⟨r, hr, hxr⟩, hnot⟩
      obtain ⟨q, hq, hx⟩ := (mem_pieces_iff (valid_of_mem hr) x).mpr ⟨hxr, hnot⟩
      exact ⟨q, ⟨r, hr, hq⟩, hx⟩

-- The two parts of the whole address space meet around its end.
theorem exclude_fails (he : exclusion.valid = true)
    (hkeep : ¬KeepsEndsApart data (.exclude exclusion)) :
    checkConsistency (data.exclude exclusion) ≠ true := by
  simp only [KeepsEndsApart, not_forall, not_not] at hkeep
  obtain ⟨-, hlo, hhi, r, hr, hzero, hend⟩ := hkeep
  have hrv : r.valid = true := by
    rw [valid_iff]
    omega
  have hex := he
  rw [valid_iff] at hex
  have ho : r.overlaps exclusion = true := by
    rw [overlaps_iff]
    omega
  have hperm := exclude_members data he
  have hmem {q : AddressRange} (hq : q ∈ pieces exclusion r) :
      q ∈ (members data).flatMap (pieces exclusion) :=
    List.mem_flatMap.mpr ⟨r, mem_members_iff.mpr ⟨hr, hrv⟩, hq⟩
  have hhead : (⟨0, exclusion.start - 1, by omega, by omega⟩ : AddressRange) ∈ pieces exclusion r :=
    (pieces_cases hrv ho).mpr (Or.inl ⟨by omega, hzero.symm, rfl⟩)
  have htail : (⟨exclusion.stop + 1, 2 ^ 32 - 1, by omega, by omega⟩ : AddressRange) ∈
      pieces exclusion r := (pieces_cases hrv ho).mpr (Or.inr ⟨by omega, rfl, hend.symm⟩)
  intro hcheck
  have hapart := ((checkConsistency_iff _).mp hcheck).perm hperm
  have hnot := hapart.not_touches (hmem hhead) (hmem htail)
    (fun heq => by have := congrArg AddressRange.start heq; simp at this)
    (pieces_valid exclusion hrv _ hhead) (pieces_valid exclusion hrv _ htail)
  have htouch := (touches_iff (pieces_valid exclusion hrv _ hhead)
    (pieces_valid exclusion hrv _ htail)).mpr (Or.inr (Or.inr ⟨rfl, rfl⟩))
  rw [hnot] at htouch
  cases htouch

end Exclude

theorem Represents.step (h : Represents data addrs) (call : Call) :
    (KeepsEndsApart data call ↔ Meets data addrs call (AddressRangeVector.step data call).2) ∧
      (KeepsEndsApart data call → Represents (AddressRangeVector.step data call).1
        (next addrs call (AddressRangeVector.step data call).2)) := by
  have hmeets {call : Call} (hrep : Represents (AddressRangeVector.step data call).1
      (next addrs call (AddressRangeVector.step data call).2)) :
      Meets data addrs call (AddressRangeVector.step data call).2 :=
    ⟨(checkConsistency_iff _).mpr hrep.apart, hrep.denote_eq⟩
  cases call with
  | merge range =>
      by_cases hv : range.valid = true
      · refine ⟨⟨fun hk => hmeets (h.merge hv hk), fun hm => ?_⟩, h.merge hv⟩
        by_contra hk
        exact h.merge_fails hv hk hm.2
      · have hsame : data.merge range = data := if_pos (by simpa using hv)
        have hrep : Represents (AddressRangeVector.step data (.merge range)).1
            (next addrs (.merge range) ()) := by
          show Represents (data.merge range) (addrs ∪ addresses range)
          rw [hsame, addresses_of_not_valid (by simpa using hv), Set.union_empty]
          exact h
        exact ⟨iff_of_true (fun hc => absurd hc hv) (hmeets hrep), fun _ => hrep⟩
  | exclude range =>
      by_cases hv : range.valid = true
      · refine ⟨⟨fun hk => hmeets (h.exclude hv hk), fun hm => ?_⟩, h.exclude hv⟩
        by_contra hk
        exact exclude_fails hv hk hm.1
      · have hsame : data.exclude range = data := if_pos (by simpa using hv)
        have hrep : Represents (AddressRangeVector.step data (.exclude range)).1
            (next addrs (.exclude range) ()) := by
          show Represents (data.exclude range) (addrs \ addresses range)
          rw [hsame, addresses_of_not_valid (by simpa using hv), Set.sdiff_empty]
          exact h
        exact ⟨iff_of_true (fun hc => absurd hc hv) (hmeets hrep), fun _ => hrep⟩

-- Along every run the vector is consistent and holds the set of addresses exactly when no call of
-- the run brings the two ends of the address space together.
theorem refines_address_set_iff (calls : List Call) :
    Along AddressRangeVector.step next (fun data _ call _ => KeepsEndsApart data call) [] ∅ calls ↔
      Along AddressRangeVector.step next Meets [] ∅ calls :=
  along_iff_of_invariant Represents (fun _ _ call h => h.step call) empty_represents calls

-- The last page and the first one become the whole address space.
theorem merge_joins_last_and_first_page :
    ¬Along AddressRangeVector.step next Meets [] ∅
      [.merge ⟨0xFFFFF000, 0xFFFFFFFF, by omega, by omega⟩,
        .merge ⟨0, 0xFFF, by omega, by omega⟩] := by
  have hjoined : merge (merge [] ⟨0xFFFFF000, 0xFFFFFFFF, by omega, by omega⟩)
      ⟨0, 0xFFF, by omega, by omega⟩ = [⟨0, 0xFFFFFFFF, by omega, by omega⟩] := by decide
  rintro ⟨-, ⟨-, hset⟩, -⟩
  have hin : 0x1000 ∈ denote (merge (merge [] ⟨0xFFFFF000, 0xFFFFFFFF, by omega, by omega⟩)
      ⟨0, 0xFFF, by omega, by omega⟩) := by
    rw [hjoined]
    exact ⟨_, List.mem_singleton.mpr rfl, by decide, by decide⟩
  have hunion : denote (merge (merge [] ⟨0xFFFFF000, 0xFFFFFFFF, by omega, by omega⟩)
      ⟨0, 0xFFF, by omega, by omega⟩) = _ := hset
  rw [hunion] at hin
  simp [next, addresses] at hin

end Rpcsx.AddressRangeVector
