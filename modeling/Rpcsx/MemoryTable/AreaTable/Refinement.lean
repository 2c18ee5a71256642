import Rpcsx.MemoryTable.AreaTable.Theorems
import Rpcsx.Data.Runs

namespace Rpcsx.MemoryTable.AreaTable

open Rpcsx.Data Rpcsx.Data.StepFunction Rpcsx.Data.Runs

variable {t : AreaTable}

-- The addresses inside the areas of a table.
def mapped (t : AreaTable) : Set Nat := {x | valueAt .X t.mAreas.entries x = .O}

theorem overwrite_alternates (kind : Kind) {lo hi : Nat} (hw : WellFormed t) (hlt : lo < hi) :
    Alternates .X (overwrite kind lo hi t.mAreas.entries) ∧
      lastFrom .X (overwrite kind lo hi t.mAreas.entries) = .X := by
  obtain ⟨hbelow, -, -, habove, hlast⟩ := hw.cut hlt
  unfold overwrite
  simp only [alternates_append, lastFrom_append]
  generalize valueAt .X t.mAreas.entries hi = last at *
  have hlo : lastFrom (lastFrom .X (t.mAreas.entries.filter (·.1 < lo)))
      (if lastFrom .X (t.mAreas.entries.filter (·.1 < lo)) = kind then []
        else [(lo, kind)]) = kind := by
    split
    · assumption
    · rfl
  have hhi : lastFrom kind (if last = kind then [] else [(hi, last)]) = last := by
    split
    · simp_all
    · rfl
  rw [hlo, hhi]
  refine ⟨⟨⟨⟨hbelow, ?_⟩, ?_⟩, habove⟩, hlast⟩
  · split
    · trivial
    · exact ⟨Ne.symm ‹_›, trivial⟩
  · split
    · trivial
    · exact ⟨‹_›, trivial⟩

-- The first point is the lowest mapped address.
theorem begin_eq_some_iff (hw : WellFormed t) (a : Nat) :
    t.mAreas.begin = some a ↔ IsLeast (mapped t) a := by
  obtain ⟨halt, hlast⟩ := hw
  have hs := t.mAreas.sorted
  unfold OrderedMap.begin IsLeast mapped lowerBounds
  cases he : t.mAreas.entries with
  | nil => simp [valueAt]
  | cons p rest =>
      obtain ⟨first, kind⟩ := p
      rw [he] at halt hs
      have hkind := eq_O_of_ne halt.1.symm
      subst hkind
      have hgt := (List.pairwise_cons.mp hs).1
      have hfirst : valueAt .X ((first, .O) :: rest) first = .O := by
        have hr : rest.filter (·.1 ≤ first) = [] := by
          rw [List.filter_eq_nil_iff]
          intro q hq
          simpa using hgt q hq
        simp [valueAt, hr]
      have hbelow : ∀ x, valueAt .X ((first, .O) :: rest) x = .O → first ≤ x := by
        intro x hx
        by_contra hlt
        have hr : ((first, Kind.O) :: rest).filter (·.1 ≤ x) = [] := by
          rw [List.filter_eq_nil_iff]
          intro q hq
          rcases List.mem_cons.mp hq with rfl | hq
          · simpa using hlt
          · have := hgt q hq
            simp only [decide_eq_true_eq]
            simp only at this
            omega
        simp [valueAt, hr] at hx
      simp only [List.head?_cons, Option.map_some, Option.some.injEq, Set.mem_ofPred_eq]
      constructor
      · rintro rfl
        exact ⟨hfirst, hbelow⟩
      · rintro ⟨ha, hmin⟩
        exact le_antisymm (hbelow a ha) (hmin hfirst)

-- The set of a table as a partial function with a single value.
def indicator (t : AreaTable) (x : Nat) : Option Unit :=
  if valueAt .X t.mAreas.entries x = .O then some () else none

-- The areas partition the mapped addresses, with a gap between any two of them.
theorem areasFrom_spec (points : List (Nat × Kind))
    (hs : points.Pairwise fun p q => p.1 < q.1) (halt : Alternates .X points)
    (hlast : lastFrom .X points = .X) :
    ∃ list, areasFrom points = .ok list ∧
      list.Pairwise (fun a b => a.endAddress < b.beginAddress) ∧
      (∀ a ∈ list, a.beginAddress < a.endAddress) ∧
      (∀ a ∈ list, ∃ kind, (a.beginAddress, kind) ∈ points) ∧
      ∀ x, valueAt .X points x = .O ↔ ∃ a ∈ list, a.beginAddress ≤ x ∧ x < a.endAddress := by
  induction points using areasFrom.induct with
  | case1 => exact ⟨[], rfl, by simp, by simp, by simp, by simp [valueAt]⟩
  | case2 p => simp_all [Alternates]
  | case3 first kind last kind' rest ih =>
      obtain ⟨hf, hs₁⟩ := List.pairwise_cons.mp hs
      obtain ⟨hl, hs₂⟩ := List.pairwise_cons.mp hs₁
      have hO := eq_O_of_ne halt.1.symm
      subst hO
      have hX := eq_X_of_ne halt.2.1.symm
      subst hX
      obtain ⟨list, hok, hpair, hpos, hmem, hcov⟩ := ih hs₂ halt.2.2 (by simpa using hlast)
      have hlt : first < last := hf (last, .X) (by simp)
      have hgap : ∀ a ∈ list, last < a.beginAddress := by
        intro a ha
        obtain ⟨kind, hk⟩ := hmem a ha
        exact hl _ hk
      refine ⟨⟨first, last⟩ :: list, by simp [areasFrom, hok, bind, Except.bind, pure, Except.pure],
        List.pairwise_cons.mpr ⟨hgap, hpair⟩, ?_, ?_, ?_⟩
      · simpa [hlt] using hpos
      · intro a ha
        rcases List.mem_cons.mp ha with rfl | ha
        · exact ⟨.O, by simp⟩
        · obtain ⟨kind, hk⟩ := hmem a ha
          exact ⟨kind, by simp [hk]⟩
      · intro x
        have hrest (hx : x < last) : rest.filter (·.1 ≤ x) = [] := by
          rw [List.filter_eq_nil_iff]
          intro q hq
          have := hl q hq
          simp only [decide_eq_true_eq]
          simp only at this
          omega
        have hnone (hx : x < last) : ¬∃ a ∈ list, a.beginAddress ≤ x ∧ x < a.endAddress := by
          rintro ⟨a, ha, hax, -⟩
          have := hgap a ha
          omega
        rcases Nat.lt_or_ge x last with hx | hx
        · by_cases hxf : first ≤ x
          · simp [valueAt, hrest hx, hxf, Nat.not_le.mpr hx, hx]
          · simp [valueAt, hrest hx, hxf, Nat.not_le.mpr hx, hnone hx]
        · have hc := hcov x
          simp only [valueAt, List.filter_cons, hx, hlt.le.trans hx, decide_true, if_true,
            lastFrom_cons] at hc ⊢
          rw [hc]
          simp [Nat.not_lt.mpr hx]

theorem areas_partition (hw : WellFormed t) :
    ∃ list, t.areas = .ok list ∧
      list.Pairwise (fun a b => a.endAddress < b.beginAddress) ∧
      Partition AreaInfo.beginAddress AreaInfo.endAddress (fun _ => ()) (indicator t) list := by
  obtain ⟨list, hok, hpair, hpos, -, hcov⟩ :=
    areasFrom_spec t.mAreas.entries t.mAreas.sorted hw.1 hw.2
  refine ⟨list, hok, hpair, ⟨hpair.imp Nat.le_of_lt, hpos, ?_⟩⟩
  intro x v
  simp [indicator, hcov x]

theorem totalMemoryFrom_eq (points : List (Nat × Kind)) (list : List AreaInfo)
    (h : areasFrom points = .ok list) (result : Nat) (hr : result < 2 ^ 64) :
    totalMemoryFrom result points =
      .ok ((result + (list.map fun a => a.endAddress - a.beginAddress).sum) % 2 ^ 64) := by
  induction points using areasFrom.induct generalizing list result with
  | case1 =>
      obtain rfl : list = [] := by simpa [areasFrom] using h.symm
      simpa [totalMemoryFrom] using (Nat.mod_eq_of_lt hr).symm
  | case2 p => simp [areasFrom] at h
  | case3 first kind last kind' rest ih =>
      cases ht : areasFrom rest with
      | error fault => simp [areasFrom, ht, bind, Except.bind] at h
      | ok tail =>
          have hl : list = ⟨first, last⟩ :: tail := by
            simpa [areasFrom, ht, bind, Except.bind, pure, Except.pure] using h.symm
          subst hl
          rw [totalMemoryFrom, ih tail ht _ (Nat.mod_lt _ (Nat.two_pow_pos 64))]
          simp only [List.map_cons, List.sum_cons, Nat.mod_add_mod, Nat.add_assoc]

theorem totalMemory_eq (hw : WellFormed t) (hbound : ∀ p ∈ t.mAreas.entries, p.1 < 2 ^ 64) :
    t.totalMemory = .ok (mapped t).ncard := by
  obtain ⟨list, hok, hpair, hp⟩ := areas_partition hw
  have hmapped : mapped t = {x | ∃ a ∈ list, a.beginAddress ≤ x ∧ x < a.endAddress} := by
    ext x
    simpa [mapped, indicator] using hp.covers x ()
  have hcard := (ncard_stretches hp.ordered).1
  -- the mapped addresses lie below the last point, so the sum does not wrap around
  have hlt : (mapped t).ncard < 2 ^ 64 := by
    have hsub : mapped t ⊆ Set.Iio (2 ^ 64 - 1) := by
      intro x hx
      by_contra hge
      have hle : t.mAreas.entries.filter (·.1 ≤ x) = t.mAreas.entries := by
        rw [List.filter_eq_self]
        intro q hq
        have := hbound q hq
        simp only [Set.mem_Iio] at hge
        simp only [decide_eq_true_eq]
        omega
      simp only [mapped, valueAt, Set.mem_ofPred_eq, hle, hw.2, reduceCtorEq] at hx
    have hle := Set.ncard_le_ncard hsub (Set.finite_Iio _)
    rw [← Finset.coe_Iio, Set.ncard_coe_finset, Nat.card_Iio] at hle
    omega
  rw [hmapped, hcard] at hlt ⊢
  rw [totalMemory, totalMemoryFrom_eq _ list hok 0 (Nat.two_pow_pos 64), Nat.zero_add,
    Nat.mod_eq_of_lt hlt]

-- The stretch between an open point and the next point is a maximal run.
theorem maximal_of_adjacent (hw : WellFormed t) {before after : List (Nat × Kind)} {first last : Nat}
    {kind : Kind} (h : t.mAreas.entries = before ++ (first, .O) :: (last, kind) :: after) :
    IsMaximalRun (indicator t) () first last := by
  have h' : t.mAreas.entries = (before ++ [(first, .O)]) ++ (last, kind) :: after := by simp [h]
  have hbefore := OrderedMap.lt_of_before h
  have hafter := OrderedMap.lt_of_after h'
  have hlt : first < last := OrderedMap.lt_of_after h (last, kind) (by simp)
  have halt := hw.1
  rw [h, alternates_append] at halt
  have hkind := eq_X_of_ne halt.2.2.1.symm
  have hstart : lastFrom .X before = .X := eq_X_of_ne halt.2.1
  subst hkind
  refine ⟨hlt, ?_, ?_, ?_⟩
  · intro x hx hx'
    have hv : valueAt .X t.mAreas.entries x = .O := by
      rw [h', valueAt_gap]
      · simp
      · intro q hq
        rcases List.mem_append.mp hq with hq | hq
        · exact (hbefore q hq).le.trans hx
        · simpa [List.mem_singleton.mp hq] using hx
      · intro q hq
        rcases List.mem_cons.mp hq with rfl | hq
        · exact hx'
        · exact hx'.trans (hafter q hq)
    simp [indicator, hv]
  · have hv : valueAt .X t.mAreas.entries last = .X := by
      rw [h', List.append_cons, valueAt_gap]
      · simp
      · intro q hq
        rcases List.mem_append.mp hq with hq | hq
        · exact (OrderedMap.lt_of_before h' q hq).le
        · simp [List.mem_singleton.mp hq]
      · exact hafter
    simp [indicator, hv]
  · rintro x rfl
    have hv : valueAt .X t.mAreas.entries x = .X := by
      rw [h, valueAt_gap, hstart]
      · intro q hq
        have := hbefore q hq
        omega
      · intro q hq
        rcases List.mem_cons.mp hq with rfl | hq
        · simp
        · have := OrderedMap.lt_of_after h q hq
          omega
    simp [indicator, hv]

theorem queryArea_spec (hw : WellFormed t) {address : Nat} (ha : address ∈ mapped t) :
    ∃ info, t.queryArea address = .ok info ∧ info.beginAddress ≤ address ∧
      address < info.endAddress ∧
      IsMaximalRun (indicator t) () info.beginAddress info.endAddress := by
  have hsplit := t.mAreas.entries_split address
  have hbelow : ∀ p ∈ t.mAreas.entries.filter (·.1 < address), p.1 < address := fun p hp => by
    simpa using (List.mem_filter.mp hp).2
  have habove : ∀ p ∈ t.mAreas.entries.filter (address < ·.1), address < p.1 := fun p hp => by
    simpa using (List.mem_filter.mp hp).2
  have hO : valueAt .X t.mAreas.entries address = .O := ha
  obtain ⟨halt, hlast⟩ := hw
  have hw' : WellFormed t := ⟨halt, hlast⟩
  generalize t.mAreas.entries.filter (·.1 < address) = below at *
  generalize t.mAreas.entries.filter (address < ·.1) = above at *
  -- the point above the address ends its area
  have hnext (hl : lastFrom .X (below ++ (t.mAreas.find? address).toList.map (address, ·)) = .O) :
      ∃ last rest, above = (last, .X) :: rest := by
    rw [hsplit, alternates_append] at halt
    rw [hsplit, lastFrom_append] at hlast
    rw [hl] at halt hlast
    cases above with
    | nil => simp at hlast
    | cons p rest =>
        obtain ⟨last, kind⟩ := p
        have hX := eq_X_of_ne halt.2.1.symm
        exact ⟨last, rest, by rw [hX]⟩
  cases hf : t.mAreas.find? address with
  | some kind =>
      simp only [hf, Option.toList_some, List.map_cons, List.map_nil] at hsplit hnext
      have hkind : kind = .O := by
        rw [hsplit, valueAt_gap] at hO
        · simpa using hO
        · intro p hp
          rcases List.mem_append.mp hp with hp | hp
          · exact (hbelow p hp).le
          · simp [List.mem_singleton.mp hp]
        · exact habove
      subst hkind
      obtain ⟨last, rest, rfl⟩ := hnext (by simp)
      have hat : t.mAreas.entries = below ++ (address, .O) :: (last, .X) :: rest := by
        simpa using hsplit
      have hat' : t.mAreas.entries = (below ++ [(address, .O)]) ++ (last, .X) :: rest := hsplit
      have hb := OrderedMap.lowerBound_at hat hbelow le_rfl
      refine ⟨⟨address, last⟩, ?_, le_rfl, habove (last, .X) (by simp),
        maximal_of_adjacent hw' hat⟩
      simp [queryArea, hb, deref_at hat, stdNext_at hat, deref_at hat', check, bind, Except.bind,
        pure, Except.pure]
  | none =>
      simp only [hf, Option.toList_none, List.map_nil, List.append_nil] at hsplit hnext
      have hl : lastFrom .X below = .O := by
        rwa [hsplit, valueAt_gap (fun p hp => (hbelow p hp).le) habove] at hO
      obtain ⟨last, rest, rfl⟩ := hnext hl
      rcases List.eq_nil_or_concat' below with rfl | ⟨init, ⟨first, kind⟩, rfl⟩
      · simp at hl
      · have hkind : kind = .O := by simpa using hl
        subst hkind
        have hat : t.mAreas.entries = init ++ (first, .O) :: (last, .X) :: rest := by
          simpa using hsplit
        have hlt : address < last := habove (last, .X) (by simp)
        have hb := OrderedMap.lowerBound_at hsplit hbelow hlt.le
        refine ⟨⟨first, last⟩, ?_, (hbelow (first, .O) (by simp)).le, hlt,
          maximal_of_adjacent hw' hat⟩
        simp [queryArea, hb, deref_at hsplit, stdPrev_at hat, hlt.ne', check, bind, Except.bind,
          pure, Except.pure]

-- The calls that change a table.
inductive Request where
  | map (beginAddress endAddress : Nat)
  | unmap (beginAddress endAddress : Nat)
  deriving DecidableEq, Repr

namespace Request

def perform (t : AreaTable) : Request → Except Fault AreaTable
  | map beginAddress endAddress => t.map beginAddress endAddress
  | unmap beginAddress endAddress => t.unmap beginAddress endAddress

-- A nonempty range of 64-bit addresses.
def Valid : Request → Prop
  | map beginAddress endAddress => beginAddress < endAddress ∧ endAddress < 2 ^ 64
  | unmap beginAddress endAddress => beginAddress < endAddress ∧ endAddress < 2 ^ 64

def denote (s : Set Nat) : Request → Set Nat
  | map beginAddress endAddress => s ∪ Set.Ico beginAddress endAddress
  | unmap beginAddress endAddress => s \ Set.Ico beginAddress endAddress

-- Whether the lowest address of a set stays in it.
def KeepsLowest (s : Set Nat) : Request → Prop
  | map _ _ => True
  | unmap beginAddress endAddress =>
      ∀ a, IsLeast s a → ¬(beginAddress ≤ a ∧ a < endAddress)

end Request

def performAll (t : AreaTable) (requests : List Request) : Except Fault AreaTable :=
  requests.foldlM Request.perform t

def denoteAll (s : Set Nat) (requests : List Request) : Set Nat :=
  requests.foldl Request.denote s

-- No call of a run unmaps the lowest address that is mapped when it is made.
def KeepLowest (s : Set Nat) : List Request → Prop
  | [] => True
  | r :: rest => r.KeepsLowest s ∧ KeepLowest (r.denote s) rest

def IsMaximalInterval (s : Set Nat) (a b : Nat) : Prop :=
  a < b ∧ Set.Ico a b ⊆ s ∧ b ∉ s ∧ ∀ x, x + 1 = a → x ∉ s

-- A table as an implementation of a set of addresses, with the answers of its queries.
structure Refines (t : AreaTable) (s : Set Nat) : Prop where
  wellFormed : WellFormed t
  mapped_eq : mapped t = s
  iteration : ∃ list, t.areas = .ok list ∧
    list.Pairwise (fun a b => a.endAddress < b.beginAddress) ∧
    ∀ info, info ∈ list ↔ IsMaximalInterval s info.beginAddress info.endAddress
  totalMemory : s.Finite ∧ t.totalMemory = .ok s.ncard
  queryArea : ∀ a ∈ s, ∃ info, t.queryArea a = .ok info ∧
    a ∈ Set.Ico info.beginAddress info.endAddress ∧
    IsMaximalInterval s info.beginAddress info.endAddress

theorem indicator_eq_some_iff (x : Nat) : indicator t x = some () ↔ x ∈ mapped t := by
  simp [indicator, mapped]

theorem isMaximalRun_iff (a b : Nat) :
    IsMaximalRun (indicator t) () a b ↔ IsMaximalInterval (mapped t) a b := by
  simp only [IsMaximalRun, IsMaximalInterval, ne_eq, indicator_eq_some_iff]
  constructor
  · rintro ⟨hab, hin, hb, ha⟩
    exact ⟨hab, fun x hx => hin x hx.1 hx.2, hb, ha⟩
  · rintro ⟨hab, hin, hb, ha⟩
    exact ⟨hab, fun x hx hx' => hin ⟨hx, hx'⟩, hb, ha⟩

-- What every call keeps: the points alternate and are 64-bit addresses.
structure Represents (t : AreaTable) (s : Set Nat) : Prop where
  wellFormed : WellFormed t
  bounded : ∀ p ∈ t.mAreas.entries, p.1 < 2 ^ 64
  mapped_eq : mapped t = s

theorem Represents.refines {s : Set Nat} (h : Represents t s) : Refines t s := by
  obtain ⟨hw, hbound, rfl⟩ := h
  obtain ⟨list, hok, hpair, hp⟩ := areas_partition hw
  have hset : mapped t = {x | ∃ a ∈ list, a.beginAddress ≤ x ∧ x < a.endAddress} := by
    ext x
    simpa [indicator_eq_some_iff] using hp.covers x ()
  refine ⟨hw, rfl, ⟨list, hok, hpair, ?_⟩, ⟨?_, totalMemory_eq hw hbound⟩, ?_⟩
  · intro info
    have hsep := hpair.imp (S := fun a b => a.endAddress = b.beginAddress → () ≠ ())
      (fun hlt heq => absurd heq hlt.ne)
    rw [← isMaximalRun_iff, hp.maximal_iff hsep]
    constructor
    · intro hi
      exact ⟨info, hi, rfl, rfl, rfl⟩
    · rintro ⟨⟨lo, hi⟩, hmem, rfl, rfl, -⟩
      exact hmem
  · rw [hset]
    exact (ncard_stretches hp.ordered).2
  · intro a ha
    obtain ⟨info, hq, hlo, hhi, hmax⟩ := queryArea_spec hw ha
    exact ⟨info, hq, ⟨hlo, hhi⟩, (isMaximalRun_iff _ _).mp hmax⟩

theorem represents_overwrite {s : Set Nat} {t' : AreaTable} (kind : Kind) {lo hi : Nat}
    (h : Represents t s) (hlt : lo < hi) (hhi : hi < 2 ^ 64)
    (he : t'.mAreas.entries = overwrite kind lo hi t.mAreas.entries) :
    Represents t' {x | if lo ≤ x ∧ x < hi then kind = .O else x ∈ s} := by
  obtain ⟨hw, hbound, rfl⟩ := h
  refine ⟨?_, ?_, ?_⟩
  · rw [WellFormed, he]
    exact overwrite_alternates kind hw hlt
  · intro p hp
    rw [he] at hp
    simp only [overwrite, List.mem_append, List.mem_filter] at hp
    rcases hp with ((hp | hp) | hp) | hp
    · exact hbound p hp.1
    · split at hp
      · simp at hp
      · obtain rfl := List.mem_singleton.mp hp
        exact hlt.trans hhi
    · split at hp
      · simp at hp
      · obtain rfl := List.mem_singleton.mp hp
        exact hhi
    · exact hbound p hp.1
  · ext x
    simp only [mapped, he, valueAt_overwrite kind hlt, Set.mem_ofPred_eq]
    split <;> simp

-- One call either performs its operation on the set or takes `std::prev` of the first point.
theorem Request.perform_spec {s : Set Nat} (h : Represents t s) (r : Request) (hr : r.Valid) :
    (r.KeepsLowest s → ∃ t', r.perform t = .ok t' ∧ Represents t' (r.denote s)) ∧
      (¬r.KeepsLowest s → r.perform t = .error .prevOfFirst) := by
  cases r with
  | map lo hi =>
      obtain ⟨t', hok, he⟩ := map_entries h.wellFormed hr.1
      have hrep := represents_overwrite .O h hr.1 hr.2 he
      refine ⟨fun _ => ⟨t', hok, ?_⟩, fun hk => absurd trivial hk⟩
      convert hrep using 1
      ext x
      by_cases hx : lo ≤ x ∧ x < hi
      · simp [denote, hx]
      · simp only [denote, hx, Set.mem_union, Set.mem_Ico, Set.mem_ofPred_eq, if_false, or_false]
  | unmap lo hi =>
      have hbegin := begin_eq_some_iff h.wellFormed
      rw [h.mapped_eq] at hbegin
      constructor
      · intro hk
        obtain ⟨t', hok, he⟩ := unmap_entries h.wellFormed hr.1
          (fun first hf => hk first ((hbegin first).mp hf))
        have hrep := represents_overwrite .X h hr.1 hr.2 he
        refine ⟨t', hok, ?_⟩
        convert hrep using 1
        ext x
        by_cases hx : lo ≤ x ∧ x < hi
        · simp [denote, hx]
        · simp only [denote, hx, Set.mem_sdiff, Set.mem_Ico, Set.mem_ofPred_eq, if_false,
            not_false_eq_true, and_true]
      · intro hk
        simp only [KeepsLowest, not_forall, not_not] at hk
        obtain ⟨a, ha, hlo, hhi⟩ := hk
        exact unmap_fault h.wellFormed ((hbegin a).mpr ha) hlo hhi

-- A run of calls performs the operations on the set, call by call.
theorem performAll_represents {s : Set Nat} (h : Represents t s) (requests : List Request)
    (hv : ∀ r ∈ requests, r.Valid) (hk : KeepLowest s requests) :
    ∃ t', performAll t requests = .ok t' ∧ Represents t' (denoteAll s requests) := by
  induction requests generalizing t s with
  | nil => exact ⟨t, rfl, h⟩
  | cons r rest ih =>
      obtain ⟨t₁, hok, h₁⟩ := (r.perform_spec h (hv r (by simp))).1 hk.1
      obtain ⟨t', hall, h'⟩ := ih h₁ (fun q hq => hv q (by simp [hq])) hk.2
      refine ⟨t', ?_, h'⟩
      simpa [performAll, List.foldlM_cons, hok, bind, Except.bind] using hall

theorem keepLowest_of_performAll {s : Set Nat} (h : Represents t s) (requests : List Request)
    (hv : ∀ r ∈ requests, r.Valid) {t' : AreaTable} (hok : performAll t requests = .ok t') :
    KeepLowest s requests := by
  induction requests generalizing t s with
  | nil => trivial
  | cons r rest ih =>
      have hstep := r.perform_spec h (hv r (by simp))
      by_cases hk : r.KeepsLowest s
      · obtain ⟨t₁, hok₁, h₁⟩ := hstep.1 hk
        refine ⟨hk, ih h₁ (fun q hq => hv q (by simp [hq])) ?_⟩
        simpa [performAll, List.foldlM_cons, hok₁, bind, Except.bind] using hok
      · simp [performAll, List.foldlM_cons, hstep.2 hk, bind, Except.bind] at hok

theorem keepLowest_append_left {s : Set Nat} {pre rest : List Request}
    (hk : KeepLowest s (pre ++ rest)) : KeepLowest s pre := by
  induction pre generalizing s with
  | nil => trivial
  | cons r pre ih => exact ⟨hk.1, ih hk.2⟩

theorem empty_represents : Represents empty ∅ :=
  ⟨⟨trivial, rfl⟩, by simp [empty, OrderedMap.empty],
    by ext x; simp [mapped, empty, OrderedMap.empty, valueAt]⟩

-- After every prefix of a run the table answers as the set does, exactly when no call of the
-- run unmaps the lowest mapped address.
theorem refines_set_iff (requests : List Request) (hv : ∀ r ∈ requests, r.Valid) :
    KeepLowest ∅ requests ↔
      ∀ pre, pre <+: requests →
        ∃ t, performAll empty pre = .ok t ∧ Refines t (denoteAll ∅ pre) := by
  constructor
  · rintro hk pre ⟨rest, rfl⟩
    obtain ⟨t, hok, h⟩ := performAll_represents empty_represents pre
      (fun r hr => hv r (by simp [hr])) (keepLowest_append_left hk)
    exact ⟨t, hok, h.refines⟩
  · intro hall
    obtain ⟨t, hok, -⟩ := hall requests (List.prefix_refl _)
    exact keepLowest_of_performAll empty_represents requests hv hok

theorem refines_set_iff_holds_at_two_maps :
    ∃ t, performAll empty [.map 10 20, .map 15 30] = .ok t ∧
      Refines t (denoteAll ∅ [.map 10 20, .map 15 30]) :=
  (refines_set_iff [.map 10 20, .map 15 30] (by simp [Request.Valid])).mp
    (by simp [KeepLowest, Request.KeepsLowest]) _ (List.prefix_refl _)

-- Unmapping across the start of the only area looks at the point before the first one.
theorem unmap_across_first_area :
    ¬∃ t, performAll empty [.map 10 20, .unmap 5 15] = .ok t ∧
      Refines t (denoteAll ∅ [.map 10 20, .unmap 5 15]) := by
  have hfault : performAll empty [.map 10 20, .unmap 5 15] = .error .prevOfFirst := rfl
  rintro ⟨t, hok, -⟩
  rw [hfault] at hok
  cases hok

end Rpcsx.MemoryTable.AreaTable
