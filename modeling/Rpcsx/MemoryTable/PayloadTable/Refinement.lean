import Rpcsx.MemoryTable.PayloadTable.Areas

namespace Rpcsx.MemoryTable.PayloadTable

open Rpcsx.Data Rpcsx.Data.StepFunction Rpcsx.Data.Runs
open Payload (between)

variable {T : Type} {t : PayloadTable T} {lo hi : Nat}

-- Each point changes the payload.
def Changes : Option T → List (Nat × Payload T) → Prop
  | _, [] => True
  | before, (_, p) :: rest => p.after ≠ before ∧ Changes p.after rest

theorem changes_append {before : Option T} {left right : List (Nat × Payload T)} :
    Changes before (left ++ right) ↔
      Changes before left ∧ Changes (stateAfter before left) right := by
  induction left generalizing before with
  | nil => simp [Changes]
  | cons p rest ih => simp [Changes, ih, and_assoc]

-- Where each point changes the payload, touching areas differ in it.
theorem areasOf_separated {points : List (Nat × Payload T)}
    (hs : points.Pairwise fun p q => p.1 < q.1) {before : Option T} (hc : Changes before points) :
    (areasOf points).Pairwise fun a b => a.endAddress = b.beginAddress → a.payload ≠ b.payload := by
  induction points using areasOf.induct generalizing before with
  | case1 lo p hi q rest ih =>
      obtain ⟨hlo, hr⟩ := List.pairwise_cons.mp hs
      have hhi := (List.pairwise_cons.mp hr).1
      simp only [areasOf, List.pairwise_append]
      refine ⟨?_, ih hr hc.2, ?_⟩
      · cases p.after <;> simp
      · intro a ha b hb hend
        obtain ⟨payload, hp, rfl⟩ : ∃ payload, p.after = some payload ∧
          AreaInfo.mk lo hi payload = a := by simpa using ha
        obtain ⟨r, hr', hb'⟩ := begin_mem_of_mem_areasOf hb
        rcases List.mem_cons.mp hr' with heq | hr'
        · simp only [Prod.mk.injEq] at heq
          obtain ⟨-, rfl⟩ := heq
          have hne := hc.2.1
          rw [hp, hb'] at hne
          simpa using Ne.symm hne
        · have := hhi _ hr'
          simp only at hend this
          omega
  | case2 points hne =>
      rw [areasOf.eq_def]
      split
      · exact absurd rfl (hne _ _ _ _ _)
      · simp

section Overwrite

variable [DecidableEq T]

theorem lookup_overwrite {t' : PayloadTable T} {keep : Bool} {value : Option T} (hlt : lo < hi)
    (h : t'.mAreas.entries = overwrite keep value lo hi t) (x : Nat) :
    t'.lookup x = if lo ≤ x ∧ x < hi then value else t.lookup x := by
  have hmap (p : Nat → Bool) : states (t.mAreas.entries.filter (p ·.1)) =
      (states t.mAreas.entries).filter (p ·.1) := by
    simp [states, List.filter_map, Function.comp_def]
  have hsorted : (states t.mAreas.entries).Pairwise fun p q => p.1 < q.1 := by
    simpa [states, List.pairwise_map] using t.mAreas.sorted
  have hlo := hmap fun k => decide (k < lo)
  have hhi := hmap fun k => decide (hi < k)
  -- the two ends, as breakpoints of the step function
  let atLo := states (if keep = false ∧ stateAfter none (t.mAreas.entries.filter (·.1 < lo)) = value
    then [] else [(lo, between (stateAfter none (t.mAreas.entries.filter (·.1 < lo))) value)])
  let atHi := states (if keep = false ∧ t.lookup hi = value then []
    else [(hi, between value (t.lookup hi))])
  have hLo : atLo = [(lo, value)] ∨
      atLo = [] ∧ lastFrom none ((states t.mAreas.entries).filter (·.1 < lo)) = value := by
    rw [← hlo]
    simp only [atLo]
    split
    · exact .inr ⟨rfl, (‹_ ∧ _› : _ ∧ _).2⟩
    · exact .inl (by simp [states])
  have hHi : atHi = [(hi, valueAt none (states t.mAreas.entries) hi)] ∨
      atHi = [] ∧ valueAt none (states t.mAreas.entries) hi = value := by
    simp only [atHi]
    split
    · exact .inr ⟨rfl, (‹_ ∧ _› : _ ∧ _).2⟩
    · exact .inl (by simp [states, lookup])
  have hsplice := valueAt_splice (x := x) hsorted hlt hLo hHi
  unfold lookup
  rw [← hsplice, h, ← hlo, ← hhi]
  simp [overwrite, states, atLo, atHi]

theorem overwrite_wellFormed {t' : PayloadTable T} {keep : Bool} {value : Option T}
    (hw : WellFormed t) (hlt : lo < hi) (hkeep : keep = true → value.isSome)
    (h : t'.mAreas.entries = overwrite keep value lo hi t) : WellFormed t' := by
  obtain ⟨hbelow, -, -, -, habove, hlast⟩ := hw.cut hlt
  unfold WellFormed
  rw [h]
  unfold overwrite
  simp only [chained_append, stateAfter_append]
  generalize stateAfter none (t.mAreas.entries.filter (·.1 < lo)) = before at *
  generalize t.lookup hi = next at *
  -- the points at the two ends lead from `before` to `value` and from `value` to `next`
  have hend (a b : Option T) (key : Nat) (hv : keep = true → a.isSome ∨ b.isSome) :
      Chained a (if keep = false ∧ a = b then [] else [(key, between a b)]) ∧
        stateAfter a (if keep = false ∧ a = b then [] else [(key, between a b)]) = b := by
    split
    · exact ⟨trivial, (‹_ ∧ _› : _ ∧ _).2⟩
    · refine ⟨⟨Payload.between_fits ?_, trivial⟩, by simp⟩
      cases keep <;> cases a <;> cases b <;> simp_all
  have hlo := hend before value lo (fun hk => .inr (hkeep hk))
  have hhi := hend value next hi (fun hk => .inl (hkeep hk))
  simp only [eq_comm (a := value) (b := next)] at hhi
  rw [hlo.2, hhi.2]
  exact ⟨⟨⟨⟨hbelow, hlo.1⟩, hhi.1⟩, habove⟩, hlast⟩

theorem overwrite_changes {t' : PayloadTable T} {value : Option T}
    (hc : Changes none t.mAreas.entries) (hlt : lo < hi)
    (h : t'.mAreas.entries = overwrite false value lo hi t) : Changes none t'.mAreas.entries := by
  have hle := t.mAreas.filter_le_range hlt
  rw [t.mAreas.entries_split_range hlt, ← hle, changes_append] at hc
  obtain ⟨hbelow, habove⟩ := hc
  rw [hle, changes_append, changes_append] at hbelow
  rw [← lookup_eq] at habove
  rw [h]
  unfold overwrite
  simp only [changes_append, stateAfter_append, true_and]
  have hb := hbelow.1.1
  generalize stateAfter none (t.mAreas.entries.filter (·.1 < lo)) = before at *
  generalize t.lookup hi = next at *
  have hend (a b : Option T) (key : Nat) :
      Changes a (if a = b then [] else [(key, between a b)]) ∧
        stateAfter a (if a = b then [] else [(key, between a b)]) = b := by
    split
    · exact ⟨trivial, ‹_›⟩
    · exact ⟨⟨by simpa using Ne.symm ‹_›, trivial⟩, by simp⟩
  have hlo := hend before value lo
  have hhi := hend value next hi
  simp only [eq_comm (a := value) (b := next)] at hhi
  rw [hlo.2, hhi.2]
  exact ⟨⟨⟨hb, hlo.1⟩, hhi.1⟩, habove⟩

end Overwrite

-- The calls that change a table.
inductive Request (T : Type) where
  | map (beginAddress endAddress : Nat) (payload : T) (merge : Bool)
  | unmap (beginAddress endAddress : Nat)
  deriving DecidableEq, Repr

namespace Request

def Valid : Request T → Prop
  | map beginAddress endAddress _ _ => beginAddress < endAddress
  | unmap beginAddress endAddress => beginAddress < endAddress

-- Whether the call merges touching areas, as far as it maps any.
def Merges : Request T → Prop
  | map _ _ _ merge => merge = true
  | unmap _ _ => True

def denote (f : Nat → Option T) : Request T → Nat → Option T
  | map beginAddress endAddress payload _ =>
      fun x => if beginAddress ≤ x ∧ x < endAddress then some payload else f x
  | unmap beginAddress endAddress =>
      fun x => if beginAddress ≤ x ∧ x < endAddress then none else f x

def perform [DecidableEq T] [Inhabited T] (t : PayloadTable T) :
    Request T → Except Fault (PayloadTable T)
  | map beginAddress endAddress payload merge => do
      return (← t.map beginAddress endAddress payload merge false).1
  | unmap beginAddress endAddress => t.unmap beginAddress endAddress

end Request

def denoteAll (requests : List (Request T)) : Nat → Option T :=
  requests.foldl Request.denote fun _ => none

-- A table as an implementation of a partial map, with the answers of its queries.
structure Refines (t : PayloadTable T) (f : Nat → Option T) : Prop where
  wellFormed : WellFormed t
  lookup_eq : t.lookup = f
  iteration : ∃ list, t.areas = .ok list ∧
    Partition AreaInfo.beginAddress AreaInfo.endAddress AreaInfo.payload f list ∧
    (∀ address, (t.queryArea address >>= t.report) =
      .ok (list.find? fun a => a.beginAddress ≤ address ∧ address < a.endAddress)) ∧
    ∀ address, (t.lowerBound address >>= t.report) =
      .ok (list.find? fun a => address < a.endAddress)

-- Touching areas differ in payload, so the areas are the maximal runs of the partial map.
def Merged (t : PayloadTable T) (f : Nat → Option T) : Prop :=
  ∃ list, t.areas = .ok list ∧
    (list.Pairwise fun a b => a.endAddress = b.beginAddress → a.payload ≠ b.payload) ∧
    ∀ a, a ∈ list ↔ IsMaximalRun f a.payload a.beginAddress a.endAddress

theorem WellFormed.refines (hw : WellFormed t) : Refines t t.lookup :=
  ⟨hw, rfl, _, areas_eq hw, areasOf_partition hw, fun _ => queryArea_eq hw,
    fun _ => lowerBound_eq hw⟩

theorem WellFormed.merged (hw : WellFormed t) (hc : Changes none t.mAreas.entries) :
    Merged t t.lookup := by
  have hsep := areasOf_separated t.mAreas.sorted hc
  refine ⟨_, areas_eq hw, hsep, ?_⟩
  intro a
  rw [(areasOf_partition hw).maximal_iff hsep]
  constructor
  · intro ha
    exact ⟨a, ha, rfl, rfl, rfl⟩
  · rintro ⟨⟨lo, hi, payload⟩, hmem, rfl, rfl, rfl⟩
    exact hmem

section Run

variable [DecidableEq T] [Inhabited T]

def performAll (t : PayloadTable T) (requests : List (Request T)) :
    Except Fault (PayloadTable T) :=
  requests.foldlM Request.perform t

theorem Request.perform_spec (hw : WellFormed t) (r : Request T) (hr : r.Valid) :
    ∃ t', r.perform t = .ok t' ∧ WellFormed t' ∧ t'.lookup = r.denote t.lookup ∧
      (r.Merges → Changes none t.mAreas.entries → Changes none t'.mAreas.entries) := by
  cases r with
  | map lo hi payload merge =>
      obtain ⟨t', it, hok, he, -, -⟩ := map_entries hw hr payload merge
      refine ⟨t', by simp [perform, hok, bind, Except.bind, pure, Except.pure],
        overwrite_wellFormed hw hr (by simp) he, funext (lookup_overwrite hr he), ?_⟩
      intro hm hc
      have hm' : merge = true := hm
      subst hm'
      exact overwrite_changes hc hr he
  | unmap lo hi =>
      obtain ⟨t', hok, he⟩ := unmap_entries hw hr
      exact ⟨t', hok, overwrite_wellFormed hw hr (by simp) he, funext (lookup_overwrite hr he),
        fun _ hc => overwrite_changes hc hr he⟩

theorem performAll_spec (hw : WellFormed t) (requests : List (Request T))
    (hv : ∀ r ∈ requests, r.Valid) :
    ∃ t', performAll t requests = .ok t' ∧ WellFormed t' ∧
      t'.lookup = requests.foldl Request.denote t.lookup ∧
      ((∀ r ∈ requests, r.Merges) → Changes none t.mAreas.entries →
        Changes none t'.mAreas.entries) := by
  induction requests generalizing t with
  | nil => exact ⟨t, rfl, hw, rfl, fun _ hc => hc⟩
  | cons r rest ih =>
      obtain ⟨t₁, hok, hw₁, hl₁, hc₁⟩ := r.perform_spec hw (hv r (by simp))
      obtain ⟨t', hall, hw', hl', hc'⟩ := ih hw₁ (fun q hq => hv q (by simp [hq]))
      refine ⟨t', ?_, hw', by rw [hl', hl₁]; rfl, ?_⟩
      · simpa [performAll, List.foldlM_cons, hok, bind, Except.bind] using hall
      · intro hm hc
        exact hc' (fun q hq => hm q (by simp [hq])) (hc₁ (hm r (by simp)) hc)

-- Every run of calls succeeds and leaves the table of the partial map it stands for. The areas
-- are the maximal runs of that map when every call merges.
theorem refines_partial_map (requests : List (Request T)) (hv : ∀ r ∈ requests, r.Valid) :
    ∃ t, performAll empty requests = .ok t ∧ Refines t (denoteAll requests) ∧
      ((∀ r ∈ requests, r.Merges) → Merged t (denoteAll requests)) := by
  have hempty : WellFormed (empty : PayloadTable T) := ⟨trivial, rfl⟩
  have hl : (empty : PayloadTable T).lookup = fun _ => none := rfl
  obtain ⟨t, hok, hw, hlookup, hc⟩ := performAll_spec hempty requests hv
  rw [hl] at hlookup
  refine ⟨t, hok, ?_, ?_⟩
  · have h := hw.refines
    rwa [hlookup] at h
  · intro hm
    have h := hw.merged (hc hm trivial)
    rwa [hlookup] at h

end Run

theorem refines_partial_map_split_area :
    ∃ t, performAll empty [.map 0 30 1 true, .unmap 10 20, .map 20 25 2 true] = .ok t ∧
      Refines t (denoteAll [.map 0 30 1 true, .unmap 10 20, .map 20 25 2 true]) ∧
      Merged t (denoteAll [.map 0 30 1 true, .unmap 10 20, .map 20 25 2 true]) := by
  obtain ⟨t, hok, href, hm⟩ :=
    refines_partial_map [.map 0 30 1 true, .unmap 10 20, .map 20 25 2 true]
      (by simp [Request.Valid])
  exact ⟨t, hok, href, hm (by simp [Request.Merges])⟩

-- Two touching areas with one payload, mapped without merging, stay two areas: the query
-- reports the first of them and not the run that holds the address.
theorem unmerged_area_not_maximal :
    ∃ t area, performAll empty [.map 0 10 1 false, .map 10 20 1 false] = .ok t ∧
      (t.queryArea 5 >>= t.report) = .ok (some area) ∧
      ¬IsMaximalRun (denoteAll [.map 0 10 1 false, .map 10 20 1 false]) area.payload
        area.beginAddress area.endAddress := by
  refine ⟨_, ⟨0, 10, 1⟩, rfl, rfl, ?_⟩
  rintro ⟨-, -, hend, -⟩
  exact hend rfl

end Rpcsx.MemoryTable.PayloadTable
