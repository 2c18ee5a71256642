import Rpcsx.MemoryTable.PayloadTable.Theorems

namespace Rpcsx.MemoryTable.PayloadTable

open Rpcsx.Data Rpcsx.Data.StepFunction
open Payload (between)

variable {T : Type} {t : PayloadTable T} {lo hi : Nat}

theorem lookup_eq (t : PayloadTable T) (x : Nat) :
    t.lookup x = stateAfter none (t.mAreas.entries.filter (·.1 ≤ x)) := by
  simp [lookup, valueAt, stateAfter, states, List.filter_map, Function.comp_def]

-- What the invariant says of the points around the two ends of a range.
theorem WellFormed.cut (hw : WellFormed t) (hlt : lo < hi) :
    Chained none (t.mAreas.entries.filter (·.1 < lo)) ∧
    (∀ p, t.mAreas.find? lo = some p →
      p.Fits (stateAfter none (t.mAreas.entries.filter (·.1 < lo)))) ∧
    Chained (stateAfter (stateAfter none (t.mAreas.entries.filter (·.1 < lo)))
        ((t.mAreas.find? lo).toList.map (lo, ·)))
      (t.mAreas.entries.filter fun x => lo < x.1 ∧ x.1 < hi) ∧
    (∀ p, t.mAreas.find? hi = some p →
      p.Fits (stateAfter (stateAfter none (t.mAreas.entries.filter (·.1 < lo)))
        ((t.mAreas.find? lo).toList.map (lo, ·) ++
          t.mAreas.entries.filter fun x => lo < x.1 ∧ x.1 < hi))) ∧
    Chained (t.lookup hi) (t.mAreas.entries.filter (hi < ·.1)) ∧
    stateAfter (t.lookup hi) (t.mAreas.entries.filter (hi < ·.1)) = none := by
  obtain ⟨hchain, hlast⟩ := hw
  have hle := t.mAreas.filter_le_range hlt
  rw [lookup_eq]
  rw [t.mAreas.entries_split_range hlt, ← hle] at hchain hlast
  rw [chained_append] at hchain
  obtain ⟨hbelow, habove⟩ := hchain
  rw [hle, chained_append, chained_append, chained_append] at hbelow
  refine ⟨hbelow.1.1, ?_, ?_, ?_, habove, by rwa [stateAfter_append] at hlast⟩
  · intro p hp
    have h := hbelow.1.2
    rw [hp] at h
    exact h.1
  · simpa using hbelow.2.1
  · intro p hp
    have h := hbelow.2.2
    rw [hp] at h
    simpa using h.1

theorem lookup_hi (hlt : lo < hi) :
    t.lookup hi = stateAfter (stateAfter none (t.mAreas.entries.filter (·.1 < lo)))
      ((t.mAreas.find? lo).toList.map (lo, ·) ++
        (t.mAreas.entries.filter fun x => lo < x.1 ∧ x.1 < hi) ++
          (t.mAreas.find? hi).toList.map (hi, ·)) := by
  rw [lookup_eq, t.mAreas.filter_le_range hlt]
  simp

section Merge

variable [DecidableEq T] {below above rest : List (Nat × Payload T)} {payload : T}

-- The begin of the range is dropped when the area in front of it has the same payload.
theorem mergeBegin_spec
    (h : t.mAreas.entries =
      below ++ (lo, between (stateAfter none below) (some payload)) :: rest) :
    ∃ t' before origBegin point, mergeBegin t lo = .ok (t', origBegin) ∧
      t'.mAreas.entries = before ++ (origBegin, point) :: rest ∧ point.get = .ok payload ∧
      before ++ [(origBegin, point)] = below ++
        if stateAfter none below = some payload then []
        else [(lo, between (stateAfter none below) (some payload))] := by
  rcases List.eq_nil_or_concat' below with rfl | ⟨init, ⟨last, point⟩, rfl⟩
  · refine ⟨t, [], lo, .O payload, ?_, h, rfl, by simp [between]⟩
    simp [mergeBegin, deref_at h, between, Payload.isCloseOpen, bind, Except.bind, pure,
      Except.pure]
  · have hs : stateAfter none (init ++ [(last, point)]) = point.after := by simp
    rw [hs] at h ⊢
    have hat : t.mAreas.entries =
        init ++ (last, point) :: (lo, between point.after (some payload)) :: rest := by simpa using h
    have hopen (data : T) (ha : point.after = some data) (hg : point.get = .ok data) :
        ∃ t' before origBegin point', mergeBegin t lo = .ok (t', origBegin) ∧
          t'.mAreas.entries = before ++ (origBegin, point') :: rest ∧ point'.get = .ok payload ∧
          before ++ [(origBegin, point')] = init ++ [(last, point)] ++
            if point.after = some payload then []
            else [(lo, between point.after (some payload))] := by
      rw [ha] at hat h ⊢
      by_cases hd : data = payload
      · subst hd
        refine ⟨t.erase lo, init, last, point, ?_, by simpa using erase_entries h, hg, by simp⟩
        simp [mergeBegin, deref_at h, stdPrev_at hat, deref_at hat, between, Payload.isCloseOpen,
          hg, bind, Except.bind, pure, Except.pure]
      · refine ⟨t, init ++ [(last, point)], lo, .XO payload, ?_, h, rfl, by simp [hd, between]⟩
        simp [mergeBegin, deref_at h, stdPrev_at hat, deref_at hat, between, Payload.isCloseOpen,
          hg, hd, bind, Except.bind, pure, Except.pure]
    cases point with
    | O data => exact hopen data rfl rfl
    | XO data => exact hopen data rfl rfl
    | X =>
        refine ⟨t, init ++ [(last, .X)], lo, .O payload, ?_, h, rfl, by simp [Payload.after, between]⟩
        simp [mergeBegin, deref_at h, Payload.after, between, Payload.isCloseOpen, bind, Except.bind,
          pure, Except.pure]

theorem mergeEnd_spec {origBegin : Nat} {point : Payload T} {next : Option T}
    (h : t.mAreas.entries =
      below ++ (origBegin, point) :: (hi, between (some payload) next) :: above)
    (hp : point.get = .ok payload) :
    ∃ t', mergeEnd t origBegin hi = .ok t' ∧
      t'.mAreas.entries = below ++ (origBegin, point) ::
        ((if next = some payload then [] else [(hi, between (some payload) next)]) ++ above) := by
  have h' : t.mAreas.entries =
      (below ++ [(origBegin, point)]) ++ (hi, between (some payload) next) :: above := by simp [h]
  cases next with
  | none =>
      refine ⟨t, ?_, by simpa using h⟩
      simp [mergeEnd, deref_at h', between, Payload.isCloseOpen, bind, Except.bind, pure,
        Except.pure]
  | some data =>
      by_cases hd : data = payload
      · refine ⟨t.erase hi, ?_, by simpa [hd] using erase_entries h'⟩
        simp [mergeEnd, deref_at h', deref_at h, between, Payload.isCloseOpen, hp, hd, bind,
          Except.bind, pure, Except.pure]
      · refine ⟨t, ?_, by simpa [hd] using h⟩
        simp [mergeEnd, deref_at h', deref_at h, between, Payload.isCloseOpen, hp, hd, bind,
          Except.bind, pure, Except.pure]

end Merge

-- The points below and above a range, with a point at each end where `keep` asks for one.
def overwrite [DecidableEq T] (keep : Bool) (value : Option T) (lo hi : Nat) (t : PayloadTable T) :
    List (Nat × Payload T) :=
  t.mAreas.entries.filter (·.1 < lo) ++
    (if keep = false ∧ stateAfter none (t.mAreas.entries.filter (·.1 < lo)) = value then []
      else [(lo, between (stateAfter none (t.mAreas.entries.filter (·.1 < lo))) value)]) ++
    (if keep = false ∧ t.lookup hi = value then [] else [(hi, between value (t.lookup hi))]) ++
    t.mAreas.entries.filter (hi < ·.1)

-- The iterator stands at the last point up to an address, and that point carries a payload.
def Covers (t : PayloadTable T) (it address : Nat) (payload : T) : Prop :=
  ∃ before point rest, t.mAreas.entries = before ++ (it, point) :: rest ∧
    point.after = some payload ∧ it ≤ address ∧ ∀ p ∈ rest, address < p.1

section Operations

variable [DecidableEq T] [Inhabited T]

theorem map_entries (hw : WellFormed t) (hlt : lo < hi) (payload : T) (merge : Bool) :
    ∃ t' it, t.map lo hi payload merge false = .ok (t', it) ∧
      t'.mAreas.entries = overwrite (!merge) (some payload) lo hi t ∧
      (merge = false → it = lo) ∧ Covers t' it lo payload := by
  obtain ⟨-, hlo, hmid, hhi, -, -⟩ := hw.cut hlt
  -- both ends are in the map now; the flags tell which of them are new
  have h := t.mAreas.emplace_emplace_entries hlt (Payload.O payload) .X
  have hbi := t.mAreas.emplace_inserted lo (Payload.O payload)
  have hei := (t.mAreas.emplace lo (Payload.O payload)).1.emplace_inserted hi .X
  rw [t.mAreas.find?_emplace_ne (Payload.O payload) hlt.ne'] at hei
  obtain ⟨t₁, scan₁, orig, endPoint, hcollide, h₁, hinv, hend⟩ :=
    collide_spec (t := ⟨((t.mAreas.emplace lo (.O payload)).1.emplace hi .X).1⟩) payload
      (t.mAreas.find? lo) (t.mAreas.find? hi) h hlo hhi
  obtain ⟨t₂, scan₂, orig₂, heat, h₂, hcoll, hinv₂⟩ := eatMiddle_spec t₁.mAreas.size hinv h₁ hmid
    (by simp only [OrderedMap.size, h₁, List.length_append, List.length_cons]; omega)
  have hnext := stdNext_at h₁
  generalize Option.map Prod.fst (List.head? _) = first at heat hnext
  rw [← hcoll, stateAfter_append, ← lookup_hi hlt] at hend
  obtain ⟨t₃, hclose, h₃⟩ := closeEnd_spec hinv₂ hend h₂
  have habove : ∀ p ∈ t.mAreas.entries.filter (hi < ·.1), lo < p.1 := by
    intro p hp
    exact hlt.trans (by simpa using (List.mem_filter.mp hp).2)
  cases merge with
  | false =>
      refine ⟨t₃, lo, ?_, by simpa [overwrite] using h₃, fun _ => rfl,
        _, _, _, h₃, Payload.after_between _ _, le_rfl, ?_⟩
      · simp [map, check, hlt, hbi, hei, hcollide, hnext, heat, hclose, bind, Except.bind,
          pure, Except.pure]
      · exact List.forall_mem_cons.mpr ⟨hlt, habove⟩
  | true =>
      obtain ⟨t₄, before, origBegin, point, hbegin, h₄, hget, hbefore⟩ := mergeBegin_spec h₃
      obtain ⟨t₅, hfin, h₅⟩ := mergeEnd_spec h₄ hget
      refine ⟨t₅, origBegin, ?_, ?_, by simp, before, point, _, h₅, Payload.after_of_get hget,
        ?_, ?_⟩
      · simp [map, check, hlt, hbi, hei, hcollide, hnext, heat, hclose, hbegin, hfin, bind,
          Except.bind, pure, Except.pure]
      · rw [h₅, List.append_cons, hbefore]
        simp [overwrite]
      · -- the point the iterator moved to is below the range
        have hmem : (origBegin, point) ∈ before ++ [(origBegin, point)] := by simp
        rw [hbefore] at hmem
        rcases List.mem_append.mp hmem with hmem | hmem
        · have hbelow := (List.mem_filter.mp hmem).2
          simp only [decide_eq_true_eq] at hbelow
          exact hbelow.le
        · split at hmem
          · simp at hmem
          · simp only [List.mem_singleton, Prod.mk.injEq] at hmem
            exact hmem.1.le
      · intro p hp
        rcases List.mem_append.mp hp with hp | hp
        · split at hp
          · simp at hp
          · rw [List.mem_singleton.mp hp]
            exact hlt
        · exact habove p hp

omit [DecidableEq T] [Inhabited T] in
-- Removing the area between two neighbouring points.
theorem unmapArea_spec {below above : List (Nat × Payload T)} {payload : T} {next : Option T}
    (h : t.mAreas.entries = below ++ (lo, between (stateAfter none below) (some payload)) ::
      (hi, between (some payload) next) :: above) :
    ∃ t', t.unmapArea lo = .ok t' ∧
      t'.mAreas.entries = below ++
        (if stateAfter none below = none then [] else [(lo, .X)]) ++
        (if next = none then [] else [(hi, between none next)]) ++ above := by
  have h' : t.mAreas.entries = (below ++ [(lo, between (stateAfter none below) (some payload))]) ++
      (hi, between (some payload) next) :: above := by simp [h]
  -- the begin point first: it stays as a Close point when an area touches it
  have hbegin : ∃ t₁ : PayloadTable T,
      (if (between (stateAfter none below) (some payload)).isCloseOpen then t.assign lo .X
        else t.erase lo) = t₁ ∧
      t₁.mAreas.entries = (below ++ if stateAfter none below = none then [] else [(lo, .X)]) ++
        (hi, between (some payload) next) :: above := by
    refine ⟨_, rfl, ?_⟩
    cases hs : stateAfter none below with
    | none => simpa [between, Payload.isCloseOpen, hs] using erase_entries h
    | some value => simpa [between, Payload.isCloseOpen, hs] using assign_entries h .X
  obtain ⟨t₁, ht₁, h₁⟩ := hbegin
  cases next with
  | none =>
      refine ⟨t₁.erase hi, ?_, by simpa using erase_entries h₁⟩
      simp only [unmapArea, deref_at h, stdNext_at h, bind, Except.bind, List.head?_cons,
        Option.map_some, ht₁, deref_at h₁]
      simp [between, Payload.isCloseOpen, pure, Except.pure]
  | some data =>
      refine ⟨t₁.assign hi (.O data), ?_, by simpa [between] using assign_entries h₁ (.O data)⟩
      simp only [unmapArea, deref_at h, stdNext_at h, bind, Except.bind, List.head?_cons,
        Option.map_some, ht₁, deref_at h₁]
      simp [between, Payload.isCloseOpen, Payload.setOpen, pure, Except.pure]

theorem unmap_entries (hw : WellFormed t) (hlt : lo < hi) :
    ∃ t', t.unmap lo hi = .ok t' ∧ t'.mAreas.entries = overwrite false none lo hi t := by
  obtain ⟨t₁, it, hmap, h₁, hit, -⟩ := map_entries hw hlt default false
  obtain rfl := hit rfl
  have h₂ : t₁.mAreas.entries = t.mAreas.entries.filter (·.1 < it) ++
      (it, between (stateAfter none (t.mAreas.entries.filter (·.1 < it))) (some default)) ::
        (hi, between (some default) (t.lookup hi)) :: t.mAreas.entries.filter (hi < ·.1) := by
    simpa [overwrite] using h₁
  obtain ⟨t', hun, h'⟩ := unmapArea_spec h₂
  refine ⟨t', by simp [unmap, hmap, hun, bind, Except.bind], ?_⟩
  rw [h']
  cases hs : stateAfter none (t.mAreas.entries.filter (·.1 < it)) with
  | none => simp [overwrite, hs]
  | some value => simp [overwrite, hs, between]

end Operations

end Rpcsx.MemoryTable.PayloadTable
