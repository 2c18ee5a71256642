import Rpcsx.MemoryTable.AreaTable
import Rpcsx.Data.StepFunction

namespace Rpcsx.MemoryTable.AreaTable

open Rpcsx.Data Rpcsx.Data.StepFunction

variable {t : AreaTable}

theorem eq_X_of_ne {kind : Kind} (h : .O ≠ kind) : kind = .X := by
  cases kind with
  | O => exact absurd rfl h
  | X => rfl

theorem eq_O_of_ne {kind : Kind} (h : .X ≠ kind) : kind = .O := by
  cases kind with
  | O => rfl
  | X => exact absurd rfl h

-- The kinds alternate, starting after a point of kind `before`.
def Alternates : Kind → List (Nat × Kind) → Prop
  | _, [] => True
  | before, (_, kind) :: rest => kind ≠ before ∧ Alternates kind rest

-- The representation invariant: the points alternate, start with O and end with X.
def WellFormed (t : AreaTable) : Prop :=
  Alternates .X t.mAreas.entries ∧ lastFrom .X t.mAreas.entries = .X

theorem alternates_append {before : Kind} {left right : List (Nat × Kind)} :
    Alternates before (left ++ right) ↔
      Alternates before left ∧ Alternates (lastFrom before left) right := by
  induction left generalizing before with
  | nil => simp [Alternates]
  | cons p rest ih => simp [Alternates, ih, and_assoc]

-- The points below and above a range, with a new point at an end where the kind changes.
def overwrite (kind : Kind) (lo hi : Nat) (points : List (Nat × Kind)) : List (Nat × Kind) :=
  points.filter (·.1 < lo) ++
    (if lastFrom .X (points.filter (·.1 < lo)) = kind then [] else [(lo, kind)]) ++
    (if valueAt .X points hi = kind then [] else [(hi, valueAt .X points hi)]) ++
    points.filter (hi < ·.1)

theorem valueAt_overwrite (kind : Kind) {lo hi : Nat} (hlt : lo < hi) (x : Nat) :
    valueAt .X (overwrite kind lo hi t.mAreas.entries) x =
      if lo ≤ x ∧ x < hi then kind else valueAt .X t.mAreas.entries x := by
  apply valueAt_splice t.mAreas.sorted hlt
  · split
    · exact .inr ⟨rfl, ‹_›⟩
    · exact .inl rfl
  · split
    · exact .inr ⟨rfl, ‹_›⟩
    · exact .inl rfl

-- Erasing the points between two iterators.
theorem eatMiddle_spec {before middle after : List (Nat × Kind)} {first stop : Nat × Kind}
    (fuel : Nat) (h : t.mAreas.entries = before ++ first :: (middle ++ stop :: after))
    (hfuel : middle.length ≤ fuel) :
    ∃ t', eatMiddle fuel t ((middle ++ stop :: after).head?.map Prod.fst) (some stop.1) = .ok t' ∧
      t'.mAreas.entries = before ++ first :: stop :: after := by
  induction middle generalizing t fuel with
  | nil => exact ⟨t, by cases fuel <;> simp [eatMiddle], by simpa using h⟩
  | cons p middle ih =>
      obtain ⟨fuel, rfl⟩ : ∃ n, fuel = n + 1 := ⟨fuel - 1, by simp at hfuel; omega⟩
      have hp : t.mAreas.entries = (before ++ [first]) ++ (p.1, p.2) :: (middle ++ stop :: after) := by
        simp [h]
      have hstop : t.mAreas.entries =
          (before ++ first :: p :: middle) ++ (stop.1, stop.2) :: after := by simp [h]
      have hlt : p.1 < stop.1 := OrderedMap.lt_of_before hstop p (by simp)
      obtain ⟨last, hlast⟩ := exists_stdPrev hstop (by simp)
      have he : ((t.handleInvalidation last).erase p.1).mAreas.entries =
          before ++ first :: (middle ++ stop :: after) := by
        simpa [erase, handleInvalidation] using OrderedMap.erase_at hp
      obtain ⟨t', ht, hent⟩ := ih fuel he (by simpa using hfuel)
      refine ⟨t', ?_, hent⟩
      have hd := deref_at hp
      have hn := OrderedMap.next_at hp
      simp only [eatMiddle, List.cons_append, List.head?_cons, Option.map_some, hlast]
      rw [if_neg (by simpa using hlt.ne)]
      simp only [bind, Except.bind, handleInvalidation] at *
      rw [hd]
      simpa [hn] using ht

-- The begin point of the mapped range: what is left of it and of the points below.
theorem extendBegin_spec {below rest : List (Nat × Kind)} {lo : Nat} {kind : Kind}
    (inserted : Bool) (h : t.mAreas.entries = below ++ (lo, kind) :: rest)
    (hins : inserted = true → kind = .O)
    (hold : inserted = false → kind ≠ lastFrom .X below) :
    ∃ t' before beginIt dropped, extendBegin t lo inserted = .ok (t', beginIt) ∧
      t'.mAreas.entries = before ++ (beginIt, .O) :: (dropped ++ rest) ∧
      before ++ [(beginIt, .O)] =
        below ++ if lastFrom .X below = .O then [] else [(lo, .O)] := by
  have hd := deref_at h
  -- the last point below the range decides whether the range extends an area
  rcases List.eq_nil_or_concat' below with rfl | ⟨init, ⟨last, lastKind⟩, rfl⟩
  · have hk : kind = .O := by
      cases inserted with
      | true => exact hins rfl
      | false => exact eq_O_of_ne (hold rfl).symm
    subst hk
    have hb : t.mAreas.begin = some lo := by simp [OrderedMap.begin, h]
    refine ⟨t, [], lo, [], ?_, by simpa using h, by simp⟩
    cases inserted <;> simp [extendBegin, hd, hb, bind, Except.bind, pure, Except.pure]
  · have hat : t.mAreas.entries = init ++ (last, lastKind) :: (lo, kind) :: rest := by
      simpa using h
    have hl := deref_at hat
    have hp := stdPrev_at hat
    have hb : some lo ≠ t.mAreas.begin := by
      have hlt := OrderedMap.lt_of_before h
      cases init with
      | nil => simpa [OrderedMap.begin, h] using (hlt (last, lastKind) (by simp)).ne'
      | cons q init => simpa [OrderedMap.begin, h] using (hlt q (by simp)).ne'
    cases lastKind with
    | X =>
        have hk : kind = .O := by
          cases inserted with
          | true => exact hins rfl
          | false => exact eq_O_of_ne (by simpa using (hold rfl).symm)
        subst hk
        refine ⟨t, init ++ [(last, .X)], lo, [], ?_, by simpa using h, by simp⟩
        cases inserted <;>
          simp [extendBegin, hd, hb, hp, hl, bind, Except.bind, pure, Except.pure]
    | O =>
        cases inserted with
        | true =>
            refine ⟨(t.handleInvalidation lo).erase lo, init, last, [], ?_, ?_, by simp⟩
            · simp [extendBegin, hd, hb, hp, hl, bind, Except.bind, pure, Except.pure]
            · simpa [erase, handleInvalidation] using OrderedMap.erase_at h
        | false =>
            have hk : kind = .X := eq_X_of_ne (by simpa using (hold rfl).symm)
            subst hk
            refine ⟨t, init, last, [(lo, .X)], ?_, by simpa using h, by simp⟩
            simp [extendBegin, hd, hb, hp, check, bind, Except.bind, pure, Except.pure]

-- The end point of the mapped range: what is left of it and of the points above.
theorem extendEnd_spec {before above : List (Nat × Kind)} {hi : Nat} {kind last : Kind}
    (inserted : Bool) (h : t.mAreas.entries = before ++ (hi, kind) :: above)
    (hb : before ≠ []) (hins : inserted = true → kind = .X)
    (hold : inserted = false → kind = last)
    (halt : Alternates last above) (hlast : lastFrom last above = .X) :
    ∃ t' endIt dropped after, extendEnd t hi inserted = .ok (t', some endIt) ∧
      t'.mAreas.entries = before ++ (dropped ++ (endIt, .X) :: after) ∧
      (endIt, .X) :: after = (if last = .O then [] else [(hi, last)]) ++ above := by
  have hd := deref_at h
  have hn := stdNext_at h
  cases last with
  | X =>
      have hk : kind = .X := by
        cases inserted with
        | true => exact hins rfl
        | false => exact hold rfl
      subst hk
      refine ⟨t, hi, [], above, ?_, by simpa using h, by simp⟩
      cases inserted with
      | false => simp [extendEnd, hd, bind, Except.bind, pure, Except.pure]
      | true =>
          cases above with
          | nil => simp [extendEnd, hd, hn, bind, Except.bind, pure, Except.pure]
          | cons p above =>
              obtain ⟨next, nextKind⟩ := p
              have hk := eq_O_of_ne halt.1.symm
              subst hk
              have hat : t.mAreas.entries = (before ++ [(hi, .X)]) ++ (next, .O) :: above := by
                simpa using h
              simp [extendEnd, hd, hn, deref_at hat, bind, Except.bind, pure, Except.pure]
  | O =>
      -- the area that holds the end of the range closes above it
      obtain ⟨⟨next, nextKind⟩, rest, rfl⟩ : ∃ p rest, above = p :: rest := by
        cases above with
        | nil => simp at hlast
        | cons p rest => exact ⟨p, rest, rfl⟩
      have hk := eq_X_of_ne halt.1.symm
      subst hk
      have hat : t.mAreas.entries = (before ++ [(hi, kind)]) ++ (next, .X) :: rest := by
        simpa using h
      cases inserted with
      | false =>
          have hk := hold rfl
          subst hk
          refine ⟨t, next, [(hi, .O)], rest, ?_, by simpa using h, by simp⟩
          simp [extendEnd, hd, hn, bind, Except.bind, pure, Except.pure]
      | true =>
          obtain ⟨prior, hprior⟩ := exists_stdPrev h hb
          refine ⟨(t.handleInvalidation prior).erase hi, next, [], rest, ?_, ?_, by simp⟩
          · simp [extendEnd, hd, hn, deref_at hat, hprior, bind, Except.bind, pure, Except.pure]
          · simpa [erase, handleInvalidation] using OrderedMap.erase_at h

-- Erasing the points up to the end of a range, with some point in front of them.
theorem eatUpTo_spec {before middle after : List (Nat × Kind)} {hi : Nat} (fuel : Nat)
    (lastKind : Kind) (h : t.mAreas.entries = before ++ (middle ++ after)) (hb : before ≠ [])
    (hm : ∀ p ∈ middle, p.1 ≤ hi) (ha : ∀ p ∈ after, hi < p.1) (hfuel : middle.length < fuel) :
    ∃ t', eatUpTo hi fuel t ((middle ++ after).head?.map Prod.fst) lastKind =
        .ok (t', lastFrom lastKind middle) ∧ t'.mAreas.entries = before ++ after := by
  induction middle generalizing t fuel lastKind with
  | nil =>
      obtain ⟨fuel, rfl⟩ : ∃ n, fuel = n + 1 := ⟨fuel - 1, by simp at hfuel; omega⟩
      refine ⟨t, ?_, by simpa using h⟩
      cases after with
      | nil => simp [eatUpTo]
      | cons p after =>
          have hd := deref_at (show t.mAreas.entries = before ++ (p.1, p.2) :: after from h)
          have hp := ha p (by simp)
          simp [eatUpTo, hd, bind, Except.bind, Nat.not_le.mpr hp]
  | cons p middle ih =>
      obtain ⟨fuel, rfl⟩ : ∃ n, fuel = n + 1 := ⟨fuel - 1, by simp at hfuel; omega⟩
      have hat : t.mAreas.entries = before ++ (p.1, p.2) :: (middle ++ after) := h
      have hd := deref_at hat
      have hn := OrderedMap.next_at hat
      have hp := hm p (by simp)
      obtain ⟨prior, hprior⟩ := exists_stdPrev hat hb
      have hstep (t₀ : AreaTable) (h₀ : t₀.mAreas = t.mAreas) :
          ∃ t', eatUpTo hi fuel (t₀.erase p.1) ((middle ++ after).head?.map Prod.fst) p.2 =
            .ok (t', lastFrom p.2 middle) ∧ t'.mAreas.entries = before ++ after := by
        apply ih fuel p.2 _ (fun q hq => hm q (by simp [hq])) (by simpa using hfuel)
        simpa [erase, h₀] using OrderedMap.erase_at hat
      cases hk : p.2 with
      | O =>
          obtain ⟨t', ht, hent⟩ := hstep (t.handleInvalidation prior) rfl
          refine ⟨t', ?_, hent⟩
          simp only [hk] at hd ht
          simp [eatUpTo, hd, hp, hprior, bind, Except.bind, pure, Except.pure,
            handleInvalidation, hn, hk, ← ht]
      | X =>
          obtain ⟨t', ht, hent⟩ := hstep t rfl
          refine ⟨t', ?_, hent⟩
          simp only [hk] at hd ht
          simp [eatUpTo, hd, hp, bind, Except.bind, pure, Except.pure, hn, hk, ← ht]

section Cut

variable {lo hi : Nat}

-- What the invariant says of the points around the two ends of a range.
theorem WellFormed.cut (hw : WellFormed t) (hlt : lo < hi) :
    Alternates .X (t.mAreas.entries.filter (·.1 < lo)) ∧
    (∀ kind, t.mAreas.find? lo = some kind →
      kind ≠ lastFrom .X (t.mAreas.entries.filter (·.1 < lo))) ∧
    (∀ kind, t.mAreas.find? hi = some kind → valueAt .X t.mAreas.entries hi = kind) ∧
    Alternates (valueAt .X t.mAreas.entries hi) (t.mAreas.entries.filter (hi < ·.1)) ∧
    lastFrom (valueAt .X t.mAreas.entries hi) (t.mAreas.entries.filter (hi < ·.1)) = .X := by
  obtain ⟨halt, hlast⟩ := hw
  have hle := t.mAreas.filter_le_range hlt
  rw [t.mAreas.entries_split_range hlt, ← hle] at halt hlast
  rw [alternates_append] at halt
  obtain ⟨hbelow, habove⟩ := halt
  rw [hle, alternates_append, alternates_append] at hbelow
  refine ⟨hbelow.1.1, ?_, ?_, habove, ?_⟩
  · intro kind hk
    have h := hbelow.1.2
    rw [hk] at h
    exact h.1
  · intro kind hk
    rw [valueAt, hle, hk]
    simp
  · rwa [lastFrom_append] at hlast

theorem map_entries (hw : WellFormed t) (hlt : lo < hi) :
    ∃ t', map t lo hi = .ok t' ∧
      t'.mAreas.entries = overwrite .O lo hi t.mAreas.entries := by
  obtain ⟨-, hlo, hhi, halt, hlast⟩ := hw.cut hlt
  -- both ends are in the map now; the flags tell which of them are new
  have h := t.mAreas.emplace_emplace_entries hlt .O .X
  have hbi := t.mAreas.emplace_inserted lo .O
  have hei := (t.mAreas.emplace lo .O).1.emplace_inserted hi .X
  rw [t.mAreas.find?_emplace_ne .O hlt.ne'] at hei
  obtain ⟨t₁, before, beginIt, dropped, hbegin, hent₁, hbefore⟩ :=
    extendBegin_spec (t := { t with mAreas := ((t.mAreas.emplace lo .O).1.emplace hi .X).1 })
      (t.mAreas.find? lo).isNone h
      (fun hn => by simp [Option.isNone_iff_eq_none.mp hn])
      (fun hs => by
        obtain ⟨kind, hk⟩ := Option.isSome_iff_exists.mp (Option.isNone_eq_false_iff.mp hs)
        simpa [hk] using hlo kind hk)
  rw [List.append_cons, ← List.append_assoc, List.append_cons, ← List.append_assoc] at hent₁
  obtain ⟨t₂, endIt, dropped', after, hend, hent₂, hafter⟩ :=
    extendEnd_spec (t.mAreas.find? hi).isNone hent₁ (by simp)
      (fun hn => by simp [Option.isNone_iff_eq_none.mp hn])
      (fun hs => by
        obtain ⟨kind, hk⟩ := Option.isSome_iff_exists.mp (Option.isNone_eq_false_iff.mp hs)
        simp [hk, hhi kind hk])
      halt hlast
  have hmid : t₂.mAreas.entries = before ++ (beginIt, .O) :: ((dropped ++
      t.mAreas.entries.filter (fun x => lo < x.1 ∧ x.1 < hi) ++ dropped') ++
        (endIt, .X) :: after) := by simp [hent₂]
  obtain ⟨t₃, heat, hent₃⟩ := eatMiddle_spec t₂.mAreas.size hmid
    (by simp only [OrderedMap.size, hmid, List.length_append, List.length_cons]; omega)
  refine ⟨t₃, ?_, ?_⟩
  · simp only [map, hbi, hei, hbegin, hend, bind, Except.bind, stdNext_at hmid]
    exact heat
  · rw [hent₃, List.append_cons, hbefore, hafter]
    simp [overwrite]

-- The tail of `unmap`, entered at the first point that the range reaches. With an open
-- point there, some point has to stand below it.
theorem unmapFrom_spec (lo hi : Nat) {below middle above : List (Nat × Kind)} {key : Nat}
    {kind : Kind}
    (h : t.mAreas.entries = below ++ (key, kind) :: (middle ++ above))
    (hb : ∀ p ∈ below, p.1 < lo) (hlo : lo ≤ key) (hlt : lo < hi) (hkey : key ≤ hi)
    (hm : ∀ p ∈ middle, p.1 ≤ hi) (ha : ∀ p ∈ above, hi < p.1)
    (hkind : kind ≠ lastFrom .X below) (hne : kind = .O → below ≠ []) :
    ∃ t', unmapFrom t lo hi key = .ok t' ∧
      t'.mAreas.entries = below ++ (if lastFrom .X below = .X then [] else [(lo, .X)]) ++
        (if lastFrom kind middle = .X then [] else [(hi, .O)]) ++ above := by
  have hd := deref_at h
  have hfinish {t₁ : AreaTable} {before rest : List (Nat × Kind)} {it : Option Nat}
      (h₁ : t₁.mAreas.entries = before ++ (rest ++ above)) (hne : before ≠ [])
      (hbefore : ∀ p ∈ before, p.1 < hi) (hrest : ∀ p ∈ rest, p.1 ≤ hi)
      (hit : it = (rest ++ above).head?.map Prod.fst) :
      ∃ t', (do
          let eaten ← eatUpTo hi t₁.mAreas.size t₁ it .X
          if eaten.2 ≠ .O then return eaten.1
          return eaten.1.emplace hi .O) = Except.ok t' ∧
        t'.mAreas.entries = before ++ (if lastFrom .X rest = .X then [] else [(hi, .O)]) ++ above := by
    obtain ⟨t₂, heat, h₂⟩ := eatUpTo_spec t₁.mAreas.size .X h₁ hne hrest ha (by
      have := List.length_pos_of_ne_nil hne
      simp only [OrderedMap.size, h₁, List.length_append]
      omega)
    rw [hit, heat]
    cases hl : lastFrom .X rest with
    | X => exact ⟨t₂, by simp [bind, Except.bind, pure, Except.pure], by simpa using h₂⟩
    | O =>
        refine ⟨t₂.emplace hi .O, by simp [bind, Except.bind, pure, Except.pure], ?_⟩
        simpa [emplace] using OrderedMap.emplace_between h₂ hbefore ha .O
  cases kind with
  | X =>
      have hl := eq_O_of_ne hkind
      have hbelow : below ≠ [] := by rintro rfl; simp at hl
      obtain ⟨prior, hprior⟩ := exists_stdPrev h hbelow
      have hbefore : ∀ p ∈ below ++ [(lo, Kind.X)], p.1 < hi := by
        intro p hp
        rcases List.mem_append.mp hp with hp | hp
        · exact (hb p hp).trans hlt
        · simpa [List.mem_singleton.mp hp] using hlt
      by_cases hk : lo < key
      · -- the area ends inside the range: its close point moves to the begin of the range
        have hent : ((t.handleInvalidation prior).emplace lo .X).mAreas.entries =
            (below ++ [(lo, .X)]) ++ (key, .X) :: (middle ++ above) := by
          have hge : ∀ p ∈ (key, Kind.X) :: (middle ++ above), lo < p.1 := by
            intro p hp
            rcases List.mem_cons.mp hp with rfl | hp
            · exact hk
            · exact hk.trans (OrderedMap.lt_of_after h p hp)
          simpa [emplace, handleInvalidation] using OrderedMap.emplace_between h hb hge .X
        have hent' : (((t.handleInvalidation prior).emplace lo .X).erase key).mAreas.entries =
            below ++ (lo, .X) :: (middle ++ above) := by
          simpa [erase] using OrderedMap.erase_at hent
        obtain ⟨t', ht, hent''⟩ := hfinish
          (show _ = (below ++ [(lo, .X)]) ++ (middle ++ above) by simpa using hent')
          (by simp) hbefore hm rfl
        refine ⟨t', ?_, by simpa [hl] using hent''⟩
        simp only [unmapFrom, hd, hk, hprior, stdNext_at hent', bind, Except.bind, pure,
          Except.pure, and_self, if_true]
        simpa [bind, Except.bind, pure, Except.pure] using ht
      · have hk' : key = lo := by omega
        subst hk'
        obtain ⟨t', ht, hent''⟩ := hfinish
          (show t.mAreas.entries = (below ++ [(key, .X)]) ++ (middle ++ above) by simpa using h)
          (by simp) hbefore hm rfl
        refine ⟨t', ?_, by simpa [hl] using hent''⟩
        simp only [unmapFrom, hd, hk, stdNext_at h, bind, Except.bind, pure, Except.pure,
          false_and, if_false, if_true]
        simpa [bind, Except.bind, pure, Except.pure] using ht
  | O =>
      have hl := eq_X_of_ne hkind
      obtain ⟨t', ht, hent⟩ := hfinish
        (show t.mAreas.entries = below ++ (((key, .O) :: middle) ++ above) by simpa using h)
        (hne rfl) (fun p hp => (hb p hp).trans hlt)
        (fun p hp => by
          rcases List.mem_cons.mp hp with rfl | hp
          · exact hkey
          · exact hm p hp) rfl
      refine ⟨t', ?_, by simpa [hl] using hent⟩
      simp only [unmapFrom, hd, bind, Except.bind, pure, Except.pure, reduceCtorEq, and_false,
        if_false]
      simpa [bind, Except.bind, pure, Except.pure] using ht

theorem unmap_entries (hw : WellFormed t) (hlt : lo < hi)
    (hfirst : ∀ first, t.mAreas.begin = some first → ¬(lo ≤ first ∧ first < hi)) :
    ∃ t', unmap t lo hi = .ok t' ∧
      t'.mAreas.entries = overwrite .X lo hi t.mAreas.entries := by
  have hsplit := t.mAreas.entries_split_le lo
  have hb : ∀ p ∈ t.mAreas.entries.filter (·.1 < lo), p.1 < lo := fun p hp => by
    simpa using (List.mem_filter.mp hp).2
  have hnle : ∀ p ∈ t.mAreas.entries.filter (lo ≤ ·.1), lo ≤ p.1 := fun p hp => by
    simpa using (List.mem_filter.mp hp).2
  unfold overwrite
  have halt := hw.1
  rw [hsplit, alternates_append] at halt
  generalize hL : t.mAreas.entries.filter (·.1 < lo) = below at *
  generalize hN : t.mAreas.entries.filter (lo ≤ ·.1) = reached at *
  cases reached with
  | nil =>
      -- every point lies below the range
      have hbelow : t.mAreas.entries = below := by simpa using hsplit
      have hlast := hw.2
      have hle : t.mAreas.entries.filter (·.1 ≤ hi) = below := by
        rw [hbelow, List.filter_eq_self]
        intro p hp
        simpa using ((hb p hp).trans hlt).le
      have hgt : t.mAreas.entries.filter (hi < ·.1) = [] := by
        rw [hbelow, List.filter_eq_nil_iff]
        intro p hp
        simpa using ((hb p hp).trans hlt).le
      rw [hbelow] at hlast
      refine ⟨t, ?_, ?_⟩
      · have hn := OrderedMap.lowerBound_none (m := t.mAreas) (by rwa [hbelow])
        simp [unmap, hn, pure, Except.pure]
      · simp only [valueAt, hle, hgt, hlast]
        simpa using hbelow
  | cons p rest =>
      obtain ⟨key, kind⟩ := p
      have hkey : lo ≤ key := hnle (key, kind) (by simp)
      have hbound := OrderedMap.lowerBound_at hsplit hb hkey
      have hd := deref_at hsplit
      have hkind : kind ≠ lastFrom .X below := halt.2.1
      have hrest : rest = rest.filter (·.1 ≤ hi) ++ rest.filter (hi < ·.1) := by
        have hs : rest.Pairwise fun x y => x.1 < y.1 := by
          have h := t.mAreas.sorted
          rw [hsplit, List.pairwise_append] at h
          exact (List.pairwise_cons.mp h.2.1).2
        exact OrderedMap.entries_split_lt ⟨rest, hs⟩ hi
      have hle : t.mAreas.entries.filter (·.1 ≤ hi) =
          below ++ ((key, kind) :: rest).filter (·.1 ≤ hi) := by
        conv_lhs => rw [hsplit]
        rw [List.filter_append, List.filter_eq_self.mpr]
        intro p hp
        simpa using ((hb p hp).trans hlt).le
      have hgt : t.mAreas.entries.filter (hi < ·.1) = ((key, kind) :: rest).filter (hi < ·.1) := by
        conv_lhs => rw [hsplit]
        rw [List.filter_append, List.filter_eq_nil_iff.mpr, List.nil_append]
        intro p hp
        simpa using ((hb p hp).trans hlt).le
      have habove (hk : hi ≤ key) : ∀ p ∈ rest, hi < p.1 := fun p hp =>
        lt_of_le_of_lt hk (OrderedMap.lt_of_after hsplit p hp)
      -- a close point at or above the end of the range: the range starts inside its area
      have hinside (hk : hi ≤ key) (hX : kind = .X) : ∃ openIt,
          stdPrev t.mAreas (some key) = .ok openIt ∧ openIt < lo ∧
          deref t.mAreas (some openIt) = .ok (openIt, .O) ∧ lastFrom .X below = .O ∧
          ((t.handleInvalidation openIt).emplace lo .X).mAreas.entries =
            below ++ (lo, .X) :: (key, kind) :: rest := by
        have hl := eq_O_of_ne (hX ▸ hkind)
        rcases List.eq_nil_or_concat' below with rfl | ⟨init, ⟨openIt, openKind⟩, rfl⟩
        · simp at hl
        · have hO : openKind = .O := by simpa using hl
          subst hO
          have hat : t.mAreas.entries = init ++ (openIt, .O) :: (key, kind) :: rest := by
            simpa using hsplit
          refine ⟨openIt, stdPrev_at hat, hb (openIt, .O) (by simp), deref_at hat, hl, ?_⟩
          have hge : ∀ p ∈ (key, kind) :: rest, lo < p.1 := by
            intro p hp
            rcases List.mem_cons.mp hp with rfl | hp
            · exact lt_of_lt_of_le hlt hk
            · exact hlt.trans (habove hk p hp)
          simpa [emplace, handleInvalidation] using OrderedMap.emplace_between hsplit hb hge .X
      rcases Nat.lt_trichotomy key hi with hk | rfl | hk
      · have hfilter : ((key, kind) :: rest).filter (·.1 ≤ hi) =
            (key, kind) :: rest.filter (·.1 ≤ hi) := by simp [hk.le]
        have hfilter' : ((key, kind) :: rest).filter (hi < ·.1) = rest.filter (hi < ·.1) := by
          simp [hk.le]
        obtain ⟨t', ht, hent⟩ := unmapFrom_spec lo hi
          (show t.mAreas.entries = below ++ (key, kind) ::
            (rest.filter (·.1 ≤ hi) ++ rest.filter (hi < ·.1)) by rwa [← hrest])
          hb hkey hlt hk.le (fun p hp => by simpa using (List.mem_filter.mp hp).2)
          (fun p hp => by simpa using (List.mem_filter.mp hp).2) hkind
          (fun _ hnil => hfirst key (by simp [OrderedMap.begin, hsplit, hnil]) ⟨hkey, hk⟩)
        refine ⟨t', ?_, ?_⟩
        · simpa [unmap, hbound, hd, Nat.not_le.mpr hk, bind, Except.bind] using ht
        · rw [hent, valueAt, hle, hgt, hfilter, hfilter', lastFrom_append, lastFrom_cons]
          cases lastFrom kind (rest.filter (·.1 ≤ hi)) <;> simp
      · have hfilter : ((key, kind) :: rest).filter (·.1 ≤ key) = [(key, kind)] := by
          simpa using fun a b hp => habove le_rfl (a, b) hp
        have hfilter' : ((key, kind) :: rest).filter (key < ·.1) = rest := by
          simpa using fun a b hp => habove le_rfl (a, b) hp
        rw [valueAt, hle, hgt, hfilter, hfilter']
        cases kind with
        | O =>
            have hl := eq_X_of_ne hkind
            refine ⟨t, ?_, by simpa [hl] using hsplit⟩
            simp [unmap, hbound, hd, bind, Except.bind, pure, Except.pure]
        | X =>
            obtain ⟨openIt, hprev, hopen, hdo, hl, hent⟩ := hinside le_rfl rfl
            obtain ⟨t', ht, hent'⟩ := unmapFrom_spec lo key
              (show _ = below ++ (lo, .X) :: ([(key, .X)] ++ rest) by simpa using hent)
              hb le_rfl hlt hlt.le (by simp) (habove le_rfl) (by simp [hl]) (by simp)
            refine ⟨t', ?_, by simpa [hl] using hent'⟩
            have hge : ¬key ≤ openIt := by omega
            simpa [unmap, hbound, hd, hprev, hdo, hopen, hge, bind, Except.bind] using ht
      · have hfilter : ((key, kind) :: rest).filter (·.1 ≤ hi) = [] := by
          simpa using ⟨hk, fun a b hp => habove hk.le (a, b) hp⟩
        have hfilter' : ((key, kind) :: rest).filter (hi < ·.1) = (key, kind) :: rest := by
          simpa [hk] using fun a b hp => habove hk.le (a, b) hp
        rw [valueAt, hle, hgt, hfilter, hfilter', List.append_nil]
        cases kind with
        | O =>
            have hl := eq_X_of_ne hkind
            refine ⟨t, ?_, by simpa [hl] using hsplit⟩
            simp [unmap, hbound, hd, hk.le, bind, Except.bind, pure, Except.pure]
        | X =>
            obtain ⟨openIt, hprev, hopen, hdo, hl, hent⟩ := hinside hk.le rfl
            have hbelow : ∀ p ∈ below ++ [(lo, Kind.X)], p.1 < hi := by
              intro p hp
              rcases List.mem_append.mp hp with hp | hp
              · exact (hb p hp).trans hlt
              · simpa [List.mem_singleton.mp hp] using hlt
            have hge : ¬hi ≤ openIt := by omega
            refine ⟨((t.handleInvalidation openIt).emplace lo .X).emplace hi .O, ?_, ?_⟩
            · simp [unmap, hbound, hd, hprev, hdo, hopen, hge, hk, hk.le, bind, Except.bind, pure,
                Except.pure]
            · have hent' : ((t.handleInvalidation openIt).emplace lo .X).mAreas.entries =
                  (below ++ [(lo, .X)]) ++ (key, .X) :: rest := by simpa using hent
              have h := OrderedMap.emplace_between hent' hbelow (fun p hp => by
                rcases List.mem_cons.mp hp with rfl | hp
                · exact hk
                · exact habove hk.le p hp) Kind.O
              simpa [emplace, hl] using h

-- A range that removes the first point makes `unmap` look in front of it.
theorem unmap_fault (hw : WellFormed t) {first : Nat} (hb : t.mAreas.begin = some first)
    (hlo : lo ≤ first) (hhi : first < hi) : unmap t lo hi = .error .prevOfFirst := by
  obtain ⟨⟨key, kind⟩, rest, h⟩ : ∃ p rest, t.mAreas.entries = p :: rest := by
    cases he : t.mAreas.entries with
    | nil => simp [OrderedMap.begin, he] at hb
    | cons p rest => exact ⟨p, rest, rfl⟩
  have hk : key = first := by simpa [OrderedMap.begin, h] using hb
  subst hk
  have hkind : kind = .O := eq_O_of_ne (by have := hw.1; rw [h] at this; exact this.1.symm)
  subst hkind
  have h' : t.mAreas.entries = [] ++ (key, .O) :: rest := h
  have hbound := OrderedMap.lowerBound_at h' (by simp) hlo
  have hsize : t.mAreas.size = rest.length + 1 := by simp [OrderedMap.size, h]
  simp [unmap, unmapFrom, eatUpTo, hbound, deref_at h', stdPrev_first h, hsize,
    Nat.not_le.mpr hhi, hhi.le, bind, Except.bind, pure, Except.pure]

end Cut

end Rpcsx.MemoryTable.AreaTable
