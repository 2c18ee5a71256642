import Rpcsx.MemoryTable.PayloadTable
import Rpcsx.Data.StepFunction

namespace Rpcsx.MemoryTable

open Rpcsx.Data Rpcsx.Data.StepFunction

variable {T : Type}

namespace Payload

-- The payload of the stretch that starts at a point.
def after : Payload T → Option T
  | O data => some data
  | X => none
  | XO data => some data

-- The points that may end a stretch with the given payload.
def Fits (before : Option T) : Payload T → Prop
  | O _ => before = none
  | _ => before.isSome

-- The point between two stretches.
def between : Option T → Option T → Payload T
  | none, some data => .O data
  | some _, some data => .XO data
  | _, none => .X

@[simp] theorem after_between (before next : Option T) : (between before next).after = next := by
  cases before <;> cases next <;> rfl

@[simp] theorem get_XO (data : T) : (XO data).get = .ok data := rfl

theorem get_eq {p : Payload T} {payload : T} (h : p.after = some payload) :
    p.get = .ok payload := by
  cases p with
  | O data => simpa [after, get] using h
  | X => simp [after] at h
  | XO data => simpa [after, get] using h

theorem after_of_get {p : Payload T} {payload : T} (h : p.get = .ok payload) :
    p.after = some payload := by
  cases p with
  | O data => simpa [after, get] using h
  | X => simp [get] at h
  | XO data => simpa [after, get] using h

theorem eq_between {before : Option T} {p : Payload T} (h : p.Fits before) :
    p = between before p.after := by
  cases p <;> cases before <;> simp_all [Fits, between, after]

theorem between_fits {before next : Option T} (h : before.isSome ∨ next.isSome) :
    (between before next).Fits before := by
  cases before <;> cases next <;> simp_all [Fits, between]

end Payload

namespace PayloadTable

open Payload (between)

-- The step function of a list of points.
def states (points : List (Nat × Payload T)) : List (Nat × Option T) :=
  points.map fun p => (p.1, p.2.after)

def stateAfter (before : Option T) (points : List (Nat × Payload T)) : Option T :=
  lastFrom before (states points)

section

variable {before : Option T} {left right : List (Nat × Payload T)}

@[simp] theorem stateAfter_nil : stateAfter before [] = before := rfl

@[simp] theorem stateAfter_cons (p : Nat × Payload T) :
    stateAfter before (p :: right) = stateAfter p.2.after right := by
  simp [stateAfter, states]

@[simp] theorem stateAfter_append :
    stateAfter before (left ++ right) = stateAfter (stateAfter before left) right := by
  simp [stateAfter, states]

-- Each point fits the stretch in front of it.
def Chained : Option T → List (Nat × Payload T) → Prop
  | _, [] => True
  | before, (_, p) :: rest => p.Fits before ∧ Chained p.after rest

theorem chained_append :
    Chained before (left ++ right) ↔
      Chained before left ∧ Chained (stateAfter before left) right := by
  induction left generalizing before with
  | nil => simp [Chained]
  | cons p rest ih => simp [Chained, ih, and_assoc]

end

-- The representation invariant: an open stretch is followed by a Close or a CloseOpen point,
-- a closed one by an Open point, and the table starts and ends closed.
def WellFormed (t : PayloadTable T) : Prop :=
  Chained none t.mAreas.entries ∧ stateAfter none t.mAreas.entries = none

-- The partial map of a table.
def lookup (t : PayloadTable T) (x : Nat) : Option T := valueAt none (states t.mAreas.entries) x

section Loop

variable {t : PayloadTable T} {below rest : List (Nat × Payload T)} {lo hi : Nat}

theorem assign_entries {old : Payload T} (h : t.mAreas.entries = below ++ (lo, old) :: rest)
    (new : Payload T) : (t.assign lo new).mAreas.entries = below ++ (lo, new) :: rest :=
  OrderedMap.assign_at h new

theorem erase_entries {old : Payload T} (h : t.mAreas.entries = below ++ (lo, old) :: rest) :
    (t.erase lo).mAreas.entries = below ++ rest :=
  OrderedMap.erase_at h

theorem setCloseOpen_spec {point : Payload T} {payload : T}
    (h : t.mAreas.entries = below ++ (lo, point) :: rest) (hp : point.after = some payload) :
    ∃ t', t.setCloseOpen lo = .ok t' ∧
      t'.mAreas.entries = below ++ (lo, .XO payload) :: rest := by
  refine ⟨t.assign lo (.XO payload), ?_, assign_entries h _⟩
  cases point with
  | X => simp [Payload.after] at hp
  | O data =>
      simp only [Payload.after, Option.some.injEq] at hp
      simp [setCloseOpen, deref_at h, Payload.setCloseOpen, hp, bind, Except.bind, pure, Except.pure]
  | XO data =>
      simp only [Payload.after, Option.some.injEq] at hp
      simp [setCloseOpen, deref_at h, Payload.setCloseOpen, hp, bind, Except.bind, pure, Except.pure]

-- What the flags of `map` say about the points it went over: `before` is the stretch in front
-- of the range, `current` the one in front of the next point, and `orig` the begin point.
structure ScanInvariant (before : Option T) (payload : T) (endInserted : Bool) (scan : Scan T)
    (orig : Payload T) (current : Option T) : Prop where
  orig_eq : orig = between before (some payload) ∨
    (orig = .O payload ∧ scan.seenOpen = false ∧ current.isSome ∧ endInserted = false)
  opened : scan.seenOpen = false → current.isSome → before.isSome
  last_eq : scan.lastRemovedIsOpen = true → current = some scan.lastRemovedOpenPayload
  last_open : endInserted = true → current.isSome → scan.lastRemovedIsOpen = true

variable {before current : Option T} {payload : T} {endInserted : Bool} {scan : Scan T}
  {orig : Payload T}

theorem ScanInvariant.orig_after
    (hinv : ScanInvariant before payload endInserted scan orig current) :
    orig.after = some payload := by
  rcases hinv.orig_eq with rfl | ⟨rfl, -⟩
  · simp
  · rfl

-- Closing the stretch in front of the range turns its begin into the right point.
theorem ScanInvariant.setCloseOpen_spec
    (hinv : ScanInvariant before payload endInserted scan orig current)
    (h : t.mAreas.entries = below ++ (lo, orig) :: rest)
    (hseen : scan.seenOpen = false) (hc : current.isSome) :
    ∃ t', t.setCloseOpen lo = .ok t' ∧
      t'.mAreas.entries = below ++ (lo, between before (some payload)) :: rest := by
  obtain ⟨value, rfl⟩ := Option.isSome_iff_exists.mp (hinv.opened hseen hc)
  exact PayloadTable.setCloseOpen_spec h hinv.orig_after

-- An open stretch behind the range's begin keeps that begin as it is.
theorem ScanInvariant.of_seenOpen
    (hinv : ScanInvariant before payload endInserted scan orig current)
    (hseen : scan.seenOpen = true ∨ current = none) : orig = between before (some payload) := by
  rcases hinv.orig_eq with ho | ⟨-, hs, hc, -⟩
  · exact ho
  · rcases hseen with hseen | rfl
    · simp [hs] at hseen
    · simp at hc

theorem scanPoint_spec (hinv : ScanInvariant before payload endInserted scan orig current)
    (h : t.mAreas.entries = below ++ (lo, orig) :: rest) {point : Payload T}
    (hfit : point.Fits current) :
    ∃ t' scan' orig', scanPoint t scan lo point = .ok (t', scan') ∧
      t'.mAreas.entries = below ++ (lo, orig') :: rest ∧
      scan'.endCollision = scan.endCollision ∧
      ScanInvariant before payload endInserted scan' orig' point.after := by
  -- a Close or CloseOpen point in front of every Open one ends the stretch `before`
  have hclose (hc : current.isSome) (hseen : scan.seenOpen = false) :=
    hinv.setCloseOpen_spec h hseen hc
  cases point with
  | O data =>
      have hc : current = none := hfit
      refine ⟨t, scan.removeOpen data, orig, ?_, h, rfl, ?_⟩
      · simp [scanPoint, Payload.isClose, Payload.isCloseOpen, Payload.get, bind, Except.bind,
          pure, Except.pure]
      · exact ⟨.inl (hinv.of_seenOpen (.inr hc)), by simp [Scan.removeOpen],
              by simp [Payload.after, Scan.removeOpen], by simp [Scan.removeOpen]⟩
  | X =>
      have hc : current.isSome := hfit
      cases hseen : scan.seenOpen with
      | false =>
          obtain ⟨t', ht, he⟩ := hclose hc hseen
          refine ⟨t', { scan with lastRemovedIsOpen := false }, _, ?_, he, rfl, ?_⟩
          · simp [scanPoint, Payload.isClose, hseen, ht, bind, Except.bind, pure, Except.pure]
          · exact ⟨.inl rfl, by simp [Payload.after], by simp, by simp [Payload.after]⟩
      | true =>
          refine ⟨t, { scan with lastRemovedIsOpen := false }, orig, ?_, h, rfl, ?_⟩
          · simp [scanPoint, Payload.isClose, hseen, bind, Except.bind, pure, Except.pure]
          · exact ⟨.inl (hinv.of_seenOpen (.inl hseen)), by simp [Payload.after], by simp,
              by simp [Payload.after]⟩
  | XO data =>
      have hc : current.isSome := hfit
      cases hseen : scan.seenOpen with
      | false =>
          obtain ⟨t', ht, he⟩ := hclose hc hseen
          refine ⟨t', scan.removeOpen data, _, ?_, he, rfl, ?_⟩
          · simp [scanPoint, Payload.isClose, Payload.isCloseOpen, Payload.get, hseen, ht, bind,
              Except.bind, pure, Except.pure]
          · exact ⟨.inl rfl, by simp [Scan.removeOpen],
              by simp [Payload.after, Scan.removeOpen], by simp [Scan.removeOpen]⟩
      | true =>
          refine ⟨t, scan.removeOpen data, orig, ?_, h, rfl, ?_⟩
          · simp [scanPoint, Payload.isClose, Payload.isCloseOpen, Payload.get, hseen, bind,
              Except.bind, pure, Except.pure]
          · exact ⟨.inl (hinv.of_seenOpen (.inl hseen)), by simp [Scan.removeOpen],
              by simp [Payload.after, Scan.removeOpen], by simp [Scan.removeOpen]⟩

-- The loop of `map` erases the points inside the range and keeps the flags right.
theorem eatMiddle_spec {middle above : List (Nat × Payload T)} {endPoint : Payload T}
    (fuel : Nat) (hinv : ScanInvariant before payload endInserted scan orig current)
    (h : t.mAreas.entries = below ++ (lo, orig) :: (middle ++ (hi, endPoint) :: above))
    (hchain : Chained current middle) (hfuel : middle.length ≤ fuel) :
    ∃ t' scan' orig',
      eatMiddle lo hi fuel t scan ((middle ++ (hi, endPoint) :: above).head?.map Prod.fst) =
        .ok (t', scan') ∧
      t'.mAreas.entries = below ++ (lo, orig') :: (hi, endPoint) :: above ∧
      scan'.endCollision = scan.endCollision ∧
      ScanInvariant before payload endInserted scan' orig' (stateAfter current middle) := by
  induction middle generalizing t scan orig current fuel with
  | nil => exact ⟨t, scan, orig, by cases fuel <;> simp [eatMiddle], h, rfl, hinv⟩
  | cons p middle ih =>
      obtain ⟨key, point⟩ := p
      obtain ⟨fuel, rfl⟩ : ∃ n, fuel = n + 1 := ⟨fuel - 1, by simp at hfuel; omega⟩
      have hp : t.mAreas.entries =
          (below ++ [(lo, orig)]) ++ (key, point) :: (middle ++ (hi, endPoint) :: above) := by
        simp [h]
      have hend : t.mAreas.entries =
          (below ++ (lo, orig) :: (key, point) :: middle) ++ (hi, endPoint) :: above := by simp [h]
      have hlt : key < hi := OrderedMap.lt_of_before hend (key, point) (by simp)
      obtain ⟨t₁, scan₁, orig₁, hscan, he₁, hcoll₁, hinv₁⟩ := scanPoint_spec hinv h hchain.1
      have hp₁ : t₁.mAreas.entries =
          (below ++ [(lo, orig₁)]) ++ (key, point) :: (middle ++ (hi, endPoint) :: above) := by
        simp [he₁]
      have he₂ : (t₁.erase key).mAreas.entries =
          below ++ (lo, orig₁) :: (middle ++ (hi, endPoint) :: above) := by
        simpa using erase_entries hp₁
      obtain ⟨t', scan', orig', hok, he', hcoll', hinv'⟩ :=
        ih fuel hinv₁ he₂ hchain.2 (by simpa using hfuel)
      refine ⟨t', scan', orig', ?_, he', hcoll'.trans hcoll₁, by simpa using hinv'⟩
      rw [eatMiddle, if_neg (by simpa using hlt.ne)]
      simp only [List.cons_append, List.head?_cons, Option.map_some, deref_at hp, hscan, bind, Except.bind, OrderedMap.next_at hp₁]
      exact hok

-- What `map` puts at the ends of its range, and the flag that goes with the end.
structure EndInvariant (payload : T) (endInserted endCollision : Bool) (endPoint : Payload T)
    (current next : Option T) : Prop where
  inserted : endInserted = true → endPoint = .X ∧ endCollision = false ∧ next = current
  present : endInserted = false → endPoint = between (some payload) next ∧
    (endCollision = true → current.isSome) ∧ (endCollision = false → current = none)

theorem closeEnd_spec {next : Option T} {endPoint : Payload T} {above : List (Nat × Payload T)}
    (hinv : ScanInvariant before payload endInserted scan orig current)
    (hend : EndInvariant payload endInserted scan.endCollision endPoint current next)
    (h : t.mAreas.entries = below ++ (lo, orig) :: (hi, endPoint) :: above) :
    ∃ t', closeEnd t scan lo hi = .ok t' ∧
      t'.mAreas.entries = below ++ (lo, between before (some payload)) ::
        (hi, between (some payload) next) :: above := by
  cases endInserted with
  | true =>
      obtain ⟨rfl, hcoll, rfl⟩ := hend.inserted rfl
      have ho : orig = between before (some payload) := by
        rcases hinv.orig_eq with ho | ⟨-, -, -, hf⟩
        · exact ho
        · cases hf
      subst ho
      have h' : t.mAreas.entries = (below ++ [(lo, between before (some payload))]) ++
          (hi, .X) :: above := by simp [h]
      cases hl : scan.lastRemovedIsOpen with
      | true =>
          refine ⟨t.assign hi (.XO scan.lastRemovedOpenPayload), ?_, ?_⟩
          · simp [closeEnd, hcoll, hl]
          · rw [assign_entries h', hinv.last_eq hl]
            simp [between]
      | false =>
          have hn : next = none := by
            by_contra hne
            have := hinv.last_open rfl (Option.isSome_iff_ne_none.mpr hne)
            simp [hl] at this
          refine ⟨t, by simp [closeEnd, hcoll, hl], ?_⟩
          rw [h, hn]
          rfl
  | false =>
      obtain ⟨rfl, hcoll, hnone⟩ := hend.present rfl
      cases hc : scan.endCollision with
      | true =>
          cases hseen : scan.seenOpen with
          | false =>
              obtain ⟨t', ht, he⟩ := hinv.setCloseOpen_spec h hseen (hcoll hc)
              exact ⟨t', by simpa [closeEnd, hc, hseen] using ht, he⟩
          | true =>
              refine ⟨t, by simp [closeEnd, hc, hseen], ?_⟩
              rw [h, hinv.of_seenOpen (.inl hseen)]
      | false =>
          have hcur := hnone hc
          have hl : scan.lastRemovedIsOpen = false := by
            by_contra hne
            have := hinv.last_eq (by simpa using hne)
            simp [hcur] at this
          refine ⟨t, by simp [closeEnd, hc, hl], ?_⟩
          rw [h, hinv.of_seenOpen (.inr hcur)]

section Collide

variable [Inhabited T]

theorem collideBegin_spec {point : Payload T} (payload : T) (endInserted : Bool)
    (h : t.mAreas.entries = below ++ (lo, point) :: rest) (hfit : point.Fits before) :
    ∃ t' scan orig, collideBegin t .start lo payload = .ok (t', scan) ∧
      t'.mAreas.entries = below ++ (lo, orig) :: rest ∧ scan.endCollision = false ∧
      ScanInvariant before payload endInserted scan orig point.after := by
  cases point with
  | O data =>
      have hb : before = none := hfit
      subst hb
      refine ⟨_, Scan.start.removeOpen data, _, ?_, assign_entries h (.O payload), rfl, ?_⟩
      · simp [collideBegin, deref_at h, Payload.isClose, Payload.exchange, bind, Except.bind, pure,
          Except.pure]
      · exact ⟨.inl rfl, by simp [Scan.removeOpen], by simp [Scan.removeOpen, Payload.after],
          by simp [Scan.removeOpen]⟩
  | X =>
      obtain ⟨value, rfl⟩ := Option.isSome_iff_exists.mp (show before.isSome from hfit)
      refine ⟨_, Scan.start, _, ?_, assign_entries h (.XO payload), rfl, ?_⟩
      · simp [collideBegin, deref_at h, Payload.isClose, bind, Except.bind, pure, Except.pure]
      · exact ⟨.inl rfl, by simp [Payload.after], by simp [Scan.start], by simp [Payload.after]⟩
  | XO data =>
      obtain ⟨value, rfl⟩ := Option.isSome_iff_exists.mp (show before.isSome from hfit)
      refine ⟨_, Scan.start.removeOpen data, _, ?_, assign_entries h (.XO payload), rfl, ?_⟩
      · simp [collideBegin, deref_at h, Payload.isClose, Payload.exchange, bind, Except.bind, pure,
          Except.pure]
      · exact ⟨.inl rfl, by simp [Scan.removeOpen], by simp [Scan.removeOpen, Payload.after],
          by simp [Scan.removeOpen]⟩

omit [Inhabited T] in
theorem collideEnd_spec {point : Payload T} {before' : List (Nat × Payload T)}
    {above : List (Nat × Payload T)}
    (h : t.mAreas.entries = before' ++ (hi, point) :: above) (hcoll : scan.endCollision = false) :
    ∃ t' scan' endPoint, collideEnd t scan hi = .ok (t', scan') ∧
      t'.mAreas.entries = before' ++ (hi, endPoint) :: above ∧
      scan' = { scan with endCollision := !point.isOpen, lastRemovedIsOpen := false } ∧
      ∀ payload current, point.Fits current →
        EndInvariant payload false scan'.endCollision endPoint current point.after := by
  cases point with
  | O data =>
      obtain ⟨t', ht, he⟩ := PayloadTable.setCloseOpen_spec h rfl
      refine ⟨t', _, .XO data, ?_, he, rfl, ?_⟩
      · simp [collideEnd, deref_at h, Payload.isOpen, ht, hcoll, bind, Except.bind, pure,
          Except.pure]
      · intro payload current hf
        exact ⟨by simp, fun _ => ⟨rfl, by simp [Payload.isOpen], fun _ => hf⟩⟩
  | X =>
      refine ⟨t, _, .X, ?_, h, rfl, ?_⟩
      · simp [collideEnd, deref_at h, Payload.isOpen, bind, Except.bind, pure, Except.pure]
      · intro payload current hf
        exact ⟨by simp, fun _ => ⟨rfl, fun _ => hf, by simp [Payload.isOpen]⟩⟩
  | XO data =>
      refine ⟨t, _, .XO data, ?_, h, rfl, ?_⟩
      · simp [collideEnd, deref_at h, Payload.isOpen, bind, Except.bind, pure, Except.pure]
      · intro payload current hf
        exact ⟨by simp, fun _ => ⟨rfl, fun _ => hf, by simp [Payload.isOpen]⟩⟩

theorem splitPrevious_spec (payload : T)
    (h : t.mAreas.entries = below ++ (lo, .O payload) :: rest) :
    ∃ t' scan orig, splitPrevious t .start lo = .ok (t', scan) ∧
      t'.mAreas.entries = below ++ (lo, orig) :: rest ∧ scan.endCollision = false ∧
      ScanInvariant (stateAfter none below) payload true scan orig (stateAfter none below) := by
  rcases List.eq_nil_or_concat' below with rfl | ⟨init, ⟨last, point⟩, rfl⟩
  · have hb : t.mAreas.begin = some lo := by simp [OrderedMap.begin, h]
    refine ⟨t, .start, .O payload, ?_, h, rfl, ?_⟩
    · simp [splitPrevious, hb, pure, Except.pure]
    · exact ⟨.inl rfl, by simp, by simp [Scan.start], by simp⟩
  · have hat : t.mAreas.entries = init ++ (last, point) :: (lo, .O payload) :: rest := by
      simpa using h
    have hb : some lo ≠ t.mAreas.begin := by
      have hlt := OrderedMap.lt_of_before h
      cases init with
      | nil => simpa [OrderedMap.begin, h] using (hlt (last, point) (by simp)).ne'
      | cons q init => simpa [OrderedMap.begin, h] using (hlt q (by simp)).ne'
    have hopen (data : T) (hd : point.after = some data) (hc : point.isClose = false)
        (hg : point.get = .ok data) :
        ∃ t' scan orig, splitPrevious t .start lo = .ok (t', scan) ∧
          t'.mAreas.entries = init ++ [(last, point)] ++ (lo, orig) :: rest ∧
          scan.endCollision = false ∧
          ScanInvariant (some data) payload true scan orig (some data) := by
      obtain ⟨t', ht, he⟩ := PayloadTable.setCloseOpen_spec h rfl
      refine ⟨t', Scan.start.removeOpen data, .XO payload, ?_, he, rfl, ?_⟩
      · simp [splitPrevious, hb, stdPrev_at hat, deref_at hat, hc, hg, ht, bind, Except.bind, pure,
          Except.pure]
      · exact ⟨.inl rfl, by simp, by simp [Scan.removeOpen], by simp [Scan.removeOpen]⟩
    cases point with
    | O data => simpa [Payload.after] using hopen data rfl rfl rfl
    | XO data => simpa [Payload.after] using hopen data rfl rfl rfl
    | X =>
        refine ⟨t, .start, .O payload, ?_, h, rfl, ?_⟩
        · simp [splitPrevious, hb, stdPrev_at hat, deref_at hat, Payload.isClose, bind, Except.bind,
            pure, Except.pure]
        · simpa [Payload.after] using
            (⟨.inl rfl, by simp, by simp [Scan.start], by simp⟩ :
              ScanInvariant none payload true Scan.start (.O payload) none)

-- Both ends of the range, with the points `atLo` and `atHi` that were there before.
theorem collide_spec (payload : T) {middle above : List (Nat × Payload T)}
    (atLo atHi : Option (Payload T))
    (h : t.mAreas.entries = below ++ (lo, atLo.getD (.O payload)) ::
      (middle ++ (hi, atHi.getD .X) :: above))
    (hlo : ∀ p, atLo = some p → p.Fits (stateAfter none below))
    (hhi : ∀ p, atHi = some p → p.Fits (stateAfter (stateAfter none below)
      (atLo.toList.map (lo, ·) ++ middle))) :
    ∃ t' scan orig endPoint,
      collide t lo hi atLo.isNone atHi.isNone payload = .ok (t', scan) ∧
      t'.mAreas.entries = below ++ (lo, orig) :: (middle ++ (hi, endPoint) :: above) ∧
      ScanInvariant (stateAfter none below) payload atHi.isNone scan orig
        (stateAfter (stateAfter none below) (atLo.toList.map (lo, ·))) ∧
      EndInvariant payload atHi.isNone scan.endCollision endPoint
        (stateAfter (stateAfter none below) (atLo.toList.map (lo, ·) ++ middle))
        (stateAfter (stateAfter none below)
          (atLo.toList.map (lo, ·) ++ middle ++ atHi.toList.map (hi, ·))) := by
  generalize hbefore : stateAfter none below = before at *
  -- an end that is there already, with the flags the begin left
  have hpresent {t₁ : PayloadTable T} {scan₁ : Scan T} {orig : Payload T} {p : Payload T}
      {current last : Option T}
      (h₁ : t₁.mAreas.entries = below ++ (lo, orig) :: (middle ++ (hi, p) :: above))
      (hcoll : scan₁.endCollision = false) (hp : p.Fits last)
      (hinv : ScanInvariant before payload false scan₁ orig current) :
      ∃ t' scan endPoint, collideEnd t₁ scan₁ hi = .ok (t', scan) ∧
        t'.mAreas.entries = below ++ (lo, orig) :: (middle ++ (hi, endPoint) :: above) ∧
        ScanInvariant before payload false scan orig current ∧
        EndInvariant payload false scan.endCollision endPoint last p.after := by
    have h₂ : t₁.mAreas.entries = (below ++ (lo, orig) :: middle) ++ (hi, p) :: above := by
      simp [h₁]
    obtain ⟨t', scan, endPoint, hok, he, rfl, hend⟩ := collideEnd_spec h₂ hcoll
    refine ⟨t', _, endPoint, hok, by simpa using he, ?_, hend payload last hp⟩
    exact ⟨hinv.orig_eq, hinv.opened, by simp, by simp⟩
  cases atLo with
  | none =>
      cases atHi with
      | none =>
          obtain ⟨t', scan, orig, hok, he, hcoll, hinv⟩ := splitPrevious_spec payload h
          refine ⟨t', scan, orig, .X, by simpa [collide] using hok, he, ?_, ?_⟩
          · simpa [hbefore] using hinv
          · exact ⟨fun _ => ⟨rfl, hcoll, by simp⟩, by simp⟩
      | some p =>
          have hstart : ScanInvariant before payload false Scan.start (.O payload) before := by
            refine ⟨?_, fun _ hs => hs, by simp [Scan.start], by simp⟩
            cases before with
            | none => exact .inl rfl
            | some value => exact .inr ⟨rfl, rfl, rfl, rfl⟩
          obtain ⟨t', scan, endPoint, hok, he, hinv, hend⟩ :=
            hpresent h rfl (hhi p rfl) hstart
          refine ⟨t', scan, .O payload, endPoint, ?_, he, by simpa using hinv, by simpa using hend⟩
          simpa [collide, bind, Except.bind, pure, Except.pure] using hok
  | some q =>
      obtain ⟨t₁, scan₁, orig, hok₁, h₁, hcoll, hinv₁⟩ :=
        collideBegin_spec payload atHi.isNone h (hlo q rfl)
      cases atHi with
      | none =>
          refine ⟨t₁, scan₁, orig, .X, ?_, h₁, by simpa using hinv₁, ?_⟩
          · simp [collide, hok₁, bind, Except.bind, pure, Except.pure]
          · exact ⟨fun _ => ⟨rfl, hcoll, by simp⟩, by simp⟩
      | some p =>
          obtain ⟨t', scan, endPoint, hok, he, hinv, hend⟩ :=
            hpresent h₁ hcoll (hhi p rfl) hinv₁
          refine ⟨t', scan, orig, endPoint, ?_, he, by simpa using hinv, by simpa using hend⟩
          simpa [collide, hok₁, bind, Except.bind, pure, Except.pure] using hok

end Collide

end Loop

end PayloadTable

end Rpcsx.MemoryTable
