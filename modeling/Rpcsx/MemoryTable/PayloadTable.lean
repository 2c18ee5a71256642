import Rpcsx.Data.OrderedMap

namespace Rpcsx.MemoryTable

open Rpcsx.Data

-- What an iterator operation may not do, and the assertions of the tables.
inductive Fault where
  | prevOfFirst
  | incrementOfEnd
  | dereferenceOfEnd
  | assertion
  deriving DecidableEq, Repr

section Iterators

variable {α : Type} (areas : OrderedMap Nat α)

def stdPrev (it : Option Nat) : Except Fault Nat :=
  match it with
  | none => ((areas.entries.getLast?.map Prod.fst).map .ok).getD (.error .prevOfFirst)
  | some key => ((areas.prev key).map .ok).getD (.error .prevOfFirst)

def stdNext (it : Option Nat) : Except Fault (Option Nat) :=
  match it with
  | none => .error .incrementOfEnd
  | some key => .ok (areas.next key)

def deref (it : Option Nat) : Except Fault (Nat × α) :=
  match it with
  | none => .error .dereferenceOfEnd
  | some key => ((areas.find? key).map fun value => .ok (key, value)).getD
      (.error .dereferenceOfEnd)

end Iterators

section Cursor

variable {α : Type} {areas : OrderedMap Nat α} {before after : List (Nat × α)} {key : Nat}
  {value : α}

theorem deref_at (h : areas.entries = before ++ (key, value) :: after) :
    deref areas (some key) = .ok (key, value) := by
  simp [deref, OrderedMap.find?_at h]

theorem stdNext_at (h : areas.entries = before ++ (key, value) :: after) :
    stdNext areas (some key) = .ok (after.head?.map Prod.fst) := by
  simp [stdNext, OrderedMap.next_at h]

theorem stdPrev_at {last : Nat} {lastValue : α}
    (h : areas.entries = before ++ (last, lastValue) :: (key, value) :: after) :
    stdPrev areas (some key) = .ok last := by
  have h' : areas.entries = (before ++ [(last, lastValue)]) ++ (key, value) :: after := by simp [h]
  simp [stdPrev, OrderedMap.prev_at h']

theorem exists_stdPrev (h : areas.entries = before ++ (key, value) :: after) (hb : before ≠ []) :
    ∃ last, stdPrev areas (some key) = .ok last := by
  obtain ⟨init, ⟨last, lastValue⟩, rfl⟩ := (List.eq_nil_or_concat' _).resolve_left hb
  exact ⟨last, stdPrev_at (by simpa using h)⟩

theorem stdPrev_first (h : areas.entries = (key, value) :: after) :
    stdPrev areas (some key) = .error .prevOfFirst := by
  have h' : areas.entries = [] ++ (key, value) :: after := h
  simp [stdPrev, OrderedMap.prev_at h']

end Cursor

def check (condition : Bool) : Except Fault Unit :=
  if condition then .ok () else .error .assertion

end Rpcsx.MemoryTable

namespace Rpcsx.MemoryTable

open Rpcsx.Data

inductive Payload (T : Type) where
  | O (data : T)
  | X
  | XO (data : T)
  deriving DecidableEq, Repr

namespace Payload

variable {T : Type}

def isOpen : Payload T → Bool
  | O _ => true
  | _ => false

def isClose : Payload T → Bool
  | X => true
  | _ => false

def isCloseOpen : Payload T → Bool
  | XO _ => true
  | _ => false

def get : Payload T → Except Fault T
  | O data => .ok data
  | X => .error .assertion
  | XO data => .ok data

-- Returns the old payload next to the point that holds the new one.
def exchange (data : T) : Payload T → Except Fault (T × Payload T)
  | O old => .ok (old, O data)
  | X => .error .assertion
  | XO old => .ok (old, XO data)

def setCloseOpen : Payload T → Except Fault (Payload T)
  | O data => .ok (XO data)
  | X => .error .assertion
  | XO data => .ok (XO data)

def setOpen : Payload T → Except Fault (Payload T)
  | O data => .ok (O data)
  | X => .error .assertion
  | XO data => .ok (O data)

end Payload

-- `MemoryTableWithPayload`.
structure PayloadTable (T : Type) where
  mAreas : OrderedMap Nat (Payload T)

namespace PayloadTable

structure AreaInfo (T : Type) where
  beginAddress : Nat
  endAddress : Nat
  payload : T
  deriving DecidableEq, Repr

variable {T : Type}

def empty : PayloadTable T := ⟨.empty⟩

def assign (t : PayloadTable T) (key : Nat) (point : Payload T) : PayloadTable T :=
  ⟨t.mAreas.assign key point⟩

def erase (t : PayloadTable T) (key : Nat) : PayloadTable T := ⟨t.mAreas.erase key⟩

def setCloseOpen (t : PayloadTable T) (it : Nat) : Except Fault (PayloadTable T) := do
  let point ← deref t.mAreas (some it)
  return t.assign it (← point.2.setCloseOpen)

-- `operator*` of the iterator.
def areaAt (t : PayloadTable T) (it : Option Nat) : Except Fault (AreaInfo T) := do
  let point ← deref t.mAreas it
  let endPoint ← deref t.mAreas (← stdNext t.mAreas it)
  return ⟨point.1, endPoint.1, ← point.2.get⟩

-- `operator++` of the iterator.
def increment (t : PayloadTable T) (it : Option Nat) : Except Fault (Option Nat) := do
  let it ← stdNext t.mAreas it
  let point ← deref t.mAreas it
  if !point.2.isCloseOpen then
    stdNext t.mAreas it
  else
    return it

-- Iteration up to `end()`. Each step leaves a point behind, so the number of points bounds
-- the steps.
def areasFrom (t : PayloadTable T) : Nat → Option Nat → Except Fault (List (AreaInfo T))
  | 0, it => if it = none then .ok [] else .error .dereferenceOfEnd
  | fuel + 1, it =>
      if it = none then .ok [] else do
        let area ← t.areaAt it
        let rest ← areasFrom t fuel (← t.increment it)
        return area :: rest

def areas (t : PayloadTable T) : Except Fault (List (AreaInfo T)) :=
  t.areasFrom t.mAreas.size t.mAreas.begin

def lowerBound (t : PayloadTable T) (address : Nat) : Except Fault (Option Nat) := do
  match t.mAreas.lowerBound address with
  | none => return none
  | some it =>
      let point ← deref t.mAreas (some it)
      if point.1 = address then
        if point.2.isClose then stdNext t.mAreas (some it) else return some it
      else
        if !point.2.isOpen then return some (← stdPrev t.mAreas (some it)) else return some it

def queryArea (t : PayloadTable T) (address : Nat) : Except Fault (Option Nat) := do
  match t.mAreas.lowerBound address with
  | none => return none
  | some it =>
      let point ← deref t.mAreas (some it)
      if point.1 = address then
        if point.2.isClose then return none
        let endPoint ← deref t.mAreas (← stdNext t.mAreas (some it))
        return if endPoint.1 < address then none else some it
      else
        if point.2.isOpen then return none
        let openIt ← stdPrev t.mAreas (some it)
        return if point.1 < address then none else some openIt

-- The local variables of `map` that its loop carries along.
structure Scan (T : Type) where
  seenOpen : Bool
  endCollision : Bool
  lastRemovedIsOpen : Bool
  lastRemovedOpenPayload : T

def Scan.removeOpen (scan : Scan T) (payload : T) : Scan T :=
  { scan with seenOpen := true, lastRemovedIsOpen := true, lastRemovedOpenPayload := payload }

section Map

variable [Inhabited T]

def Scan.start : Scan T := ⟨false, false, false, default⟩

-- The begin of the range is a point already.
def collideBegin (t : PayloadTable T) (scan : Scan T) (beginIt : Nat) (payload : T) :
    Except Fault (PayloadTable T × Scan T) := do
  let point ← deref t.mAreas (some beginIt)
  if point.2.isClose then
    return (t.assign beginIt (.XO payload), scan)
  let (old, new) ← point.2.exchange payload
  return (t.assign beginIt new, scan.removeOpen old)

-- The end of the range is a point already.
def collideEnd (t : PayloadTable T) (scan : Scan T) (endIt : Nat) :
    Except Fault (PayloadTable T × Scan T) := do
  let point ← deref t.mAreas (some endIt)
  if point.2.isOpen then
    return (← t.setCloseOpen endIt, { scan with lastRemovedIsOpen := false })
  return (t, { scan with endCollision := true, lastRemovedIsOpen := false })

-- Both ends are new points.
def splitPrevious (t : PayloadTable T) (scan : Scan T) (beginIt : Nat) :
    Except Fault (PayloadTable T × Scan T) := do
  if some beginIt = t.mAreas.begin then return (t, scan)
  let prev ← deref t.mAreas (some (← stdPrev t.mAreas (some beginIt)))
  if prev.2.isClose then return (t, scan)
  return (← t.setCloseOpen beginIt, scan.removeOpen (← prev.2.get))

def collide (t : PayloadTable T) (beginIt endIt : Nat) (beginInserted endInserted : Bool)
    (payload : T) : Except Fault (PayloadTable T × Scan T) := do
  if !beginInserted || !endInserted then
    let (t, scan) ←
      if !beginInserted then collideBegin t .start beginIt payload else pure (t, .start)
    if !endInserted then collideEnd t scan endIt else return (t, scan)
  else splitPrevious t .start beginIt

end Map

-- The body of the loop of `map`, up to the erasure of the point.
def scanPoint (t : PayloadTable T) (scan : Scan T) (origBegin : Nat) (point : Payload T) :
    Except Fault (PayloadTable T × Scan T) := do
  if point.isClose then
    let t ← if !scan.seenOpen then t.setCloseOpen origBegin else pure t
    return (t, { scan with lastRemovedIsOpen := false })
  else
    let t ← if !scan.seenOpen && point.isCloseOpen then t.setCloseOpen origBegin else pure t
    return (t, scan.removeOpen (← point.get))

-- `while (beginIt != endIt)` of `map`. Each round erases one point.
def eatMiddle (origBegin endIt : Nat) :
    Nat → PayloadTable T → Scan T → Option Nat → Except Fault (PayloadTable T × Scan T)
  | 0, t, scan, beginIt => if beginIt = some endIt then .ok (t, scan) else .error .dereferenceOfEnd
  | fuel + 1, t, scan, beginIt =>
      if beginIt = some endIt then .ok (t, scan) else do
        let point ← deref t.mAreas beginIt
        let (t, scan) ← scanPoint t scan origBegin point.2
        eatMiddle origBegin endIt fuel (t.erase point.1) scan (t.mAreas.next point.1)

def closeEnd (t : PayloadTable T) (scan : Scan T) (origBegin endIt : Nat) :
    Except Fault (PayloadTable T) :=
  if scan.endCollision && !scan.seenOpen then t.setCloseOpen origBegin
  else if scan.lastRemovedIsOpen && !scan.endCollision then
    .ok (t.assign endIt (.XO scan.lastRemovedOpenPayload))
  else .ok t

def mergeBegin [DecidableEq T] (t : PayloadTable T) (origBegin : Nat) :
    Except Fault (PayloadTable T × Nat) := do
  let point ← deref t.mAreas (some origBegin)
  if point.2.isCloseOpen then
    let prevBegin ← stdPrev t.mAreas (some origBegin)
    let prevPoint ← deref t.mAreas (some prevBegin)
    if (← prevPoint.2.get) = (← point.2.get) then
      return (t.erase origBegin, prevBegin)
  return (t, origBegin)

def mergeEnd [DecidableEq T] (t : PayloadTable T) (origBegin endIt : Nat) :
    Except Fault (PayloadTable T) := do
  let point ← deref t.mAreas (some endIt)
  if point.2.isCloseOpen then
    let beginPoint ← deref t.mAreas (some origBegin)
    if (← point.2.get) = (← beginPoint.2.get) then
      return t.erase endIt
  return t

def map [DecidableEq T] [Inhabited T] (t : PayloadTable T) (beginAddress endAddress : Nat)
    (payload : T) (merge noOverride : Bool) : Except Fault (PayloadTable T × Nat) := do
  check (beginAddress < endAddress)
  let (areas, beginInserted) := t.mAreas.emplace beginAddress (.O payload)
  let (areas, endInserted) := areas.emplace endAddress .X
  if noOverride && !beginInserted && !endInserted &&
      areas.next beginAddress = some endAddress then
    return (⟨areas⟩, beginAddress)
  let (t, scan) ← collide ⟨areas⟩ beginAddress endAddress beginInserted endInserted payload
  let (t, scan) ← eatMiddle beginAddress endAddress t.mAreas.size t scan
    (← stdNext t.mAreas (some beginAddress))
  let t ← closeEnd t scan beginAddress endAddress
  if !merge then return (t, beginAddress)
  let (t, origBegin) ← mergeBegin t beginAddress
  return (← mergeEnd t origBegin endAddress, origBegin)

-- `unmap` of the area an iterator stands at.
def unmapArea (t : PayloadTable T) (openIt : Nat) : Except Fault (PayloadTable T) := do
  let openPoint ← deref t.mAreas (some openIt)
  let closeIt ← stdNext t.mAreas (some openIt)
  let t := if openPoint.2.isCloseOpen then t.assign openIt .X else t.erase openIt
  let closePoint ← deref t.mAreas closeIt
  if closePoint.2.isCloseOpen then
    return t.assign closePoint.1 (← closePoint.2.setOpen)
  else
    return t.erase closePoint.1

def unmap [DecidableEq T] [Inhabited T] (t : PayloadTable T) (beginAddress endAddress : Nat) :
    Except Fault (PayloadTable T) := do
  let (t, it) ← t.map beginAddress endAddress default false false
  t.unmapArea it

end PayloadTable

end Rpcsx.MemoryTable
