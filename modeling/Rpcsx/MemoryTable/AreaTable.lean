import Mathlib
import Rpcsx.MemoryTable.PayloadTable

namespace Rpcsx.MemoryTable

open Rpcsx.Data

structure AreaInfo where
  beginAddress : Nat
  endAddress : Nat
  deriving DecidableEq, Repr

namespace AreaTable

inductive Kind where
  | O
  | X
  deriving DecidableEq, Repr

end AreaTable

-- `MemoryAreaTable`: `invalidated` lists the addresses its invalidation handle was given,
-- the latest first.
structure AreaTable where
  mAreas : OrderedMap Nat AreaTable.Kind
  invalidated : List Nat

namespace AreaTable

def empty : AreaTable := ⟨.empty, []⟩

def handleInvalidation (t : AreaTable) (address : Nat) : AreaTable :=
  { t with invalidated := address :: t.invalidated }

def erase (t : AreaTable) (key : Nat) : AreaTable :=
  { t with mAreas := t.mAreas.erase key }

def emplace (t : AreaTable) (key : Nat) (kind : Kind) : AreaTable :=
  { t with mAreas := (t.mAreas.emplace key kind).1 }

-- The begin of the mapped range: an existing point, the open point of an area that the
-- range extends, or the point just inserted.
def extendBegin (t : AreaTable) (beginIt : Nat) (beginInserted : Bool) :
    Except Fault (AreaTable × Nat) := do
  let point ← deref t.mAreas (some beginIt)
  if !beginInserted then
    if point.2 = .X then
      check (some beginIt ≠ t.mAreas.begin)
      return (t, ← stdPrev t.mAreas (some beginIt))
    return (t, beginIt)
  if some beginIt ≠ t.mAreas.begin then
    let prevRangePointIt ← stdPrev t.mAreas (some beginIt)
    let prevPoint ← deref t.mAreas (some prevRangePointIt)
    if prevPoint.2 = .O then
      return ((t.handleInvalidation beginIt).erase beginIt, prevRangePointIt)
  return (t, beginIt)

def extendEnd (t : AreaTable) (endIt : Nat) (endInserted : Bool) :
    Except Fault (AreaTable × Option Nat) := do
  let point ← deref t.mAreas (some endIt)
  if !endInserted then
    if point.2 = .O then
      return (t, ← stdNext t.mAreas (some endIt))
    return (t, some endIt)
  match ← stdNext t.mAreas (some endIt) with
  | none => return (t, some endIt)
  | some nextRangePointIt =>
      let nextPoint ← deref t.mAreas (some nextRangePointIt)
      if nextPoint.2 = .X then
        let last ← stdPrev t.mAreas (some endIt)
        return ((t.handleInvalidation last).erase endIt, some nextRangePointIt)
      return (t, some endIt)

-- `while (beginIt != endIt)` of `map`. Each round erases one point, so the number of
-- points bounds the rounds.
def eatMiddle : Nat → AreaTable → Option Nat → Option Nat → Except Fault AreaTable
  | 0, t, beginIt, endIt => if beginIt = endIt then .ok t else .error .dereferenceOfEnd
  | fuel + 1, t, beginIt, endIt =>
      if beginIt = endIt then .ok t else do
        let t := t.handleInvalidation (← stdPrev t.mAreas endIt)
        let point ← deref t.mAreas beginIt
        eatMiddle fuel (t.erase point.1) (t.mAreas.next point.1) endIt

def map (t : AreaTable) (beginAddress endAddress : Nat) : Except Fault AreaTable := do
  let (areas, beginInserted) := t.mAreas.emplace beginAddress .O
  let (areas, endInserted) := areas.emplace endAddress .X
  let (t, beginIt) ← extendBegin { t with mAreas := areas } beginAddress beginInserted
  let (t, endIt) ← extendEnd t endAddress endInserted
  eatMiddle t.mAreas.size t (← stdNext t.mAreas (some beginIt)) endIt

-- `while` loop of `unmap`: erases the points up to the end of the range and returns the
-- kind of the last one erased.
def eatUpTo (endAddress : Nat) :
    Nat → AreaTable → Option Nat → Kind → Except Fault (AreaTable × Kind)
  | 0, t, beginIt, lastKind =>
      if beginIt = none then .ok (t, lastKind) else .error .dereferenceOfEnd
  | fuel + 1, t, beginIt, lastKind =>
      match beginIt with
      | none => .ok (t, lastKind)
      | some key => do
          let point ← deref t.mAreas (some key)
          if point.1 ≤ endAddress then
            let t ← if point.2 = .O then
                pure (t.handleInvalidation (← stdPrev t.mAreas (some key)))
              else pure t
            eatUpTo endAddress fuel (t.erase key) (t.mAreas.next key) point.2
          else .ok (t, lastKind)

-- The tail of `unmap`, from its test whether an area ends inside the range.
def unmapFrom (t : AreaTable) (beginAddress endAddress : Nat) (beginIt : Nat) :
    Except Fault AreaTable := do
  let point ← deref t.mAreas (some beginIt)
  let (t, beginIt) ←
    if point.1 > beginAddress ∧ point.2 = .X then do
      let t := t.handleInvalidation (← stdPrev t.mAreas (some beginIt))
      let t := (t.emplace beginAddress .X).erase beginIt
      pure (t, ← stdNext t.mAreas (some beginAddress))
    else if point.2 = .X then do
      pure (t, ← stdNext t.mAreas (some beginIt))
    else pure (t, some beginIt)
  let (t, lastKind) ← eatUpTo endAddress t.mAreas.size t beginIt .X
  if lastKind ≠ .O then return t
  return t.emplace endAddress .O

def unmap (t : AreaTable) (beginAddress endAddress : Nat) : Except Fault AreaTable := do
  match t.mAreas.lowerBound beginAddress with
  | none => return t
  | some beginIt =>
      let point ← deref t.mAreas (some beginIt)
      if point.1 ≥ endAddress then
        if point.2 ≠ .X then return t
        let prevEnd := point.1
        let openIt ← stdPrev t.mAreas (some beginIt)
        let openPoint ← deref t.mAreas (some openIt)
        if openPoint.1 ≥ endAddress then return t
        let (t, beginIt) :=
          if openPoint.1 < beginAddress then
            ((t.handleInvalidation openPoint.1).emplace beginAddress .X, beginAddress)
          else (t, openIt)
        if prevEnd > endAddress then return t.emplace endAddress .O
        unmapFrom t beginAddress endAddress beginIt
      else unmapFrom t beginAddress endAddress beginIt

def queryArea (t : AreaTable) (address : Nat) : Except Fault AreaInfo := do
  let it := t.mAreas.lowerBound address
  check it.isSome
  let point ← deref t.mAreas it
  if point.1 ≠ address then
    check (point.2 = .X)
    return ⟨← stdPrev t.mAreas it, point.1⟩
  check (point.2 = .O)
  let last ← deref t.mAreas (← stdNext t.mAreas it)
  return ⟨point.1, last.1⟩

-- Iteration from `begin()` to `end()`, two points at a time.
def areasFrom : List (Nat × Kind) → Except Fault (List AreaInfo)
  | [] => .ok []
  | [_] => .error .dereferenceOfEnd
  | (first, _) :: (last, _) :: rest => do
      let tail ← areasFrom rest
      return ⟨first, last⟩ :: tail

def areas (t : AreaTable) : Except Fault (List AreaInfo) := areasFrom t.mAreas.entries

def totalMemoryFrom (result : Nat) : List (Nat × Kind) → Except Fault Nat
  | [] => .ok result
  | [_] => .error .dereferenceOfEnd
  | (rangeBegin, _) :: (rangeEnd, _) :: rest =>
      totalMemoryFrom ((result + (rangeEnd - rangeBegin)) % 2 ^ 64) rest

def totalMemory (t : AreaTable) : Except Fault Nat := totalMemoryFrom 0 t.mAreas.entries

end AreaTable

end Rpcsx.MemoryTable
