import Mathlib.Data.List.Basic
import Mathlib.Data.Set.Insert
import Mathlib.Tactic.Linarith
import Rpcsx.Data.Machine

namespace Rpcsx

-- `utils::address_range`: the first and the last address, both of 32 bits.
structure AddressRange where
  start : Nat
  stop : Nat
  start_lt : start < 2 ^ 32
  stop_lt : stop < 2 ^ 32

namespace AddressRange

instance decEq : DecidableEq AddressRange := fun r r' =>
  decidable_of_iff (r.start = r'.start ∧ r.stop = r'.stop) (by
    cases r
    cases r'
    simp)

theorem zero_lt_size : 0 < 2 ^ 32 := by omega

-- `address_range{}`, which is what `invalidate` leaves.
def invalid : AddressRange := ⟨2 ^ 32 - 1, 0, by omega, zero_lt_size⟩

def valid (r : AddressRange) : Bool := r.start ≤ r.stop

-- Both wrap around the end of the address space.
def nextAddress (r : AddressRange) : Nat := (r.stop + 1) % 2 ^ 32

def prevAddress (r : AddressRange) : Nat := (r.start + (2 ^ 32 - 1)) % 2 ^ 32

def overlaps (r other : AddressRange) : Bool := r.start ≤ other.stop ∧ other.start ≤ r.stop

def overlapsAddress (r : AddressRange) (address : Nat) : Bool :=
  r.start ≤ address ∧ address ≤ r.stop

def inside (r other : AddressRange) : Bool := r.start ≥ other.start ∧ r.stop ≤ other.stop

def touches (r other : AddressRange) : Bool :=
  r.overlaps other || other.start == r.nextAddress || other.stop == r.prevAddress

def getMinMax (r other : AddressRange) : AddressRange where
  start := min (if r.valid then r.start else 2 ^ 32 - 1) (if other.valid then other.start else 2 ^ 32 - 1)
  stop := max (if r.valid then r.stop else 0) (if other.valid then other.stop else 0)
  start_lt := by
    have := r.start_lt
    have := other.start_lt
    split <;> split <;> omega
  stop_lt := by
    have := r.stop_lt
    have := other.stop_lt
    split <;> split <;> omega

def withStart (r : AddressRange) (start : Nat) : AddressRange :=
  ⟨start % 2 ^ 32, r.stop, Nat.mod_lt _ zero_lt_size, r.stop_lt⟩

def withStop (r : AddressRange) (stop : Nat) : AddressRange :=
  ⟨r.start, stop % 2 ^ 32, r.start_lt, Nat.mod_lt _ zero_lt_size⟩

@[simp] theorem withStart_start (r : AddressRange) (start : Nat) :
    (r.withStart start).start = start % 2 ^ 32 := rfl

@[simp] theorem withStop_start (r : AddressRange) (stop : Nat) :
    (r.withStop stop).start = r.start := rfl

end AddressRange

-- `utils::address_range_vector`
abbrev AddressRangeVector : Type := List AddressRange

namespace AddressRangeVector

open AddressRange

-- The loop of `merge`: `before` are the members it has passed, `found` and `invalid` point at one
-- of them.
def mergeLoop (newRange : AddressRange) (before : AddressRangeVector) (found invalid : Option Nat) :
    AddressRangeVector → AddressRangeVector × Option Nat × Option Nat
  | [] => (before, found, invalid)
  | existing :: rest =>
      if !existing.valid then
        mergeLoop newRange (before ++ [existing]) found (some before.length) rest
      else if existing.touches newRange then
        match found with
        | some k =>
            mergeLoop newRange (before.modify k (·.getMinMax existing) ++ [.invalid]) found invalid
              rest
        | none =>
            mergeLoop newRange (before ++ [existing.getMinMax newRange]) (some before.length) invalid
              rest
      else mergeLoop newRange (before ++ [existing]) found invalid rest

def merge (data : AddressRangeVector) (newRange : AddressRange) : AddressRangeVector :=
  if !newRange.valid then data
  else
    match mergeLoop newRange [] none none data with
    | (data, some _, _) => data
    | (data, none, some k) => data.set k newRange
    | (data, none, none) => data ++ [newRange]

-- The loop of `exclude`: `pushed` are the members it has put behind the others.
def excludeLoop (exclusion : AddressRange) (before pushed : AddressRangeVector)
    (invalid : Option Nat) : AddressRangeVector → AddressRangeVector
  | [] => before ++ pushed
  | existing :: rest =>
      if !existing.valid then
        excludeLoop exclusion (before ++ [existing]) pushed (some before.length) rest
      else if !existing.overlaps exclusion then
        excludeLoop exclusion (before ++ [existing]) pushed invalid rest
      else if exclusion.overlapsAddress existing.start && exclusion.overlapsAddress existing.stop then
        excludeLoop exclusion (before ++ [.invalid]) pushed (some before.length) rest
      else if exclusion.overlapsAddress existing.start then
        excludeLoop exclusion (before ++ [existing.withStart exclusion.nextAddress]) pushed invalid
          rest
      else if exclusion.overlapsAddress existing.stop then
        excludeLoop exclusion (before ++ [existing.withStop exclusion.prevAddress]) pushed invalid
          rest
      else
        match invalid with
        | some k =>
            excludeLoop exclusion
              (before.set k (existing.withStart exclusion.nextAddress) ++
                [existing.withStop exclusion.prevAddress]) pushed none rest
        | none =>
            excludeLoop exclusion (before ++ [existing.withStop exclusion.prevAddress])
              (pushed ++ [existing.withStart exclusion.nextAddress]) none rest

def exclude (data : AddressRangeVector) (exclusion : AddressRange) : AddressRangeVector :=
  if !exclusion.valid then data else excludeLoop exclusion [] [] none data

def checkConsistency : AddressRangeVector → Bool
  | [] => true
  | r1 :: rest =>
      (!r1.valid || rest.all fun r2 => !r2.valid || !r1.touches r2) && checkConsistency rest

def overlaps (data : AddressRangeVector) (range : AddressRange) : Bool :=
  data.any fun cur => cur.valid && cur.overlaps range

def overlapsVector (data other : AddressRangeVector) : Bool :=
  data.any fun rng1 => rng1.valid && other.any fun rng2 => rng2.valid && rng1.overlaps rng2

-- "Test if a given range is fully contained inside this vector"
def contains (data : AddressRangeVector) (range : AddressRange) : Bool :=
  data.any fun cur => cur.valid && cur.inside range

-- "Test if all ranges in this vector are full contained inside a specific range"
def inside (data : AddressRangeVector) (range : AddressRange) : Bool :=
  data.all fun cur => !cur.valid || cur.inside range

inductive Call where
  | merge (range : AddressRange)
  | exclude (range : AddressRange)

def step (data : AddressRangeVector) : Call → AddressRangeVector × Unit
  | .merge range => (data.merge range, ())
  | .exclude range => (data.exclude range, ())

end AddressRangeVector

-- `address_range::inside` and `address_range::overlaps` of a vector
def AddressRange.insideVector (r : AddressRange) (vec : AddressRangeVector) : Bool :=
  vec.contains r

def AddressRange.overlapsVector (r : AddressRange) (vec : AddressRangeVector) : Bool :=
  vec.overlaps r

end Rpcsx
