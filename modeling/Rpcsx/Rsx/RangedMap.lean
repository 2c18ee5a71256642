import Mathlib.Data.List.Nodup
import Mathlib.Data.List.Range
import Mathlib.Logic.Function.Basic
import Mathlib.Logic.Relation
import Rpcsx.AddressRange
import Rpcsx.Data.Interleaving

namespace Rpcsx.Rsx

-- The entries of a block stand in the order in which its unordered map iterates.
structure RangedMap (T : Type) where
  data : Nat → List (Nat × T)
  headBlock : Nat → Nat

namespace RangedMap

-- `m_current` is null at the end, `m_end` is the last block of the range, and `m_it` is given by
-- its place in the block.
structure Iterator where
  current : Option Nat
  stop : Nat
  it : Nat

variable {T : Type}

def empty : RangedMap T := ⟨fun _ => [], fun _ => 2 ^ 32 - 1⟩

section Operations

variable (blockSize : Nat) (m : RangedMap T)

def blockFor (address : Nat) : Nat := address / blockSize

def broadcastInsert (range : AddressRange) : RangedMap T where
  data := m.data
  headBlock := fun block =>
    if blockFor blockSize range.start ≤ block ∧ block ≤ blockFor blockSize range.stop then
      min (blockFor blockSize range.start) (m.headBlock block)
    else m.headBlock block

def insertOrAssign (block : List (Nat × T)) (key : Nat) (value : T) : List (Nat × T) :=
  (key, value) :: block.filter fun entry => decide (entry.1 ≠ key)

-- `entries` is the block after `insert_or_assign`, which may reorder it.
def emplace (range : AddressRange) (entries : List (Nat × T)) : RangedMap T where
  data := Function.update m.data (blockFor blockSize range.start) entries
  headBlock := (m.broadcastInsert blockSize range).headBlock

def eraseAddress (address : Nat) : RangedMap T where
  data := Function.update m.data (blockFor blockSize address)
    ((m.data (blockFor blockSize address)).filter fun entry => decide (entry.1 ≠ address))
  headBlock := m.headBlock

end Operations

section Iteration

variable (m : RangedMap T)

-- The first entry of the blocks from `block` on.
def scan (stop : Nat) : Nat → Nat → Iterator
  | 0, _ => ⟨none, stop, 0⟩
  | rounds + 1, block =>
      if m.data block = [] then scan stop rounds (block + 1) else ⟨some block, stop, 0⟩

-- `forward_scan` looks at the blocks behind `m_current`, up to `m_end`.
def forwardScan (stop block : Nat) : Iterator := m.scan stop (stop + 1 - block) block

def deref (it : Iterator) : Option (Nat × T) :=
  match it.current with
  | none => none
  | some block => (m.data block)[it.it]?

def next (it : Iterator) : Iterator :=
  match it.current with
  | none => it
  | some block =>
      if it.it + 1 < (m.data block).length then { it with it := it.it + 1 }
      else m.forwardScan it.stop (block + 1)

def eraseEntry (it : Iterator) : RangedMap T :=
  match it.current with
  | none => m
  | some block =>
      { m with data := Function.update m.data block ((m.data block).eraseIdx it.it) }

-- `erase(iterator&)` leaves the iterator at the entry behind the erased one.
def eraseIterator (it : Iterator) : RangedMap T × Iterator :=
  match it.current with
  | none => (m, it)
  | some block =>
      let m := m.eraseEntry it
      (m, if it.it < (m.data block).length then it else m.forwardScan it.stop (block + 1))

def beginRange (blockSize : Nat) (range : AddressRange) : Iterator :=
  m.forwardScan (blockFor blockSize range.stop)
    (min (blockFor blockSize range.start) (m.headBlock (blockFor blockSize range.start)))

end Iteration

-- A loop over a range. `erases` decides from the entries visited so far whether the entry at the
-- iterator is erased.
structure Visit (T : Type) where
  map : RangedMap T
  it : Iterator
  visited : List (Nat × T)
  erased : List (Nat × T)

def Visit.run (erases : List (Nat × T) → Bool) : Nat → Visit T → Visit T
  | 0, v => v
  | rounds + 1, v =>
      match v.map.deref v.it with
      | none => v
      | some entry =>
          if erases (v.visited ++ [entry]) then
            run erases rounds
              { map := (v.map.eraseIterator v.it).1
                it := (v.map.eraseIterator v.it).2
                visited := v.visited ++ [entry]
                erased := v.erased ++ [entry] }
          else
            run erases rounds
              { v with it := v.map.next v.it, visited := v.visited ++ [entry] }

-- The live entries by their start address, with the range each was emplaced for.
abbrev Live (T : Type) := Nat → Option (AddressRange × T)

inductive Step (blockSize : Nat) : RangedMap T × Live T → RangedMap T × Live T → Prop
  | emplace (m : RangedMap T) (live : Live T) (range : AddressRange) (value : T)
      (entries : List (Nat × T))
      (h : entries.Perm (insertOrAssign (m.data (blockFor blockSize range.start)) range.start value)) :
      Step blockSize (m, live)
        (m.emplace blockSize range entries, Function.update live range.start (some (range, value)))
  | eraseAddress (m : RangedMap T) (live : Live T) (address : Nat) :
      Step blockSize (m, live)
        (m.eraseAddress blockSize address, Function.update live address none)
  | eraseIterator (m : RangedMap T) (live : Live T) (it : Iterator) (entry : Nat × T)
      (h : m.deref it = some entry) :
      Step blockSize (m, live)
        ((m.eraseIterator it).1, Function.update live entry.1 none)

def Reachable (blockSize : Nat) : RangedMap T × Live T → Prop :=
  Relation.ReflTransGen (Step blockSize) (empty, fun _ => none)

variable {blockSize : Nat} {m : RangedMap T} {live : Live T}

structure Represents (blockSize : Nat) (m : RangedMap T) (live : Live T) : Prop where
  nodup : ∀ block, ((m.data block).map Prod.fst).Nodup
  mem_iff : ∀ block key value, (key, value) ∈ m.data block ↔
    blockFor blockSize key = block ∧ ∃ range, live key = some (range, value)
  start : ∀ {key range value}, live key = some (range, value) → range.start = key
  head : ∀ {key range value}, live key = some (range, value) → ∀ block,
    blockFor blockSize key ≤ block → block ≤ blockFor blockSize range.stop →
      m.headBlock block ≤ blockFor blockSize key

theorem Represents.empty : Represents blockSize (empty : RangedMap T) (fun _ => none) where
  nodup := fun _ => List.nodup_nil
  mem_iff := by simp [RangedMap.empty]
  start := by simp
  head := by simp

theorem broadcastInsert_le (m : RangedMap T) (range : AddressRange) (block : Nat) :
    (m.broadcastInsert blockSize range).headBlock block ≤ m.headBlock block := by
  simp only [broadcastInsert]
  split
  · exact Nat.min_le_right _ _
  · exact Nat.le_refl _

theorem Represents.emplace (h : Represents blockSize m live) (range : AddressRange) (value : T)
    {entries : List (Nat × T)}
    (hentries : entries.Perm
      (insertOrAssign (m.data (blockFor blockSize range.start)) range.start value)) :
    Represents blockSize (m.emplace blockSize range entries)
      (Function.update live range.start (some (range, value))) where
  nodup := by
    intro block
    simp only [RangedMap.emplace]
    by_cases hblock : block = blockFor blockSize range.start
    · rw [hblock, Function.update_self, (hentries.map Prod.fst).nodup_iff, insertOrAssign,
        List.map_cons, List.nodup_cons]
      refine ⟨?_, (h.nodup _).sublist (List.filter_sublist.map Prod.fst)⟩
      intro hmem
      obtain ⟨entry, hentry, hkey⟩ := List.mem_map.mp hmem
      exact of_decide_eq_true (List.mem_filter.mp hentry).2 hkey
    · rw [Function.update_of_ne hblock]
      exact h.nodup block
  mem_iff := by
    intro block key value'
    simp only [RangedMap.emplace]
    by_cases hblock : block = blockFor blockSize range.start
    · rw [hblock, Function.update_self, hentries.mem_iff, insertOrAssign, List.mem_cons,
        List.mem_filter, h.mem_iff]
      by_cases hkey : key = range.start
      · subst hkey
        simp [eq_comm]
      · simp [hkey]
    · rw [Function.update_of_ne hblock, h.mem_iff]
      by_cases hkey : key = range.start
      · subst hkey
        exact iff_of_false (fun hc => hblock hc.1.symm) (fun hc => hblock hc.1.symm)
      · rw [Function.update_of_ne hkey]
  start := by
    intro key range' value' hlive
    by_cases hkey : key = range.start
    · rw [hkey, Function.update_self] at hlive
      obtain ⟨rfl, -⟩ := Prod.mk.inj (Option.some.inj hlive)
      exact hkey.symm
    · rw [Function.update_of_ne hkey] at hlive
      exact h.start hlive
  head := by
    intro key range' value' hlive block hlo hhi
    by_cases hkey : key = range.start
    · rw [hkey, Function.update_self] at hlive
      obtain ⟨rfl, -⟩ := Prod.mk.inj (Option.some.inj hlive)
      subst hkey
      simp only [RangedMap.emplace, broadcastInsert]
      rw [if_pos ⟨hlo, hhi⟩]
      exact Nat.min_le_left _ _
    · rw [Function.update_of_ne hkey] at hlive
      exact (broadcastInsert_le m range block).trans (h.head hlive block hlo hhi)

-- What is left where the entry of one key goes.
theorem Represents.remove (h : Represents blockSize m live) {address block : Nat}
    {entries : List (Nat × T)} (hsub : entries.Sublist (m.data block))
    (hmem : ∀ entry, entry ∈ entries ↔ entry ∈ m.data block ∧ entry.1 ≠ address)
    (hblock : live address = none ∨ blockFor blockSize address = block) :
    Represents blockSize ⟨Function.update m.data block entries, m.headBlock⟩
      (Function.update live address none) where
  nodup := by
    intro block'
    dsimp only
    by_cases hb : block' = block
    · rw [hb, Function.update_self]
      exact (h.nodup block).sublist (hsub.map Prod.fst)
    · rw [Function.update_of_ne hb]
      exact h.nodup block'
  mem_iff := by
    intro block' key value
    dsimp only
    by_cases hkey : key = address
    · subst hkey
      rw [Function.update_self]
      refine iff_of_false ?_ (fun hc => by obtain ⟨-, range, hc⟩ := hc; cases hc)
      intro hin
      by_cases hb : block' = block
      · rw [hb, Function.update_self, hmem] at hin
        exact hin.2 rfl
      · rw [Function.update_of_ne hb, h.mem_iff] at hin
        obtain ⟨hat, range, hlive⟩ := hin
        rcases hblock with hnone | hblock
        · rw [hnone] at hlive
          cases hlive
        · exact hb (hat.symm.trans hblock)
    · rw [Function.update_of_ne hkey, ← h.mem_iff]
      by_cases hb : block' = block
      · rw [hb, Function.update_self, hmem]
        exact and_iff_left hkey
      · rw [Function.update_of_ne hb]
  start := by
    intro key range value hlive
    by_cases hkey : key = address
    · rw [hkey, Function.update_self] at hlive
      cases hlive
    · rw [Function.update_of_ne hkey] at hlive
      exact h.start hlive
  head := by
    intro key range value hlive
    by_cases hkey : key = address
    · rw [hkey, Function.update_self] at hlive
      cases hlive
    · rw [Function.update_of_ne hkey] at hlive
      exact h.head hlive

theorem Represents.eraseAddress (h : Represents blockSize m live) (address : Nat) :
    Represents blockSize (m.eraseAddress blockSize address) (Function.update live address none) :=
  h.remove List.filter_sublist (fun entry => by simp) (Or.inr rfl)

theorem mem_of_nodup_keys {before after : List (Nat × T)} {erased entry : Nat × T}
    (hnodup : ((before ++ erased :: after).map Prod.fst).Nodup) :
    entry ∈ before ++ after ↔ entry ∈ before ++ erased :: after ∧ entry.1 ≠ erased.1 := by
  have hmiddle : (before ++ erased :: after).Perm (erased :: (before ++ after)) :=
    List.perm_middle
  have hperm := hmiddle.map Prod.fst
  rw [hperm.nodup_iff, List.map_cons, List.nodup_cons] at hnodup
  rw [List.perm_middle.mem_iff, List.mem_cons]
  constructor
  · intro hin
    exact ⟨Or.inr hin, fun he => hnodup.1 (he ▸ List.mem_map_of_mem hin)⟩
  · rintro ⟨rfl | hin, hne⟩
    · exact absurd rfl hne
    · exact hin

theorem Represents.eraseEntry (h : Represents blockSize m live) {it : Iterator} {entry : Nat × T}
    (hentry : m.deref it = some entry) :
    Represents blockSize (m.eraseEntry it) (Function.update live entry.1 none) := by
  obtain ⟨current, stop, index⟩ := it
  cases current with
  | none => cases hentry
  | some block =>
      simp only [deref] at hentry
      obtain ⟨hlt, rfl⟩ := List.getElem?_eq_some_iff.mp hentry
      have hin : (m.data block)[index] ∈ m.data block := List.getElem_mem hlt
      refine h.remove (List.eraseIdx_sublist _ _) ?_ (Or.inr ((h.mem_iff _ _ _).mp hin).1)
      intro entry
      have hnodup := h.nodup block
      have hsplit : m.data block =
          (m.data block).take index ++ (m.data block)[index] :: (m.data block).drop (index + 1) := by
        rw [← List.drop_eq_getElem_cons hlt, List.take_append_drop]
      rw [hsplit] at hnodup
      rw [List.eraseIdx_eq_take_drop_succ, mem_of_nodup_keys hnodup, ← hsplit]

theorem eraseIterator_fst (m : RangedMap T) (it : Iterator) :
    (m.eraseIterator it).1 = m.eraseEntry it := by
  obtain ⟨current, stop, index⟩ := it
  cases current with
  | none => rfl
  | some block => rfl

theorem Represents.step {s s' : RangedMap T × Live T} (h : Represents blockSize s.1 s.2)
    (hstep : Step blockSize s s') : Represents blockSize s'.1 s'.2 := by
  cases hstep with
  | emplace m live range value entries hentries => exact h.emplace range value hentries
  | eraseAddress m live address => exact h.eraseAddress address
  | eraseIterator m live it entry hentry =>
      rw [eraseIterator_fst]
      exact h.eraseEntry hentry

theorem Reachable.represents {s : RangedMap T × Live T} (h : Reachable blockSize s) :
    Represents blockSize s.1 s.2 := by
  let inv (s : RangedMap T × Live T) : Prop := Represents blockSize s.1 s.2
  have hstep (s s' : RangedMap T × Live T) (h : inv s) (hstep : Step blockSize s s') : inv s' :=
    h.step hstep
  have hstart : inv (RangedMap.empty, fun _ => none) := Represents.empty
  have hs : inv s := Data.Interleaving.invariant_of_reachable hstart hstep h
  exact hs

section Pending

-- What a loop that goes on from the iterator comes to.
def pending (m : RangedMap T) (it : Iterator) : List (Nat × T) :=
  match it.current with
  | none => []
  | some block => (m.data block).drop it.it ++
      (List.range' (block + 1) (it.stop - block)).flatMap m.data

-- The iterator is at an entry of the range, or at the end.
def Within (m : RangedMap T) (it : Iterator) : Prop :=
  ∀ block, it.current = some block → block ≤ it.stop ∧ it.it < (m.data block).length

theorem scan_spec (stop : Nat) : ∀ rounds block, block + rounds = stop + 1 →
    m.Within (m.scan stop rounds block) ∧
      m.pending (m.scan stop rounds block) = (List.range' block rounds).flatMap m.data := by
  intro rounds
  induction rounds with
  | zero => exact fun block _ => ⟨nofun, rfl⟩
  | succ rounds ih =>
      intro block hstop
      rw [scan]
      split
      · rename_i hempty
        obtain ⟨hwithin, hpending⟩ := ih (block + 1) (by omega)
        refine ⟨hwithin, ?_⟩
        rw [hpending, List.range'_succ, List.flatMap_cons, hempty, List.nil_append]
      · rename_i hne
        constructor
        · intro block' hblock
          cases hblock
          exact ⟨by dsimp only; omega, List.length_pos_iff.mpr hne⟩
        · have hrounds : stop - block = rounds := by omega
          simp only [pending, List.drop_zero, hrounds]
          rw [List.range'_succ, List.flatMap_cons]

theorem forwardScan_spec (m : RangedMap T) (stop block : Nat) :
    m.Within (m.forwardScan stop block) ∧ m.pending (m.forwardScan stop block) =
      (List.range' block (stop + 1 - block)).flatMap m.data := by
  by_cases hle : block ≤ stop + 1
  · exact scan_spec stop _ block (by omega)
  · have hrounds : stop + 1 - block = 0 := by omega
    rw [forwardScan, hrounds]
    exact ⟨nofun, rfl⟩

theorem deref_spec {it : Iterator} (hwithin : m.Within it) : m.deref it = (m.pending it).head? := by
  obtain ⟨current, stop, index⟩ := it
  cases current with
  | none => rfl
  | some block =>
      obtain ⟨-, hlt⟩ := hwithin block rfl
      simp only [deref, pending]
      rw [List.drop_eq_getElem_cons hlt, List.getElem?_eq_getElem hlt]
      rfl

theorem next_spec {it : Iterator} (hwithin : m.Within it) :
    m.Within (m.next it) ∧ m.pending (m.next it) = (m.pending it).tail := by
  obtain ⟨current, stop, index⟩ := it
  cases current with
  | none => exact ⟨hwithin, rfl⟩
  | some block =>
      obtain ⟨hle, hlt⟩ := hwithin block rfl
      dsimp only at hle hlt
      simp only [next, pending]
      rw [List.drop_eq_getElem_cons hlt, List.cons_append, List.tail_cons]
      split
      · rename_i hmore
        refine ⟨?_, rfl⟩
        intro block' hblock
        cases hblock
        exact ⟨hle, hmore⟩
      · rename_i hlast
        obtain ⟨hwithin', hpending⟩ := forwardScan_spec m stop (block + 1)
        refine ⟨hwithin', ?_⟩
        rw [List.drop_of_length_le (by omega), List.nil_append]
        have hcount : stop + 1 - (block + 1) = stop - block := by omega
        rw [hcount] at hpending
        exact hpending

theorem eraseIterator_spec {it : Iterator} (hwithin : m.Within it) :
    (m.eraseIterator it).1.Within (m.eraseIterator it).2 ∧
      (m.eraseIterator it).1.pending (m.eraseIterator it).2 = (m.pending it).tail := by
  obtain ⟨current, stop, index⟩ := it
  cases current with
  | none => exact ⟨hwithin, rfl⟩
  | some block =>
      obtain ⟨hle, hlt⟩ := hwithin block rfl
      dsimp only at hle hlt
      have hrest : (List.range' (block + 1) (stop - block)).flatMap
          (m.eraseEntry ⟨some block, stop, index⟩).data =
          (List.range' (block + 1) (stop - block)).flatMap m.data := by
        apply List.flatMap_congr
        intro block' hblock
        have hne : block' ≠ block := by
          have := (List.mem_range'_1.mp hblock).1
          omega
        exact Function.update_of_ne hne _ _
      have hdrop : ((m.eraseEntry ⟨some block, stop, index⟩).data block).drop index =
          (m.data block).drop (index + 1) := by
        simp only [eraseEntry, Function.update_self]
        rw [List.eraseIdx_eq_take_drop_succ, List.drop_append_of_le_length
          (by rw [List.length_take]; omega), List.drop_of_length_le (by rw [List.length_take]; omega),
          List.nil_append]
      simp only [eraseIterator, pending]
      rw [List.drop_eq_getElem_cons hlt, List.cons_append, List.tail_cons, ← hdrop, ← hrest]
      split
      · rename_i hmore
        refine ⟨?_, rfl⟩
        intro block' hblock
        cases hblock
        exact ⟨hle, hmore⟩
      · rename_i hlast
        obtain ⟨hwithin', hpending⟩ := forwardScan_spec
          (m.eraseEntry ⟨some block, stop, index⟩) stop (block + 1)
        refine ⟨hwithin', ?_⟩
        rw [List.drop_of_length_le (by omega), List.nil_append]
        have hcount : stop + 1 - (block + 1) = stop - block := by omega
        rw [hcount] at hpending
        exact hpending

theorem current_eq_none {it : Iterator} (hwithin : m.Within it) (hpending : m.pending it = []) :
    it.current = none := by
  cases hcurrent : it.current with
  | none => rfl
  | some block =>
      have hlt := (hwithin block hcurrent).2
      simp only [pending, hcurrent, List.append_eq_nil_iff, List.drop_eq_nil_iff] at hpending
      omega

end Pending

-- The entries that are live once some have been erased.
def without (live : Live T) (erased : List (Nat × T)) : Live T :=
  fun key => if key ∈ erased.map Prod.fst then none else live key

theorem update_without (live : Live T) (erased : List (Nat × T)) (entry : Nat × T) :
    Function.update (without live erased) entry.1 none = without live (erased ++ [entry]) := by
  funext key
  by_cases hkey : key = entry.1
  · subst hkey
    rw [Function.update_self, without, if_pos (by simp)]
  · rw [Function.update_of_ne hkey, without, without]
    simp only [List.map_append, List.map_cons, List.map_nil, List.mem_append, List.mem_singleton,
      hkey, or_false]

-- A loop comes to an end, and visits what was pending.
theorem Visit.run_spec (erases : List (Nat × T) → Bool) (v : Visit T)
    (hrep : Represents blockSize v.map (without live v.erased)) (hwithin : v.map.Within v.it)
    (hsub : v.erased.Sublist v.visited) {rounds : Nat}
    (hrounds : rounds = (v.map.pending v.it).length) :
    let v' := Visit.run erases rounds v
    v'.it.current = none ∧ v'.visited = v.visited ++ v.map.pending v.it ∧
      v'.erased.Sublist v'.visited ∧ Represents blockSize v'.map (without live v'.erased) := by
  induction rounds generalizing v with
  | zero =>
      have hnil := List.length_eq_zero_iff.mp hrounds.symm
      refine ⟨current_eq_none hwithin hnil, ?_, hsub, hrep⟩
      rw [hnil, List.append_nil]
      rfl
  | succ rounds ih =>
      obtain ⟨entry, rest, hpending⟩ := List.exists_cons_of_length_eq_add_one hrounds.symm
      have hderef : v.map.deref v.it = some entry := by
        rw [deref_spec hwithin, hpending]
        rfl
      have hlength : rounds = rest.length := by
        rw [hpending, List.length_cons] at hrounds
        omega
      have happend : v.visited ++ v.map.pending v.it = v.visited ++ [entry] ++ rest := by
        rw [hpending, List.append_assoc]
        rfl
      rw [Visit.run, hderef, happend]
      dsimp only
      split
      · obtain ⟨hwithin', hpending'⟩ := eraseIterator_spec hwithin
        rw [hpending, List.tail_cons] at hpending'
        have hrep' := hrep.eraseEntry hderef
        rw [update_without, ← eraseIterator_fst] at hrep'
        have hspec := ih
          { map := (v.map.eraseIterator v.it).1
            it := (v.map.eraseIterator v.it).2
            visited := v.visited ++ [entry]
            erased := v.erased ++ [entry] }
          hrep' hwithin' (hsub.append (List.Sublist.refl _))
          (hlength.trans (congrArg List.length hpending').symm)
        dsimp only at hspec
        rw [hpending'] at hspec
        exact hspec
      · obtain ⟨hwithin', hpending'⟩ := next_spec hwithin
        rw [hpending, List.tail_cons] at hpending'
        have hspec := ih { v with it := v.map.next v.it, visited := v.visited ++ [entry] } hrep
          hwithin' (hsub.trans (List.sublist_append_left _ _))
          (hlength.trans (congrArg List.length hpending').symm)
        dsimp only at hspec
        rw [hpending'] at hspec
        exact hspec

theorem Represents.flatMap_nodup (h : Represents blockSize m live) {blocks : List Nat}
    (hblocks : blocks.Nodup) : ((blocks.flatMap m.data).map Prod.fst).Nodup := by
  rw [List.map_flatMap, List.nodup_flatMap]
  refine ⟨fun block _ => h.nodup block, hblocks.imp ?_⟩
  intro a b hne key ha hb
  obtain ⟨⟨key', value⟩, hentry, rfl⟩ := List.mem_map.mp ha
  obtain ⟨⟨key'', value'⟩, hentry', hkey⟩ := List.mem_map.mp hb
  obtain rfl : key'' = key' := hkey
  exact hne (((h.mem_iff _ _ _).mp hentry).1.symm.trans ((h.mem_iff _ _ _).mp hentry').1)

theorem Represents.pending_beginRange (h : Represents blockSize m live) {query : AddressRange}
    {key : Nat} {range : AddressRange} {value : T} (hlive : live key = some (range, value))
    (hoverlaps : range.overlaps query = true) :
    (key, value) ∈ m.pending (m.beginRange blockSize query) := by
  obtain ⟨hstart, hstop⟩ := of_decide_eq_true hoverlaps
  rw [h.start hlive] at hstart
  have hkey : blockFor blockSize key ≤ blockFor blockSize query.stop := Nat.div_le_div_right hstart
  have hquery : blockFor blockSize query.start ≤ blockFor blockSize range.stop :=
    Nat.div_le_div_right hstop
  -- an entry of an earlier block reaches into the first block of the query
  have hhead : min (blockFor blockSize query.start)
      (m.headBlock (blockFor blockSize query.start)) ≤ blockFor blockSize key := by
    rcases Nat.le_total (blockFor blockSize query.start) (blockFor blockSize key) with hle | hle
    · exact Nat.le_trans (Nat.min_le_left _ _) hle
    · exact Nat.le_trans (Nat.min_le_right _ _) (h.head hlive _ hle hquery)
  rw [beginRange, (forwardScan_spec m _ _).2, List.mem_flatMap]
  refine ⟨blockFor blockSize key, List.mem_range'_1.mpr ⟨hhead, ?_⟩,
    (h.mem_iff _ _ _).mpr ⟨rfl, range, hlive⟩⟩
  omega

-- A loop over a range comes to the end, visits no entry twice and every live entry whose range
-- meets the query, and erases what it is told to.
theorem rangedMap_visits (blockSize : Nat) (s : RangedMap T × Live T)
    (h : Reachable blockSize s) (query : AddressRange) (erases : List (Nat × T) → Bool) :
    ∃ rounds, ∀ v, v = Visit.run erases rounds ⟨s.1, s.1.beginRange blockSize query, [], []⟩ →
      v.it.current = none ∧ (v.visited.map Prod.fst).Nodup ∧
      (∀ key value, (key, value) ∈ v.visited → ∃ range, s.2 key = some (range, value)) ∧
      (∀ key range value, s.2 key = some (range, value) → range.overlaps query = true →
        (key, value) ∈ v.visited) ∧
      v.erased.Sublist v.visited ∧ Represents blockSize v.map (without s.2 v.erased) := by
  have hrep := h.represents
  obtain ⟨hwithin, hpending⟩ := forwardScan_spec s.1 (blockFor blockSize query.stop)
    (min (blockFor blockSize query.start) (s.1.headBlock (blockFor blockSize query.start)))
  have hstart : Represents blockSize s.1 (without s.2 []) := hrep
  obtain ⟨hend, hvisited, hsub, hlive⟩ := Visit.run_spec erases
    ⟨s.1, s.1.beginRange blockSize query, [], []⟩ hstart hwithin (List.Sublist.refl _) rfl
  dsimp only at hvisited
  rw [List.nil_append] at hvisited
  refine ⟨(s.1.pending (s.1.beginRange blockSize query)).length, ?_⟩
  rintro v rfl
  refine ⟨hend, ?_, ?_, ?_, hsub, hlive⟩
  · rw [hvisited, beginRange, hpending]
    exact hrep.flatMap_nodup List.nodup_range'
  · intro key value hmem
    rw [hvisited, beginRange, hpending, List.mem_flatMap] at hmem
    obtain ⟨block, -, hmem⟩ := hmem
    exact ((hrep.mem_iff _ _ _).mp hmem).2
  · intro key range value hkey hoverlaps
    rw [hvisited]
    exact hrep.pending_beginRange hkey hoverlaps

-- An entry of the first block that reaches into the third.
theorem rangedMap_visits_earlier_block :
    let range : AddressRange := ⟨8, 40, by decide, by decide⟩
    let query : AddressRange := ⟨33, 34, by decide, by decide⟩
    let m := (empty : RangedMap Unit).emplace 16 range [(8, ())]
    ∃ rounds, (8, ()) ∈
      (Visit.run (fun _ => false) rounds ⟨m, m.beginRange 16 query, [], []⟩).visited := by
  intro range query m
  have hstep : Step 16 ((empty : RangedMap Unit), fun _ => none)
      (m, Function.update (fun _ => none) 8 (some (range, ()))) :=
    .emplace empty (fun _ => none) range () _ (List.Perm.refl _)
  obtain ⟨rounds, hrounds⟩ := rangedMap_visits 16 _ (.single hstep) query fun _ => false
  exact ⟨rounds, (hrounds _ rfl).2.2.2.1 8 range () rfl rfl⟩

end RangedMap

end Rpcsx.Rsx
