import Rpcsx.Data.Alignment
import Rpcsx.MemoryTable.PayloadTable.Refinement

namespace Rpcsx.Dmem

open Data Data.Alignment MemoryTable

structure AllocationInfo where
  memoryType : BitVec 32
deriving DecidableEq, Inhabited

-- The memory type `-1u` of an entry that has been released.
def released : AllocationInfo := ⟨-1⟩

structure AllocateDirectMemoryArgs where
  searchStart : BitVec 64
  searchEnd : BitVec 64
  len : BitVec 64
  alignment : BitVec 64
  memoryType : BitVec 32

structure DmemDevice where
  dmemTotalSize : BitVec 64
  allocations : PayloadTable AllocationInfo

-- What one round of the loop of `allocate` comes to.
inductive Hop where
  | found (offset : Nat)
  | outOfMemory
  | next (offset : Nat)

inductive Result where
  | allocated (start : Nat)
  | again
deriving DecidableEq

namespace AllocateDirectMemoryArgs

variable (args : AllocateDirectMemoryArgs)

def effectiveAlignment : Nat := if args.alignment = 0 then 1 else args.alignment.toNat

def effectiveEnd (d : DmemDevice) : Nat :=
  if args.searchEnd = 0 then d.dmemTotalSize.toNat else args.searchEnd.toNat

end AllocateDirectMemoryArgs

-- The tests of a round against the entry that `lowerBound` returns. Sums are taken modulo 2 ^ 64.
def tryEntry (len alignment offset : Nat) :
    Option (PayloadTable.AreaInfo AllocationInfo) → Hop
  | none => .found offset
  | some it =>
      if it.payload = released then
        let offset :=
          if offset < it.beginAddress then roundUp 64 it.beginAddress alignment else offset
        if (offset + len) % 2 ^ 64 ≥ it.endAddress then .next it.endAddress else .found offset
      else
        if (offset + len) % 2 ^ 64 > it.beginAddress then .next it.endAddress else .found offset

namespace DmemDevice

variable (d : DmemDevice)

def hop (len alignment offset : Nat) : Except Fault Hop := do
  let offset := roundUp 64 offset alignment
  if (offset + len) % 2 ^ 64 > d.dmemTotalSize.toNat then return .outOfMemory
  let it ← d.allocations.lowerBound offset >>= d.allocations.report
  return tryEntry len alignment offset it

-- The loop of `allocate`, from an offset on. Nothing is returned when the rounds do not suffice.
def search (searchEnd len alignment : Nat) : Nat → Nat → Except Fault (Option (Option Nat))
  | 0, _ => .ok none
  | rounds + 1, offset =>
      if offset < searchEnd then do
        match ← d.hop len alignment offset with
        | .found offset => return some (some offset)
        | .outOfMemory => return some none
        | .next offset => search searchEnd len alignment rounds offset
      else .ok (some none)

def allocate (rounds : Nat) (args : AllocateDirectMemoryArgs) :
    Except Fault (Option (Result × DmemDevice)) := do
  match ← d.search (args.effectiveEnd d) args.len.toNat args.effectiveAlignment rounds
      args.searchStart.toNat with
  | none => return none
  | some none => return some (.again, d)
  | some (some offset) =>
      let mapped ← d.allocations.map offset ((offset + args.len.toNat) % 2 ^ 64) ⟨args.memoryType⟩
        true false
      return some (.allocated offset, { d with allocations := mapped.1 })

-- `sceKernelReleaseDirectMemory` and `sceKernelCheckedReleaseDirectMemory` of `dmem_ioctl`.
def releaseDirectMemory (address size : BitVec 64) : Except Fault DmemDevice := do
  let mapped ← d.allocations.map address.toNat ((address.toNat + size.toNat) % 2 ^ 64) released
    true false
  return { d with allocations := mapped.1 }

def release (start size : BitVec 64) : Except Fault DmemDevice := do
  let allocations ← d.allocations.unmap start.toNat ((start.toNat + size.toNat) % 2 ^ 64)
  return { d with allocations := allocations }

end DmemDevice

end Rpcsx.Dmem

namespace Rpcsx.Dmem

open Data Data.Alignment Data.Runs MemoryTable
open MemoryTable.PayloadTable (WellFormed areasOf areasOf_partition lowerBound_eq)

abbrev Area := PayloadTable.AreaInfo AllocationInfo

namespace DmemDevice

variable (d : DmemDevice)

def areas : List Area := areasOf d.allocations.mAreas.entries

-- The entry that a search looks at from an offset.
def entryAfter (offset : Nat) : Option Area := d.areas.find? fun e => offset < e.endAddress

-- The range lies in one piece: a gap in front of an allocated entry or behind all entries, or a
-- released entry, of which the last byte is not used.
def Passes (len offset : Nat) : Prop :=
  match d.entryAfter offset with
  | none => True
  | some e =>
      if e.payload = released then e.beginAddress ≤ offset ∧ offset + len < e.endAddress
      else offset + len ≤ e.beginAddress

-- The range, or the one at the start of the released entry behind the offset, passes.
def Hits (len alignment offset : Nat) : Prop :=
  match d.entryAfter offset with
  | none => True
  | some e =>
      if e.payload = released then
        (if offset < e.beginAddress then ceilTo alignment e.beginAddress else offset) + len <
          e.endAddress
      else offset + len ≤ e.beginAddress

variable {d}

theorem entryAfter_mem {offset : Nat} {e : Area} (h : d.entryAfter offset = some e) :
    e ∈ d.areas ∧ offset < e.endAddress :=
  ⟨List.mem_of_find?_eq_some h, by simpa using List.find?_some h⟩

theorem entryAfter_of_between {a b : Nat} {e : Area} (h : d.entryAfter a = some e) (hle : a ≤ b)
    (hlt : b < e.endAddress) : d.entryAfter b = some e := by
  obtain ⟨-, before, after, hsplit, hbefore⟩ := List.find?_eq_some_iff_append.mp h
  refine List.find?_eq_some_iff_append.mpr ⟨by simpa using hlt, before, after, hsplit, ?_⟩
  intro x hx
  have hend := hbefore x hx
  simp only [Bool.not_eq_true', decide_eq_false_iff_not] at hend ⊢
  omega

theorem endAddress_le_of_lt {a : Nat} {e x : Area} (h : d.entryAfter a = some e)
    (hw : WellFormed d.allocations) (hx : x ∈ d.areas) (hlt : x.endAddress < e.endAddress) :
    x.endAddress ≤ a := by
  obtain ⟨-, before, after, hsplit, hbefore⟩ := List.find?_eq_some_iff_append.mp h
  have hord := (areasOf_partition hw).ordered
  have hne := (areasOf_partition hw).nonempty
  rw [areas] at hx
  rw [areas] at hsplit
  rw [hsplit] at hx hord hne
  rcases List.mem_append.mp hx with hin | hin
  · simpa using hbefore x hin
  · rcases List.mem_cons.mp hin with rfl | hafter
    · exact absurd hlt (Nat.lt_irrefl _)
    · have hle := (List.pairwise_cons.mp (List.pairwise_append.mp hord).2.1).1 x hafter
      have hpos := hne x (by simp [hafter])
      omega

section Hop

variable {len alignment offset : Nat}

-- The positions in front of the next entry end that a search leaves out do not pass.
theorem not_passes_of_skipped {e : Area} (ha : 0 < alignment) (h : d.entryAfter offset = some e)
    (hnot : ¬d.Hits len alignment offset) {o : Nat} (hle : offset ≤ o) (hlt : o < e.endAddress)
    (ho : alignment ∣ o) : ¬d.Passes len o := by
  simp only [Hits, h] at hnot
  simp only [Passes, entryAfter_of_between h hle hlt]
  split at hnot
  · rename_i hreleased
    rw [if_pos hreleased]
    rintro ⟨hbegin, hend⟩
    split at hnot
    · have hceil := ceilTo_le ha ho hbegin
      omega
    · omega
  · rename_i hreleased
    rw [if_neg hreleased]
    omega

-- What the tests against the next entry come to where no sum wraps.
theorem tryEntry_spec {k : Nat} (hk : k ≤ 64) (halign : alignment = 2 ^ k)
    (hdvd : alignment ∣ offset) (hwrap : offset + len < 2 ^ 64)
    (hjump : ∀ e, d.entryAfter offset = some e → e.payload = released →
      offset < e.beginAddress → ceilTo alignment e.beginAddress + len < 2 ^ 64) :
    (d.Hits len alignment offset ∧
      ∃ c, tryEntry len alignment offset (d.entryAfter offset) = .found c ∧ d.Passes len c ∧
        offset ≤ c ∧ alignment ∣ c ∧ c + len < 2 ^ 64 ∧
        ∀ o, offset ≤ o → o < c → alignment ∣ o → ¬d.Passes len o) ∨
    (¬d.Hits len alignment offset ∧ ∃ e, d.entryAfter offset = some e ∧
      tryEntry len alignment offset (d.entryAfter offset) = .next e.endAddress) := by
  have hpos : 0 < alignment := halign ▸ Nat.two_pow_pos k
  have hhere : d.Passes len offset → ∃ c, Hop.found offset = .found c ∧ d.Passes len c ∧
      offset ≤ c ∧ alignment ∣ c ∧ c + len < 2 ^ 64 ∧
      ∀ o, offset ≤ o → o < c → alignment ∣ o → ¬d.Passes len o :=
    fun h => ⟨offset, rfl, h, le_rfl, hdvd, hwrap, fun o hle hlt => absurd hlt (Nat.not_lt.mpr hle)⟩
  cases he : d.entryAfter offset with
  | none =>
      have hpasses : d.Passes len offset := by simp only [Passes, he]
      exact .inl ⟨by simp only [Hits, he], hhere hpasses⟩
  | some e =>
      by_cases hreleased : e.payload = released
      · by_cases hbefore : offset < e.beginAddress
        · have hlt := hjump e he hreleased hbefore
          have hround : roundUp 64 e.beginAddress alignment = ceilTo alignment e.beginAddress := by
            subst halign
            exact roundUp_eq_ceilTo hk (by omega)
          have hbegin : e.beginAddress ≤ ceilTo alignment e.beginAddress := le_ceilTo hpos
          simp only [Hits, he, tryEntry, if_pos hreleased, if_pos hbefore, hround,
            Nat.mod_eq_of_lt hlt]
          by_cases hfits : ceilTo alignment e.beginAddress + len < e.endAddress
          · refine .inl ⟨hfits, _, if_neg (Nat.not_le.mpr hfits), ?_, by omega,
              ceilTo_dvd _ _, hlt, ?_⟩
            · have hentry := entryAfter_of_between he (show offset ≤ ceilTo alignment e.beginAddress
                by omega) (by omega)
              simp only [Passes, hentry, if_pos hreleased]
              exact ⟨hbegin, hfits⟩
            · -- in front of the entry nothing passes
              intro o hle hlt ho
              have hin : o < e.beginAddress := by
                by_contra hnot
                exact absurd (ceilTo_le hpos ho (Nat.le_of_not_lt hnot)) (Nat.not_le.mpr hlt)
              simp only [Passes, entryAfter_of_between he hle (by omega), if_pos hreleased]
              omega
          · exact .inr ⟨hfits, e, rfl, if_pos (Nat.le_of_not_lt hfits)⟩
        · simp only [Hits, he, tryEntry, if_pos hreleased, if_neg hbefore, Nat.mod_eq_of_lt hwrap]
          by_cases hfits : offset + len < e.endAddress
          · rw [if_neg (Nat.not_le.mpr hfits)]
            refine .inl ⟨hfits, hhere ?_⟩
            simp only [Passes, he, if_pos hreleased]
            exact ⟨Nat.le_of_not_lt hbefore, hfits⟩
          · exact .inr ⟨hfits, e, rfl, if_pos (Nat.le_of_not_lt hfits)⟩
      · simp only [Hits, he, tryEntry, if_neg hreleased, Nat.mod_eq_of_lt hwrap]
        by_cases hfits : offset + len ≤ e.beginAddress
        · rw [if_neg (Nat.not_lt.mpr hfits)]
          refine .inl ⟨hfits, hhere ?_⟩
          simp only [Passes, he, if_neg hreleased]
          exact hfits
        · exact .inr ⟨hfits, e, rfl, if_pos (Nat.lt_of_not_le hfits)⟩

theorem hop_eq (hw : WellFormed d.allocations) {k : Nat} (hk : k ≤ 64)
    (halign : alignment = 2 ^ k) (hwrap : ceilTo alignment offset + len < 2 ^ 64) :
    d.hop len alignment offset =
      if d.dmemTotalSize.toNat < ceilTo alignment offset + len then .ok .outOfMemory
      else .ok (tryEntry len alignment (ceilTo alignment offset)
        (d.entryAfter (ceilTo alignment offset))) := by
  have hround : roundUp 64 offset alignment = ceilTo alignment offset := by
    subst halign
    exact roundUp_eq_ceilTo hk (by omega)
  have hlower : (d.allocations.lowerBound (ceilTo alignment offset) >>= d.allocations.report) =
      .ok (d.entryAfter (ceilTo alignment offset)) := lowerBound_eq hw
  simp only [hop, hround, Nat.mod_eq_of_lt hwrap]
  split
  · rfl
  · rw [hlower]
    rfl

end Hop

theorem length_filter_lt {h : Nat} {e : Area} (hmem : e ∈ d.areas)
    (hlt : h < e.endAddress) : (d.areas.filter fun x => e.endAddress < x.endAddress).length <
      (d.areas.filter fun x => h < x.endAddress).length := by
  have hfilter : (d.areas.filter fun x => e.endAddress < x.endAddress) =
      (d.areas.filter fun x => h < x.endAddress).filter fun x => e.endAddress < x.endAddress := by
    rw [List.filter_filter]
    apply List.filter_congr
    intro x _
    rw [Bool.eq_iff_iff]
    simp only [Bool.and_eq_true, decide_eq_true_eq]
    omega
  rw [hfilter, List.length_filter_lt_length_iff_exists]
  exact ⟨e, List.mem_filter.mpr ⟨hmem, by simpa using hlt⟩, by simp⟩

section Search

variable (d) (start stop len alignment : Nat)

-- The offsets that a search is rounded up from: its start and the ends of the entries behind it.
def Head (h : Nat) : Prop := h = start ∨ start ≤ h ∧ ∃ e ∈ d.areas, e.endAddress = h

-- A search comes as far as an offset: it neither stops nor succeeds in front of it.
def Reaches (h : Nat) : Prop := ∀ h', d.Head start h' → h' < h →
  ceilTo alignment h' + len ≤ d.dmemTotalSize.toNat ∧
    ¬d.Hits len alignment (ceilTo alignment h')

-- No sum that a search takes wraps around.
structure NoWrap : Prop where
  head : ∀ h, d.Head start h → h < stop → d.Reaches start len alignment h →
    ceilTo alignment h + len < 2 ^ 64
  jump : ∀ h, d.Head start h → h < stop → d.Reaches start len alignment h →
    ceilTo alignment h + len ≤ d.dmemTotalSize.toNat → ∀ e,
    d.entryAfter (ceilTo alignment h) = some e → e.payload = released →
    ceilTo alignment h < e.beginAddress → ceilTo alignment e.beginAddress + len < 2 ^ 64

-- The first position that passes, found from an offset below the end of the search.
structure Found (c : Nat) : Prop where
  passes : d.Passes len c
  aligned : alignment ∣ c
  start_le : start ≤ c
  inMemory : c + len < 2 ^ 64
  first : ∀ o, start ≤ o → o < c → alignment ∣ o → ¬d.Passes len o
  hits : ∃ h, d.Head start h ∧ h < stop ∧
    ceilTo alignment h + len ≤ d.dmemTotalSize.toNat ∧ d.Hits len alignment (ceilTo alignment h)

-- Positions that pass are out of reach, and so are the ranges that a search would take.
structure Exhausted : Prop where
  passes : ∀ o, start ≤ o → alignment ∣ o → d.Passes len o →
    d.dmemTotalSize.toNat < o + len ∨ stop ≤ o
  hits : ∀ h, d.Head start h → h < stop →
    ceilTo alignment h + len ≤ d.dmemTotalSize.toNat → ¬d.Hits len alignment (ceilTo alignment h)

variable {d} {start stop len alignment}

theorem search_spec (hw : WellFormed d.allocations) {k : Nat} (hk : k ≤ 64)
    (halign : alignment = 2 ^ k) (hwrap : d.NoWrap start stop len alignment) (rounds h : Nat)
    (hrounds : (d.areas.filter fun e => h < e.endAddress).length < rounds)
    (hhead : d.Head start h) (hreach : d.Reaches start len alignment h)
    (hskip : ∀ o, start ≤ o → o < h → alignment ∣ o → ¬d.Passes len o) :
    (∃ c, d.search stop len alignment rounds h = .ok (some (some c)) ∧
      d.Found start stop len alignment c) ∨
    (d.search stop len alignment rounds h = .ok (some none) ∧
      d.Exhausted start stop len alignment) := by
  have hpos : 0 < alignment := halign ▸ Nat.two_pow_pos k
  induction rounds generalizing h with
  | zero => exact absurd hrounds (Nat.not_lt_zero _)
  | succ rounds ih =>
      simp only [search]
      by_cases hstop : h < stop
      · have hstart : start ≤ h := by
          rcases hhead with rfl | ⟨hle, -⟩
          · exact le_rfl
          · exact hle
        have hceil : h ≤ ceilTo alignment h := le_ceilTo hpos
        -- up to the rounded offset there is no aligned position
        have hskip' : ∀ o, start ≤ o → o < ceilTo alignment h → alignment ∣ o →
            ¬d.Passes len o := by
          intro o hso hlt ho
          refine hskip o hso ?_ ho
          by_contra hnot
          exact absurd (ceilTo_le hpos ho (Nat.le_of_not_lt hnot)) (Nat.not_le.mpr hlt)
        have hsum := hwrap.head h hhead hstop hreach
        rw [if_pos hstop, hop_eq hw hk halign hsum]
        by_cases hover : d.dmemTotalSize.toNat < ceilTo alignment h + len
        · rw [if_pos hover]
          refine .inr ⟨rfl, ?_, ?_⟩
          · intro o hso ho hpasses
            left
            have hge : ceilTo alignment h ≤ o := by
              by_contra hnot
              exact hskip' o hso (Nat.lt_of_not_le hnot) ho hpasses
            omega
          · intro h' hhead' _ hfits
            cases Nat.lt_or_ge h' h with
            | inl hbefore => exact (hreach h' hhead' hbefore).2
            | inr hafter =>
                have hle : ceilTo alignment h ≤ ceilTo alignment h' :=
                  ceilTo_le hpos (ceilTo_dvd _ _) (hafter.trans (le_ceilTo hpos))
                omega
        · rw [if_neg hover]
          have hfits := Nat.le_of_not_lt hover
          have hjump := hwrap.jump h hhead hstop hreach hfits
          rcases tryEntry_spec hk halign (ceilTo_dvd _ _) hsum hjump with
            ⟨hhits, c, htry, hpasses, hle, hdvd, hlt, hfirst⟩ | ⟨hnot, e, he, htry⟩
          · rw [htry]
            refine .inl ⟨c, rfl, hpasses, hdvd, by omega, hlt, ?_, h, hhead, hstop, hfits, hhits⟩
            intro o hso hoc ho
            cases Nat.lt_or_ge o (ceilTo alignment h) with
            | inl hbelow => exact hskip' o hso hbelow ho
            | inr habove => exact hfirst o habove hoc ho
          · rw [htry]
            obtain ⟨hmem, hend⟩ := entryAfter_mem he
            refine ih e.endAddress ?_ (.inr ⟨by omega, e, hmem, rfl⟩) ?_ ?_
            · -- the entry itself is behind the old offset and not behind the new one
              have hlen : (d.areas.filter fun x => e.endAddress < x.endAddress).length <
                  (d.areas.filter fun x => h < x.endAddress).length :=
                length_filter_lt hmem (by omega)
              omega
            · intro h' hhead' hlt
              cases Nat.lt_or_ge h' h with
              | inl hbefore => exact hreach h' hhead' hbefore
              | inr hafter =>
                  have hle : h' ≤ ceilTo alignment h := by
                    rcases hhead' with rfl | ⟨-, x, hx, rfl⟩
                    · omega
                    · exact endAddress_le_of_lt he hw hx hlt
                  rw [ceilTo_eq_of_between hpos hafter hle]
                  exact ⟨hfits, hnot⟩
            · intro o hso hoe ho
              cases Nat.lt_or_ge o (ceilTo alignment h) with
              | inl hbelow => exact hskip' o hso hbelow ho
              | inr habove => exact not_passes_of_skipped hpos he hnot habove hoe ho
      · rw [if_neg hstop]
        refine .inr ⟨rfl, ?_, fun h' hhead' hlt _ => (hreach h' hhead' (by omega)).2⟩
        intro o hso ho hpasses
        right
        by_contra hnot
        exact hskip o hso (by omega) ho hpasses

-- More rounds do not change what a search returns.
theorem search_succ {rounds h : Nat} {r : Option Nat}
    (hr : d.search stop len alignment rounds h = .ok (some r)) :
    d.search stop len alignment (rounds + 1) h = .ok (some r) := by
  induction rounds generalizing h with
  | zero =>
      simp only [search] at hr
      cases hr
  | succ rounds ih =>
      rw [search] at hr ⊢
      split at hr
      · rename_i hlt
        rw [if_pos hlt]
        cases hhop : d.hop len alignment h with
        | error fault =>
            rw [hhop] at hr
            cases hr
        | ok hop =>
            rw [hhop] at hr
            cases hop with
            | found c => exact hr
            | outOfMemory => exact hr
            | next c => exact ih hr
      · rename_i hge
        rw [if_neg hge]
        exact hr

theorem search_le {rounds more h : Nat} {r : Option Nat}
    (hr : d.search stop len alignment rounds h = .ok (some r)) (hle : rounds ≤ more) :
    d.search stop len alignment more h = .ok (some r) := by
  induction hle with
  | refl => exact hr
  | step _ ih => exact search_succ ih

theorem search_unique {rounds more h : Nat} {r r' : Option Nat}
    (hr : d.search stop len alignment rounds h = .ok (some r))
    (hr' : d.search stop len alignment more h = .ok (some r')) : r = r' := by
  have hmax := search_le hr (Nat.le_max_left rounds more)
  rw [search_le hr' (Nat.le_max_right rounds more)] at hmax
  cases hmax
  rfl

end Search

end DmemDevice

end Rpcsx.Dmem
