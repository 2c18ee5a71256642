import Rpcsx.Dmem

namespace Rpcsx.Dmem

open Data Data.Alignment Data.Runs MemoryTable
open MemoryTable.PayloadTable (WellFormed areasOf areasOf_partition map_entries unmap_entries
  overwrite_wellFormed lookup_overwrite)

section Table

variable {t : PayloadTable AllocationInfo} {lo hi : Nat}

theorem map_spec (hw : WellFormed t) (hlt : lo < hi) (payload : AllocationInfo) :
    ∃ mapped, t.map lo hi payload true false = .ok mapped ∧ WellFormed mapped.1 ∧
      ∀ x, mapped.1.lookup x = if lo ≤ x ∧ x < hi then some payload else t.lookup x := by
  obtain ⟨t', it, hok, he, -⟩ := map_entries hw hlt payload true
  exact ⟨(t', it), hok, overwrite_wellFormed hw hlt (by simp) he, lookup_overwrite hlt he⟩

theorem unmap_spec (hw : WellFormed t) (hlt : lo < hi) :
    ∃ t', t.unmap lo hi = .ok t' ∧ WellFormed t' ∧
      ∀ x, t'.lookup x = if lo ≤ x ∧ x < hi then none else t.lookup x := by
  obtain ⟨t', hok, he⟩ := unmap_entries hw hlt
  exact ⟨t', hok, overwrite_wellFormed hw hlt (by simp) he, lookup_overwrite hlt he⟩

-- An empty or reversed range fails an assertion.
theorem lt_of_map {payload : AllocationInfo} {merge noOverride : Bool}
    {mapped : PayloadTable AllocationInfo × Nat}
    (h : t.map lo hi payload merge noOverride = .ok mapped) : lo < hi := by
  by_contra hnot
  simp [PayloadTable.map, check, hnot, bind, Except.bind] at h

theorem lt_of_unmap {t' : PayloadTable AllocationInfo} (h : t.unmap lo hi = .ok t') : lo < hi := by
  rw [PayloadTable.unmap] at h
  cases hmap : t.map lo hi default false false with
  | error fault =>
      rw [hmap] at h
      cases h
  | ok mapped => exact lt_of_map hmap

end Table

-- The device with the addresses that are allocated and have not been released since.
structure System where
  device : DmemDevice
  live : Set Nat

inductive Request where
  | allocate (args : AllocateDirectMemoryArgs)
  | releaseDirectMemory (address size : BitVec 64)
  | release (start size : BitVec 64)

-- A call that returns. One that fails an assertion ends the program.
inductive Step : System → Request → System → Prop
  | allocated {d d' live args rounds o}
      (h : d.allocate rounds args = .ok (some (.allocated o, d'))) :
      Step ⟨d, live⟩ (.allocate args) ⟨d', live ∪ Set.Ico o (o + args.len.toNat)⟩
  | again {d d' live args rounds} (h : d.allocate rounds args = .ok (some (.again, d'))) :
      Step ⟨d, live⟩ (.allocate args) ⟨d', live⟩
  | releaseDirectMemory {d d' live address size}
      (h : d.releaseDirectMemory address size = .ok d') :
      Step ⟨d, live⟩ (.releaseDirectMemory address size)
        ⟨d', live \ Set.Ico address.toNat (address.toNat + size.toNat)⟩
  | release {d d' live start size} (h : d.release start size = .ok d') :
      Step ⟨d, live⟩ (.release start size)
        ⟨d', live \ Set.Ico start.toNat (start.toNat + size.toNat)⟩

def AllocateDirectMemoryArgs.Valid (args : AllocateDirectMemoryArgs) : Prop :=
  args.alignment = 0 ∨ ∃ k, args.alignment.toNat = 2 ^ k

namespace System

variable (s : System) (args : AllocateDirectMemoryArgs)

-- An aligned free range of the search window.
structure Fits (o : Nat) : Prop where
  aligned : args.effectiveAlignment ∣ o
  start_le : args.searchStart.toNat ≤ o
  inMemory : o + args.len.toNat ≤ s.device.dmemTotalSize.toNat
  inWindow : o + args.len.toNat ≤ args.effectiveEnd s.device
  free : ∀ x, o ≤ x → x < o + args.len.toNat → x ∉ s.live

-- What is expected of a call: it returns, with a range that fits if there is one.
structure Sound : Prop where
  returns : ∃ rounds result, s.device.allocate rounds args = .ok (some result)
  allocated : ∀ rounds o d', s.device.allocate rounds args = .ok (some (.allocated o, d')) →
    s.Fits args o
  again : ∀ rounds d', s.device.allocate rounds args = .ok (some (.again, d')) →
    d' = s.device ∧ ∀ o, ¬s.Fits args o

-- The calls without wrapped sums, empty ranges and the memory type of released entries.
structure Regular : Prop where
  valid : args.Valid
  len : 0 < args.len.toNat
  memoryType : args.memoryType ≠ -1
  noWrap : s.device.NoWrap args.searchStart.toNat (args.effectiveEnd s.device) args.len.toNat
    args.effectiveAlignment

-- If a range fits, one does that lies in one piece; if none does, no position from which the
-- search may set out leads to a range behind the window.
structure InPieces : Prop where
  pieces : (∃ o, s.Fits args o) → ∃ o, s.Fits args o ∧ s.device.Passes args.len.toNat o
  window : (∀ o, ¬s.Fits args o) → ∀ h, s.device.Head args.searchStart.toNat h →
    h < args.effectiveEnd s.device →
    ceilTo args.effectiveAlignment h + args.len.toNat ≤ s.device.dmemTotalSize.toNat →
    ¬s.device.Hits args.len.toNat args.effectiveAlignment (ceilTo args.effectiveAlignment h)

structure Invariant : Prop where
  wellFormed : WellFormed s.device.allocations
  live : ∀ x, x ∈ s.live ↔ ∃ v, s.device.allocations.lookup x = some v ∧ v ≠ released

end System

theorem effectiveAlignment_eq {args : AllocateDirectMemoryArgs} (h : args.Valid) :
    ∃ k, k ≤ 64 ∧ args.effectiveAlignment = 2 ^ k := by
  rcases h with hzero | ⟨k, hk⟩
  · exact ⟨0, by decide, by rw [AllocateDirectMemoryArgs.effectiveAlignment, if_pos hzero]; rfl⟩
  · refine ⟨k, ?_, ?_⟩
    · have hlt := args.alignment.isLt
      rw [hk] at hlt
      exact ((Nat.pow_lt_pow_iff_right (by decide : 1 < 2)).mp hlt).le
    · rw [AllocateDirectMemoryArgs.effectiveAlignment, if_neg, hk]
      rintro hzero
      rw [hzero] at hk
      exact absurd hk.symm (Nat.two_pow_pos k).ne'

namespace DmemDevice

-- What passes is free.
theorem lookup_of_passes {d : DmemDevice} (hw : WellFormed d.allocations) {len o x : Nat}
    (h : d.Passes len o) (hle : o ≤ x) (hlt : x < o + len) {v : AllocationInfo}
    (hv : d.allocations.lookup x = some v) : v = released := by
  have hpart := areasOf_partition hw
  obtain ⟨i, hi, hbegin, hend, hpayload⟩ := (hpart.covers x v).mp hv
  cases he : d.entryAfter o with
  | none =>
      have hnone := List.find?_eq_none.mp he i hi
      simp only [decide_eq_true_eq] at hnone
      omega
  | some e =>
      have hmem := (entryAfter_mem he).1
      have hpos := hpart.nonempty e hmem
      simp only [Passes, he] at h
      split at h
      · rename_i hreleased
        have hsame : e = i := hpart.eq_of_mem hmem hi (x := x) ⟨by omega, by omega⟩ ⟨hbegin, hend⟩
        rw [← hpayload, ← hsame, hreleased]
      · have hbefore : i.endAddress < e.endAddress := by
          by_contra hnot
          have hsame : e = i :=
            hpart.eq_of_mem hmem hi (x := e.beginAddress) ⟨le_rfl, hpos⟩ ⟨by omega, by omega⟩
          subst hsame
          omega
        have hle' := endAddress_le_of_lt he hw hi hbefore
        omega

end DmemDevice

namespace System

variable {s : System} {args : AllocateDirectMemoryArgs}

theorem free_of_passes (hinv : s.Invariant) {o : Nat} (h : s.device.Passes args.len.toNat o) :
    ∀ x, o ≤ x → x < o + args.len.toNat → x ∉ s.live := by
  intro x hle hlt hlive
  obtain ⟨v, hv, hne⟩ := (hinv.live x).mp hlive
  exact hne (DmemDevice.lookup_of_passes hinv.wellFormed h hle hlt hv)

-- The search of a regular call.
theorem search_cases (hinv : s.Invariant) (hreg : s.Regular args) :
    ∃ rounds, (∃ c, s.device.search (args.effectiveEnd s.device) args.len.toNat
        args.effectiveAlignment rounds args.searchStart.toNat = .ok (some (some c)) ∧
      s.device.Found args.searchStart.toNat (args.effectiveEnd s.device) args.len.toNat
        args.effectiveAlignment c) ∨
    (s.device.search (args.effectiveEnd s.device) args.len.toNat args.effectiveAlignment rounds
        args.searchStart.toNat = .ok (some none) ∧
      s.device.Exhausted args.searchStart.toNat (args.effectiveEnd s.device) args.len.toNat
        args.effectiveAlignment) := by
  obtain ⟨k, hk, halign⟩ := effectiveAlignment_eq hreg.valid
  have hstart : ∀ o, args.searchStart.toNat ≤ o → o < args.searchStart.toNat →
      args.effectiveAlignment ∣ o → ¬s.device.Passes args.len.toNat o :=
    fun o hle hlt => absurd hlt (Nat.not_lt.mpr hle)
  have hreach : s.device.Reaches args.searchStart.toNat args.len.toNat args.effectiveAlignment
      args.searchStart.toNat := by
    rintro h' (rfl | ⟨hle, -⟩) hlt
    · exact absurd hlt (Nat.lt_irrefl _)
    · exact absurd hlt (Nat.not_lt.mpr hle)
  exact ⟨_, DmemDevice.search_spec hinv.wellFormed hk halign hreg.noWrap _ _
    (Nat.lt_succ_self _) (.inl rfl) hreach hstart⟩

-- What `allocate` makes of the result of its search.
theorem allocate_of_search {rounds : Nat} {c : Nat} (hinv : s.Invariant) (hreg : s.Regular args)
    (hsearch : s.device.search (args.effectiveEnd s.device) args.len.toNat
      args.effectiveAlignment rounds args.searchStart.toNat = .ok (some (some c)))
    (hlt : c + args.len.toNat < 2 ^ 64) :
    ∃ d', s.device.allocate rounds args = .ok (some (.allocated c, d')) ∧
      d'.dmemTotalSize = s.device.dmemTotalSize ∧ WellFormed d'.allocations ∧
      ∀ x, d'.allocations.lookup x = if c ≤ x ∧ x < c + args.len.toNat then
        some ⟨args.memoryType⟩ else s.device.allocations.lookup x := by
  have hlen := hreg.len
  obtain ⟨mapped, hmap, hw, hlookup⟩ := map_spec hinv.wellFormed
    (show c < c + args.len.toNat by omega) ⟨args.memoryType⟩
  refine ⟨{ s.device with allocations := mapped.1 }, ?_, rfl, hw, hlookup⟩
  rw [DmemDevice.allocate, hsearch]
  simp only [bind, Except.bind, Nat.mod_eq_of_lt hlt, hmap]
  rfl

theorem allocate_of_exhausted {rounds : Nat}
    (hsearch : s.device.search (args.effectiveEnd s.device) args.len.toNat
      args.effectiveAlignment rounds args.searchStart.toNat = .ok (some none)) :
    s.device.allocate rounds args = .ok (some (.again, s.device)) := by
  rw [DmemDevice.allocate, hsearch]
  rfl

-- A call that returns has the result of its search.
theorem search_of_allocate {rounds : Nat} {result : Result × DmemDevice}
    (h : s.device.allocate rounds args = .ok (some result)) :
    ∃ r, s.device.search (args.effectiveEnd s.device) args.len.toNat args.effectiveAlignment
      rounds args.searchStart.toNat = .ok (some r) := by
  rw [DmemDevice.allocate] at h
  cases hsearch : s.device.search (args.effectiveEnd s.device) args.len.toNat
      args.effectiveAlignment rounds args.searchStart.toNat with
  | error fault =>
      rw [hsearch] at h
      cases h
  | ok found =>
      cases found with
      | none =>
          rw [hsearch] at h
          cases h
      | some r => exact ⟨r, rfl⟩

-- A regular call either finds the first position that passes or fails and changes nothing.
theorem allocate_cases (hinv : s.Invariant) (hreg : s.Regular args) :
    (∃ c, s.device.Found args.searchStart.toNat (args.effectiveEnd s.device) args.len.toNat
        args.effectiveAlignment c ∧
      (∃ rounds result, s.device.allocate rounds args = .ok (some result)) ∧
      ∀ rounds result, s.device.allocate rounds args = .ok (some result) →
        result.1 = .allocated c ∧ result.2.dmemTotalSize = s.device.dmemTotalSize ∧
        WellFormed result.2.allocations ∧
        ∀ x, result.2.allocations.lookup x = if c ≤ x ∧ x < c + args.len.toNat then
          some ⟨args.memoryType⟩ else s.device.allocations.lookup x) ∨
    s.device.Exhausted args.searchStart.toNat (args.effectiveEnd s.device) args.len.toNat
        args.effectiveAlignment ∧
      (∃ rounds result, s.device.allocate rounds args = .ok (some result)) ∧
      ∀ rounds result, s.device.allocate rounds args = .ok (some result) →
        result = (.again, s.device) := by
  obtain ⟨rounds, ⟨c, hsearch, hfound⟩ | ⟨hsearch, hexhausted⟩⟩ := search_cases hinv hreg
  · left
    refine ⟨c, hfound, ?_, ?_⟩
    · obtain ⟨d', hok, -⟩ := allocate_of_search hinv hreg hsearch hfound.inMemory
      exact ⟨rounds, _, hok⟩
    · intro more result hresult
      obtain ⟨r, hr⟩ := search_of_allocate hresult
      have hsame := DmemDevice.search_unique hsearch hr
      subst hsame
      obtain ⟨d', hok, htotal, hw, hlookup⟩ := allocate_of_search hinv hreg hr hfound.inMemory
      rw [hok] at hresult
      cases hresult
      exact ⟨rfl, htotal, hw, hlookup⟩
  · right
    refine ⟨hexhausted, ⟨rounds, _, allocate_of_exhausted hsearch⟩, ?_⟩
    intro more result hresult
    obtain ⟨r, hr⟩ := search_of_allocate hresult
    have hsame := DmemDevice.search_unique hsearch hr
    subst hsame
    rw [allocate_of_exhausted hr] at hresult
    cases hresult
    rfl

-- The condition on the pieces is exact for a regular call.
theorem sound_iff (hinv : s.Invariant) (hreg : s.Regular args) :
    s.Sound args ↔ s.InPieces args := by
  have hlen := hreg.len
  rcases allocate_cases hinv hreg with
    ⟨c, hfound, hreturns, hall⟩ | ⟨hexhausted, hreturns, hall⟩
  · constructor
    · intro hsound
      obtain ⟨rounds, result, hok⟩ := hreturns
      have hresult := (hall rounds result hok).1
      have hfits : s.Fits args c := hsound.allocated rounds c result.2 (by rw [hok, ← hresult])
      exact ⟨fun _ => ⟨c, hfits, hfound.passes⟩, fun hnone => absurd hfits (hnone c)⟩
    · intro hpieces
      have hfits : s.Fits args c := by
        by_cases hsome : ∃ o, s.Fits args o
        · obtain ⟨o, ho, hpasses⟩ := hpieces.pieces hsome
          have hle : c ≤ o := by
            by_contra hnot
            exact hfound.first o ho.start_le (Nat.lt_of_not_le hnot) ho.aligned hpasses
          have hmemory := ho.inMemory
          have hwindow := ho.inWindow
          exact ⟨hfound.aligned, hfound.start_le, by omega, by omega,
            free_of_passes hinv hfound.passes⟩
        · obtain ⟨h, hhead, hlt, hbound, hhits⟩ := hfound.hits
          exact absurd hhits (hpieces.window (not_exists.mp hsome) h hhead hlt hbound)
      refine ⟨hreturns, ?_, ?_⟩
      · intro rounds o d' hok
        have hresult := (hall rounds _ hok).1
        cases hresult
        exact hfits
      · intro rounds d' hok
        have hresult := (hall rounds _ hok).1
        cases hresult
  · constructor
    · intro hsound
      obtain ⟨rounds, result, hok⟩ := hreturns
      have hresult := hall rounds result hok
      subst hresult
      have hnone := (hsound.again rounds _ hok).2
      exact ⟨fun ⟨o, ho⟩ => absurd ho (hnone o), fun _ => hexhausted.hits⟩
    · intro hpieces
      refine ⟨hreturns, ?_, ?_⟩
      · intro rounds o d' hok
        have hresult := hall rounds _ hok
        cases hresult
      · intro rounds d' hok
        have hresult := hall rounds _ hok
        cases hresult
        refine ⟨rfl, ?_⟩
        intro o ho
        obtain ⟨o', ho', hpasses⟩ := hpieces.pieces ⟨o, ho⟩
        have hmemory := ho'.inMemory
        have hwindow := ho'.inWindow
        rcases hexhausted.passes o' ho'.start_le ho'.aligned hpasses with hover | hstop
        · omega
        · omega

section Update

variable {d d' : DmemDevice} {live : Set Nat} {lo hi : Nat} {value : Option AllocationInfo}

theorem Invariant.allocate (hinv : Invariant ⟨d, live⟩) (hw : WellFormed d'.allocations)
    {v : AllocationInfo} (hv : v ≠ released)
    (hlookup : ∀ x, d'.allocations.lookup x = if lo ≤ x ∧ x < hi then some v else
      d.allocations.lookup x) : Invariant ⟨d', live ∪ Set.Ico lo hi⟩ := by
  refine ⟨hw, fun x => ?_⟩
  have hlive := hinv.live x
  simp only [Set.mem_union, Set.mem_Ico, hlookup] at hlive ⊢
  by_cases hin : lo ≤ x ∧ x < hi
  · simp only [if_pos hin]
    exact ⟨fun _ => ⟨v, rfl, hv⟩, fun _ => .inr hin⟩
  · rw [if_neg hin, or_iff_left hin, hlive]

theorem Invariant.release (hinv : Invariant ⟨d, live⟩) (hw : WellFormed d'.allocations)
    (hvalue : ∀ v, value = some v → v = released)
    (hlookup : ∀ x, d'.allocations.lookup x = if lo ≤ x ∧ x < hi then value else
      d.allocations.lookup x) : Invariant ⟨d', live \ Set.Ico lo hi⟩ := by
  refine ⟨hw, fun x => ?_⟩
  have hlive := hinv.live x
  simp only [Set.mem_sdiff, Set.mem_Ico, hlookup] at hlive ⊢
  by_cases hin : lo ≤ x ∧ x < hi
  · simp only [if_pos hin]
    constructor
    · exact fun h => absurd hin h.2
    · rintro ⟨v, hv, hne⟩
      exact absurd (hvalue v hv) hne
  · rw [if_neg hin, and_iff_left hin, hlive]

end Update

-- A sum of two words that does not come out below the first has not wrapped.
theorem add_mod_eq {a b : Nat} (ha : a < 2 ^ 64) (hb : b < 2 ^ 64) (h : a < (a + b) % 2 ^ 64) :
    (a + b) % 2 ^ 64 = a + b := by
  omega

theorem Invariant.step {s' : System} {request : Request} (hinv : s.Invariant)
    (hreg : ∀ args, request = .allocate args → s.Regular args) (h : Step s request s') :
    s'.Invariant := by
  cases h with
  | allocated hok =>
      have hr := hreg _ rfl
      rcases allocate_cases hinv hr with ⟨c, -, -, hall⟩ | ⟨-, -, hall⟩
      · obtain ⟨hresult, -, hw, hlookup⟩ := hall _ _ hok
        cases hresult
        refine hinv.allocate hw ?_ hlookup
        intro heq
        exact hr.memoryType (congrArg AllocationInfo.memoryType heq)
      · cases hall _ _ hok
  | again hok =>
      have hr := hreg _ rfl
      rcases allocate_cases hinv hr with ⟨c, -, -, hall⟩ | ⟨-, -, hall⟩
      · cases (hall _ _ hok).1
      · cases hall _ _ hok
        exact hinv
  | @releaseDirectMemory d d' live address size hok =>
      rw [DmemDevice.releaseDirectMemory] at hok
      cases hmap : d.allocations.map address.toNat ((address.toNat + size.toNat) % 2 ^ 64)
          released true false with
      | error fault =>
          rw [hmap] at hok
          cases hok
      | ok mapped =>
          have hlt := lt_of_map hmap
          obtain ⟨mapped', hmap', hw, hlookup⟩ := map_spec hinv.wellFormed hlt released
          rw [hmap] at hmap' hok
          cases hmap'
          cases hok
          rw [add_mod_eq address.isLt size.isLt hlt] at hlookup
          refine hinv.release hw ?_ hlookup
          rintro v ⟨⟩
          rfl
  | @release d d' live start size hok =>
      rw [DmemDevice.release] at hok
      cases hunmap : d.allocations.unmap start.toNat ((start.toNat + size.toNat) % 2 ^ 64) with
      | error fault =>
          rw [hunmap] at hok
          cases hok
      | ok t =>
          have hlt := lt_of_unmap hunmap
          obtain ⟨t', hunmap', hw, hlookup⟩ := unmap_spec hinv.wellFormed hlt
          rw [hunmap] at hunmap' hok
          cases hunmap'
          cases hok
          rw [add_mod_eq start.isLt size.isLt hlt] at hlookup
          refine hinv.release hw ?_ hlookup
          intro v hv
          cases hv

end System

def fresh (dmemTotalSize : BitVec 64) : System := ⟨⟨dmemTotalSize, .empty⟩, ∅⟩

-- The states of the runs in which every call of `allocate` is regular and finds its range in one
-- piece.
inductive Reachable (dmemTotalSize : BitVec 64) : System → Prop
  | fresh : Reachable dmemTotalSize (fresh dmemTotalSize)
  | step {s s' : System} {request : Request} (h : Reachable dmemTotalSize s)
      (hregular : ∀ args, request = .allocate args → s.Regular args ∧ s.InPieces args)
      (hstep : Step s request s') : Reachable dmemTotalSize s'

theorem invariant_of_reachable {dmemTotalSize : BitVec 64} {s : System}
    (h : Reachable dmemTotalSize s) : s.Invariant := by
  induction h with
  | fresh =>
      refine ⟨⟨trivial, rfl⟩, ?_⟩
      intro x
      constructor
      · exact fun h => absurd h (Set.notMem_empty x)
      · rintro ⟨v, hv, -⟩
        cases hv
  | step _ hregular hstep ih => exact ih.step (fun args hargs => (hregular args hargs).1) hstep

theorem dmem_sound {dmemTotalSize : BitVec 64} {s : System} (h : Reachable dmemTotalSize s)
    {args : AllocateDirectMemoryArgs} (hregular : s.Regular args) (hpieces : s.InPieces args) :
    s.Sound args :=
  (System.sound_iff (invariant_of_reachable h) hregular).mpr hpieces

-- An empty device: the only offset to set out from is the start.
theorem head_fresh {dmemTotalSize : BitVec 64} {start h : Nat}
    (hhead : (fresh dmemTotalSize).device.Head start h) : h = start := by
  rcases hhead with rfl | ⟨-, e, he, -⟩
  · rfl
  · cases he

theorem dmem_sound_fresh :
    (fresh 0x5000000000).Sound ⟨0, 0, 0x4000, 0x4000, 0⟩ := by
  have hfits : (fresh 0x5000000000).Fits ⟨0, 0, 0x4000, 0x4000, 0⟩ 0 :=
    ⟨by decide, by decide, by decide, by decide, fun x _ _ => Set.notMem_empty x⟩
  refine dmem_sound .fresh ⟨.inr ⟨14, by decide⟩, by decide, by decide, ?_, ?_⟩ ⟨?_, ?_⟩
  · intro h hhead _ _
    rw [head_fresh hhead]
    decide
  · intro h _ _ _ _ e he
    cases he
  · exact fun _ => ⟨0, hfits, trivial⟩
  · exact fun hnone => absurd hfits (hnone 0)

-- The end of the search window is not a bound of the range.
theorem first_allocation_not_sound :
    ¬(fresh 0x5000000000).Sound ⟨0, 0x4000, 0x10000, 0x4000, 0⟩ := by
  intro hsound
  have hwindow := (hsound.allocated 1 0 _ rfl).inWindow
  exact absurd hwindow (by decide)

end Rpcsx.Dmem
