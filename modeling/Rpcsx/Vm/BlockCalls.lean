import Rpcsx.Vm.Units

namespace Rpcsx.Vm

open Data.Alignment Data.Runs

section Flags

variable {bflags : BlockFlags}

theorem unitPages_or_allocated (state : PageInfo) :
    unitPages (state ||| pageAllocated) = unitPages state := by
  have hor (bits : PageInfo) (hbits : pageAllocated &&& bits = 0) :
      (state ||| pageAllocated) &&& bits = state &&& bits := by
    rw [BitVec.and_or_distrib_right, hbits]
    exact BitVec.or_zero
  rw [unitPages, unitPages, hor page1mSize rfl, hor page64kSize rfl]

-- Small pages are units of their own.
theorem unitPages_of_4k (h : bflags &&& pageSize4k ≠ 0) : unitPages (pageFlags bflags) = 1 := by
  have hmask (mask : BlockFlags) (hm : pageSize4k &&& mask = pageSize4k) :
      bflags &&& mask &&& pageSize4k = bflags &&& pageSize4k := by
    rw [BitVec.and_assoc, BitVec.and_comm mask, hm]
  have h64k : bflags &&& pageSizeMask ≠ pageSize64k := by
    intro heq
    have hzero := hmask pageSizeMask rfl
    rw [heq] at hzero
    exact h hzero.symm
  have h1m : bflags &&& (pageSizeMask &&& ~~~pageSize1m) ≠ 0 := by
    intro heq
    have hzero := hmask (pageSizeMask &&& ~~~pageSize1m) rfl
    rw [heq] at hzero
    exact h (hzero.symm.trans BitVec.zero_and)
  rw [pageFlags, if_neg h64k, if_neg h1m]
  split_ifs <;> rfl

theorem processBlockFlags_guarded {flags : BlockFlags}
    (h : processBlockFlags flags &&& stackGuarded ≠ 0) :
    processBlockFlags flags &&& pageSize4k ≠ 0 ∧ processBlockFlags flags &&& preallocated ≠ 0 := by
  rw [processBlockFlags] at h ⊢
  generalize (if flags &&& pageSizeMask = 0 then flags ||| pageSize1m else flags) = f at *
  split_ifs at h ⊢ with h4k
  · have hor (bits : BlockFlags) : (f ||| preallocated) &&& bits =
        f &&& bits ||| preallocated &&& bits := BitVec.and_or_distrib_right
    rw [hor, hor]
    refine ⟨?_, ?_⟩
    · intro hzero
      exact h4k (BitVec.or_eq_zero_iff.mp hzero).1
    · intro hzero
      exact absurd (BitVec.or_eq_zero_iff.mp hzero).2 (by decide)
  · rw [BitVec.and_assoc] at h
    exact absurd BitVec.and_zero h

end Flags

-- The pages of an allocation, its guards included.
def InMapping (m : Mapping) (p : Nat) : Prop :=
  m.addr / pageSize ≤ p ∧ p < m.addr / pageSize + m.size / pageSize

-- What an allocation does.
structure Mapped (b : Block) (pages : PageTable) (m : Mapping) (bflags : BlockFlags)
    (pages' : PageTable) (b' : Block) : Prop where
  free : ∀ p, InMapping m p → pages p = 0
  block : b' = b.insert m
  outside : ∀ p, ¬InMapping m p → pages' p = pages p
  inside : ∀ p, InMapping m p → pages' p = pageFlags bflags ||| pageAllocated ∨
    b.guarded = true ∧ pages' p = pageAllocated

section Calls

variable {b b' : Block} {pages pages' : PageTable} {bflags : BlockFlags} {addr size : Nat}
  {shm : Option Nat}

theorem setGuards_cases {first last : Nat} {value expected : PageInfo}
    (h : b.setGuards pages first last value expected = some pages') :
    (b.guarded = false ∧ pages' = pages) ∨
      (b.guarded = true ∧
        pages' = Function.update (Function.update pages first value) last value) := by
  rw [Block.setGuards] at h
  split_ifs at h with hguarded
  · simp only [exchange, Option.bind_eq_bind, Option.bind_eq_some_iff] at h
    obtain ⟨pages₁, hfirst, hlast⟩ := h
    split_ifs at hfirst hlast
    cases hfirst
    cases hlast
    exact .inr ⟨hguarded, rfl⟩
  · cases h
    exact .inl ⟨by simpa using hguarded, rfl⟩

theorem pageMap_eq {flags : PageInfo} (h : pageMap pages addr flags size = some pages') :
    pages' = fill pages (addr / pageSize) (addr / pageSize + size / pageSize)
      (flags ||| pageAllocated) := by
  rw [pageMap] at h
  split_ifs at h
  cases h
  rfl

theorem Mapped.of_tryAlloc (hend : addr + size ≤ 2 ^ 32) (hsize : 0 < size)
    (hlt : size < 2 ^ 32) (hguard : b.guarded = true → 0x3000 ≤ size)
    (h : b.tryAlloc pages addr bflags size shm = some (some (pages', b'))) :
    Mapped b pages ⟨addr, size, shm⟩ bflags pages' b' := by
  rw [Block.tryAlloc] at h
  split_ifs at h with hfree
  swap
  · cases h
  simp only [Option.bind_eq_bind, Option.bind_eq_some_iff] at h
  obtain ⟨pages₁, hguards, pages₂, hmap, hresult⟩ := h
  cases hresult
  have hlast : u32 (addr + size + 2 ^ 32 - 1) = addr + size - 1 := by
    rw [u32]
    omega
  rw [hlast] at hfree
  refine ⟨?_, rfl, ?_, ?_⟩
  · rintro p ⟨hfirst, hp⟩
    have hzero := hfree (p - addr / pageSize) (by simp only [pageSize] at *; omega)
    rwa [Nat.add_sub_cancel' hfirst] at hzero
  · intro p hp
    rw [pageMap_eq hmap]
    rcases setGuards_cases hguards with ⟨hg, rfl⟩ | ⟨hg, rfl⟩
    · simp only [Block.guardSize, hg, Bool.false_eq_true, if_false, u32, fill, InMapping,
        pageSize] at *
      rw [if_neg (by omega)]
    · have hroom := hguard hg
      simp only [Block.guardSize, hg, if_true, u32, fill, InMapping, pageSize] at *
      rw [if_neg (by omega), Function.update_of_ne (by omega), Function.update_of_ne (by omega)]
  · intro p hp
    rw [pageMap_eq hmap]
    rcases setGuards_cases hguards with ⟨hg, rfl⟩ | ⟨hg, rfl⟩
    · left
      simp only [Block.guardSize, hg, Bool.false_eq_true, if_false, u32, fill, InMapping,
        pageSize] at *
      rw [if_pos (by omega)]
    · have hroom := hguard hg
      simp only [Block.guardSize, hg, if_true, u32, fill, InMapping, pageSize] at *
      split_ifs with hin
      · exact .inl rfl
      · right
        refine ⟨trivial, ?_⟩
        rcases Nat.eq_or_lt_of_le hp.1 with heq | hgt
        · rw [Function.update_of_ne (by omega), heq, Function.update_self]
        · have hguardPage : p = addr / 4096 + size / 4096 - 1 := by omega
          rw [hguardPage, Function.update_self]

-- The search tries multiples of the alignment up to the last one.
theorem search_cases {align max result r : Nat} (halign : 0 < align) (hmax : align ∣ max)
    {rounds : Nat} (haddr : align ∣ addr) (hle : addr ≤ max)
    (h : b.search pages bflags size align max result shm rounds addr = some (r, pages', b')) :
    (pages' = pages ∧ b' = b) ∨ ∃ place, align ∣ place ∧ place ≤ max ∧
      b.tryAlloc pages place bflags size shm = some (some (pages', b')) := by
  induction rounds generalizing addr with
  | zero =>
      cases h
      exact .inl ⟨rfl, rfl⟩
  | succ rounds ih =>
      simp only [Block.search, Option.bind_eq_bind, Option.bind_eq_some_iff] at h
      obtain ⟨tried, htry, h⟩ := h
      cases tried with
      | some found =>
          cases h
          exact .inr ⟨addr, haddr, hle, htry⟩
      | none =>
          simp only at h
          split_ifs at h with hlast
          · cases h
            exact .inl ⟨rfl, rfl⟩
          · obtain ⟨i, rfl⟩ := haddr
            obtain ⟨j, rfl⟩ := hmax
            have hij : i + 1 ≤ j := by
              have hne : i ≠ j := fun heq => hlast (by rw [heq])
              have hij := Nat.le_of_mul_le_mul_left hle halign
              omega
            refine ih ⟨i + 1, rfl⟩ ?_ h
            exact Nat.mul_le_mul_left align hij

-- Without memory of the caller the flags are those of the block, but for the protection.
theorem callFlags_and {flags bits : BlockFlags} (hbits : allocProtMask &&& bits = 0)
    (hkeep : ~~~allocProtMask &&& bits = bits) :
    b.callFlags none flags &&& bits = b.flags &&& bits := by
  rw [Block.callFlags, Option.isNone_none, if_pos rfl, BitVec.and_or_distrib_right,
    BitVec.and_assoc, BitVec.and_assoc, hbits, hkeep]
  simp

theorem minPageSize_cases (flags : BlockFlags) :
    Block.minPageSize flags = 2 ^ 12 ∨ Block.minPageSize flags = 2 ^ 16 := by
  rw [Block.minPageSize]
  split_ifs
  · exact .inl rfl
  · exact .inr rfl

-- With its guards an allocation has at least three pages.
theorem three_pages_le {flags : BlockFlags} {origSize : Nat} (horig : 0 < origSize)
    (hguard : flags &&& stackGuarded ≠ 0) (hle : origSize ≤ Block.allocSize flags origSize) :
    0x3000 ≤ Block.allocSize flags origSize := by
  obtain ⟨k, hk, hlow, hhigh, hmin⟩ : ∃ k, k ≤ 32 ∧ 12 ≤ k ∧ 2 ^ k ≤ 2 ^ 16 ∧
      Block.minPageSize flags = 2 ^ k := by
    rcases minPageSize_cases flags with h | h
    · exact ⟨12, by decide, by decide, by decide, h⟩
    · exact ⟨16, by decide, by decide, by decide, h⟩
  have hdvd : 2 ^ 12 ∣ roundUp 32 origSize (2 ^ k) :=
    (Nat.pow_dvd_pow 2 hlow).trans (roundUp_dvd hk)
  have hlower : origSize + (2 ^ k - 1) < 2 ^ 32 → origSize ≤ roundUp 32 origSize (2 ^ k) :=
    le_roundUp hk
  have hupper : roundUp 32 origSize (2 ^ k) ≤ (origSize + (2 ^ k - 1)) % 2 ^ 32 := by
    rw [roundUp_eq hk]
    exact Nat.div_mul_le_self _ _
  simp only [Block.allocSize, hmin, if_pos hguard, u32] at hle ⊢
  omega

-- A mapping that a call can have made in its block.
structure Fits (b : Block) (m : Mapping) : Prop where
  end_le : m.addr + m.size ≤ 2 ^ 32
  pos : 0 < m.size
  lt : m.size < 2 ^ 32
  guards : b.guarded = true → 0x3000 ≤ m.size

-- The last place that the search tries.
theorem last_place {align : Nat} (halign : align < 2 ^ 32) (hpower : align = 2 ^ Nat.log 2 align)
    (n : Nat) : align ∣ u32 n &&& u32 (2 ^ 32 - align) ∧ u32 n &&& u32 (2 ^ 32 - align) ≤ u32 n := by
  generalize Nat.log 2 align = k at hpower
  subst hpower
  have hk : k < 32 := (Nat.pow_lt_pow_iff_right (by decide)).mp halign
  have hpos := Nat.two_pow_pos k
  have hmask : u32 (2 ^ 32 - 2 ^ k) = 2 ^ 32 - 1 - (2 ^ k - 1) := by
    rw [u32]
    omega
  refine ⟨?_, Nat.and_le_left⟩
  rw [hmask, u32, and_high (Nat.mod_lt _ (by decide)) (Nat.le_of_lt hk)]
  exact Nat.dvd_mul_left _ _

theorem roundUp_dvd_of_power {align : Nat} (halign : align < 2 ^ 32)
    (hpower : align = 2 ^ Nat.log 2 align) (n : Nat) : align ∣ roundUp 32 n align := by
  generalize Nat.log 2 align = k at hpower
  subst hpower
  have hk : k < 32 := (Nat.pow_lt_pow_iff_right (by decide)).mp halign
  exact roundUp_dvd (Nat.le_of_lt hk)

section Guarded

variable (hguarded : b.guarded = true → b.flags &&& pageSize4k ≠ 0 ∧ b.common = true)

include hguarded

-- A guarded block takes no memory of the caller, and has small pages.
theorem callFlags_of_guarded {src : Option Nat} {flags : BlockFlags} (hg : b.guarded = true)
    (hcommon : ¬(b.common = true ∧ src.isSome = true)) :
    b.callFlags src flags &&& pageSize4k ≠ 0 ∧ b.callFlags src flags &&& stackGuarded ≠ 0 := by
  obtain ⟨h4k, hc⟩ := hguarded hg
  have hsrc : src = none := by simpa [hc] using hcommon
  rw [hsrc, callFlags_and rfl rfl, callFlags_and rfl rfl]
  exact ⟨h4k, by simpa [Block.guarded] using hg⟩

theorem alloc_cases {origSize align r created : Nat} {src : Option Nat} {flags : BlockFlags}
    (hbounds : b.addr + b.size ≤ 2 ^ 32) (halign : align < 2 ^ 32)
    (h : b.alloc pages origSize src align flags created = some (r, pages', b')) :
    (pages' = pages ∧ b' = b) ∨ ∃ place shm, align ∣ place ∧
      Fits b ⟨place, Block.allocSize (b.callFlags src flags) origSize, shm⟩ ∧
      (b.guarded = true → b.callFlags src flags &&& pageSize4k ≠ 0) ∧
      Mapped b pages ⟨place, Block.allocSize (b.callFlags src flags) origSize, shm⟩
        (b.callFlags src flags) pages' b' := by
  simp only [Block.alloc] at h
  generalize (if b.callFlags src flags &&& stackGuarded ≠ 0 then 0x1000 else 0) = result at h
  generalize (if b.common = true then none else some (src.getD created)) = shm at h
  split_ifs at h with hinvalid hsize hcommon hmax hvalid
  · cases h
    exact .inl ⟨rfl, rfl⟩
  · cases h
    exact .inl ⟨rfl, rfl⟩
  · cases h
    exact .inl ⟨rfl, rfl⟩
  · have hpower : align = 2 ^ Nat.log 2 align := by
      by_contra hne
      exact hinvalid (.inr hne)
    have hpos : 0 < align := by
      rw [hpower]
      exact Nat.two_pow_pos _
    obtain ⟨hmaxdvd, hmaxle⟩ := last_place halign hpower
      (b.addr + b.size + 2 ^ 32 - Block.allocSize (b.callFlags src flags) origSize)
    rcases search_cases hpos hmaxdvd (roundUp_dvd_of_power halign hpower b.addr) (by omega) h with
      hsame | ⟨place, hdvd, hle, htry⟩
    · exact .inl hsame
    · have hlt : Block.allocSize (b.callFlags src flags) origSize < 2 ^ 32 :=
        Nat.mod_lt _ (by decide)
      have hfits : Fits b ⟨place, Block.allocSize (b.callFlags src flags) origSize, shm⟩ := by
        refine ⟨?_, ?_, hlt, ?_⟩
        · have hroom := hle.trans hmaxle
          rw [u32] at hroom
          simp only
          omega
        · simp only
          omega
        · intro hg
          obtain ⟨-, hstack⟩ := callFlags_of_guarded hguarded hg hcommon
          exact three_pages_le (by omega) hstack (by omega)
      refine .inr ⟨place, shm, hdvd, hfits, ?_,
        .of_tryAlloc hfits.end_le hfits.pos hfits.lt hfits.guards htry⟩
      exact fun hg => (callFlags_of_guarded hguarded hg hcommon).1

theorem falloc_cases {origSize created : Nat} {r : Bool} {src : Option Nat} {flags : BlockFlags}
    (hbounds : b.addr + b.size ≤ 2 ^ 32)
    (h : b.falloc pages addr origSize src flags created = some (r, pages', b')) :
    (pages' = pages ∧ b' = b) ∨ ∃ shm,
      Fits b ⟨addr - addr % Block.minPageSize (b.callFlags src flags),
        Block.fallocSize (b.callFlags src flags) addr origSize, shm⟩ ∧
      (b.guarded = true → b.callFlags src flags &&& pageSize4k ≠ 0) ∧
      Mapped b pages ⟨addr - addr % Block.minPageSize (b.callFlags src flags),
        Block.fallocSize (b.callFlags src flags) addr origSize, shm⟩
        (b.callFlags src flags) pages' b' := by
  simp only [Block.falloc] at h
  generalize (if b.common = true then none else some (src.getD created)) = shm at h
  split_ifs at h with hinvalid hcommon hvalid
  · cases h
    exact .inl ⟨rfl, rfl⟩
  · cases h
    exact .inl ⟨rfl, rfl⟩
  · simp only [Option.bind_eq_bind, Option.bind_eq_some_iff] at h
    obtain ⟨tried, htry, h⟩ := h
    cases tried with
    | none =>
        cases h
        exact .inl ⟨rfl, rfl⟩
    | some found =>
        cases h
        have hlt : Block.fallocSize (b.callFlags src flags) addr origSize < 2 ^ 32 :=
          Nat.lt_of_le_of_lt Nat.and_le_left (Nat.mod_lt _ (by decide))
        have hg : b.guarded = true → False := by
          intro hg
          exact hinvalid (.inr (.inr (.inr (.inr (.inr (.inr
            (callFlags_of_guarded hguarded hg hcommon).2))))))
        have hfits : Fits b ⟨addr - addr % Block.minPageSize (b.callFlags src flags),
            Block.fallocSize (b.callFlags src flags) addr origSize, shm⟩ := by
          refine ⟨?_, ?_, hlt, fun h => (hg h).elim⟩
          · simp only
            omega
          · simp only
            omega
        exact .inr ⟨shm, hfits, fun h => (hg h).elim,
          .of_tryAlloc hfits.end_le hfits.pos hfits.lt hfits.guards htry⟩

end Guarded

theorem pageUnmap_eq {maxSize unmapped : Nat}
    (h : pageUnmap pages addr maxSize = some (unmapped, pages')) : ∃ count,
      unmapped = count * pageSize ∧
        pages' = fill pages (addr / pageSize) (addr / pageSize + count) 0 := by
  rw [pageUnmap] at h
  split_ifs at h
  simp only [Option.bind_eq_bind, Option.bind_eq_some_iff] at h
  obtain ⟨count, -, hresult⟩ := h
  cases hresult
  exact ⟨count, rfl, rfl⟩

theorem dealloc_cases {r : Nat} {src : Option Nat} (haddr : addr < 2 ^ 32)
    (hfits : ∀ m ∈ b.map, Fits b m) (h : b.dealloc pages addr src = some (r, pages', b')) :
    (pages' = pages ∧ b' = b) ∨ ∃ m ∈ b.map, b' = b.erase m.addr ∧
      (∀ p, InMapping m p → pages' p = 0) ∧ ∀ p, ¬InMapping m p → pages' p = pages p := by
  simp only [Block.dealloc] at h
  cases hfind : b.map.find? fun m => m.addr = u32 (addr + 2 ^ 32 - b.guardSize) with
  | none =>
      simp only [hfind] at h
      cases h
      exact .inl ⟨rfl, rfl⟩
  | some m =>
      simp only [hfind] at h
      split_ifs at h with hsrc
      · cases h
        exact .inl ⟨rfl, rfl⟩
      · have hmem := List.mem_of_find?_eq_some hfind
        have hkey : m.addr = u32 (addr + 2 ^ 32 - b.guardSize) := by
          simpa using List.find?_some hfind
        obtain ⟨hend, hpos, hlt, hguards⟩ := hfits m hmem
        simp only [Option.bind_eq_bind, Option.bind_eq_some_iff] at h
        obtain ⟨pages₁, hset, ⟨unmapped, pages₂⟩, hunmap, h⟩ := h
        obtain ⟨count, rfl, rfl⟩ := pageUnmap_eq hunmap
        simp only at h
        split_ifs at h with hcount
        cases h
        refine .inr ⟨m, hmem, by rw [hkey], ?_⟩
        rcases setGuards_cases hset with ⟨hg, rfl⟩ | ⟨hg, rfl⟩
        · simp only [Block.guardSize, hg, Bool.false_eq_true, if_false, u32, InMapping,
            pageSize] at *
          refine ⟨?_, ?_⟩
          · intro p hp
            exact fill_of_mem (by omega)
          · intro p hp
            exact fill_of_not_mem (by omega)
        · have hroom := hguards hg
          simp only [Block.guardSize, hg, if_true, u32, InMapping, pageSize] at *
          refine ⟨?_, ?_⟩
          · intro p hp
            by_cases hin : addr / 4096 ≤ p ∧ p < addr / 4096 + count
            · exact fill_of_mem hin
            · rw [fill_of_not_mem hin]
              rcases Nat.eq_or_lt_of_le hp.1 with heq | hgt
              · have hguardPage : p = addr / 4096 - 1 := by omega
                rw [Function.update_of_ne (by omega), hguardPage, Function.update_self]
              · have hguardPage : p = addr / 4096 +
                    (m.size + 2 ^ 32 - 2 * 4096) % 2 ^ 32 / 4096 := by omega
                rw [hguardPage, Function.update_self]
          · intro p hp
            rw [fill_of_not_mem (by omega), Function.update_of_ne (by omega),
              Function.update_of_ne (by omega)]

end Calls

end Rpcsx.Vm
