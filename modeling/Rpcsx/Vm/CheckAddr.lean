import Rpcsx.Vm.BlockCalls

namespace Rpcsx.Vm

-- A range of whole units holds the units of its pages.
theorem mem_of_unit {unit first count p q : Nat} (hunit : 0 < unit) (hfirst : unit ∣ first)
    (hcount : unit ∣ count) (hp : first ≤ p ∧ p < first + count) (heq : q / unit = p / unit) :
    first ≤ q ∧ q < first + count := by
  obtain ⟨a, rfl⟩ := hfirst
  obtain ⟨c, rfl⟩ := hcount
  rw [← Nat.mul_add] at hp ⊢
  rw [Nat.mul_comm unit, Nat.mul_comm unit] at hp ⊢
  rw [← Nat.le_div_iff_mul_le hunit, ← Nat.div_lt_iff_lt_mul hunit] at hp ⊢
  rwa [heq]

variable {ι : Type} [DecidableEq ι]

namespace System

section Set

variable {s : System ι} {i j : ι} {pages : PageTable} {b : Block}

@[simp] theorem set_pages : (s.set i pages b).pages = pages := rfl

@[simp] theorem set_self : (s.set i pages b).blocks i = b := Function.update_self ..

theorem set_of_ne (h : j ≠ i) : (s.set i pages b).blocks j = s.blocks j :=
  Function.update_of_ne h ..

end Set

structure Invariant (s : System ι) : Prop where
  bounds : ∀ i, (s.blocks i).addr + (s.blocks i).size ≤ 2 ^ 32
  guarded : ∀ i, (s.blocks i).guarded = true →
    (s.blocks i).flags &&& pageSize4k ≠ 0 ∧ (s.blocks i).common = true
  fits : ∀ i, ∀ m ∈ (s.blocks i).map, Fits (s.blocks i) m
  uniform : Uniform s.pages
  allocated : ∀ i, ∀ m ∈ (s.blocks i).map, ∀ p, InMapping m p → s.pages p &&& pageAllocated ≠ 0
  whole : ∀ i, ∀ m ∈ (s.blocks i).map, ∀ p, InMapping m p →
    unitPages (s.pages p) ∣ m.addr / pageSize ∧ unitPages (s.pages p) ∣ m.size / pageSize
  apart : ∀ i j, ∀ m ∈ (s.blocks i).map, ∀ m' ∈ (s.blocks j).map, ∀ p, InMapping m p →
    InMapping m' p → i = j ∧ m = m'

namespace Invariant

variable {s : System ι} (hinv : s.Invariant) {i : ι} {m : Mapping} {pages : PageTable} {b : Block}

theorem mem_insert {m' : Mapping} (h : m' ∈ (b.insert m).map) : m' = m ∨ m' ∈ b.map := by
  rcases List.mem_cons.mp h with h | h
  · exact .inl h
  · exact .inr (List.mem_of_mem_filter h)

include hinv

theorem map {bflags : BlockFlags} (hmapped : Mapped (s.blocks i) s.pages m bflags pages b)
    (hfits : Fits (s.blocks i) m)
    (h4k : (s.blocks i).guarded = true → bflags &&& pageSize4k ≠ 0)
    (hwhole : unitPages (pageFlags bflags) ∣ m.addr / pageSize ∧
      unitPages (pageFlags bflags) ∣ m.size / pageSize) : (s.set i pages b).Invariant := by
  obtain ⟨hfree, rfl, houtside, hinside⟩ := hmapped
  have hunit (p : Nat) (hp : InMapping m p) : unitPages (pages p) = unitPages (pageFlags bflags) := by
    rcases hinside p hp with h | ⟨hg, h⟩
    · rw [h, unitPages_or_allocated]
    · rw [h, unitPages_of_4k (h4k hg)]
      rfl
  -- an older mapping has none of the new pages
  have hold {j : ι} {m' : Mapping} (hm : m' ∈ (s.blocks j).map) {p : Nat} (hp : InMapping m' p) :
      ¬InMapping m p := by
    intro hp'
    have halloc := hinv.allocated j m' hm p hp
    rw [hfree p hp'] at halloc
    exact halloc rfl
  have hmem {j : ι} {m' : Mapping} (hm : m' ∈ ((s.set i pages ((s.blocks i).insert m)).blocks j).map) :
      (j = i ∧ m' = m) ∨ m' ∈ (s.blocks j).map := by
    by_cases hj : j = i
    · subst hj
      rw [set_self] at hm
      exact (mem_insert hm).imp_left fun h => ⟨rfl, h⟩
    · rw [set_of_ne hj] at hm
      exact .inr hm
  have hblock (j : ι) : ∃ map, (s.set i pages ((s.blocks i).insert m)).blocks j =
      { s.blocks j with map } := by
    by_cases hj : j = i
    · subst hj
      exact ⟨_, set_self⟩
    · exact ⟨(s.blocks j).map, set_of_ne hj⟩
  refine ⟨?_, ?_, ?_, ?_, ?_, ?_, ?_⟩
  · intro j
    obtain ⟨map, hj⟩ := hblock j
    rw [hj]
    exact hinv.bounds j
  · intro j
    obtain ⟨map, hj⟩ := hblock j
    rw [hj]
    exact hinv.guarded j
  · intro j m' hm
    obtain ⟨map, hj⟩ := hblock j
    have hfits' : Fits (s.blocks j) m' := by
      rcases hmem hm with ⟨rfl, rfl⟩ | hm
      · exact hfits
      · exact hinv.fits j m' hm
    rw [hj]
    exact ⟨hfits'.end_le, hfits'.pos, hfits'.lt, hfits'.guards⟩
  · intro p q hpq
    by_cases hp : InMapping m p
    · rw [set_pages, hunit p hp] at hpq
      rcases Nat.eq_or_lt_of_le (unitPages_pos (pageFlags bflags)) with hone | hlarge
      · rw [← hone, Nat.div_one, Nat.div_one] at hpq
        rw [hpq]
      · have hq : InMapping m q :=
          mem_of_unit (unitPages_pos _) hwhole.1 hwhole.2 hp hpq
        have hg : ¬(s.blocks i).guarded = true := by
          intro hg
          rw [unitPages_of_4k (h4k hg)] at hlarge
          omega
        have hflags {p : Nat} (hp : InMapping m p) : pages p = pageFlags bflags ||| pageAllocated :=
          (hinside p hp).resolve_right fun h => hg h.1
        exact (hflags hq).trans (hflags hp).symm
    · rw [set_pages, houtside p hp] at hpq
      have hqp := hinv.uniform p q hpq
      have hq : ¬InMapping m q := by
        intro hq
        rw [← hqp, hfree q hq] at hpq
        have hsame : q = p := by simpa [unitPages] using hpq
        exact hp (hsame ▸ hq)
      rw [set_pages, houtside p hp, houtside q hq, hqp]
  · intro j m' hm p hp
    rcases hmem hm with ⟨-, rfl⟩ | hm
    · rcases hinside p hp with h | ⟨-, h⟩
      · rw [set_pages, h, BitVec.and_or_distrib_right]
        intro hzero
        exact absurd (BitVec.or_eq_zero_iff.mp hzero).2 (by decide)
      · rw [set_pages, h]
        decide
    · rw [set_pages, houtside p (hold hm hp)]
      exact hinv.allocated j m' hm p hp
  · intro j m' hm p hp
    rcases hmem hm with ⟨-, rfl⟩ | hm
    · rw [set_pages, hunit p hp]
      exact hwhole
    · rw [set_pages, houtside p (hold hm hp)]
      exact hinv.whole j m' hm p hp
  · intro j k m₁ hm₁ m₂ hm₂ p hp₁ hp₂
    rcases hmem hm₁ with ⟨hj, h₁⟩ | hm₁
    · rcases hmem hm₂ with ⟨hk, h₂⟩ | hm₂
      · exact ⟨hj.trans hk.symm, h₁.trans h₂.symm⟩
      · exact absurd (h₁ ▸ hp₁) (hold hm₂ hp₂)
    · rcases hmem hm₂ with ⟨hk, h₂⟩ | hm₂
      · exact absurd (h₂ ▸ hp₂) (hold hm₁ hp₁)
      · exact hinv.apart j k m₁ hm₁ m₂ hm₂ p hp₁ hp₂

theorem unmap (hm : m ∈ (s.blocks i).map) (hinside : ∀ p, InMapping m p → pages p = 0)
    (houtside : ∀ p, ¬InMapping m p → pages p = s.pages p) :
    (s.set i pages ((s.blocks i).erase m.addr)).Invariant := by
  have hmem {j : ι} {m' : Mapping}
      (hm' : m' ∈ ((s.set i pages ((s.blocks i).erase m.addr)).blocks j).map) :
      m' ∈ (s.blocks j).map ∧ ¬(i = j ∧ m = m') := by
    by_cases hj : j = i
    · subst hj
      rw [set_self] at hm'
      obtain ⟨hm', hne⟩ := List.mem_filter.mp hm'
      refine ⟨hm', ?_⟩
      rintro ⟨-, rfl⟩
      simp at hne
    · rw [set_of_ne hj] at hm'
      exact ⟨hm', fun h => hj h.1.symm⟩
  -- the other mappings keep their pages
  have hkeep {j : ι} {m' : Mapping}
      (hm' : m' ∈ ((s.set i pages ((s.blocks i).erase m.addr)).blocks j).map) {p : Nat}
      (hp : InMapping m' p) : pages p = s.pages p := by
    obtain ⟨hm', hne⟩ := hmem hm'
    exact houtside p fun hp' => hne (hinv.apart i j m hm m' hm' p hp' hp)
  have hblock (j : ι) : ∃ map, (s.set i pages ((s.blocks i).erase m.addr)).blocks j =
      { s.blocks j with map } := by
    by_cases hj : j = i
    · subst hj
      exact ⟨_, set_self⟩
    · exact ⟨(s.blocks j).map, set_of_ne hj⟩
  refine ⟨?_, ?_, ?_, ?_, ?_, ?_, ?_⟩
  · intro j
    obtain ⟨map, hj⟩ := hblock j
    rw [hj]
    exact hinv.bounds j
  · intro j
    obtain ⟨map, hj⟩ := hblock j
    rw [hj]
    exact hinv.guarded j
  · intro j m' hm'
    obtain ⟨map, hj⟩ := hblock j
    have hfits := hinv.fits j m' (hmem hm').1
    rw [hj]
    exact ⟨hfits.end_le, hfits.pos, hfits.lt, hfits.guards⟩
  · intro p q hpq
    rw [set_pages] at hpq ⊢
    by_cases hp : InMapping m p
    · rw [hinside p hp] at hpq
      have hsame : q = p := by simpa [unitPages] using hpq
      rw [hsame]
    · rw [houtside p hp] at hpq
      have hqp := hinv.uniform p q hpq
      have hq : ¬InMapping m q := by
        intro hq
        obtain ⟨haddr, hsize⟩ := hinv.whole i m hm q hq
        rw [← hqp] at hpq
        exact hp (mem_of_unit (unitPages_pos _) haddr hsize hq hpq.symm)
      rw [houtside p hp, houtside q hq, hqp]
  · intro j m' hm' p hp
    rw [set_pages, hkeep hm' hp]
    exact hinv.allocated j m' (hmem hm').1 p hp
  · intro j m' hm' p hp
    rw [set_pages, hkeep hm' hp]
    exact hinv.whole j m' (hmem hm').1 p hp
  · intro j k m₁ hm₁ m₂ hm₂
    exact hinv.apart j k m₁ (hmem hm₁).1 m₂ (hmem hm₂).1

omit [DecidableEq ι] in
theorem protect {flagsSet flagsClear : PageInfo} {first last : Nat}
    (h : Protected s.pages flagsSet flagsClear first last pages)
    (hset : flagsSet &&& unitFlags = 0) (hclear : flagsClear &&& unitFlags = 0)
    (hset' : flagsSet &&& pageAllocated = 0) (hclear' : flagsClear &&& pageAllocated = 0)
    (hwhole : ∀ p q, first ≤ p → p < last →
      q / unitPages (s.pages p) = p / unitPages (s.pages p) → first ≤ q ∧ q < last) :
    Invariant { s with pages } := by
  refine ⟨hinv.bounds, hinv.guarded, hinv.fits, h.uniform hset hclear hinv.uniform hwhole, ?_, ?_,
    hinv.apart⟩
  · intro j m hm p hp
    rw [h.and_eq hset' hclear']
    exact hinv.allocated j m hm p hp
  · intro j m hm p hp
    rw [h.unitPages_eq hset hclear]
    exact hinv.whole j m hm p hp

end Invariant

-- An allocation of large pages takes whole units.
def WholeUnits (bflags : BlockFlags) (addr size : Nat) : Prop :=
  unitPages (pageFlags bflags) * pageSize ∣ addr ∧ unitPages (pageFlags bflags) * pageSize ∣ size

-- The range of `page_protect` consists of whole units, whose size flags and whose allocation stay.
structure ProtectsUnits (pages : PageTable) (addr size : Nat) (flagsSet flagsClear : PageInfo) :
    Prop where
  whole : ∀ p q, InRange addr size p → q / unitPages (pages p) = p / unitPages (pages p) →
    InRange addr size q
  set : flagsSet &&& ~~~(flagsSet &&& flagsClear) &&& (unitFlags ||| pageAllocated) = 0
  clear : flagsClear &&& ~~~(flagsSet &&& flagsClear) &&& (unitFlags ||| pageAllocated) = 0

-- The calls that keep units whole.
def Regular (s : System ι) : Call ι → Prop
  | .alloc block origSize src align flags _ =>
      unitPages (pageFlags ((s.blocks block).callFlags src flags)) = 1 ∨
        WholeUnits ((s.blocks block).callFlags src flags) align.toNat
          (Block.allocSize ((s.blocks block).callFlags src flags) origSize.toNat)
  | .falloc block addr origSize src flags _ =>
      unitPages (pageFlags ((s.blocks block).callFlags src flags)) = 1 ∨
        WholeUnits ((s.blocks block).callFlags src flags)
          (addr.toNat - addr.toNat % Block.minPageSize ((s.blocks block).callFlags src flags))
          (Block.fallocSize ((s.blocks block).callFlags src flags) addr.toNat origSize.toNat)
  | .dealloc _ _ _ => True
  | .pageProtect addr size flagsTest flagsSet flagsClear =>
      checkAddr s.pages addr.toNat (flagsTest ||| pageAllocated) size.toNat = true →
        ProtectsUnits s.pages addr.toNat size.toNat flagsSet flagsClear

-- Empty memory, with any blocks.
structure Start (s : System ι) : Prop where
  bounds : ∀ i, (s.blocks i).addr + (s.blocks i).size ≤ 2 ^ 32
  flags : ∀ i, ∃ flags, (s.blocks i).flags = processBlockFlags flags
  map : ∀ i, (s.blocks i).map = []
  pages : s.pages = fun _ => 0

-- The states of the runs of regular calls.
inductive Reachable (start : System ι) : System ι → Prop
  | start : Reachable start start
  | step {s s' : System ι} {call : Call ι} (h : Reachable start s) (hregular : s.Regular call)
      (hstep : s.step call = some s') : Reachable start s'

variable {start s s' : System ι}

omit [DecidableEq ι] in
theorem Start.invariant (h : s.Start) : s.Invariant := by
  have hnone (i : ι) (m : Mapping) : m ∉ (s.blocks i).map := by
    rw [h.map i]
    exact List.not_mem_nil
  refine ⟨h.bounds, ?_, ?_, ?_, ?_, ?_, ?_⟩
  · intro i hg
    obtain ⟨flags, hflags⟩ := h.flags i
    simp only [Block.guarded, Block.common, hflags, decide_eq_true_eq] at hg ⊢
    exact processBlockFlags_guarded hg
  · exact fun i m hm => absurd hm (hnone i m)
  · intro p q _
    rw [h.pages]
  · exact fun i m hm => absurd hm (hnone i m)
  · exact fun i m hm => absurd hm (hnone i m)
  · exact fun i j m hm => absurd hm (hnone i m)

theorem aligned_of_or {a b : Nat} (h : (a ||| b) % pageSize = 0) : pageSize ∣ a ∧ pageSize ∣ b := by
  have hor : (a ||| b) % 2 ^ 12 = a % 2 ^ 12 ||| b % 2 ^ 12 := Nat.or_mod_two_pow
  have hzero : a % 2 ^ 12 ||| b % 2 ^ 12 = 0 := hor.symm.trans h
  rw [Nat.or_eq_zero_iff] at hzero
  exact ⟨Nat.dvd_of_mod_eq_zero hzero.1, Nat.dvd_of_mod_eq_zero hzero.2⟩

theorem aligned_of_pageProtect {pages : PageTable} {addr size : Nat}
    {flagsTest flagsSet flagsClear : PageInfo} {r : Bool × PageTable}
    (h : pageProtect pages addr size flagsTest flagsSet flagsClear = some r) :
    pageSize ∣ size ∧ pageSize ∣ addr := by
  rw [pageProtect] at h
  split_ifs at h with hinvalid
  all_goals
    refine aligned_of_or ?_
    by_contra hne
    exact hinvalid (.inr hne)

-- The units of an allocation, in pages.
theorem WholeUnits.pages {bflags : BlockFlags} {addr size : Nat}
    (h : unitPages (pageFlags bflags) = 1 ∨ WholeUnits bflags addr size) :
    unitPages (pageFlags bflags) ∣ addr / pageSize ∧ unitPages (pageFlags bflags) ∣ size / pageSize := by
  rcases h with h | h
  · rw [h]
    exact ⟨Nat.one_dvd _, Nat.one_dvd _⟩
  · exact ⟨Nat.dvd_div_of_mul_dvd (Nat.mul_comm _ _ ▸ h.1),
      Nat.dvd_div_of_mul_dvd (Nat.mul_comm _ _ ▸ h.2)⟩

theorem Invariant.set_same (hinv : s.Invariant) (i : ι) :
    (s.set i s.pages (s.blocks i)).Invariant := by
  rw [System.set, Function.update_eq_self]
  exact hinv

theorem Invariant.step {call : Call ι} (hinv : s.Invariant) (hregular : s.Regular call)
    (h : s.step call = some s') : s'.Invariant := by
  cases call with
  | alloc i origSize src align flags created =>
      simp only [System.step, Option.bind_eq_bind, Option.bind_eq_some_iff] at h
      obtain ⟨⟨r, pages, b⟩, halloc, h⟩ := h
      cases h
      rcases alloc_cases (hinv.guarded i) (hinv.bounds i) align.isLt halloc with
        ⟨rfl, rfl⟩ | ⟨place, shm, hplace, hfits, h4k, hmapped⟩
      · exact hinv.set_same i
      · refine hinv.map hmapped hfits h4k (WholeUnits.pages ?_)
        exact hregular.imp_right fun h => ⟨h.1.trans hplace, h.2⟩
  | falloc i addr origSize src flags created =>
      simp only [System.step, Option.bind_eq_bind, Option.bind_eq_some_iff] at h
      obtain ⟨⟨r, pages, b⟩, hfalloc, h⟩ := h
      cases h
      rcases falloc_cases (hinv.guarded i) (hinv.bounds i) hfalloc with
        ⟨rfl, rfl⟩ | ⟨shm, hfits, h4k, hmapped⟩
      · exact hinv.set_same i
      · exact hinv.map hmapped hfits h4k (WholeUnits.pages hregular)
  | dealloc i addr src =>
      simp only [System.step, Option.bind_eq_bind, Option.bind_eq_some_iff] at h
      obtain ⟨⟨r, pages, b⟩, hdealloc, h⟩ := h
      cases h
      rcases dealloc_cases addr.isLt (hinv.fits i) hdealloc with
        ⟨rfl, rfl⟩ | ⟨m, hm, rfl, hinside, houtside⟩
      · exact hinv.set_same i
      · exact hinv.unmap hm hinside houtside
  | pageProtect addr size flagsTest flagsSet flagsClear =>
      simp only [System.step, Option.bind_eq_bind, Option.bind_eq_some_iff] at h
      obtain ⟨⟨r, pages⟩, hprotect, h⟩ := h
      cases h
      obtain ⟨hsize, haddr⟩ := aligned_of_pageProtect hprotect
      rcases @pageProtect_cases s.pages addr.toNat size.toNat flagsTest flagsSet flagsClear haddr
        hsize with ⟨-, hnone⟩ | ⟨-, hfalse⟩ | ⟨hcheck, pages', htrue, hprotected⟩
      · rw [hprotect] at hnone
        cases hnone
      · rw [hprotect] at hfalse
        cases hfalse
        exact hinv
      · rw [hprotect] at htrue
        cases htrue
        obtain ⟨hwhole, hset, hclear⟩ := hregular hcheck
        rw [BitVec.and_or_distrib_left] at hset hclear
        obtain ⟨hset, hset'⟩ := BitVec.or_eq_zero_iff.mp hset
        obtain ⟨hclear, hclear'⟩ := BitVec.or_eq_zero_iff.mp hclear
        exact hinv.protect hprotected hset hclear hset' hclear'
          fun p q hp hlast => hwhole p q ⟨hp, hlast⟩

theorem invariant_of_reachable (hstart : start.Start) (h : Reachable start s) : s.Invariant := by
  induction h with
  | start => exact hstart.invariant
  | step _ hregular hstep ih => exact ih.step hregular hstep

theorem check_addr_exact (hstart : start.Start) (h : Reachable start s) (addr size : BitVec 32)
    (flags : PageInfo) : checkAddr s.pages addr.toNat flags size.toNat ↔
      addr.toNat + size.toNat ≤ addressSpace ∧ ∀ page, Meets addr.toNat size.toNat page →
        Has (flags ||| pageAllocated) (s.pages page) :=
  checkAddr_exact (invariant_of_reachable hstart h).uniform addr.isLt

-- A block of 1 MiB pages.
def user1m : System Unit where
  pages := fun _ => 0
  blocks := fun _ => ⟨0x20000000, 0x10000000, processBlockFlags pageSize1m, true, []⟩

theorem user1m_start : user1m.Start := by
  refine ⟨fun _ => ?_, fun _ => ⟨pageSize1m, rfl⟩, fun _ => rfl, rfl⟩
  simp only [user1m]
  decide

theorem check_addr_exact_user1m : ∃ s,
    user1m.step (.falloc () 0x20000000#32 0x100000#32 none 0 0) = some s ∧
      (checkAddr s.pages (0x20000000#32).toNat pageReadable (0x20000#32).toNat ↔
        (0x20000000#32).toNat + (0x20000#32).toNat ≤ addressSpace ∧
          ∀ page, Meets (0x20000000#32).toNat (0x20000#32).toNat page →
            Has (pageReadable ||| pageAllocated) (s.pages page)) := by
  obtain ⟨s, hs⟩ : ∃ s, user1m.step (.falloc () 0x20000000#32 0x100000#32 none 0 0) = some s :=
    Option.isSome_iff_exists.mp (by decide +kernel)
  have hregular : user1m.Regular (.falloc () 0x20000000#32 0x100000#32 none 0 0) :=
    .inr ⟨by decide, by decide⟩
  have hreachable : Reachable user1m s := .step .start hregular hs
  exact ⟨s, hs, check_addr_exact user1m_start hreachable 0x20000000#32 0x20000#32 pageReadable⟩

-- The 64 KiB behind an allocation of 64 KiB are taken to be allocated.
theorem unit_not_filled : ∃ s, user1m.step (.falloc () 0x20000000#32 0x10000#32 none 0 0) =
    some s ∧ checkAddr s.pages 0x20000000 pageReadable 0x20000 = true ∧
      Meets 0x20000000 0x20000 0x20010 ∧ s.pages 0x20010 = 0 := by
  refine ⟨_, rfl, ?_, ⟨0x20010000, by decide, by decide, by decide⟩, ?_⟩
  · decide
  · decide

end System

end Rpcsx.Vm
