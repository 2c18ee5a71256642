import Rpcsx.Data.Alignment

namespace Rpcsx.Vm.WriterLock

open Data.Alignment

-- `u64` and `u32`
def u64 (n : Nat) : Nat := n % 2 ^ 64

def u32 (n : Nat) : Nat := n % 2 ^ 32

def sub (a b : Nat) : Nat := (a + 2 ^ 64 - b) % 2 ^ 64

-- `g_shmem`, by 64 KiB pages. `_page_map` ensures that the addresses are aligned.
structure SharingTable where
  entry : Nat → Nat
  lt : ∀ hi, entry hi < 2 ^ 64
  aligned : ∀ hi, entry hi % 0x10000 = 0

-- An address, in shareable memory when its page is shared.
def translate (shmem : SharingTable) (hi addr : Nat) : Nat :=
  if shmem.entry hi ≠ 0 then addr % 0x10000 ||| shmem.entry hi else addr

-- The closure of `writer_lock`, from page `hi` on.
def checkPages (shmem : SharingTable) (point : Nat) : Nat → Nat → Nat → Nat → Bool
  | 0, _, _, _ => false
  | rounds + 1, hi, addr2, size2 =>
      let size3 := sub (min (u64 (addr2 + size2)) (roundUp 64 addr2 0x10000)) addr2
      let addr3 := translate shmem hi addr2
      if sub point (addr3 / 128) ≤ sub (sub (u64 (addr3 + size3)) 1 / 128) (addr3 / 128) then true
      else
        checkPages shmem point rounds (hi + 1) (u64 (addr2 + size3)) (u32 (size2 + 2 ^ 32 - u32 size3))

def conflicts (shmem : SharingTable) (point addr2 size2 : Nat) : Bool :=
  let max := sub (u64 (addr2 + size2)) 1 >>> 16
  checkPages shmem point (max + 1 - addr2 >>> 16) (addr2 >>> 16) addr2 size2

-- The positions of the bits of a word, from the lowest on.
def setBits (bits : BitVec 64) : List Nat := (List.range 64).filter fun id => bits.getLsbD id

def lockAddr (lock : BitVec 64) : Nat := u32 lock.toNat

def lockSize (lock : BitVec 64) : Nat := lock.toNat >>> 32

def forAllRangeLocks (rangeLockSet : Nat → BitVec 64) (input : BitVec 64)
    (func : Nat → Nat → Bool) : BitVec 64 :=
  (setBits input).foldl (fun result id =>
    let lock := rangeLockSet id
    if lockSize lock ≠ 0 ∧ func (lockAddr lock) (lockSize lock) = true then result
    else result &&& ~~~(1#64 <<< id)) input

-- The range locks that a writer of the reservation at `addr` waits for, out of the ones left.
def waitedFor (shmem : SharingTable) (rangeLockSet : Nat → BitVec 64) (toClear : BitVec 64)
    (addr : Nat) : BitVec 64 :=
  let point := translate shmem (addr >>> 16) addr / 128
  forAllRangeLocks rangeLockSet toClear (conflicts shmem point)

section Closure

variable {shmem : SharingTable} {point addr2 size2 : Nat}

theorem translate_eq (hi addr : Nat) : translate shmem hi addr =
    if shmem.entry hi ≠ 0 then addr % 0x10000 + shmem.entry hi else addr := by
  rw [translate]
  split_ifs
  · obtain ⟨k, hk⟩ := Nat.dvd_of_mod_eq_zero (shmem.aligned hi)
    have hlow : addr % 2 ^ 16 < 2 ^ 16 := Nat.mod_lt _ (by decide)
    have hor := Nat.shiftLeft_add_eq_or_of_lt hlow k
    rw [Nat.shiftLeft_eq, Nat.mul_comm] at hor
    rw [hk, Nat.lor_comm, Nat.add_comm]
    exact hor.symm
  · rfl

theorem translate_lt {hi addr : Nat} (haddr : addr < 2 ^ 32) :
    translate shmem hi addr < 2 ^ 64 := by
  have hlt := shmem.lt hi
  have haligned := shmem.aligned hi
  rw [translate_eq]
  split_ifs <;> omega

-- The comparison with wrapping subtraction.
theorem sub_le_sub_iff {p a b : Nat} (hp : p < 2 ^ 64) (ha : a < 2 ^ 64) (hb : b < 2 ^ 64)
    (hab : a ≤ b) : sub p a ≤ sub b a ↔ a ≤ p ∧ p ≤ b := by
  simp only [sub]
  omega

-- The line meets the range, page by page.
def Touches (shmem : SharingTable) (point addr2 size2 : Nat) : Prop :=
  ∃ a, addr2 ≤ a ∧ a < addr2 + size2 ∧ translate shmem (a >>> 16) a / 128 = point

-- The range lies in one page and does not start it.
def WithinPage (addr2 size2 : Nat) : Prop := 0 < addr2 % 0x10000 ∧ addr2 % 0x10000 + size2 ≤ 0x10000

theorem sub_one {n : Nat} (hpos : 0 < n) (hle : n ≤ 2 ^ 64) : sub (u64 n) 1 = n - 1 := by
  simp only [sub, u64]
  omega

theorem roundUp_page {n : Nat} (h : n ≤ 2 ^ 32) :
    roundUp 64 n 0x10000 = (n + 0xFFFF) / 0x10000 * 0x10000 := by
  have hle : ceilTo (2 ^ 16) n < 2 ^ 64 := by
    have hlt : ceilTo (2 ^ 16) n < n + 2 ^ 16 := ceilTo_lt (by decide)
    omega
  have hround : roundUp 64 n (2 ^ 16) = ceilTo (2 ^ 16) n := roundUp_eq_ceilTo (by decide) hle
  have hpow : 2 ^ 16 = 0x10000 := by decide
  rw [hpow, ceilTo] at hround
  exact hround

theorem checkPages_succ {rounds hi size3 : Nat}
    (hpiece : sub (min (u64 (addr2 + size2)) (roundUp 64 addr2 0x10000)) addr2 = size3) :
    checkPages shmem point (rounds + 1) hi addr2 size2 = true ↔
      sub point (translate shmem hi addr2 / 128) ≤
          sub (sub (u64 (translate shmem hi addr2 + size3)) 1 / 128)
            (translate shmem hi addr2 / 128) ∨
        checkPages shmem point rounds (hi + 1) (u64 (addr2 + size3))
          (u32 (size2 + 2 ^ 32 - u32 size3)) = true := by
  subst hpiece
  rw [checkPages]
  split_ifs with htest
  · simp [htest]
  · simp [htest]

-- A start of a page leaves an empty piece, and its wrapping end is behind every line.
theorem checkPages_of_aligned {rounds hi : Nat} (haddr : addr2 ≤ 2 ^ 32) (hsize : size2 < 2 ^ 32)
    (hpoint : point < 2 ^ 57) (haligned : addr2 % 0x10000 = 0) :
    checkPages shmem point (rounds + 1) hi addr2 size2 = true := by
  have hround : roundUp 64 addr2 0x10000 = addr2 := by
    rw [roundUp_page haddr]
    omega
  have hempty : sub (min (u64 (addr2 + size2)) (roundUp 64 addr2 0x10000)) addr2 = 0 := by
    rw [hround]
    simp only [sub, u64]
    omega
  have htranslate : translate shmem hi addr2 < 2 ^ 64 ∧ translate shmem hi addr2 % 0x10000 = 0 := by
    have hlt := shmem.lt hi
    have hentry := shmem.aligned hi
    rw [translate_eq]
    split_ifs <;> omega
  refine (checkPages_succ hempty).mpr (.inl ?_)
  rw [Nat.add_zero]
  generalize translate shmem hi addr2 = addr3 at htranslate
  rcases Nat.eq_zero_or_pos addr3 with rfl | hpos
  · simp only [sub, u64]
    omega
  · rw [sub_one hpos (Nat.le_of_lt htranslate.1)]
    simp only [sub]
    omega

-- A piece of one page.
theorem piece_iff {size3 : Nat} (haddr : addr2 < 2 ^ 32) (hpos : 0 < size3)
    (hpage : addr2 % 0x10000 + size3 ≤ 0x10000) (hpoint : point < 2 ^ 57) :
    sub point (translate shmem (addr2 >>> 16) addr2 / 128) ≤
        sub (sub (u64 (translate shmem (addr2 >>> 16) addr2 + size3)) 1 / 128)
          (translate shmem (addr2 >>> 16) addr2 / 128) ↔ Touches shmem point addr2 size3 := by
  have hlt : translate shmem (addr2 >>> 16) addr2 < 2 ^ 64 := translate_lt haddr
  have hend : translate shmem (addr2 >>> 16) addr2 + size3 ≤ 2 ^ 64 := by
    have hentry := shmem.aligned (addr2 >>> 16)
    have hentry' := shmem.lt (addr2 >>> 16)
    rw [translate_eq]
    split_ifs <;> omega
  -- the bytes of the piece move together
  have hbyte {a : Nat} (hle : addr2 ≤ a) (ha : a < addr2 + size3) :
      translate shmem (a >>> 16) a = translate shmem (addr2 >>> 16) addr2 + (a - addr2) := by
    have hhi : a >>> 16 = addr2 >>> 16 := by
      rw [Nat.shiftRight_eq_div_pow, Nat.shiftRight_eq_div_pow]
      omega
    rw [hhi, translate_eq, translate_eq]
    split_ifs <;> omega
  rw [sub_one (by omega) hend, sub_le_sub_iff (by omega) (by omega) (by omega) (by omega)]
  constructor
  · rintro ⟨hlow, hhigh⟩
    refine ⟨addr2 + (point * 128 - translate shmem (addr2 >>> 16) addr2), by omega, by omega, ?_⟩
    rw [hbyte (by omega) (by omega)]
    omega
  · rintro ⟨a, hle, ha, heq⟩
    rw [hbyte hle ha] at heq
    omega

theorem conflicts_iff (haddr : addr2 < 2 ^ 32) (hpos : 0 < size2) (hsize : size2 < 2 ^ 32)
    (hpoint : point < 2 ^ 57) : conflicts shmem point addr2 size2 = true ↔
      ¬WithinPage addr2 size2 ∨ Touches shmem point addr2 size2 := by
  have hlast : sub (u64 (addr2 + size2)) 1 >>> 16 = (addr2 + size2 - 1) / 0x10000 := by
    rw [sub_one (by omega) (by omega), Nat.shiftRight_eq_div_pow]
  have hfirst : addr2 >>> 16 = addr2 / 0x10000 := Nat.shiftRight_eq_div_pow _ _
  rw [conflicts]
  simp only [hlast]
  obtain ⟨rounds, hrounds⟩ : ∃ rounds,
      (addr2 + size2 - 1) / 0x10000 + 1 - addr2 >>> 16 = rounds + 1 :=
    ⟨(addr2 + size2 - 1) / 0x10000 - addr2 >>> 16, by omega⟩
  rw [hrounds]
  rcases Nat.eq_zero_or_pos (addr2 % 0x10000) with haligned | hinside
  · have hwithin : ¬WithinPage addr2 size2 := by
      rw [WithinPage]
      omega
    simp [checkPages_of_aligned (Nat.le_of_lt haddr) hsize hpoint haligned, hwithin]
  · by_cases hpage : addr2 % 0x10000 + size2 ≤ 0x10000
    · have hwithin : WithinPage addr2 size2 := ⟨hinside, hpage⟩
      have hpiece : sub (min (u64 (addr2 + size2)) (roundUp 64 addr2 0x10000)) addr2 = size2 := by
        rw [roundUp_page (Nat.le_of_lt haddr)]
        simp only [sub, u64]
        omega
      have hone : rounds = 0 := by omega
      rw [hone, checkPages_succ hpiece, piece_iff haddr hpos hpage hpoint]
      simp [checkPages, hwithin]
    · have hwithin : ¬WithinPage addr2 size2 := fun h => hpage h.2
      have hpiece : sub (min (u64 (addr2 + size2)) (roundUp 64 addr2 0x10000)) addr2 =
          0x10000 - addr2 % 0x10000 := by
        rw [roundUp_page (Nat.le_of_lt haddr)]
        simp only [sub, u64]
        omega
      obtain ⟨rounds', hmore⟩ : ∃ rounds', rounds = rounds' + 1 := ⟨rounds - 1, by omega⟩
      have hnext : u64 (addr2 + (0x10000 - addr2 % 0x10000)) = addr2 + (0x10000 - addr2 % 0x10000) := by
        rw [u64]
        omega
      have hboundary : addr2 + (0x10000 - addr2 % 0x10000) ≤ 2 ^ 32 ∧
          (addr2 + (0x10000 - addr2 % 0x10000)) % 0x10000 = 0 := by omega
      have hrest : u32 (size2 + 2 ^ 32 - u32 (0x10000 - addr2 % 0x10000)) < 2 ^ 32 :=
        Nat.mod_lt _ (by decide)
      rw [hmore, checkPages_succ hpiece, hnext,
        checkPages_of_aligned hboundary.1 hrest hpoint hboundary.2]
      simp [hwithin]

end Closure

section Bits

variable {locks : Nat → BitVec 64}

theorem getLsbD_clear (word : BitVec 64) {id : Nat} (hid : id < 64) (k : Nat) :
    (word &&& ~~~(1#64 <<< id)).getLsbD k = (word.getLsbD k && !decide (k = id)) := by
  rcases Nat.lt_or_ge k 64 with hk | hk
  · by_cases heq : k = id
    · subst heq
      simp [hk]
    · simp only [BitVec.getLsbD_and, BitVec.getLsbD_not, BitVec.getLsbD_shiftLeft, hk, heq,
        BitVec.getLsbD_one]
      have hne : ¬k < id → k - id ≠ 0 := by omega
      by_cases hlt : k < id
      · simp [hlt]
      · simp [hne hlt]
  · simp [BitVec.getLsbD_of_ge _ k hk]

theorem getLsbD_foldl (keep : Nat → Prop) [DecidablePred keep] (ids : List Nat)
    (hids : ∀ id ∈ ids, id < 64) (word : BitVec 64) (k : Nat) :
    (ids.foldl (fun result id => if keep id then result else result &&& ~~~(1#64 <<< id))
      word).getLsbD k = true ↔ word.getLsbD k = true ∧ (k ∈ ids → keep k) := by
  induction ids generalizing word with
  | nil => simp
  | cons id ids ih =>
      have hid := hids id List.mem_cons_self
      rw [List.foldl_cons, ih (fun j hj => hids j (List.mem_cons_of_mem _ hj))]
      by_cases hkeep : keep id
      · simp only [if_pos hkeep, List.mem_cons]
        refine and_congr_right fun _ => ⟨?_, fun h hk => h (.inr hk)⟩
        rintro h (rfl | hk)
        · exact hkeep
        · exact h hk
      · simp only [if_neg hkeep, getLsbD_clear word hid, Bool.and_eq_true, Bool.not_eq_true',
          decide_eq_false_iff_not, List.mem_cons]
        constructor
        · rintro ⟨⟨hbit, hne⟩, h⟩
          refine ⟨hbit, ?_⟩
          rintro (heq | hk)
          · exact absurd heq hne
          · exact h hk
        · rintro ⟨hbit, h⟩
          refine ⟨⟨hbit, ?_⟩, fun hk => h (.inr hk)⟩
          rintro rfl
          exact hkeep (h (.inl rfl))

theorem getLsbD_forAllRangeLocks (input : BitVec 64) (func : Nat → Nat → Bool) (id : Nat) :
    (forAllRangeLocks locks input func).getLsbD id = true ↔ input.getLsbD id = true ∧
      lockSize (locks id) ≠ 0 ∧ func (lockAddr (locks id)) (lockSize (locks id)) = true := by
  have hids : ∀ id ∈ setBits input, id < 64 := by
    intro id hid
    exact List.mem_range.mp (List.mem_filter.mp hid).1
  rw [forAllRangeLocks, getLsbD_foldl _ _ hids]
  refine and_congr_right fun hbit => ?_
  have hmem : id ∈ setBits input :=
    List.mem_filter.mpr ⟨List.mem_range.mpr (BitVec.lt_of_getLsbD hbit), hbit⟩
  exact ⟨fun h => h hmem, fun h _ => h⟩

end Bits

section Writer

variable {shmem : SharingTable} {locks : Nat → BitVec 64} {toClear : BitVec 64} {addr : Nat}

-- The 128-byte line of the reservation.
def line (shmem : SharingTable) (addr : Nat) : Nat := translate shmem (addr >>> 16) addr / 128

-- The writer waits for exactly the range locks that touch its line.
def Exact (shmem : SharingTable) (locks : Nat → BitVec 64) (toClear : BitVec 64) (addr : Nat) :
    Prop :=
  ∀ id, (waitedFor shmem locks toClear addr).getLsbD id = true ↔ toClear.getLsbD id = true ∧
    Touches shmem (line shmem addr) (lockAddr (locks id)) (lockSize (locks id))

theorem writer_lock_exact_iff (haddr : addr < 2 ^ 32) : Exact shmem locks toClear addr ↔
    ∀ id, toClear.getLsbD id = true → lockSize (locks id) ≠ 0 →
      WithinPage (lockAddr (locks id)) (lockSize (locks id)) ∨
        Touches shmem (line shmem addr) (lockAddr (locks id)) (lockSize (locks id)) := by
  have hline : line shmem addr < 2 ^ 57 := by
    have hlt : translate shmem (addr >>> 16) addr < 2 ^ 64 := translate_lt haddr
    rw [line]
    omega
  have hwaited (id : Nat) : (waitedFor shmem locks toClear addr).getLsbD id = true ↔
      toClear.getLsbD id = true ∧ lockSize (locks id) ≠ 0 ∧
        (¬WithinPage (lockAddr (locks id)) (lockSize (locks id)) ∨
          Touches shmem (line shmem addr) (lockAddr (locks id)) (lockSize (locks id))) := by
    rw [waitedFor, getLsbD_forAllRangeLocks]
    refine and_congr_right fun _ => and_congr_right fun hne => ?_
    have hsize : lockSize (locks id) < 2 ^ 32 := by
      have hlt := (locks id).isLt
      rw [lockSize, Nat.shiftRight_eq_div_pow]
      omega
    exact conflicts_iff (Nat.mod_lt _ (by decide)) (Nat.pos_of_ne_zero hne) hsize hline
  have hnonempty {a n : Nat} (h : Touches shmem (line shmem addr) a n) : n ≠ 0 := by
    obtain ⟨b, hle, hlt, -⟩ := h
    omega
  simp only [Exact, hwaited]
  constructor
  · intro h id hbit hne
    by_cases hwithin : WithinPage (lockAddr (locks id)) (lockSize (locks id))
    · exact .inl hwithin
    · exact .inr ((h id).mp ⟨hbit, hne, .inl hwithin⟩).2
  · intro h id
    refine and_congr_right fun hbit => ⟨?_, fun ht => ⟨hnonempty ht, .inr ht⟩⟩
    rintro ⟨hne, hwithin | ht⟩
    · exact (h id hbit hne).resolve_left hwithin
    · exact ht

end Writer

-- Nothing is shared, and one range of 128 bytes at 0x10000 is locked.
def nothingShared : SharingTable := ⟨fun _ => 0, fun _ => by decide, fun _ => rfl⟩

def oneLock : Nat → BitVec 64 := fun _ => 0x0000008000010000#64

theorem writer_lock_exact_iff_oneLock : Exact nothingShared oneLock 1#64 0x20000 ↔
    ∀ id, (1#64).getLsbD id = true → lockSize (oneLock id) ≠ 0 →
      WithinPage (lockAddr (oneLock id)) (lockSize (oneLock id)) ∨
        Touches nothingShared (line nothingShared 0x20000) (lockAddr (oneLock id))
          (lockSize (oneLock id)) :=
  writer_lock_exact_iff (by decide)

-- A writer of the line at 0x20000 waits for it.
theorem far_lock_waited_for : ¬Exact nothingShared oneLock 1#64 0x20000 := by
  intro hexact
  obtain ⟨-, a, hle, hlt, hline⟩ := (hexact 0).mp (by decide)
  have haddr : lockAddr (oneLock 0) = 0x10000 := by decide
  have hsize : lockSize (oneLock 0) = 128 := by decide
  have htouch : a / 128 = 0x20000 / 128 := hline
  omega

end Rpcsx.Vm.WriterLock
