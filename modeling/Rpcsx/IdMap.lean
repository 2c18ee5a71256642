import Rpcsx.BitSet
import Rpcsx.Data.Machine
import Mathlib.Data.List.Nodup
import Mathlib.Data.List.Range

namespace Rpcsx.IdMap

-- The integer type `IdT` of the ids.
structure IdType where
  width : Nat
  signed : Bool
  deriving DecidableEq, Repr

namespace IdType

-- `static_cast<std::size_t>` of an id and `static_cast<IdT>` of a `std::size_t`.
def toSize (t : IdType) (id : BitVec t.width) : Nat :=
  if t.signed then (id.signExtend 64).toNat else (id.setWidth 64).toNat

def ofSize (t : IdType) (n : Nat) : BitVec t.width := BitVec.ofNat t.width n

-- The largest value of the type is kept from the ids where it is `npos`.
def limit (t : IdType) : Nat := if t.signed then 2 ^ (t.width - 1) else 2 ^ t.width - 1

end IdType

def chunkSizeOf (minId maxId : Nat) : Nat := min (maxId - minId) 64

def chunkCountOf (minId maxId : Nat) : Nat :=
  (maxId - minId + chunkSizeOf minId maxId - 1) / chunkSizeOf minId maxId

-- The template arguments. An array has fewer than 2^63 elements, and `IdT` holds the id of every
-- slot of the chunks.
structure Params where
  idType : IdType
  maxId : Nat
  minId : Nat
  minId_lt : minId < maxId
  size_lt : maxId - minId < 2 ^ 63
  width_pos : 0 < idType.width
  width_le : idType.width ≤ 64
  fits : minId + chunkSizeOf minId maxId * chunkCountOf minId maxId ≤ idType.limit

namespace Params

variable (p : Params)

abbrev Id : Type := BitVec p.idType.width

def chunkSize : Nat := chunkSizeOf p.minId p.maxId

def chunkCount : Nat := chunkCountOf p.minId p.maxId

def npos : p.Id := p.idType.ofSize (2 ^ 64 - 1)

-- `static_cast<std::size_t>(id) - MinId`, in 64 bits.
def rawId (id : p.Id) : Nat := (p.idType.toSize id + (2 ^ 64 - p.minId)) % 2 ^ 64

-- The id of a slot.
def slotId (chunk index : Nat) : p.Id := p.idType.ofSize (chunk * p.chunkSize + index + p.minId)

def InRange (id : p.Id) : Prop := p.minId ≤ p.idType.toSize id ∧ p.idType.toSize id < p.maxId

end Params

-- `IdMapChunk`; an object pointer is `none` where it is null, and storage that holds no object
-- is `none` as well.
structure Chunk (α : Type) (size : Nat) where
  mask : BitSet size
  objects : List (Option α)
  length_objects : objects.length = size

namespace Chunk

variable {α : Type} {size : Nat}

def empty : Chunk α size := ⟨.empty, List.replicate size none, by simp⟩

def get (c : Chunk α size) (index : Nat) : Option α := c.objects.getD index none

def store (c : Chunk α size) (index : Nat) (object : α) : Chunk α size :=
  ⟨c.mask.set index, c.objects.set index (some object), by rw [List.length_set, c.length_objects]⟩

def remove (c : Chunk α size) (index : Nat) : Chunk α size :=
  ⟨c.mask.clear index, c.objects.set index none, by rw [List.length_set, c.length_objects]⟩

-- The slots that the loop over `mask.countr_zero` comes to from `index` on.
def visit (c : Chunk α size) (index : Nat) : List Nat :=
  if index < size then index :: visit c (c.mask.countrZero (index + 1)) else []
  termination_by size - index
  decreasing_by
    have h := (c.mask.countrZero_first (index + 1) (by omega)).ge
    omega

end Chunk

-- The chunks and the summary of the full ones, `m_chunks` and `m_fullChunks`.
structure Table (p : Params) (α : Type) where
  chunks : List (Chunk α p.chunkSize)
  length_chunks : chunks.length = p.chunkCount
  fullChunks : BitSet p.chunkCount

namespace Table

variable {p : Params} {α : Type}

def empty : Table p α := ⟨List.replicate p.chunkCount .empty, by simp, .empty⟩

def chunk (t : Table p α) (page : Nat) : Chunk α p.chunkSize := t.chunks.getD page .empty

def setChunk (t : Table p α) (page : Nat) (c : Chunk α p.chunkSize) : Table p α :=
  ⟨t.chunks.set page c, by rw [List.length_set, t.length_chunks], t.fullChunks⟩

-- `if (m_chunks[page].mask.full()) m_fullChunks.set(page)`
def markFull (t : Table p α) (page : Nat) : Table p α :=
  if (t.chunk page).mask.full then { t with fullChunks := t.fullChunks.set page } else t

def store (t : Table p α) (page index : Nat) (object : α) : Table p α :=
  (t.setChunk page ((t.chunk page).store index object)).markFull page

def remove (t : Table p α) (page index : Nat) : Table p α :=
  { t.setChunk page ((t.chunk page).remove index) with fullChunks := t.fullChunks.clear page }

end Table

end Rpcsx.IdMap

namespace Rpcsx.IdMap

namespace Params

variable (p : Params)

def capacity : Nat := p.chunkSize * p.chunkCount

theorem chunkSize_eq : p.chunkSize = min (p.maxId - p.minId) 64 := rfl

theorem chunkSize_pos : 0 < p.chunkSize := by
  have h := p.minId_lt
  rw [chunkSize_eq]
  omega

theorem chunkSize_le : p.chunkSize ≤ 64 := by
  rw [chunkSize_eq]
  omega

theorem range_le_capacity : p.maxId - p.minId ≤ p.capacity := by
  have hpos := p.chunkSize_pos
  have hdiv : p.maxId - p.minId ≤
      p.chunkSize * ((p.maxId - p.minId + p.chunkSize - 1) / p.chunkSize) := by
    have hm := Nat.div_add_mod (p.maxId - p.minId + p.chunkSize - 1) p.chunkSize
    have hlt := Nat.mod_lt (p.maxId - p.minId + p.chunkSize - 1) hpos
    omega
  exact hdiv

-- Whole chunks hold the ids of the range and no others.
theorem capacity_eq_iff : p.capacity = p.maxId - p.minId ↔
    p.maxId - p.minId ≤ 64 ∨ 64 ∣ p.maxId - p.minId := by
  have hmin := p.minId_lt
  have hcap : p.capacity =
      p.chunkSize * ((p.maxId - p.minId + p.chunkSize - 1) / p.chunkSize) := rfl
  rw [hcap, chunkSize_eq]
  by_cases hle : p.maxId - p.minId ≤ 64
  · rw [Nat.min_eq_left hle]
    have hone : (p.maxId - p.minId + (p.maxId - p.minId) - 1) / (p.maxId - p.minId) = 1 := by
      apply Nat.div_eq_of_lt_le
      · omega
      · omega
    rw [hone, Nat.mul_one]
    simp [hle]
  · rw [Nat.min_eq_right (by omega)]
    omega

theorem minId_add_capacity_le : p.minId + p.capacity ≤ p.idType.limit := p.fits

theorem limit_lt : p.idType.limit < 2 ^ 64 := by
  have hw := p.width_le
  have hp : 0 < 2 ^ p.idType.width := Nat.two_pow_pos _
  have hpow : 2 ^ p.idType.width ≤ 2 ^ 64 := Nat.pow_le_pow_right (by omega) hw
  rw [IdType.limit]
  split
  · have hlt : 2 ^ (p.idType.width - 1) < 2 ^ 64 :=
      Nat.pow_lt_pow_right (by omega) (by have := p.width_pos; omega)
    exact hlt
  · omega

theorem toSize_lt (id : p.Id) : p.idType.toSize id < 2 ^ 64 := by
  rw [IdType.toSize]
  split
  · exact BitVec.isLt _
  · exact BitVec.isLt _

theorem ofSize_toSize (id : p.Id) : p.idType.ofSize (p.idType.toSize id) = id := by
  have hw := p.width_le
  rw [IdType.ofSize, IdType.toSize]
  split
  · rw [BitVec.ofNat_toNat]
    apply BitVec.eq_of_getLsbD_eq
    intro i hi
    rw [BitVec.getLsbD_setWidth, BitVec.getLsbD_signExtend]
    simp only [hi, decide_true, Bool.true_and, if_true]
    simp only [show i < 64 by omega, decide_true, Bool.true_and]
  · rw [BitVec.ofNat_toNat, BitVec.setWidth_setWidth_of_le _ hw, BitVec.setWidth_eq]

theorem toSize_injective {i j : p.Id} (h : p.idType.toSize i = p.idType.toSize j) : i = j := by
  rw [← p.ofSize_toSize i, ← p.ofSize_toSize j, h]

-- A number below the limit is an id of its own.
theorem toSize_ofSize {n : Nat} (hn : n < p.idType.limit) :
    p.idType.toSize (p.idType.ofSize n) = n := by
  have hlim := p.limit_lt
  have hpos := p.width_pos
  rw [IdType.toSize]
  rw [IdType.limit] at hn
  by_cases hs : p.idType.signed = true
  · rw [if_pos hs] at hn ⊢
    have hhalf : 2 ^ (p.idType.width - 1) + 2 ^ (p.idType.width - 1) = 2 ^ p.idType.width := by
      rw [← Nat.mul_two, ← Nat.pow_succ, Nat.succ_eq_add_one, Nat.sub_add_cancel hpos]
    have hval : (p.idType.ofSize n).toNat = n := by
      rw [IdType.ofSize, BitVec.toNat_ofNat, Nat.mod_eq_of_lt (by omega)]
    have hmsb : (p.idType.ofSize n).msb = false := by
      rw [BitVec.msb_eq_false_iff_two_mul_lt, hval]
      omega
    rw [IdType.limit, if_pos hs] at hlim
    rw [BitVec.signExtend_eq_setWidth_of_msb_false hmsb, BitVec.toNat_setWidth, hval,
      Nat.mod_eq_of_lt (by omega)]
  · rw [if_neg hs] at hn ⊢
    rw [IdType.limit, if_neg hs] at hlim
    rw [BitVec.toNat_setWidth, IdType.ofSize, BitVec.toNat_ofNat, Nat.mod_eq_of_lt (by omega),
      Nat.mod_eq_of_lt (by omega)]

-- The id of an offset into the slots.
def idAt (offset : Nat) : p.Id := p.idType.ofSize (offset + p.minId)

theorem toSize_idAt {offset : Nat} (h : offset < p.capacity) :
    p.idType.toSize (p.idAt offset) = offset + p.minId :=
  p.toSize_ofSize (by have := p.minId_add_capacity_le; omega)

theorem rawId_idAt {offset : Nat} (h : offset < p.capacity) : p.rawId (p.idAt offset) = offset := by
  have hlim := p.limit_lt
  have hcap := p.minId_add_capacity_le
  rw [rawId, p.toSize_idAt h]
  omega

theorem toSize_of_rawId {id : p.Id} (h : p.rawId id < p.capacity) :
    p.idType.toSize id = p.rawId id + p.minId := by
  have hlim := p.limit_lt
  have hcap := p.minId_add_capacity_le
  have hlt := p.toSize_lt id
  rw [rawId] at h ⊢
  omega

theorem idAt_rawId {id : p.Id} (h : p.rawId id < p.capacity) : p.idAt (p.rawId id) = id := by
  apply p.toSize_injective
  rw [p.toSize_idAt h, p.toSize_of_rawId h]

theorem rawId_injective {i j : p.Id} (h : p.rawId i = p.rawId j) : i = j := by
  have hi := p.toSize_lt i
  have hj := p.toSize_lt j
  have hlim := p.limit_lt
  have hcap := p.minId_add_capacity_le
  apply p.toSize_injective
  rw [rawId, rawId] at h
  omega

theorem inRange_iff (id : p.Id) : p.InRange id ↔ p.rawId id < p.maxId - p.minId := by
  have hlt := p.toSize_lt id
  have hlim := p.limit_lt
  have hcap := p.minId_add_capacity_le
  have hrange := p.range_le_capacity
  have hmin := p.minId_lt
  rw [InRange, rawId]
  omega

theorem toSize_npos : p.idType.limit ≤ p.idType.toSize p.npos := by
  have hpos := p.width_pos
  have hle := p.width_le
  have hones : p.npos = BitVec.allOnes p.idType.width := by
    apply BitVec.eq_of_toNat_eq
    rw [npos, IdType.ofSize, BitVec.toNat_ofNat, BitVec.toNat_allOnes]
    obtain ⟨k, hk⟩ := Nat.exists_eq_add_of_le hle
    have hsplit : 2 ^ 64 = 2 ^ p.idType.width * 2 ^ k := by rw [← Nat.pow_add, ← hk]
    have h2 : 0 < 2 ^ p.idType.width := Nat.two_pow_pos _
    have h2k : 0 < 2 ^ k := Nat.two_pow_pos _
    obtain ⟨m, hm⟩ : ∃ m, 2 ^ k = 1 + m := ⟨2 ^ k - 1, by omega⟩
    have hval : 2 ^ 64 - 1 = 2 ^ p.idType.width - 1 + 2 ^ p.idType.width * m := by
      rw [hsplit, hm, Nat.mul_add, Nat.mul_one]
      omega
    rw [hval, Nat.add_mul_mod_self_left, Nat.mod_eq_of_lt (by omega)]
  have h2 : 0 < 2 ^ p.idType.width := Nat.two_pow_pos _
  rw [hones, IdType.toSize, IdType.limit]
  by_cases hs : p.idType.signed = true
  · rw [if_pos hs, if_pos hs]
    have hmsb : (BitVec.allOnes p.idType.width).msb = true := by
      rw [BitVec.msb_allOnes hpos]
    have hall : (BitVec.allOnes p.idType.width).signExtend 64 = BitVec.allOnes 64 := by
      apply BitVec.eq_of_getLsbD_eq
      intro i hi
      rw [BitVec.getLsbD_signExtend, hmsb, BitVec.getLsbD_allOnes, BitVec.getLsbD_allOnes]
      split
      · rename_i h
        simp [hi, h]
      · simp [hi]
    rw [hall, BitVec.toNat_allOnes]
    have hlt : 2 ^ (p.idType.width - 1) < 2 ^ 64 := Nat.pow_lt_pow_right (by omega) (by omega)
    omega
  · rw [if_neg hs, if_neg hs, BitVec.toNat_setWidth, BitVec.toNat_allOnes]
    have hpow : 2 ^ p.idType.width ≤ 2 ^ 64 := Nat.pow_le_pow_right (by omega) hle
    rw [Nat.mod_eq_of_lt (by omega)]

-- `npos` is never the id of a slot.
theorem idAt_ne_npos {offset : Nat} (h : offset < p.capacity) : p.idAt offset ≠ p.npos := by
  intro he
  have hn := p.toSize_npos
  have hcap := p.minId_add_capacity_le
  rw [← he, p.toSize_idAt h] at hn
  omega

end Params

namespace Chunk

variable {α : Type} {size : Nat}

theorem get_store (c : Chunk α size) {i : Nat} (hi : i < size) (object : α) (j : Nat) :
    (c.store i object).get j = if i = j then some object else c.get j := by
  have hl : i < c.objects.length := by rw [c.length_objects]; exact hi
  simp only [get, store, List.getD_eq_getElem?_getD, List.getElem?_set, hl, if_true]
  split
  · rfl
  · rfl

theorem get_remove (c : Chunk α size) {i j : Nat} (hne : i ≠ j) :
    (c.remove i).get j = c.get j := by
  simp only [get, remove, List.getD_eq_getElem?_getD, List.getElem?_set, if_neg hne]

-- The loop over a mask comes to its set bits in order.
theorem visit_eq (c : Chunk α size) (index : Nat) (hstart : index < size → c.mask.test index = true) :
    c.visit index = (List.range' index (size - index)).filter c.mask.test := by
  fun_induction visit c index with
  | case1 index hlt ih =>
      have hfirst := c.mask.countrZero_first (index + 1) (by omega)
      have hsize : size ≤ 64 * ((size + 63) / 64) := by omega
      have hsplit : List.range' index (size - index) =
          index :: List.range' (index + 1) (size - (index + 1)) := by
        rw [show size - index = size - (index + 1) + 1 by omega, List.range'_succ]
      rw [ih fun h => hfirst.hit (by omega), hsplit, List.filter_cons_of_pos (hstart hlt),
        hfirst.filter_range']
  | case2 index hnot =>
      rw [show size - index = 0 by omega, List.range'_zero, List.filter_nil]

theorem visit_countrZero (c : Chunk α size) {offset : Nat} (hle : offset ≤ size) :
    c.visit (c.mask.countrZero offset) =
      (List.range' offset (size - offset)).filter c.mask.test := by
  have hfirst := c.mask.countrZero_first offset (by omega)
  have hsize : size ≤ 64 * ((size + 63) / 64) := by omega
  rw [visit_eq c _ fun h => hfirst.hit (by omega), hfirst.filter_range']

end Chunk

namespace Table

variable {p : Params} {α : Type} {t : Table p α}

-- What the slot at an offset holds.
def slot (t : Table p α) (offset : Nat) : Option α :=
  if offset < p.capacity ∧ (t.chunk (offset / p.chunkSize)).mask.test (offset % p.chunkSize) = true
  then (t.chunk (offset / p.chunkSize)).get (offset % p.chunkSize) else none

structure WellFormed (t : Table p α) : Prop where
  mask_lt : ∀ page i, (t.chunk page).mask.test i = true → i < p.chunkSize
  objects : ∀ page i, (t.chunk page).mask.test i = true → ((t.chunk page).get i).isSome = true
  full_iff : ∀ page, t.fullChunks.test page = true ↔
    page < p.chunkCount ∧ ∀ i, i < p.chunkSize → (t.chunk page).mask.test i = true

theorem page_lt {offset : Nat} (h : offset < p.capacity) : offset / p.chunkSize < p.chunkCount :=
  Nat.div_lt_of_lt_mul h

theorem index_lt (offset : Nat) : offset % p.chunkSize < p.chunkSize :=
  Nat.mod_lt _ p.chunkSize_pos

theorem offset_div (page : Nat) {index : Nat} (hi : index < p.chunkSize) :
    (page * p.chunkSize + index) / p.chunkSize = page := by
  rw [Nat.mul_comm, Nat.mul_add_div p.chunkSize_pos, Nat.div_eq_of_lt hi, Nat.add_zero]

theorem offset_mod (page : Nat) {index : Nat} (hi : index < p.chunkSize) :
    (page * p.chunkSize + index) % p.chunkSize = index := by
  rw [Nat.mul_comm, Nat.mul_add_mod, Nat.mod_eq_of_lt hi]

theorem offset_lt {page index : Nat} (hp : page < p.chunkCount) (hi : index < p.chunkSize) :
    page * p.chunkSize + index < p.capacity := by
  have hle : (page + 1) * p.chunkSize ≤ p.chunkCount * p.chunkSize :=
    Nat.mul_le_mul_right _ hp
  rw [Params.capacity, Nat.mul_comm p.chunkSize]
  rw [Nat.add_mul] at hle
  omega

theorem offset_eq_iff (i j : Nat) :
    i = j ↔ i / p.chunkSize = j / p.chunkSize ∧ i % p.chunkSize = j % p.chunkSize := by
  constructor
  · rintro rfl
    exact ⟨rfl, rfl⟩
  · rintro ⟨hd, hm⟩
    rw [← Nat.div_add_mod i p.chunkSize, hd, hm, Nat.div_add_mod]

theorem chunk_setChunk {page : Nat} (hp : page < p.chunkCount) (c : Chunk α p.chunkSize)
    (q : Nat) : (t.setChunk page c).chunk q = if page = q then c else t.chunk q := by
  have hl : page < t.chunks.length := by rw [t.length_chunks]; exact hp
  simp only [chunk, setChunk, List.getD_eq_getElem?_getD, List.getElem?_set, hl, if_true]
  split
  · rfl
  · rfl

theorem chunk_markFull (page q : Nat) : (t.markFull page).chunk q = t.chunk q := by
  rw [markFull]
  split
  · rfl
  · rfl

theorem chunk_store {page : Nat} (hp : page < p.chunkCount) (index : Nat) (object : α) (q : Nat) :
    (t.store page index object).chunk q =
      if page = q then (t.chunk page).store index object else t.chunk q := by
  rw [store, chunk_markFull, chunk_setChunk hp]

theorem chunk_remove {page : Nat} (hp : page < p.chunkCount) (index q : Nat) :
    (t.remove page index).chunk q =
      if page = q then (t.chunk page).remove index else t.chunk q :=
  chunk_setChunk hp _ q

theorem WellFormed.slot_isSome (h : WellFormed t) {offset : Nat} (hlt : offset < p.capacity) :
    (t.slot offset).isSome = (t.chunk (offset / p.chunkSize)).mask.test (offset % p.chunkSize) := by
  rw [slot]
  by_cases ht : (t.chunk (offset / p.chunkSize)).mask.test (offset % p.chunkSize) = true
  · rw [if_pos ⟨hlt, ht⟩, ht]
    exact h.objects _ _ ht
  · rw [if_neg fun hc => ht hc.2]
    simpa using ht

theorem slot_of_ge {offset : Nat} (h : p.capacity ≤ offset) : t.slot offset = none :=
  if_neg fun hc => by omega

theorem slot_store {offset : Nat} (hlt : offset < p.capacity) (object : α) (k : Nat) :
    (t.store (offset / p.chunkSize) (offset % p.chunkSize) object).slot k =
      if k = offset then some object else t.slot k := by
  have hp := page_lt hlt
  have hi := index_lt (p := p) offset
  rw [slot, slot, chunk_store hp]
  by_cases hq : offset / p.chunkSize = k / p.chunkSize
  · simp only [if_pos hq, Chunk.get_store _ hi]
    have htest : ((t.chunk (offset / p.chunkSize)).store (offset % p.chunkSize) object).mask.test
        (k % p.chunkSize) = (decide (offset % p.chunkSize = k % p.chunkSize) ||
          (t.chunk (offset / p.chunkSize)).mask.test (k % p.chunkSize)) :=
      BitSet.test_set _ hi _
    rw [htest]
    by_cases hm : offset % p.chunkSize = k % p.chunkSize
    · have hk : k = offset := (offset_eq_iff k offset).mpr ⟨hq.symm, hm.symm⟩
      rw [if_pos ⟨by omega, by simp [hm]⟩, if_pos hm, if_pos hk]
    · have hk : k ≠ offset := fun he => hm (by rw [he])
      rw [if_neg hk]
      simp only [decide_eq_false hm, Bool.false_or, if_neg hm, hq]
  · have hk : k ≠ offset := fun he => hq (by rw [he])
    simp only [if_neg hq, if_neg hk]

theorem slot_remove {offset : Nat} (hlt : offset < p.capacity) (k : Nat) :
    (t.remove (offset / p.chunkSize) (offset % p.chunkSize)).slot k =
      if k = offset then none else t.slot k := by
  have hp := page_lt hlt
  have hi := index_lt (p := p) offset
  rw [slot, slot, chunk_remove hp]
  by_cases hq : offset / p.chunkSize = k / p.chunkSize
  · simp only [if_pos hq]
    have htest : ((t.chunk (offset / p.chunkSize)).remove (offset % p.chunkSize)).mask.test
        (k % p.chunkSize) = (!decide (offset % p.chunkSize = k % p.chunkSize) &&
          (t.chunk (offset / p.chunkSize)).mask.test (k % p.chunkSize)) :=
      BitSet.test_clear _ hi _
    rw [htest]
    by_cases hm : offset % p.chunkSize = k % p.chunkSize
    · have hk : k = offset := (offset_eq_iff k offset).mpr ⟨hq.symm, hm.symm⟩
      rw [if_neg (by simp [hm]), if_pos hk]
    · have hk : k ≠ offset := fun he => hm (by rw [he])
      rw [if_neg hk, Chunk.get_remove _ hm]
      simp only [decide_eq_false hm, Bool.not_false, Bool.true_and, hq]
  · have hk : k ≠ offset := fun he => hq (by rw [he])
    simp only [if_neg hq, if_neg hk]

theorem WellFormed.full_store (h : WellFormed t) {offset : Nat} (hlt : offset < p.capacity)
    (object : α) (page : Nat) :
    (t.store (offset / p.chunkSize) (offset % p.chunkSize) object).fullChunks.test page = true ↔
      page < p.chunkCount ∧ ∀ i, i < p.chunkSize →
        ((t.store (offset / p.chunkSize) (offset % p.chunkSize) object).chunk page).mask.test i =
          true := by
  have hp := page_lt hlt
  have hi := index_lt (p := p) offset
  have hmask (j : Nat) : ((t.chunk (offset / p.chunkSize)).store (offset % p.chunkSize)
      object).mask.test j = (decide (offset % p.chunkSize = j) ||
        (t.chunk (offset / p.chunkSize)).mask.test j) := BitSet.test_set _ hi j
  have hfull := BitSet.full_iff ((t.chunk (offset / p.chunkSize)).store (offset % p.chunkSize)
    object).mask p.chunkSize_pos p.chunkSize_le (fun j hj => by
      rw [hmask] at hj
      by_cases he : offset % p.chunkSize = j
      · omega
      · exact h.mask_lt _ j (by simpa [he] using hj))
  have hset : (t.setChunk (offset / p.chunkSize) ((t.chunk (offset / p.chunkSize)).store
      (offset % p.chunkSize) object)).chunk (offset / p.chunkSize) =
      (t.chunk (offset / p.chunkSize)).store (offset % p.chunkSize) object := by
    rw [chunk_setChunk hp, if_pos rfl]
  rw [chunk_store hp, store, markFull, hset]
  by_cases hq : offset / p.chunkSize = page
  · subst hq
    rw [if_pos rfl]
    by_cases hf : ((t.chunk (offset / p.chunkSize)).store (offset % p.chunkSize)
        object).mask.full = true
    · rw [if_pos hf]
      show (t.fullChunks.set _).test _ = true ↔ _
      rw [BitSet.test_set _ hp]
      simp only [decide_true, Bool.true_or, true_iff]
      exact ⟨hp, hfull.mp hf⟩
    · rw [if_neg hf]
      show t.fullChunks.test _ = true ↔ _
      rw [h.full_iff]
      constructor
      · rintro ⟨-, hall⟩
        refine absurd (hfull.mpr fun j hj => ?_) hf
        rw [hmask, hall j hj, Bool.or_true]
      · rintro ⟨-, hall⟩
        exact absurd (hfull.mpr hall) hf
  · rw [if_neg hq, ← h.full_iff page]
    split
    · show (t.fullChunks.set _).test _ = true ↔ _
      rw [BitSet.test_set _ hp, decide_eq_false hq, Bool.false_or]
    · rfl

theorem WellFormed.store (h : WellFormed t) {offset : Nat} (hlt : offset < p.capacity)
    (object : α) : WellFormed (t.store (offset / p.chunkSize) (offset % p.chunkSize) object) := by
  have hp := page_lt hlt
  have hi := index_lt (p := p) offset
  have hmask (j : Nat) : ((t.chunk (offset / p.chunkSize)).store (offset % p.chunkSize)
      object).mask.test j = (decide (offset % p.chunkSize = j) ||
        (t.chunk (offset / p.chunkSize)).mask.test j) := BitSet.test_set _ hi j
  refine ⟨?_, ?_, h.full_store hlt object⟩
  · intro page i ht
    rw [chunk_store hp] at ht
    split at ht
    · rw [hmask] at ht
      by_cases he : offset % p.chunkSize = i
      · omega
      · exact h.mask_lt _ i (by simpa [he] using ht)
    · exact h.mask_lt _ i ht
  · intro page i ht
    rw [chunk_store hp] at ht ⊢
    split at ht
    · rename_i hq
      rw [if_pos hq, Chunk.get_store _ hi]
      rw [hmask] at ht
      by_cases he : offset % p.chunkSize = i
      · rw [if_pos he]
        rfl
      · rw [if_neg he]
        exact h.objects _ i (by simpa [he] using ht)
    · rename_i hq
      rw [if_neg hq]
      exact h.objects _ i ht

theorem WellFormed.remove (h : WellFormed t) {offset : Nat} (hlt : offset < p.capacity) :
    WellFormed (t.remove (offset / p.chunkSize) (offset % p.chunkSize)) := by
  have hp := page_lt hlt
  have hi := index_lt (p := p) offset
  have hmask (j : Nat) : ((t.chunk (offset / p.chunkSize)).remove (offset % p.chunkSize)).mask.test
      j = (!decide (offset % p.chunkSize = j) &&
        (t.chunk (offset / p.chunkSize)).mask.test j) := BitSet.test_clear _ hi j
  refine ⟨?_, ?_, ?_⟩
  · intro page i ht
    rw [chunk_remove hp] at ht
    split at ht
    · rw [hmask, Bool.and_eq_true] at ht
      exact h.mask_lt _ i ht.2
    · exact h.mask_lt _ i ht
  · intro page i ht
    rw [chunk_remove hp] at ht ⊢
    split at ht
    · rename_i hq
      rw [hmask, Bool.and_eq_true] at ht
      rw [if_pos hq, Chunk.get_remove _ (by simpa using ht.1)]
      exact h.objects _ i ht.2
    · rename_i hq
      rw [if_neg hq]
      exact h.objects _ i ht
  · intro page
    rw [chunk_remove hp]
    show (t.fullChunks.clear _).test _ = true ↔ _
    rw [BitSet.test_clear _ hp]
    by_cases hq : offset / p.chunkSize = page
    · rw [if_pos hq, decide_eq_true hq]
      simp only [Bool.not_true, Bool.false_and, Bool.false_eq_true, false_iff]
      rintro ⟨-, hall⟩
      have hc := hall _ hi
      rw [hmask] at hc
      simp at hc
    · rw [if_neg hq, decide_eq_false hq, Bool.not_false, Bool.true_and]
      exact h.full_iff page

theorem chunk_empty (page : Nat) : (empty : Table p α).chunk page = .empty := by
  rw [chunk, empty, List.getD_eq_getElem?_getD, List.getElem?_replicate]
  split
  · rfl
  · rfl

theorem empty_wellFormed : WellFormed (empty : Table p α) := by
  have hmask (page i : Nat) : ((empty : Table p α).chunk page).mask.test i = false := by
    rw [chunk_empty]
    exact BitSet.test_empty i
  have hfull (page : Nat) : (empty : Table p α).fullChunks.test page = false :=
    BitSet.test_empty page
  refine ⟨?_, ?_, ?_⟩
  · intro page i ht
    rw [hmask] at ht
    cases ht
  · intro page i ht
    rw [hmask] at ht
    cases ht
  · intro page
    rw [hfull]
    simp only [Bool.false_eq_true, false_iff]
    rintro ⟨-, hall⟩
    have hc := hall 0 p.chunkSize_pos
    rw [hmask] at hc
    cases hc

theorem slot_empty (offset : Nat) : (empty : Table p α).slot offset = none := by
  rw [slot, chunk_empty]
  exact if_neg fun hc => by simp [Chunk.empty] at hc

-- The first page that is not marked full and its first clear bit are the lowest free slot.
theorem WellFormed.countrOne_spec (h : WellFormed t) :
    (t.fullChunks.countrOne = p.chunkCount ∧ ∀ offset, offset < p.capacity → t.slot offset ≠ none) ∨
    (t.fullChunks.countrOne < p.chunkCount ∧
      (t.chunk t.fullChunks.countrOne).mask.countrOne < p.chunkSize ∧
      t.slot (t.fullChunks.countrOne * p.chunkSize +
        (t.chunk t.fullChunks.countrOne).mask.countrOne) = none ∧
      ∀ offset, offset < t.fullChunks.countrOne * p.chunkSize +
        (t.chunk t.fullChunks.countrOne).mask.countrOne → t.slot offset ≠ none) := by
  have hfirst := t.fullChunks.countrOne_first
  have hlive {offset : Nat} (hlt : offset < p.capacity)
      (ht : (t.chunk (offset / p.chunkSize)).mask.test (offset % p.chunkSize) = true) :
      t.slot offset ≠ none := by
    rw [← h.slot_isSome hlt] at ht
    intro hn
    rw [hn] at ht
    cases ht
  have hle : t.fullChunks.countrOne ≤ p.chunkCount := by
    by_contra hgt
    have hs := hfirst.skipped p.chunkCount (Nat.zero_le _) (by omega)
    exact absurd ((h.full_iff _).mp hs).1 (Nat.lt_irrefl _)
  have hbelow {page i : Nat} (hpage : page < t.fullChunks.countrOne) (hi : i < p.chunkSize) :
      (t.chunk page).mask.test i = true :=
    ((h.full_iff page).mp (hfirst.skipped page (Nat.zero_le _) hpage)).2 i hi
  by_cases heq : t.fullChunks.countrOne = p.chunkCount
  · refine Or.inl ⟨heq, fun offset hlt => hlive hlt (hbelow ?_ (index_lt offset))⟩
    rw [heq]
    exact page_lt hlt
  · have hpage : t.fullChunks.countrOne < p.chunkCount := by omega
    have hhit := hfirst.hit (by omega)
    obtain ⟨i, hi, hclear⟩ : ∃ i, i < p.chunkSize ∧
        (t.chunk t.fullChunks.countrOne).mask.test i = false := by
      by_contra hall
      have hf := (h.full_iff t.fullChunks.countrOne).mpr ⟨hpage, fun i hi => by
        by_contra hn
        exact hall ⟨i, hi, by simpa using hn⟩⟩
      rw [hhit] at hf
      cases hf
    have hbit := (t.chunk t.fullChunks.countrOne).mask.countrOne_first
    have hindex : (t.chunk t.fullChunks.countrOne).mask.countrOne ≤ i := by
      by_contra hgt
      have hs := hbit.skipped i (Nat.zero_le _) (by omega)
      rw [hclear] at hs
      cases hs
    have hlt := offset_lt hpage (Nat.lt_of_le_of_lt hindex hi)
    have hdiv := offset_div t.fullChunks.countrOne (Nat.lt_of_le_of_lt hindex hi)
    have hmod := offset_mod t.fullChunks.countrOne (Nat.lt_of_le_of_lt hindex hi)
    refine Or.inr ⟨hpage, Nat.lt_of_le_of_lt hindex hi, ?_, ?_⟩
    · have hs := h.slot_isSome hlt
      rw [hdiv, hmod, hbit.hit (by have := p.chunkSize_le; omega)] at hs
      simpa using hs
    · intro offset ho
      apply hlive (by omega)
      have hd : offset / p.chunkSize ≤ t.fullChunks.countrOne := by
        rw [← hdiv]
        exact Nat.div_le_div_right (Nat.le_of_lt ho)
      rcases Nat.lt_or_eq_of_le hd with hd | hd
      · exact hbelow hd (index_lt offset)
      · rw [hd]
        refine hbit.skipped _ (Nat.zero_le _) ?_
        have hdm := Nat.div_add_mod offset p.chunkSize
        rw [hd, Nat.mul_comm] at hdm
        omega

-- The offsets of the slots that hold an object, in the order of the chunks.
def occupied (t : Table p α) : List Nat :=
  (List.range p.chunkCount).flatMap fun chunk =>
    ((t.chunk chunk).visit ((t.chunk chunk).mask.countrZero 0)).map (chunk * p.chunkSize + ·)

theorem mem_visit_iff (chunk index : Nat) :
    index ∈ (t.chunk chunk).visit ((t.chunk chunk).mask.countrZero 0) ↔
      index < p.chunkSize ∧ (t.chunk chunk).mask.test index = true := by
  have hrange : 0 ≤ index ∧ index < 0 + (p.chunkSize - 0) ↔ index < p.chunkSize := by omega
  rw [Chunk.visit_countrZero _ (Nat.zero_le _), List.mem_filter, List.mem_range'_1, hrange]

theorem mem_occupied_iff (offset : Nat) :
    offset ∈ t.occupied ↔ offset < p.capacity ∧
      (t.chunk (offset / p.chunkSize)).mask.test (offset % p.chunkSize) = true := by
  simp only [occupied, List.mem_flatMap, List.mem_range, List.mem_map, mem_visit_iff]
  constructor
  · rintro ⟨chunk, hc, index, ⟨hi, ht⟩, rfl⟩
    rw [offset_div _ hi, offset_mod _ hi]
    exact ⟨offset_lt hc hi, ht⟩
  · rintro ⟨hlt, ht⟩
    refine ⟨offset / p.chunkSize, page_lt hlt, offset % p.chunkSize, ⟨index_lt offset, ht⟩, ?_⟩
    rw [Nat.mul_comm, Nat.div_add_mod]

theorem occupied_nodup : t.occupied.Nodup := by
  rw [occupied, List.nodup_flatMap]
  constructor
  · intro chunk _
    rw [Chunk.visit_countrZero _ (Nat.zero_le _)]
    exact ((List.nodup_range').filter _).map fun i j h => Nat.add_left_cancel h
  · refine List.nodup_range.imp fun {a b} hne => ?_
    refine List.disjoint_left.mpr ?_
    intro offset ha hb
    simp only [List.mem_map, mem_visit_iff] at ha hb
    obtain ⟨i, ⟨hi, -⟩, rfl⟩ := ha
    obtain ⟨j, ⟨hj, -⟩, he⟩ := hb
    have hd := congrArg (· / p.chunkSize) he
    simp only [offset_div _ hi, offset_div _ hj] at hd
    exact hne hd.symm

end Table

end Rpcsx.IdMap
