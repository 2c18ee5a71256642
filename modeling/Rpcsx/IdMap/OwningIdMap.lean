import Rpcsx.IdMap

namespace Rpcsx.IdMap.OwningIdMap

variable {p : Params} {α : Type}

-- A `T *` into the storage of a chunk: the chunk and how many objects the pointer is behind the
-- start of its storage.
abbrev Address : Type := Nat × Nat

-- What lies at an address: nothing outside the storage of the chunk.
def read (t : Table p α) (address : Address) : Option α := (t.chunk address.1).get address.2

def emplaceAt (t : Table p α) (id : p.Id) (object : α) : Table p α × Option Address :=
  let page := p.idType.toSize id / p.chunkSize
  let index := p.idType.toSize id % p.chunkSize
  if p.chunkCount ≤ page then (t, none)
  else if (t.chunk page).mask.test index then (t.markFull page, none)
  else (t.store page index object, some (page, index))

def emplace (t : Table p α) (object : α) : Table p α × p.Id × Option Address :=
  let page := t.fullChunks.countrOne
  if page = p.chunkCount then (t, 0, none)
  else
    let index := (t.chunk page).mask.countrOne
    if p.chunkSize ≤ index then (t.markFull page, p.slotId page 0, none)
    else (t.store page index object, p.slotId page index, some (page, index))

def get (t : Table p α) (id : p.Id) : Option Address :=
  let chunk := p.rawId id / p.chunkSize
  let index := p.rawId id % p.chunkSize
  if p.chunkCount ≤ chunk then none
  else if !(t.chunk chunk).mask.test index then none
  else some (chunk, index)

def destroy (t : Table p α) (id : p.Id) : Table p α × Bool :=
  let chunk := p.rawId id / p.chunkSize
  let index := p.rawId id % p.chunkSize
  if p.chunkCount ≤ chunk then (t, false)
  else if !(t.chunk chunk).mask.test index then (t, false)
  else (t.remove chunk index, true)

-- The callback gets `*chunks[chunk].get(id)`: the id, not the index, picks the slot.
def walk (t : Table p α) : List (p.Id × Address) :=
  (List.range p.chunkCount).flatMap fun chunk =>
    ((t.chunk chunk).visit ((t.chunk chunk).mask.countrZero 0)).map fun index =>
      (p.slotId chunk index, (chunk, p.idType.toSize (p.slotId chunk index)))

inductive Call (p : Params) (α : Type) where
  | emplace (object : α)
  | emplaceAt (id : p.Id) (object : α)
  | get (id : p.Id)
  | destroy (id : p.Id)
  | walk

-- A returned object is told by its address and by what lies there.
inductive Result (p : Params) (α : Type) where
  | created (id : p.Id) (pointer : Option Address)
  | found (object : Option (Address × Option α))
  | done (ok : Bool)
  | visited (objects : List (p.Id × Address × Option α))

def lookup (t : Table p α) (id : p.Id) : Option (Address × Option α) :=
  (get t id).map fun address => (address, read t address)

def step (t : Table p α) : Call p α → Table p α × Result p α
  | .emplace object => ((emplace t object).1, .created (emplace t object).2.1 (emplace t object).2.2)
  | .emplaceAt id object => ((emplaceAt t id object).1, .created id (emplaceAt t id object).2)
  | .get id => (t, .found (lookup t id))
  | .destroy id => ((destroy t id).1, .done (destroy t id).2)
  | .walk => (t, .visited ((walk t).map fun visit => (visit.1, visit.2, read t visit.2)))

end Rpcsx.IdMap.OwningIdMap

namespace Rpcsx.IdMap.OwningIdMap

open Rpcsx.Data.Machine

variable {p : Params} {α : Type} {t : Table p α} {live : p.Id → Option (Address × α)}

-- What the results so far say about the live objects.
def next (live : p.Id → Option (Address × α)) :
    Call p α → Result p α → p.Id → Option (Address × α)
  | .emplace object, .created id (some pointer) =>
      Function.update live id (some (pointer, object))
  | .emplaceAt id object, .created _ (some pointer) =>
      Function.update live id (some (pointer, object))
  | .destroy id, .done true => Function.update live id none
  | _, _ => live

-- What a map of ids to the objects it owns answers: a new object is found under its id, and the
-- walk comes to the object of each live id once.
def Meets (t : Table p α) (live : p.Id → Option (Address × α)) : Call p α → Result p α → Prop
  | .emplace object, .created id pointer => ∀ address, pointer = some address →
      live id = none ∧ lookup (step t (.emplace object)).1 id = some (address, some object)
  | .emplaceAt id object, .created _ pointer => ∀ address, pointer = some address →
      live id = none ∧ lookup (step t (.emplaceAt id object)).1 id = some (address, some object)
  | .get id, .found object => object = (live id).map fun x => (x.1, some x.2)
  | .destroy id, .done ok => ok = (live id).isSome
  | .walk, .visited objects => (objects.map Prod.fst).Nodup ∧
      ∀ id address object, (id, address, object) ∈ objects ↔
        ∃ x, object = some x ∧ live id = some (address, x)
  | _, _ => False

-- `emplace_at` forgets `MinId`, and `walk` takes the id for the index of the slot.
def IdIsSlot (live : p.Id → Option (Address × α)) : Call p α → Prop
  | .emplaceAt id _ => p.minId = 0 ∨ p.chunkSize * p.chunkCount ≤ p.idType.toSize id ∨
      live (p.idType.ofSize (p.idType.toSize id + p.minId)) ≠ none
  | .walk => ∀ id, live id ≠ none → p.minId = 0 ∧ p.idType.toSize id < p.chunkSize
  | _ => True

structure Represents (t : Table p α) (live : p.Id → Option (Address × α)) : Prop where
  wellFormed : t.WellFormed
  live_eq : ∀ id, live id = (t.slot (p.rawId id)).map fun x =>
    ((p.rawId id / p.chunkSize, p.rawId id % p.chunkSize), x)

theorem empty_represents : Represents (Table.empty : Table p α) (fun _ => none) := by
  refine ⟨Table.empty_wellFormed, fun id => ?_⟩
  rw [Table.slot_empty]
  rfl

theorem Represents.live_isSome (h : Represents t live) {id : p.Id} (hlt : p.rawId id < p.capacity) :
    (live id).isSome =
      (t.chunk (p.rawId id / p.chunkSize)).mask.test (p.rawId id % p.chunkSize) := by
  rw [h.live_eq, Option.isSome_map, h.wellFormed.slot_isSome hlt]

theorem page_ge_iff (n : Nat) : p.chunkCount ≤ n / p.chunkSize ↔ p.capacity ≤ n := by
  rw [Nat.le_div_iff_mul_le p.chunkSize_pos, Params.capacity, Nat.mul_comm]

theorem Represents.lookup_eq (h : Represents t live) (id : p.Id) :
    lookup t id = (live id).map fun x => (x.1, some x.2) := by
  rw [lookup, get, h.live_eq]
  by_cases hout : p.capacity ≤ p.rawId id
  · rw [Table.slot_of_ge hout, if_pos ((page_ge_iff _).mpr hout)]
    rfl
  · rw [if_neg fun hc => hout ((page_ge_iff _).mp hc), Table.slot]
    by_cases ht : (t.chunk (p.rawId id / p.chunkSize)).mask.test (p.rawId id % p.chunkSize) = true
    · obtain ⟨x, hx⟩ := Option.isSome_iff_exists.mp (h.wellFormed.objects _ _ ht)
      rw [if_neg (by simp [ht]), if_pos ⟨by omega, ht⟩, Option.map_some, read, hx]
      rfl
    · rw [if_pos (by simpa using ht), if_neg fun hc => ht hc.2]
      rfl

theorem Represents.store (h : Represents t live) {offset : Nat} (hlt : offset < p.capacity)
    (object : α) :
    Represents (t.store (offset / p.chunkSize) (offset % p.chunkSize) object)
      (Function.update live (p.idAt offset)
        (some ((offset / p.chunkSize, offset % p.chunkSize), object))) := by
  refine ⟨h.wellFormed.store hlt object, fun id => ?_⟩
  rw [Table.slot_store hlt]
  by_cases he : id = p.idAt offset
  · rw [he, Function.update_self, p.rawId_idAt hlt, if_pos rfl]
    rfl
  · have hne : p.rawId id ≠ offset := by
      intro hr
      exact he (p.rawId_injective (by rw [hr, p.rawId_idAt hlt]))
    rw [Function.update_of_ne he, if_neg hne]
    exact h.live_eq id

theorem Represents.remove (h : Represents t live) {id : p.Id} (hlt : p.rawId id < p.capacity) :
    Represents (t.remove (p.rawId id / p.chunkSize) (p.rawId id % p.chunkSize))
      (Function.update live id none) := by
  refine ⟨h.wellFormed.remove hlt, fun i => ?_⟩
  rw [Table.slot_remove hlt]
  by_cases he : i = id
  · rw [he, Function.update_self, if_pos rfl]
    rfl
  · have hne : p.rawId i ≠ p.rawId id := fun hr => he (p.rawId_injective hr)
    rw [Function.update_of_ne he, if_neg hne]
    exact h.live_eq i

-- A full chunk is marked already.
theorem Represents.markFull (h : Represents t live) {page : Nat} (hp : page < p.chunkCount) :
    Represents (t.markFull page) live := by
  have hslot (k : Nat) : (t.markFull page).slot k = t.slot k := by
    rw [Table.slot, Table.slot, Table.chunk_markFull]
  refine ⟨⟨?_, ?_, ?_⟩, fun id => ?_⟩
  · intro q i
    rw [Table.chunk_markFull]
    exact h.wellFormed.mask_lt q i
  · intro q i
    rw [Table.chunk_markFull]
    exact h.wellFormed.objects q i
  · intro q
    rw [Table.chunk_markFull, ← h.wellFormed.full_iff, Table.markFull]
    split
    · rename_i hf
      show (t.fullChunks.set page).test q = true ↔ _
      rw [BitSet.test_set _ hp]
      by_cases hq : page = q
      · subst hq
        have hall := (BitSet.full_iff _ p.chunkSize_pos p.chunkSize_le
          (h.wellFormed.mask_lt page)).mp hf
        simp [(h.wellFormed.full_iff page).mpr ⟨hp, hall⟩]
      · simp [hq]
    · rfl
  · rw [hslot]
    exact h.live_eq id

-- An object stored at its own offset is found under its id.
theorem Represents.lookup_store (h : Represents t live) {offset : Nat} (hlt : offset < p.capacity)
    (object : α) :
    lookup (t.store (offset / p.chunkSize) (offset % p.chunkSize) object) (p.idAt offset) =
      some ((offset / p.chunkSize, offset % p.chunkSize), some object) := by
  rw [(h.store hlt object).lookup_eq, Function.update_self]
  rfl

theorem Represents.emplace_spec (h : Represents t live) (object : α) :
    Meets t live (.emplace object) (step t (.emplace object)).2 ∧
      Represents (step t (.emplace object)).1
        (next live (.emplace object) (step t (.emplace object)).2) := by
  rcases h.wellFormed.countrOne_spec with ⟨hpage, -⟩ | ⟨hpage, hindex, hfree, -⟩
  · have he : emplace t object = (t, 0, none) := if_pos hpage
    simp only [Meets, step, he, next]
    exact ⟨by simp, h⟩
  · have hlt := Table.offset_lt hpage hindex
    have he : emplace t object =
        (t.store t.fullChunks.countrOne (t.chunk t.fullChunks.countrOne).mask.countrOne object,
          p.slotId t.fullChunks.countrOne (t.chunk t.fullChunks.countrOne).mask.countrOne,
          some (t.fullChunks.countrOne, (t.chunk t.fullChunks.countrOne).mask.countrOne)) := by
      simp only [emplace]
      rw [if_neg (Nat.ne_of_lt hpage), if_neg (Nat.not_le_of_lt hindex)]
    have hstore := h.store hlt object
    have hlookup := h.lookup_store hlt object
    rw [Table.offset_div _ hindex, Table.offset_mod _ hindex] at hstore hlookup
    simp only [Meets, step, he, next]
    refine ⟨?_, hstore⟩
    rintro address ⟨⟩
    refine ⟨?_, hlookup⟩
    show live (p.idAt _) = none
    rw [h.live_eq, p.rawId_idAt hlt, hfree]
    rfl

theorem Represents.emplaceAt_spec (h : Represents t live) (id : p.Id) (object : α) :
    (IdIsSlot live (.emplaceAt id object) ↔
      Meets t live (.emplaceAt id object) (step t (.emplaceAt id object)).2) ∧
      (IdIsSlot live (.emplaceAt id object) → Represents (step t (.emplaceAt id object)).1
        (next live (.emplaceAt id object) (step t (.emplaceAt id object)).2)) := by
  have hcap : p.capacity = p.chunkSize * p.chunkCount := rfl
  have hsum : p.idType.ofSize (p.idType.toSize id + p.minId) = p.idAt (p.idType.toSize id) := rfl
  by_cases hout : p.capacity ≤ p.idType.toSize id
  · have he : emplaceAt t id object = (t, none) := if_pos ((page_ge_iff _).mpr hout)
    simp only [IdIsSlot, Meets, step, he, next, ← hcap, hout, true_or, or_true]
    exact ⟨by simp, fun _ => h⟩
  · have hlt : p.idType.toSize id < p.capacity := Nat.lt_of_not_le hout
    have hpage : ¬p.chunkCount ≤ p.idType.toSize id / p.chunkSize :=
      fun hc => hout ((page_ge_iff _).mp hc)
    have hsome := h.wellFormed.slot_isSome hlt
    by_cases ht : (t.chunk (p.idType.toSize id / p.chunkSize)).mask.test
        (p.idType.toSize id % p.chunkSize) = true
    · have he : emplaceAt t id object =
          (t.markFull (p.idType.toSize id / p.chunkSize), none) := by
        simp only [emplaceAt]
        rw [if_neg hpage, if_pos ht]
      have hlive : live (p.idAt (p.idType.toSize id)) ≠ none := by
        rw [h.live_eq, p.rawId_idAt hlt]
        intro hn
        rw [Option.map_eq_none_iff.mp hn, ht] at hsome
        cases hsome
      simp only [IdIsSlot, Meets, step, he, next, hsum]
      exact ⟨by simp [hlive], fun _ => h.markFull (Nat.lt_of_not_le hpage)⟩
    · have he : emplaceAt t id object =
          (t.store (p.idType.toSize id / p.chunkSize) (p.idType.toSize id % p.chunkSize) object,
            some (p.idType.toSize id / p.chunkSize, p.idType.toSize id % p.chunkSize)) := by
        simp only [emplaceAt]
        rw [if_neg hpage, if_neg ht]
      have hnone : t.slot (p.idType.toSize id) = none := by
        rw [Bool.not_eq_true] at ht
        simpa [ht] using hsome
      have hfree : live (p.idAt (p.idType.toSize id)) = none := by
        rw [h.live_eq, p.rawId_idAt hlt, hnone]
        rfl
      have hslot : IdIsSlot live (.emplaceAt id object) ↔ p.minId = 0 := by
        simp only [IdIsSlot, hsum, hfree, ← hcap, hout, ne_eq, not_true_eq_false, or_false]
      rw [hslot]
      by_cases hmin : p.minId = 0
      · -- the offset of the id is the id
        have hid : p.idAt (p.idType.toSize id) = id := by
          rw [Params.idAt, hmin, Nat.add_zero, p.ofSize_toSize]
        rw [hid] at hfree
        have hstore := h.store hlt object
        have hlookup := h.lookup_store hlt object
        rw [hid] at hstore hlookup
        simp only [Meets, step, he, next, hmin, true_iff]
        refine ⟨?_, fun _ => hstore⟩
        rintro address ⟨⟩
        exact ⟨hfree, hlookup⟩
      · -- `get` looks `MinId` slots before the new object
        refine ⟨iff_of_false hmin ?_, fun hc => absurd hc hmin⟩
        simp only [Meets, step, he]
        intro hmeets
        obtain ⟨-, hlookup⟩ := hmeets _ rfl
        have hne : p.rawId id ≠ p.idType.toSize id := by
          have hlim := p.limit_lt
          have hfits := p.minId_add_capacity_le
          have hid := p.toSize_lt id
          rw [Params.rawId]
          omega
        simp only [lookup, get, Option.map_eq_some_iff, Prod.mk.injEq] at hlookup
        obtain ⟨address, hget, haddress, -⟩ := hlookup
        split at hget
        · cases hget
        · split at hget
          · cases hget
          · rw [haddress] at hget
            obtain ⟨hd, hm⟩ := Prod.mk.inj (Option.some.inj hget)
            exact hne ((Table.offset_eq_iff _ _).mpr ⟨hd, hm⟩)

theorem Represents.destroy_spec (h : Represents t live) (id : p.Id) :
    Meets t live (.destroy id) (step t (.destroy id)).2 ∧
      Represents (step t (.destroy id)).1 (next live (.destroy id) (step t (.destroy id)).2) := by
  by_cases hout : p.capacity ≤ p.rawId id
  · have he : destroy t id = (t, false) := if_pos ((page_ge_iff _).mpr hout)
    simp only [Meets, step, he, next, h.live_eq, Table.slot_of_ge hout]
    exact ⟨rfl, h⟩
  · have hlt : p.rawId id < p.capacity := Nat.lt_of_not_le hout
    have hpage : ¬p.chunkCount ≤ p.rawId id / p.chunkSize := fun hc => hout ((page_ge_iff _).mp hc)
    have hsome := h.live_isSome hlt
    by_cases ht : (t.chunk (p.rawId id / p.chunkSize)).mask.test (p.rawId id % p.chunkSize) = true
    · have he : destroy t id =
          (t.remove (p.rawId id / p.chunkSize) (p.rawId id % p.chunkSize), true) := by
        simp only [destroy]
        rw [if_neg hpage, if_neg (by simp [ht])]
      simp only [Meets, step, he, next, hsome, ht]
      exact ⟨trivial, h.remove hlt⟩
    · have he : destroy t id = (t, false) := by
        simp only [destroy]
        rw [if_neg hpage, if_pos (by simpa using ht)]
      simp only [Meets, step, he, next, hsome]
      exact ⟨by simpa using ht, h⟩

theorem walk_eq : (walk t).map (fun visit => (visit.1, visit.2, read t visit.2)) =
    t.occupied.map fun offset => (p.idAt offset,
      (offset / p.chunkSize, offset + p.minId),
      read t (offset / p.chunkSize, offset + p.minId)) := by
  rw [walk, Table.occupied, List.map_flatMap, List.map_flatMap]
  apply List.flatMap_congr
  intro chunk hc
  rw [List.map_map, List.map_map]
  apply List.map_congr_left
  intro index hi
  have hindex := ((Table.mem_visit_iff chunk index).mp hi).1
  have hlt := Table.offset_lt (List.mem_range.mp hc) hindex
  have hid : p.slotId chunk index = p.idAt (chunk * p.chunkSize + index) := rfl
  simp only [Function.comp_apply, Table.offset_div _ hindex, hid, p.toSize_idAt hlt]

theorem Represents.occupied_iff (h : Represents t live) (id : p.Id) :
    p.rawId id ∈ t.occupied ↔ live id ≠ none := by
  rw [Table.mem_occupied_iff]
  constructor
  · rintro ⟨hlt, ht⟩ hn
    rw [← h.live_isSome hlt, hn] at ht
    cases ht
  · intro hne
    have hlt : p.rawId id < p.capacity := by
      by_contra hge
      rw [h.live_eq, Table.slot_of_ge (by omega)] at hne
      exact hne rfl
    refine ⟨hlt, ?_⟩
    rw [← h.live_isSome hlt, Option.isSome_iff_ne_none]
    exact hne

theorem Represents.live_occupied (h : Represents t live) {offset : Nat}
    (ho : offset ∈ t.occupied) :
    ∃ x, (t.chunk (offset / p.chunkSize)).get (offset % p.chunkSize) = some x ∧
      live (p.idAt offset) = some ((offset / p.chunkSize, offset % p.chunkSize), x) := by
  obtain ⟨hlt, ht⟩ := (Table.mem_occupied_iff offset).mp ho
  obtain ⟨x, hx⟩ := Option.isSome_iff_exists.mp (h.wellFormed.objects _ _ ht)
  refine ⟨x, hx, ?_⟩
  rw [h.live_eq, p.rawId_idAt hlt, Table.slot, if_pos ⟨hlt, ht⟩, hx]
  rfl

theorem Represents.walk_spec (h : Represents t live) :
    IdIsSlot live .walk ↔ Meets t live .walk (step t .walk).2 := by
  simp only [IdIsSlot, Meets, step, walk_eq]
  constructor
  · intro hslot
    constructor
    · rw [List.map_map]
      apply List.Nodup.map_on _ Table.occupied_nodup
      intro i hi j hj he
      rw [← p.rawId_idAt ((Table.mem_occupied_iff i).mp hi).1,
        ← p.rawId_idAt ((Table.mem_occupied_iff j).mp hj).1]
      exact congrArg p.rawId he
    · -- with the ids in the first chunk the two addresses are the same
      have haddress {offset : Nat} (ho : offset ∈ t.occupied) :
          offset + p.minId = offset % p.chunkSize := by
        obtain ⟨hlt, -⟩ := (Table.mem_occupied_iff offset).mp ho
        obtain ⟨x, -, hx⟩ := h.live_occupied ho
        obtain ⟨hmin, hsize⟩ := hslot (p.idAt offset) (by rw [hx]; simp)
        rw [p.toSize_idAt hlt] at hsize
        rw [Nat.mod_eq_of_lt (by omega), hmin, Nat.add_zero]
      intro id address object
      rw [List.mem_map]
      constructor
      · rintro ⟨offset, ho, he⟩
        obtain ⟨x, hget, hx⟩ := h.live_occupied ho
        rw [haddress ho] at he
        simp only [Prod.mk.injEq, read, hget] at he
        obtain ⟨rfl, rfl, rfl⟩ := he
        exact ⟨x, rfl, hx⟩
      · rintro ⟨x, rfl, hx⟩
        have ho : p.rawId id ∈ t.occupied := (h.occupied_iff id).mpr (by rw [hx]; simp)
        obtain ⟨hlt, -⟩ := (Table.mem_occupied_iff _).mp ho
        obtain ⟨y, hget, hy⟩ := h.live_occupied ho
        rw [p.idAt_rawId hlt, hx] at hy
        obtain ⟨haddr, rfl⟩ := Prod.mk.inj (Option.some.inj hy)
        refine ⟨p.rawId id, ho, ?_⟩
        rw [haddress ho, p.idAt_rawId hlt, haddr, read, hget]
  · rintro ⟨-, hmem⟩ id hne
    have ho : p.rawId id ∈ t.occupied := (h.occupied_iff id).mpr hne
    obtain ⟨hlt, -⟩ := (Table.mem_occupied_iff _).mp ho
    obtain ⟨x, -, hx⟩ := h.live_occupied ho
    obtain ⟨y, -, hy⟩ := (hmem (p.idAt (p.rawId id))
      (p.rawId id / p.chunkSize, p.rawId id + p.minId) _).mp (List.mem_map.mpr ⟨_, ho, rfl⟩)
    rw [hx] at hy
    simp only [Option.some.injEq, Prod.mk.injEq, true_and] at hy
    have hle := Nat.mod_le (p.rawId id) p.chunkSize
    have hindex := Table.index_lt (p := p) (p.rawId id)
    rw [p.toSize_of_rawId hlt]
    omega

theorem Represents.step (h : Represents t live) (call : Call p α) :
    (IdIsSlot live call ↔ Meets t live call (OwningIdMap.step t call).2) ∧
      (IdIsSlot live call → Represents (OwningIdMap.step t call).1
        (next live call (OwningIdMap.step t call).2)) := by
  cases call with
  | emplace object =>
      obtain ⟨hmeets, hrep⟩ := h.emplace_spec object
      exact ⟨iff_of_true trivial hmeets, fun _ => hrep⟩
  | emplaceAt id object => exact h.emplaceAt_spec id object
  | get id => exact ⟨iff_of_true trivial (h.lookup_eq id), fun _ => h⟩
  | destroy id =>
      obtain ⟨hmeets, hrep⟩ := h.destroy_spec id
      exact ⟨iff_of_true trivial hmeets, fun _ => hrep⟩
  | walk => exact ⟨h.walk_spec, fun _ => h⟩

-- Along every run the answers are those of a map that owns its live objects exactly when the id
-- is the index of the slot wherever the code takes it for one.
theorem run_agrees_iff (calls : List (Call p α)) :
    Along OwningIdMap.step next (fun _ live call _ => IdIsSlot live call)
        (Table.empty : Table p α) (fun _ => none) calls ↔
      Along OwningIdMap.step next Meets (Table.empty : Table p α) (fun _ => none) calls :=
  along_iff_of_invariant Represents (fun _ _ call h => h.step call) empty_represents calls

-- `OwningIdMap<T, unsigned, 9, 1>`
def eightIdsFromOne : Params where
  idType := ⟨32, false⟩
  maxId := 9
  minId := 1
  minId_lt := by decide
  size_lt := by decide
  width_pos := by decide
  width_le := by decide
  fits := by decide

-- The first object gets id 1 and slot 0; the walk hands out what lies in slot 1.
theorem walk_reads_next_slot :
    ¬Along OwningIdMap.step next Meets (Table.empty : Table eightIdsFromOne Unit) (fun _ => none)
      [.emplace (), .walk] := by
  have hvisited : (walk (emplace (Table.empty : Table eightIdsFromOne Unit) ()).1).map
      (fun visit => (visit.1, visit.2, read (emplace (Table.empty : Table eightIdsFromOne Unit)
        ()).1 visit.2)) = [(eightIdsFromOne.idType.ofSize 1, (0, 1), none)] := by
    decide +kernel
  rintro ⟨-, ⟨-, hmem⟩, -⟩
  obtain ⟨x, hx, -⟩ := (hmem (eightIdsFromOne.idType.ofSize 1) (0, 1) none).mp
    (hvisited ▸ List.mem_singleton.mpr rfl)
  cases hx

end Rpcsx.IdMap.OwningIdMap
