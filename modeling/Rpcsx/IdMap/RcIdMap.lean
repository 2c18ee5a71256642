import Rpcsx.IdMap

namespace Rpcsx.IdMap.RcIdMap

variable {p : Params} {α : Type}

-- `IdMapChunk::insert(index, object)` and `IdMapChunk::insert(object)` on one of the chunks,
-- with the summary bit set behind them.
def insertImplAt (t : Table p α) (id : p.Id) (object : α) : Table p α × Bool :=
  let page := p.rawId id / p.chunkSize
  let index := p.rawId id % p.chunkSize
  if p.chunkCount ≤ page then (t, false)
  else if (t.chunk page).mask.test index then (t, false)
  else (t.store page index object, true)

def insertImpl (t : Table p α) (object : α) : Table p α × p.Id :=
  let page := t.fullChunks.countrOne
  if page = p.chunkCount then (t, p.npos)
  else
    let index := (t.chunk page).mask.countrOne
    (t.store page index object, p.slotId page index)

def get (t : Table p α) (id : p.Id) : Option α :=
  if p.maxId - p.minId ≤ p.rawId id then none
  else if !(t.chunk (p.rawId id / p.chunkSize)).mask.test (p.rawId id % p.chunkSize) then none
  else (t.chunk (p.rawId id / p.chunkSize)).get (p.rawId id % p.chunkSize)

-- `close`; `destroy` differs from it in a call of the object's own `destroy` only.
def close (t : Table p α) (id : p.Id) : Table p α × Bool :=
  if p.maxId - p.minId ≤ p.rawId id then (t, false)
  else if !(t.chunk (p.rawId id / p.chunkSize)).mask.test (p.rawId id % p.chunkSize) then (t, false)
  else (t.remove (p.rawId id / p.chunkSize) (p.rawId id % p.chunkSize), true)

def walk (t : Table p α) : List (p.Id × Option α) :=
  (List.range p.chunkCount).flatMap fun chunk =>
    ((t.chunk chunk).visit ((t.chunk chunk).mask.countrZero 0)).map fun index =>
      (p.slotId chunk index, (t.chunk chunk).get index)

-- The iterator: its chunk and index, moved on to the next object.
def findNext (t : Table p α) (chunk index : Nat) : Nat × Nat :=
  if chunk < p.chunkCount then
    let next := (t.chunk chunk).mask.countrZero index
    if next < p.chunkSize then (chunk, next) else findNext t (chunk + 1) 0
  else (chunk, index)
  termination_by p.chunkCount - chunk

theorem findNext_progress (t : Table p α) (chunk index : Nat) :
    chunk ≤ (findNext t chunk index).1 ∧
      (chunk < p.chunkCount → (findNext t chunk index).1 = chunk →
        index ≤ (findNext t chunk index).2 ∧ (findNext t chunk index).2 < p.chunkSize) := by
  fun_induction findNext t chunk index with
  | case1 chunk index hc next hn =>
      exact ⟨Nat.le_refl _, fun _ _ => ⟨(t.chunk chunk).mask.le_countrZero index, hn⟩⟩
  | case2 chunk index hc next hn ih =>
      refine ⟨by omega, fun _ he => ?_⟩
      omega
  | case3 chunk index hc => exact ⟨Nat.le_refl _, fun h => absurd h hc⟩

def iterateFrom (t : Table p α) (pos : Nat × Nat) : List (p.Id × Option α) :=
  if pos.1 < p.chunkCount then
    (p.slotId pos.1 pos.2, (t.chunk pos.1).get pos.2) ::
      iterateFrom t (findNext t pos.1 (pos.2 + 1))
  else []
  termination_by (p.chunkCount - pos.1, p.chunkSize - pos.2)
  decreasing_by
    obtain ⟨hle, heq⟩ := findNext_progress t pos.1 (pos.2 + 1)
    rcases Nat.lt_or_eq_of_le hle with h | h
    · exact Prod.Lex.left _ _ (by omega)
    · obtain ⟨h₁, h₂⟩ := heq (by assumption) h.symm
      rw [← h]
      exact Prod.Lex.right _ (by omega)

-- The pairs that a loop from `begin()` to `end()` comes to.
def iterate (t : Table p α) : List (p.Id × Option α) := iterateFrom t (findNext t 0 0)

inductive Call (p : Params) (α : Type) where
  | insert (object : α)
  | insertAt (id : p.Id) (object : α)
  | get (id : p.Id)
  | close (id : p.Id)
  | destroy (id : p.Id)
  | walk
  | iterate

inductive Result (p : Params) (α : Type) where
  | id (id : p.Id)
  | done (ok : Bool)
  | object (object : Option α)
  | visited (pairs : List (p.Id × Option α))

def step (t : Table p α) : Call p α → Table p α × Result p α
  | .insert object => ((insertImpl t object).1, .id (insertImpl t object).2)
  | .insertAt id object => ((insertImplAt t id object).1, .done (insertImplAt t id object).2)
  | .get id => (t, .object (get t id))
  | .close id => ((close t id).1, .done (close t id).2)
  | .destroy id => ((close t id).1, .done (close t id).2)
  | .walk => (t, .visited (walk t))
  | .iterate => (t, .visited (iterate t))

end Rpcsx.IdMap.RcIdMap

namespace Rpcsx.IdMap.RcIdMap

open Rpcsx.Data.Machine

variable {p : Params} {α : Type} {t : Table p α} {live : p.Id → Option α}

-- What the results so far say about the live objects.
def next (live : p.Id → Option α) : Call p α → Result p α → p.Id → Option α
  | .insert object, .id id =>
      if id = p.npos then live else Function.update live id (some object)
  | .insertAt id object, .done true => Function.update live id (some object)
  | .close id, .done true => Function.update live id none
  | .destroy id, .done true => Function.update live id none
  | _, _ => live

-- Each live pair is visited once.
def Visits (live : p.Id → Option α) (pairs : List (p.Id × Option α)) : Prop :=
  (pairs.map Prod.fst).Nodup ∧
    ∀ id object, (id, object) ∈ pairs ↔ ∃ x, object = some x ∧ live id = some x

-- What a map of ids to objects answers.
def Meets (live : p.Id → Option α) : Call p α → Result p α → Prop
  | .insert _, .id id =>
      if id = p.npos then ∀ i, p.InRange i → live i ≠ none else p.InRange id ∧ live id = none
  | .insertAt id _, .done ok => ok = true → p.InRange id ∧ live id = none
  | .get id, .object object => object = live id
  | .close id, .done ok => ok = (live id).isSome
  | .destroy id, .done ok => ok = (live id).isSome
  | .walk, .visited pairs => Visits live pairs
  | .iterate, .visited pairs => Visits live pairs
  | _, _ => False

-- The last chunk has slots for ids from `MaxId` on unless the ids fill whole chunks: such an id
-- is not asked for, and an `insert` does not come when no id of the range is left.
def StaysInRange (live : p.Id → Option α) : Call p α → Prop
  | .insert _ =>
      (p.maxId - p.minId ≤ 64 ∨ 64 ∣ p.maxId - p.minId) ∨ ∃ id, p.InRange id ∧ live id = none
  | .insertAt id _ => p.rawId id < p.maxId - p.minId ∨ p.chunkSize * p.chunkCount ≤ p.rawId id
  | _ => True

structure Represents (t : Table p α) (live : p.Id → Option α) : Prop where
  wellFormed : t.WellFormed
  live_eq : ∀ id, live id = t.slot (p.rawId id)
  slack : ∀ offset, p.maxId - p.minId ≤ offset → t.slot offset = none

theorem empty_represents : Represents (Table.empty : Table p α) (fun _ => none) :=
  ⟨Table.empty_wellFormed, fun _ => (Table.slot_empty _).symm, fun _ _ => Table.slot_empty _⟩

theorem Represents.live_idAt (h : Represents t live) {offset : Nat} (hlt : offset < p.capacity) :
    live (p.idAt offset) = t.slot offset := by
  rw [h.live_eq, p.rawId_idAt hlt]

-- A store in the range or a removal moves the map along.
theorem Represents.store (h : Represents t live) {offset : Nat}
    (hlt : offset < p.maxId - p.minId) (object : α) :
    Represents (t.store (offset / p.chunkSize) (offset % p.chunkSize) object)
      (Function.update live (p.idAt offset) (some object)) := by
  have hcap : offset < p.capacity := Nat.lt_of_lt_of_le hlt p.range_le_capacity
  refine ⟨h.wellFormed.store hcap object, ?_, ?_⟩
  · intro id
    rw [Table.slot_store hcap]
    by_cases he : id = p.idAt offset
    · rw [he, Function.update_self, p.rawId_idAt hcap, if_pos rfl]
    · have hne : p.rawId id ≠ offset := by
        intro hr
        exact he (p.rawId_injective (by rw [hr, p.rawId_idAt hcap]))
      rw [Function.update_of_ne he, if_neg hne]
      exact h.live_eq id
  · intro k hk
    rw [Table.slot_store hcap, if_neg (by omega)]
    exact h.slack k hk

theorem Represents.remove (h : Represents t live) {id : p.Id} (hlt : p.rawId id < p.capacity) :
    Represents (t.remove (p.rawId id / p.chunkSize) (p.rawId id % p.chunkSize))
      (Function.update live id none) := by
  refine ⟨h.wellFormed.remove hlt, ?_, ?_⟩
  · intro i
    rw [Table.slot_remove hlt]
    by_cases he : i = id
    · rw [he, Function.update_self, if_pos rfl]
    · have hne : p.rawId i ≠ p.rawId id := fun hr => he (p.rawId_injective hr)
      rw [Function.update_of_ne he, if_neg hne]
      exact h.live_eq i
  · intro k hk
    rw [Table.slot_remove hlt]
    split
    · rfl
    · exact h.slack k hk

theorem Represents.get_eq (h : Represents t live) (id : p.Id) : get t id = live id := by
  have hrange := p.range_le_capacity
  rw [get, h.live_eq]
  by_cases hr : p.maxId - p.minId ≤ p.rawId id
  · rw [if_pos hr, h.slack _ hr]
  · have hcap : p.rawId id < p.capacity := by omega
    rw [if_neg hr, Table.slot]
    by_cases ht : (t.chunk (p.rawId id / p.chunkSize)).mask.test (p.rawId id % p.chunkSize) = true
    · rw [if_neg (by simp [ht]), if_pos ⟨hcap, ht⟩]
    · rw [if_pos (by simpa using ht), if_neg fun hc => ht hc.2]

theorem Represents.close_spec (h : Represents t live) (id : p.Id) :
    (close t id).2 = (live id).isSome ∧
      Represents (close t id).1 (if (close t id).2 = true then Function.update live id none
        else live) := by
  have hrange := p.range_le_capacity
  rw [close]
  by_cases hr : p.maxId - p.minId ≤ p.rawId id
  · rw [if_pos hr, h.live_eq, h.slack _ hr]
    exact ⟨rfl, h⟩
  · have hcap : p.rawId id < p.capacity := by omega
    have hsome := h.wellFormed.slot_isSome hcap
    rw [if_neg hr, h.live_eq, hsome]
    by_cases ht : (t.chunk (p.rawId id / p.chunkSize)).mask.test (p.rawId id % p.chunkSize) = true
    · rw [if_neg (by simp [ht]), ht]
      exact ⟨rfl, h.remove hcap⟩
    · rw [if_pos (by simpa using ht)]
      exact ⟨by simpa using ht, h⟩

theorem slotId_eq (page index : Nat) :
    p.slotId page index = p.idAt (page * p.chunkSize + index) := rfl

-- `insert` takes the lowest free slot: an id of the range as long as one is free.
theorem Represents.insert_spec (h : Represents t live) (object : α) :
    (StaysInRange live (.insert object) ↔ Meets live (.insert object) (.id (insertImpl t object).2)) ∧
      (StaysInRange live (.insert object) → Represents (insertImpl t object).1
        (next live (.insert object) (.id (insertImpl t object).2))) := by
  have hrange := p.range_le_capacity
  have hmin := p.minId_lt
  simp only [StaysInRange, Meets, next]
  rcases h.wellFormed.countrOne_spec with ⟨hpage, hall⟩ | ⟨hpage, hindex, hfree, hlower⟩
  · -- no slot is left, so the chunks are whole
    have hwhole : p.capacity = p.maxId - p.minId := by
      by_contra hne
      exact hall _ (by omega) (h.slack (p.maxId - p.minId) (Nat.le_refl _))
    rw [show insertImpl t object = (t, p.npos) from if_pos hpage]
    refine ⟨⟨fun _ => ?_, fun _ => Or.inl (p.capacity_eq_iff.mp hwhole)⟩, fun _ => ?_⟩
    · rw [if_pos rfl]
      intro i hi
      rw [h.live_eq]
      exact hall _ (by rw [p.inRange_iff] at hi; omega)
    · rw [if_pos rfl]
      exact h
  · have hlt := Table.offset_lt hpage hindex
    have hne := p.idAt_ne_npos hlt
    have hstay : ((p.maxId - p.minId ≤ 64 ∨ 64 ∣ p.maxId - p.minId) ∨
        ∃ id, p.InRange id ∧ live id = none) ↔
        t.fullChunks.countrOne * p.chunkSize + (t.chunk t.fullChunks.countrOne).mask.countrOne <
          p.maxId - p.minId := by
      rw [← p.capacity_eq_iff]
      constructor
      · rintro (hwhole | ⟨id, hid, hnone⟩)
        · omega
        · rw [p.inRange_iff] at hid
          by_contra hge
          rw [h.live_eq] at hnone
          exact hlower _ (by omega) hnone
      · intro hin
        refine Or.inr ⟨p.idAt _, ?_, (h.live_idAt hlt).trans hfree⟩
        rw [p.inRange_iff, p.rawId_idAt hlt]
        exact hin
    rw [show insertImpl t object = (t.store _ _ object, p.slotId _ _) from
      if_neg (Nat.ne_of_lt hpage), slotId_eq, hstay]
    refine ⟨?_, fun hin => ?_⟩
    · rw [if_neg hne, p.inRange_iff, p.rawId_idAt hlt, h.live_idAt hlt]
      simp only [hfree, and_true]
    · have hs := h.store hin object
      rw [Table.offset_div _ hindex, Table.offset_mod _ hindex] at hs
      rw [if_neg hne]
      exact hs

theorem Represents.insertAt_spec (h : Represents t live) (id : p.Id) (object : α) :
    (StaysInRange live (.insertAt id object) ↔
      Meets live (.insertAt id object) (.done (insertImplAt t id object).2)) ∧
      (StaysInRange live (.insertAt id object) → Represents (insertImplAt t id object).1
        (next live (.insertAt id object) (.done (insertImplAt t id object).2))) := by
  have hrange := p.range_le_capacity
  have hcap : p.capacity = p.chunkSize * p.chunkCount := rfl
  have hpage : p.chunkCount ≤ p.rawId id / p.chunkSize ↔ p.capacity ≤ p.rawId id := by
    rw [Nat.le_div_iff_mul_le p.chunkSize_pos, hcap, Nat.mul_comm]
  simp only [StaysInRange, Meets, insertImplAt, ← hcap]
  by_cases hout : p.capacity ≤ p.rawId id
  · rw [if_pos (hpage.mpr hout)]
    exact ⟨by simp [hout], fun _ => h⟩
  · have hsome := h.wellFormed.slot_isSome (Nat.lt_of_not_le hout)
    rw [if_neg fun hc => hout (hpage.mp hc)]
    by_cases ht : (t.chunk (p.rawId id / p.chunkSize)).mask.test (p.rawId id % p.chunkSize) = true
    · have hin : p.rawId id < p.maxId - p.minId := by
        by_contra hge
        rw [ht, h.slack _ (by omega)] at hsome
        cases hsome
      rw [if_pos ht]
      exact ⟨by simp [hin], fun _ => h⟩
    · have hnone : live id = none := by
        rw [h.live_eq]
        rw [Bool.not_eq_true] at ht
        simpa [ht] using hsome
      rw [if_neg ht, p.inRange_iff]
      refine ⟨by simp [hnone, hout], fun hin => ?_⟩
      have hs := h.store (by omega : p.rawId id < p.maxId - p.minId) object
      rw [p.idAt_rawId (Nat.lt_of_not_le hout)] at hs
      exact hs

-- Both loops come to the occupied slots.
theorem walk_eq : walk t = t.occupied.map fun offset =>
    (p.idAt offset, (t.chunk (offset / p.chunkSize)).get (offset % p.chunkSize)) := by
  rw [walk, Table.occupied, List.map_flatMap]
  apply List.flatMap_congr
  intro chunk _
  rw [List.map_map]
  apply List.map_congr_left
  intro index hi
  have hlt := ((Table.mem_visit_iff chunk index).mp hi).1
  simp only [Function.comp_apply, Table.offset_div _ hlt, Table.offset_mod _ hlt, slotId_eq]

-- What is left of the walk at a slot of a chunk.
def pairsFrom (t : Table p α) (chunk index : Nat) : List (p.Id × Option α) :=
  if chunk < p.chunkCount then
    ((t.chunk chunk).visit index).map (fun i => (p.slotId chunk i, (t.chunk chunk).get i)) ++
      (List.range' (chunk + 1) (p.chunkCount - (chunk + 1))).flatMap fun c =>
        ((t.chunk c).visit ((t.chunk c).mask.countrZero 0)).map fun i =>
          (p.slotId c i, (t.chunk c).get i)
  else []

theorem pairsFrom_findNext (chunk index : Nat) (hc : chunk < p.chunkCount) :
    pairsFrom t (findNext t chunk index).1 (findNext t chunk index).2 =
      pairsFrom t chunk ((t.chunk chunk).mask.countrZero index) := by
  fun_induction findNext t chunk index with
  | case1 chunk index _ next hn => rfl
  | case2 chunk index _ next hn ih =>
      have hvisit : (t.chunk chunk).visit next = [] := by
        rw [Chunk.visit, if_neg hn]
      rw [show pairsFrom t chunk next = _ from if_pos hc, hvisit, List.map_nil, List.nil_append]
      by_cases hnext : chunk + 1 < p.chunkCount
      · rw [ih hnext, pairsFrom, if_pos hnext,
          show p.chunkCount - (chunk + 1) = p.chunkCount - (chunk + 1 + 1) + 1 by omega,
          List.range'_succ, List.flatMap_cons]
      · rw [findNext, if_neg hnext, pairsFrom, if_neg hnext,
          show p.chunkCount - (chunk + 1) = 0 by omega, List.range'_zero, List.flatMap_nil]
  | case3 chunk index hnot => exact absurd hc hnot

theorem findNext_index_lt (chunk index : Nat)
    (h : (findNext t chunk index).1 < p.chunkCount) :
    (findNext t chunk index).2 < p.chunkSize := by
  fun_induction findNext t chunk index with
  | case1 chunk index hc next hn => exact hn
  | case2 chunk index hc next hn ih => exact ih h
  | case3 chunk index hnot => exact absurd h hnot

theorem iterateFrom_eq (pos : Nat × Nat) (hpos : pos.1 < p.chunkCount → pos.2 < p.chunkSize) :
    iterateFrom t pos = pairsFrom t pos.1 pos.2 := by
  fun_induction iterateFrom t pos with
  | case1 pos hlt ih =>
      have hvisit : (t.chunk pos.1).visit pos.2 =
          pos.2 :: (t.chunk pos.1).visit ((t.chunk pos.1).mask.countrZero (pos.2 + 1)) := by
        rw [Chunk.visit, if_pos (hpos hlt)]
      rw [ih, pairsFrom_findNext _ _ hlt, pairsFrom, if_pos hlt, pairsFrom, if_pos hlt, hvisit]
      · rfl
      · exact findNext_index_lt _ _
  | case2 pos hnot => rw [pairsFrom, if_neg hnot]

theorem iterate_eq_walk : iterate t = walk t := by
  have hcount : 0 < p.chunkCount := by
    have hcap := p.range_le_capacity
    have hmin := p.minId_lt
    apply Nat.pos_of_ne_zero
    intro hzero
    rw [Params.capacity, hzero, Nat.mul_zero] at hcap
    omega
  rw [iterate, iterateFrom_eq _ (findNext_index_lt 0 0), pairsFrom_findNext 0 0 hcount, pairsFrom,
    if_pos hcount, walk, List.range_eq_range', show p.chunkCount = p.chunkCount - 1 + 1 by omega,
    List.range'_succ, List.flatMap_cons]
  rfl

theorem Represents.visits (h : Represents t live) : Visits live (walk t) := by
  have hslot {offset : Nat} (ho : offset ∈ t.occupied) :
      (t.chunk (offset / p.chunkSize)).get (offset % p.chunkSize) = live (p.idAt offset) ∧
        (live (p.idAt offset)).isSome = true := by
    obtain ⟨hlt, ht⟩ := (Table.mem_occupied_iff offset).mp ho
    rw [h.live_idAt hlt, h.wellFormed.slot_isSome hlt, Table.slot, if_pos ⟨hlt, ht⟩]
    exact ⟨rfl, ht⟩
  rw [walk_eq]
  constructor
  · rw [List.map_map]
    apply List.Nodup.map_on _ Table.occupied_nodup
    intro i hi j hj he
    rw [← p.rawId_idAt ((Table.mem_occupied_iff i).mp hi).1,
      ← p.rawId_idAt ((Table.mem_occupied_iff j).mp hj).1]
    exact congrArg p.rawId he
  · intro id object
    rw [List.mem_map]
    constructor
    · rintro ⟨offset, ho, he⟩
      obtain ⟨rfl, rfl⟩ := Prod.mk.inj he
      obtain ⟨hget, hsome⟩ := hslot ho
      obtain ⟨x, hx⟩ := Option.isSome_iff_exists.mp hsome
      exact ⟨x, hget.trans hx, hx⟩
    · rintro ⟨x, rfl, hx⟩
      have hcap : p.rawId id < p.capacity := by
        by_contra hge
        rw [h.live_eq, Table.slot_of_ge (by omega)] at hx
        cases hx
      have ho : p.rawId id ∈ t.occupied := by
        rw [Table.mem_occupied_iff, ← h.wellFormed.slot_isSome hcap, ← h.live_eq, hx]
        exact ⟨hcap, rfl⟩
      refine ⟨p.rawId id, ho, ?_⟩
      rw [(hslot ho).1, p.idAt_rawId hcap, hx]

-- One call answers as the map of live objects does exactly when it stays in the range.
theorem Represents.step (h : Represents t live) (call : Call p α) :
    (StaysInRange live call ↔ Meets live call (RcIdMap.step t call).2) ∧
      (StaysInRange live call → Represents (RcIdMap.step t call).1
        (next live call (RcIdMap.step t call).2)) := by
  cases call with
  | insert object => exact h.insert_spec object
  | insertAt id object => exact h.insertAt_spec id object
  | get id => exact ⟨iff_of_true trivial (h.get_eq id), fun _ => h⟩
  | close id =>
      obtain ⟨hok, hrep⟩ := h.close_spec id
      refine ⟨iff_of_true trivial hok, fun _ => ?_⟩
      simp only [RcIdMap.step] at *
      cases hc : (close t id).2 with
      | true => simpa [hc, next] using hrep
      | false => simpa [hc, next] using hrep
  | destroy id =>
      obtain ⟨hok, hrep⟩ := h.close_spec id
      refine ⟨iff_of_true trivial hok, fun _ => ?_⟩
      simp only [RcIdMap.step] at *
      cases hc : (close t id).2 with
      | true => simpa [hc, next] using hrep
      | false => simpa [hc, next] using hrep
  | walk => exact ⟨iff_of_true trivial h.visits, fun _ => h⟩
  | iterate =>
      refine ⟨iff_of_true trivial ?_, fun _ => h⟩
      show Visits live (iterate t)
      rw [iterate_eq_walk]
      exact h.visits

-- Along every run the answers are those of a map from ids of the range to live objects exactly
-- when no call of the run reaches the slots behind the range.
theorem run_meets_iff (calls : List (Call p α)) :
    Along RcIdMap.step next (fun _ live call _ => StaysInRange live call)
        (Table.empty : Table p α) (fun _ => none) calls ↔
      Along RcIdMap.step next (fun _ live call result => Meets live call result)
        (Table.empty : Table p α) (fun _ => none) calls :=
  along_iff_of_invariant Represents (fun _ _ call h => h.step call) empty_represents calls

-- `RcIdMap<T, int, 100, 0>` has a second chunk of which 36 ids are used.
def hundredIds : Params where
  idType := ⟨32, true⟩
  maxId := 100
  minId := 0
  minId_lt := by decide
  size_lt := by decide
  width_pos := by decide
  width_le := by decide
  fits := by decide

-- An object is put at id 100, which `get` does not look at.
theorem insertAt_maxId_succeeds :
    ¬Along RcIdMap.step next (fun _ live call result => Meets live call result)
      (Table.empty : Table hundredIds Unit) (fun _ => none)
      [.insertAt (hundredIds.idType.ofSize 100) ()] := by
  have hok : (insertImplAt (Table.empty : Table hundredIds Unit)
      (hundredIds.idType.ofSize 100) ()).2 = true := by decide +kernel
  have hout : ¬hundredIds.InRange (hundredIds.idType.ofSize 100) := by
    rw [Params.inRange_iff]
    decide
  rintro ⟨hmeets, -⟩
  exact hout (hmeets hok).1

end Rpcsx.IdMap.RcIdMap
