import Rpcsx.Data.Interleaving
import Rpcsx.Idm

namespace Rpcsx.Idm

-- The id without its counter.
theorem and_not_mask {id : Nat} (hid : id < 2 ^ 32) :
    id &&& (2 ^ 32 - 1 - invlMask invlRange) = id / 2 ^ 8 * 2 ^ 8 := by
  apply Nat.eq_of_testBit_eq
  intro i
  have hmask : 2 ^ 32 - 1 - invlMask invlRange = (2 ^ 24 - 1) * 2 ^ 8 := by decide
  rw [hmask, Nat.testBit_and, Nat.testBit_mul_two_pow, Nat.testBit_mul_two_pow,
    Nat.testBit_two_pow_sub_one, Nat.testBit_div_two_pow]
  by_cases hlow : 8 ≤ i
  · by_cases hhigh : i - 8 < 24
    · simp [hlow, hhigh]
    · have hzero : id.testBit i = false := by
        apply Nat.testBit_lt_two_pow
        exact lt_of_lt_of_le hid (Nat.pow_le_pow_right (by decide) (by omega))
      simp [hlow, hzero]
  · simp [hlow]

section Index

variable {τ : Type} (c : Container τ)

theorem Container.slot_lt (ty : τ) {i : Nat} (hi : i < c.count) :
    c.base ty + c.step * i + c.step ≤ 2 ^ 32 := by
  have hle : c.step * (i + 1) ≤ c.step * c.count := Nat.mul_le_mul_left _ hi
  have hrange := c.range ty
  rw [Nat.mul_add] at hle
  omega

theorem Container.step_le : 2 ^ 8 ≤ c.step := Nat.le_of_dvd c.step_pos c.step_dvd

theorem Container.slot_dvd (ty : τ) (i : Nat) : 2 ^ 8 ∣ c.base ty + c.step * i :=
  Nat.dvd_add (c.base_dvd ty) (Dvd.dvd.mul_right c.step_dvd i)

theorem getIndex_eq {ty : τ} {id i : Nat} (hi : i < c.count)
    (hid : id / 2 ^ 8 * 2 ^ 8 = c.base ty + c.step * i) :
    getIndex id (c.base ty) c.step c.count invlRange = i := by
  have hlt := c.slot_lt ty hi
  have hstep := c.step_le
  have hid' : id < 2 ^ 32 := by omega
  have hdiff : (id / 2 ^ 8 * 2 ^ 8 + (2 ^ 32 - c.base ty)) % 2 ^ 32 = c.step * i := by
    rw [hid]
    omega
  unfold getIndex
  simp only [and_not_mask hid', hdiff, Nat.mul_mod_right, ne_eq, not_true_eq_false, if_false]
  exact Nat.mul_div_cancel_left i c.step_pos

theorem slot_of_getIndex_lt {ty : τ} {id : Nat} (hid : id < 2 ^ 32)
    (hi : getIndex id (c.base ty) c.step c.count invlRange < c.count) :
    id / 2 ^ 8 * 2 ^ 8 =
      c.base ty + c.step * getIndex id (c.base ty) c.step c.count invlRange := by
  have hlt := c.slot_lt ty hi
  unfold getIndex at hi hlt ⊢
  simp only [and_not_mask hid] at hi hlt ⊢
  split at hi
  · omega
  · rename_i hmod
    rw [if_neg hmod] at hlt ⊢
    have hdiv := Nat.div_add_mod ((id / 2 ^ 8 * 2 ^ 8 + (2 ^ 32 - c.base ty)) % 2 ^ 32) c.step
    have hstep := c.step_pos
    have hbase := c.range ty
    omega

theorem Container.slot_inj {ty ty' : τ} {i j : Nat} (hi : i < c.count) (hj : j < c.count)
    (h : c.base ty + c.step * i = c.base ty' + c.step * j) : ty = ty' ∧ i = j := by
  have hty := c.apart ty ty' i j hi hj h
  subst hty
  exact ⟨rfl, Nat.eq_of_mul_eq_mul_left c.step_pos (Nat.add_left_cancel h)⟩

end Index

section Consistent

variable {τ α : Type}

-- A slot: its key, its object and the ids it has had.
structure Slot (c : Container τ) (i : Nat) (key : Key τ) (data : Option α) (issued : List Nat) :
    Prop where
  free : key.type = none ↔ data = none
  value : ∀ ty, key.type = some ty → key.value / 2 ^ 8 * 2 ^ 8 = c.base ty + c.step * i
  issued : key.type ≠ none → ∃ rest, issued = key.value :: rest

structure Consistent (c : Container τ) (s : State τ α) : Prop where
  highest_le : s.highestIndex ≤ c.count
  fresh : ∀ i, s.highestIndex ≤ i → s.keys i = Key.none ∧ s.data i = none ∧ s.issued i = []
  slots : ∀ i, Slot c i (s.keys i) (s.data i) (s.issued i)
  objects : ∀ id ty object, s.objects id = some (ty, object) ↔
    ∃ i, s.keys i = ⟨id, some ty⟩ ∧ s.data i = some object

variable {c : Container τ} {s : State τ α}

theorem Consistent.lt_count (h : Consistent c s) {i : Nat} {ty : τ}
    (hty : (s.keys i).type = some ty) : i < c.count := by
  by_contra hge
  have hkey := (h.fresh i (le_trans h.highest_le (not_lt.mp hge))).1
  rw [hkey] at hty
  cases hty

-- The ids of two objects differ.
theorem Consistent.value_inj (h : Consistent c s) {i j : Nat} {ty ty' : τ}
    (hi : (s.keys i).type = some ty) (hj : (s.keys j).type = some ty')
    (hvalue : (s.keys i).value = (s.keys j).value) : i = j := by
  apply (c.slot_inj (h.lt_count hi) (h.lt_count hj) _).2
  · exact ty
  · exact ty'
  · rw [← (h.slots i).value ty hi, ← (h.slots j).value ty' hj, hvalue]

theorem or_counter {next value : Nat} (hdvd : 2 ^ 8 ∣ next) :
    next ||| ((value + (1 <<< invlRange.1)) % 2 ^ 32 &&& invlMask invlRange) =
      next + (value + 1) % 2 ^ 8 := by
  have hmask : invlMask invlRange = 2 ^ 8 - 1 := by decide
  have hone : 1 <<< invlRange.1 = 1 := rfl
  obtain ⟨high, rfl⟩ := hdvd
  rw [hmask, hone, Nat.and_two_pow_sub_one_eq_mod, Nat.mod_mod_of_dvd _ (by decide),
    ← Nat.two_pow_add_eq_or_of_lt (Nat.mod_lt _ (by decide))]

-- What allocate_id does where it finds a slot: the slot is free, and the id is one of the slot with
-- the next value of the counter, unless the slot is fresh or the id fixed.
theorem place_spec (h : Consistent c s) {ty : τ} {dst highestIndex index id : Nat}
    (hdst : dst < 2 ^ 32) (hplace : place c s ty dst = some (highestIndex, some (index, id))) :
    index < c.count ∧ index < highestIndex ∧ s.highestIndex ≤ highestIndex ∧
      highestIndex ≤ c.count ∧ (s.keys index).type = none ∧
      id / 2 ^ 8 * 2 ^ 8 = c.base ty + c.step * index ∧
      (dst = invalid → s.issued index ≠ [] →
        id % 2 ^ 8 = ((s.keys index).value + 1) % 2 ^ 8) := by
  have hhighest := h.highest_le
  unfold place at hplace
  split at hplace
  · rename_i hfixed
    dsimp only at hplace
    split at hplace
    · rename_i hindex
      rw [Option.some.injEq, Prod.mk.injEq] at hplace
      obtain ⟨rfl, hslot⟩ := hplace
      split at hslot
      · rename_i htype
        cases hslot
        refine ⟨hindex, ?_, ?_, ?_, htype, slot_of_getIndex_lt c hdst hindex,
          fun he => absurd he hfixed⟩
        · exact lt_of_lt_of_le (Nat.lt_succ_self _) (le_max_right _ _)
        · exact le_max_left _ _
        · exact max_le hhighest hindex
      · cases hslot
    · cases hplace
  · split at hplace
    · rename_i hback
      cases hplace
      have hlt := c.slot_lt ty hback.2
      have hdvd := c.slot_dvd ty s.highestIndex
      have hstep := c.step_pos
      obtain ⟨hkey, _, hissued⟩ := h.fresh s.highestIndex le_rfl
      refine ⟨hback.2, Nat.lt_succ_self _, Nat.le_succ _, hback.2, by rw [hkey]; rfl, ?_,
        fun _ hne => absurd hissued hne⟩
      rw [Nat.mod_eq_of_lt (by omega)]
      exact Nat.div_mul_cancel hdvd
    · rw [Option.some.injEq, Prod.mk.injEq] at hplace
      obtain ⟨rfl, hslot⟩ := hplace
      rw [Option.map_eq_some_iff] at hslot
      obtain ⟨i, hfind, heq⟩ := hslot
      cases heq
      have hi : index < c.count := List.mem_range.mp (List.mem_of_find?_eq_some hfind)
      have htype : (s.keys index).type = none := by simpa using List.find?_some hfind
      have hlt := c.slot_lt ty hi
      have hdvd := c.slot_dvd ty index
      have hstep := c.step_pos
      rename_i hnotback
      have hcount : ¬c.usesLowestId → s.highestIndex = c.count :=
        fun hlowest => le_antisymm hhighest (not_lt.mp fun hlt => hnotback ⟨hlowest, hlt⟩)
      have hhigh : (if c.usesLowestId then c.count else s.highestIndex) = c.count := by
        split
        · rfl
        · rename_i hlowest
          exact hcount hlowest
      rw [hhigh, Nat.mod_eq_of_lt (by omega), or_counter hdvd]
      refine ⟨hi, hi, hhighest, le_rfl, htype, ?_, fun _ _ => ?_⟩
      · omega
      · omega

theorem place_none (h : Consistent c s) {ty : τ} {dst highestIndex : Nat}
    (hplace : place c s ty dst = some (highestIndex, none)) :
    s.highestIndex ≤ highestIndex ∧ highestIndex ≤ c.count := by
  have hhighest := h.highest_le
  unfold place at hplace
  split at hplace
  · dsimp only at hplace
    split at hplace
    · rename_i hindex
      rw [Option.some.injEq, Prod.mk.injEq] at hplace
      obtain ⟨rfl, _⟩ := hplace
      exact ⟨le_max_left _ _, max_le hhighest hindex⟩
    · cases hplace
  · split at hplace
    · cases hplace
    · rw [Option.some.injEq, Prod.mk.injEq] at hplace
      obtain ⟨rfl, _⟩ := hplace
      split
      · exact ⟨hhighest, le_rfl⟩
      · exact ⟨le_rfl, hhighest⟩

-- The new id is not the id of an object.
theorem Consistent.objects_eq_none (h : Consistent c s) {ty : τ} {index id : Nat}
    (hindex : index < c.count) (hfree : (s.keys index).type = none)
    (hid : id / 2 ^ 8 * 2 ^ 8 = c.base ty + c.step * index) : s.objects id = none := by
  cases hobject : s.objects id with
  | none => rfl
  | some entry =>
      obtain ⟨ty', object⟩ := entry
      obtain ⟨i, hkey, _⟩ := (h.objects id ty' object).mp hobject
      have htype : (s.keys i).type = some ty' := by rw [hkey]
      have hslot := (h.slots i).value ty' htype
      rw [hkey] at hslot
      have heq := (c.slot_inj (h.lt_count htype) hindex (hslot.symm.trans hid)).2
      rw [← heq, htype] at hfree
      cases hfree

theorem Consistent.raise (h : Consistent c s) {highestIndex : Nat}
    (hle : s.highestIndex ≤ highestIndex) (hcount : highestIndex ≤ c.count) :
    Consistent c { s with highestIndex := highestIndex } where
  highest_le := hcount
  fresh i hi := h.fresh i (le_trans hle hi)
  slots := h.slots
  objects := h.objects

-- A step that writes one slot.
theorem Consistent.write (h : Consistent c s) {index highestIndex : Nat} (key : Key τ)
    (data : Option α) (issued : List Nat) (objects : Nat → Option (τ × α))
    (hindex : index < highestIndex) (hle : s.highestIndex ≤ highestIndex)
    (hcount : highestIndex ≤ c.count) (hslot : Slot c index key data issued)
    (hobjects : ∀ id ty object, objects id = some (ty, object) ↔
      (key = ⟨id, some ty⟩ ∧ data = some object) ∨
        ∃ i, i ≠ index ∧ s.keys i = ⟨id, some ty⟩ ∧ s.data i = some object) :
    Consistent c {
      keys := Function.update s.keys index key
      data := Function.update s.data index data
      highestIndex := highestIndex
      objects := objects
      issued := Function.update s.issued index issued } where
  highest_le := hcount
  fresh i hi := by
    have hne : i ≠ index := by
      rintro rfl
      exact absurd hindex (not_lt.mpr hi)
    dsimp only
    rw [Function.update_of_ne hne, Function.update_of_ne hne, Function.update_of_ne hne]
    exact h.fresh i (le_trans hle hi)
  slots i := by
    dsimp only
    by_cases he : i = index
    · subst he
      rw [Function.update_self, Function.update_self, Function.update_self]
      exact hslot
    · rw [Function.update_of_ne he, Function.update_of_ne he, Function.update_of_ne he]
      exact h.slots i
  objects id ty object := by
    dsimp only
    rw [hobjects]
    constructor
    · rintro (hnew | ⟨i, hne, hold⟩)
      · refine ⟨index, ?_⟩
        rw [Function.update_self, Function.update_self]
        exact hnew
      · refine ⟨i, ?_⟩
        rw [Function.update_of_ne hne, Function.update_of_ne hne]
        exact hold
    · rintro ⟨i, hentry⟩
      by_cases he : i = index
      · rw [he, Function.update_self, Function.update_self] at hentry
        exact Or.inl hentry
      · rw [Function.update_of_ne he, Function.update_of_ne he] at hentry
        exact Or.inr ⟨i, he, hentry⟩

-- What a slot has beside the others in the map of the objects.
theorem Consistent.objects_of_free (h : Consistent c s) {index : Nat}
    (hfree : (s.keys index).type = none) (id : Nat) (ty : τ) (object : α) :
    s.objects id = some (ty, object) ↔
      ∃ i, i ≠ index ∧ s.keys i = ⟨id, some ty⟩ ∧ s.data i = some object := by
  rw [h.objects]
  constructor
  · rintro ⟨i, hkey, hdata⟩
    refine ⟨i, ?_, hkey, hdata⟩
    rintro rfl
    rw [hkey] at hfree
    cases hfree
  · rintro ⟨i, _, hentry⟩
    exact ⟨i, hentry⟩

theorem Consistent.create (h : Consistent c s) {ty : τ} {dst : Nat} {object : Option α}
    {s' : State τ α} (hdst : dst < 2 ^ 32) (hcreate : createId c s ty dst object = some s') :
    Consistent c s' := by
  unfold createId at hcreate
  split at hcreate
  · cases hcreate
  · rename_i highestIndex hplace
    cases hcreate
    obtain ⟨hle, hcount⟩ := place_none h hplace
    exact h.raise hle hcount
  · rename_i highestIndex index id hplace
    obtain ⟨hindex, hlt, hle, hcount, hfree, hid, _⟩ := place_spec h hdst hplace
    have hdata : s.data index = none := (h.slots index).free.mp hfree
    cases object with
    | some object =>
        cases hcreate
        apply h.write _ _ _ _ hlt hle hcount
        · refine ⟨⟨nofun, nofun⟩, ?_, fun _ => ⟨_, rfl⟩⟩
          intro ty' hty'
          cases hty'
          exact hid
        · intro id' ty' object'
          have hnew := h.objects_eq_none hindex hfree hid
          by_cases he : id' = id
          · subst he
            rw [Function.update_self, ← h.objects_of_free hfree, hnew]
            constructor
            · intro heq
              cases heq
              exact Or.inl ⟨rfl, rfl⟩
            · rintro (⟨hkey, hobject⟩ | hnone)
              · cases hkey
                cases hobject
                rfl
              · cases hnone
          · rw [Function.update_of_ne he, h.objects_of_free hfree]
            constructor
            · exact Or.inr
            · rintro (⟨hkey, _⟩ | hold)
              · cases hkey
                exact absurd rfl he
              · exact hold
    | none =>
        cases hcreate
        have hwrite := h.write Key.none none (s.issued index) s.objects hlt hle hcount
          ⟨⟨fun _ => rfl, fun _ => rfl⟩, nofun, fun hne => absurd rfl hne⟩ (by
            intro id' ty' object'
            rw [h.objects_of_free hfree]
            constructor
            · exact Or.inr
            · rintro (⟨hkey, _⟩ | hold)
              · cases hkey
              · exact hold)
        rw [Function.update_eq_self, ← hdata, Function.update_eq_self] at hwrite
        exact hwrite

end Consistent

section Lookup

variable {τ α : Type} [DecidableEq τ] {c : Container τ} {s : State τ α}

-- find_id finds the object created under the id, by the type it was created with.
theorem Consistent.findId_eq_some (h : Consistent c s) {ty : τ} {id : Nat} {object : α} :
    findId c s ty id = some object ↔ s.objects id = some (ty, object) := by
  rw [h.objects]
  unfold findId findIndex
  constructor
  · intro hfind
    split at hfind
    · cases hfind
    · split at hfind
      · rename_i htype
        split at hfind
        · rename_i hvalue
          refine ⟨_, ?_, hfind⟩
          have hlive : (s.keys (getIndex id (c.base ty) c.step c.count invlRange)).type ≠ none := by
            rw [Ne, (h.slots _).free, hfind]
            nofun
          obtain ⟨ty', hty'⟩ := Option.ne_none_iff_exists'.mp hlive
          have hsame : ty' = ty := by
            rcases htype with hsame | htype
            · exact c.sameType_eq hsame ty' ty
            · rw [hty', Option.some.injEq] at htype
              exact htype
          exact congrArg₂ Key.mk hvalue (hty'.trans (congrArg some hsame))
        · cases hfind
      · cases hfind
  · rintro ⟨i, hkey, hdata⟩
    have htype : (s.keys i).type = some ty := by rw [hkey]
    have hslot := (h.slots i).value ty htype
    rw [hkey] at hslot
    have hi := h.lt_count htype
    have hhighest : i < s.highestIndex := by
      by_contra hge
      rw [(h.fresh i (not_lt.mp hge)).1] at hkey
      cases hkey
    rw [getIndex_eq c hi hslot, if_neg (not_le.mpr hhighest), if_pos (Or.inr htype), hkey,
      if_pos rfl]
    exact hdata

-- The slot of an object that is found.
theorem Consistent.slot_of_findId (h : Consistent c s) {ty : τ} {id : Nat} {object : α}
    (hfind : findId c s ty id = some object) :
    s.keys (getIndex id (c.base ty) c.step c.count invlRange) = ⟨id, some ty⟩ ∧
      s.data (getIndex id (c.base ty) c.step c.count invlRange) = some object := by
  obtain ⟨i, hkey, hdata⟩ := (h.objects id ty object).mp (h.findId_eq_some.mp hfind)
  have htype : (s.keys i).type = some ty := by rw [hkey]
  have hslot := (h.slots i).value ty htype
  rw [hkey] at hslot
  rw [getIndex_eq c (h.lt_count htype) hslot]
  exact ⟨hkey, hdata⟩

theorem Consistent.remove (h : Consistent c s) (ty : τ) (id : Nat) (accepts : α → Bool) :
    Consistent c (removeId c s ty id accepts) := by
  unfold removeId
  dsimp only
  cases hfind : findId c s ty id with
  | none => exact h
  | some object =>
      dsimp only
      split
      · obtain ⟨hkey, hdata⟩ := h.slot_of_findId hfind
        generalize getIndex id (c.base ty) c.step c.count invlRange = index at hkey hdata
        have htype : (s.keys index).type = some ty := by rw [hkey]
        have hhighest : index < s.highestIndex := by
          by_contra hge
          rw [(h.fresh index (not_lt.mp hge)).1] at hkey
          cases hkey
        have hwrite := h.write ⟨(s.keys index).value, none⟩ none (s.issued index)
          (Function.update s.objects id none) hhighest le_rfl h.highest_le
          ⟨⟨fun _ => rfl, fun _ => rfl⟩, nofun, fun hne => absurd rfl hne⟩ (by
            intro id' ty' object'
            by_cases he : id' = id
            · subst he
              rw [Function.update_self]
              constructor
              · nofun
              · rintro (⟨hnew, _⟩ | ⟨i, hne, hkey', _⟩)
                · cases hnew
                · have htype' : (s.keys i).type = some ty' := by rw [hkey']
                  exact absurd (h.value_inj htype' htype (by rw [hkey, hkey'])) hne
            · rw [Function.update_of_ne he, h.objects]
              constructor
              · rintro ⟨i, hkey', hdata'⟩
                refine Or.inr ⟨i, ?_, hkey', hdata'⟩
                rintro rfl
                rw [hkey] at hkey'
                cases hkey'
                exact he rfl
              · rintro (⟨hnew, _⟩ | ⟨i, _, hentry⟩)
                · cases hnew
                · exact ⟨i, hentry⟩)
        rw [Function.update_eq_self] at hwrite
        exact hwrite
      · exact h

omit [DecidableEq τ] in
theorem Consistent.start : Consistent c (State.start : State τ α) where
  highest_le := Nat.zero_le _
  fresh _ _ := ⟨rfl, rfl, rfl⟩
  slots _ := ⟨⟨fun _ => rfl, fun _ => rfl⟩, nofun, fun hne => absurd rfl hne⟩
  objects _ _ _ := by
    constructor
    · nofun
    · rintro ⟨_, hkey, _⟩
      cases hkey

theorem Consistent.step (h : Consistent c s) {op : Op τ α} {s' : State τ α}
    (hstep : step c s op = some s') : Consistent c s' := by
  cases op with
  | create ty dst object => exact h.create dst.toNat_lt hstep
  | remove ty id accepts =>
      cases hstep
      exact h.remove ty id.toNat accepts

theorem consistent_of_reachable (h : Relation.ReflTransGen (Step c) State.start s) :
    Consistent c s := by
  apply Data.Interleaving.invariant_of_reachable Consistent.start _ h
  rintro s s' hs ⟨op, hstep⟩
  exact hs.step hstep

end Lookup

end Rpcsx.Idm
