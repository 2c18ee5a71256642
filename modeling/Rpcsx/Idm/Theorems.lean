import Rpcsx.Data.Ticks
import Rpcsx.Idm.Invariant

namespace Rpcsx.Idm

open Rpcsx.Data

variable {τ α : Type} [DecidableEq τ] {c : Container τ} {s s' : State τ α}

-- The counter of a slot: that of its key is the one of its last id.
structure Counted (s : State τ α) : Prop where
  ticks : ∀ i, Ticks (2 ^ 8) (s.issued i)
  head : ∀ i id rest, s.issued i = id :: rest → (s.keys i).value % 2 ^ 8 = id % 2 ^ 8

omit [DecidableEq τ] in
theorem Counted.create (hcounted : Counted s) (hs : Consistent c s) {ty : τ} {dst : UInt32}
    {object : Option α} (hcontinues : Continues c s (.create ty dst object))
    (hcreate : createId c s ty dst.toNat object = some s') : Counted s' := by
  unfold createId at hcreate
  split at hcreate
  · cases hcreate
  · cases hcreate
    exact ⟨hcounted.ticks, hcounted.head⟩
  · rename_i highestIndex index id hplace
    have hnext := hcontinues highestIndex index id hplace
    obtain ⟨_, _, _, _, _, _, hauto⟩ := place_spec hs dst.toNat_lt hplace
    cases object with
    | some object =>
        cases hcreate
        rw [if_neg nofun] at hnext
        have hadvance : s.issued index ≠ [] →
            id % 2 ^ 8 = ((s.keys index).value + 1) % 2 ^ 8 := by
          intro hused
          by_cases hfixed : dst.toNat = invalid
          · exact hauto hfixed hused
          · exact hnext hfixed hused
        constructor
        · intro i
          by_cases he : i = index
          · subst he
            dsimp only
            rw [Function.update_self]
            cases hissued : s.issued i with
            | nil => exact List.isChain_singleton _
            | cons last rest =>
                refine List.isChain_cons_cons.mpr ⟨?_, hissued ▸ hcounted.ticks i⟩
                have hhead := hcounted.head i last rest hissued
                have := hadvance (by rw [hissued]; nofun)
                omega
          · dsimp only
            rw [Function.update_of_ne he]
            exact hcounted.ticks i
        · intro i id' rest hissued
          dsimp only at hissued ⊢
          by_cases he : i = index
          · subst he
            rw [Function.update_self] at hissued ⊢
            cases hissued
            rfl
          · rw [Function.update_of_ne he] at hissued ⊢
            exact hcounted.head i id' rest hissued
    | none =>
        cases hcreate
        rw [if_pos rfl] at hnext
        refine ⟨hcounted.ticks, ?_⟩
        intro i id' rest hissued
        dsimp only
        by_cases he : i = index
        · subst he
          rw [Function.update_self, ← hcounted.head i id' rest hissued, hnext]
          rfl
        · rw [Function.update_of_ne he]
          exact hcounted.head i id' rest hissued

theorem removeId_issued (ty : τ) (id : Nat) (accepts : α → Bool) :
    (removeId c s ty id accepts).issued = s.issued := by
  unfold removeId
  dsimp only
  split
  · rfl
  · split
    · rfl
    · rfl

theorem removeId_value (ty : τ) (id : Nat) (accepts : α → Bool) (i : Nat) :
    ((removeId c s ty id accepts).keys i).value = (s.keys i).value := by
  unfold removeId
  dsimp only
  split
  · rfl
  · split
    · dsimp only
      by_cases he : i = getIndex id (c.base ty) c.step c.count invlRange
      · rw [he, Function.update_self]
      · rw [Function.update_of_ne he]
    · rfl

theorem Counted.step (hcounted : Counted s) (hs : Consistent c s) {op : Op τ α}
    (hcontinues : Continues c s op) (hstep : step c s op = some s') : Counted s' := by
  cases op with
  | create ty dst object => exact hcounted.create hs hcontinues hstep
  | remove ty id accepts =>
      cases hstep
      constructor
      · rw [removeId_issued]
        exact hcounted.ticks
      · intro i id' rest
        rw [removeId_issued, removeId_value]
        exact hcounted.head i id' rest

theorem step_issued {op : Op τ α} (hstep : step c s op = some s') (i : Nat) :
    ∃ new, s'.issued i = new ++ s.issued i := by
  cases op with
  | create ty dst object =>
      change createId c s ty dst.toNat object = some s' at hstep
      unfold createId at hstep
      split at hstep
      · cases hstep
      · cases hstep
        exact ⟨[], rfl⟩
      · rename_i highestIndex index id hplace
        cases object with
        | some object =>
            cases hstep
            by_cases he : i = index
            · subst he
              exact ⟨[id], Function.update_self ..⟩
            · exact ⟨[], Function.update_of_ne he ..⟩
        | none =>
            cases hstep
            exact ⟨[], rfl⟩
  | remove ty id accepts =>
      cases hstep
      exact ⟨[], by rw [removeId_issued]; rfl⟩

-- The steps that continue the counters.
def CountingStep (c : Container τ) (s s' : State τ α) : Prop :=
  ∃ op, Continues c s op ∧ step c s op = some s'

theorem issued_of_run (h : Relation.ReflTransGen (Step c) s s') (i : Nat) :
    ∃ new, s'.issued i = new ++ s.issued i := by
  induction h with
  | refl => exact ⟨[], rfl⟩
  | tail _ hlast ih =>
      obtain ⟨new, hnew⟩ := ih
      obtain ⟨op, hstep⟩ := hlast
      obtain ⟨last, hlast⟩ := step_issued hstep i
      exact ⟨last ++ new, by rw [hlast, hnew, List.append_assoc]⟩

theorem CountingStep.step (h : CountingStep c s s') : Step c s s' := by
  obtain ⟨op, _, hstep⟩ := h
  exact ⟨op, hstep⟩

theorem counted_of_run (hs : Consistent c s) (hcounted : Counted s)
    (h : Relation.ReflTransGen (CountingStep c) s s') : Consistent c s' ∧ Counted s' := by
  induction h with
  | refl => exact ⟨hs, hcounted⟩
  | tail _ hlast ih =>
      obtain ⟨op, hcontinues, hstep⟩ := hlast
      exact ⟨ih.1.step hstep, ih.2.step ih.1 hcontinues hstep⟩

omit [DecidableEq τ] in
theorem Counted.start : Counted (State.start : State τ α) :=
  ⟨fun _ => List.isChain_nil, nofun⟩

-- The object of the slot is removed, and its id `x` is not used again along the run from there
-- before 255 others have been.
def NotReusedEarly (c : Container τ) (next : State τ α → State τ α → Prop) (s : State τ α) : Prop :=
  ∀ ty (id : UInt32) object accepts s', findId c s ty id.toNat = some object →
    accepts object = true →
    Relation.ReflTransGen next (removeId c s ty id.toNat accepts) s' →
    ∃ new, s'.issued (getIndex id.toNat (c.base ty) c.step c.count invlRange) =
        new ++ s.issued (getIndex id.toNat (c.base ty) c.step c.count invlRange) ∧
      ∀ a b, new = a ++ id.toNat :: b → 255 ≤ (b.toFinset.erase id.toNat).card

theorem notReusedEarly (h : Relation.ReflTransGen (CountingStep c) State.start s) :
    NotReusedEarly c (CountingStep c) s := by
  intro ty id object accepts s' hfind _ hrun
  obtain ⟨hs, hcounted⟩ := counted_of_run Consistent.start Counted.start h
  have hremove : CountingStep c s (removeId c s ty id.toNat accepts) :=
    ⟨.remove ty id accepts, trivial, rfl⟩
  obtain ⟨_, hcounted'⟩ := counted_of_run hs hcounted (hrun.head hremove)
  obtain ⟨hkey, _⟩ := hs.slot_of_findId hfind
  generalize getIndex id.toNat (c.base ty) c.step c.count invlRange = i at hkey ⊢
  obtain ⟨rest, hrest⟩ := (hs.slots i).issued (by rw [hkey]; nofun)
  rw [hkey] at hrest
  obtain ⟨new, hnew⟩ := issued_of_run
    (Relation.ReflTransGen.mono (fun _ _ h => CountingStep.step h) _ _ (hrun.head hremove)) i
  refine ⟨new, hnew, ?_⟩
  intro a b hsplit
  have hticks := hcounted'.ticks i
  rw [hnew, hsplit, hrest, List.append_assoc] at hticks
  exact Ticks.card_between (by decide) (List.IsChain.right_of_append hticks)

theorem ids_not_reused_early (h : Relation.ReflTransGen (Step c) State.start s) :
    (∀ i j, s.data i ≠ none → s.data j ≠ none → (s.keys i).value = (s.keys j).value → i = j) ∧
      (∀ ty id object, findId c s ty id = some object ↔ s.objects id = some (ty, object)) ∧
      (Relation.ReflTransGen (CountingStep c) State.start s →
        NotReusedEarly c (CountingStep c) s) := by
  have hs := consistent_of_reachable h
  refine ⟨?_, fun ty id object => hs.findId_eq_some, notReusedEarly⟩
  intro i j hi hj hvalue
  rw [Ne, ← (hs.slots i).free] at hi
  rw [Ne, ← (hs.slots j).free] at hj
  obtain ⟨ty, hty⟩ := Option.ne_none_iff_exists'.mp hi
  obtain ⟨ty', hty'⟩ := Option.ne_none_iff_exists'.mp hj
  exact hs.value_inj hty hty' hvalue

-- A group in the first slot.
theorem ids_not_reused_early_group : ∃ s : State Unit Unit,
    Relation.ReflTransGen (CountingStep lv2SpuGroup) State.start s ∧
      findId lv2SpuGroup s () 0x04000100 = some () ∧
      NotReusedEarly lv2SpuGroup (CountingStep lv2SpuGroup) s := by
  have hcontinues : Continues lv2SpuGroup (State.start : State Unit Unit)
      (.create () 0 (some ())) := by
    intro highestIndex index id _
    rw [if_neg nofun]
    intro hfixed
    exact absurd rfl hfixed
  have hcreate : CountingStep lv2SpuGroup (State.start : State Unit Unit)
      ((step lv2SpuGroup State.start (.create () 0 (some ()))).get rfl) :=
    ⟨.create () 0 (some ()), hcontinues, rfl⟩
  have hrun := Relation.ReflTransGen.refl.tail hcreate
  have hstep := Relation.ReflTransGen.refl.tail hcreate.step
  exact ⟨_, hrun, by decide, (ids_not_reused_early hstep).2.2 hrun⟩

section Lv2

-- Creations that fail move the end of the used slots.
theorem reachable_highest (n : Nat) (hn : n ≤ 8192) :
    Relation.ReflTransGen (Step lv2Obj) (State.start : State Lv2Type Unit)
      { State.start with highestIndex := n } := by
  induction n with
  | zero => exact .refl
  | succ n ih =>
      refine (ih (Nat.le_of_succ_le hn)).tail ⟨.create .mutex 0 none, ?_⟩
      have hplace : place lv2Obj { (State.start : State Lv2Type Unit) with highestIndex := n }
          .mutex (0 : UInt32).toNat = some (n + 1, some (n, (0x85000000 + 0x100 * n) % 2 ^ 32)) := by
        unfold place
        rw [if_neg (by decide), if_pos ⟨by decide, hn⟩]
        rfl
      change createId lv2Obj _ .mutex (0 : UInt32).toNat none = _
      unfold createId
      rw [hplace]
      dsimp only
      rw [show Key.none = (State.start : State Lv2Type Unit).keys n from rfl,
        Function.update_eq_self]

-- When all slots have been used, the first one is used again if it is free.
theorem create_first {s : State Lv2Type Unit} {value id : Nat} (hhighest : s.highestIndex = 8192)
    (hkey : s.keys 0 = ⟨value, none⟩) (hid : 0x85000000 + (value + 1) % 2 ^ 8 = id)
    (object : Option Unit) :
    createId lv2Obj s .mutex (0 : UInt32).toNat object =
      match object with
      | some object => some {
          keys := Function.update s.keys 0 ⟨id, some .mutex⟩
          data := Function.update s.data 0 (some object)
          highestIndex := 8192
          objects := Function.update s.objects id (some (.mutex, object))
          issued := Function.update s.issued 0 (id :: s.issued 0) }
      | none => some { s with keys := Function.update s.keys 0 Key.none, highestIndex := 8192 } := by
  have hfind : (List.range lv2Obj.count).find? (fun i => (s.keys i).type = none) = some 0 := by
    rw [List.find?_range_eq_some]
    exact ⟨by simp [hkey], List.mem_range.mpr (by decide), nofun⟩
  have hplace : place lv2Obj s .mutex (0 : UInt32).toNat =
      some (8192, some (0, id)) := by
    unfold place
    rw [if_neg (by decide), if_neg (by rw [hhighest]; decide), hfind, hhighest]
    dsimp only [Option.map_some]
    rw [or_counter (by decide), hkey, ← hid]
    rfl
  unfold createId
  rw [hplace]
  cases object <;> rfl

-- A mutex is created and destroyed, the next creation fails, and the one after it has the same id.
theorem reused_after_failure : ¬∀ s : State Lv2Type Unit,
    Relation.ReflTransGen (Step lv2Obj) State.start s → NotReusedEarly lv2Obj (Step lv2Obj) s := by
  intro hclaim
  obtain ⟨s₁, hs₁, hkey₁, hdata₁, hhighest₁, hissued₁⟩ : ∃ s₁ : State Lv2Type Unit,
      Relation.ReflTransGen (Step lv2Obj) State.start s₁ ∧
        s₁.keys 0 = ⟨0x85000001, some .mutex⟩ ∧ s₁.data 0 = some () ∧ s₁.highestIndex = 8192 ∧
        s₁.issued 0 = [0x85000001] := by
    have hcreate := create_first (s := { State.start with highestIndex := 8192 }) rfl
      (rfl : Key.none = ⟨0, none⟩) (by decide : _ = 0x85000001) (some ())
    refine ⟨_, (reachable_highest 8192 le_rfl).tail ⟨.create .mutex 0 (some ()), hcreate⟩, ?_, ?_,
      rfl, ?_⟩
    · rfl
    · rfl
    · rfl
  have hindex : getIndex (0x85000001 : UInt32).toNat (lv2Obj.base .mutex) lv2Obj.step lv2Obj.count
      invlRange = 0 := by decide
  have hfind : findId lv2Obj s₁ .mutex (0x85000001 : UInt32).toNat = some () := by
    unfold findId findIndex
    rw [hindex, hhighest₁, hkey₁, hdata₁]
    rfl
  obtain ⟨s₂, hs₂, hkey₂, hhighest₂, hissued₂⟩ : ∃ s₂ : State Lv2Type Unit,
      removeId lv2Obj s₁ .mutex (0x85000001 : UInt32).toNat (fun _ => true) = s₂ ∧
        s₂.keys 0 = ⟨0x85000001, none⟩ ∧ s₂.highestIndex = 8192 ∧
        s₂.issued 0 = [0x85000001] := by
    refine ⟨_, rfl, ?_, ?_, ?_⟩
    · unfold removeId
      rw [hfind, hindex]
      dsimp only
      rw [if_pos rfl]
      dsimp only
      rw [Function.update_self, hkey₁]
    · unfold removeId
      rw [hfind]
      exact hhighest₁
    · rw [removeId_issued, hissued₁]
  have hfailed := create_first hhighest₂ hkey₂ (by decide : _ = 0x85000002) none
  have hagain := create_first (s := { s₂ with
    keys := Function.update s₂.keys 0 Key.none, highestIndex := 8192 }) rfl
    (Function.update_self 0 (⟨0, none⟩ : Key Lv2Type) s₂.keys) (by decide : _ = 0x85000001) (some ())
  have hrun := (Relation.ReflTransGen.refl.tail
    (show Step lv2Obj s₂ _ from ⟨.create .mutex 0 none, hfailed⟩)).tail
    ⟨.create .mutex 0 (some ()), hagain⟩
  obtain ⟨new, hnew, hothers⟩ := hclaim s₁ hs₁ .mutex 0x85000001 () (fun _ => true) _ hfind rfl
    (hs₂ ▸ hrun)
  rw [hindex, hissued₁] at hnew
  dsimp only at hnew
  rw [Function.update_self, hs₂, hissued₂] at hnew
  have hsplit : new = [] ++ (0x85000001 : UInt32).toNat :: [] := by
    exact (List.append_cancel_right hnew).symm
  exact absurd (hothers [] [] hsplit) (by decide)

end Lv2

end Rpcsx.Idm
