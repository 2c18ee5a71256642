import Mathlib.Logic.Function.Basic
import Mathlib.Logic.Relation
import Mathlib.Data.List.Nodup
import Rpcsx.Data.Interleaving

namespace Rpcsx.SysVm

-- A sys_vm_t: the area it was made for (`addr >> 28`) and which of the objects it is.
structure Object where
  area : Nat
  serial : Nat
deriving DecidableEq, Repr

-- id_traits<sys_vm_t>::invalid.
def invalid : Nat := 0

structure State where
  -- sys_vm_t::g_ids
  gIds : Nat → Nat
  -- the objects of the IDM by id
  idm : Nat → Option Object
  -- the areas that sys_vm_memory_map has mapped; what others map only leaves it fewer areas
  mapped : Nat → Bool
  -- the areas of the calls of sys_vm_memory_map that have not made their object yet
  making : List Nat
  -- the shared references that running calls hold
  held : List Object
  next : Nat

def State.start : State where
  gIds _ := invalid
  idm _ := none
  mapped _ := false
  making := []
  held := []
  next := 0

def findId (s : State) (area : Nat) : Nat := s.gIds area

-- id_base, id_step and id_count.
def ids : List Nat := List.range' 1 16

-- Whether the object is registered under some id.
def State.registered (s : State) (object : Object) : Bool :=
  ids.any fun id => s.idm id = some object

-- The destructor.
def State.destroy (s : State) (object : Object) : State :=
  { s with gIds := Function.update s.gIds object.area invalid }

inductive Move where
  -- sys_vm_memory_map finds an area, and then makes its object
  | findMap (area : Nat)
  | make (area id : Nat)
  -- a call that works on the object takes a reference
  | get (area : Nat)
  -- sys_vm_unmap, up to the end of the section of the IDM mutex; it holds a reference then
  | withdraw (area : Nat)
  -- the end of a call that holds a reference
  | drop (object : Object)
deriving DecidableEq, Repr

def step (s : State) : Move → Option State
  | .findMap area =>
      if area < 16 ∧ ¬s.mapped area then
        some { s with
          mapped := Function.update s.mapped area true
          making := area :: s.making }
      else none
  | .make area id =>
      if area ∈ s.making ∧ id ∈ ids ∧ s.idm id = none then
        some { s with
          gIds := Function.update s.gIds area id
          idm := Function.update s.idm id (some ⟨area, s.next⟩)
          making := s.making.erase area
          next := s.next + 1 }
      else none
  | .get area =>
      match s.idm (findId s area) with
      | none => none
      | some object => some { s with held := object :: s.held }
  | .withdraw area =>
      match s.idm (findId s area) with
      | none => none
      | some object =>
          -- ensure(vm::unmap(addr).second)
          if s.mapped area then
            some { s with
              mapped := Function.update s.mapped area false
              idm := Function.update s.idm (findId s area) none
              held := object :: s.held }
          else none
  | .drop object =>
      if object ∈ s.held then
        let s' := { s with held := s.held.erase object }
        if object ∈ s'.held ∨ s'.registered object then some s' else some (s'.destroy object)
      else none

def Step (s s' : State) : Prop := ∃ move, step s move = some s'

-- An object is not made for an area while an earlier object of it waits for its destructor, and
-- sys_vm_unmap does not find an object of another area.
def Harmless (s : State) : Move → Prop
  | .make area _ => ∀ object ∈ s.held, object.area = area → s.registered object = true
  | .withdraw area => ∀ object, s.idm (findId s area) = some object → object.area = area
  | _ => True

def HarmlessStep (s s' : State) : Prop := ∃ move, Harmless s move ∧ step s move = some s'

end Rpcsx.SysVm

namespace Rpcsx.SysVm

open Rpcsx.Data

structure Inv (s : State) : Prop where
  id_mem : ∀ id object, s.idm id = some object → id ∈ ids
  -- an object is registered under one id, and is older than the next one
  serial_inj : ∀ id id' object, s.idm id = some object → s.idm id' = some object → id = id'
  serial_lt : ∀ id object, s.idm id = some object → object.serial < s.next
  held_lt : ∀ object ∈ s.held, object.serial < s.next
  mapped : ∀ id object, s.idm id = some object → s.mapped object.area = true
  making_mapped : ∀ area ∈ s.making, s.mapped area = true
  making_nodup : s.making.Nodup
  making_apart : ∀ id object, s.idm id = some object → object.area ∉ s.making
  -- the areas of the registered objects are found
  found : ∀ id object, s.idm id = some object → findId s object.area = id
  -- an object that waits for its destructor has its area for itself
  waiting : ∀ object ∈ s.held, (∀ id, s.idm id ≠ some object) →
    ∀ id other, s.idm id = some other → other.area ≠ object.area

theorem registered_iff {s : State} (h : Inv s) {object : Object} :
    s.registered object = true ↔ ∃ id, s.idm id = some object := by
  unfold State.registered
  simp only [List.any_eq_true, decide_eq_true_eq]
  constructor
  · rintro ⟨id, _, hid⟩
    exact ⟨id, hid⟩
  · rintro ⟨id, hid⟩
    exact ⟨id, h.id_mem id object hid, hid⟩

section Moves

variable {s s' : State}

theorem Inv.findMap (h : Inv s) {area : Nat} (hfree : s.mapped area = false) :
    Inv { s with mapped := Function.update s.mapped area true, making := area :: s.making } where
  id_mem := h.id_mem
  serial_inj := h.serial_inj
  serial_lt := h.serial_lt
  held_lt := h.held_lt
  mapped id object hid := by
    by_cases he : object.area = area
    · exact (congrArg _ he).trans (Function.update_self ..)
    · exact (Function.update_of_ne he ..).trans (h.mapped id object hid)
  making_mapped other hother := by
    by_cases he : other = area
    · exact (congrArg _ he).trans (Function.update_self ..)
    · exact (Function.update_of_ne he ..).trans
        (h.making_mapped other ((List.mem_cons.mp hother).resolve_left he))
  making_nodup := by
    refine List.nodup_cons.mpr ⟨?_, h.making_nodup⟩
    intro hmem
    rw [h.making_mapped area hmem] at hfree
    cases hfree
  making_apart id object hid := by
    intro hmem
    rcases List.mem_cons.mp hmem with he | hmem
    · have hmapped := h.mapped id object hid
      rw [he, hfree] at hmapped
      cases hmapped
    · exact h.making_apart id object hid hmem
  found := h.found
  waiting := h.waiting

theorem Inv.make (h : Inv s) {area id : Nat} (hmaking : area ∈ s.making) (hid : id ∈ ids)
    (hfree : s.idm id = none)
    (hharmless : ∀ object ∈ s.held, object.area = area → ∃ id, s.idm id = some object) :
    Inv { s with
      gIds := Function.update s.gIds area id
      idm := Function.update s.idm id (some ⟨area, s.next⟩)
      making := s.making.erase area
      next := s.next + 1 } := by
  -- what is registered afterwards
  have hidm : ∀ id' object, Function.update s.idm id (some ⟨area, s.next⟩) id' = some object →
      (id' = id ∧ object = ⟨area, s.next⟩) ∨ (id' ≠ id ∧ s.idm id' = some object) := by
    intro id' object hobject
    by_cases he : id' = id
    · rw [he, Function.update_self] at hobject
      exact Or.inl ⟨he, (Option.some.inj hobject).symm⟩
    · rw [Function.update_of_ne he] at hobject
      exact Or.inr ⟨he, hobject⟩
  constructor
  · intro id' object hobject
    rcases hidm id' object hobject with ⟨rfl, _⟩ | ⟨_, hold⟩
    · exact hid
    · exact h.id_mem id' object hold
  · intro id₁ id₂ object h₁ h₂
    rcases hidm id₁ object h₁ with ⟨rfl, rfl⟩ | ⟨_, hold₁⟩
    · rcases hidm id₂ _ h₂ with ⟨rfl, _⟩ | ⟨_, hold₂⟩
      · rfl
      · exact absurd (h.serial_lt id₂ _ hold₂) (Nat.lt_irrefl _)
    · rcases hidm id₂ object h₂ with ⟨_, rfl⟩ | ⟨_, hold₂⟩
      · exact absurd (h.serial_lt id₁ _ hold₁) (Nat.lt_irrefl _)
      · exact h.serial_inj id₁ id₂ object hold₁ hold₂
  · intro id' object hobject
    rcases hidm id' object hobject with ⟨_, rfl⟩ | ⟨_, hold⟩
    · exact Nat.lt_succ_self _
    · exact Nat.lt_succ_of_lt (h.serial_lt id' object hold)
  · intro object hobject
    exact Nat.lt_succ_of_lt (h.held_lt object hobject)
  · intro id' object hobject
    rcases hidm id' object hobject with ⟨_, rfl⟩ | ⟨_, hold⟩
    · exact h.making_mapped area hmaking
    · exact h.mapped id' object hold
  · intro other hother
    exact h.making_mapped other (List.mem_of_mem_erase hother)
  · exact h.making_nodup.erase area
  · intro id' object hobject
    rcases hidm id' object hobject with ⟨_, rfl⟩ | ⟨_, hold⟩
    · exact h.making_nodup.not_mem_erase
    · exact fun hmem => h.making_apart id' object hold (List.mem_of_mem_erase hmem)
  · intro id' object hobject
    change Function.update s.gIds area id object.area = id'
    rcases hidm id' object hobject with ⟨rfl, rfl⟩ | ⟨_, hold⟩
    · exact Function.update_self ..
    · have hne : object.area ≠ area := by
        rintro rfl
        exact h.making_apart id' object hold hmaking
      rw [Function.update_of_ne hne]
      exact h.found id' object hold
  · intro object hheld hunregistered id' other hother
    have hbefore : ∀ id', s.idm id' ≠ some object := by
      intro id' hold
      apply hunregistered id'
      have hne : id' ≠ id := by
        rintro rfl
        rw [hfree] at hold
        cases hold
      exact (Function.update_of_ne hne ..).trans hold
    rcases hidm id' other hother with ⟨_, rfl⟩ | ⟨_, hold⟩
    · intro he
      obtain ⟨id', hold⟩ := hharmless object hheld he.symm
      exact hbefore id' hold
    · exact h.waiting object hheld hbefore id' other hold

theorem Inv.get (h : Inv s) {area : Nat} {object : Object}
    (hobject : s.idm (findId s area) = some object) :
    Inv { s with held := object :: s.held } where
  id_mem := h.id_mem
  serial_inj := h.serial_inj
  serial_lt := h.serial_lt
  held_lt other hother := by
    rcases List.mem_cons.mp hother with rfl | hother
    · exact h.serial_lt _ _ hobject
    · exact h.held_lt other hother
  mapped := h.mapped
  making_mapped := h.making_mapped
  making_nodup := h.making_nodup
  making_apart := h.making_apart
  found := h.found
  waiting other hother hunregistered := by
    rcases List.mem_cons.mp hother with rfl | hother
    · exact absurd hobject (hunregistered _)
    · exact h.waiting other hother hunregistered

theorem Inv.withdraw (h : Inv s) {object : Object}
    (hobject : s.idm (findId s object.area) = some object) :
    Inv { s with
      mapped := Function.update s.mapped object.area false
      idm := Function.update s.idm (findId s object.area) none
      held := object :: s.held } := by
  have hidm : ∀ id other, Function.update s.idm (findId s object.area) none id = some other →
      s.idm id = some other ∧ other.area ≠ object.area := by
    intro id other hother
    by_cases he : id = findId s object.area
    · rw [he, Function.update_self] at hother
      cases hother
    · rw [Function.update_of_ne he] at hother
      refine ⟨hother, ?_⟩
      intro harea
      have hfound := h.found id other hother
      rw [harea] at hfound
      exact he hfound.symm
  constructor
  · exact fun id other hother => h.id_mem id other (hidm id other hother).1
  · exact fun id₁ id₂ other h₁ h₂ =>
      h.serial_inj id₁ id₂ other (hidm id₁ other h₁).1 (hidm id₂ other h₂).1
  · exact fun id other hother => h.serial_lt id other (hidm id other hother).1
  · intro other hother
    rcases List.mem_cons.mp hother with rfl | hother
    · exact h.serial_lt _ _ hobject
    · exact h.held_lt other hother
  · intro id other hother
    obtain ⟨hold, hne⟩ := hidm id other hother
    exact (Function.update_of_ne hne ..).trans (h.mapped id other hold)
  · intro area harea
    have hne : area ≠ object.area := by
      rintro rfl
      exact h.making_apart _ object hobject harea
    exact (Function.update_of_ne hne ..).trans (h.making_mapped area harea)
  · exact h.making_nodup
  · exact fun id other hother => h.making_apart id other (hidm id other hother).1
  · exact fun id other hother => h.found id other (hidm id other hother).1
  · intro other hother hunregistered id third hthird
    obtain ⟨hold, hne⟩ := hidm id third hthird
    by_cases he : other = object
    · rw [he]
      exact hne
    · have hbefore : ∀ id', s.idm id' ≠ some other := by
        intro id' hold'
        apply hunregistered id'
        have hid' : id' ≠ findId s object.area := by
          rintro rfl
          rw [hobject] at hold'
          exact he (Option.some.inj hold').symm
        exact (Function.update_of_ne hid' ..).trans hold'
      exact h.waiting other ((List.mem_cons.mp hother).resolve_left he) hbefore id third hold

theorem Inv.drop (h : Inv s) (object : Object) : Inv { s with held := s.held.erase object } where
  id_mem := h.id_mem
  serial_inj := h.serial_inj
  serial_lt := h.serial_lt
  held_lt other hother := h.held_lt other (List.mem_of_mem_erase hother)
  mapped := h.mapped
  making_mapped := h.making_mapped
  making_nodup := h.making_nodup
  making_apart := h.making_apart
  found := h.found
  waiting other hother := h.waiting other (List.mem_of_mem_erase hother)

theorem Inv.destroy (h : Inv s) {object : Object}
    (hapart : ∀ id other, s.idm id = some other → other.area ≠ object.area) :
    Inv (s.destroy object) where
  id_mem := h.id_mem
  serial_inj := h.serial_inj
  serial_lt := h.serial_lt
  held_lt := h.held_lt
  mapped := h.mapped
  making_mapped := h.making_mapped
  making_nodup := h.making_nodup
  making_apart := h.making_apart
  found id other hother :=
    (Function.update_of_ne (hapart id other hother) ..).trans (h.found id other hother)
  waiting := h.waiting

theorem Inv.step (h : Inv s) {move : Move} (hharmless : Harmless s move)
    (hstep : step s move = some s') : Inv s' := by
  cases move with
  | findMap area =>
      simp only [SysVm.step] at hstep
      split at hstep
      · rename_i hfree
        cases hstep
        exact h.findMap (by simpa using hfree.2)
      · cases hstep
  | make area id =>
      simp only [SysVm.step] at hstep
      split at hstep
      · rename_i hfree
        cases hstep
        apply h.make hfree.1 hfree.2.1 hfree.2.2
        intro object hheld harea
        exact (registered_iff h).mp (hharmless object hheld harea)
      · cases hstep
  | get area =>
      simp only [SysVm.step] at hstep
      split at hstep
      · cases hstep
      · rename_i object hobject
        cases hstep
        exact h.get hobject
  | withdraw area =>
      simp only [SysVm.step] at hstep
      split at hstep
      · cases hstep
      · rename_i object hobject
        split at hstep
        · cases hstep
          have harea := hharmless object hobject
          subst harea
          exact h.withdraw hobject
        · cases hstep
  | drop object =>
      simp only [SysVm.step] at hstep
      split at hstep
      · rename_i hheld
        split at hstep
        · cases hstep
          exact h.drop object
        · rename_i hlast
          cases hstep
          apply (h.drop object).destroy
          have hunregistered : ∀ id, s.idm id ≠ some object := by
            intro id hid
            apply hlast
            exact Or.inr ((registered_iff (h.drop object)).mpr ⟨id, hid⟩)
          exact h.waiting object hheld hunregistered
      · cases hstep

end Moves

end Rpcsx.SysVm
