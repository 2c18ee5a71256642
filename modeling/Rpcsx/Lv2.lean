import Mathlib

namespace Rpcsx.Lv2

-- Arithmetic of `s32` and `u32`.
def s32 (value : Int) : Int := (value + 2 ^ 31) % 2 ^ 32 - 2 ^ 31

def u32 (value : Int) : Int := value % 2 ^ 32

theorem s32_eq {value : Int} (hlow : -2 ^ 31 ≤ value) (hhigh : value < 2 ^ 31) :
    s32 value = value := by
  unfold s32
  omega

theorem u32_eq {value : Int} (hlow : 0 ≤ value) (hhigh : value < 2 ^ 32) : u32 value = value :=
  Int.emod_eq_of_lt hlow hhigh

-- The number of threads of a process: `ppu_thread::id_count`.
def idCount : Nat := 100

-- Their ids, from `ppu_thread::id_base` on.
def threadId {n : Nat} (i : Fin n) : Int := 0x01000000 + i.val

-- What the system calls return.
inductive Code where
  | ok
  | eagain
  | einval
  | esrch
  | edeadlk
  | eperm
  | ebusy
  | etimedout
  | ecanceled
  | ekresource
  | enotconn
deriving DecidableEq, Repr

inductive Protocol where
  | fifo
  | priority
deriving DecidableEq, Repr

-- The priority of a thread and the place it has among threads of the same priority.
structure Prio where
  prio : Int
  order : Int
deriving DecidableEq, Repr

def Prio.before (a b : Prio) : Bool := a.prio < b.prio ∨ a.prio = b.prio ∧ a.order < b.order

theorem foldl_mem {ι : Type} (choose : ι → ι → Bool) (it : ι) (rest : List ι) :
    rest.foldl (fun found next => if choose next found then next else found) it ∈ it :: rest := by
  induction rest generalizing it with
  | nil => exact List.mem_cons_self
  | cons next rest ih =>
      rw [List.foldl_cons]
      split
      · exact List.mem_cons_of_mem _ (ih next)
      · rcases List.mem_cons.mp (ih it) with h | h
        · rw [h]
          exact List.mem_cons_self
        · exact List.mem_cons_of_mem _ (List.mem_cons_of_mem _ h)

-- The queues of sleeping threads of `lv2_obj`: linked lists, the latest thread in front.
section Queue

variable {ι : Type} [DecidableEq ι]

def emplace (first : List ι) (object : ι) : List ι := object :: first

def unqueue (first : List ι) (object : ι) : Option (List ι) :=
  if object ∈ first then some (first.erase object) else none

def schedule (prio : ι → Prio) (protocol : Protocol) : List ι → Option (ι × List ι)
  | [] => none
  | it :: rest =>
      match protocol with
      | .fifo => some ((it :: rest).getLast (List.cons_ne_nil _ _), (it :: rest).dropLast)
      | .priority =>
          let found := rest.foldl (fun found next =>
            if (prio next).before (prio found) then next else found) it
          some (found, (it :: rest).erase found)

-- A thread is taken out of a queue that is not empty, and the others stay.
theorem schedule_perm {prio : ι → Prio} {protocol : Protocol} {first rest : List ι} {found : ι}
    (h : schedule prio protocol first = some (found, rest)) : first.Perm (found :: rest) := by
  cases first with
  | nil => cases h
  | cons it others =>
      cases protocol with
      | fifo =>
          cases h
          rw [List.perm_comm]
          refine (List.perm_append_singleton _ _).symm.trans ?_
          rw [List.dropLast_append_getLast]
      | priority =>
          cases h
          exact List.perm_cons_erase (foldl_mem _ it others)

theorem schedule_eq_erase {prio : ι → Prio} {protocol : Protocol} {first rest : List ι} {found : ι}
    (hnodup : first.Nodup) (h : schedule prio protocol first = some (found, rest)) :
    rest = first.erase found := by
  cases first with
  | nil => cases h
  | cons it others =>
      cases protocol with
      | fifo =>
          cases h
          have hsplit := List.dropLast_append_getLast (List.cons_ne_nil it others)
          generalize (it :: others).getLast (List.cons_ne_nil it others) = last at hsplit ⊢
          rw [← hsplit] at hnodup ⊢
          have hlast : last ∉ (it :: others).dropLast :=
            fun hmem => (List.nodup_append.mp hnodup).2.2 _ hmem _ List.mem_cons_self rfl
          rw [List.dropLast_concat, List.erase_append_right _ hlast]
          simp
      | priority =>
          cases h
          rfl

theorem schedule_eq_none {prio : ι → Prio} {protocol : Protocol} {first : List ι} :
    schedule prio protocol first = none ↔ first = [] := by
  cases first with
  | nil => exact ⟨fun _ => rfl, fun _ => rfl⟩
  | cons it others =>
      cases protocol with
      | fifo => simp [schedule]
      | priority => simp [schedule]

theorem unqueue_eq_some {first rest : List ι} {object : ι} (h : unqueue first object = some rest) :
    object ∈ first ∧ rest = first.erase object := by
  unfold unqueue at h
  split at h
  · rename_i hmem
    cases h
    exact ⟨hmem, rfl⟩
  · cases h

theorem unqueue_eq_none {first : List ι} {object : ι} :
    unqueue first object = none ↔ object ∉ first := by
  unfold unqueue
  split
  · rename_i hmem
    exact ⟨nofun, fun h => absurd hmem h⟩
  · rename_i hmem
    exact ⟨fun _ => hmem, fun _ => rfl⟩

end Queue

end Rpcsx.Lv2
