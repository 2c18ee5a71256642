import Mathlib.Data.List.Nodup
import Rpcsx.Ipc

namespace Rpcsx.Ipc

open State

-- The ids of an object, and the condition variables of a mutex.
def refers (ref : Nat) (entry : Nat × Nat) : Bool := entry.2 = ref

def condOf (info : Nat → Info) (mutex : Nat) (entry : Nat × Nat) : Bool :=
  (info entry.2).kind = .cond ∧ (info entry.2).mutex = mutex

structure Counted (s : State) : Prop where
  ids_lt : ∀ entry ∈ s.ids, entry.2 < s.next
  ids_nodup : (s.ids.map Prod.fst).Nodup
  exists_eq : ∀ ref < s.next, s.exists_ ref = s.ids.countP (refers ref)
  cond_eq : ∀ mutex < s.next, s.condCount mutex = s.ids.countP (condOf s.info mutex)
  cond_mutex : ∀ ref < s.next, (s.info ref).kind = .cond →
    (s.info ref).mutex < s.next ∧ (s.info (s.info ref).mutex).kind = .mutex
  cond_alive : ∀ mutex < s.next, s.condCount mutex ≠ 0 → s.exists_ mutex ≠ 0
  unregisters_eq : ∀ ref < s.next, unregisters (s.info ref) = (s.info ref).pshared

-- The registered objects are the shared ones that exist.
def Registered (s : State) : Prop :=
  ∀ kind key ref, s.registry kind key = some ref ↔
    ref < s.next ∧ (s.info ref).kind = kind ∧ (s.info ref).key = key ∧
      (s.info ref).pshared = true ∧ s.exists_ ref ≠ 0

-- on_id_create where it succeeds.
def State.bump (s : State) (ref : Nat) : State :=
  { s with
    exists_ := Function.update s.exists_ ref (s.exists_ ref + 1)
    condCount :=
      if (s.info ref).kind = .cond then
        Function.update s.condCount (s.info ref).mutex (s.condCount (s.info ref).mutex + 1)
      else s.condCount }

theorem onIdCreate_eq {s : State} {ref : Nat} {taken : Bool}
    (hcond : (s.info ref).kind = .cond →
      (s.info ref).mutex ≠ ref ∧ s.exists_ (s.info ref).mutex ≠ 0)
    (hmemory : (s.info ref).kind = .memory → s.exists_ ref = 0 → taken = true) :
    s.onIdCreate ref taken = (s.bump ref, none) := by
  unfold onIdCreate bump
  dsimp only
  split
  · rename_i hkind
    obtain ⟨hne, halive⟩ := hcond hkind
    have halive' : Function.update s.exists_ ref (s.exists_ ref + 1) (s.info ref).mutex ≠ 0 := by
      rw [Function.update_of_ne hne]
      exact halive
    rw [if_pos halive', if_pos hkind]
  · rename_i hkind
    have hnot : ¬(s.exists_ ref = 0 ∧ ¬taken = true) := fun h => h.2 (hmemory hkind h.1)
    rw [if_neg hnot, if_neg (by rw [hkind]; nofun)]
  · rename_i hkind _
    rw [if_neg hkind]

theorem countP_refers_eq_zero {s : State} (h : Counted s) {ref : Nat} (href : s.next ≤ ref) :
    s.ids.countP (refers ref) = 0 := by
  rw [List.countP_eq_zero]
  intro entry hmem
  have := h.ids_lt entry hmem
  simp only [refers, decide_eq_true_eq]
  omega

theorem countP_condOf_eq_zero {s : State} (h : Counted s) {mutex : Nat} (hmutex : s.next ≤ mutex) :
    s.ids.countP (condOf s.info mutex) = 0 := by
  rw [List.countP_eq_zero]
  intro entry hmem hcond
  simp only [condOf, decide_eq_true_eq] at hcond
  have := (h.cond_mutex entry.2 (h.ids_lt entry hmem) hcond.1).1
  omega

theorem Counted.make {s : State} (h : Counted s) {c : Call} (hready : c.Ready s)
    (hvalid : c.invalid = false) : Counted (s.make c) := by
  have hold : ∀ ref, ref < s.next → (s.make c).info ref = s.info ref :=
    fun ref href => Function.update_of_ne (Nat.ne_of_lt href) ..
  have hcondOf : ∀ mutex, s.ids.countP (condOf (s.make c).info mutex) =
      s.ids.countP (condOf s.info mutex) := by
    intro mutex
    apply List.countP_congr
    intro entry hmem
    unfold condOf
    rw [hold _ (h.ids_lt entry hmem)]
  constructor
  · intro entry hmem
    exact Nat.lt_succ_of_lt (h.ids_lt entry hmem)
  · exact h.ids_nodup
  · intro ref href
    change Function.update s.exists_ s.next 0 ref = s.ids.countP (refers ref)
    rcases Nat.lt_succ_iff_lt_or_eq.mp href with hlt | rfl
    · rw [Function.update_of_ne (Nat.ne_of_lt hlt)]
      exact h.exists_eq ref hlt
    · rw [Function.update_self, countP_refers_eq_zero h (Nat.le_refl _)]
  · intro mutex hmutex
    change Function.update s.condCount s.next 0 mutex = s.ids.countP _
    rw [hcondOf]
    rcases Nat.lt_succ_iff_lt_or_eq.mp hmutex with hlt | rfl
    · rw [Function.update_of_ne (Nat.ne_of_lt hlt)]
      exact h.cond_eq mutex hlt
    · rw [Function.update_self, countP_condOf_eq_zero h (Nat.le_refl _)]
  · intro ref href hkind
    rcases Nat.lt_succ_iff_lt_or_eq.mp href with hlt | rfl
    · rw [hold ref hlt] at hkind ⊢
      obtain ⟨hmutex, hkind'⟩ := h.cond_mutex ref hlt hkind
      rw [hold _ hmutex]
      exact ⟨Nat.lt_succ_of_lt hmutex, hkind'⟩
    · have hinfo : (s.make c).info s.next = c.make := Function.update_self ..
      rw [hinfo] at hkind ⊢
      obtain ⟨hmutex, hkind'⟩ := hready.1 hkind
      change c.mutex < s.next + 1 ∧ ((s.make c).info c.mutex).kind = .mutex
      rw [hold _ hmutex]
      exact ⟨Nat.lt_succ_of_lt hmutex, hkind'⟩
  · intro mutex hmutex
    change Function.update s.condCount s.next 0 mutex ≠ 0 →
      Function.update s.exists_ s.next 0 mutex ≠ 0
    rcases Nat.lt_succ_iff_lt_or_eq.mp hmutex with hlt | rfl
    · rw [Function.update_of_ne (Nat.ne_of_lt hlt), Function.update_of_ne (Nat.ne_of_lt hlt)]
      exact h.cond_alive mutex hlt
    · rw [Function.update_self]
      exact fun hne => absurd rfl hne
  · intro ref href
    rcases Nat.lt_succ_iff_lt_or_eq.mp href with hlt | rfl
    · rw [hold ref hlt]
      exact h.unregisters_eq ref hlt
    · have hinfo : (s.make c).info s.next = c.make := Function.update_self ..
      rw [hinfo]
      unfold unregisters Call.make
      unfold Call.invalid Call.keyNotZero at hvalid
      cases hpshared : c.pshared with
      | processShared =>
          rw [hpshared] at hvalid
          by_cases hkind : c.kind = .memory
          · simp [hkind]
          · simp_all
      | notProcessShared => simp
      | other => simp

-- An id for an object.
theorem Counted.attach {s : State} (h : Counted s) {ref id : Nat} (href : ref < s.next)
    (hid : ∀ entry ∈ s.ids, entry.1 ≠ id)
    (hcond : (s.info ref).kind = .cond → s.exists_ (s.info ref).mutex ≠ 0) :
    Counted { s.bump ref with ids := (id, ref) :: s.ids } := by
  constructor
  · intro entry hmem
    rcases List.mem_cons.mp hmem with rfl | hmem
    · exact href
    · exact h.ids_lt entry hmem
  · refine List.nodup_cons.mpr ⟨?_, h.ids_nodup⟩
    intro hmem
    obtain ⟨entry, hentry, heq⟩ := List.mem_map.mp hmem
    exact hid entry hentry heq
  · intro ref' href'
    change Function.update s.exists_ ref (s.exists_ ref + 1) ref' =
      ((id, ref) :: s.ids).countP (refers ref')
    rw [List.countP_cons, ← h.exists_eq ref' href']
    by_cases he : ref' = ref
    · subst he
      rw [Function.update_self, if_pos (by simp [refers])]
    · rw [Function.update_of_ne he, if_neg (by simp [refers, Ne.symm he]), Nat.add_zero]
  · intro mutex hmutex
    change (s.bump ref).condCount mutex = ((id, ref) :: s.ids).countP (condOf s.info mutex)
    rw [List.countP_cons, ← h.cond_eq mutex hmutex]
    unfold bump
    dsimp only
    by_cases hkind : (s.info ref).kind = .cond
    · rw [if_pos hkind]
      by_cases he : mutex = (s.info ref).mutex
      · rw [he, Function.update_self, if_pos (by simp [condOf, hkind])]
      · rw [Function.update_of_ne he, if_neg (by simp [condOf, Ne.symm he]), Nat.add_zero]
    · rw [if_neg hkind, if_neg (by simp [condOf, hkind]), Nat.add_zero]
  · exact h.cond_mutex
  · intro mutex hmutex hne
    change Function.update s.exists_ ref (s.exists_ ref + 1) mutex ≠ 0
    by_cases he : mutex = ref
    · rw [he, Function.update_self]
      exact Nat.succ_ne_zero _
    · rw [Function.update_of_ne he]
      unfold bump at hne
      dsimp only at hne
      by_cases hkind : (s.info ref).kind = .cond
      · by_cases hm : mutex = (s.info ref).mutex
        · rw [hm]
          exact hcond hkind
        · rw [if_pos hkind, Function.update_of_ne hm] at hne
          exact h.cond_alive mutex hmutex hne
      · rw [if_neg hkind] at hne
        exact h.cond_alive mutex hmutex hne
  · exact h.unregisters_eq

-- An id is destroyed.
def State.detach (s : State) (id ref : Nat) : State :=
  { (if (s.info ref).kind = .cond then
      { s with
        condCount := Function.update s.condCount (s.info ref).mutex
          (s.condCount (s.info ref).mutex - 1) }
    else s).onIdDestroy ref with
    ids := s.ids.erase (id, ref) }

theorem detach_eq (s : State) (id ref : Nat) : s.detach id ref =
    { s with
      exists_ := Function.update s.exists_ ref (s.exists_ ref - 1)
      condCount :=
        if (s.info ref).kind = .cond then
          Function.update s.condCount (s.info ref).mutex (s.condCount (s.info ref).mutex - 1)
        else s.condCount
      ids := s.ids.erase (id, ref)
      registry :=
        if s.exists_ ref = 1 ∧ unregisters (s.info ref) then
          Function.update s.registry (s.info ref).kind
            (Function.update (s.registry (s.info ref).kind) (s.info ref).key none)
        else s.registry } := by
  unfold detach onIdDestroy
  by_cases hkind : (s.info ref).kind = .cond
  · rw [if_pos hkind, if_pos hkind]
  · rw [if_neg hkind, if_neg hkind]

theorem Counted.detach {s : State} (h : Counted s) {id ref : Nat} (hmem : (id, ref) ∈ s.ids)
    (hfree : (s.info ref).kind = .mutex → s.condCount ref = 0) : Counted (s.detach id ref) := by
  have href := h.ids_lt _ hmem
  have herase : ∀ p : Nat × Nat → Bool, s.ids.countP p =
      (s.ids.erase (id, ref)).countP p + if p (id, ref) then 1 else 0 := by
    intro p
    rw [(List.perm_cons_erase hmem).countP_eq p, List.countP_cons]
  rw [detach_eq]
  constructor
  · intro entry hentry
    exact h.ids_lt entry (List.mem_of_mem_erase hentry)
  · exact h.ids_nodup.sublist (List.erase_sublist.map _)
  · intro ref' href'
    change Function.update s.exists_ ref (s.exists_ ref - 1) ref' =
      (s.ids.erase (id, ref)).countP (refers ref')
    have hcount := herase (refers ref')
    rw [← h.exists_eq ref' href'] at hcount
    by_cases he : ref' = ref
    · subst he
      rw [if_pos (by simp [refers])] at hcount
      rw [Function.update_self, hcount, Nat.add_sub_cancel]
    · rw [if_neg (by simp [refers, Ne.symm he])] at hcount
      rw [Function.update_of_ne he, hcount, Nat.add_zero]
  · intro mutex hmutex
    change (if (s.info ref).kind = .cond then _ else _ : Nat → Nat) mutex =
      (s.ids.erase (id, ref)).countP (condOf s.info mutex)
    have hcount := herase (condOf s.info mutex)
    rw [← h.cond_eq mutex hmutex] at hcount
    by_cases hkind : (s.info ref).kind = .cond
    · rw [if_pos hkind]
      by_cases he : mutex = (s.info ref).mutex
      · rw [if_pos (by simp [condOf, hkind, he])] at hcount
        rw [← he, Function.update_self, hcount, Nat.add_sub_cancel]
      · rw [if_neg (by simp [condOf, Ne.symm he])] at hcount
        rw [Function.update_of_ne he, hcount, Nat.add_zero]
    · rw [if_neg (by simp [condOf, hkind])] at hcount
      rw [if_neg hkind, hcount, Nat.add_zero]
  · exact h.cond_mutex
  · intro mutex hmutex hne
    have hcount : s.condCount mutex ≠ 0 := by
      intro hzero
      apply hne
      dsimp only
      by_cases hkind : (s.info ref).kind = .cond
      · rw [if_pos hkind]
        by_cases he : mutex = (s.info ref).mutex
        · rw [← he, Function.update_self, hzero]
        · rw [Function.update_of_ne he, hzero]
      · rw [if_neg hkind, hzero]
    -- a mutex with condition variables is not the object that is destroyed
    have hother : mutex ≠ ref := by
      rintro rfl
      have hpos : 0 < s.ids.countP (condOf s.info mutex) := by
        rw [← h.cond_eq mutex hmutex]
        exact Nat.pos_of_ne_zero hcount
      obtain ⟨entry, hentry, hcond⟩ := List.countP_pos_iff.mp hpos
      simp only [condOf, decide_eq_true_eq] at hcond
      have hkind := (h.cond_mutex entry.2 (h.ids_lt entry hentry) hcond.1).2
      rw [hcond.2] at hkind
      exact hcount (hfree hkind)
    change Function.update s.exists_ ref (s.exists_ ref - 1) mutex ≠ 0
    rw [Function.update_of_ne hother]
    exact h.cond_alive mutex hmutex hcount
  · exact h.unregisters_eq

theorem Registered.unique {s : State} (h : Registered s) {ref ref' : Nat} (href : ref < s.next)
    (href' : ref' < s.next) (hkind : (s.info ref).kind = (s.info ref').kind)
    (hkey : (s.info ref).key = (s.info ref').key) (hshared : (s.info ref).pshared = true)
    (hshared' : (s.info ref').pshared = true) (hexists : s.exists_ ref ≠ 0)
    (hexists' : s.exists_ ref' ≠ 0) : ref = ref' := by
  have h1 := (h _ _ ref).mpr ⟨href, rfl, rfl, hshared, hexists⟩
  have h2 := (h _ _ ref').mpr ⟨href', rfl, rfl, hshared', hexists'⟩
  rw [hkind, hkey, h2] at h1
  exact (Option.some.inj h1).symm

theorem Registered.detach {s : State} (h : Registered s) (hs : Counted s) {id ref : Nat}
    (hmem : (id, ref) ∈ s.ids) : Registered (s.detach id ref) := by
  have href := hs.ids_lt _ hmem
  have hexists : s.exists_ ref ≠ 0 := by
    rw [hs.exists_eq ref href]
    exact Nat.ne_of_gt (List.countP_pos_iff.mpr ⟨_, hmem, by simp [refers]⟩)
  rw [detach_eq, hs.unregisters_eq ref href]
  intro kind key ref'
  dsimp only
  by_cases he : ref' = ref
  · subst he
    rw [Function.update_self]
    split
    · rename_i hlast
      rw [hlast.1]
      refine ⟨?_, fun hr => absurd rfl hr.2.2.2.2⟩
      intro hr
      by_cases hkind : kind = (s.info ref').kind
      · subst hkind
        rw [Function.update_self] at hr
        by_cases hkey : key = (s.info ref').key
        · subst hkey
          rw [Function.update_self] at hr
          cases hr
        · rw [Function.update_of_ne hkey] at hr
          exact absurd ((h _ _ _).mp hr).2.2.1.symm hkey
      · rw [Function.update_of_ne hkind] at hr
        exact absurd ((h _ _ _).mp hr).2.1.symm hkind
    · rename_i hlast
      rw [h kind key ref']
      refine and_congr_right fun _ => and_congr_right fun _ => and_congr_right fun _ =>
        and_congr_right fun hshared => ?_
      have hne : s.exists_ ref' ≠ 1 := fun hone => hlast ⟨hone, hshared⟩
      omega
  · rw [Function.update_of_ne he, ← h kind key ref']
    split
    · rename_i hlast
      by_cases hkind : kind = (s.info ref).kind
      · subst hkind
        rw [Function.update_self]
        by_cases hkey : key = (s.info ref).key
        · subst hkey
          rw [Function.update_self, (h _ _ ref).mpr ⟨href, rfl, rfl, hlast.2, hexists⟩]
          exact ⟨nofun, fun heq => absurd (Option.some.inj heq).symm he⟩
        · rw [Function.update_of_ne hkey]
      · rw [Function.update_of_ne hkind]
    · exact Iff.rfl

end Rpcsx.Ipc
