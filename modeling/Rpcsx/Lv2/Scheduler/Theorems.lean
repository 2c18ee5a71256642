import Mathlib.Data.List.Nodup
import Mathlib.Data.List.Pairwise
import Mathlib.Data.List.TakeWhile
import Rpcsx.Data.Interleaving
import Rpcsx.Lv2.Scheduler

namespace Rpcsx.Lv2.Scheduler

open Rpcsx.Data

variable {ι : Type} [DecidableEq ι]

section Queues

-- The thread x is scheduled before y: by priority, then by the time they came.
def Before (prio : ι → Prio) (arrived : ι → Nat) (x y : ι) : Prop :=
  (prio x).prio < (prio y).prio ∨ (prio x).prio = (prio y).prio ∧ arrived x < arrived y

structure Ordered (prio : ι → Prio) (arrived : ι → Nat) (clock : Nat) (ppu : List ι) : Prop where
  nodup : ppu.Nodup
  pairwise : ppu.Pairwise (Before prio arrived)
  arrived_lt : ∀ x ∈ ppu, arrived x < clock

structure Timed (waiting : List (Nat × ι)) : Prop where
  nodup : (waiting.map Prod.snd).Nodup
  pairwise : waiting.Pairwise fun a b => a.1 ≤ b.1

omit [DecidableEq ι] in
theorem Ordered.sublist {prio : ι → Prio} {arrived : ι → Nat} {clock : Nat} {l ppu : List ι}
    (h : Ordered prio arrived clock ppu) (hl : l.Sublist ppu) : Ordered prio arrived clock l where
  nodup := h.nodup.sublist hl
  pairwise := h.pairwise.sublist hl
  arrived_lt x hx := h.arrived_lt x (hl.mem hx)

omit [DecidableEq ι] in
theorem Ordered.prio_le {prio : ι → Prio} {arrived : ι → Nat} {clock : Nat} {ppu : List ι}
    (h : Ordered prio arrived clock ppu) :
    ppu.Pairwise fun x y => (prio x).prio ≤ (prio y).prio := by
  apply h.pairwise.imp
  intro x y hxy
  rcases hxy with hlt | ⟨heq, _⟩
  · exact Int.le_of_lt hlt
  · exact Int.le_of_eq heq

-- A thread that is put behind its equals.
theorem Ordered.insert {prio : ι → Prio} {arrived : ι → Nat} {clock : Nat} {a b : List ι} {cpu : ι}
    (h : Ordered prio arrived clock (a ++ b)) (hcpu : cpu ∉ a ++ b)
    (ha : ∀ x ∈ a, (prio x).prio ≤ (prio cpu).prio)
    (hb : ∀ x ∈ b, (prio cpu).prio < (prio x).prio) :
    Ordered prio (Function.update arrived cpu clock) (clock + 1) (a ++ cpu :: b) := by
  have hother : ∀ x ∈ a ++ b, Function.update arrived cpu clock x = arrived x := by
    intro x hx
    apply Function.update_of_ne
    intro he
    exact hcpu (he ▸ hx)
  have hperm : (a ++ cpu :: b).Perm (cpu :: (a ++ b)) := List.perm_middle
  constructor
  · rw [hperm.nodup_iff]
    exact List.nodup_cons.mpr ⟨hcpu, h.nodup⟩
  · have hkept : (a ++ b).Pairwise (Before prio (Function.update arrived cpu clock)) := by
      apply h.pairwise.imp_of_mem
      intro x y hx hy hxy
      unfold Before
      rw [hother x hx, hother y hy]
      exact hxy
    rw [List.pairwise_append] at hkept ⊢
    refine ⟨hkept.1, List.pairwise_cons.mpr ⟨fun x hx => Or.inl (hb x hx), hkept.2.1⟩, ?_⟩
    intro x hx y hy
    rcases List.mem_cons.mp hy with rfl | hy
    · have hx' : x ∈ a ++ b := List.mem_append_left _ hx
      have hlt := h.arrived_lt x hx'
      rcases Int.lt_or_eq_of_le (ha x hx) with hprio | hprio
      · exact Or.inl hprio
      · refine Or.inr ⟨hprio, ?_⟩
        rw [hother x hx', Function.update_self]
        exact hlt
    · exact hkept.2.2 x hx y hy
  · intro x hx
    rcases List.mem_cons.mp (hperm.mem_iff.mp hx) with rfl | hx
    · rw [Function.update_self]
      omega
    · rw [hother x hx]
      have := h.arrived_lt x hx
      omega

-- The priority of a thread that is not queued does not matter.
theorem Ordered.update_prio {prio : ι → Prio} {arrived : ι → Nat} {clock : Nat} {ppu : List ι}
    {cpu : ι} (h : Ordered prio arrived clock ppu) (hcpu : cpu ∉ ppu) (value : Prio) :
    Ordered (Function.update prio cpu value) arrived clock ppu where
  nodup := h.nodup
  pairwise := by
    have hother : ∀ x ∈ ppu, Function.update prio cpu value x = prio x := by
      intro x hx
      apply Function.update_of_ne
      intro he
      exact hcpu (he ▸ hx)
    apply h.pairwise.imp_of_mem
    intro x y hx hy hxy
    unfold Before
    rw [hother x hx, hother y hy]
    exact hxy
  arrived_lt := h.arrived_lt

-- A thread that is queued is found before the end of the threads of its priority.
theorem emplaceThread_of_mem {prio : ι → Prio} {cpu : ι} {ppu : List ι}
    (hsorted : ppu.Pairwise fun x y => (prio x).prio ≤ (prio y).prio) (hmem : cpu ∈ ppu) :
    emplaceThread prio cpu ppu = none := by
  induction ppu with
  | nil => cases hmem
  | cons next rest ih =>
      obtain ⟨hnext, hrest⟩ := List.pairwise_cons.mp hsorted
      simp only [emplaceThread]
      by_cases he : next = cpu
      · rw [if_pos he]
      · have hmem' : cpu ∈ rest := (List.mem_cons.mp hmem).resolve_left (Ne.symm he)
        have hle := hnext cpu hmem'
        rw [if_neg he, if_neg (by omega), ih hrest hmem']
        rfl

theorem emplaceThread_of_not_mem {prio : ι → Prio} {cpu : ι} {ppu : List ι}
    (hsorted : ppu.Pairwise fun x y => (prio x).prio ≤ (prio y).prio) (hmem : cpu ∉ ppu) :
    ∃ a b, ppu = a ++ b ∧ emplaceThread prio cpu ppu = some (a ++ cpu :: b) ∧
      (∀ x ∈ a, (prio x).prio ≤ (prio cpu).prio) ∧
      ∀ x ∈ b, (prio cpu).prio < (prio x).prio := by
  induction ppu with
  | nil => exact ⟨[], [], rfl, rfl, by simp, by simp⟩
  | cons next rest ih =>
      obtain ⟨hnext, hrest⟩ := List.pairwise_cons.mp hsorted
      have he : next ≠ cpu := fun he => hmem (he ▸ List.mem_cons_self)
      simp only [emplaceThread]
      rw [if_neg he]
      by_cases hprio : (prio next).prio > (prio cpu).prio
      · rw [if_pos hprio]
        refine ⟨[], next :: rest, rfl, rfl, by simp, ?_⟩
        intro x hx
        rcases List.mem_cons.mp hx with rfl | hx
        · exact hprio
        · exact Int.lt_of_lt_of_le hprio (hnext x hx)
      · obtain ⟨a, b, hsplit, heq, ha, hb⟩ :=
          ih hrest fun hmem' => hmem (List.mem_cons_of_mem _ hmem')
        rw [if_neg hprio, heq]
        refine ⟨next :: a, b, by rw [hsplit]; rfl, rfl, ?_, hb⟩
        intro x hx
        rcases List.mem_cons.mp hx with rfl | hx
        · omega
        · exact ha x hx

theorem rotate_of_not_mem {prio : ι → Prio} {cpu : ι} {ppu : List ι} (hmem : cpu ∉ ppu) :
    rotate prio cpu ppu = none := by
  induction ppu with
  | nil => rfl
  | cons next rest ih =>
      have he : next ≠ cpu := fun he => hmem (he ▸ List.mem_cons_self)
      simp only [rotate]
      rw [if_neg he, ih fun hmem' => hmem (List.mem_cons_of_mem _ hmem')]
      rfl

omit [DecidableEq ι] in
theorem lt_of_mem_dropWhile {prio : ι → Prio} {value : Int} {rest : List ι} {x : ι}
    (hle : ∀ y ∈ rest, value ≤ (prio y).prio)
    (hsorted : rest.Pairwise fun x y => (prio x).prio ≤ (prio y).prio)
    (hx : x ∈ rest.dropWhile fun y => (prio y).prio = value) : value < (prio x).prio := by
  induction rest with
  | nil => cases hx
  | cons next rest ih =>
      obtain ⟨hnext, hrest⟩ := List.pairwise_cons.mp hsorted
      by_cases he : (prio next).prio = value
      · rw [List.dropWhile_cons_of_pos (by simpa using he)] at hx
        exact ih (fun y hy => hle y (List.mem_cons_of_mem _ hy)) hrest hx
      · rw [List.dropWhile_cons_of_neg (by simpa using he)] at hx
        have hlt : value < (prio next).prio :=
          Int.lt_iff_le_and_ne.mpr ⟨hle next List.mem_cons_self, Ne.symm he⟩
        rcases List.mem_cons.mp hx with rfl | hx
        · exact hlt
        · exact Int.lt_of_lt_of_le hlt (hnext x hx)

-- The threads behind a thread are those of its priority and those of lower ones.
theorem rotate_of_mem {prio : ι → Prio} {cpu : ι} {ppu : List ι}
    (hsorted : ppu.Pairwise fun x y => (prio x).prio ≤ (prio y).prio) (hmem : cpu ∈ ppu) :
    ∃ a same b, ppu = a ++ cpu :: (same ++ b) ∧
      (∀ x ∈ a, (prio x).prio ≤ (prio cpu).prio) ∧
      (∀ x ∈ same, (prio x).prio = (prio cpu).prio) ∧
      (∀ x ∈ b, (prio cpu).prio < (prio x).prio) ∧
      (same = [] ∧ rotate prio cpu ppu = none ∨
        ∃ position, rotate prio cpu ppu = some (a ++ (same ++ cpu :: b), position)) := by
  induction ppu with
  | nil => cases hmem
  | cons next rest ih =>
      obtain ⟨hnext, hrest⟩ := List.pairwise_cons.mp hsorted
      by_cases he : next = cpu
      · subst he
        refine ⟨[], rest.takeWhile fun x => (prio x).prio = (prio next).prio,
          rest.dropWhile fun x => (prio x).prio = (prio next).prio, ?_, by simp, ?_, ?_, ?_⟩
        · rw [List.takeWhile_append_dropWhile]
          rfl
        · intro x hx
          simpa using List.mem_takeWhile_imp hx
        · exact fun x hx => lt_of_mem_dropWhile hnext hrest hx
        · simp only [rotate, if_true]
          split
          · rename_i hnil
            exact Or.inl ⟨hnil, rfl⟩
          · exact Or.inr ⟨_, rfl⟩
      · have hmem' : cpu ∈ rest := (List.mem_cons.mp hmem).resolve_left (Ne.symm he)
        obtain ⟨a, same, b, hsplit, ha, hsame, hb, hrotate⟩ := ih hrest hmem'
        refine ⟨next :: a, same, b, by rw [hsplit]; rfl, ?_, hsame, hb, ?_⟩
        · intro x hx
          rcases List.mem_cons.mp hx with rfl | hx
          · exact hnext cpu hmem'
          · exact ha x hx
        · simp only [rotate]
          rw [if_neg he]
          rcases hrotate with ⟨hnil, hnone⟩ | ⟨position, hsome⟩
          · rw [hnone]
            exact Or.inl ⟨hnil, rfl⟩
          · rw [hsome]
            exact Or.inr ⟨position + 1, rfl⟩

omit [DecidableEq ι] in
theorem register_perm (until_ : Nat) (thread : ι) (waiting : List (Nat × ι)) :
    (register until_ thread waiting).Perm ((until_, thread) :: waiting) := by
  induction waiting with
  | nil => exact List.Perm.refl _
  | cons it rest ih =>
      simp only [register]
      split
      · exact List.Perm.refl _
      · exact (ih.cons it).trans (List.Perm.swap _ _ _)

omit [DecidableEq ι] in
theorem Timed.register {waiting : List (Nat × ι)} (h : Timed waiting) {thread : ι}
    (hthread : thread ∉ waiting.map Prod.snd) (until_ : Nat) :
    Timed (register until_ thread waiting) := by
  constructor
  · rw [((register_perm until_ thread waiting).map Prod.snd).nodup_iff]
    exact List.nodup_cons.mpr ⟨hthread, h.nodup⟩
  · have hpairwise := h.pairwise
    clear h hthread
    induction waiting with
    | nil => exact List.pairwise_singleton _ _
    | cons it rest ih =>
        obtain ⟨hit, hrest⟩ := List.pairwise_cons.mp hpairwise
        simp only [Scheduler.register]
        split
        · rename_i hlater
          refine List.pairwise_cons.mpr ⟨?_, hpairwise⟩
          intro other hother
          rcases List.mem_cons.mp hother with rfl | hother
          · exact Nat.le_of_lt hlater
          · exact Nat.le_trans (Nat.le_of_lt hlater) (hit other hother)
        · rename_i hearlier
          refine List.pairwise_cons.mpr ⟨?_, ih hrest⟩
          intro other hother
          rcases List.mem_cons.mp ((register_perm until_ thread rest).mem_iff.mp hother)
            with rfl | hother
          · exact Nat.le_of_not_lt hearlier
          · exact hit other hother

omit [DecidableEq ι] in
theorem Timed.sublist {l waiting : List (Nat × ι)} (h : Timed waiting) (hl : l.Sublist waiting) :
    Timed l where
  nodup := h.nodup.sublist (hl.map _)
  pairwise := h.pairwise.sublist hl

theorem unregister_sublist (thread : ι) (waiting : List (Nat × ι)) :
    (unregister thread waiting).Sublist waiting := List.eraseP_sublist

theorem not_mem_unregister {thread : ι} {waiting : List (Nat × ι)}
    (h : (waiting.map Prod.snd).Nodup) : thread ∉ (unregister thread waiting).map Prod.snd := by
  induction waiting with
  | nil => simp [unregister]
  | cons it rest ih =>
      obtain ⟨hit, hrest⟩ := List.nodup_cons.mp h
      unfold unregister
      by_cases he : it.2 = thread
      · rw [List.eraseP_cons_of_pos (by simpa using he)]
        exact he ▸ hit
      · rw [List.eraseP_cons_of_neg (by simpa using he)]
        rw [List.map_cons, List.mem_cons]
        rintro (heq | hmem)
        · exact he heq.symm
        · exact ih hrest hmem

end Queues

namespace State

structure Sorted (s : State ι) : Prop where
  ppu : Ordered s.prio s.arrived s.clock s.ppu
  waiting : Timed s.waiting
  apart : ∀ x ∈ s.ppu, x ∉ s.waiting.map Prod.snd

-- In the queue of `s'` the thread stands behind the threads of its priority that were queued in `s`.
def GoesBehind (s s' : State ι) (cpu : ι) : Prop :=
  ∀ x ∈ s.ppu, x ≠ cpu → (s'.prio x).prio = (s'.prio cpu).prio → [x, cpu].Sublist s'.ppu

-- The threads that a command puts into the queue, or into another place of it.
def Requeues (s : State ι) (current : Option ι) (toAwake : List ι) (cpu : ι) : Command ι → Prop
  | .enqueue (some thread) => cpu = thread ∧ cpu ∉ s.ppu
  | .enqueue none => cpu ∈ toAwake ∧ cpu ∉ s.ppu
  | .yield thread => cpu = thread ∧ cpu ∈ s.ppu
  | .priority thread value =>
      cpu = thread ∧ cpu ∈ s.ppu ∧ ¬((s.prio thread).prio = value ∧ current = some thread)

theorem emplaceThread_prio (s : State ι) (cpu : ι) : (s.emplaceThread cpu).1.prio = s.prio := by
  unfold emplaceThread
  split
  · split
    · rfl
    · rfl
  · rfl

theorem Sorted.emplaceThread_of_mem {s : State ι} (h : s.Sorted) {cpu : ι} (hmem : cpu ∈ s.ppu) :
    (s.emplaceThread cpu).1.Sorted ∧ (s.emplaceThread cpu).1.ppu = s.ppu := by
  unfold emplaceThread
  rw [Scheduler.emplaceThread_of_mem h.ppu.prio_le hmem]
  dsimp only
  split
  · exact ⟨⟨h.ppu, h.waiting, h.apart⟩, rfl⟩
  · exact ⟨h, rfl⟩

theorem Sorted.emplaceThread_of_not_mem {s : State ι} (h : s.Sorted) {cpu : ι}
    (hmem : cpu ∉ s.ppu) :
    (s.emplaceThread cpu).1.Sorted ∧ GoesBehind s (s.emplaceThread cpu).1 cpu ∧
      s.ppu.Sublist (s.emplaceThread cpu).1.ppu ∧
      (s.emplaceThread cpu).1.ppu.Perm (cpu :: s.ppu) := by
  obtain ⟨a, b, hsplit, heq, ha, hb⟩ :=
    Scheduler.emplaceThread_of_not_mem h.ppu.prio_le hmem
  have hstate : (s.emplaceThread cpu).1 =
      { s.arrives cpu (a ++ cpu :: b) with waiting := unregister cpu s.waiting } := by
    unfold emplaceThread
    rw [heq]
  have hperm : (a ++ cpu :: b).Perm (cpu :: s.ppu) := hsplit ▸ List.perm_middle
  rw [hstate]
  refine ⟨⟨?_, h.waiting.sublist (unregister_sublist cpu s.waiting), ?_⟩, ?_, ?_, hperm⟩
  · exact Ordered.insert (hsplit ▸ h.ppu) (hsplit ▸ hmem) ha hb
  · intro x hx hwaiting
    rcases List.mem_cons.mp (hperm.mem_iff.mp hx) with rfl | hx
    · exact not_mem_unregister h.waiting.nodup hwaiting
    · exact h.apart x hx (((unregister_sublist cpu s.waiting).map _).mem hwaiting)
  · intro x hx _ hprio
    change (s.prio x).prio = (s.prio cpu).prio at hprio
    have hxa : x ∈ a := by
      rw [hsplit] at hx
      rcases List.mem_append.mp hx with hx | hx
      · exact hx
      · have := hb x hx
        omega
    change (([x] ++ [cpu] : List ι)).Sublist (a ++ cpu :: b)
    apply List.Sublist.append
    · exact List.singleton_sublist.mpr hxa
    · exact List.singleton_sublist.mpr List.mem_cons_self
  · change s.ppu.Sublist (a ++ cpu :: b)
    rw [hsplit]
    exact List.Sublist.append_left (List.sublist_cons_self cpu b) a

theorem Sorted.emplaceThread {s : State ι} (h : s.Sorted) (cpu : ι) :
    (s.emplaceThread cpu).1.Sorted ∧ s.ppu.Sublist (s.emplaceThread cpu).1.ppu ∧
      ∀ x ∈ (s.emplaceThread cpu).1.ppu, x = cpu ∨ x ∈ s.ppu := by
  by_cases hmem : cpu ∈ s.ppu
  · obtain ⟨hsorted, hppu⟩ := h.emplaceThread_of_mem hmem
    refine ⟨hsorted, hppu ▸ List.Sublist.refl _, ?_⟩
    intro x hx
    exact Or.inr (hppu ▸ hx)
  · obtain ⟨hsorted, _, hsublist, hperm⟩ := h.emplaceThread_of_not_mem hmem
    refine ⟨hsorted, hsublist, ?_⟩
    intro x hx
    exact List.mem_cons.mp (hperm.mem_iff.mp hx)

theorem emplaceAll_prio (s : State ι) (toAwake : List ι) :
    (s.emplaceAll toAwake).1.prio = s.prio := by
  induction toAwake generalizing s with
  | nil => rfl
  | cons cpu rest ih =>
      simp only [emplaceAll]
      rw [ih, emplaceThread_prio]

theorem Sorted.emplaceAll {s : State ι} (h : s.Sorted) (toAwake : List ι) :
    (s.emplaceAll toAwake).1.Sorted ∧ s.ppu.Sublist (s.emplaceAll toAwake).1.ppu := by
  induction toAwake generalizing s with
  | nil => exact ⟨h, List.Sublist.refl _⟩
  | cons cpu rest ih =>
      obtain ⟨hfirst, hsublist, _⟩ := h.emplaceThread cpu
      obtain ⟨hothers, hsublist'⟩ := ih hfirst
      exact ⟨hothers, hsublist.trans hsublist'⟩

theorem Sorted.goesBehind_emplaceAll {s : State ι} (h : s.Sorted) {toAwake : List ι} {cpu : ι}
    (hmem : cpu ∈ toAwake) (hcpu : cpu ∉ s.ppu) : GoesBehind s (s.emplaceAll toAwake).1 cpu := by
  induction toAwake generalizing s with
  | nil => cases hmem
  | cons first rest ih =>
      intro x hx hne hprio
      rw [emplaceAll_prio] at hprio
      obtain ⟨hfirst, hsublist, hof⟩ := h.emplaceThread first
      by_cases he : cpu = first
      · subst he
        obtain ⟨_, hbehind, _⟩ := h.emplaceThread_of_not_mem hcpu
        have hin := hbehind x hx hne (by rw [emplaceThread_prio]; exact hprio)
        exact hin.trans (hfirst.emplaceAll rest).2
      · have hcpu' : cpu ∉ (s.emplaceThread first).1.ppu :=
          fun hin => (hof cpu hin).elim he hcpu
        apply ih hfirst ((List.mem_cons.mp hmem).resolve_left he) hcpu' x (hsublist.mem hx) hne
        rw [emplaceAll_prio, emplaceThread_prio]
        exact hprio

-- A rotated queue, and the place of the thread in it.
theorem Sorted.rotate {s : State ι} (h : s.Sorted) {cpu : ι} (hmem : cpu ∈ s.ppu) :
    (rotate s.prio cpu s.ppu = none ∧ GoesBehind s s cpu) ∨
      ∃ ppu position, rotate s.prio cpu s.ppu = some (ppu, position) ∧
        (s.arrives cpu ppu).Sorted ∧ GoesBehind s (s.arrives cpu ppu) cpu := by
  obtain ⟨a, same, b, hsplit, ha, hsame, hb, hrotate⟩ := rotate_of_mem h.ppu.prio_le hmem
  have hequal : ∀ x ∈ s.ppu, x ≠ cpu → (s.prio x).prio = (s.prio cpu).prio → x ∈ a ++ same := by
    intro x hx hne hprio
    rw [hsplit] at hx
    simp only [List.mem_append, List.mem_cons] at hx ⊢
    rcases hx with hx | hx | hx | hx
    · exact Or.inl hx
    · exact absurd hx hne
    · exact Or.inr hx
    · have := hb x hx
      omega
  have hperm : ((a ++ same) ++ cpu :: b).Perm s.ppu := by
    rw [hsplit]
    refine List.perm_middle.trans (List.Perm.trans ?_ List.perm_middle.symm)
    rw [List.append_assoc]
  have hbehind : ∀ {s' : State ι}, s'.prio = s.prio → s'.ppu = (a ++ same) ++ cpu :: b →
      GoesBehind s s' cpu := by
    intro s' hprio' hppu' x hx hne hprio
    rw [hprio'] at hprio
    rw [hppu']
    change (([x] ++ [cpu] : List ι)).Sublist _
    apply List.Sublist.append
    · exact List.singleton_sublist.mpr (hequal x hx hne hprio)
    · exact List.singleton_sublist.mpr List.mem_cons_self
  rcases hrotate with ⟨rfl, hnone⟩ | ⟨position, hsome⟩
  · exact Or.inl ⟨hnone, hbehind rfl (by rw [hsplit]; simp)⟩
  · refine Or.inr ⟨_, position, hsome, ⟨?_, h.waiting, ?_⟩, ?_⟩
    · change Ordered s.prio (Function.update s.arrived cpu s.clock) (s.clock + 1)
        (a ++ (same ++ cpu :: b))
      rw [← List.append_assoc]
      have hnodup := hperm.nodup_iff.mpr h.ppu.nodup
      rw [List.perm_middle.nodup_iff, List.nodup_cons] at hnodup
      apply Ordered.insert
      · apply h.ppu.sublist
        rw [hsplit, List.append_assoc]
        exact List.Sublist.append_left (List.sublist_cons_self cpu _) a
      · exact hnodup.1
      · intro x hx
        rcases List.mem_append.mp hx with hx | hx
        · exact ha x hx
        · exact Int.le_of_eq (hsame x hx)
      · exact hb
    · intro x hx
      change x ∈ a ++ (same ++ cpu :: b) at hx
      rw [← List.append_assoc] at hx
      exact h.apart x (hperm.mem_iff.mp hx)
    · exact hbehind rfl (List.append_assoc _ _ _).symm

theorem Sorted.unqueue {s : State ι} (h : s.Sorted) (cpu : ι) :
    { s with ppu := s.ppu.erase cpu }.Sorted where
  ppu := h.ppu.sublist List.erase_sublist
  waiting := h.waiting
  apart x hx := h.apart x (List.mem_of_mem_erase hx)

theorem Sorted.setPrio {s : State ι} (h : s.Sorted) {cpu : ι} (hcpu : cpu ∉ s.ppu) (value : Int)
    (last first : Bool) : (s.setPrio cpu value last first).Sorted where
  ppu := h.ppu.update_prio hcpu _
  waiting := h.waiting
  apart := h.apart

theorem Sorted.awake {s : State ι} (h : s.Sorted) (c : Config ι) (current : Option ι)
    (toAwake : List ι) (command : Command ι) :
    (s.awakeUnlocked c current toAwake command).1.Sorted ∧
      ∀ cpu, s.Requeues current toAwake cpu command →
        GoesBehind s (s.awakeUnlocked c current toAwake command).1 cpu := by
  cases command with
  | enqueue cpu =>
      cases cpu with
      | none =>
          refine ⟨(h.emplaceAll toAwake).1, ?_⟩
          rintro cpu ⟨hmem, hcpu⟩
          exact h.goesBehind_emplaceAll hmem hcpu
      | some thread =>
          refine ⟨(h.emplaceThread thread).1, ?_⟩
          rintro cpu ⟨rfl, hcpu⟩
          exact (h.emplaceThread_of_not_mem hcpu).2.1
  | yield thread =>
      by_cases hmem : thread ∈ s.ppu
      · unfold awakeUnlocked
        rcases h.rotate hmem with ⟨hnone, hbehind⟩ | ⟨ppu, position, hsome, hsorted, hbehind⟩
        · simp only [hnone]
          refine ⟨h, ?_⟩
          rintro cpu ⟨rfl, _⟩
          exact hbehind
        · simp only [hsome]
          split
          · refine ⟨hsorted, ?_⟩
            rintro cpu ⟨rfl, _⟩
            exact hbehind
          · obtain ⟨hall, hsublist⟩ := hsorted.emplaceAll toAwake
            refine ⟨hall, ?_⟩
            rintro cpu ⟨rfl, _⟩ x hx hne hprio
            rw [emplaceAll_prio] at hprio
            exact (hbehind x hx hne hprio).trans hsublist
      · unfold awakeUnlocked
        simp only [rotate_of_not_mem hmem]
        exact ⟨h, fun cpu hcpu => absurd (hcpu.1 ▸ hcpu.2) hmem⟩
  | priority thread value =>
      unfold awakeUnlocked
      dsimp only
      split
      · rename_i hsame
        refine ⟨?_, fun cpu hcpu => absurd hsame hcpu.2.2⟩
        -- the priority that is set is the one the thread has
        have hupdate : Function.update s.prio thread ⟨value, (s.prio thread).order⟩ = s.prio := by
          rw [← hsame.1]
          exact Function.update_eq_self thread s.prio
        refine ⟨?_, h.waiting, h.apart⟩
        change Ordered (Function.update s.prio thread ⟨value, (s.prio thread).order⟩) _ _ _
        rw [hupdate]
        exact h.ppu
      · cases hunqueue : Lv2.unqueue s.ppu thread with
        | none =>
            have hmem := unqueue_eq_none.mp hunqueue
            exact ⟨h.setPrio hmem value _ _, fun cpu hcpu => absurd (hcpu.1 ▸ hcpu.2.1) hmem⟩
        | some ppu =>
            obtain ⟨hmem, rfl⟩ := unqueue_eq_some hunqueue
            have hout : thread ∉ s.ppu.erase thread := h.ppu.nodup.not_mem_erase
            have hset := (h.unqueue thread).setPrio hout value false false
            obtain ⟨hsorted, hbehind, _⟩ := hset.emplaceThread_of_not_mem hout
            refine ⟨hsorted, ?_⟩
            rintro cpu ⟨rfl, _⟩ x hx hne hprio
            exact hbehind x ((List.mem_erase_of_ne hne).mpr hx) hne hprio

theorem Sorted.sleep {s : State ι} (h : s.Sorted) (c : Config ι) (thread : ι)
    (timeout currentTime : Nat) (signaled : Bool) :
    (s.sleepUnlocked c thread timeout currentTime signaled).1.Sorted := by
  unfold sleepUnlocked
  split
  · split
    · exact ⟨h.ppu, h.waiting, h.apart⟩
    · exact h
  · dsimp only
    split
    · exact ⟨h.ppu, h.waiting, h.apart⟩
    · cases hunqueue : Lv2.unqueue s.ppu thread with
      | none =>
          dsimp only
          split
          · exact ⟨h.ppu, h.waiting, h.apart⟩
          · exact ⟨h.ppu, h.waiting, h.apart⟩
      | some ppu =>
          obtain ⟨hmem, rfl⟩ := unqueue_eq_some hunqueue
          have hunqueued := h.unqueue thread
          dsimp only
          split
          · exact ⟨hunqueued.ppu, h.waiting, hunqueued.apart⟩
          · refine ⟨hunqueued.ppu, h.waiting.register (h.apart thread hmem) _, ?_⟩
            intro x hx hwaiting
            have hperm := (register_perm (waitUntil currentTime timeout) thread s.waiting).map
              Prod.snd
            rcases List.mem_cons.mp (hperm.mem_iff.mp hwaiting) with rfl | hwaiting
            · exact h.ppu.nodup.not_mem_erase hx
            · exact hunqueued.apart x hx hwaiting

omit [DecidableEq ι] in
theorem Sorted.schedule {s : State ι} (h : s.Sorted) (currentTime : Nat) :
    (s.scheduleAll currentTime).Sorted := by
  have hsublist : (expire currentTime s.waiting).Sublist s.waiting := List.dropWhile_sublist _
  refine ⟨h.ppu, h.waiting.sublist hsublist, ?_⟩
  intro x hx hwaiting
  exact h.apart x hx ((hsublist.map _).mem hwaiting)

end State

theorem Step.sorted {c : Config ι} {s s' : State ι} (hstep : Step c s s') (h : s.Sorted) :
    s'.Sorted := by
  cases hstep with
  | sleep thread timeout currentTime signaled =>
      exact h.sleep c thread timeout currentTime signaled
  | awake current toAwake command => exact (h.awake c current toAwake command).1
  | schedule currentTime => exact h.schedule currentTime
  | futureSleep thread => exact ⟨h.ppu, h.waiting, h.apart⟩
  | cancelSleep thread value => exact ⟨h.ppu, h.waiting, h.apart⟩

theorem Reachable.sorted {c : Config ι} {prio : ι → Prio} {s : State ι}
    (h : Reachable c prio s) : s.Sorted := by
  apply Interleaving.invariant_of_reachable _ (fun s s' hs hstep => Step.sorted hstep hs) h
  exact ⟨⟨List.nodup_nil, List.Pairwise.nil, by nofun⟩, ⟨List.nodup_nil, List.Pairwise.nil⟩,
    by nofun⟩

theorem queues_sorted {c : Config ι} {prio : ι → Prio} {s : State ι} (h : Reachable c prio s) :
    s.ppu.Nodup ∧ s.ppu.Pairwise (Before s.prio s.arrived) ∧
      (s.waiting.map Prod.snd).Nodup ∧ (s.waiting.Pairwise fun a b => a.1 ≤ b.1) ∧
      (∀ x ∈ s.ppu, x ∉ s.waiting.map Prod.snd) ∧
      ∀ current toAwake command cpu, s.Requeues current toAwake cpu command →
        s.GoesBehind (s.awakeUnlocked c current toAwake command).1 cpu := by
  have hs := h.sorted
  refine ⟨hs.ppu.nodup, hs.ppu.pairwise, hs.waiting.nodup, hs.waiting.pairwise, hs.apart, ?_⟩
  intro current toAwake command cpu hcpu
  exact (hs.awake c current toAwake command).2 cpu hcpu

-- Three threads of one priority; the first yields and the next one sleeps for some time.
theorem queues_sorted_yield : ∃ s : State Nat,
    Reachable ⟨fun _ => false, 2⟩ (fun _ => ⟨0, 0⟩) s ∧ s.ppu = [2, 0] ∧ s.waiting = [(15, 1)] ∧
      s.ppu.Pairwise (Before s.prio s.arrived) ∧
      s.GoesBehind (s.awakeUnlocked ⟨fun _ => false, 2⟩ none [] (.enqueue (some 1))).1 1 := by
  have hrun := ((((Relation.ReflTransGen.refl (r := Step (ι := Nat) ⟨fun _ => false, 2⟩)
    (a := State.start fun _ => ⟨0, 0⟩)).tail (Step.awake none [] (.enqueue (some 0)))).tail
    (Step.awake none [] (.enqueue (some 1)))).tail
    (Step.awake none [] (.enqueue (some 2)))).tail (Step.awake (some 0) [] (.yield 0)) |>.tail
    (Step.sleep 1 5 10 false)
  obtain ⟨_, hordered, _, _, _, hbehind⟩ := queues_sorted hrun
  refine ⟨_, hrun, by decide, by decide, hordered, ?_⟩
  exact hbehind none [] (.enqueue (some 1)) 1 ⟨rfl, by decide⟩

end Rpcsx.Lv2.Scheduler
