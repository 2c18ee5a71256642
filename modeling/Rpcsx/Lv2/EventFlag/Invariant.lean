import Rpcsx.Data.Interleaving
import Rpcsx.Lv2.EventFlag.Attempt

namespace Rpcsx.Lv2.EventFlag

open Data.Interleaving Data.Mask

-- A thread that may be in the queue.
def Pc.asleep : Pc → Bool
  | parked _ | expired | timeoutLock | timeoutUnqueue => true
  | _ => false

-- A thread that may enter the queue.
def Pc.calling : Pc → Bool
  | waitCheck _ | waitLock _ | waitRecheck _ | waitEmplace _ => true
  | _ => false

theorem Pc.not_asleep_of_calling {pc : Pc} (h : pc.calling = true) : pc.asleep = false := by
  cases pc with
  | waitCheck | waitLock | waitRecheck | waitEmplace => rfl
  | _ => cases h

namespace State

variable {ι : Type} [DecidableEq ι]

-- No thread in the queue has CELL_OK in its register.
def Fresh (s : State ι) : Prop := ∀ j ∈ s.sq, s.gpr3 j ≠ some .ok

-- The loaded pattern has all bits that the flag has now, and it satisfies nobody.
structure Snapshot (s : State ι) (pattern : BitVec 64) : Prop where
  within : Within s.pattern pattern
  unsatisfied : ∀ j ∈ s.sq, checkPattern pattern (s.waits j) = none

-- What an attempt finds when it offers the loaded pattern to the waiters.
structure Evaluated (c : Config) (prio : ι → Int) (s : State ι)
    (bitptn pattern toWrite dependantMask : BitVec 64) (count : Nat) (woken : List ι) : Prop where
  offer : offer s.waits (schedulingOrder prio c.protocol s.sq.length s.sq) (pattern ||| bitptn) =
    (toWrite, woken)
  mask : ∀ j ∈ woken, (s.waits j).mode = .and →
    Within (s.waits j).bitptn (dependantMask ||| bitptn)
  count : count = woken.length
  ok : ∀ j ∈ s.sq, s.gpr3 j = some .ok ↔ j ∈ woken

-- What the thread inside the mutex knows.
def Owner (c : Config) (s : State ι) (i : ι) : Pc → Prop
  | .waitEmplace _ => s.Fresh ∧ checkPattern s.pattern (s.waits i) = none
  | .setEvaluate _ pattern => s.Snapshot pattern
  | .setCommit bitptn pattern toWrite dependantMask count =>
      s.Snapshot pattern ∧ ∃ prio woken,
        s.Evaluated c prio bitptn pattern toWrite dependantMask count woken
  | .setRemove => True
  | _ => s.Fresh

end State

section Invariant

variable {ι : Type} [DecidableEq ι]

structure Invariant (c : Config) (s : State ι) : Prop where
  exclusive : Exclusive Pc.holds s.threads s.mutex
  nodup : s.sq.Nodup
  asleep : ∀ j ∈ s.sq, (s.threads j).asleep = true
  calling : ∀ j, (s.threads j).calling = true → s.gpr3 j ≠ some .ok
  unsatisfied : ∀ j ∈ s.queue, checkPattern s.pattern (s.waits j) = none
  free : s.mutex = none → s.Fresh
  owner : ∀ i, s.mutex = some i → s.Owner c i (s.threads i)

theorem Invariant.start (c : Config) : Invariant c (State.start c : State ι) where
  exclusive _ := ⟨nofun, nofun⟩
  nodup := List.nodup_nil
  asleep := nofun
  calling := nofun
  unsatisfied := nofun
  free _ := nofun
  owner := nofun

theorem Invariant.not_mem {c : Config} {s : State ι} {i : ι} (h : Invariant c s)
    (hawake : (s.threads i).asleep = false) : i ∉ s.sq := by
  intro hmem
  rw [h.asleep i hmem] at hawake
  cases hawake

end Invariant

section Queue

variable {ι : Type} {s s' : State ι} {i j : ι}

theorem removing_of_free (h : s.mutex = none) : s.removing = false := by
  unfold State.removing
  rw [h]

theorem removing_of_owner (h : s.mutex = some i) (hpc : s.threads i ≠ .setRemove) :
    s.removing = false := by
  unfold State.removing
  rw [h]
  exact decide_eq_false hpc

theorem queue_of_not_removing (h : s.removing = false) : s.queue = s.sq := by
  unfold State.queue
  rw [List.filter_eq_self]
  intro j _
  rw [h]
  simp

theorem mem_sq_of_mem_queue (h : j ∈ s.queue) : j ∈ s.sq := (List.mem_filter.mp h).1

theorem queue_congr (hsq : s'.sq = s.sq) (hremoving : s'.removing = s.removing)
    (hgpr3 : ∀ j ∈ s.sq, s'.gpr3 j = s.gpr3 j) : s'.queue = s.queue := by
  unfold State.queue
  rw [hsq, hremoving]
  apply List.filter_congr
  intro j hj
  rw [hgpr3 j hj]

end Queue

section Congr

variable {ι : Type} {c : Config} {prio : ι → Int} {s s' : State ι} {i : ι} {pc : Pc}

theorem offer_congr {waits waits' : ι → Wait} {order : List ι} {pattern : BitVec 64}
    (h : ∀ j ∈ order, waits' j = waits j) :
    offer waits' order pattern = offer waits order pattern := by
  induction order generalizing pattern with
  | nil => rfl
  | cons it rest ih =>
      have hrest : ∀ j ∈ rest, waits' j = waits j := fun j hj => h j (List.mem_cons_of_mem _ hj)
      unfold offer
      rw [h it List.mem_cons_self]
      split
      · exact ih hrest
      · rw [ih hrest]

theorem mem_schedulingOrder [DecidableEq ι] {sq : List ι} {j : ι} :
    j ∈ schedulingOrder prio c.protocol sq.length sq ↔ j ∈ sq :=
  (schedulingOrder_perm rfl).mem_iff

theorem State.Snapshot.congr {pattern : BitVec 64} (h : s.Snapshot pattern)
    (hpattern : Within s'.pattern s.pattern) (hsq : s'.sq = s.sq)
    (hwaits : ∀ j ∈ s.sq, s'.waits j = s.waits j) : s'.Snapshot pattern where
  within := hpattern.trans h.within
  unsatisfied j hj := by
    rw [hsq] at hj
    rw [hwaits j hj]
    exact h.unsatisfied j hj

-- What the owner knows does not change when others take bits away.
theorem State.Owner.congr [DecidableEq ι] (h : s.Owner c i pc) (hpattern : Within s'.pattern s.pattern)
    (hsq : s'.sq = s.sq) (hwaits : ∀ j ∈ s.sq, s'.waits j = s.waits j)
    (hgpr3 : ∀ j ∈ s.sq, s'.gpr3 j = s.gpr3 j) (hi : s'.waits i = s.waits i) : s'.Owner c i pc := by
  have hfresh : s.Fresh → s'.Fresh := by
    intro hf j hj
    rw [hsq] at hj
    rw [hgpr3 j hj]
    exact hf j hj
  cases pc with
  | waitEmplace timeout =>
      refine ⟨hfresh h.1, ?_⟩
      rw [hi]
      exact checkPattern_mono h.2 hpattern
  | setEvaluate bitptn pattern => exact State.Snapshot.congr h hpattern hsq hwaits
  | setCommit bitptn pattern toWrite dependantMask count =>
      obtain ⟨hsnap, prio, woken, hev⟩ := h
      refine ⟨hsnap.congr hpattern hsq hwaits, prio, woken, ?_, ?_, hev.count, ?_⟩
      · rw [hsq, offer_congr, hev.offer]
        intro j hj
        exact hwaits j (mem_schedulingOrder.mp hj)
      · intro j hj
        have hmem : j ∈ s.sq := by
          apply mem_schedulingOrder.mp
          apply offer_mem
          rw [hev.offer]
          exact hj
        rw [hwaits j hmem]
        exact hev.mask j hj
      · intro j hj
        rw [hsq] at hj
        rw [hgpr3 j hj]
        exact hev.ok j hj
  | setRemove => trivial
  | _ => exact hfresh h

end Congr

section Outside

variable {ι : Type} [DecidableEq ι] {c : Config} {s s' : State ι} {i : ι} {pc : Pc}

-- A step of a thread that is not inside the mutex: it may take bits away.
structure Outside (s s' : State ι) (i : ι) (pc : Pc) : Prop where
  before : (s.threads i).holds = false
  after : pc.holds = false
  threads : s'.threads = Function.update s.threads i pc
  sq : s'.sq = s.sq
  mutex : s'.mutex = s.mutex
  pattern : Within s'.pattern s.pattern
  waits : ∀ j, j ≠ i → s'.waits j = s.waits j
  gpr3 : ∀ j, j ≠ i → s'.gpr3 j = s.gpr3 j
  queued : i ∈ s.sq → pc.asleep = true ∧ s'.waits i = s.waits i ∧ s'.gpr3 i = s.gpr3 i
  calling : pc.calling = true → s'.gpr3 i ≠ some .ok

namespace Outside

theorem waits_of_mem (h : Outside s s' i pc) {j : ι} (hj : j ∈ s.sq) : s'.waits j = s.waits j := by
  by_cases hji : j = i
  · subst hji
    exact (h.queued hj).2.1
  · exact h.waits j hji

theorem gpr3_of_mem (h : Outside s s' i pc) {j : ι} (hj : j ∈ s.sq) : s'.gpr3 j = s.gpr3 j := by
  by_cases hji : j = i
  · subst hji
    exact (h.queued hj).2.2
  · exact h.gpr3 j hji

theorem removing (h : Outside s s' i pc) (hinv : Invariant c s) : s'.removing = s.removing := by
  unfold State.removing
  rw [h.mutex]
  cases hm : s.mutex with
  | none => rfl
  | some j =>
      have hne := hinv.exclusive.ne_of_not_holds h.before hm
      simp only [h.threads, Function.update_of_ne hne]

theorem queue (h : Outside s s' i pc) (hinv : Invariant c s) : s'.queue = s.queue :=
  queue_congr h.sq (h.removing hinv) fun _ hj => h.gpr3_of_mem hj

theorem invariant (h : Outside s s' i pc) (hinv : Invariant c s) : Invariant c s' where
  exclusive := by
    rw [h.threads, h.mutex]
    exact hinv.exclusive.outside h.before h.after
  nodup := by
    rw [h.sq]
    exact hinv.nodup
  asleep j hj := by
    rw [h.sq] at hj
    rw [h.threads]
    by_cases hji : j = i
    · subst hji
      rw [Function.update_self]
      exact (h.queued hj).1
    · rw [Function.update_of_ne hji]
      exact hinv.asleep j hj
  calling j := by
    rw [h.threads]
    by_cases hji : j = i
    · subst hji
      rw [Function.update_self]
      exact h.calling
    · rw [Function.update_of_ne hji, h.gpr3 j hji]
      exact hinv.calling j
  unsatisfied j hj := by
    rw [h.queue hinv] at hj
    rw [h.waits_of_mem (mem_sq_of_mem_queue hj)]
    exact checkPattern_mono (hinv.unsatisfied j hj) h.pattern
  free hm j hj := by
    rw [h.mutex] at hm
    rw [h.sq] at hj
    rw [h.gpr3_of_mem hj]
    exact hinv.free hm j hj
  owner k hk := by
    rw [h.mutex] at hk
    have hne := hinv.exclusive.ne_of_not_holds h.before hk
    rw [h.threads, Function.update_of_ne hne]
    exact (hinv.owner k hk).congr h.pattern h.sq (fun j hj => h.waits_of_mem hj)
      (fun j hj => h.gpr3_of_mem hj) (h.waits k hne)

-- For the atomic flag only this thread moves.
theorem abstract (h : Outside s s' i pc) (hinv : Invariant c s) :
    s'.abstract = { s.abstract.enter i (s'.phase i) with
      pattern := s'.pattern
      waits := s'.waits } := by
  refine Atomic.ext_fields rfl (h.queue hinv) ?_ rfl
  intro j
  change s'.phase j = Function.update s.phase i (s'.phase i) j
  by_cases hji : j = i
  · rw [hji, Function.update_self]
  · rw [Function.update_of_ne hji]
    unfold State.phase
    rw [h.threads, Function.update_of_ne hji, h.waits j hji, h.gpr3 j hji, h.queue hinv]

end Outside

end Outside

section Inside

variable {ι : Type} [DecidableEq ι] {c : Config} {s s' : State ι} {i : ι}

-- A step of the thread that takes the mutex, has it or gives it back.
theorem Invariant.inside (h : Invariant c s) (pc : Pc) (hmine : s.mutex = none ∨ s.mutex = some i)
    (hthreads : s'.threads = Function.update s.threads i pc)
    (hmutex : s'.mutex = if pc.holds then some i else none) (hnodup : s'.sq.Nodup)
    (hothers : ∀ j ∈ s'.sq, j ≠ i → j ∈ s.sq) (hself : i ∈ s'.sq → pc.asleep = true)
    (hgpr3 : ∀ j, j ∉ s.sq → s'.gpr3 j = s.gpr3 j)
    (hcalling : pc.calling = true → s.gpr3 i ≠ some .ok ∧ i ∉ s.sq)
    (hunsatisfied : ∀ j ∈ s'.queue, checkPattern s'.pattern (s'.waits j) = none)
    (hfree : pc.holds = false → s'.Fresh) (howner : pc.holds = true → s'.Owner c i pc) :
    Invariant c s' where
  exclusive := by
    rw [hthreads, hmutex]
    exact h.exclusive.owner hmine
  nodup := hnodup
  asleep j hj := by
    rw [hthreads]
    by_cases hji : j = i
    · subst hji
      rw [Function.update_self]
      exact hself hj
    · rw [Function.update_of_ne hji]
      exact h.asleep j (hothers j hj hji)
  calling j := by
    rw [hthreads]
    by_cases hji : j = i
    · subst hji
      rw [Function.update_self]
      intro hpc
      rw [hgpr3 j (hcalling hpc).2]
      exact (hcalling hpc).1
    · rw [Function.update_of_ne hji]
      intro hpc
      rw [hgpr3 j (h.not_mem (Pc.not_asleep_of_calling hpc))]
      exact h.calling j hpc
  unsatisfied := hunsatisfied
  free hm := by
    apply hfree
    cases hpc : pc.holds with
    | false => rfl
    | true =>
        rw [hmutex, hpc] at hm
        cases hm
  owner k hk := by
    rw [hmutex] at hk
    cases hpc : pc.holds with
    | false =>
        rw [hpc] at hk
        cases hk
    | true =>
        rw [hpc, if_pos rfl] at hk
        cases hk
        rw [hthreads, Function.update_self]
        exact howner hpc

end Inside

end Rpcsx.Lv2.EventFlag
