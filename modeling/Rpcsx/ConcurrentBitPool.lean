import Mathlib.Data.List.Basic
import Mathlib.Data.List.Nodup
import Mathlib.Logic.Function.Basic
import Rpcsx.Data.Interleaving

namespace Rpcsx.ConcurrentBitPool

open Data.Interleaving

-- pickBitSetBaseType: one word of 8, 16 or 32 bits, or words of 64 bits.
def wordWidth (count : Nat) : Nat :=
  if count ≤ 8 then 8 else if count ≤ 16 then 16 else if count ≤ 32 then 32 else 64

def wordCount (count : Nat) : Nat := if count ≤ 32 then 1 else (count + 63) / 64

section Words

variable {width : Nat}

-- std::countr_one
def countrOne (word : BitVec width) : Nat :=
  (List.range width).findIdx fun i => !word.getLsbD i

theorem countrOne_le (word : BitVec width) : countrOne word ≤ width := by
  have h : countrOne word ≤ (List.range width).length := List.findIdx_le_length
  simpa using h

theorem getLsbD_countrOne {word : BitVec width} (h : countrOne word < width) :
    word.getLsbD (countrOne word) = false := by
  have hlt : (List.range width).findIdx (fun i => !word.getLsbD i) < (List.range width).length := by
    simpa [countrOne] using h
  have hf := List.findIdx_getElem (w := hlt)
  simpa [countrOne] using hf

theorem getLsbD_lt_countrOne {word : BitVec width} {i : Nat} (h : i < countrOne word) :
    word.getLsbD i = true := by
  have hn := List.not_of_lt_findIdx h
  simpa [List.getElem_range] using hn

-- static_cast<WordType>(1) << bitIndex
def pattern (width index : Nat) : BitVec width := .twoPow width index

theorem getLsbD_pattern {index : Nat} (h : index < width) (i : Nat) :
    (pattern width index).getLsbD i = decide (i = index) := by
  rw [pattern, BitVec.getLsbD_twoPow]
  by_cases hi : i = index
  · subst hi
    simp [h]
  · simp [hi, Ne.symm hi]

end Words

-- Where a thread is in `acquire` or `release`, with what it has read of the word.
inductive Pc (width : Nat) where
  | idle
  | scan (node : Nat)
  | found (node : Nat) (mask : BitVec width)
  | releasing (index : Nat) (mask : BitVec width)

structure Thread (width : Nat) where
  pc : Pc width := .idle
  -- The indices that `acquire` has returned and `release` was not called with since.
  held : List Nat := []

structure State (ι : Type) (width : Nat) where
  storage : Nat → BitVec width := fun _ => 0
  threads : ι → Thread width := fun _ => {}

variable {ι : Type} [DecidableEq ι] {width : Nat}

namespace State

def setThread (s : State ι width) (i : ι) (t : Thread width) : State ι width :=
  { s with threads := Function.update s.threads i t }

def setWord (s : State ι width) (node : Nat) (word : BitVec width) : State ι width :=
  { s with storage := Function.update s.storage node word }

end State

-- The loop over the words begins again behind the last one.
def nextNode (words node : Nat) : Nat := if node + 1 < words then node + 1 else 0

inductive Step (words : Nat) : State ι width → State ι width → Prop where
  | acquire (s : State ι width) (i : ι) : (s.threads i).pc = .idle →
      Step words s (s.setThread i { s.threads i with pc := .scan 0 })
  | load_full (s : State ι width) (i : ι) (node : Nat) : (s.threads i).pc = .scan node →
      countrOne (s.storage node) ≥ width →
      Step words s (s.setThread i { s.threads i with pc := .scan (nextNode words node) })
  | load (s : State ι width) (i : ι) (node : Nat) : (s.threads i).pc = .scan node →
      countrOne (s.storage node) < width →
      Step words s (s.setThread i { s.threads i with pc := .found node (s.storage node) })
  -- A failed exchange goes on with the next word.
  | lose (s : State ι width) (i : ι) (node : Nat) (mask : BitVec width) :
      (s.threads i).pc = .found node mask → s.storage node ≠ mask →
      Step words s (s.setThread i { s.threads i with pc := .scan (nextNode words node) })
  | take (s : State ι width) (i : ι) (node : Nat) (mask : BitVec width) :
      (s.threads i).pc = .found node mask → s.storage node = mask →
      Step words s ((s.setWord node (mask ||| pattern width (countrOne mask))).setThread i
        ⟨.idle, (width * node + countrOne mask) :: (s.threads i).held⟩)
  | release (s : State ι width) (i : ι) (index : Nat) : (s.threads i).pc = .idle →
      index ∈ (s.threads i).held →
      Step words s (s.setThread i
        ⟨.releasing index (pattern width (index % width)), (s.threads i).held.erase index⟩)
  -- The weak exchange may fail also where the word is what was expected.
  | reload (s : State ι width) (i : ι) (index : Nat) (mask : BitVec width) :
      (s.threads i).pc = .releasing index mask →
      Step words s (s.setThread i
        { s.threads i with pc := .releasing index (s.storage (index / width)) })
  | clear (s : State ι width) (i : ι) (index : Nat) (mask : BitVec width) :
      (s.threads i).pc = .releasing index mask → s.storage (index / width) = mask →
      Step words s ((s.setWord (index / width) (mask &&& ~~~pattern width (index % width))).setThread
        i { s.threads i with pc := .idle })

section Invariant

-- A thread owns what it holds and what it is about to give back.
def Thread.Owns (t : Thread width) (index : Nat) : Prop :=
  index ∈ t.held ∨ ∃ mask, t.pc = .releasing index mask

def State.marked (s : State ι width) (index : Nat) : Bool :=
  (s.storage (index / width)).getLsbD (index % width)

structure Thread.WellFormed (words : Nat) (t : Thread width) : Prop where
  nodup : t.held.Nodup
  away : ∀ index mask, t.pc = .releasing index mask → index ∉ t.held
  scan_lt : ∀ node, t.pc = .scan node → node < words
  found_lt : ∀ node mask, t.pc = .found node mask → node < words ∧ countrOne mask < width

structure Invariant (words : Nat) (s : State ι width) : Prop where
  marked : ∀ i index, (s.threads i).Owns index → index < width * words ∧ s.marked index = true
  unique : ∀ i k index, (s.threads i).Owns index → (s.threads k).Owns index → i = k
  wellFormed : ∀ i, (s.threads i).WellFormed words

@[simp] theorem threads_setThread (s : State ι width) (i : ι) (t : Thread width) :
    (s.setThread i t).threads = Function.update s.threads i t := rfl

@[simp] theorem marked_setThread (s : State ι width) (i : ι) (t : Thread width) (index : Nat) :
    (s.setThread i t).marked index = s.marked index := rfl

omit [DecidableEq ι] in
theorem marked_setWord (s : State ι width) (node : Nat) (word : BitVec width) (index : Nat) :
    (s.setWord node word).marked index =
      if index / width = node then word.getLsbD (index % width) else s.marked index := by
  rw [State.marked]
  by_cases h : index / width = node
  · rw [if_pos h, h, show (s.setWord node word).storage node = word from Function.update_self ..]
  · rw [if_neg h, show (s.setWord node word).storage (index / width) = s.storage (index / width)
      from Function.update_of_ne h .., State.marked]

variable {words : Nat} {s : State ι width}

theorem forall_update {P : Thread width → Prop} {threads : ι → Thread width} {i : ι}
    {t : Thread width} (ht : P t) (h : ∀ k, P (threads k)) (k : ι) :
    P (Function.update threads i t k) := by
  by_cases hk : k = i
  · rw [hk, Function.update_self]
    exact ht
  · rw [Function.update_of_ne hk]
    exact h k

-- A step of one thread that leaves the words and gains it nothing.
theorem Invariant.setThread (h : Invariant words s) (i : ι) {t : Thread width}
    (howns : ∀ index, t.Owns index → (s.threads i).Owns index) (ht : t.WellFormed words) :
    Invariant words (s.setThread i t) := by
  have hold (k : ι) (index : Nat) (ho : (Function.update s.threads i t k).Owns index) :
      (s.threads k).Owns index := by
    by_cases hk : k = i
    · rw [hk, Function.update_self] at ho
      exact hk ▸ howns index ho
    · rwa [Function.update_of_ne hk] at ho
  exact ⟨fun k index ho => h.marked k index (hold k index ho),
    fun k l index ho ho' => h.unique k l index (hold k index ho) (hold l index ho'),
    forall_update ht h.wellFormed⟩

-- A change of a word that keeps what is owned.
omit [DecidableEq ι] in
theorem Invariant.setWord (h : Invariant words s) {node : Nat} {word : BitVec width}
    (hkeep : ∀ i index, (s.threads i).Owns index → index / width = node →
      word.getLsbD (index % width) = true) : Invariant words (s.setWord node word) := by
  refine ⟨fun i index ho => ⟨(h.marked i index ho).1, ?_⟩, h.unique, h.wellFormed⟩
  rw [marked_setWord]
  by_cases hn : index / width = node
  · rw [if_pos hn]
    exact hkeep i index ho hn
  · rw [if_neg hn]
    exact (h.marked i index ho).2

theorem div_index {node bit : Nat} (h : bit < width) : (width * node + bit) / width = node := by
  rw [Nat.mul_add_div (by omega), Nat.div_eq_of_lt h, Nat.add_zero]

theorem mod_index {node bit : Nat} (h : bit < width) : (width * node + bit) % width = bit := by
  rw [Nat.mul_add_mod, Nat.mod_eq_of_lt h]

-- An index that nobody owns goes to one thread.
theorem Invariant.acquired (h : Invariant words s) (i : ι) {index : Nat}
    (hlt : index < width * words) (hmarked : s.marked index = true)
    (hfree : ∀ k, ¬(s.threads k).Owns index) :
    Invariant words (s.setThread i ⟨.idle, index :: (s.threads i).held⟩) := by
  have hnew (k : ι) (j : Nat)
      (ho : (Function.update s.threads i ⟨.idle, index :: (s.threads i).held⟩ k).Owns j) :
      (k = i ∧ j = index) ∨ (s.threads k).Owns j := by
    by_cases hk : k = i
    · rw [hk, Function.update_self] at ho
      rcases ho with hmem | ⟨mask, hpc⟩
      · rcases List.mem_cons.mp hmem with rfl | hmem
        · exact Or.inl ⟨hk, rfl⟩
        · exact Or.inr (Or.inl (hk ▸ hmem))
      · cases hpc
    · rw [Function.update_of_ne hk] at ho
      exact Or.inr ho
  refine ⟨fun k j ho => ?_, fun k l j ho ho' => ?_, forall_update ?_ h.wellFormed⟩
  · rcases hnew k j ho with ⟨-, rfl⟩ | ho
    · exact ⟨hlt, hmarked⟩
    · exact h.marked k j ho
  · rcases hnew k j ho with ⟨hk, hj⟩ | hold
    · rcases hnew l j ho' with ⟨hl, -⟩ | hold'
      · rw [hk, hl]
      · exact absurd (hj ▸ hold') (hfree l)
    · rcases hnew l j ho' with ⟨-, hj⟩ | hold'
      · exact absurd (hj ▸ hold) (hfree k)
      · exact h.unique k l j hold hold'
  · refine ⟨List.nodup_cons.mpr ⟨fun hmem => hfree i (Or.inl hmem), (h.wellFormed i).nodup⟩,
      nofun, nofun, nofun⟩

-- The bit that an exchange of `acquire` sets belongs to nobody.
theorem Invariant.take (h : Invariant words s) (i : ι) {node : Nat} {mask : BitVec width}
    (hpc : (s.threads i).pc = .found node mask) (hword : s.storage node = mask) :
    Invariant words ((s.setWord node (mask ||| pattern width (countrOne mask))).setThread i
      ⟨.idle, (width * node + countrOne mask) :: (s.threads i).held⟩) := by
  obtain ⟨hnode, hfree⟩ := (h.wellFormed i).found_lt node mask hpc
  have hunowned (k : ι) : ¬(s.threads k).Owns (width * node + countrOne mask) := by
    intro ho
    have hm := (h.marked k _ ho).2
    rw [State.marked, div_index hfree, mod_index hfree, hword, getLsbD_countrOne hfree] at hm
    cases hm
  have hkeep : Invariant words (s.setWord node (mask ||| pattern width (countrOne mask))) := by
    refine h.setWord fun k index ho hn => ?_
    have hm := (h.marked k index ho).2
    rw [State.marked, hn, hword] at hm
    rw [BitVec.getLsbD_or, hm, Bool.true_or]
  have hself : (s.setWord node (mask ||| pattern width (countrOne mask))).marked
      (width * node + countrOne mask) = true := by
    rw [marked_setWord, div_index hfree, if_pos rfl, mod_index hfree, BitVec.getLsbD_or,
      getLsbD_pattern hfree, decide_eq_true rfl, Bool.or_true]
  have hlt : width * node + countrOne mask < width * words := by
    have := Nat.mul_le_mul_left width (show node + 1 ≤ words by omega)
    rw [Nat.mul_add] at this
    omega
  exact hkeep.acquired i hlt hself hunowned

-- The bit of an index that its only owner is giving back is cleared.
theorem Invariant.clear (hwidth : 0 < width) (h : Invariant words s) (i : ι) {index : Nat}
    {mask : BitVec width} (hpc : (s.threads i).pc = .releasing index mask)
    (hword : s.storage (index / width) = mask) :
    Invariant words ((s.setWord (index / width)
      (mask &&& ~~~pattern width (index % width))).setThread i
        { s.threads i with pc := .idle }) := by
  have hlocal := h.wellFormed i
  have hdone : Invariant words (s.setThread i { s.threads i with pc := .idle }) := by
    refine h.setThread i (fun j ho => ?_) ⟨hlocal.nodup, nofun, nofun, nofun⟩
    rcases ho with hmem | ⟨mask, hidle⟩
    · exact Or.inl hmem
    · cases hidle
  have hgone (k : ι) :
      ¬((s.setThread i { s.threads i with pc := .idle }).threads k).Owns index := by
    rw [threads_setThread]
    by_cases hk : k = i
    · rw [hk, Function.update_self]
      rintro (hmem | ⟨mask, hidle⟩)
      · exact hlocal.away index mask hpc hmem
      · cases hidle
    · rw [Function.update_of_ne hk]
      exact fun ho => hk (h.unique k i index ho (Or.inr ⟨mask, hpc⟩))
  refine hdone.setWord fun k j ho hn => ?_
  have hm := (hdone.marked k j ho).2
  rw [marked_setThread, State.marked, hn, hword] at hm
  have hlt : j % width < width := Nat.mod_lt _ hwidth
  have hne : j % width ≠ index % width := by
    intro he
    have hj : j = index := by rw [← Nat.div_add_mod j width, hn, he, Nat.div_add_mod]
    exact hgone k (hj ▸ ho)
  rw [BitVec.getLsbD_and, hm, BitVec.getLsbD_not, getLsbD_pattern (Nat.mod_lt _ hwidth),
    decide_eq_true hlt, decide_eq_false hne]
  rfl

theorem nextNode_lt (hwords : 0 < words) (node : Nat) : nextNode words node < words := by
  rw [nextNode]
  split
  · assumption
  · exact hwords

-- A step between two places of `acquire`.
theorem Invariant.scanned (h : Invariant words s) (i : ι) {pc : Pc width}
    (hpc : ∀ index mask, pc ≠ .releasing index mask) (hscan : ∀ node, pc = .scan node → node < words)
    (hfound : ∀ node mask, pc = .found node mask → node < words ∧ countrOne mask < width) :
    Invariant words (s.setThread i { s.threads i with pc }) := by
  refine h.setThread i (fun index ho => ?_)
    ⟨(h.wellFormed i).nodup, fun index mask hr => absurd hr (hpc index mask), hscan, hfound⟩
  rcases ho with hmem | ⟨mask, hr⟩
  · exact Or.inl hmem
  · exact absurd hr (hpc index mask)

theorem Invariant.step (hwidth : 0 < width) (hwords : 0 < words) (h : Invariant words s)
    {s' : State ι width} (hstep : Step words s s') : Invariant words s' := by
  cases hstep with
  | acquire i hpc =>
      refine h.scanned i nofun (fun node hn => ?_) nofun
      cases hn
      exact hwords
  | load_full i node hpc hfull =>
      refine h.scanned i nofun (fun next hn => ?_) nofun
      cases hn
      exact nextNode_lt hwords node
  | load i node hpc hlt =>
      refine h.scanned i nofun nofun fun next mask hn => ?_
      cases hn
      exact ⟨(h.wellFormed i).scan_lt node hpc, hlt⟩
  | lose i node mask hpc hne =>
      refine h.scanned i nofun (fun next hn => ?_) nofun
      cases hn
      exact nextNode_lt hwords node
  | take i node mask hpc hword => exact h.take i hpc hword
  | release i index hpc hmem =>
      have hlocal := h.wellFormed i
      refine h.setThread i (fun j ho => ?_) ⟨hlocal.nodup.erase index, fun j mask hr => ?_, nofun,
        nofun⟩
      · rcases ho with hmem' | ⟨mask, hr⟩
        · exact Or.inl (List.mem_of_mem_erase hmem')
        · cases hr
          exact Or.inl hmem
      · cases hr
        exact hlocal.nodup.not_mem_erase
  | reload i index mask hpc =>
      have hlocal := h.wellFormed i
      refine h.setThread i (fun j ho => ?_) ⟨hlocal.nodup, fun j mask' hr => ?_, nofun, nofun⟩
      · rcases ho with hmem | ⟨mask', hr⟩
        · exact Or.inl hmem
        · cases hr
          exact Or.inr ⟨mask, hpc⟩
      · cases hr
        exact hlocal.away index mask hpc
  | clear i index mask hpc hword => exact h.clear hwidth i hpc hword

omit [DecidableEq ι] in
theorem initial_invariant : Invariant words ({} : State ι width) := by
  refine ⟨fun i index ho => ?_, fun i k index ho => ?_, fun i => ⟨List.nodup_nil, nofun, nofun,
    nofun⟩⟩
  · rcases ho with hmem | ⟨mask, hr⟩
    · cases hmem
    · cases hr
  · rcases ho with hmem | ⟨mask, hr⟩
    · cases hmem
    · cases hr

theorem reachable_invariant (hwidth : 0 < width) (hwords : 0 < words)
    (h : Relation.ReflTransGen (Step words) ({} : State ι width) s) : Invariant words s :=
  invariant_of_reachable initial_invariant (fun _ _ hinv hstep => hinv.step hwidth hwords hstep) h

end Invariant

section Exhaustion

variable {words : Nat} {s : State ι width}

-- The bits below k are set, and no others.
def Filled (words k : Nat) (s : State ι width) : Prop :=
  ∀ index, index < width * words → s.marked index = decide (index < k)

omit [DecidableEq ι] in
theorem Filled.bit {k : Nat} (h : Filled words k s) {node bit : Nat} (hnode : node < words)
    (hbit : bit < width) : (s.storage node).getLsbD bit = decide (width * node + bit < k) := by
  have hlt : width * node + bit < width * words := by
    have := Nat.mul_le_mul_left width (show node + 1 ≤ words by omega)
    rw [Nat.mul_add] at this
    omega
  have hm := h (width * node + bit) hlt
  rwa [State.marked, div_index hbit, mod_index hbit] at hm

-- Full words are passed until the first one with a clear bit.
theorem scan_run (i : ι) {k : Nat} (hk : k < width * words)
    (hfilled : Filled words k s) {node : Nat} (hpc : (s.threads i).pc = .scan node)
    (hle : node ≤ k / width) :
    ∃ s', Relation.ReflTransGen (Step words) s s' ∧ Filled words k s' ∧
      (s'.threads i).pc = .scan (k / width) := by
  have hlast : k / width < words := Nat.div_lt_of_lt_mul hk
  obtain ⟨rest, hrest⟩ := Nat.exists_eq_add_of_le hle
  induction rest generalizing s node with
  | zero => exact ⟨s, .refl, hfilled, by rw [hrest, Nat.add_zero]; exact hpc⟩
  | succ rest ih =>
      have hfull : countrOne (s.storage node) ≥ width := by
        by_contra hlt
        have hbit := getLsbD_countrOne (not_le.mp hlt)
        rw [hfilled.bit (by omega) (not_le.mp hlt), decide_eq_false_iff_not] at hbit
        have hmul := Nat.mul_le_mul_left width (show node + 1 ≤ k / width by omega)
        have := Nat.mul_div_le k width
        rw [Nat.mul_add] at hmul
        omega
      have hnext : nextNode words node = node + 1 := by
        rw [nextNode, if_pos (by omega)]
      have hstep : Step words s (s.setThread i
          { s.threads i with pc := .scan (nextNode words node) }) := .load_full s i node hpc hfull
      rw [hnext] at hstep
      have hpc' : ((s.setThread i { s.threads i with pc := .scan (node + 1) }).threads i).pc =
          .scan (node + 1) := by rw [threads_setThread, Function.update_self]
      have hfilled' : Filled words k (s.setThread i { s.threads i with pc := .scan (node + 1) }) :=
        hfilled
      obtain ⟨s', hrun, hdone⟩ := ih hfilled' hpc' (by omega) (by omega)
      exact ⟨s', .head hstep hrun, hdone⟩

omit [DecidableEq ι] in
theorem Filled.countrOne_eq (hwidth : 0 < width) {k : Nat} (h : Filled words k s)
    (hk : k < width * words) : countrOne (s.storage (k / width)) = k % width := by
  have hlast : k / width < words := Nat.div_lt_of_lt_mul hk
  have hmod := Nat.mod_lt k hwidth
  have hdiv := Nat.div_add_mod k width
  rcases Nat.lt_trichotomy (countrOne (s.storage (k / width))) (k % width) with hlt | heq | hgt
  · have hbit := getLsbD_countrOne (Nat.lt_trans hlt hmod)
    rw [h.bit hlast (Nat.lt_trans hlt hmod), decide_eq_false_iff_not] at hbit
    omega
  · exact heq
  · have hbit := getLsbD_lt_countrOne hgt
    rw [h.bit hlast hmod, decide_eq_true_iff] at hbit
    omega

-- A thread that is alone takes the first clear bit.
theorem acquire_run (hwidth : 0 < width) (i : ι) {k : Nat} (hk : k < width * words)
    (hfilled : Filled words k s) (hidle : (s.threads i).pc = .idle) :
    ∃ s', Relation.ReflTransGen (Step words) s s' ∧ Filled words (k + 1) s' ∧
      (s'.threads i).pc = .idle ∧ k ∈ (s'.threads i).held := by
  have hmod := Nat.mod_lt k hwidth
  have hdiv := Nat.div_add_mod k width
  have hstart : Step words s (s.setThread i { s.threads i with pc := .scan 0 }) :=
    .acquire s i hidle
  have hpc₀ : ((s.setThread i { s.threads i with pc := .scan 0 }).threads i).pc = .scan 0 := by
    rw [threads_setThread, Function.update_self]
  have hfilled₀ : Filled words k (s.setThread i { s.threads i with pc := .scan 0 }) := hfilled
  obtain ⟨s₁, hscan, hfilled₁, hpc₁⟩ := scan_run i hk hfilled₀ hpc₀ (Nat.zero_le _)
  have hfirst := hfilled₁.countrOne_eq hwidth hk
  have hload : Step words s₁ (s₁.setThread i
      { s₁.threads i with pc := .found (k / width) (s₁.storage (k / width)) }) :=
    .load s₁ i (k / width) hpc₁ (by omega)
  have hpc₂ : ((s₁.setThread i
      { s₁.threads i with pc := .found (k / width) (s₁.storage (k / width)) }).threads i).pc =
      .found (k / width) (s₁.storage (k / width)) := by rw [threads_setThread, Function.update_self]
  have htake : Step words _ _ := .take _ i (k / width) (s₁.storage (k / width)) hpc₂ rfl
  rw [hfirst, hdiv] at htake
  refine ⟨_, .tail (.tail (.head hstart hscan) hload) htake, fun index hindex => ?_, ?_, ?_⟩
  · rw [marked_setThread, marked_setWord]
    by_cases hn : index / width = k / width
    · rw [if_pos hn, BitVec.getLsbD_or, getLsbD_pattern hmod, ← hn,
        show (s₁.storage (index / width)).getLsbD (index % width) = s₁.marked index from rfl,
        hfilled₁ index hindex]
      have hindexDiv := Nat.div_add_mod index width
      rw [hn] at hindexDiv
      by_cases he : index % width = k % width
      · rw [decide_eq_true he, Bool.or_true, decide_eq_true (by omega)]
      · rw [decide_eq_false he, Bool.or_false, decide_eq_decide]
        omega
    · rw [if_neg hn, marked_setThread, hfilled₁ index hindex, decide_eq_decide]
      have hne : index ≠ k := fun he => hn (by rw [he])
      omega
  · rw [threads_setThread, Function.update_self]
  · rw [threads_setThread, Function.update_self]
    exact List.mem_cons_self

theorem exhausted (hwidth : 0 < width) (i : ι) {k : Nat} (hk : k ≤ width * words) :
    ∃ s : State ι width, Relation.ReflTransGen (Step words) {} s ∧ Filled words k s ∧
      (s.threads i).pc = .idle := by
  induction k with
  | zero =>
      refine ⟨{}, .refl, fun index _ => ?_, rfl⟩
      exact BitVec.getLsbD_zero
  | succ k ih =>
      obtain ⟨s, hrun, hfilled, hidle⟩ := ih (by omega)
      obtain ⟨s', hacquire, hfilled', hidle', -⟩ := acquire_run hwidth i (by omega) hfilled hidle
      exact ⟨s', hrun.trans hacquire, hfilled', hidle'⟩

end Exhaustion

-- Every index that a thread has is below the size of the pool, and no two threads have the same.
def Exclusive (count : Nat) (s : State ι width) : Prop :=
  (∀ i, ∀ index ∈ (s.threads i).held, index < count) ∧
    ∀ i k index, index ∈ (s.threads i).held → index ∈ (s.threads k).held → i = k

theorem wordWidth_pos (count : Nat) : 0 < wordWidth count := by
  rw [wordWidth]
  split
  · omega
  · split
    · omega
    · split <;> omega

theorem wordCount_pos (count : Nat) : 0 < wordCount count := by
  rw [wordCount]
  split
  · omega
  · omega

-- The words hold the pool, and no more than the pool where it is made of whole words.
theorem whole_iff {count : Nat} (h : 0 < count) :
    count ≤ wordWidth count * wordCount count ∧
      (wordWidth count * wordCount count ≤ count ↔
        count = 8 ∨ count = 16 ∨ count = 32 ∨ 64 ∣ count) := by
  by_cases hsmall : count ≤ 32
  · have hwidth : wordWidth count = if count ≤ 8 then 8 else if count ≤ 16 then 16 else 32 := by
      rw [wordWidth, if_pos hsmall]
    rw [hwidth, wordCount, if_pos hsmall]
    split
    · omega
    · split
      · omega
      · omega
  · rw [wordWidth, wordCount, if_neg (by omega), if_neg (by omega), if_neg hsmall, if_neg hsmall]
    omega

-- One thread alone is given the first index behind the pool where the words have a bit for it.
theorem exists_index_ge (thread : ι) {count : Nat} (h : 0 < count)
    (hlt : count < wordWidth count * wordCount count) :
    ∃ s : State ι (wordWidth count), Relation.ReflTransGen (Step (wordCount count)) {} s ∧
      count ∈ (s.threads thread).held := by
  have hwidth := wordWidth_pos count
  obtain ⟨s, hrun, hfilled, hidle⟩ := exhausted hwidth thread (whole_iff h).1
  obtain ⟨s', hacquire, -, -, hmem⟩ := acquire_run hwidth thread hlt hfilled hidle
  exact ⟨s', hrun.trans hacquire, hmem⟩

-- In every interleaving of the threads.
def AlwaysExclusive (ι : Type) [DecidableEq ι] (count : Nat) : Prop :=
  ∀ s : State ι (wordWidth count), Relation.ReflTransGen (Step (wordCount count)) {} s →
    Exclusive count s

-- The pool hands out indices below its size in every interleaving exactly when no bits of its
-- last word are left over. That no two threads have the same index does not depend on that.
theorem pool_exclusive_iff (thread : ι) {count : Nat} (h : 0 < count) :
    AlwaysExclusive ι count ↔ count = 8 ∨ count = 16 ∨ count = 32 ∨ 64 ∣ count := by
  rw [← (whole_iff h).2]
  constructor
  · intro hall
    by_contra hlt
    obtain ⟨s, hrun, hmem⟩ := exists_index_ge thread h (not_le.mp hlt)
    exact absurd ((hall s hrun).1 thread count hmem) (lt_irrefl count)
  · intro hle s hrun
    have hinv := reachable_invariant (wordWidth_pos count) (wordCount_pos count) hrun
    exact ⟨fun i index hmem => Nat.lt_of_lt_of_le (hinv.marked i index (Or.inl hmem)).1 hle,
      fun i k index hmem hmem' => hinv.unique i k index (Or.inl hmem) (Or.inl hmem')⟩

theorem pool_exclusive_iff_word : AlwaysExclusive Nat 64 :=
  (pool_exclusive_iff 0 (by omega)).mpr (by omega)

-- A pool of nine has a word of 16 bits: the tenth call gets index 9.
theorem index_nine_of_nine : ¬∀ count : Nat, 0 < count → AlwaysExclusive Nat count := by
  intro hall
  obtain ⟨s, hrun, hmem⟩ := exists_index_ge 0 (show 0 < 9 by omega) (by decide)
  exact absurd ((hall 9 (by omega) s hrun).1 0 9 hmem) (lt_irrefl 9)

theorem held_exclusive (count : Nat) {s : State ι (wordWidth count)}
    (hrun : Relation.ReflTransGen (Step (wordCount count)) {} s) (i k : ι) {index : Nat}
    (hi : index ∈ (s.threads i).held) (hk : index ∈ (s.threads k).held) : i = k :=
  (reachable_invariant (wordWidth_pos count) (wordCount_pos count) hrun).unique i k index (Or.inl hi)
    (Or.inl hk)

end Rpcsx.ConcurrentBitPool
