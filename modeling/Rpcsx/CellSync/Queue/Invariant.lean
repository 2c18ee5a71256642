import Rpcsx.CellSync.Queue
import Rpcsx.Data.Interleaving

namespace Rpcsx.CellSync.Queue

open Data.Interleaving

-- The threads that have set the mark of pushes, and the one of pops.
def Pc.marksPush : Pc → Bool
  | pushing _ _ | pushed | clearing => true
  | _ => false

def Pc.marksPop : Pc → Bool
  | popping _ | popped _ | clear2 | clearing | stopped true => true
  | _ => false

-- In front of the copy into a slot.
def Pc.copies : Pc → Bool
  | pushing _ _ => true
  | _ => false

-- The slot that a pop or peek reads is behind all slots that a push can get; `d` is its distance
-- from the next slot.
def Behind (c : Config) (ctrl : Ctrl) (count position : Nat) : Prop :=
  ∃ d, position = slot c.depth ctrl.next d ∧ (d = count ∨ d = count + 1) ∧ 1 ≤ d ∧ d ≤ c.depth ∧
    (ctrl.push = true → 2 ≤ d)

-- What holds of a thread.
def ThreadOk (c : Config) (ctrl : Ctrl) (memory : Nat → UInt8) (fifo : List (List UInt8))
    (t : Thread) : Prop :=
  match t.pc with
  | .idle (.data copy) | .popped copy => copy = t.answer
  | .idle (.size count) => count ≤ c.depth
  | .begin call _ => call.Fits c.size
  | .pushing position data =>
      data.length = c.size ∧ fifo.getLast? = some data ∧ position = slot c.depth ctrl.next 1
  | .pushed => fifo ≠ []
  | .popping position =>
      read memory (c.offset position) c.size = t.answer ∧ Behind c ctrl fifo.length position
  | .failed => False
  | _ => True

structure Invariant {ι : Type} (c : Config) (s : State ι) (pusher popper : Option ι) : Prop where
  next_lt : s.ctrl.next < c.depth
  count : s.ctrl.count = s.fifo.length
  bounded : s.fifo.length ≤ c.depth
  pushers : Exclusive (fun t => t.pc.marksPush) s.threads pusher
  push : s.ctrl.push = pusher.isSome
  poppers : Exclusive (fun t => t.pc.marksPop) s.threads popper
  pop : s.ctrl.pop = popper.isSome
  contents : ∀ k x, s.fifo[k]? = some x →
    (k + 1 = s.fifo.length → ∀ i, (s.threads i).pc.copies = false) →
    read s.memory (c.offset (slot c.depth s.ctrl.next (s.fifo.length - k))) c.size = x
  threads : ∀ i, ThreadOk c s.ctrl s.memory s.fifo (s.threads i)

-- Only the threads in a push or pop look at the queue.
theorem ThreadOk.change {c : Config} {ctrl ctrl' : Ctrl} {memory memory' : Nat → UInt8}
    {fifo fifo' : List (List UInt8)} {t : Thread} (h : ThreadOk c ctrl memory fifo t)
    (hpushing : ∀ position data, t.pc = .pushing position data → data.length = c.size →
      fifo.getLast? = some data → position = slot c.depth ctrl.next 1 →
      fifo'.getLast? = some data ∧ position = slot c.depth ctrl'.next 1)
    (hpushed : t.pc = .pushed → fifo ≠ [] → fifo' ≠ [])
    (hpopping : ∀ position, t.pc = .popping position → Behind c ctrl fifo.length position →
      read memory' (c.offset position) c.size = read memory (c.offset position) c.size ∧
        Behind c ctrl' fifo'.length position) :
    ThreadOk c ctrl' memory' fifo' t := by
  obtain ⟨pc, answer⟩ := t
  cases pc with
  | idle result => cases result <;> exact h
  | begin call once | popped copy | failed => exact h
  | clear2 | clearing | stopped mark => trivial
  | pushing position data =>
      obtain ⟨hdata, hlast, hposition⟩ := h
      exact ⟨hdata, hpushing position data rfl hdata hlast hposition⟩
  | pushed => exact hpushed rfl h
  | popping position =>
      obtain ⟨hread, hbehind⟩ := h
      obtain ⟨hsame, hbehind'⟩ := hpopping position rfl hbehind
      exact ⟨hsame.trans hread, hbehind'⟩

section Facts

variable {ι : Type} {c : Config} {s : State ι} {pusher popper : Option ι} {i j : ι}

theorem marksPush_of_copies {pc : Pc} (h : pc.copies = true) : pc.marksPush = true := by
  cases pc with
  | pushing position data => rfl
  | _ => cases h

theorem Invariant.pusher_eq (h : Invariant c s pusher popper)
    (hi : (s.threads i).pc.marksPush = true) : pusher = some i := (h.pushers i).mp hi

theorem Invariant.popper_eq (h : Invariant c s pusher popper)
    (hi : (s.threads i).pc.marksPop = true) : popper = some i := (h.poppers i).mp hi

theorem Invariant.not_marksPush (h : Invariant c s pusher popper) (hpush : s.ctrl.push = false)
    (i : ι) : (s.threads i).pc.marksPush = false := by
  cases hm : (s.threads i).pc.marksPush with
  | false => rfl
  | true =>
      have hp := h.push
      rw [hpush, h.pusher_eq hm] at hp
      cases hp

theorem Invariant.not_marksPop (h : Invariant c s pusher popper) (hpop : s.ctrl.pop = false)
    (i : ι) : (s.threads i).pc.marksPop = false := by
  cases hm : (s.threads i).pc.marksPop with
  | false => rfl
  | true =>
      have hp := h.pop
      rw [hpop, h.popper_eq hm] at hp
      cases hp

theorem not_copies_of_not_marksPush {pc : Pc} (h : pc.marksPush = false) : pc.copies = false := by
  cases hc : pc.copies with
  | false => rfl
  | true => exact absurd (marksPush_of_copies hc) (by rw [h]; nofun)

theorem Invariant.sound (h : Invariant c s pusher popper) : Sound c s where
  count := h.count
  bounded := h.bounded
  result i copy hpc := by
    have hok := h.threads i
    unfold ThreadOk at hok
    rw [hpc] at hok
    exact hok
  size i count hpc := by
    have hok := h.threads i
    unfold ThreadOk at hok
    rw [hpc] at hok
    exact hok
  disjoint i j position data position' hi hj := by
    have hpush := h.threads i
    have hpop := h.threads j
    unfold ThreadOk at hpush hpop
    rw [hi] at hpush
    rw [hj] at hpop
    obtain ⟨-, -, hposition⟩ := hpush
    obtain ⟨-, d, hposition', -, -, hle, htwo⟩ := hpop
    have howner := h.pusher_eq (by rw [hi]; rfl)
    have hflag : s.ctrl.push = true := by
      rw [h.push, howner]
      rfl
    rw [hposition, hposition']
    exact slot_ne h.next_lt (Nat.le_refl 1) (htwo hflag) hle
  one_push i j position data position' data' hi hj := by
    have howner := h.pusher_eq (by rw [hi]; rfl)
    have howner' := h.pusher_eq (by rw [hj]; rfl)
    exact Option.some.inj (howner.symm.trans howner')
  one_pop i j position position' hi hj := by
    have howner := h.popper_eq (by rw [hi]; rfl)
    have howner' := h.popper_eq (by rw [hj]; rfl)
    exact Option.some.inj (howner.symm.trans howner')
  cleared i hi j position data := by
    constructor
    · intro hj
      have howner := h.pusher_eq (by rw [hi]; rfl)
      have howner' := h.pusher_eq (by rw [hj]; rfl)
      rw [Option.some.inj (howner.symm.trans howner'), hj] at hi
      cases hi
    · intro hj
      have howner := h.popper_eq (by rw [hi]; rfl)
      have howner' := h.popper_eq (by rw [hj]; rfl)
      rw [Option.some.inj (howner.symm.trans howner'), hj] at hi
      cases hi
  no_throw i hi := by
    have hok := h.threads i
    unfold ThreadOk at hok
    rw [hi] at hok
    exact hok

end Facts

section Steps

variable {ι : Type} [DecidableEq ι] {c : Config} {s : State ι} {pusher popper : Option ι} {i j : ι}
  {t : Thread}

-- A thread keeps or does not have a mark.
theorem exclusive_same {holds : Thread → Bool} {threads : ι → Thread} {owner : Option ι}
    (h : Exclusive holds threads owner) (hsame : holds t = holds (threads i)) :
    Exclusive holds (Function.update threads i t) owner := by
  intro j
  rw [← h j]
  by_cases hj : j = i
  · rw [hj, Function.update_self, hsame]
  · rw [Function.update_of_ne hj]

-- A thread takes a mark, and gives it back.
theorem exclusive_take {holds : Thread → Bool} {threads : ι → Thread} {owner : Option ι}
    (h : Exclusive holds threads owner) (hnone : owner = none) (ht : holds t = true) :
    Exclusive holds (Function.update threads i t) (some i) := by
  have howner := h.owner (t := t) (i := i) (Or.inl hnone)
  rw [ht] at howner
  exact howner

theorem exclusive_release {holds : Thread → Bool} {threads : ι → Thread} {owner : Option ι}
    (h : Exclusive holds threads owner) (hmine : owner = some i) (ht : holds t = false) :
    Exclusive holds (Function.update threads i t) none := by
  have howner := h.owner (t := t) (Or.inr hmine)
  rw [ht] at howner
  exact howner

-- Nobody is in front of a copy into a slot, whoever else has moved.
theorem copies_of_update {threads : ι → Thread} (h : ∀ j, (Function.update threads i t j).pc.copies = false)
    (hi : (threads i).pc.copies = false) (j : ι) : (threads j).pc.copies = false := by
  by_cases hj : j = i
  · rw [hj]
    exact hi
  · have hother := h j
    rw [Function.update_of_ne hj] at hother
    exact hother

-- A step of one thread alone.
theorem Invariant.put (h : Invariant c s pusher popper)
    (hpush : t.pc.marksPush = (s.threads i).pc.marksPush)
    (hpop : t.pc.marksPop = (s.threads i).pc.marksPop)
    (hcopies : (s.threads i).pc.copies = false)
    (hok : ThreadOk c s.ctrl s.memory s.fifo t) :
    Invariant c { s with threads := Function.update s.threads i t } pusher popper where
  next_lt := h.next_lt
  count := h.count
  bounded := h.bounded
  pushers := exclusive_same h.pushers hpush
  push := h.push
  poppers := exclusive_same h.poppers hpop
  pop := h.pop
  contents k x hk hlast := h.contents k x hk fun heq => copies_of_update (hlast heq) hcopies
  threads := (Function.forall_update_iff s.threads fun _ t => ThreadOk c s.ctrl s.memory s.fifo t).mpr
    ⟨hok, fun j _ => h.threads j⟩

theorem Invariant.pushBegin (h : Invariant c s pusher popper) (hw : c.Wide) {data : List UInt8}
    {position : Nat} {ctrl : Ctrl} (hbegin : s.ctrl.tryPushBegin c.depth = some (position, ctrl))
    (hidle : (s.threads i).pc.marksPop = false) (hdata : data.length = c.size) :
    Invariant c { s.goto i (.pushing position data) with
      ctrl := ctrl
      fifo := s.fifo ++ [data] } (some i) popper := by
  unfold Ctrl.tryPushBegin at hbegin
  split at hbegin
  · cases hbegin
  · rename_i hguard
    rw [not_or, Bool.not_eq_true, Nat.not_le] at hguard
    obtain ⟨hpush, hroom⟩ := hguard
    injection hbegin with hpair
    injection hpair with hposition hctrl
    have hcount := h.count
    have hdepth := hw.depth_lt
    have hnext : (if s.ctrl.next + 1 ≠ c.depth then s.ctrl.next + 1 else 0) % 2 ^ 24 =
        succ c.depth s.ctrl.next := Nat.mod_eq_of_lt (Nat.lt_trans (succ_lt h.next_lt) hdepth)
    have hmore : (s.ctrl.count + 1) % 2 ^ 24 = s.ctrl.count + 1 := by
      apply Nat.mod_eq_of_lt
      omega
    have hnone := h.not_marksPush hpush
    have howner : pusher = none := by
      have hp := h.push
      rw [hpush] at hp
      cases pusher with
      | none => rfl
      | some k => cases hp
    rw [hnext, hmore] at hctrl
    rw [← hctrl, ← hposition]
    refine ⟨succ_lt h.next_lt, ?_, ?_, ?_, rfl, ?_, h.pop, ?_, ?_⟩
    · dsimp only
      rw [List.length_append, List.length_singleton, hcount]
    · dsimp only
      rw [List.length_append, List.length_singleton]
      omega
    · exact exclusive_take h.pushers howner rfl
    · exact exclusive_same h.poppers hidle.symm
    · intro k x hk hlast
      dsimp only at hk hlast ⊢
      rw [List.length_append, List.length_singleton] at hlast ⊢
      have hlt : k < s.fifo.length := by
        by_contra hge
        obtain ⟨hkl, -⟩ := List.getElem?_eq_some_iff.mp hk
        rw [List.length_append, List.length_singleton] at hkl
        have hmine := hlast (by omega) i
        unfold State.goto at hmine
        dsimp only at hmine
        rw [Function.update_self] at hmine
        cases hmine
      rw [List.getElem?_append_left hlt] at hk
      rw [show s.fifo.length + 1 - k = s.fifo.length - k + 1 by omega,
        slot_succ h.next_lt (by omega) (by omega)]
      exact h.contents k x hk fun _ j => not_copies_of_not_marksPush (hnone j)
    · refine (Function.forall_update_iff s.threads fun _ t => ThreadOk c _ s.memory _ t).mpr
        ⟨⟨hdata, List.getLast?_concat .., (slot_succ_one h.next_lt).symm⟩, fun j _ => ?_⟩
      refine (h.threads j).change ?_ ?_ ?_
      · intro position' data' hpc
        have hother := hnone j
        rw [hpc] at hother
        cases hother
      · intro _ _ hnil
        exact List.append_ne_nil_of_right_ne_nil _ (List.cons_ne_nil _ _) hnil
      · rintro position' hpc ⟨d, hslot, hd, hpos, hle, -⟩
        have hpopping : s.ctrl.pop = true := by
          rw [h.pop, h.popper_eq (by rw [hpc]; rfl)]
          rfl
        rw [hpopping, Bool.toNat_true] at hroom
        refine ⟨rfl, d + 1, ?_, ?_, by omega, by omega, fun _ => by omega⟩
        · rw [slot_succ h.next_lt hpos (by omega)]
          exact hslot
        · rw [List.length_append, List.length_singleton]
          omega

-- The copy of a push goes into the newest slot, which nobody reads.
theorem Invariant.pushCopy (h : Invariant c s pusher popper) (hw : c.Wide) {position : Nat}
    {data : List UInt8} (hi : (s.threads i).pc = .pushing position data) :
    Invariant c { s.goto i .pushed with
      memory := write s.memory (c.offset position) data } pusher popper := by
  have hok := h.threads i
  unfold ThreadOk at hok
  rw [hi] at hok
  obtain ⟨hdata, hlast, hposition⟩ := hok
  have hflag : s.ctrl.push = true := by
    rw [h.push, h.pusher_eq (by rw [hi]; rfl)]
    rfl
  have hone : 1 ≤ c.depth := hw.depth_pos
  have hother : ∀ d, 2 ≤ d → d ≤ c.depth →
      read (write s.memory (c.offset position) data) (c.offset (slot c.depth s.ctrl.next d)) c.size =
        read s.memory (c.offset (slot c.depth s.ctrl.next d)) c.size := by
    intro d htwo hd
    rw [hposition]
    exact hw.read_write_other (slot_lt h.next_lt) (slot_lt h.next_lt)
      (slot_ne h.next_lt (Nat.le_refl 1) htwo hd) hdata
  have hcopying : ∀ j, j ≠ i → (s.threads j).pc.copies = false := by
    intro j hj
    apply not_copies_of_not_marksPush
    exact h.pushers.not_holds_of_ne (Or.inr (h.pusher_eq (by rw [hi]; rfl))) hj
  refine ⟨h.next_lt, h.count, h.bounded, exclusive_same h.pushers (by rw [hi]; rfl), h.push,
    exclusive_same h.poppers (by rw [hi]; rfl), h.pop, ?_, ?_⟩
  · intro k x (hk : s.fifo[k]? = some x) _
    change read (write s.memory (c.offset position) data)
      (c.offset (slot c.depth s.ctrl.next (s.fifo.length - k))) c.size = x
    obtain ⟨hlt, -⟩ := List.getElem?_eq_some_iff.mp hk
    have hbounded := h.bounded
    rcases Nat.lt_or_ge (k + 1) s.fifo.length with hmore | hend
    · rw [hother _ (by omega) (by omega)]
      exact h.contents k x hk fun heq => by omega
    · have hk1 : s.fifo.length - k = 1 := by omega
      have hxdata : x = data := by
        rw [List.getLast?_eq_getElem?, show s.fifo.length - 1 = k by omega, hk] at hlast
        exact Option.some.inj hlast
      rw [hk1, ← hposition, hxdata]
      exact read_write hdata
  · refine (Function.forall_update_iff s.threads fun _ t => ThreadOk c s.ctrl _ s.fifo t).mpr
      ⟨?_, fun j hj => ?_⟩
    · intro hnil
      rw [hnil] at hlast
      cases hlast
    · refine (h.threads j).change ?_ ?_ ?_
      · exact fun _ _ _ _ hlast hposition => ⟨hlast, hposition⟩
      · exact fun _ hne => hne
      · intro position' hpc hbehind
        refine ⟨?_, hbehind⟩
        obtain ⟨d, hslot, -, -, hle, htwo⟩ := hbehind
        rw [hslot]
        exact hother d (htwo hflag) hle

theorem Invariant.pushEnd (h : Invariant c s pusher popper) (hi : (s.threads i).pc = .pushed) :
    Invariant c { s.goto i (.idle .ok) with ctrl := s.ctrl.pushEnd } none popper := by
  have howner := h.pusher_eq (by rw [hi]; rfl)
  refine ⟨h.next_lt, h.count, h.bounded,
    exclusive_release h.pushers howner rfl, rfl,
    exclusive_same h.poppers (by rw [hi]; rfl), h.pop, ?_, ?_⟩
  · intro k x hk hlast
    exact h.contents k x hk fun heq => copies_of_update (hlast heq) (by rw [hi]; rfl)
  · refine (Function.forall_update_iff s.threads fun _ t => ThreadOk c _ s.memory s.fifo t).mpr
      ⟨trivial, fun j _ => (h.threads j).change ?_ ?_ ?_⟩
    · exact fun _ _ _ _ hlast hposition => ⟨hlast, hposition⟩
    · exact fun _ hne => hne
    · rintro position _ ⟨d, hslot, hd, hpos, hle, -⟩
      exact ⟨rfl, d, hslot, hd, hpos, hle, nofun⟩

omit [DecidableEq ι] in
-- The oldest element when a pop or peek can begin, and where it is.
theorem Invariant.oldest (h : Invariant c s pusher popper) (hw : c.Wide)
    (hmore : s.ctrl.push.toNat < s.ctrl.count) :
    s.ctrl.position c.depth % c.depth = slot c.depth s.ctrl.next s.fifo.length ∧
      ∃ x rest, s.fifo = x :: rest ∧ (s.ctrl.push = true → rest ≠ []) ∧
        read s.memory (c.offset (slot c.depth s.ctrl.next s.fifo.length)) c.size = x := by
  have hcount := h.count
  have hbounded := h.bounded
  refine ⟨?_, ?_⟩
  · rw [position_mod h.next_lt (by omega) hw.depth_lt, hcount]
  · cases hfifo : s.fifo with
    | nil =>
        rw [hfifo, List.length_nil] at hcount
        omega
    | cons x rest =>
        have hrest : s.ctrl.push = true → rest ≠ [] := by
          intro hpush hnil
          rw [hpush, hcount, hfifo, hnil] at hmore
          exact absurd hmore (Nat.lt_irrefl 1)
        refine ⟨x, rest, rfl, hrest, ?_⟩
        rw [← hfifo]
        apply h.contents 0 x (by rw [hfifo]; rfl)
        intro hlast j
        apply not_copies_of_not_marksPush
        cases hpush : s.ctrl.push with
        | false => exact h.not_marksPush hpush j
        | true =>
            rw [hfifo, List.length_cons] at hlast
            exact absurd (List.length_eq_zero_iff.mp (by omega)) (hrest hpush)

theorem Invariant.popBegin (h : Invariant c s pusher popper) (hw : c.Wide) {position : Nat}
    {ctrl : Ctrl} (hbegin : s.ctrl.tryPopBegin c.depth = some (position, ctrl))
    (hpush : (s.threads i).pc.marksPush = false) :
    Invariant c { s.answer i (position % c.depth) with
      ctrl := ctrl
      fifo := s.fifo.tail } pusher (some i) := by
  unfold Ctrl.tryPopBegin at hbegin
  split at hbegin
  · cases hbegin
  · rename_i hguard
    rw [not_or, Bool.not_eq_true, Nat.not_le] at hguard
    obtain ⟨hpop, hmore⟩ := hguard
    injection hbegin with hpair
    injection hpair with hposition hctrl
    obtain ⟨hslot, x, rest, hfifo, hrest, hread⟩ := h.oldest hw hmore
    have hnone := h.not_marksPop hpop
    have howner : popper = none := by
      have hp := h.pop
      rw [hpop] at hp
      cases popper with
      | none => rfl
      | some k => cases hp
    have hcount := h.count
    have hbounded := h.bounded
    have hlength : s.fifo.length = rest.length + 1 := by rw [hfifo, List.length_cons]
    rw [← hctrl, ← hposition, hslot]
    refine ⟨h.next_lt, ?_, ?_, exclusive_same h.pushers hpush.symm, h.push,
      exclusive_take h.poppers howner rfl, rfl, ?_, ?_⟩
    · dsimp only
      rw [hfifo, List.tail_cons]
      omega
    · dsimp only
      rw [hfifo, List.tail_cons]
      omega
    · intro k y hk hlast
      dsimp only at hk hlast ⊢
      rw [hfifo, List.tail_cons] at hk hlast ⊢
      have hold : s.fifo[k + 1]? = some y := by
        rw [hfifo, List.getElem?_cons_succ]
        exact hk
      rw [show rest.length - k = s.fifo.length - (k + 1) by omega]
      refine h.contents (k + 1) y hold fun heq => copies_of_update (hlast (by omega)) ?_
      exact not_copies_of_not_marksPush hpush
    · refine (Function.forall_update_iff s.threads fun _ t => ThreadOk c _ s.memory _ t).mpr
        ⟨⟨?_, s.fifo.length, rfl, Or.inr ?_, by omega, hbounded, fun hp => ?_⟩,
          fun j _ => (h.threads j).change ?_ ?_ ?_⟩
      · rw [hread, hfifo]
        rfl
      · rw [hfifo, List.tail_cons, List.length_cons]
      · have hne := List.length_pos_iff.mpr (hrest hp)
        omega
      · intro position' data hpc _ hlast hposition'
        refine ⟨?_, hposition'⟩
        have hflag : s.ctrl.push = true := by
          rw [h.push, h.pusher_eq (by rw [hpc]; rfl)]
          rfl
        obtain ⟨z, more, hmore'⟩ := List.exists_cons_of_ne_nil (hrest hflag)
        rw [hfifo, hmore', List.getLast?_cons_cons] at hlast
        rw [hfifo, List.tail_cons, hmore']
        exact hlast
      · intro hpc _
        have hflag : s.ctrl.push = true := by
          rw [h.push, h.pusher_eq (by rw [hpc]; rfl)]
          rfl
        rw [hfifo, List.tail_cons]
        exact hrest hflag
      · intro position' hpc _
        have hother := hnone j
        rw [hpc] at hother
        cases hother

theorem Invariant.peekBegin (h : Invariant c s pusher popper) (hw : c.Wide) {position : Nat}
    {ctrl : Ctrl} (hbegin : s.ctrl.tryPeekBegin c.depth = some (position, ctrl))
    (hpush : (s.threads i).pc.marksPush = false) :
    Invariant c { s.answer i (position % c.depth) with ctrl := ctrl } pusher (some i) := by
  unfold Ctrl.tryPeekBegin at hbegin
  split at hbegin
  · cases hbegin
  · rename_i hguard
    rw [not_or, Bool.not_eq_true, Nat.not_le] at hguard
    obtain ⟨hpop, hmore⟩ := hguard
    injection hbegin with hpair
    injection hpair with hposition hctrl
    obtain ⟨hslot, x, rest, hfifo, hrest, hread⟩ := h.oldest hw hmore
    have hnone := h.not_marksPop hpop
    have howner : popper = none := by
      have hp := h.pop
      rw [hpop] at hp
      cases popper with
      | none => rfl
      | some k => cases hp
    have hlength : s.fifo.length = rest.length + 1 := by rw [hfifo, List.length_cons]
    rw [← hctrl, ← hposition, hslot]
    refine ⟨h.next_lt, h.count, h.bounded, exclusive_same h.pushers hpush.symm, h.push,
      exclusive_take h.poppers howner rfl, rfl, ?_, ?_⟩
    · intro k y hk hlast
      refine h.contents k y hk fun heq => copies_of_update (hlast heq) ?_
      exact not_copies_of_not_marksPush hpush
    · refine (Function.forall_update_iff s.threads fun _ t => ThreadOk c _ s.memory _ t).mpr
        ⟨⟨?_, s.fifo.length, rfl, Or.inl rfl, by omega, h.bounded, fun hp => ?_⟩,
          fun j _ => (h.threads j).change ?_ ?_ ?_⟩
      · rw [hread, hfifo]
        rfl
      · have hne := List.length_pos_iff.mpr (hrest hp)
        omega
      · exact fun _ _ _ _ hlast hposition => ⟨hlast, hposition⟩
      · exact fun _ hne => hne
      · intro position' hpc _
        have hother := hnone j
        rw [hpc] at hother
        cases hother

theorem Invariant.popEnd (h : Invariant c s pusher popper) {copy : List UInt8}
    (hi : (s.threads i).pc = .popped copy) :
    Invariant c { s.goto i (.idle (.data copy)) with ctrl := s.ctrl.popEnd } pusher none := by
  have howner := h.popper_eq (by rw [hi]; rfl)
  have hok := h.threads i
  unfold ThreadOk at hok
  rw [hi] at hok
  refine ⟨h.next_lt, h.count, h.bounded, exclusive_same h.pushers (by rw [hi]; rfl), h.push,
    exclusive_release h.poppers howner rfl, rfl, ?_,
    ?_⟩
  · intro k x hk hlast
    exact h.contents k x hk fun heq => copies_of_update (hlast heq) (by rw [hi]; rfl)
  · refine (Function.forall_update_iff s.threads fun _ t => ThreadOk c _ s.memory s.fifo t).mpr
      ⟨hok, fun j _ => (h.threads j).change ?_ ?_ ?_⟩
    · exact fun _ _ _ _ hlast hposition => ⟨hlast, hposition⟩
    · exact fun _ hne => hne
    · exact fun _ _ hbehind => ⟨rfl, hbehind⟩

theorem Invariant.clearBegin1 (h : Invariant c s pusher popper) {ctrl : Ctrl}
    (hbegin : s.ctrl.tryClearBegin1 = some ctrl) (hpush : (s.threads i).pc.marksPush = false) :
    Invariant c { s.goto i .clear2 with ctrl := ctrl } pusher (some i) := by
  unfold Ctrl.tryClearBegin1 at hbegin
  split at hbegin
  · cases hbegin
  · rename_i hpop
    rw [Bool.not_eq_true] at hpop
    injection hbegin with hctrl
    have howner : popper = none := by
      have hp := h.pop
      rw [hpop] at hp
      cases popper with
      | none => rfl
      | some k => cases hp
    rw [← hctrl]
    refine ⟨h.next_lt, h.count, h.bounded, exclusive_same h.pushers hpush.symm, h.push,
      exclusive_take h.poppers howner rfl, rfl, ?_, ?_⟩
    · intro k x hk hlast
      refine h.contents k x hk fun heq => copies_of_update (hlast heq) ?_
      exact not_copies_of_not_marksPush hpush
    · refine (Function.forall_update_iff s.threads fun _ t => ThreadOk c _ s.memory s.fifo t).mpr
        ⟨trivial, fun j _ => (h.threads j).change ?_ ?_ ?_⟩
      · exact fun _ _ _ _ hlast hposition => ⟨hlast, hposition⟩
      · exact fun _ hne => hne
      · exact fun _ _ hbehind => ⟨rfl, hbehind⟩

theorem Invariant.clearBegin2 (h : Invariant c s pusher popper) {ctrl : Ctrl}
    (hbegin : s.ctrl.tryClearBegin2 = some ctrl) (hi : (s.threads i).pc = .clear2) :
    Invariant c { s.goto i .clearing with ctrl := ctrl } (some i) popper := by
  unfold Ctrl.tryClearBegin2 at hbegin
  split at hbegin
  · cases hbegin
  · rename_i hpush
    rw [Bool.not_eq_true] at hpush
    injection hbegin with hctrl
    have howner : pusher = none := by
      have hp := h.push
      rw [hpush] at hp
      cases pusher with
      | none => rfl
      | some k => cases hp
    have hpopper := h.popper_eq (by rw [hi]; rfl)
    rw [← hctrl]
    refine ⟨h.next_lt, h.count, h.bounded,
      exclusive_take h.pushers howner rfl, rfl,
      exclusive_same h.poppers (by rw [hi]; rfl), h.pop, ?_, ?_⟩
    · intro k x hk hlast
      exact h.contents k x hk fun heq => copies_of_update (hlast heq) (by rw [hi]; rfl)
    · refine (Function.forall_update_iff s.threads fun _ t => ThreadOk c _ s.memory s.fifo t).mpr
        ⟨trivial, fun j hj => (h.threads j).change ?_ ?_ ?_⟩
      · exact fun _ _ _ _ hlast hposition => ⟨hlast, hposition⟩
      · exact fun _ hne => hne
      · intro position' hpc _
        have hother : (s.threads j).pc.marksPop = false :=
          h.poppers.not_holds_of_ne (Or.inr hpopper) hj
        rw [hpc] at hother
        cases hother

-- The store of cellSyncQueueClear finds nobody in a push or pop.
theorem Invariant.clear (h : Invariant c s pusher popper) (hw : c.Wide)
    (hi : (s.threads i).pc = .clearing) :
    Invariant c { s.goto i (.idle .ok) with ctrl := ⟨0, false, 0, false⟩, fifo := [] }
      none none := by
  have hpusher := h.pusher_eq (by rw [hi]; rfl)
  have hpopper := h.popper_eq (by rw [hi]; rfl)
  refine ⟨hw.depth_pos, rfl, Nat.zero_le _,
    exclusive_release h.pushers hpusher rfl, rfl,
    exclusive_release h.poppers hpopper rfl, rfl, nofun, ?_⟩
  refine (Function.forall_update_iff s.threads fun _ t => ThreadOk c _ s.memory _ t).mpr
    ⟨trivial, fun j hj => ?_⟩
  have hpush : (s.threads j).pc.marksPush = false := h.pushers.not_holds_of_ne (Or.inr hpusher) hj
  have hpop : (s.threads j).pc.marksPop = false := h.poppers.not_holds_of_ne (Or.inr hpopper) hj
  refine (h.threads j).change ?_ ?_ ?_
  · intro position data hpc
    rw [hpc] at hpush
    cases hpush
  · intro hpc
    rw [hpc] at hpush
    cases hpush
  · intro position hpc
    rw [hpc] at hpop
    cases hpop

end Steps

end Rpcsx.CellSync.Queue
