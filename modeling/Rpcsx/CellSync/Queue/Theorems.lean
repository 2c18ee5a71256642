import Rpcsx.CellSync.Queue.Invariant

namespace Rpcsx.CellSync.Queue

section Wide

variable {ι : Type} [DecidableEq ι] {c : Config} {s s' : State ι} {pusher popper : Option ι} {i : ι}

def Held (c : Config) (s : State ι) : Prop := ∃ pusher popper, Invariant c s pusher popper

theorem Invariant.goto (h : Invariant c s pusher popper) {pc : Pc}
    (hpush : pc.marksPush = (s.threads i).pc.marksPush)
    (hpop : pc.marksPop = (s.threads i).pc.marksPop)
    (hcopies : (s.threads i).pc.copies = false)
    (hok : ThreadOk c s.ctrl s.memory s.fifo { s.threads i with pc := pc }) :
    Held c (s.goto i pc) :=
  ⟨pusher, popper, h.put hpush hpop hcopies hok⟩

theorem Invariant.tryBegin (h : Invariant c s pusher popper) (hw : c.Wide) {call : Call}
    {once : Bool} (hi : (s.threads i).pc = .begin call once)
    (hbegin : s.tryBegin c i call = some s') : Held c s' := by
  have hpush : (s.threads i).pc.marksPush = false := by rw [hi]; rfl
  have hpop : (s.threads i).pc.marksPop = false := by rw [hi]; rfl
  have hok := h.threads i
  unfold ThreadOk at hok
  rw [hi] at hok
  cases call with
  | push data =>
      simp only [State.tryBegin] at hbegin
      split at hbegin
      · rename_i position ctrl htry
        cases hbegin
        exact ⟨_, _, h.pushBegin hw htry hpop hok⟩
      · cases hbegin
  | pop =>
      simp only [State.tryBegin] at hbegin
      split at hbegin
      · rename_i position ctrl htry
        cases hbegin
        exact ⟨_, _, h.popBegin hw htry hpush⟩
      · cases hbegin
  | peek =>
      simp only [State.tryBegin] at hbegin
      split at hbegin
      · rename_i position ctrl htry
        cases hbegin
        exact ⟨_, _, h.peekBegin hw htry hpush⟩
      · cases hbegin
  | clear =>
      simp only [State.tryBegin] at hbegin
      split at hbegin
      · rename_i ctrl htry
        cases hbegin
        exact ⟨_, _, h.clearBegin1 htry hpush⟩
      · cases hbegin
  | size =>
      cases hbegin
      have hle : s.ctrl.count ≤ c.depth := Nat.le_trans (Nat.le_of_eq h.count) h.bounded
      exact h.goto hpush.symm hpop.symm (by rw [hi]; rfl) hle

theorem Invariant.advance (h : Invariant c s pusher popper) (hw : c.Wide) {stop : Bool}
    (hstep : s.advance c i stop = some s') : Held c s' := by
  unfold State.advance at hstep
  split at hstep
  · cases hstep
  · cases hstep
  · cases hstep
  · rename_i call once hi
    have hwait : ∀ pc, pc.marksPush = false → pc.marksPop = false →
        ThreadOk c s.ctrl s.memory s.fifo { s.threads i with pc := pc } → Held c (s.goto i pc) := by
      intro pc hpush hpop hok
      exact h.goto (by rw [hpush, hi]; rfl) (by rw [hpop, hi]; rfl) (by rw [hi]; rfl) hok
    split at hstep
    · rename_i next hbegin
      cases hstep
      exact h.tryBegin hw hi hbegin
    · split at hstep
      · cases hstep
        exact hwait _ rfl rfl trivial
      · cases hstep
        split
        · exact hwait _ rfl rfl trivial
        · exact ⟨_, _, h⟩
  · rename_i position data hi
    cases hstep
    exact ⟨_, _, h.pushCopy hw hi⟩
  · rename_i hi
    cases hstep
    exact ⟨_, _, h.pushEnd hi⟩
  · rename_i position hi
    cases hstep
    have hok := h.threads i
    unfold ThreadOk at hok
    rw [hi] at hok
    exact h.goto (by rw [hi]; rfl) (by rw [hi]; rfl) (by rw [hi]; rfl) hok.1
  · rename_i copy hi
    cases hstep
    exact ⟨_, _, h.popEnd hi⟩
  · rename_i hi
    split at hstep
    · rename_i ctrl hbegin
      cases hstep
      exact ⟨_, _, h.clearBegin2 hbegin hi⟩
    · cases hstep
      split
      · exact h.goto (by rw [hi]; rfl) (by rw [hi]; rfl) (by rw [hi]; rfl) trivial
      · exact ⟨_, _, h⟩
  · rename_i hi
    cases hstep
    exact ⟨_, _, h.clear hw hi⟩

theorem idle_marks {pc : Pc} (h : pc.isIdle = true) :
    pc.marksPush = false ∧ pc.marksPop = false ∧ pc.copies = false := by
  cases pc with
  | idle result => exact ⟨rfl, rfl, rfl⟩
  | _ => cases h

theorem Held.step (hw : c.Wide) (h : Held c s) (hstep : Step c s s') : Held c s' := by
  obtain ⟨pusher, popper, h⟩ := h
  obtain ⟨action, hstep⟩ := hstep
  cases action with
  | call i call once =>
      simp only [Queue.step] at hstep
      split at hstep
      · rename_i hguard
        obtain ⟨hpush, hpop, hcopies⟩ := idle_marks hguard.1
        have hdepth : s.ctrl.depthOk c.depth = true := by
          have hcount := h.count
          have hbounded := h.bounded
          have hnext := h.next_lt
          exact decide_eq_true ⟨by omega, by omega⟩
        cases hstep
        rw [if_pos hdepth]
        exact h.goto hpush.symm hpop.symm hcopies hguard.2.1
      · cases hstep
  | advance i stop => exact h.advance hw hstep

omit [DecidableEq ι] in
theorem Held.start (hw : c.Wide) (memory : Nat → UInt8) : Held c (State.start memory : State ι) :=
  ⟨none, none, hw.depth_pos, rfl, Nat.zero_le _, fun _ => ⟨nofun, nofun⟩, rfl,
    fun _ => ⟨nofun, nofun⟩, rfl, nofun, fun _ => trivial⟩

theorem sound_of_wide (hw : c.Wide) (h : Reachable c s) : Sound c s := by
  obtain ⟨memory, hrun⟩ := h
  obtain ⟨pusher, popper, hinv⟩ := Data.Interleaving.invariant_of_reachable (Held.start hw memory)
    (fun _ _ hs hstep => hs.step hw hstep) hrun
  exact hinv.sound

end Wide

-- Runs of one thread, from a state in which nobody is in the queue.
section Alone

variable {ι : Type} [DecidableEq ι] {c : Config} {s s' : State ι} {i : ι} {next count : Nat}

theorem Reachable.start (memory : Nat → UInt8) : Reachable c (State.start memory : State ι) :=
  ⟨memory, .refl⟩

theorem Reachable.step (h : Reachable c s) (action : Action ι)
    (hstep : Queue.step c s action = some s') : Reachable c s' := by
  obtain ⟨memory, hrun⟩ := h
  exact ⟨memory, hrun.tail ⟨action, hstep⟩⟩

theorem pc_goto (s : State ι) (i : ι) (pc : Pc) : ((s.goto i pc).threads i).pc = pc :=
  congrArg Thread.pc (Function.update_self i _ s.threads)

theorem step_call (hidle : (s.threads i).pc.isIdle = true)
    (hctrl : s.ctrl = ⟨next, false, count, false⟩) (hnext : next ≤ c.depth)
    (hcount : count ≤ c.depth) {call : Call} (hfits : call.Fits c.size) :
    step c s (.call i call false) = some (s.goto i (.begin call false)) := by
  have hdepth : s.ctrl.depthOk c.depth = true := by
    rw [hctrl]
    exact decide_eq_true ⟨hnext, hcount⟩
  unfold step
  dsimp only
  rw [if_pos ⟨hidle, hfits, nofun⟩, if_pos hdepth]

theorem step_begin {call : Call} {once : Bool} (hpc : (s.threads i).pc = .begin call once)
    (hbegin : s.tryBegin c i call = some s') : step c s (.advance i false) = some s' := by
  unfold step State.advance
  dsimp only
  rw [hpc]
  dsimp only
  rw [hbegin]

theorem step_pushing {position : Nat} {data : List UInt8}
    (hpc : (s.threads i).pc = .pushing position data) :
    step c s (.advance i false) =
      some { s.goto i .pushed with memory := write s.memory (c.offset position) data } := by
  unfold step State.advance
  dsimp only
  rw [hpc]

theorem step_pushed (hpc : (s.threads i).pc = .pushed) :
    step c s (.advance i false) = some { s.goto i (.idle .ok) with ctrl := s.ctrl.pushEnd } := by
  unfold step State.advance
  dsimp only
  rw [hpc]

theorem step_popping {position : Nat} (hpc : (s.threads i).pc = .popping position) :
    step c s (.advance i false) =
      some (s.goto i (.popped (read s.memory (c.offset position) c.size))) := by
  unfold step State.advance
  dsimp only
  rw [hpc]

theorem step_popped {copy : List UInt8} (hpc : (s.threads i).pc = .popped copy) :
    step c s (.advance i false) =
      some { s.goto i (.idle (.data copy)) with ctrl := s.ctrl.popEnd } := by
  unfold step State.advance
  dsimp only
  rw [hpc]

-- A whole push.
theorem push_alone (h : Reachable c s) (hidle : (s.threads i).pc.isIdle = true)
    (hctrl : s.ctrl = ⟨next, false, count, false⟩) (hnext : next ≤ c.depth)
    (hcount : count < c.depth) {data : List UInt8} (hdata : data.length = c.size) :
    ∃ s', Reachable c s' ∧ (s'.threads i).pc.isIdle = true ∧
      s'.ctrl = ⟨(if next + 1 ≠ c.depth then next + 1 else 0) % 2 ^ 24, false,
        (count + 1) % 2 ^ 24, false⟩ ∧
      s'.fifo = s.fifo ++ [data] ∧ s'.memory = write s.memory (c.offset next) data := by
  have hfits : (Call.push data).Fits c.size := hdata
  have hbegun := h.step _ (step_call hidle hctrl hnext (Nat.le_of_lt hcount) hfits)
  have htry : (s.goto i (.begin (.push data) false)).tryBegin c i (.push data) =
      some { (s.goto i (.begin (.push data) false)).goto i (.pushing next data) with
        ctrl := ⟨(if next + 1 ≠ c.depth then next + 1 else 0) % 2 ^ 24, false,
          (count + 1) % 2 ^ 24, true⟩
        fifo := s.fifo ++ [data] } := by
    have hpush : s.ctrl.tryPushBegin c.depth = some (next,
        ⟨(if next + 1 ≠ c.depth then next + 1 else 0) % 2 ^ 24, false,
          (count + 1) % 2 ^ 24, true⟩) := by
      rw [hctrl]
      unfold Ctrl.tryPushBegin
      rw [if_neg]
      rw [not_or, Nat.not_le]
      exact ⟨nofun, hcount⟩
    unfold State.tryBegin
    dsimp only
    rw [show (s.goto i (.begin (.push data) false)).ctrl = s.ctrl from rfl, hpush]
    rfl
  have hpushing := hbegun.step _ (step_begin (pc_goto s i _) htry)
  have hpushed := hpushing.step _ (step_pushing (pc_goto _ i _))
  have hdone := hpushed.step _ (step_pushed (pc_goto _ i _))
  exact ⟨_, hdone, congrArg Pc.isIdle (pc_goto _ i (.idle .ok)), rfl, rfl, rfl⟩

-- A whole pop.
theorem pop_alone (h : Reachable c s) (hidle : (s.threads i).pc.isIdle = true)
    (hctrl : s.ctrl = ⟨next, false, count, false⟩) (hnext : next ≤ c.depth)
    (hcount : count ≤ c.depth) (hpos : 0 < count) :
    ∃ s', Reachable c s' ∧ (s'.threads i).pc = .idle (.data
        (read s.memory (c.offset (s.ctrl.position c.depth % c.depth)) c.size)) ∧
      (s'.threads i).answer = s.fifo.headD [] := by
  have hfits : Call.pop.Fits c.size := trivial
  have hbegun := h.step _ (step_call hidle hctrl hnext hcount hfits)
  have htry : (s.goto i (.begin .pop false)).tryBegin c i .pop =
      some { (s.goto i (.begin .pop false)).answer i (s.ctrl.position c.depth % c.depth) with
        ctrl := ⟨next, true, count - 1, false⟩
        fifo := s.fifo.tail } := by
    have hpop : s.ctrl.tryPopBegin c.depth = some (s.ctrl.position c.depth,
        ⟨next, true, count - 1, false⟩) := by
      rw [hctrl]
      unfold Ctrl.tryPopBegin
      rw [if_neg]
      rw [not_or, Nat.not_le]
      exact ⟨nofun, hpos⟩
    unfold State.tryBegin
    dsimp only
    rw [show (s.goto i (.begin .pop false)).ctrl = s.ctrl from rfl, hpop]
    rfl
  have hpopping := hbegun.step _ (step_begin (pc_goto s i _) htry)
  have hpc : ((Function.update (s.goto i (.begin .pop false)).threads i
      ⟨.popping (s.ctrl.position c.depth % c.depth), s.fifo.headD []⟩) i) =
      ⟨.popping (s.ctrl.position c.depth % c.depth), s.fifo.headD []⟩ := Function.update_self ..
  have hpopped := hpopping.step _ (step_popping (congrArg Thread.pc hpc))
  have hdone := hpopped.step _ (step_popped (pc_goto _ i _))
  refine ⟨_, hdone, pc_goto _ i _, ?_⟩
  unfold State.goto State.answer
  dsimp only
  rw [Function.update_self, Function.update_self, Function.update_self]

end Alone

section Narrow

variable {ι : Type} [DecidableEq ι] {c : Config}

-- With a depth that does not fit into 24 bits, `n` pushes.
theorem filled (hdepth : 2 ^ 24 ≤ c.depth) (i : ι) (n : Nat) :
    ∃ s : State ι, Reachable c s ∧ (s.threads i).pc.isIdle = true ∧
      s.ctrl = ⟨n % 2 ^ 24, false, n % 2 ^ 24, false⟩ ∧ s.fifo.length = n := by
  induction n with
  | zero => exact ⟨_, Reachable.start fun _ => 0, rfl, rfl, rfl⟩
  | succ n ih =>
      obtain ⟨s, hreach, hidle, hctrl, hlength⟩ := ih
      have hlt : n % 2 ^ 24 < 2 ^ 24 := Nat.mod_lt _ (Nat.two_pow_pos 24)
      obtain ⟨s', hreach', hidle', hctrl', hfifo, -⟩ := push_alone hreach hidle hctrl
        (Nat.le_of_lt (Nat.lt_of_lt_of_le hlt hdepth)) (Nat.lt_of_lt_of_le hlt hdepth)
        (List.length_replicate (a := (0 : UInt8)))
      have hcount : (n % 2 ^ 24 + 1) % 2 ^ 24 = (n + 1) % 2 ^ 24 := Nat.mod_add_mod ..
      have hnext : (if n % 2 ^ 24 + 1 ≠ c.depth then n % 2 ^ 24 + 1 else 0) % 2 ^ 24 =
          (n + 1) % 2 ^ 24 := by
        split
        · exact hcount
        · omega
      rw [hcount, hnext] at hctrl'
      refine ⟨s', hreach', hidle', hctrl', ?_⟩
      rw [hfifo, List.length_append, hlength, List.length_singleton]

-- The count wraps around while the elements are still in the queue.
theorem not_sound_of_deep (hdepth : 2 ^ 24 ≤ c.depth) (i : ι) :
    ∃ s : State ι, Reachable c s ∧ ¬ Sound c s := by
  obtain ⟨s, hreach, -, hctrl, hlength⟩ := filled hdepth i (2 ^ 24)
  refine ⟨s, hreach, fun hsound => ?_⟩
  have hcount := hsound.count
  rw [hctrl, hlength, Nat.mod_self] at hcount
  exact absurd hcount (by decide)

theorem write_zeros (offset size : Nat) :
    write (fun _ => 0) offset (List.replicate size 0) = fun _ => 0 := by
  funext a
  unfold write
  split
  · rw [List.getElem?_replicate]
    split <;> rfl
  · rfl

-- In a queue that is deep enough, `n` pushes of zeros into a memory of zeros.
theorem zeros (hdepth : c.depth < 2 ^ 24) (i : ι) (n : Nat) (hn : n < c.depth) :
    ∃ s : State ι, Reachable c s ∧ (s.threads i).pc.isIdle = true ∧
      s.ctrl = ⟨n, false, n, false⟩ ∧ s.fifo = List.replicate n (List.replicate c.size 0) ∧
      s.memory = fun _ => 0 := by
  induction n with
  | zero => exact ⟨_, Reachable.start fun _ => 0, rfl, rfl, rfl, rfl⟩
  | succ n ih =>
      obtain ⟨s, hreach, hidle, hctrl, hfifo, hmemory⟩ := ih (by omega)
      obtain ⟨s', hreach', hidle', hctrl', hfifo', hmemory'⟩ := push_alone hreach hidle hctrl
        (by omega) (by omega) (List.length_replicate (a := (0 : UInt8)))
      rw [if_pos (by omega), Nat.mod_eq_of_lt (by omega)] at hctrl'
      rw [hmemory, write_zeros] at hmemory'
      refine ⟨s', hreach', hidle', hctrl', ?_, hmemory'⟩
      rw [hfifo', hfifo, List.replicate_succ']

-- The first slot whose offset does not fit into 32 bits.
theorem exists_wrapping (hoffsets : 2 ^ 32 ≤ (c.depth - 1) * c.size) :
    ∃ p, 0 < p ∧ p < c.depth ∧ 2 ^ 32 ≤ p * c.size ∧ p * c.size < 2 ^ 32 + c.size := by
  have hsize : 0 < c.size := by
    by_contra hzero
    rw [Nat.eq_zero_of_not_pos hzero, Nat.mul_zero] at hoffsets
    exact absurd hoffsets (by decide)
  obtain ⟨p, hp, hleast⟩ : ∃ p, 2 ^ 32 ≤ p * c.size ∧ ∀ q, q < p → q * c.size < 2 ^ 32 := by
    have hex : ∃ p, 2 ^ 32 ≤ p * c.size := ⟨_, hoffsets⟩
    exact ⟨Nat.find hex, Nat.find_spec hex, fun q hq => Nat.lt_of_not_le (Nat.find_min hex hq)⟩
  have hpos : 0 < p := by
    by_contra hzero
    rw [Nat.eq_zero_of_not_pos hzero, Nat.zero_mul] at hp
    exact absurd hp (by decide)
  have hlt : p < c.depth := by
    by_contra hge
    have hless := hleast (c.depth - 1) (by omega)
    omega
  have hbefore := hleast (p - 1) (by omega)
  have hsplit : p * c.size = (p - 1) * c.size + c.size := by
    rw [← Nat.succ_mul, Nat.succ_eq_add_one, Nat.sub_add_cancel hpos]
  exact ⟨p, hpos, hlt, hp, by omega⟩

-- The element of the slot whose offset has wrapped around lies over the first element.
theorem not_sound_of_large (hdepth : c.depth < 2 ^ 24)
    (hoffsets : 2 ^ 32 ≤ (c.depth - 1) * c.size) (hsize : c.size < 2 ^ 32) (i : ι) :
    ∃ s : State ι, Reachable c s ∧ ¬ Sound c s := by
  obtain ⟨p, hpos, hp, hge, hlt⟩ := exists_wrapping hoffsets
  obtain ⟨s, hreach, hidle, hctrl, hfifo, hmemory⟩ := zeros hdepth i p hp
  obtain ⟨s', hreach', hidle', hctrl', hfifo', hmemory'⟩ := push_alone hreach hidle hctrl
    (by omega) hp (List.length_replicate (a := (1 : UInt8)))
  have hnext : (if p + 1 ≠ c.depth then p + 1 else 0) % 2 ^ 24 = succ c.depth p :=
    Nat.mod_eq_of_lt (Nat.lt_trans (succ_lt hp) hdepth)
  have hcount : (p + 1) % 2 ^ 24 = p + 1 := Nat.mod_eq_of_lt (by omega)
  rw [hnext, hcount] at hctrl'
  obtain ⟨s'', hreach'', hpc, hanswer⟩ := pop_alone hreach' hidle' hctrl'
    (Nat.le_of_lt (succ_lt hp)) hp (Nat.succ_pos p)
  refine ⟨s'', hreach'', fun hsound => ?_⟩
  have hsame := hsound.result i _ hpc
  have hposition : s'.ctrl.position c.depth % c.depth = 0 := by
    have hctrlnext : s'.ctrl.next = succ c.depth p := by rw [hctrl']
    have hctrlcount : s'.ctrl.count = p + 1 := by rw [hctrl']
    rw [position_mod (by rw [hctrlnext]; exact succ_lt hp) (by omega) hdepth, hctrlnext, hctrlcount,
      slot_eq (succ_lt hp) (by omega) (by omega)]
    unfold succ
    split <;> split <;> omega
  have hoffset : c.offset p = p * c.size - 2 ^ 32 := by
    unfold Config.offset
    omega
  rw [hanswer, hfifo', hfifo, hposition] at hsame
  have hbyte := congrArg (fun l : List UInt8 => l[p * c.size - 2 ^ 32]?) hsame
  have hzero : c.offset 0 = 0 := by
    rw [Config.offset, Nat.zero_mul, Nat.zero_mod]
  have hread : (read s'.memory (c.offset 0) c.size)[p * c.size - 2 ^ 32]? = some 1 := by
    have hin : p * c.size - 2 ^ 32 < c.size := by omega
    rw [hmemory', hmemory, hzero, read, List.getElem?_map, List.getElem?_range hin, Option.map_some,
      Nat.zero_add, write, hoffset, if_pos (Nat.le_refl _), Nat.sub_self,
      List.getElem?_replicate, if_pos (by omega)]
    rfl
  have hfirst : (List.replicate p (List.replicate c.size (0 : UInt8)) ++
      [List.replicate c.size 1]).headD [] = List.replicate c.size 0 := by
    cases p with
    | zero => omega
    | succ p => rfl
  rw [hread, hfirst, List.getElem?_replicate, if_pos (by omega)] at hbyte
  exact absurd (Option.some.inj hbyte) (by decide)

end Narrow

-- Exactly for the depths that fit into the 24-bit fields and the sizes for which the offsets of
-- all slots fit into 32 bits.
theorem queue_sound_iff {ι : Type} [DecidableEq ι] [Inhabited ι] {c : Config} (h : c.Accepted) :
    (∀ s : State ι, Reachable c s → Sound c s) ↔
      c.depth < 2 ^ 24 ∧ (c.depth - 1) * c.size < 2 ^ 32 := by
  constructor
  · intro hall
    have hdepth : c.depth < 2 ^ 24 := by
      by_contra hdeep
      obtain ⟨s, hreach, hnot⟩ := not_sound_of_deep (ι := ι) (Nat.not_lt.mp hdeep) default
      exact hnot (hall s hreach)
    refine ⟨hdepth, ?_⟩
    by_contra hlarge
    obtain ⟨s, hreach, hnot⟩ :=
      not_sound_of_large (ι := ι) hdepth (Nat.not_lt.mp hlarge) h.size_lt default
    exact hnot (hall s hreach)
  · rintro ⟨hdepth, hoffsets⟩ s hreach
    exact sound_of_wide ⟨Nat.pos_of_ne_zero h.depth_ne_zero, hdepth, hoffsets⟩ hreach

theorem queue_sound_iff_small :
    (∀ s : State (Fin 2), Reachable ⟨16, 4⟩ s → Sound ⟨16, 4⟩ s) ↔
      4 < 2 ^ 24 ∧ (4 - 1) * 16 < 2 ^ 32 :=
  queue_sound_iff ⟨by decide, by decide, by decide, by decide⟩

-- Of the depth 2 ^ 24, the queue does not keep what is pushed.
theorem deep_queue_not_sound :
    Config.Accepted ⟨16, 2 ^ 24⟩ ∧
      ∃ s : State (Fin 2), Reachable ⟨16, 2 ^ 24⟩ s ∧ ¬ Sound ⟨16, 2 ^ 24⟩ s :=
  ⟨⟨by decide, by decide, by decide, by decide⟩, not_sound_of_deep (Nat.le_refl _) 0⟩

end Rpcsx.CellSync.Queue
