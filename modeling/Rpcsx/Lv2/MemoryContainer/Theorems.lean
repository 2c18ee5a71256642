import Rpcsx.Lv2.MemoryContainer.Steps

namespace Rpcsx.Lv2.MemoryContainer

open Rpcsx.Data.Interleaving

variable {κ ι : Type} [DecidableEq κ] [DecidableEq ι] [Fintype ι] {cfg : Config κ}
  {s s' t : State κ ι} {i : ι}

section Runs

omit [DecidableEq ι] in
theorem charges_start (cfg : Config κ) (c : κ) :
    charges cfg (State.start : State κ ι) c = 0 := by
  have hlive : live cfg (State.start : State κ ι) c = 0 := by
    unfold live total
    simp [State.start, slotCharge, shmCharge, vmCharge, containerCharge]
  have hprogress : inProgress cfg (State.start : State κ ι) c = 0 := by
    unfold inProgress total
    simp [State.start, callCharge]
  unfold charges
  rw [hlive, hprogress]

omit [DecidableEq ι] in
theorem Inv.start : Inv cfg (State.start : State κ ι) where
  balanced c := by
    constructor
    · intro _
      rw [charges_start]
      exact ⟨rfl, Nat.zero_le _⟩
    · intro hd
      cases hd
  held := ⟨nofun, nofun⟩
  appending := nofun
  areas := by
    unfold total
    simp [State.start, occupied, Pc.makes]
  registered := ⟨nofun, nofun, rfl⟩

theorem inv_of_reachable (h : Reachable cfg s) : Inv cfg s := by
  apply invariant_of_reachable Inv.start _ h
  rintro s s' hs ⟨i, action, hstep⟩
  exact hs.effect (hs.step_effect hstep)

omit [DecidableEq ι] in
theorem inProgress_of_finished (h : ∀ i, (s.threads i).finished = true) (c : κ) :
    inProgress cfg s c = 0 := by
  apply Finset.sum_eq_zero
  intro i _
  exact (Pc.finished_plain cfg (h i)).2 c

end Runs

omit [Fintype ι] in
theorem take_totalVsize (ct : κ) (amount : Nat) (taken refused : Pc κ) :
    (s.take cfg i ct amount taken refused).totalVsize = s.totalVsize := by
  unfold State.take
  dsimp only
  split
  · rfl
  · rfl

theorem call_totalVsize {action : Action κ} (hcall : call cfg s i action = some s') :
    s'.totalVsize = s.totalVsize := by
  cases action <;> simp only [call] at hcall <;> (repeat' split at hcall) <;> cases hcall <;>
    first | rfl | exact take_totalVsize ..

theorem step_totalVsize {action : Action κ} (h : s.totalVsize < 2 ^ 32)
    (hstep : step cfg s i action = some s') : s'.totalVsize < 2 ^ 32 := by
  have hmod : ∀ n, n % 2 ^ 32 < 2 ^ 32 := fun n => Nat.mod_lt n (Nat.two_pow_pos 32)
  have htake : ∀ ct amount taken refused,
      (s.take cfg i ct amount taken refused).totalVsize < 2 ^ 32 := by
    intro ct amount taken refused
    rw [take_totalVsize]
    exact h
  unfold step at hstep
  split at hstep
  case h_15 =>
    split at hstep
    · rw [call_totalVsize hstep]
      exact h
    · cases hstep
  all_goals
    (repeat' split at hstep) <;> cases hstep <;> first | exact h | exact hmod _ | exact htake ..

theorem totalVsize_lt (h : Reachable cfg s) : s.totalVsize < 2 ^ 32 := by
  apply invariant_of_reachable _ _ h
  · exact Nat.two_pow_pos 32
  · rintro s s' hs ⟨i, action, hstep⟩
    exact step_totalVsize hs hstep

section Alone

-- The counters `now` of a state against the virtual memory of an earlier one.
structure Ahead (totalVsize : Nat) (now : (κ → Nat) × Nat) (used : κ → Nat) (vsize : Nat) : Prop where
  used : now.1 = used
  total : now.2 = (totalVsize + vsize) % 2 ^ 32
  vsize_lt : vsize < 2 ^ 32

def State.counters (s : State κ ι) : (κ → Nat) × Nat := (s.used, s.totalVsize)

def plus (used : κ → Nat) (ct : κ) (amount : Nat) : κ → Nat :=
  Function.update used ct (used ct + amount)

-- What a call that has run alone since `s` has done to the counters, if it is going to fail.
def Kept (cfg : Config κ) (s s' : State κ ι) : Pc κ → Prop
  | .failed => Ahead s.totalVsize s'.counters s.used 0
  | .allocateMap ct size _ => Ahead s.totalVsize s'.counters (plus s.used ct size) 0
  | .allocateStore ct _ size _ => Ahead s.totalVsize s'.counters (plus s.used ct size) 0
  | .freeExchange slot true => ∃ ct size, s'.slots slot = .owned ct size ∧
      Ahead s.totalVsize s'.counters (plus s.used ct size) 0
  | .freeExchange _ false => Ahead s.totalVsize s'.counters s.used 0
  | .freeDealloc ct _ size true => Ahead s.totalVsize s'.counters (plus s.used ct size) 0
  | .giveBack ct size vsize true => Ahead s.totalVsize s'.counters (plus s.used ct size) (vsize.getD 0)
  | .discount vsize true => Ahead s.totalVsize s'.counters s.used vsize
  | .containerMake size => Ahead s.totalVsize s'.counters (plus s.used cfg.dct size) 0
  | .shmTake _ _ => Ahead s.totalVsize s'.counters s.used 0
  | .vmCount _ vsize _ => Ahead s.totalVsize s'.counters s.used 0 ∧ vsize < 2 ^ 32
  | .vmTake _ vsize _ => Ahead s.totalVsize s'.counters s.used vsize
  | .vmFindMap ct vsize psize => Ahead s.totalVsize s'.counters (plus s.used ct psize) vsize
  | _ => True

omit [DecidableEq κ] [DecidableEq ι] [Fintype ι] in
theorem Ahead.self (h : s.totalVsize < 2 ^ 32) : Ahead s.totalVsize s.counters s.used 0 :=
  ⟨rfl, (Nat.mod_eq_of_lt h).symm, Nat.two_pow_pos 32⟩

omit [Fintype ι] in
-- The counters after take, if it is granted and if it is refused.
theorem Kept.take {ct : κ} {amount vsize : Nat} {taken refused : Pc κ}
    (hused : t.used ct ≤ cfg.size ct) (ha : Ahead s.totalVsize t.counters s.used vsize)
    (htaken : ∀ t', Ahead s.totalVsize t'.counters (plus s.used ct amount) vsize →
      Kept cfg s t' taken)
    (hrefused : ∀ t', Ahead s.totalVsize t'.counters s.used vsize → Kept cfg s t' refused) :
    Kept cfg s (t.take cfg i ct amount taken refused)
      ((t.take cfg i ct amount taken refused).threads i) := by
  unfold State.take
  rcases take_spec amount hused (cfg.size_lt ct) with ⟨hne, heq, _⟩ | hrefuse
  · dsimp only
    rw [if_pos hne, heq]
    change Kept cfg s _ (Function.update t.threads i taken i)
    rw [Function.update_self]
    apply htaken
    refine ⟨?_, ha.total, ha.vsize_lt⟩
    unfold plus
    rw [← ha.used]
    rfl
  · dsimp only
    rw [if_neg (fun hne => hne hrefuse)]
    change Kept cfg s _ (Function.update t.threads i refused i)
    rw [Function.update_self]
    exact hrefused _ ⟨ha.used, ha.total, ha.vsize_lt⟩

omit [Fintype ι] in
theorem Kept.goto {pc : Pc κ} (h : Kept cfg s t pc) :
    Kept cfg s (t.goto i pc) ((t.goto i pc).threads i) := by
  change Kept cfg s (t.goto i pc) (Function.update t.threads i pc i)
  rw [Function.update_self]
  unfold Kept at h ⊢
  split at h <;> exact h

omit [Fintype ι] in
theorem Kept.finish {error : Bool} (h : error = true → Ahead s.totalVsize t.counters s.used 0) :
    Kept cfg s (t.finish i error) ((t.finish i error).threads i) := by
  apply Kept.goto
  cases error with
  | false => trivial
  | true => exact h rfl

theorem Kept.begin {action : Action κ} (hinv : ∀ c, s.used c ≤ cfg.size c)
    (htotal : s.totalVsize < 2 ^ 32) (hcall : call cfg s i action = some t) :
    Kept cfg s t (t.threads i) := by
  have hself := Ahead.self htotal
  have hfail : Kept cfg s (s.finish i true) ((s.finish i true).threads i) :=
    Kept.finish fun _ => hself
  cases action with
  | allocate source size flags fault =>
      simp only [MemoryContainer.call] at hcall
      split at hcall
      · cases hcall
        exact hfail
      · split at hcall
        · cases hcall
          exact hfail
        · cases hcall
          exact Kept.take (hinv _) hself (fun _ h => h) (fun _ h => h)
  | free slot =>
      cases hcall
      exact Kept.goto hself
  | containerCreate size =>
      simp only [MemoryContainer.call] at hcall
      split at hcall
      · cases hcall
        exact hfail
      · cases hcall
        exact Kept.take (hinv _) hself (fun _ h => h) (fun _ h => h)
  | containerDestroy place =>
      simp only [MemoryContainer.call] at hcall
      split at hcall
      · cases hcall
        exact hfail
      · split at hcall
        · cases hcall
          exact Kept.goto trivial
        · cases hcall
          exact hfail
  | shmAllocate source size flags =>
      simp only [MemoryContainer.call] at hcall
      split at hcall
      · cases hcall
        exact hfail
      · split at hcall
        · cases hcall
          exact hfail
        · cases hcall
          exact Kept.goto hself
  | shmAgain place =>
      simp only [MemoryContainer.call] at hcall
      split at hcall
      · cases hcall
      · cases hcall
        exact Kept.finish (by rintro ⟨⟩)
  | shmFree place busy =>
      simp only [MemoryContainer.call] at hcall
      split at hcall
      · cases hcall
        exact hfail
      · split at hcall
        · cases hcall
          exact hfail
        · split at hcall
          · cases hcall
            exact Kept.goto trivial
          · cases hcall
            exact Kept.finish (by rintro ⟨⟩)
  | vmMap source vsize psize autoPolicy different =>
      simp only [MemoryContainer.call] at hcall
      split at hcall
      · cases hcall
        exact hfail
      · rename_i hvalid
        split at hcall
        · cases hcall
          exact hfail
        · cases hcall
          have hvsize : vsize < 2 ^ 32 := by
            rw [Decidable.not_not] at hvalid
            simp only [validVm, decide_eq_true_eq] at hvalid
            omega
          exact Kept.goto ⟨hself, hvsize⟩
  | vmUnmap place area =>
      simp only [MemoryContainer.call] at hcall
      split at hcall
      · cases hcall
      · split at hcall
        · cases hcall
          exact hfail
        · split at hcall
          · cases hcall
            exact Kept.goto trivial
          · cases hcall
  | vmAppend place size =>
      simp only [MemoryContainer.call] at hcall
      split at hcall
      · cases hcall
        exact hfail
      · split at hcall
        · cases hcall
          exact hfail
        · cases hcall
          exact Kept.take (hinv _) hself (fun _ _ => trivial) (fun _ h => h)
  | vmReturn place size =>
      simp only [MemoryContainer.call] at hcall
      split at hcall
      · cases hcall
        exact hfail
      · split at hcall
        · cases hcall
          exact hfail
        · split at hcall
          · cases hcall
            exact hfail
          · cases hcall
            exact Kept.goto trivial
  | _ => cases hcall

theorem Kept.step {action : Action κ} (hinv : Inv cfg t) (h : Kept cfg s t (t.threads i))
    (hbusy : (t.threads i).finished = false) (hstep : step cfg t i action = some s') :
    Kept cfg s s' (s'.threads i) := by
  unfold MemoryContainer.step at hstep
  split at hstep
  · -- the block is allocated
    rename_i ct size fault slot hpc
    rw [hpc] at h
    split at hstep
    · cases hstep
      exact Kept.goto h
    · split at hstep
      · cases hstep
        exact Kept.goto h
      · cases hstep
  · -- it gets its container
    rename_i ct slot size fault hpc
    rw [hpc] at h
    have hslot := hinv.held.slots i slot size (by rw [hpc]; rfl)
    rw [hslot] at hstep
    dsimp only at hstep
    cases hstep
    cases fault with
    | false => exact Kept.finish nofun
    | true =>
        apply Kept.goto
        exact ⟨ct, size, Function.update_self .., h⟩
  · -- it loses its container
    rename_i slot error hpc
    rw [hpc] at h
    split at hstep
    · rename_i ct size howned
      cases hstep
      cases error with
      | false => exact Kept.goto trivial
      | true =>
          obtain ⟨ct', size', howned', hahead⟩ := h
          rw [howned] at howned'
          cases howned'
          exact Kept.goto hahead
    · rename_i hother
      cases hstep
      cases error with
      | false => exact Kept.finish fun _ => h
      | true =>
          obtain ⟨ct, size, howned, _⟩ := h
          exact absurd howned (hother ct size)
  · -- it is deallocated
    rename_i ct slot size error hpc
    have hslot := hinv.held.slots i slot size (by rw [hpc]; rfl)
    rw [hslot] at hstep
    rw [hpc] at h
    dsimp only at hstep
    cases hstep
    cases error with
    | false => exact Kept.goto trivial
    | true => exact Kept.goto h
  · -- memory is given back
    rename_i ct size vsize error hpc
    rw [hpc] at h
    split at hstep
    · cases hstep
    · rename_i value hfree
      unfold free at hfree
      split at hfree
      · cases hfree
        have hback : error = true → Function.update t.used ct (t.used ct - size) = s.used ∧
            t.totalVsize = (s.totalVsize + vsize.getD 0) % 2 ^ 32 ∧ vsize.getD 0 < 2 ^ 32 := by
          intro herror
          rw [herror] at h
          refine ⟨?_, h.total, h.vsize_lt⟩
          have hused : t.used = plus s.used ct size := h.used
          rw [hused]
          unfold plus
          rw [Function.update_idem, Function.update_self, Nat.add_sub_cancel,
            Function.update_eq_self]
        dsimp only at hstep
        split at hstep
        · cases hstep
          apply Kept.finish
          intro herror
          obtain ⟨hused, hsum, _⟩ := hback herror
          exact ⟨hused, hsum, Nat.two_pow_pos 32⟩
        · cases hstep
          cases error with
          | false => exact Kept.goto trivial
          | true =>
              obtain ⟨hused, hsum, hlt⟩ := hback rfl
              apply Kept.goto
              exact ⟨hused, hsum, hlt⟩
      · cases hfree
  · -- the virtual memory is discounted
    rename_i vsize error hpc
    rw [hpc] at h
    cases hstep
    apply Kept.finish
    intro herror
    rw [herror] at h
    have hsum : t.totalVsize = (s.totalVsize + vsize) % 2 ^ 32 := h.total
    have hlt := h.vsize_lt
    refine ⟨h.used, ?_, Nat.two_pow_pos 32⟩
    change (t.totalVsize + 2 ^ 32 - vsize) % 2 ^ 32 = (s.totalVsize + 0) % 2 ^ 32
    omega
  · -- a container is made
    rename_i size place ct hpc
    rw [hpc] at h
    split at hstep
    · cases hstep
      exact Kept.goto h
    · split at hstep
      · cases hstep
        exact Kept.finish nofun
      · cases hstep
  · -- the memory of a new object is taken
    rename_i ct size hpc
    rw [hpc] at h
    cases hstep
    exact Kept.take (hinv.balanced ct).used_le h (fun _ _ => trivial) (fun _ h => h)
  · -- the object is stored
    split at hstep
    · cases hstep
      exact Kept.finish nofun
    · cases hstep
  · -- the virtual memory is counted
    rename_i ct vsize psize hpc
    rw [hpc] at h
    obtain ⟨hahead, hlt⟩ := h
    split at hstep
    · cases hstep
      exact Kept.finish fun _ => hahead
    · cases hstep
      have hsum : t.totalVsize = (s.totalVsize + 0) % 2 ^ 32 := hahead.total
      apply Kept.goto
      refine ⟨hahead.used, ?_, hlt⟩
      change (t.totalVsize + vsize) % 2 ^ 32 = (s.totalVsize + vsize) % 2 ^ 32
      omega
  · -- its memory is taken
    rename_i ct vsize psize hpc
    rw [hpc] at h
    cases hstep
    exact Kept.take (hinv.balanced ct).used_le h (fun _ h => h) (fun _ h => h)
  · -- its area is looked for
    rename_i ct vsize psize area hpc
    rw [hpc] at h
    split at hstep
    · cases hstep
      exact Kept.goto h
    · split at hstep
      · cases hstep
      · cases hstep
        exact Kept.goto trivial
  · -- its object is made
    split at hstep
    · split at hstep
      · cases hstep
        exact Kept.finish nofun
      · cases hstep
    · split at hstep
      · cases hstep
      · cases hstep
        exact Kept.finish nofun
  · -- the memory is appended
    split at hstep
    · cases hstep
    · cases hstep
      exact Kept.finish nofun
  · -- no call begins
    rw [if_neg (by rw [hbusy]; nofun)] at hstep
    cases hstep

-- A call that runs alone, from the state it began in.
inductive Alone (cfg : Config κ) (i : ι) (s : State κ ι) : State κ ι → Prop where
  | first {t : State κ ι} (action : Action κ) : (s.threads i).finished = true →
      step cfg s i action = some t → Alone cfg i s t
  | next {t t' : State κ ι} (action : Action κ) : Alone cfg i s t →
      (t.threads i).finished = false → step cfg t i action = some t' → Alone cfg i s t'

theorem Kept.alone (h : Reachable cfg s) (ht : Alone cfg i s t) :
    Reachable cfg t ∧ Kept cfg s t (t.threads i) := by
  induction ht with
  | @first t action hfinished hstep =>
      refine ⟨h.tail ⟨i, action, hstep⟩, ?_⟩
      have hcall : call cfg s i action = some t := by
        unfold MemoryContainer.step at hstep
        split at hstep
        case h_15 =>
          rw [if_pos hfinished] at hstep
          exact hstep
        all_goals
          rename_i hpc
          rw [hpc] at hfinished
          cases hfinished
      exact Kept.begin (fun c => ((inv_of_reachable h).balanced c).used_le) (totalVsize_lt h) hcall
  | next action _ hbusy hstep ih =>
      obtain ⟨hreach, hkept⟩ := ih
      exact ⟨hreach.tail ⟨i, action, hstep⟩,
        Kept.step (inv_of_reachable hreach) hkept hbusy hstep⟩

end Alone

-- The containers hold what is charged to them, nothing is given back that was not taken, and a
-- call that fails has changed no counter.
theorem container_accounting (h : Reachable cfg s) :
    (∀ c, s.used c ≤ cfg.size c) ∧
      (∀ c, s.destroyed c = false → s.used c = live cfg s c + inProgress cfg s c) ∧
      (∀ c, s.destroyed c = true → live cfg s c + inProgress cfg s c = 0) ∧
      ((∀ i, (s.threads i).finished = true) → ∀ c, inProgress cfg s c = 0) ∧
      (∀ i ct size vsize error, s.threads i = .giveBack ct size vsize error →
        free (s.used ct) size = some (s.used ct - size)) ∧
      ∀ i s', Alone cfg i s s' → s'.threads i = .failed →
        s'.used = s.used ∧ s'.totalVsize = s.totalVsize := by
  have hinv := inv_of_reachable h
  refine ⟨fun c => (hinv.balanced c).used_le, fun c hd => ((hinv.balanced c).1 hd).1,
    fun c hd => ((hinv.balanced c).2 hd).1, inProgress_of_finished, ?_, ?_⟩
  · intro i ct size vsize error hpc
    have hcall := le_total (callCharge cfg ct) s.threads i
    have hcharges := (hinv.balanced ct).charges_le
    rw [hpc] at hcall
    change charge ct ct size ≤ _ at hcall
    rw [charge_self] at hcall
    unfold charges inProgress at hcharges
    exact if_pos (by omega)
  · intro i s' halone hfailed
    obtain ⟨_, hkept⟩ := Kept.alone h halone
    rw [hfailed] at hkept
    have hsum : s'.totalVsize = (s.totalVsize + 0) % 2 ^ 32 := hkept.total
    have hlt := totalVsize_lt h
    refine ⟨hkept.used, ?_⟩
    omega

-- One container of two megabytes, and a call that allocates half of it.
def smallConfig : Config Bool := ⟨fun _ => 0x200000, fun _ => by decide, true, 0x10000000⟩

def allocation : List (Action Bool) :=
  [.allocate .default 0x100000 0x400 false, .allocateMap (some 0x20), .allocateStore]

theorem container_accounting_allocated : ∃ s : State Bool Unit, Reachable smallConfig s ∧
    s.used true = 0x100000 ∧
      s.used true = live smallConfig s true + inProgress smallConfig s true := by
  obtain ⟨s, hrun, hused, hlive⟩ : ∃ s : State Bool Unit,
      allocation.foldlM (fun s action => step smallConfig s () action) State.start = some s ∧
        s.used true = 0x100000 ∧ s.destroyed true = false := ⟨_, rfl, rfl, rfl⟩
  have hmove : ∀ (s : State Bool Unit) action s', step smallConfig s () action = some s' →
      Step smallConfig s s' := fun _ action _ h => ⟨(), action, h⟩
  have hreach := reachable_of_foldlM hmove hrun
  exact ⟨s, hreach, hused, (container_accounting hreach).2.1 true hlive⟩

end Rpcsx.Lv2.MemoryContainer
