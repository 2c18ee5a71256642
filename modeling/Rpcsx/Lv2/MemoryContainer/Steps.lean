import Rpcsx.Lv2.MemoryContainer.Balance

namespace Rpcsx.Lv2.MemoryContainer

open Rpcsx.Data.Interleaving

section Plain

variable {κ : Type}

theorem Pc.plain_idle : (Pc.idle : Pc κ).Plain := ⟨rfl, rfl, rfl⟩

theorem Pc.plain_failed : (Pc.failed : Pc κ).Plain := ⟨rfl, rfl, rfl⟩

theorem Pc.plain_giveBack (ct : κ) (size : Nat) (vsize : Option Nat) (error : Bool) :
    (Pc.giveBack ct size vsize error).Plain := ⟨rfl, rfl, rfl⟩

-- The end of a call.
theorem Pc.plain_finish (error : Bool) : (if error then Pc.failed else Pc.idle : Pc κ).Plain := by
  cases error
  · exact Pc.plain_idle
  · exact Pc.plain_failed

end Plain

variable {κ ι : Type} [DecidableEq κ] [DecidableEq ι] [Fintype ι] {cfg : Config κ} {s s' : State κ ι}
  {i : ι}

section Parts

theorem callCharge_finish (c : κ) (error : Bool) :
    callCharge cfg c (if error then .failed else .idle) = 0 := by
  cases error
  · rfl
  · rfl

theorem Pc.finished_plain (cfg : Config κ) {pc : Pc κ} (h : pc.finished = true) :
    pc.Plain ∧ ∀ c, callCharge cfg c pc = 0 := by
  cases pc with
  | idle => exact ⟨Pc.plain_idle, fun _ => rfl⟩
  | failed => exact ⟨Pc.plain_failed, fun _ => rfl⟩
  | _ => cases h

omit [Fintype ι] in
theorem Effect.goto {pc : Pc κ} (hi : (s.threads i).Plain) (hpc : pc.Plain)
    (hcharge : ∀ c, callCharge cfg c pc = callCharge cfg c (s.threads i)) :
    Effect cfg s i (s.goto i pc) :=
  .calm pc s.totalVsize hi hpc hcharge

omit [Fintype ι] in
theorem Effect.finish (error : Bool) (hi : (s.threads i).Plain)
    (hzero : ∀ c, callCharge cfg c (s.threads i) = 0) : Effect cfg s i (s.finish i error) := by
  apply Effect.goto hi (Pc.plain_finish error)
  intro c
  rw [callCharge_finish, hzero]

theorem Inv.take (h : Inv cfg s) {ct : κ} {amount : Nat} {taken refused : Pc κ}
    (hi : (s.threads i).Plain) (hzero : ∀ c, callCharge cfg c (s.threads i) = 0)
    (hheld : taken.held = none) (hmakes : taken.makes = 0)
    (happends : ∀ place ct', taken.appends = some (place, ct') →
      ∃ vm, s.vms place = some vm ∧ vm.ct = ct')
    (htaken : ∀ c, callCharge cfg c taken = charge c ct amount)
    (hrefused : refused.Plain) (hcharge : ∀ c, callCharge cfg c refused = 0) :
    Effect cfg s i (s.take cfg i ct amount taken refused) := by
  unfold State.take
  rcases take_spec amount (h.balanced ct).used_le (cfg.size_lt ct) with
    ⟨hne, heq, hle⟩ | hrefuse
  · dsimp only
    rw [if_pos hne, heq]
    apply Effect.taken ct amount taken hi hheld hmakes happends _ hle
    intro c
    rw [htaken, hzero, Nat.zero_add]
  · dsimp only
    rw [if_neg (fun hne => hne hrefuse)]
    apply Effect.goto hi hrefused
    intro c
    rw [hcharge, hzero]

end Parts

theorem Inv.call (h : Inv cfg s) {action : Action κ} (hi : (s.threads i).finished = true)
    (hcall : call cfg s i action = some s') : Effect cfg s i s' := by
  obtain ⟨hplain, hzero⟩ := Pc.finished_plain cfg hi
  have hfail : Effect cfg s i (s.finish i true) := Effect.finish true hplain hzero
  cases action with
  | allocate source size flags fault =>
      simp only [MemoryContainer.call] at hcall
      split at hcall
      · cases hcall
        exact hfail
      · split at hcall
        · cases hcall
          exact hfail
        · cases hcall
          exact h.take hplain hzero rfl rfl nofun (fun _ => rfl) Pc.plain_failed fun _ => rfl
  | free slot =>
      cases hcall
      exact Effect.goto hplain ⟨rfl, rfl, rfl⟩ fun c => (hzero c).symm
  | containerCreate size =>
      simp only [MemoryContainer.call] at hcall
      split at hcall
      · cases hcall
        exact hfail
      · cases hcall
        exact h.take hplain hzero rfl rfl nofun (fun _ => rfl) Pc.plain_failed fun _ => rfl
  | containerDestroy place =>
      simp only [MemoryContainer.call] at hcall
      split at hcall
      · cases hcall
        exact hfail
      · rename_i ct hct
        split at hcall
        · rename_i hunused
          cases hcall
          apply Effect.destroyed place ct _ hplain (Pc.plain_giveBack ..) hct hunused
          intro c
          rw [hzero, Nat.zero_add]
          rfl
        · cases hcall
          exact hfail
  | shmAllocate source size flags =>
      simp only [MemoryContainer.call] at hcall
      split at hcall
      · cases hcall
        exact hfail
      · split at hcall
        · cases hcall
          exact hfail
        · cases hcall
          exact Effect.goto hplain ⟨rfl, rfl, rfl⟩ fun c => (hzero c).symm
  | shmAgain place =>
      simp only [MemoryContainer.call] at hcall
      split at hcall
      · cases hcall
      · rename_i shm hshm
        cases hcall
        apply Effect.shm place _ _ hplain (Pc.plain_finish false)
        intro c
        rw [hshm, hzero, callCharge_finish]
        rfl
  | shmFree place busy =>
      simp only [MemoryContainer.call] at hcall
      split at hcall
      · cases hcall
        exact hfail
      · rename_i shm hshm
        split at hcall
        · cases hcall
          exact hfail
        · split at hcall
          · cases hcall
            apply Effect.shm place none _ hplain (Pc.plain_giveBack ..)
            intro c
            rw [hshm, hzero, Nat.zero_add]
            rfl
          · cases hcall
            apply Effect.shm place _ _ hplain (Pc.plain_finish false)
            intro c
            rw [hshm, hzero, callCharge_finish]
            rfl
  | vmMap source vsize psize autoPolicy different =>
      simp only [MemoryContainer.call] at hcall
      split at hcall
      · cases hcall
        exact hfail
      · split at hcall
        · cases hcall
          exact hfail
        · cases hcall
          exact Effect.goto hplain ⟨rfl, rfl, rfl⟩ fun c => (hzero c).symm
  | vmUnmap place area =>
      simp only [MemoryContainer.call] at hcall
      split at hcall
      · cases hcall
      · rename_i hreads
        split at hcall
        · cases hcall
          exact hfail
        · rename_i vm hvm
          split at hcall
          · rename_i hmapped
            cases hcall
            apply Effect.unmapped place area vm _ hplain (Pc.plain_giveBack ..) _ hvm hmapped
            · intro c
              rw [hzero, Nat.zero_add]
              rfl
            · intro j
              have hj : ¬(s.threads j).reads = true := fun hj => hreads ⟨j, hj⟩
              cases hpc : s.threads j with
              | vmAppend place' ct' size' =>
                  rw [hpc] at hj
                  exact absurd rfl hj
              | _ => rfl
          · cases hcall
  | vmAppend place size =>
      simp only [MemoryContainer.call] at hcall
      split at hcall
      · cases hcall
        exact hfail
      · split at hcall
        · cases hcall
          exact hfail
        · rename_i vm hvm
          cases hcall
          apply h.take hplain hzero rfl rfl _ (fun _ => rfl) Pc.plain_failed fun _ => rfl
          intro place' ct' heq
          cases heq
          exact ⟨vm, hvm, rfl⟩
  | vmReturn place size =>
      simp only [MemoryContainer.call] at hcall
      split at hcall
      · cases hcall
        exact hfail
      · split at hcall
        · cases hcall
          exact hfail
        · rename_i vm hvm
          split at hcall
          · cases hcall
            exact hfail
          · rename_i henough
            cases hcall
            apply Effect.resized place vm { vm with psize := vm.psize - size } _ hvm rfl hplain.held
              hplain.makes (Pc.plain_giveBack ..)
            intro c
            rw [hzero, Nat.zero_add]
            change charge c vm.ct size + charge c vm.ct (vm.psize - size) = charge c vm.ct vm.psize
            unfold charge
            split
            · omega
            · rfl
  | _ => cases hcall

-- The step of a call in progress, or of a thread that begins one.
theorem Inv.step_effect (h : Inv cfg s) {action : Action κ}
    (hstep : step cfg s i action = some s') : Effect cfg s i s' := by
  unfold step at hstep
  split at hstep
  · -- the block is allocated
    rename_i ct size fault slot hpc
    have hi : (s.threads i).Plain := by
      rw [hpc]
      exact ⟨rfl, rfl, rfl⟩
    split at hstep
    · cases hstep
      apply Effect.goto hi (Pc.plain_giveBack ..)
      intro c
      rw [hpc]
      rfl
    · rename_i slot
      split at hstep
      · rename_i hempty
        cases hstep
        apply Effect.acquired slot size _ hi rfl rfl rfl
        · rw [hempty]
          nofun
        · intro c
          rw [hpc, hempty]
          rfl
      · cases hstep
  · -- it gets its container
    rename_i ct slot size fault hpc
    have hheld : (s.threads i).held = some (slot, size) := by rw [hpc]; rfl
    have hslot := h.held.slots i slot size hheld
    rw [hslot] at hstep
    dsimp only at hstep
    cases hstep
    cases fault with
    | false =>
        apply Effect.released slot size (.owned ct size) _ hheld (by rw [hpc]; rfl)
          (by rw [hpc]; rfl) (Pc.plain_finish false)
        intro c
        rw [hpc, callCharge_finish, Nat.zero_add]
        rfl
    | true =>
        apply Effect.released slot size (.owned ct size) _ hheld (by rw [hpc]; rfl)
          (by rw [hpc]; rfl) ⟨rfl, rfl, rfl⟩
        intro c
        rw [hpc]
        change 0 + charge c ct size = charge c ct size
        rw [Nat.zero_add]
  · -- it loses its container
    rename_i slot error hpc
    have hi : (s.threads i).Plain := by
      rw [hpc]
      exact ⟨rfl, rfl, rfl⟩
    have hzero : ∀ c, callCharge cfg c (s.threads i) = 0 := by
      intro c
      rw [hpc]
      rfl
    split at hstep
    · rename_i ct size howned
      cases hstep
      apply Effect.acquired slot size _ hi rfl rfl rfl
      · rw [howned]
        nofun
      · intro c
        rw [hzero, howned, Nat.zero_add]
        rfl
    · cases hstep
      exact Effect.finish true hi hzero
  · -- it is deallocated
    rename_i ct slot size error hpc
    have hheld : (s.threads i).held = some (slot, size) := by rw [hpc]; rfl
    have hslot := h.held.slots i slot size hheld
    rw [hslot] at hstep
    dsimp only at hstep
    cases hstep
    apply Effect.released slot size .empty _ hheld (by rw [hpc]; rfl) (by rw [hpc]; rfl)
      (Pc.plain_giveBack ..)
    intro c
    rw [hpc]
    rfl
  · -- memory is given back
    rename_i ct size vsize error hpc
    have hi : (s.threads i).Plain := by
      rw [hpc]
      exact Pc.plain_giveBack ..
    split at hstep
    · cases hstep
    · rename_i value hfree
      unfold free at hfree
      split at hfree
      · rename_i hle
        cases hfree
        dsimp only at hstep
        split at hstep
        · cases hstep
          apply Effect.returned ct size _ hi (Pc.plain_finish error) _ hle
          intro c
          rw [hpc, callCharge_finish, Nat.zero_add]
          rfl
        · cases hstep
          apply Effect.returned ct size _ hi ⟨rfl, rfl, rfl⟩ _ hle
          intro c
          rw [hpc]
          change 0 + charge c ct size = charge c ct size
          rw [Nat.zero_add]
      · cases hfree
  · -- the virtual memory is discounted
    rename_i vsize error hpc
    cases hstep
    apply Effect.calm _ _ _ (Pc.plain_finish error)
    · intro c
      rw [hpc, callCharge_finish]
      rfl
    · rw [hpc]
      exact ⟨rfl, rfl, rfl⟩
  · -- a container is made
    rename_i size place ct hpc
    have hi : (s.threads i).Plain := by
      rw [hpc]
      exact ⟨rfl, rfl, rfl⟩
    split at hstep
    · cases hstep
      apply Effect.goto hi (Pc.plain_giveBack ..)
      intro c
      rw [hpc]
      rfl
    · rename_i place
      split at hstep
      · rename_i hnew
        obtain ⟨hfree, hsize, hne, _, hlive, hother⟩ := hnew
        cases hstep
        apply Effect.created place ct _ hi (Pc.plain_finish false) hfree hne
          (by simpa using hlive) hother
        intro c
        rw [hpc, callCharge_finish, Nat.zero_add, ← hsize]
        rfl
      · cases hstep
  · -- the memory of a new object is taken
    rename_i ct size hpc
    cases hstep
    have hi : (s.threads i).Plain := by
      rw [hpc]
      exact ⟨rfl, rfl, rfl⟩
    have hzero : ∀ c, callCharge cfg c (s.threads i) = 0 := by
      intro c
      rw [hpc]
      rfl
    exact h.take hi hzero rfl rfl nofun (fun _ => rfl) Pc.plain_failed fun _ => rfl
  · -- the object is stored
    rename_i ct size place hpc
    split at hstep
    · rename_i hfree
      cases hstep
      apply Effect.shm place _ _ _ (Pc.plain_finish false)
      · intro c
        rw [hpc, hfree, callCharge_finish, Nat.zero_add]
        rfl
      · rw [hpc]
        exact ⟨rfl, rfl, rfl⟩
    · cases hstep
  · -- the virtual memory is counted
    rename_i ct vsize psize hpc
    have hi : (s.threads i).Plain := by
      rw [hpc]
      exact ⟨rfl, rfl, rfl⟩
    have hzero : ∀ c, callCharge cfg c (s.threads i) = 0 := by
      intro c
      rw [hpc]
      rfl
    split at hstep
    · cases hstep
      exact Effect.finish true hi hzero
    · cases hstep
      apply Effect.calm _ _ hi ⟨rfl, rfl, rfl⟩
      intro c
      rw [hzero]
      rfl
  · -- its memory is taken
    rename_i ct vsize psize hpc
    cases hstep
    have hi : (s.threads i).Plain := by
      rw [hpc]
      exact ⟨rfl, rfl, rfl⟩
    have hzero : ∀ c, callCharge cfg c (s.threads i) = 0 := by
      intro c
      rw [hpc]
      rfl
    exact h.take hi hzero rfl rfl nofun (fun _ => rfl) ⟨rfl, rfl, rfl⟩ fun _ => rfl
  · -- an area is looked for
    rename_i ct vsize psize area hpc
    have hi : (s.threads i).Plain := by
      rw [hpc]
      exact ⟨rfl, rfl, rfl⟩
    split at hstep
    · cases hstep
      apply Effect.goto hi (Pc.plain_giveBack ..)
      intro c
      rw [hpc]
      rfl
    · rename_i area
      split at hstep
      · cases hstep
      · rename_i hfree
        cases hstep
        apply Effect.mapped area _ hi rfl rfl rfl (by simpa using hfree)
        intro c
        rw [hpc]
        rfl
  · -- its object is made
    rename_i ct vsize psize place hpc
    have hmakes : (s.threads i).makes = 1 := by rw [hpc]; rfl
    split at hstep
    · rename_i place
      split at hstep
      · rename_i hfree
        cases hstep
        apply Effect.made place _ _ (by rw [hpc]; rfl) hmakes (Pc.plain_finish false) hfree
        intro c
        rw [hpc, callCharge_finish, Nat.zero_add]
        rfl
      · cases hstep
    · -- there are fewer objects than areas, so that one more has a place
      split at hstep
      · cases hstep
      · rename_i hfull
        have hoccupied : total occupied s.vms = 16 := by
          have hone : ∀ place, occupied (s.vms place) = 1 := by
            intro place
            cases hvm : s.vms place with
            | none => exact absurd ⟨place, hvm⟩ hfull
            | some vm => rfl
          unfold total
          simp [hone]
        have hcount : total count s.mapped ≤ 16 := by
          have hle : ∀ area, count (s.mapped area) ≤ 1 := by
            intro area
            unfold count
            split
            · exact Nat.le_refl 1
            · exact Nat.zero_le 1
          calc total count s.mapped ≤ ∑ _area : Fin 16, 1 := Finset.sum_le_sum fun area _ => hle area
            _ = 16 := by simp
        have hle := le_total Pc.makes s.threads i
        have := h.areas
        omega
  · -- the memory is appended
    rename_i place ct size hpc
    split at hstep
    · cases hstep
    · rename_i vm hvm
      cases hstep
      have hct : vm.ct = ct := by
        obtain ⟨vm', hvm', hct⟩ := h.appending i place ct (by rw [hpc]; rfl)
        rw [hvm] at hvm'
        cases hvm'
        exact hct
      -- the sum is charged to the container
      have hsum : vm.psize + size < 2 ^ 32 := by
        have hle := (h.balanced ct).charges_le
        have hused := (h.balanced ct).used_le
        have hsize := cfg.size_lt ct
        have hvms := le_total (vmCharge ct) s.vms place
        have hcall := le_total (callCharge cfg ct) s.threads i
        rw [hvm] at hvms
        rw [hpc] at hcall
        change charge ct vm.ct vm.psize ≤ _ at hvms
        change charge ct ct size ≤ _ at hcall
        rw [hct, charge_self] at hvms
        rw [charge_self] at hcall
        unfold charges live inProgress at hle
        omega
      apply Effect.resized place vm { vm with psize := (vm.psize + size) % 2 ^ 32 } _ hvm rfl
        (by rw [hpc]; rfl) (by rw [hpc]; rfl) (Pc.plain_finish false)
      intro c
      rw [hpc, callCharge_finish, Nat.zero_add, Nat.mod_eq_of_lt hsum]
      change charge c vm.ct (vm.psize + size) = charge c ct size + charge c vm.ct vm.psize
      rw [hct]
      unfold charge
      split
      · omega
      · rfl
  · -- a call begins
    split at hstep
    · rename_i hi
      exact h.call hi hstep
    · cases hstep

end Rpcsx.Lv2.MemoryContainer
