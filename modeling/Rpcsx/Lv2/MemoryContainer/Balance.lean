import Rpcsx.Data.Interleaving
import Rpcsx.Lv2.MemoryContainer

namespace Rpcsx.Lv2.MemoryContainer

open Rpcsx.Data.Interleaving

section Charges

variable {κ ι : Type} [DecidableEq κ]

-- What is charged to a container `c` for an amount of the container `ct`.
def charge (c ct : κ) (amount : Nat) : Nat := if ct = c then amount else 0

theorem charge_self (c : κ) (amount : Nat) : charge c c amount = amount := if_pos rfl

theorem charge_of_ne {c ct : κ} (h : ct ≠ c) (amount : Nat) : charge c ct amount = 0 := if_neg h

def slotCharge (c : κ) : Slot κ → Nat
  | .owned ct size => charge c ct size
  | _ => 0

def shmCharge (c : κ) : Option (Shm κ) → Nat
  | some shm => charge c shm.ct shm.size
  | none => 0

def vmCharge (c : κ) : Option (Vm κ) → Nat
  | some vm => charge c vm.ct vm.psize
  | none => 0

-- The sub-containers are charged to the default container.
def containerCharge (cfg : Config κ) (c : κ) : Option κ → Nat
  | some ct => charge c cfg.dct (cfg.size ct)
  | none => 0

-- What a call in progress has taken, or has still to give back.
def callCharge (cfg : Config κ) (c : κ) : Pc κ → Nat
  | .allocateMap ct size _ => charge c ct size
  | .allocateStore ct _ size _ => charge c ct size
  | .freeDealloc ct _ size _ => charge c ct size
  | .giveBack ct size _ _ => charge c ct size
  | .containerMake size => charge c cfg.dct size
  | .shmStore ct size => charge c ct size
  | .vmFindMap ct _ psize => charge c ct psize
  | .vmMake ct _ psize => charge c ct psize
  | .vmAppend _ ct size => charge c ct size
  | _ => 0

variable [Fintype ι] (cfg : Config κ) (s : State κ ι) (c : κ)

-- The live allocations, shared memories, vm areas and sub-containers.
def live : Nat :=
  total (slotCharge c) s.slots + total (shmCharge c) s.shms + total (vmCharge c) s.vms +
    total (containerCharge cfg c) s.containers

def inProgress : Nat := total (callCharge cfg c) s.threads

def charges : Nat := live cfg s c + inProgress cfg s c

-- A container that exists has used what is charged to it; a destroyed one is not charged.
def Balanced : Prop :=
  (s.destroyed c = false → s.used c = charges cfg s c ∧ s.used c ≤ cfg.size c) ∧
    (s.destroyed c = true → charges cfg s c = 0 ∧ s.used c = cfg.size c)

variable {cfg} {s} {c} {s' : State κ ι}

theorem Balanced.used_le (h : Balanced cfg s c) : s.used c ≤ cfg.size c := by
  cases hd : s.destroyed c with
  | false => exact (h.1 hd).2
  | true => exact le_of_eq (h.2 hd).2

theorem Balanced.charges_le (h : Balanced cfg s c) : charges cfg s c ≤ s.used c := by
  cases hd : s.destroyed c with
  | false => exact le_of_eq (h.1 hd).1.symm
  | true =>
      rw [(h.2 hd).1]
      exact Nat.zero_le _

-- A step that moves charges.
theorem Balanced.move (h : Balanced cfg s c) (hused : s'.used c = s.used c)
    (hdestroyed : s'.destroyed c = s.destroyed c) (hcharges : charges cfg s' c = charges cfg s c) :
    Balanced cfg s' c := by
  unfold Balanced
  rw [hused, hdestroyed, hcharges]
  exact h

theorem take_spec {size used : Nat} (amount : Nat) (hused : used ≤ size) (hsize : size < 2 ^ 32) :
    (take size used amount).2 ≠ 0 ∧ take size used amount = (used + amount, amount) ∧
        amount ≤ size - used ∨
      (take size used amount).2 = 0 := by
  unfold take
  have hsub : (size + 2 ^ 32 - used) % 2 ^ 32 = size - used := by omega
  rw [hsub]
  by_cases hle : size - used ≥ amount
  · rw [if_pos hle]
    have hsum : (used + amount) % 2 ^ 32 = used + amount := Nat.mod_eq_of_lt (by omega)
    have hamount : amount % 2 ^ 32 = amount := Nat.mod_eq_of_lt (by omega)
    rw [hsum, hamount]
    by_cases hzero : amount = 0
    · exact Or.inr hzero
    · exact Or.inl ⟨hzero, rfl, hle⟩
  · rw [if_neg hle]
    exact Or.inr rfl

-- A step that takes an amount and has it in its call.
theorem Balanced.take (h : Balanced cfg s c) {ct : κ} {amount : Nat}
    (hamount : amount ≤ cfg.size ct - s.used ct)
    (hused : s'.used = Function.update s.used ct (s.used ct + amount))
    (hdestroyed : s'.destroyed = s.destroyed)
    (hcharges : charges cfg s' c = charges cfg s c + charge c ct amount) : Balanced cfg s' c := by
  unfold Balanced
  rw [hused, hdestroyed, hcharges]
  by_cases he : c = ct
  · subst he
    rw [Function.update_self, charge_self]
    constructor
    · intro hd
      have := h.1 hd
      omega
    · intro hd
      have := h.2 hd
      omega
  · rw [Function.update_of_ne he, charge_of_ne (Ne.symm he), Nat.add_zero]
    exact h

-- A step that gives back what its call had.
theorem Balanced.free (h : Balanced cfg s c) {ct : κ} {amount : Nat} (hle : amount ≤ s.used ct)
    (hused : s'.used = Function.update s.used ct (s.used ct - amount))
    (hdestroyed : s'.destroyed = s.destroyed)
    (hcharges : charges cfg s' c + charge c ct amount = charges cfg s c) : Balanced cfg s' c := by
  unfold Balanced
  rw [hused, hdestroyed]
  by_cases he : c = ct
  · subst he
    rw [charge_self] at hcharges
    rw [Function.update_self]
    constructor
    · intro hd
      have := h.1 hd
      omega
    · intro hd
      have := h.2 hd
      omega
  · rw [charge_of_ne (Ne.symm he), Nat.add_zero] at hcharges
    rw [Function.update_of_ne he, hcharges]
    exact h

section Updates

variable (cfg : Config κ) (s : State κ ι) (c : κ)

theorem charges_goto [DecidableEq ι] (i : ι) (pc : Pc κ) :
    charges cfg (s.goto i pc) c + callCharge cfg c (s.threads i) =
      charges cfg s c + callCharge cfg c pc := by
  have h := total_update_add (callCharge cfg c) s.threads i pc
  change live cfg s c + total (callCharge cfg c) (Function.update s.threads i pc) + _ =
    live cfg s c + total (callCharge cfg c) s.threads + _
  omega

theorem charges_slots (slot : Fin 65536) (value : Slot κ) :
    charges cfg { s with slots := Function.update s.slots slot value } c +
      slotCharge c (s.slots slot) = charges cfg s c + slotCharge c value := by
  have h := total_update_add (slotCharge c) s.slots slot value
  unfold charges live inProgress
  dsimp only
  omega

theorem charges_shms (place : Fin 8192) (value : Option (Shm κ)) :
    charges cfg { s with shms := Function.update s.shms place value } c +
      shmCharge c (s.shms place) = charges cfg s c + shmCharge c value := by
  have h := total_update_add (shmCharge c) s.shms place value
  unfold charges live inProgress
  dsimp only
  omega

theorem charges_vms (place : Fin 16) (value : Option (Vm κ)) :
    charges cfg { s with vms := Function.update s.vms place value } c +
      vmCharge c (s.vms place) = charges cfg s c + vmCharge c value := by
  have h := total_update_add (vmCharge c) s.vms place value
  unfold charges live inProgress
  dsimp only
  omega

theorem charges_containers (place : Fin 16) (value : Option κ) :
    charges cfg { s with containers := Function.update s.containers place value } c +
      containerCharge cfg c (s.containers place) =
        charges cfg s c + containerCharge cfg c value := by
  have h := total_update_add (containerCharge cfg c) s.containers place value
  unfold charges live inProgress
  dsimp only
  omega

end Updates

end Charges

end Rpcsx.Lv2.MemoryContainer

namespace Rpcsx.Lv2.MemoryContainer

open Rpcsx.Data.Interleaving

variable {κ ι : Type}

-- The block that a call has allocated or is about to deallocate.
def Pc.held : Pc κ → Option (Fin 65536 × Nat)
  | .allocateStore _ slot size _ => some (slot, size)
  | .freeDealloc _ slot size _ => some (slot, size)
  | _ => none

-- The object that a call of sys_vm_append_memory works on.
def Pc.appends : Pc κ → Option (Fin 16 × κ)
  | .vmAppend place ct _ => some (place, ct)
  | _ => none

-- Whether a call has an area and makes its object next.
def Pc.makes : Pc κ → Nat
  | .vmMake _ _ _ => 1
  | _ => 0

structure Pc.Plain (pc : Pc κ) : Prop where
  held : pc.held = none
  appends : pc.appends = none
  makes : pc.makes = 0

def occupied : Option (Vm κ) → Nat
  | some _ => 1
  | none => 0

def count (mapped : Bool) : Nat := if mapped then 1 else 0

variable [DecidableEq κ] [DecidableEq ι]

-- What a step can do: to the accounts of the containers and to the objects.
inductive Effect (cfg : Config κ) (s : State κ ι) (i : ι) : State κ ι → Prop where
  | calm (pc : Pc κ) (totalVsize : Nat) : (s.threads i).Plain → pc.Plain →
      (∀ c, callCharge cfg c pc = callCharge cfg c (s.threads i)) →
      Effect cfg s i ({ s with totalVsize := totalVsize }.goto i pc)
  | taken (ct : κ) (amount : Nat) (pc : Pc κ) : (s.threads i).Plain → pc.held = none →
      pc.makes = 0 →
      (∀ place ct', pc.appends = some (place, ct') → ∃ vm, s.vms place = some vm ∧ vm.ct = ct') →
      (∀ c, callCharge cfg c pc = callCharge cfg c (s.threads i) + charge c ct amount) →
      amount ≤ cfg.size ct - s.used ct →
      Effect cfg s i ({ s with used := Function.update s.used ct (s.used ct + amount) }.goto i pc)
  | returned (ct : κ) (amount : Nat) (pc : Pc κ) : (s.threads i).Plain → pc.Plain →
      (∀ c, callCharge cfg c pc + charge c ct amount = callCharge cfg c (s.threads i)) →
      amount ≤ s.used ct →
      Effect cfg s i ({ s with used := Function.update s.used ct (s.used ct - amount) }.goto i pc)
  -- a block appears or loses its owner, and the call holds it
  | acquired (slot : Fin 65536) (size : Nat) (pc : Pc κ) : (s.threads i).Plain →
      pc.held = some (slot, size) → pc.appends = none → pc.makes = 0 →
      (∀ size', s.slots slot ≠ .block size') →
      (∀ c, callCharge cfg c pc =
        callCharge cfg c (s.threads i) + slotCharge c (s.slots slot)) →
      Effect cfg s i ({ s with slots := Function.update s.slots slot (.block size) }.goto i pc)
  -- the block that the call holds gets an owner or disappears
  | released (slot : Fin 65536) (size : Nat) (value : Slot κ) (pc : Pc κ) :
      (s.threads i).held = some (slot, size) → (s.threads i).appends = none →
      (s.threads i).makes = 0 → pc.Plain →
      (∀ c, callCharge cfg c pc + slotCharge c value = callCharge cfg c (s.threads i)) →
      Effect cfg s i ({ s with slots := Function.update s.slots slot value }.goto i pc)
  | shm (place : Fin 8192) (value : Option (Shm κ)) (pc : Pc κ) : (s.threads i).Plain → pc.Plain →
      (∀ c, callCharge cfg c pc + shmCharge c value =
        callCharge cfg c (s.threads i) + shmCharge c (s.shms place)) →
      Effect cfg s i ({ s with shms := Function.update s.shms place value }.goto i pc)
  | resized (place : Fin 16) (vm vm' : Vm κ) (pc : Pc κ) : s.vms place = some vm → vm'.ct = vm.ct →
      (s.threads i).held = none → (s.threads i).makes = 0 → pc.Plain →
      (∀ c, callCharge cfg c pc + vmCharge c (some vm') =
        callCharge cfg c (s.threads i) + vmCharge c (some vm)) →
      Effect cfg s i ({ s with vms := Function.update s.vms place (some vm') }.goto i pc)
  | mapped (area : Fin 16) (pc : Pc κ) : (s.threads i).Plain → pc.held = none →
      pc.appends = none → pc.makes = 1 → s.mapped area = false →
      (∀ c, callCharge cfg c pc = callCharge cfg c (s.threads i)) →
      Effect cfg s i ({ s with mapped := Function.update s.mapped area true }.goto i pc)
  | made (place : Fin 16) (vm : Vm κ) (pc : Pc κ) : (s.threads i).held = none →
      (s.threads i).makes = 1 → pc.Plain → s.vms place = none →
      (∀ c, callCharge cfg c pc + vmCharge c (some vm) = callCharge cfg c (s.threads i)) →
      Effect cfg s i ({ s with vms := Function.update s.vms place (some vm) }.goto i pc)
  | unmapped (place area : Fin 16) (vm : Vm κ) (pc : Pc κ) : (s.threads i).Plain → pc.Plain →
      (∀ j, (s.threads j).appends = none) → s.vms place = some vm → s.mapped area = true →
      (∀ c, callCharge cfg c pc = callCharge cfg c (s.threads i) + vmCharge c (some vm)) →
      Effect cfg s i ({ s with
        vms := Function.update s.vms place none
        mapped := Function.update s.mapped area false }.goto i pc)
  | created (place : Fin 16) (ct : κ) (pc : Pc κ) : (s.threads i).Plain → pc.Plain →
      s.containers place = none → ct ≠ cfg.dct → s.destroyed ct = false →
      (∀ other, s.containers other ≠ some ct) →
      (∀ c, callCharge cfg c pc + containerCharge cfg c (some ct) =
        callCharge cfg c (s.threads i)) →
      Effect cfg s i ({ s with
        containers := Function.update s.containers place (some ct) }.goto i pc)
  | destroyed (place : Fin 16) (ct : κ) (pc : Pc κ) : (s.threads i).Plain → pc.Plain →
      s.containers place = some ct → s.used ct = 0 →
      (∀ c, callCharge cfg c pc =
        callCharge cfg c (s.threads i) + containerCharge cfg c (some ct)) →
      Effect cfg s i ({ s with
        used := Function.update s.used ct (cfg.size ct)
        destroyed := Function.update s.destroyed ct true
        containers := Function.update s.containers place none }.goto i pc)

-- A block that is held by a call is there without an owner, and no other call holds it.
structure Held (slots : Fin 65536 → Slot κ) (threads : ι → Pc κ) : Prop where
  slots : ∀ j slot size, (threads j).held = some (slot, size) → slots slot = .block size
  apart : ∀ j k slot n m, (threads j).held = some (slot, n) → (threads k).held = some (slot, m) →
    j = k

def Appending (vms : Fin 16 → Option (Vm κ)) (threads : ι → Pc κ) : Prop :=
  ∀ j place ct, (threads j).appends = some (place, ct) → ∃ vm, vms place = some vm ∧ vm.ct = ct

structure Registered (cfg : Config κ) (containers : Fin 16 → Option κ) (destroyed : κ → Bool) :
    Prop where
  live : ∀ place ct, containers place = some ct → destroyed ct = false ∧ ct ≠ cfg.dct
  distinct : ∀ p q ct, containers p = some ct → containers q = some ct → p = q
  dct : destroyed cfg.dct = false

variable [Fintype ι]

structure Inv (cfg : Config κ) (s : State κ ι) : Prop where
  balanced : ∀ c, Balanced cfg s c
  held : Held s.slots s.threads
  appending : Appending s.vms s.threads
  -- every object of sys_vm_memory_map, and every one to come, has an area
  areas : total occupied s.vms + total Pc.makes s.threads ≤ total count s.mapped
  registered : Registered cfg s.containers s.destroyed

section Balance

variable {cfg : Config κ} {s s' : State κ ι} {i : ι}

theorem Effect.balanced (he : Effect cfg s i s') (h : Inv cfg s) (c : κ) : Balanced cfg s' c := by
  have hc := h.balanced c
  cases he with
  | calm pc totalVsize _ _ hcharge =>
      have hgoto := charges_goto cfg { s with totalVsize := totalVsize } c i pc
      refine hc.move rfl rfl ?_
      have := hcharge c
      change _ + callCharge cfg c (s.threads i) = charges cfg s c + _ at hgoto
      omega
  | taken ct amount pc _ _ _ _ hcharge hamount =>
      have hgoto := charges_goto cfg
        { s with used := Function.update s.used ct (s.used ct + amount) } c i pc
      refine hc.take hamount rfl rfl ?_
      have := hcharge c
      change _ + callCharge cfg c (s.threads i) = charges cfg s c + _ at hgoto
      omega
  | returned ct amount pc _ _ hcharge hamount =>
      have hgoto := charges_goto cfg
        { s with used := Function.update s.used ct (s.used ct - amount) } c i pc
      refine hc.free hamount rfl rfl ?_
      have := hcharge c
      change _ + callCharge cfg c (s.threads i) = charges cfg s c + _ at hgoto
      omega
  | acquired slot size pc _ _ _ _ _ hcharge =>
      have hslots := charges_slots cfg s c slot (.block size)
      have hgoto := charges_goto cfg
        { s with slots := Function.update s.slots slot (.block size) } c i pc
      refine hc.move rfl rfl ?_
      have := hcharge c
      have hblock : slotCharge c (.block size : Slot κ) = 0 := rfl
      dsimp only at hgoto
      omega
  | released slot size value pc hheld _ _ _ hcharge =>
      have hslots := charges_slots cfg s c slot value
      have hgoto := charges_goto cfg
        { s with slots := Function.update s.slots slot value } c i pc
      refine hc.move rfl rfl ?_
      have := hcharge c
      have hblock : slotCharge c (s.slots slot) = 0 := by
        rw [h.held.slots i slot size hheld]
        rfl
      dsimp only at hgoto
      omega
  | shm place value pc _ _ hcharge =>
      have hshms := charges_shms cfg s c place value
      have hgoto := charges_goto cfg
        { s with shms := Function.update s.shms place value } c i pc
      refine hc.move rfl rfl ?_
      have := hcharge c
      dsimp only at hgoto
      omega
  | resized place vm vm' pc hvm _ _ _ _ hcharge =>
      have hvms := charges_vms cfg s c place (some vm')
      have hgoto := charges_goto cfg
        { s with vms := Function.update s.vms place (some vm') } c i pc
      refine hc.move rfl rfl ?_
      have := hcharge c
      rw [hvm] at hvms
      dsimp only at hgoto
      omega
  | mapped area pc _ _ _ _ _ hcharge =>
      have hgoto := charges_goto cfg
        { s with mapped := Function.update s.mapped area true } c i pc
      refine hc.move rfl rfl ?_
      have := hcharge c
      change _ + callCharge cfg c (s.threads i) = charges cfg s c + _ at hgoto
      omega
  | made place vm pc _ _ _ hvm hcharge =>
      have hvms := charges_vms cfg s c place (some vm)
      have hgoto := charges_goto cfg
        { s with vms := Function.update s.vms place (some vm) } c i pc
      refine hc.move rfl rfl ?_
      have := hcharge c
      rw [hvm] at hvms
      have hnone : vmCharge c (none : Option (Vm κ)) = 0 := rfl
      dsimp only at hgoto
      omega
  | unmapped place area vm pc _ _ _ hvm _ hcharge =>
      have hvms := charges_vms cfg s c place none
      have hgoto := charges_goto cfg
        { s with
          vms := Function.update s.vms place none
          mapped := Function.update s.mapped area false } c i pc
      refine hc.move rfl rfl ?_
      have := hcharge c
      rw [hvm] at hvms
      have hnone : vmCharge c (none : Option (Vm κ)) = 0 := rfl
      change _ + callCharge cfg c (s.threads i) =
        charges cfg { s with vms := Function.update s.vms place none } c + _ at hgoto
      omega
  | created place ct pc _ _ hplace _ _ _ hcharge =>
      have hcontainers := charges_containers cfg s c place (some ct)
      have hgoto := charges_goto cfg
        { s with containers := Function.update s.containers place (some ct) } c i pc
      refine hc.move rfl rfl ?_
      have := hcharge c
      rw [hplace] at hcontainers
      have hnone : containerCharge cfg c none = 0 := rfl
      dsimp only at hgoto
      omega
  | destroyed place ct pc _ _ hplace hzero hcharge =>
      have hcontainers := charges_containers cfg s c place none
      have hgoto := charges_goto cfg
        { s with
          used := Function.update s.used ct (cfg.size ct)
          destroyed := Function.update s.destroyed ct true
          containers := Function.update s.containers place none } c i pc
      have hcharges := hcharge c
      rw [hplace] at hcontainers
      have hnone : containerCharge cfg c none = 0 := rfl
      change _ + callCharge cfg c (s.threads i) =
        charges cfg { s with containers := Function.update s.containers place none } c + _ at hgoto
      by_cases heq : c = ct
      · subst heq
        have hlive := (h.registered.live place c hplace).1
        have hused := (hc.1 hlive).1
        constructor
        · intro hd
          change Function.update s.destroyed c true c = false at hd
          rw [Function.update_self] at hd
          cases hd
        · intro _
          refine ⟨by omega, ?_⟩
          change Function.update s.used c (cfg.size c) c = cfg.size c
          exact Function.update_self ..
      · refine hc.move ?_ ?_ ?_
        · exact Function.update_of_ne heq ..
        · exact Function.update_of_ne heq ..
        · omega

end Balance

section Parts

variable {threads : ι → Pc κ} {i : ι} {pc : Pc κ}

omit [DecidableEq κ] [Fintype ι] in
theorem Held.plain {slots slots' : Fin 65536 → Slot κ} (h : Held slots threads)
    (hpc : pc.held = none)
    (hslots : ∀ j, j ≠ i → ∀ slot size, (threads j).held = some (slot, size) →
      slots' slot = slots slot) : Held slots' (Function.update threads i pc) := by
  have hother : ∀ j slot size, (Function.update threads i pc j).held = some (slot, size) →
      j ≠ i ∧ (threads j).held = some (slot, size) := by
    intro j slot size hj
    by_cases he : j = i
    · rw [he, Function.update_self, hpc] at hj
      cases hj
    · rw [Function.update_of_ne he] at hj
      exact ⟨he, hj⟩
  constructor
  · intro j slot size hj
    obtain ⟨hne, hj⟩ := hother j slot size hj
    rw [hslots j hne slot size hj]
    exact h.slots j slot size hj
  · intro j k slot n m hj hk
    exact h.apart j k slot n m (hother j slot n hj).2 (hother k slot m hk).2

omit [DecidableEq κ] [Fintype ι] in
theorem Held.acquire {slots : Fin 65536 → Slot κ} (h : Held slots threads) {slot : Fin 65536}
    {size : Nat} (hpc : pc.held = some (slot, size)) (hfree : ∀ n, slots slot ≠ .block n) :
    Held (Function.update slots slot (.block size)) (Function.update threads i pc) := by
  have hcases : ∀ j slot' n, (Function.update threads i pc j).held = some (slot', n) →
      (j = i ∧ slot' = slot ∧ n = size) ∨ ((threads j).held = some (slot', n) ∧ slot' ≠ slot) := by
    intro j slot' n hj
    by_cases he : j = i
    · rw [he, Function.update_self, hpc] at hj
      cases hj
      exact Or.inl ⟨he, rfl, rfl⟩
    · rw [Function.update_of_ne he] at hj
      refine Or.inr ⟨hj, ?_⟩
      rintro rfl
      exact hfree n (h.slots j slot' n hj)
  constructor
  · intro j slot' n hj
    rcases hcases j slot' n hj with ⟨_, rfl, rfl⟩ | ⟨hold, hne⟩
    · exact Function.update_self ..
    · exact (Function.update_of_ne hne ..).trans (h.slots j slot' n hold)
  · intro j k slot' n m hj hk
    rcases hcases j slot' n hj with ⟨rfl, rfl, _⟩ | ⟨hj', hne⟩
    · rcases hcases k slot' m hk with ⟨rfl, _⟩ | ⟨_, hne⟩
      · rfl
      · exact absurd rfl hne
    · rcases hcases k slot' m hk with ⟨_, rfl, _⟩ | ⟨hk', _⟩
      · exact absurd rfl hne
      · exact h.apart j k slot' n m hj' hk'

omit [DecidableEq κ] [Fintype ι] in
theorem Appending.update {vms vms' : Fin 16 → Option (Vm κ)} (h : Appending vms threads)
    (hpc : ∀ place ct, pc.appends = some (place, ct) → ∃ vm, vms' place = some vm ∧ vm.ct = ct)
    (hvms : ∀ j, (threads j).appends ≠ none → ∀ place vm, vms place = some vm →
      ∃ vm', vms' place = some vm' ∧ vm'.ct = vm.ct) :
    Appending vms' (Function.update threads i pc) := by
  intro j place ct hj
  by_cases he : j = i
  · rw [he, Function.update_self] at hj
    exact hpc place ct hj
  · rw [Function.update_of_ne he] at hj
    obtain ⟨vm, hvm, hct⟩ := h j place ct hj
    obtain ⟨vm', hvm', hct'⟩ := hvms j (by rw [hj]; nofun) place vm hvm
    exact ⟨vm', hvm', hct'.trans hct⟩

omit [DecidableEq κ] in
theorem makes_update (hmakes : pc.makes = (threads i).makes) :
    total Pc.makes (Function.update threads i pc) = total Pc.makes threads := by
  have h := total_update_add Pc.makes threads i pc
  omega

end Parts

section Effects

variable {cfg : Config κ} {s s' : State κ ι} {i : ι}

theorem Effect.held (he : Effect cfg s i s') (h : Inv cfg s) : Held s'.slots s'.threads := by
  cases he with
  | calm pc totalVsize _ hpc _ => exact h.held.plain hpc.held fun _ _ _ _ _ => rfl
  | taken ct amount pc _ hpc _ _ _ _ => exact h.held.plain hpc fun _ _ _ _ _ => rfl
  | returned ct amount pc _ hpc _ _ => exact h.held.plain hpc.held fun _ _ _ _ _ => rfl
  | acquired slot size pc _ hpc _ _ hfree _ => exact h.held.acquire hpc hfree
  | released slot size value pc hheld _ _ hpc _ =>
      apply h.held.plain hpc.held
      intro j hne slot' n hj
      apply Function.update_of_ne
      rintro rfl
      exact hne (h.held.apart j i slot' n size hj hheld)
  | shm place value pc _ hpc _ => exact h.held.plain hpc.held fun _ _ _ _ _ => rfl
  | resized place vm vm' pc _ _ _ _ hpc _ => exact h.held.plain hpc.held fun _ _ _ _ _ => rfl
  | mapped area pc _ hpc _ _ _ _ => exact h.held.plain hpc fun _ _ _ _ _ => rfl
  | made place vm pc _ _ hpc _ _ => exact h.held.plain hpc.held fun _ _ _ _ _ => rfl
  | unmapped place area vm pc _ hpc _ _ _ _ => exact h.held.plain hpc.held fun _ _ _ _ _ => rfl
  | created place ct pc _ hpc _ _ _ _ _ => exact h.held.plain hpc.held fun _ _ _ _ _ => rfl
  | destroyed place ct pc _ hpc _ _ _ => exact h.held.plain hpc.held fun _ _ _ _ _ => rfl

theorem Effect.appending (he : Effect cfg s i s') (h : Inv cfg s) :
    Appending s'.vms s'.threads := by
  have hnone : ∀ {pc : Pc κ} {vms : Fin 16 → Option (Vm κ)}, pc.appends = none →
      ∀ place ct, pc.appends = some (place, ct) → ∃ vm, vms place = some vm ∧ vm.ct = ct := by
    intro pc vms hpc place ct hsome
    rw [hpc] at hsome
    cases hsome
  have hkept : ∀ j, (s.threads j).appends ≠ none → ∀ place vm, s.vms place = some vm →
      ∃ vm', s.vms place = some vm' ∧ vm'.ct = vm.ct := fun _ _ _ vm hvm => ⟨vm, hvm, rfl⟩
  cases he with
  | calm pc totalVsize _ hpc _ => exact h.appending.update (hnone hpc.appends) hkept
  | taken ct amount pc _ _ _ hpc _ _ => exact h.appending.update hpc hkept
  | returned ct amount pc _ hpc _ _ => exact h.appending.update (hnone hpc.appends) hkept
  | acquired slot size pc _ _ hpc _ _ _ => exact h.appending.update (hnone hpc) hkept
  | released slot size value pc _ _ _ hpc _ =>
      exact h.appending.update (hnone hpc.appends) hkept
  | shm place value pc _ hpc _ => exact h.appending.update (hnone hpc.appends) hkept
  | resized place vm vm' pc hvm hct _ _ hpc _ =>
      apply h.appending.update (hnone hpc.appends)
      intro j _ place' other hother
      by_cases heq : place' = place
      · subst heq
        rw [hvm] at hother
        cases hother
        exact ⟨vm', Function.update_self .., hct⟩
      · exact ⟨other, (Function.update_of_ne heq ..).trans hother, rfl⟩
  | mapped area pc _ _ hpc _ _ _ => exact h.appending.update (hnone hpc) hkept
  | made place vm pc _ _ hpc hfree _ =>
      apply h.appending.update (hnone hpc.appends)
      intro j _ place' other hother
      have hne : place' ≠ place := by
        rintro rfl
        rw [hfree] at hother
        cases hother
      exact ⟨other, (Function.update_of_ne hne ..).trans hother, rfl⟩
  | unmapped place area vm pc _ hpc hreads _ _ _ =>
      apply h.appending.update (hnone hpc.appends)
      intro j hj
      exact absurd (hreads j) hj
  | created place ct pc _ hpc _ _ _ _ _ => exact h.appending.update (hnone hpc.appends) hkept
  | destroyed place ct pc _ hpc _ _ _ => exact h.appending.update (hnone hpc.appends) hkept

theorem Inv.areas_kept (h : Inv cfg s) {pc : Pc κ} (hmakes : pc.makes = (s.threads i).makes) :
    total occupied s.vms + total Pc.makes (Function.update s.threads i pc) ≤
      total count s.mapped := by
  rw [makes_update hmakes]
  exact h.areas

theorem Effect.areas (he : Effect cfg s i s') (h : Inv cfg s) :
    total occupied s'.vms + total Pc.makes s'.threads ≤ total count s'.mapped := by
  have hareas := h.areas
  cases he with
  | calm pc totalVsize hi hpc _ =>
      exact h.areas_kept (hpc.makes.trans hi.makes.symm)
  | taken ct amount pc hi _ hpc _ _ _ =>
      exact h.areas_kept (hpc.trans hi.makes.symm)
  | returned ct amount pc hi hpc _ _ =>
      exact h.areas_kept (hpc.makes.trans hi.makes.symm)
  | acquired slot size pc hi _ _ hpc _ _ =>
      exact h.areas_kept (hpc.trans hi.makes.symm)
  | released slot size value pc _ _ hi hpc _ =>
      exact h.areas_kept (hpc.makes.trans hi.symm)
  | shm place value pc hi hpc _ =>
      exact h.areas_kept (hpc.makes.trans hi.makes.symm)
  | resized place vm vm' pc hvm _ _ hi hpc _ =>
      have := makes_update (hpc.makes.trans hi.symm)
      have hvms := total_update_add occupied s.vms place (some vm')
      rw [hvm] at hvms
      change total occupied (Function.update s.vms place (some vm')) +
        total Pc.makes (Function.update s.threads i pc) ≤ total count s.mapped
      change _ + 1 = _ + 1 at hvms
      omega
  | mapped area pc hi _ _ hpc hfree _ =>
      have hmakes := total_update_add Pc.makes s.threads i pc
      have hmapped := total_update_add count s.mapped area true
      rw [hi.makes, hpc] at hmakes
      rw [hfree] at hmapped
      change _ + 0 = _ + 1 at hmapped
      change total occupied s.vms + total Pc.makes (Function.update s.threads i pc) ≤
        total count (Function.update s.mapped area true)
      omega
  | made place vm pc _ hi hpc hfree _ =>
      have hmakes := total_update_add Pc.makes s.threads i pc
      have hvms := total_update_add occupied s.vms place (some vm)
      rw [hi, hpc.makes] at hmakes
      rw [hfree] at hvms
      change _ + 0 = _ + 1 at hvms
      change total occupied (Function.update s.vms place (some vm)) +
        total Pc.makes (Function.update s.threads i pc) ≤ total count s.mapped
      omega
  | unmapped place area vm pc hi hpc _ hvm hmapped _ =>
      have hmakes := makes_update (hpc.makes.trans hi.makes.symm)
      have hvms := total_update_add occupied s.vms place none
      have hcount := total_update_add count s.mapped area false
      rw [hvm] at hvms
      rw [hmapped] at hcount
      change _ + 1 = _ + 0 at hvms
      change _ + 1 = _ + 0 at hcount
      change total occupied (Function.update s.vms place none) +
        total Pc.makes (Function.update s.threads i pc) ≤
        total count (Function.update s.mapped area false)
      omega
  | created place ct pc hi hpc _ _ _ _ _ =>
      exact h.areas_kept (hpc.makes.trans hi.makes.symm)
  | destroyed place ct pc hi hpc _ _ _ =>
      exact h.areas_kept (hpc.makes.trans hi.makes.symm)

theorem Effect.registered (he : Effect cfg s i s') (h : Inv cfg s) :
    Registered cfg s'.containers s'.destroyed := by
  have hr := h.registered
  cases he with
  | created place ct pc _ _ hfree hne hlive hother _ =>
      have hcases : ∀ place' ct', Function.update s.containers place (some ct) place' = some ct' →
          (place' = place ∧ ct' = ct) ∨ (s.containers place' = some ct' ∧ ct' ≠ ct) := by
        intro place' ct' hct
        by_cases heq : place' = place
        · rw [heq, Function.update_self] at hct
          exact Or.inl ⟨heq, (Option.some.inj hct).symm⟩
        · rw [Function.update_of_ne heq] at hct
          refine Or.inr ⟨hct, ?_⟩
          rintro rfl
          exact hother place' hct
      refine ⟨?_, ?_, hr.dct⟩
      · intro place' ct' hct
        rcases hcases place' ct' hct with ⟨_, rfl⟩ | ⟨hold, _⟩
        · exact ⟨hlive, hne⟩
        · exact hr.live place' ct' hold
      · intro p q ct' hp hq
        rcases hcases p ct' hp with ⟨rfl, rfl⟩ | ⟨hp', hne'⟩
        · rcases hcases q ct' hq with ⟨rfl, _⟩ | ⟨_, hne'⟩
          · rfl
          · exact absurd rfl hne'
        · rcases hcases q ct' hq with ⟨_, rfl⟩ | ⟨hq', _⟩
          · exact absurd rfl hne'
          · exact hr.distinct p q ct' hp' hq'
  | destroyed place ct pc _ _ hplace _ _ =>
      have hcases : ∀ place' ct', Function.update s.containers place none place' = some ct' →
          s.containers place' = some ct' ∧ ct' ≠ ct := by
        intro place' ct' hct
        by_cases heq : place' = place
        · rw [heq, Function.update_self] at hct
          cases hct
        · rw [Function.update_of_ne heq] at hct
          refine ⟨hct, ?_⟩
          rintro rfl
          exact heq (hr.distinct place' place ct' hct hplace)
      refine ⟨?_, ?_, ?_⟩
      · intro place' ct' hct
        obtain ⟨hold, hne⟩ := hcases place' ct' hct
        refine ⟨?_, (hr.live place' ct' hold).2⟩
        exact (Function.update_of_ne hne ..).trans (hr.live place' ct' hold).1
      · intro p q ct' hp hq
        exact hr.distinct p q ct' (hcases p ct' hp).1 (hcases q ct' hq).1
      · have hne := (hr.live place ct hplace).2
        exact (Function.update_of_ne (Ne.symm hne) ..).trans hr.dct
  | _ => exact hr

theorem Inv.effect (h : Inv cfg s) (he : Effect cfg s i s') : Inv cfg s' where
  balanced := he.balanced h
  held := he.held h
  appending := he.appending h
  areas := he.areas h
  registered := he.registered h

end Effects

end Rpcsx.Lv2.MemoryContainer
