import Rpcsx.Lv2.EventQueue.Invariant
import Rpcsx.Lv2.EventQueue.Log

namespace Rpcsx.Lv2.EventQueue

open Data.Interleaving

-- The event that a send has delivered before it returns.
def Pc.sending {ι : Type} : Pc ι → List Event
  | sendAwake event _ => [event]
  | _ => []

-- The receiver that a send has taken out of the queue and not yet written to.
def Pc.choosing {ι : Type} : Pc ι → Option ι
  | sendStore _ ppu => some ppu
  | _ => none

-- The receivers in the queue have CELL_ECANCELED.
def Pc.cancelling {ι : Type} : Pc ι → Bool
  | destroyClear => true
  | _ => false

namespace State

variable {ι : Type}

def choosing (s : State ι) : Option ι := s.mutex.bind fun i => (s.threads i).choosing

def cancelling (s : State ι) : Bool := s.mutex.any fun i => (s.threads i).cancelling

-- The receiver has its result in the registers.
def Given (s : State ι) (j : ι) : Prop :=
  (s.threads j).waits = true ∧ j ∉ s.pq ∧ s.choosing ≠ some j

-- The registers of a receiver and what was delivered to it in its call.
structure Mail (s : State ι) (j : ι) (inbox : List Event) : Prop where
  calling : ∀ timeout, s.threads j = .receive timeout → s.gpr3 j = .ok
  queued : j ∈ s.pq → s.gpr3 j = if s.cancelling then .ecanceled else .ok
  chosen : s.choosing = some j → s.gpr3 j = .ok
  given : s.Given j → s.gpr3 j = .ok ∧ inbox = [s.gpr j] ∨ s.gpr3 j = .ecanceled ∧ inbox = []
  empty : ¬ s.Given j → inbox = []

end State

structure Sound {ι : Type} [DecidableEq ι] (c : Config) (s : State ι) (log : Log ι) : Prop where
  control : Invariant c s
  books : Books log s.events fun i => (s.threads i).sending
  mail : ∀ j, s.Mail j (log.inbox j (log.call j))

section Owner

variable {ι : Type} {s s' : State ι} {i : ι} {pc : Pc ι}

theorem choosing_of_owner (h : s.mutex = some i) : s.choosing = (s.threads i).choosing := by
  unfold State.choosing
  rw [h]
  rfl

theorem choosing_of_free (h : s.mutex = none) : s.choosing = none := by
  unfold State.choosing
  rw [h]
  rfl

theorem cancelling_of_owner (h : s.mutex = some i) : s.cancelling = (s.threads i).cancelling := by
  unfold State.cancelling
  rw [h]
  rfl

theorem cancelling_of_free (h : s.mutex = none) : s.cancelling = false := by
  unfold State.cancelling
  rw [h]
  rfl

theorem mem_serving_of_choosing {j : ι} (h : s.choosing = some j) : j ∈ s.serving := by
  unfold State.choosing at h
  obtain ⟨k, hk, hpc⟩ := Option.bind_eq_some_iff.mp h
  rw [serving_of_owner hk]
  cases hthread : s.threads k with
  | sendStore event ppu =>
      rw [hthread] at hpc
      cases hpc
      exact List.mem_singleton_self _
  | _ =>
      rw [hthread] at hpc
      cases hpc

-- The registers and the place of a receiver stay as they are.
theorem State.Mail.congr {j : ι} {inbox : List Event} (h : s.Mail j inbox)
    (hthread : s'.threads j = s.threads j) (hpq : j ∈ s'.pq ↔ j ∈ s.pq)
    (hcancelling : j ∈ s.pq → s'.cancelling = s.cancelling)
    (hchoosing : s'.choosing = some j ↔ s.choosing = some j) (hgpr3 : s'.gpr3 j = s.gpr3 j)
    (hgpr : s'.gpr j = s.gpr j) : s'.Mail j inbox := by
  have hgiven : s'.Given j ↔ s.Given j := by
    unfold State.Given
    rw [hthread, hpq, ne_eq, ne_eq, hchoosing]
  refine ⟨?_, ?_, ?_, ?_, ?_⟩
  · rw [hthread, hgpr3]
    exact h.calling
  · intro hj
    have hold := hpq.mp hj
    rw [hgpr3, hcancelling hold]
    exact h.queued hold
  · rw [hchoosing, hgpr3]
    exact h.chosen
  · rw [hgiven, hgpr3, hgpr]
    exact h.given
  · rw [hgiven]
    exact h.empty

-- A thread that does not wait has nothing.
theorem State.Mail.of_awake {c : Config} (h : Invariant c s) {j : ι} {inbox : List Event}
    (hawake : (s.threads j).waits = false) (hempty : inbox = [])
    (hcalling : ∀ timeout, s.threads j = .receive timeout → s.gpr3 j = .ok) : s.Mail j inbox := by
  obtain ⟨hpq, _, hserving⟩ := h.nowhere hawake
  refine ⟨hcalling, fun hj => absurd hj hpq, ?_, ?_, fun _ => hempty⟩
  · intro hj
    exact absurd (mem_serving_of_choosing hj) hserving
  · intro hgiven
    rw [hgiven.1] at hawake
    cases hawake

-- What a thread that does not wait has got in its call so far.
theorem State.Mail.inbox_of_awake {j : ι} {inbox : List Event} (h : s.Mail j inbox)
    (hawake : (s.threads j).waits = false) : inbox = [] := by
  apply h.empty
  intro hgiven
  rw [hgiven.1] at hawake
  cases hawake

end Owner

section Moves

variable {ι : Type} [DecidableEq ι] {c : Config} {s s' : State ι} {log log' : Log ι} {i : ι} {pc : Pc ι}

theorem sending_update (s s' : State ι) (pc : Pc ι) (h : s'.threads = Function.update s.threads i pc)
    (hpc : pc.sending = (s.threads i).sending) :
    (fun k => (s'.threads k).sending) = fun k => (s.threads k).sending := by
  funext k
  rw [h]
  by_cases hk : k = i
  · rw [hk, Function.update_self, hpc]
  · rw [Function.update_of_ne hk]

theorem Pc.sending_of_not_holds {ι : Type} {pc : Pc ι} (h : pc.holds = false) : pc.sending = [] := by
  cases pc with
  | sendAwake => cases h
  | _ => rfl

-- A step outside of the mutex leaves what the owner does.
theorem owner_of_outside (h : Invariant c s) (s' : State ι) (pc : Pc ι)
    (hbefore : (s.threads i).holds = false)
    (hthreads : s'.threads = Function.update s.threads i pc) (hmutex : s'.mutex = s.mutex) :
    s'.choosing = s.choosing ∧ s'.cancelling = s.cancelling := by
  have howner : ∀ k, s.mutex = some k → s'.threads k = s.threads k := by
    intro k hk
    rw [hthreads, Function.update_of_ne (h.exclusive.ne_of_not_holds hbefore hk)]
  cases hm : s.mutex with
  | none =>
      have hm' := hmutex.trans hm
      rw [choosing_of_free hm, choosing_of_free hm', cancelling_of_free hm, cancelling_of_free hm']
      exact ⟨rfl, rfl⟩
  | some k =>
      have hm' := hmutex.trans hm
      rw [choosing_of_owner hm, choosing_of_owner hm', cancelling_of_owner hm,
        cancelling_of_owner hm', howner k hm]
      exact ⟨rfl, rfl⟩

theorem mail_of_outside (h : Invariant c s) (s' : State ι) (pc : Pc ι)
    (hbefore : (s.threads i).holds = false)
    (hthreads : s'.threads = Function.update s.threads i pc) (hmutex : s'.mutex = s.mutex)
    (hpq : s'.pq = s.pq) {j : ι} (hji : j ≠ i) (hgpr3 : s'.gpr3 j = s.gpr3 j)
    (hgpr : s'.gpr j = s.gpr j) {inbox : List Event} (hmail : s.Mail j inbox) : s'.Mail j inbox := by
  obtain ⟨hchoosing, hcancelling⟩ := owner_of_outside h s' pc hbefore hthreads hmutex
  refine hmail.congr ?_ (by rw [hpq]) (fun _ => hcancelling) (by rw [hchoosing]) hgpr3 hgpr
  rw [hthreads, Function.update_of_ne hji]

-- A step of a thread that does not wait, outside of the mutex and without the events.
theorem Sound.running (h : Sound c s log) (s' : State ι) (pc : Pc ι)
    (hbefore : (s.threads i).holds = false) (hafter : pc.holds = false)
    (hawake : (s.threads i).waits = false) (hwaits : pc.waits = false)
    (hthreads : s'.threads = Function.update s.threads i pc) (hmutex : s'.mutex = s.mutex)
    (hevents : s'.events = s.events) (hpq : s'.pq = s.pq) (hsignal : s'.signal = s.signal)
    (hgpr3 : ∀ j, j ≠ i → s'.gpr3 j = s.gpr3 j) (hgpr : ∀ j, j ≠ i → s'.gpr j = s.gpr j)
    (hcalling : ∀ timeout, pc = .receive timeout → s'.gpr3 i = .ok)
    (hbooks : Books log' s.events fun k => (s.threads k).sending)
    (hothers : ∀ j, j ≠ i → log'.inbox j (log'.call j) = log.inbox j (log.call j))
    (hmine : log'.inbox i (log'.call i) = []) : Sound c s' log' := by
  have hself : s'.threads i = pc := by rw [hthreads, Function.update_self]
  obtain ⟨hout, hsilent, hserving⟩ := h.control.nowhere hawake
  have hcontrol : Invariant c s' := by
    refine h.control.outside pc hbefore hafter hthreads hmutex hevents hpq
      (fun _ _ => by rw [hsignal]) ?_
    intro hsame
    apply State.Good.of_awake
    · rw [hself]
      exact hwaits
    · rw [hpq]
      exact hout
    · rw [hsignal]
      exact hsilent
    · rw [hsame]
      exact hserving
  refine ⟨hcontrol, ?_, ?_⟩
  · rw [hevents, sending_update s s' pc hthreads]
    · exact hbooks
    · rw [Pc.sending_of_not_holds hafter, Pc.sending_of_not_holds hbefore]
  · intro j
    by_cases hji : j = i
    · rw [hji, hmine]
      refine State.Mail.of_awake hcontrol (by rw [hself]; exact hwaits) rfl ?_
      rw [hself]
      exact hcalling
    · rw [hothers j hji]
      exact mail_of_outside h.control s' pc hbefore hthreads hmutex hpq hji (hgpr3 j hji) (hgpr j hji)
        (h.mail j)

end Moves

end Rpcsx.Lv2.EventQueue
