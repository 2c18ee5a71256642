import Rpcsx.Lv2.EventQueue.Mail

namespace Rpcsx.Lv2.EventQueue

open Data.Interleaving

variable {ι : Type} [DecidableEq ι] {c : Config} {prio : ι → Prio} {s s' : State ι} {log : Log ι}
  {l : Label ι} {i : ι} {pc : Pc ι}

section Returns

-- The inbox of a call that has not begun.
theorem Books.inbox_next {events : List Event} {sending : ι → List Event}
    (h : Books log events sending) (j : ι) {received : Bool} {code : Code} {result : List Event} :
    (log.returned j received code result).inbox j ((log.returned j received code result).call j) =
      [] := by
  apply h.later j
  unfold Log.call
  change (log.results j).length < (Function.update log.results j _ j).length
  rw [Function.update_self, List.length_append]
  exact Nat.lt_succ_self _

omit [DecidableEq ι] in
theorem call_returned [DecidableEq ι] {i j : ι} (hji : j ≠ i) {received : Bool} {code : Code}
    {result : List Event} : (log.returned i received code result).call j = log.call j := by
  unfold Log.call
  change (Function.update log.results i _ j).length = _
  rw [Function.update_of_ne hji]

-- A receiver that has its result returns it.
theorem Sound.returned (h : Sound c s log) (hgiven : s.Given i) :
    Books (log.apply (s.returned i)) s.events fun k => (s.threads k).sending := by
  change Books (log.returned i true (s.gpr3 i) (if s.gpr3 i = .ok then [s.gpr i] else [])) _ _
  rcases (h.mail i).given hgiven with ⟨hok, hinbox⟩ | ⟨hcanceled, hinbox⟩
  · rw [if_pos hok, hok]
    exact h.books.returned hinbox (fun hne => absurd rfl hne) fun _ _ => rfl
  · rw [hcanceled, if_neg nofun]
    exact h.books.returned hinbox (fun _ => rfl) nofun

theorem Sound.given_of_signal (h : Sound c s log) (hsignal : s.signal i = true) : s.Given i := by
  have hgood := h.control.good i
  refine ⟨hgood.woken hsignal, ?_, ?_⟩
  · intro hi
    rw [(hgood.queued hi).2.1] at hsignal
    cases hsignal
  · intro hi
    rw [(hgood.served (mem_serving_of_choosing hi)).2] at hsignal
    cases hsignal

theorem Sound.wakes (h : Sound c s log) (hbefore : (s.threads i).holds = false)
    (hsignal : s.signal i = true) :
    Sound c ((s.awaken i).goto i (.idle (some (s.gpr3 i)))) (log.apply (s.returned i)) := by
  have hgiven := h.given_of_signal hsignal
  have hgood := h.control.good i
  have hserving : i ∉ s.serving := by
    intro hi
    rw [(hgood.served hi).2] at hsignal
    cases hsignal
  have hself : ((s.awaken i).goto i (.idle (some (s.gpr3 i)))).threads i = .idle (some (s.gpr3 i)) :=
    Function.update_self _ _ _
  have hcontrol : Invariant c ((s.awaken i).goto i (.idle (some (s.gpr3 i)))) := by
    refine h.control.outside (.idle (some (s.gpr3 i))) hbefore rfl rfl rfl rfl rfl
      (fun j hj => Function.update_of_ne hj _ _) ?_
    intro hsame
    refine State.Good.of_awake (by rw [hself]; rfl) hgiven.2.1 (Function.update_self _ _ _) ?_
    rw [hsame]
    exact hserving
  refine ⟨hcontrol, ?_, ?_⟩
  · rw [sending_update s _ (.idle (some (s.gpr3 i))) rfl (Pc.sending_of_not_holds hbefore).symm]
    exact h.returned hgiven
  · intro j
    by_cases hji : j = i
    · rw [hji]
      refine State.Mail.of_awake hcontrol (by rw [hself]; rfl) (h.books.inbox_next i) ?_
      rw [hself]
      nofun
    · have hcall : (log.apply (s.returned i)).call j = log.call j := call_returned hji
      rw [hcall]
      exact mail_of_outside h.control ((s.awaken i).goto i (.idle (some (s.gpr3 i))))
        (.idle (some (s.gpr3 i))) hbefore rfl rfl rfl hji rfl rfl (h.mail j)

-- A call of a receiver that fails at once.
theorem Sound.fails (h : Sound c s log) {received : Bool} {code : Code}
    (hbefore : (s.threads i).holds = false) (hawake : (s.threads i).waits = false)
    (hcode : code ≠ .ok) :
    Sound c (s.goto i (.idle (some code))) (log.apply (.returns i received code [])) := by
  have hinbox := (h.mail i).inbox_of_awake hawake
  refine h.running _ (.idle (some code)) hbefore rfl hawake rfl rfl rfl rfl rfl rfl (fun _ _ => rfl)
    (fun _ _ => rfl) nofun ?_ ?_ (h.books.inbox_next i)
  · exact h.books.returned hinbox (fun _ => rfl) fun hok => absurd hok hcode
  · intro j hji
    have hcall : (log.apply (.returns i received code [])).call j = log.call j := call_returned hji
    rw [hcall]
    rfl

-- A step that nobody sees.
theorem Sound.silent (h : Sound c s log) (s' : State ι) (pc : Pc ι)
    (hbefore : (s.threads i).holds = false) (hafter : pc.holds = false)
    (hawake : (s.threads i).waits = false) (hwaits : pc.waits = false)
    (hthreads : s'.threads = Function.update s.threads i pc) (hmutex : s'.mutex = s.mutex)
    (hevents : s'.events = s.events) (hpq : s'.pq = s.pq) (hsignal : s'.signal = s.signal)
    (hgpr3 : s'.gpr3 = s.gpr3) (hgpr : s'.gpr = s.gpr)
    (hcalling : ∀ timeout, pc ≠ .receive timeout) : Sound c s' log :=
  h.running s' pc hbefore hafter hawake hwaits hthreads hmutex hevents hpq hsignal
    (fun _ _ => by rw [hgpr3]) (fun _ _ => by rw [hgpr]) (fun timeout hpc => absurd hpc (hcalling timeout))
    h.books (fun _ _ => rfl) ((h.mail i).inbox_of_awake hawake)

theorem Sound.call (h : Sound c s log) {result : Option Code} {call : Call}
    (hidle : s.threads i = .idle result) :
    Sound c (call.start s i).1 (log.apply (call.start s i).2) := by
  have hbefore : (s.threads i).holds = false := by rw [hidle]; rfl
  have hawake : (s.threads i).waits = false := by rw [hidle]; rfl
  have hinbox := (h.mail i).inbox_of_awake hawake
  cases call with
  | send event =>
      exact h.silent _ (.send event) hbefore rfl hawake rfl rfl rfl rfl rfl rfl rfl rfl nofun
  | receive timeout =>
      refine h.running _ (.receive timeout) hbefore rfl hawake rfl rfl rfl rfl rfl rfl ?_
        (fun _ _ => rfl) ?_ (h.books.begins hinbox) (fun _ _ => rfl) hinbox
      · intro j hji
        exact Function.update_of_ne hji _ _
      · intro _ _
        exact Function.update_self _ _ _
  | tryreceive size =>
      exact h.running _ (.tryreceive size) hbefore rfl hawake rfl rfl rfl rfl rfl rfl (fun _ _ => rfl)
        (fun _ _ => rfl) nofun (h.books.begins hinbox) (fun _ _ => rfl) hinbox
  | drain => exact h.silent _ .drain hbefore rfl hawake rfl rfl rfl rfl rfl rfl rfl rfl nofun
  | destroy force =>
      exact h.silent _ (.destroy force) hbefore rfl hawake rfl rfl rfl rfl rfl rfl rfl rfl nofun

end Returns

section Sleep

-- A sleeping receiver goes on where it is.
theorem Sound.waiting_goto (h : Sound c s log) (pc : Pc ι) (hbefore : (s.threads i).holds = false)
    (hafter : pc.holds = false) (hwaits : (s.threads i).waits = true) (hstill : pc.waits = true)
    (hqueues : i ∈ s.pq → pc.queues = true) : Sound c (s.goto i pc) log := by
  have hself : (s.goto i pc).threads i = pc := Function.update_self _ _ _
  have hgood := h.control.good i
  have hcontrol : Invariant c (s.goto i pc) := by
    refine h.control.outside pc hbefore hafter rfl rfl rfl rfl (fun _ _ => rfl) ?_
    intro hsame
    refine ⟨?_, ?_, ?_, ?_⟩
    · intro hi
      obtain ⟨_, hsilent, hserving⟩ := hgood.queued hi
      rw [hself, hsame]
      exact ⟨hqueues hi, hsilent, hserving⟩
    · intro hi
      rw [hsame] at hi
      rw [hself]
      exact ⟨hstill, (hgood.served hi).2⟩
    · intro _
      rw [hself]
      exact hstill
    · intro _
      rw [hsame]
      exact hgood.waiting hwaits
  refine ⟨hcontrol, ?_, ?_⟩
  · rw [sending_update s (s.goto i pc) pc rfl]
    · exact h.books
    · rw [Pc.sending_of_not_holds hafter, Pc.sending_of_not_holds hbefore]
  · intro j
    by_cases hji : j = i
    · subst hji
      obtain ⟨hchoosing, hcancelling⟩ :=
        owner_of_outside h.control (s.goto j pc) pc hbefore rfl rfl
      have hgiven : (s.goto j pc).Given j ↔ s.Given j := by
        unfold State.Given
        rw [hself, hstill, hwaits, hchoosing]
        rfl
      refine ⟨?_, ?_, ?_, ?_, ?_⟩
      · intro timeout hpc
        rw [hself] at hpc
        rw [hpc] at hstill
        cases hstill
      · rw [hcancelling]
        exact (h.mail j).queued
      · rw [hchoosing]
        exact (h.mail j).chosen
      · rw [hgiven]
        exact (h.mail j).given
      · rw [hgiven]
        exact (h.mail j).empty
    · exact mail_of_outside h.control (s.goto i pc) pc hbefore rfl rfl rfl hji rfl rfl (h.mail j)

-- The mutex is free, or the thread has it: what the others do with the queue is as before.
theorem Sound.section (h : Sound c s log) {log' : Log ι} (hcontrol : Invariant c s')
    (hbooks : Books log' s'.events fun k => (s'.threads k).sending)
    (hthreads : s'.threads = Function.update s.threads i pc)
    (hchoosing : ∀ j, j ≠ i → (s'.choosing = some j ↔ s.choosing = some j))
    (hcancelling : s.pq ≠ [] → s'.cancelling = s.cancelling)
    (hpq : ∀ j, j ≠ i → (j ∈ s'.pq ↔ j ∈ s.pq)) (hgpr3 : ∀ j, j ≠ i → s'.gpr3 j = s.gpr3 j)
    (hgpr : ∀ j, j ≠ i → s'.gpr j = s.gpr j)
    (hothers : ∀ j, j ≠ i → log'.inbox j (log'.call j) = log.inbox j (log.call j))
    (hmine : s'.Mail i (log'.inbox i (log'.call i))) : Sound c s' log' := by
  refine ⟨hcontrol, hbooks, ?_⟩
  intro j
  by_cases hji : j = i
  · rw [hji]
    exact hmine
  · rw [hothers j hji]
    refine (h.mail j).congr ?_ (hpq j hji) ?_ (hchoosing j hji) (hgpr3 j hji) (hgpr j hji)
    · rw [hthreads, Function.update_of_ne hji]
    · intro hj
      exact hcancelling (List.ne_nil_of_mem hj)

-- A section that ends at once, of a thread that does not wait.
theorem Sound.free (h : Sound c s log) {log' : Log ι} (s' : State ι) (result : Option Code)
    (hfree : s.mutex = none) (hbefore : (s.threads i).holds = false)
    (hawake : (s.threads i).waits = false)
    (hthreads : s'.threads = Function.update s.threads i (.idle result))
    (hmutex : s'.mutex = none) (hpq : s'.pq = s.pq) (hsignal : s'.signal = s.signal)
    (hgpr3 : s'.gpr3 = s.gpr3) (hgpr : ∀ j, j ≠ i → s'.gpr j = s.gpr j)
    (hsize : s'.events.length ≤ c.size) (hempty : s.pq ≠ [] → s'.events = [])
    (hbooks : Books log' s'.events fun k => (s.threads k).sending)
    (hothers : ∀ j, j ≠ i → log'.inbox j (log'.call j) = log.inbox j (log.call j))
    (hmine : log'.inbox i (log'.call i) = []) : Sound c s' log' := by
  obtain ⟨hout, hsilent, _⟩ := h.control.nowhere hawake
  have hself : s'.threads i = .idle result := by rw [hthreads, Function.update_self]
  have hcontrol : Invariant c s' := by
    refine h.control.inside (.idle result) (Or.inl hfree) hthreads hmutex ?_ hsize ?_ nofun ?_
    · rw [hpq]
      exact h.control.nodup
    · rw [hpq]
      exact hempty
    · intro hserving j
      by_cases hji : j = i
      · rw [hji]
        apply State.Good.of_awake
        · rw [hself]
          rfl
        · rw [hpq]
          exact hout
        · rw [hsignal]
          exact hsilent
        · rw [hserving]
          exact List.not_mem_nil
      · refine (h.control.good j).congr ?_ (by rw [hpq]) (by rw [hsignal]) ?_
        · rw [hthreads, Function.update_of_ne hji]
        · rw [hserving, serving_of_free hfree]
          rfl
  refine h.section hcontrol ?_ hthreads ?_ ?_ (fun _ _ => by rw [hpq]) (fun _ _ => by rw [hgpr3]) hgpr
    hothers ?_
  · rw [sending_update s s' (.idle result) hthreads (Pc.sending_of_not_holds hbefore).symm]
    exact hbooks
  · intro j _
    rw [choosing_of_free hfree, choosing_of_free hmutex]
  · intro _
    rw [cancelling_of_free hfree, cancelling_of_free hmutex]
  · rw [hmine]
    refine State.Mail.of_awake hcontrol (by rw [hself]; rfl) rfl ?_
    rw [hself]
    nofun

-- A receiver takes events from the front of the queue.
theorem Sound.takes (h : Sound c s log) {received : Bool} (s' : State ι) (count : Nat)
    (hfree : s.mutex = none) (hbefore : (s.threads i).holds = false)
    (hawake : (s.threads i).waits = false)
    (hthreads : s'.threads = Function.update s.threads i (.idle (some .ok)))
    (hmutex : s'.mutex = none) (hpq : s'.pq = s.pq) (hsignal : s'.signal = s.signal)
    (hgpr3 : s'.gpr3 = s.gpr3) (hgpr : ∀ j, j ≠ i → s'.gpr j = s.gpr j)
    (hevents : s'.events = s.events.drop count)
    (hone : received = true → (s.events.take count).length = 1) :
    Sound c s' (log.apply (.takes i (s.events.take count) received)) := by
  have hinbox := (h.mail i).inbox_of_awake hawake
  have hcount : s.events.drop (s.events.take count).length = s.events.drop count := by
    rw [List.length_take]
    rcases Nat.le_total count s.events.length with hle | hle
    · rw [Nat.min_eq_left hle]
    · rw [Nat.min_eq_right hle, List.drop_length, List.drop_eq_nil_of_le hle]
  have htake : s.events.take (s.events.take count).length = s.events.take count := by
    rw [List.length_take, List.take_eq_take_iff, Nat.min_assoc, Nat.min_self]
  obtain ⟨hbooks, hinboxes⟩ := h.books.leave { log with
    history := leave (.delivered i (log.call i)) (s.events.take count).length log.history }
    rfl rfl rfl rfl (Or.inr ⟨i, rfl⟩)
  rw [hcount] at hbooks
  rw [htake] at hinboxes
  have hmine := hinboxes i (log.call i)
  rw [hinbox, List.nil_append, if_pos rfl] at hmine
  have hreturned : Books (log.apply (.takes i (s.events.take count) received)) _ _ :=
    hbooks.returned hmine (fun hne => absurd rfl hne) fun _ => hone
  refine h.free s' (some .ok) hfree hbefore hawake hthreads hmutex hpq hsignal hgpr3 hgpr ?_ ?_ ?_ ?_
    (hbooks.inbox_next i)
  · rw [hevents, List.length_drop]
    exact Nat.le_trans (Nat.sub_le _ _) h.control.size
  · intro hne
    rw [hevents, h.control.empty hne, List.drop_nil]
  · rw [hevents]
    exact hreturned
  · intro j hji
    have hcall : (log.apply (.takes i (s.events.take count) received)).call j = log.call j :=
      call_returned hji
    rw [hcall]
    refine (hinboxes j (log.call j)).trans ?_
    rw [if_neg, List.append_nil]
    intro heq
    cases heq
    exact hji rfl

theorem Sound.drains (h : Sound c s log) (s' : State ι) (hfree : s.mutex = none)
    (hbefore : (s.threads i).holds = false) (hawake : (s.threads i).waits = false)
    (hthreads : s'.threads = Function.update s.threads i (.idle (some .ok)))
    (hmutex : s'.mutex = none) (hpq : s'.pq = s.pq) (hsignal : s'.signal = s.signal)
    (hgpr3 : s'.gpr3 = s.gpr3) (hgpr : s'.gpr = s.gpr) (hevents : s'.events = []) :
    Sound c s' (log.apply .drains) := by
  obtain ⟨hbooks, hinboxes⟩ := h.books.leave (log.apply .drains) rfl rfl rfl rfl (Or.inl rfl)
  have hall : s.events.drop log.history.length = [] := by
    obtain ⟨done, pending, hsplit, hpending⟩ := h.books.split
    rw [List.drop_eq_nil_iff, hpending, hsplit.eq, List.length_map, List.length_append]
    exact Nat.le_add_left _ _
  rw [hall] at hbooks
  have hinbox : ∀ j k, (log.apply .drains).inbox j k = log.inbox j k := by
    intro j k
    rw [hinboxes j k, if_neg nofun, List.append_nil]
  refine h.free s' (some .ok) hfree hbefore hawake hthreads hmutex hpq hsignal hgpr3
    (fun _ _ => by rw [hgpr]) ?_ (fun _ => hevents) ?_ (fun j _ => hinbox j _) ?_
  · rw [hevents]
    exact Nat.zero_le _
  · rw [hevents]
    exact hbooks
  · exact (hinbox i _).trans ((h.mail i).inbox_of_awake hawake)

theorem Sound.stores (h : Sound c s log) (s' : State ι) (event : Event) (hfree : s.mutex = none)
    (hempty : s.pq = []) (hsize : s.events.length < c.size)
    (hbefore : (s.threads i).holds = false) (hawake : (s.threads i).waits = false)
    (hthreads : s'.threads = Function.update s.threads i (.idle (some .ok)))
    (hmutex : s'.mutex = none) (hpq : s'.pq = s.pq) (hsignal : s'.signal = s.signal)
    (hgpr3 : s'.gpr3 = s.gpr3) (hgpr : s'.gpr = s.gpr) (hevents : s'.events = s.events ++ [event]) :
    Sound c s' (log.apply (.stores i event)) := by
  have hinbox : ∀ j k, (log.apply (.stores i event)).inbox j k = log.inbox j k := by
    intro j k
    rw [inbox_append (log.apply (.stores i event)) rfl j k, if_neg nofun, List.append_nil]
  refine h.free s' (some .ok) hfree hbefore hawake hthreads hmutex hpq hsignal hgpr3
    (fun _ _ => by rw [hgpr]) ?_ ?_ ?_ (fun j _ => hinbox j _) ?_
  · rw [hevents, List.length_append]
    exact hsize
  · intro hne
    exact absurd hempty hne
  · rw [hevents]
    refine h.books.append ⟨i, event, .stored⟩ rfl rfl rfl (Or.inl ⟨rfl, rfl⟩) ?_
    intro k
    change log.sent k ++ (s.threads k).sending ++ _ = Function.update log.sent i _ k ++ _
    by_cases hk : k = i
    · rw [hk, Function.update_self, Pc.sending_of_not_holds hbefore, if_pos rfl, List.append_nil,
        List.append_nil]
    · rw [Function.update_of_ne hk, if_neg (Ne.symm hk), List.append_nil]
  · exact (hinbox i _).trans ((h.mail i).inbox_of_awake hawake)

end Sleep

section Owner

omit [DecidableEq ι] in
theorem Pc.not_receive_of_waits {timeout : Bool} (h : pc.waits = true) : pc ≠ .receive timeout := by
  intro heq
  rw [heq] at h
  cases h

-- A send takes a receiver out of the queue.
theorem send_schedule (h : Sound c s log) {event : Event} (hpc : s.threads i = .send event)
    (hfree : s.mutex = none) {ppu : ι} (hmem : ppu ∈ s.pq) :
    Sound c { s.goto i (.sendStore event ppu) with pq := s.pq.erase ppu, mutex := some i } log := by
  have hnowhere := h.control.nowhere (i := i) (by rw [hpc]; rfl)
  have hne : ppu ≠ i := fun heq => hnowhere.1 (heq ▸ hmem)
  have hevents : s.events = [] := h.control.empty (List.ne_nil_of_mem hmem)
  obtain ⟨hqueues, hsilent, _⟩ := (h.control.good ppu).queued hmem
  generalize hs' : State.mk _ _ _ _ _ _ _ _ = s'
  have hthreads : s'.threads = Function.update s.threads i (.sendStore event ppu) := by
    rw [← hs']; rfl
  have hpq : s'.pq = s.pq.erase ppu := by rw [← hs']
  have hmutex : s'.mutex = some i := by rw [← hs']
  have hevents' : s'.events = [] := by rw [← hs']; exact hevents
  have hsignal : s'.signal = s.signal := by rw [← hs']; rfl
  have hgpr3 : s'.gpr3 = s.gpr3 := by rw [← hs']; rfl
  have hgpr : s'.gpr = s.gpr := by rw [← hs']; rfl
  have hself : s'.threads i = .sendStore event ppu := by rw [hthreads, Function.update_self]
  have hother : ∀ j, j ≠ i → s'.threads j = s.threads j := by
    intro j hji
    rw [hthreads, Function.update_of_ne hji]
  have hmem' : ∀ j, j ≠ ppu → (j ∈ s'.pq ↔ j ∈ s.pq) := by
    intro j hjp
    rw [hpq]
    exact h.control.nodup.mem_erase_iff.trans (and_iff_right hjp)
  have hout : ppu ∉ s'.pq := by
    rw [hpq]
    intro hin
    exact absurd rfl (h.control.nodup.mem_erase_iff.mp hin).1
  have hcontrol : Invariant c s' := by
    refine h.control.inside (.sendStore event ppu) (Or.inl hfree) hthreads hmutex ?_ ?_ (fun _ => hevents')
      (fun _ _ _ => hevents') ?_
    · rw [hpq]
      exact h.control.nodup.erase ppu
    · rw [hevents']
      exact Nat.zero_le _
    · intro hserving j
      by_cases hjp : j = ppu
      · rw [hjp]
        have hwaits : (s'.threads ppu).waits = true := by
          rw [hother ppu hne]
          exact Pc.waits_of_queues hqueues
        refine ⟨fun hin => absurd hin hout, fun _ => ⟨hwaits, by rw [hsignal]; exact hsilent⟩,
          fun _ => hwaits, fun _ => Or.inr (Or.inl ?_)⟩
        rw [hserving]
        exact List.mem_singleton_self _
      · have hleft : j ∉ s'.serving := by
          rw [hserving]
          exact fun hin => hjp (List.mem_singleton.mp hin)
        by_cases hji : j = i
        · rw [hji] at hleft ⊢
          refine State.Good.of_awake (by rw [hself]; rfl) ?_ (by rw [hsignal]; exact hnowhere.2.1) hleft
          intro hin
          exact hnowhere.1 ((hmem' i (Ne.symm hne)).mp hin)
        · refine (h.control.good j).congr (hother j hji) (hmem' j hjp) (by rw [hsignal]) ?_
          rw [serving_of_free hfree]
          exact ⟨fun hin => absurd hin hleft, nofun⟩
  have hchoosing : s'.choosing = some ppu := by rw [choosing_of_owner hmutex, hself]; rfl
  have hcancelling : s'.cancelling = false := by rw [cancelling_of_owner hmutex, hself]; rfl
  refine ⟨hcontrol, ?_, ?_⟩
  · rw [hevents', ← hevents, sending_update s s' (.sendStore event ppu) hthreads (by rw [hpc]; rfl)]
    exact h.books
  · intro j
    by_cases hjp : j = ppu
    · rw [hjp]
      have hempty : log.inbox ppu (log.call ppu) = [] :=
        (h.mail ppu).empty fun hgiven => hgiven.2.1 hmem
      have hok : s'.gpr3 ppu = .ok := by
        rw [hgpr3, (h.mail ppu).queued hmem, cancelling_of_free hfree]
        rfl
      refine ⟨fun _ _ => hok, fun hin => absurd hin hout, fun _ => hok, ?_, fun _ => hempty⟩
      intro hgiven
      exact absurd hchoosing hgiven.2.2
    · by_cases hji : j = i
      · rw [hji]
        refine State.Mail.of_awake hcontrol (by rw [hself]; rfl)
          ((h.mail i).inbox_of_awake (by rw [hpc]; rfl)) ?_
        rw [hself]
        nofun
      · refine (h.mail j).congr (hother j hji) (hmem' j hjp) ?_ ?_ (by rw [hgpr3]) (by rw [hgpr])
        · intro _
          rw [hcancelling, cancelling_of_free hfree]
        · rw [hchoosing, choosing_of_free hfree]
          exact ⟨fun heq => absurd (Option.some.inj heq).symm hjp, nofun⟩

-- The event goes into the registers of the receiver.
theorem send_store (h : Sound c s log) {event : Event} {ppu : ι}
    (hpc : s.threads i = .sendStore event ppu) :
    Sound c { s.goto i (.sendAwake event ppu) with gpr := Function.update s.gpr ppu event }
      (log.apply (.hands i event ppu)) := by
  have hmine : s.mutex = some i := (h.control.exclusive i).mp (by rw [hpc]; rfl)
  have hnowhere := h.control.nowhere (i := i) (by rw [hpc]; rfl)
  have hserving : s.serving = [ppu] := by rw [serving_of_owner hmine, hpc]; rfl
  have hserved : ppu ∈ s.serving := by
    rw [hserving]
    exact List.mem_singleton_self _
  have hne : ppu ≠ i := fun heq => hnowhere.2.2 (heq ▸ hserved)
  have hchoosing : s.choosing = some ppu := by rw [choosing_of_owner hmine, hpc]; rfl
  have hcancelling : s.cancelling = false := by rw [cancelling_of_owner hmine, hpc]; rfl
  have hevents : s.events = [] := h.control.storing i event ppu hpc
  have hout : ppu ∉ s.pq := fun hin => ((h.control.good ppu).queued hin).2.2 hserved
  obtain ⟨hwaits, _⟩ := (h.control.good ppu).served hserved
  generalize hs' : State.mk _ _ _ _ _ _ _ _ = s'
  have hthreads : s'.threads = Function.update s.threads i (.sendAwake event ppu) := by
    rw [← hs']; rfl
  have hpq : s'.pq = s.pq := by rw [← hs']; rfl
  have hmutex : s'.mutex = some i := by rw [← hs']; exact hmine
  have hevents' : s'.events = s.events := by rw [← hs']; rfl
  have hsignal : s'.signal = s.signal := by rw [← hs']; rfl
  have hgpr3 : s'.gpr3 = s.gpr3 := by rw [← hs']; rfl
  have hgpr : s'.gpr = Function.update s.gpr ppu event := by rw [← hs']
  have hself : s'.threads i = .sendAwake event ppu := by rw [hthreads, Function.update_self]
  have hother : ∀ j, j ≠ i → s'.threads j = s.threads j := by
    intro j hji
    rw [hthreads, Function.update_of_ne hji]
  have hcontrol : Invariant c s' := by
    refine h.control.inside (.sendAwake event ppu) (Or.inr hmine) hthreads hmutex ?_ ?_ ?_ nofun ?_
    · rw [hpq]
      exact h.control.nodup
    · rw [hevents']
      exact h.control.size
    · rw [hpq, hevents']
      exact h.control.empty
    · intro hserving' j
      have hsame : s'.serving = s.serving := hserving'.trans hserving.symm
      by_cases hji : j = i
      · rw [hji]
        refine State.Good.of_awake (by rw [hself]; rfl) (by rw [hpq]; exact hnowhere.1)
          (by rw [hsignal]; exact hnowhere.2.1) ?_
        rw [hsame]
        exact hnowhere.2.2
      · refine (h.control.good j).congr (hother j hji) (by rw [hpq]) (by rw [hsignal]) ?_
        rw [hsame]
  have hchoosing' : s'.choosing = none := by rw [choosing_of_owner hmutex, hself]; rfl
  have hcancelling' : s'.cancelling = false := by rw [cancelling_of_owner hmutex, hself]; rfl
  have hinbox : ∀ j k, (log.apply (.hands i event ppu)).inbox j k = log.inbox j k ++
      if Fate.delivered ppu (log.call ppu) = .delivered j k then [event] else [] :=
    fun j k => inbox_append (log.apply (.hands i event ppu)) rfl j k
  refine ⟨hcontrol, ?_, ?_⟩
  · rw [hevents', hevents]
    refine (hevents ▸ h.books).append ⟨i, event, .delivered ppu (log.call ppu)⟩ rfl rfl rfl
      (Or.inr ⟨rfl, rfl, ppu, rfl⟩) ?_
    intro k
    change log.sent k ++ _ ++ _ = log.sent k ++ _
    by_cases hk : k = i
    · rw [hk, hself, hpc, if_pos rfl, List.append_assoc]
      rfl
    · rw [hother k hk, if_neg (Ne.symm hk), List.append_nil]
  · intro j
    change s'.Mail j ((log.apply (.hands i event ppu)).inbox j (log.call j))
    rw [hinbox]
    by_cases hjp : j = ppu
    · rw [hjp, if_pos rfl]
      have hempty : log.inbox ppu (log.call ppu) = [] :=
        (h.mail ppu).empty fun hgiven => hgiven.2.2 hchoosing
      have hok : s'.gpr3 ppu = .ok := by
        rw [hgpr3]
        exact (h.mail ppu).chosen hchoosing
      have hgiven : s'.Given ppu := by
        refine ⟨by rw [hother ppu hne]; exact hwaits, by rw [hpq]; exact hout, ?_⟩
        rw [hchoosing']
        nofun
      refine ⟨fun _ _ => hok, ?_, fun _ => hok, fun _ => Or.inl ⟨hok, ?_⟩, fun hn => absurd hgiven hn⟩
      · rw [hpq]
        intro hin
        exact absurd hin hout
      · rw [hempty, hgpr, Function.update_self]
        rfl
    · rw [if_neg (fun heq => hjp (by cases heq; rfl)), List.append_nil]
      by_cases hji : j = i
      · rw [hji]
        refine State.Mail.of_awake hcontrol (by rw [hself]; rfl)
          ((h.mail i).inbox_of_awake (by rw [hpc]; rfl)) ?_
        rw [hself]
        nofun
      · refine (h.mail j).congr (hother j hji) (by rw [hpq]) ?_ ?_ (by rw [hgpr3]) ?_
        · intro _
          rw [hcancelling, hcancelling']
        · rw [hchoosing, hchoosing']
          exact ⟨nofun, fun heq => absurd (Option.some.inj heq).symm hjp⟩
        · rw [hgpr, Function.update_of_ne hjp]

-- The receivers that were taken out of the queue are woken, and the section ends.
theorem Sound.awakes (h : Sound c s log) {log' : Log ι} (s' : State ι) (cpus : List ι)
    (hmine : s.mutex = some i) (hawake : (s.threads i).waits = false) (hserving : s.serving = cpus)
    (hchoosing : s.choosing = none) (hcancelling : s.cancelling = false)
    (hthreads : s'.threads = Function.update s.threads i (.idle (some .ok)))
    (hmutex : s'.mutex = none) (hevents : s'.events = s.events) (hpq : s'.pq = s.pq)
    (hwoken : ∀ j ∈ cpus, s'.signal j = true) (hsignal : ∀ j, j ∉ cpus → s'.signal j = s.signal j)
    (hgpr3 : s'.gpr3 = s.gpr3) (hgpr : s'.gpr = s.gpr)
    (hbooks : Books log' s.events fun k => (s'.threads k).sending)
    (hinbox : ∀ j, log'.inbox j (log'.call j) = log.inbox j (log.call j)) : Sound c s' log' := by
  have hnowhere := h.control.nowhere hawake
  rw [hserving] at hnowhere
  have hself : s'.threads i = .idle (some .ok) := by rw [hthreads, Function.update_self]
  have hother : ∀ j, j ≠ i → s'.threads j = s.threads j := by
    intro j hji
    rw [hthreads, Function.update_of_ne hji]
  have hcontrol : Invariant c s' := by
    refine h.control.inside (.idle (some .ok)) (Or.inr hmine) hthreads hmutex ?_ ?_ ?_ nofun ?_
    · rw [hpq]
      exact h.control.nodup
    · rw [hevents]
      exact h.control.size
    · rw [hpq, hevents]
      exact h.control.empty
    · intro hserving' j
      by_cases hj : j ∈ cpus
      · have hserved : j ∈ s.serving := by
          rw [hserving]
          exact hj
        have hji : j ≠ i := fun heq => hnowhere.2.2 (heq ▸ hj)
        have hwaits : (s'.threads j).waits = true := by
          rw [hother j hji]
          exact ((h.control.good j).served hserved).1
        refine ⟨?_, ?_, fun _ => hwaits, fun _ => Or.inr (Or.inr (hwoken j hj))⟩
        · rw [hpq]
          intro hin
          exact absurd hserved ((h.control.good j).queued hin).2.2
        · rw [hserving']
          nofun
      · by_cases hji : j = i
        · rw [hji]
          refine State.Good.of_awake (by rw [hself]; rfl) (by rw [hpq]; exact hnowhere.1) ?_ ?_
          · rw [hsignal i hnowhere.2.2]
            exact hnowhere.2.1
          · rw [hserving']
            exact List.not_mem_nil
        · refine (h.control.good j).congr (hother j hji) (by rw [hpq]) (hsignal j hj) ?_
          rw [hserving', hserving]
          exact ⟨nofun, fun hin => absurd hin hj⟩
  refine h.section hcontrol ?_ hthreads ?_ ?_ (fun _ _ => by rw [hpq]) (fun _ _ => by rw [hgpr3])
    (fun _ _ => by rw [hgpr]) (fun j _ => hinbox j) ?_
  · rw [hevents]
    exact hbooks
  · intro j _
    rw [hchoosing, choosing_of_free hmutex]
  · intro _
    rw [hcancelling, cancelling_of_free hmutex]
  · rw [hinbox]
    refine State.Mail.of_awake hcontrol (by rw [hself]; rfl) ((h.mail i).inbox_of_awake hawake) ?_
    rw [hself]
    nofun

theorem send_awake (h : Sound c s log) {event : Event} {ppu : ι}
    (hpc : s.threads i = .sendAwake event ppu) :
    Sound c { s.unlock i (.idle (some .ok)) with signal := Function.update s.signal ppu true }
      (log.apply (.sent i event)) := by
  have hmine : s.mutex = some i := (h.control.exclusive i).mp (by rw [hpc]; rfl)
  refine h.awakes _ [ppu] hmine (by rw [hpc]; rfl) ?_ ?_ ?_ rfl rfl rfl rfl ?_ ?_ rfl rfl ?_
    (fun _ => rfl)
  · rw [serving_of_owner hmine, hpc]
    rfl
  · rw [choosing_of_owner hmine, hpc]
    rfl
  · rw [cancelling_of_owner hmine, hpc]
    rfl
  · intro j hj
    rw [List.mem_singleton.mp hj]
    exact Function.update_self _ _ _
  · intro j hj
    exact Function.update_of_ne (fun heq => hj (List.mem_singleton.mpr heq)) _ _
  · refine ⟨h.books.split, h.books.results, h.books.later, ?_, h.books.begun, h.books.begun_le⟩
    intro k
    change log.outbox k = Function.update log.sent i (log.sent i ++ [event]) k ++
      (Function.update s.threads i (.idle (some .ok)) k).sending
    rw [h.books.outbox k]
    by_cases hk : k = i
    · rw [hk, Function.update_self, Function.update_self, hpc]
      exact (List.append_nil _).symm
    · rw [Function.update_of_ne hk, Function.update_of_ne hk]

theorem destroy_awake (h : Sound c s log) {cpus : List ι} (hpc : s.threads i = .destroyAwake cpus) :
    Sound c { s.unlock i (.idle (some .ok)) with
      signal := fun j => if j ∈ cpus then true else s.signal j } log := by
  have hmine : s.mutex = some i := (h.control.exclusive i).mp (by rw [hpc]; rfl)
  refine h.awakes _ cpus hmine (by rw [hpc]; rfl) ?_ ?_ ?_ rfl rfl rfl rfl ?_ ?_ rfl rfl ?_
    (fun _ => rfl)
  · rw [serving_of_owner hmine, hpc]
    rfl
  · rw [choosing_of_owner hmine, hpc]
    rfl
  · rw [cancelling_of_owner hmine, hpc]
    rfl
  · intro j hj
    exact if_pos hj
  · intro j hj
    exact if_neg hj
  · rw [sending_update s _ (.idle (some .ok)) rfl (by rw [hpc]; rfl)]
    exact h.books

theorem receive_park (h : Sound c s log) {timeout : Bool} (hpc : s.threads i = .receive timeout)
    (hfree : s.mutex = none) (hevents : s.events = []) :
    Sound c { s.goto i (.parked timeout) with pq := emplace s.pq i } log := by
  have hnowhere := h.control.nowhere (i := i) (by rw [hpc]; rfl)
  generalize hs' : State.mk _ _ _ _ _ _ _ _ = s'
  have hthreads : s'.threads = Function.update s.threads i (.parked timeout) := by rw [← hs']; rfl
  have hpq : s'.pq = i :: s.pq := by rw [← hs']; rfl
  have hmutex : s'.mutex = none := by rw [← hs']; exact hfree
  have hevents' : s'.events = s.events := by rw [← hs']; rfl
  have hsignal : s'.signal = s.signal := by rw [← hs']; rfl
  have hgpr3 : s'.gpr3 = s.gpr3 := by rw [← hs']; rfl
  have hgpr : s'.gpr = s.gpr := by rw [← hs']; rfl
  have hself : s'.threads i = .parked timeout := by rw [hthreads, Function.update_self]
  have hin : i ∈ s'.pq := by
    rw [hpq]
    exact List.mem_cons_self
  have hmem : ∀ j, j ≠ i → (j ∈ s'.pq ↔ j ∈ s.pq) := by
    intro j hji
    rw [hpq]
    exact List.mem_cons.trans (or_iff_right hji)
  have hcontrol : Invariant c s' := by
    refine h.control.inside (.parked timeout) (Or.inl hfree) hthreads hmutex ?_ ?_ ?_ nofun ?_
    · rw [hpq]
      exact List.nodup_cons.mpr ⟨hnowhere.1, h.control.nodup⟩
    · rw [hevents']
      exact h.control.size
    · intro _
      rw [hevents']
      exact hevents
    · intro hserving j
      by_cases hji : j = i
      · rw [hji]
        have hout : i ∉ s'.serving := by
          rw [hserving]
          exact List.not_mem_nil
        have hsilent : s'.signal i = false := by
          rw [hsignal]
          exact hnowhere.2.1
        refine ⟨fun _ => ⟨by rw [hself]; rfl, hsilent, hout⟩, fun hs => absurd hs hout, ?_,
          fun _ => Or.inl hin⟩
        intro _
        rw [hself]
        rfl
      · refine (h.control.good j).congr ?_ (hmem j hji) (by rw [hsignal]) ?_
        · rw [hthreads, Function.update_of_ne hji]
        · rw [hserving, serving_of_free hfree]
          rfl
  have hchoosing : s'.choosing = none := choosing_of_free hmutex
  have hcancelling : s'.cancelling = false := cancelling_of_free hmutex
  refine h.section hcontrol ?_ hthreads ?_ ?_ hmem (fun _ _ => by rw [hgpr3]) (fun _ _ => by rw [hgpr])
    (fun _ _ => rfl) ?_
  · rw [hevents', sending_update s s' (.parked timeout) hthreads (by rw [hpc]; rfl)]
    exact h.books
  · intro j _
    rw [hchoosing, choosing_of_free hfree]
  · intro _
    rw [hcancelling, cancelling_of_free hfree]
  · have hok : s'.gpr3 i = .ok := by
      rw [hgpr3]
      exact (h.mail i).calling timeout hpc
    refine ⟨fun _ _ => hok, ?_, fun _ => hok, fun hgiven => absurd hin hgiven.2.1, fun _ => ?_⟩
    · intro _
      rw [hcancelling]
      exact hok
    · exact (h.mail i).inbox_of_awake (by rw [hpc]; rfl)

-- The mutex is taken, for a timeout or a forced destroy.
theorem Sound.locks (h : Sound c s log) (s' : State ι) (pc : Pc ι) (hfree : s.mutex = none)
    (hthreads : s'.threads = Function.update s.threads i pc) (hmutex : s'.mutex = some i)
    (hholds : pc.holds = true) (hserves : pc.serving = []) (hchooses : pc.choosing = none)
    (hcancels : pc.cancelling = false) (hsends : pc.sending = (s.threads i).sending)
    (hqueues : (s.threads i).queues = true → pc.queues = true)
    (hwaits : pc.waits = (s.threads i).waits) (hreceive : ∀ timeout, pc ≠ .receive timeout)
    (hevents : s'.events = s.events) (hpq : s'.pq = s.pq) (hsignal : s'.signal = s.signal)
    (hgpr3 : s'.gpr3 = s.gpr3) (hgpr : s'.gpr = s.gpr) : Sound c s' log := by
  have hself : s'.threads i = pc := by rw [hthreads, Function.update_self]
  have hcontrol : Invariant c s' := by
    refine h.control.inside pc (Or.inl hfree) hthreads (by rw [hholds]; exact hmutex) ?_ ?_ ?_ ?_ ?_
    · rw [hpq]
      exact h.control.nodup
    · rw [hevents]
      exact h.control.size
    · rw [hpq, hevents]
      exact h.control.empty
    · intro event ppu heq
      rw [heq] at hserves
      cases hserves
    · intro hserving j
      have hsame : s'.serving = s.serving := by rw [hserving, hserves, serving_of_free hfree]
      by_cases hji : j = i
      · rw [hji]
        exact (h.control.good i).moved hself hqueues hwaits (by rw [hpq]) (by rw [hsignal])
          (by rw [hsame])
      · refine (h.control.good j).congr ?_ (by rw [hpq]) (by rw [hsignal]) (by rw [hsame])
        rw [hthreads, Function.update_of_ne hji]
  have hchoosing : s'.choosing = none := by rw [choosing_of_owner hmutex, hself, hchooses]
  have hcancelling : s'.cancelling = false := by rw [cancelling_of_owner hmutex, hself, hcancels]
  refine h.section hcontrol ?_ hthreads ?_ ?_ (fun _ _ => by rw [hpq]) (fun _ _ => by rw [hgpr3])
    (fun _ _ => by rw [hgpr]) (fun _ _ => rfl) ?_
  · rw [hevents, sending_update s s' pc hthreads hsends]
    exact h.books
  · intro j _
    rw [hchoosing, choosing_of_free hfree]
  · intro _
    rw [hcancelling, cancelling_of_free hfree]
  · have hgiven : s'.Given i ↔ s.Given i := by
      unfold State.Given
      rw [hself, hwaits, hpq, hchoosing, choosing_of_free hfree]
    have hmail := h.mail i
    refine ⟨?_, ?_, ?_, ?_, ?_⟩
    · rw [hself]
      intro timeout heq
      exact absurd heq (hreceive timeout)
    · rw [hpq, hgpr3, hcancelling, ← cancelling_of_free hfree]
      exact hmail.queued
    · rw [hchoosing]
      nofun
    · rw [hgiven, hgpr3, hgpr]
      exact hmail.given
    · rw [hgiven]
      exact hmail.empty

-- The section of a timeout ends.
theorem timeout_unqueue (h : Sound c s log) (hpc : s.threads i = .timeoutUnqueue)
    (hs : advance c prio s i = some (s', l)) : Sound c s' (log.apply l) := by
  have hmine : s.mutex = some i := (h.control.exclusive i).mp (by rw [hpc]; rfl)
  have hserving : s.serving = [] := by rw [serving_of_owner hmine, hpc]; rfl
  have hchoosing : s.choosing = none := by rw [choosing_of_owner hmine, hpc]; rfl
  have hcancelling : s.cancelling = false := by rw [cancelling_of_owner hmine, hpc]; rfl
  have hmail := h.mail i
  simp only [advance, hpc] at hs
  split at hs
  · rename_i hnone
    cases hs
    have hout := unqueue_eq_none.mp hnone
    have hgiven : s.Given i := by
      refine ⟨by rw [hpc]; rfl, hout, ?_⟩
      rw [hchoosing]
      nofun
    have hself : ((s.awaken i).unlock i (.idle (some (s.gpr3 i)))).threads i =
      .idle (some (s.gpr3 i)) := Function.update_self _ _ _
    have hcontrol : Invariant c ((s.awaken i).unlock i (.idle (some (s.gpr3 i)))) := by
      refine h.control.inside (.idle (some (s.gpr3 i))) (Or.inr hmine) rfl rfl h.control.nodup
        h.control.size h.control.empty nofun ?_
      intro hserving' j
      by_cases hji : j = i
      · rw [hji]
        refine State.Good.of_awake (by rw [hself]; rfl) hout (Function.update_self _ _ _) ?_
        rw [hserving']
        exact List.not_mem_nil
      · refine (h.control.good j).congr (Function.update_of_ne hji _ _) Iff.rfl
          (Function.update_of_ne hji _ _) ?_
        rw [hserving', hserving]
        rfl
    refine h.section (i := i) hcontrol ?_ rfl ?_ ?_ (fun _ _ => Iff.rfl) (fun _ _ => rfl)
      (fun _ _ => rfl) ?_ ?_
    · rw [sending_update s _ (.idle (some (s.gpr3 i))) rfl (by rw [hpc]; rfl)]
      exact h.returned hgiven
    · intro j _
      rw [hchoosing]
      exact Iff.rfl
    · intro _
      rw [hcancelling]
      rfl
    · intro j hji
      have hcall : (log.apply (s.returned i)).call j = log.call j := call_returned hji
      rw [hcall]
      rfl
    · refine State.Mail.of_awake hcontrol (by rw [hself]; rfl) (h.books.inbox_next i) ?_
      rw [hself]
      nofun
  · rename_i pq hsome
    cases hs
    obtain ⟨hmem, hrest⟩ := unqueue_eq_some hsome
    generalize hs' : State.mk _ _ _ _ _ _ _ _ = s'
    have hthreads : s'.threads = Function.update s.threads i (.idle (some .etimedout)) := by
      rw [← hs']; rfl
    have hpq : s'.pq = s.pq.erase i := by rw [← hs', ← hrest]
    have hmutex : s'.mutex = none := by rw [← hs']; rfl
    have hevents : s'.events = s.events := by rw [← hs']; rfl
    have hsignal : s'.signal = s.signal := by rw [← hs']; rfl
    have hgpr3 : s'.gpr3 = Function.update s.gpr3 i .etimedout := by rw [← hs']
    have hgpr : s'.gpr = s.gpr := by rw [← hs']; rfl
    have hself : s'.threads i = .idle (some .etimedout) := by rw [hthreads, Function.update_self]
    have hin : ∀ j, j ≠ i → (j ∈ s'.pq ↔ j ∈ s.pq) := by
      intro j hji
      rw [hpq]
      exact h.control.nodup.mem_erase_iff.trans (and_iff_right hji)
    have hinbox : log.inbox i (log.call i) = [] := hmail.empty fun hgiven => hgiven.2.1 hmem
    have hcontrol : Invariant c s' := by
      refine h.control.inside (.idle (some .etimedout)) (Or.inr hmine) hthreads hmutex ?_ ?_ ?_ nofun ?_
      · rw [hpq]
        exact h.control.nodup.erase i
      · rw [hevents]
        exact h.control.size
      · intro _
        rw [hevents]
        exact h.control.empty (List.ne_nil_of_mem hmem)
      · intro hserving' j
        by_cases hji : j = i
        · rw [hji]
          refine State.Good.of_awake (by rw [hself]; rfl) ?_ ?_ ?_
          · rw [hpq]
            intro hi
            exact absurd rfl (h.control.nodup.mem_erase_iff.mp hi).1
          · rw [hsignal]
            exact ((h.control.good i).queued hmem).2.1
          · rw [hserving']
            exact List.not_mem_nil
        · refine (h.control.good j).congr ?_ (hin j hji) (by rw [hsignal]) ?_
          · rw [hthreads, Function.update_of_ne hji]
          · rw [hserving', hserving]
            rfl
    refine h.section hcontrol ?_ hthreads ?_ ?_ hin ?_ (fun _ _ => by rw [hgpr]) ?_ ?_
    · rw [hevents, sending_update s s' (.idle (some .etimedout)) hthreads (by rw [hpc]; rfl)]
      exact h.books.returned hinbox (fun _ => rfl) nofun
    · intro j _
      rw [hchoosing, choosing_of_free hmutex]
    · intro _
      rw [hcancelling, cancelling_of_free hmutex]
    · intro j hji
      rw [hgpr3, Function.update_of_ne hji]
    · intro j hji
      have hcall : (log.apply (.returns i true .etimedout [])).call j = log.call j :=
        call_returned hji
      rw [hcall]
      rfl
    · refine State.Mail.of_awake hcontrol (by rw [hself]; rfl) (h.books.inbox_next i) ?_
      rw [hself]
      nofun

theorem destroy_cancel (h : Sound c s log) (hpc : s.threads i = .destroyCancel) :
    Sound c { s.goto i .destroyClear with
      gpr3 := fun j => if j ∈ s.pq then .ecanceled else s.gpr3 j } log := by
  have hmine : s.mutex = some i := (h.control.exclusive i).mp (by rw [hpc]; rfl)
  have hnowhere := h.control.nowhere (i := i) (by rw [hpc]; rfl)
  have hserving : s.serving = [] := by rw [serving_of_owner hmine, hpc]; rfl
  have hchoosing : s.choosing = none := by rw [choosing_of_owner hmine, hpc]; rfl
  generalize hs' : State.mk _ _ _ _ _ _ _ _ = s'
  have hthreads : s'.threads = Function.update s.threads i .destroyClear := by rw [← hs']; rfl
  have hpq : s'.pq = s.pq := by rw [← hs']; rfl
  have hmutex : s'.mutex = some i := by rw [← hs']; exact hmine
  have hevents : s'.events = s.events := by rw [← hs']; rfl
  have hsignal : s'.signal = s.signal := by rw [← hs']; rfl
  have hgpr3 : ∀ j, s'.gpr3 j = if j ∈ s.pq then .ecanceled else s.gpr3 j := by
    intro j
    rw [← hs']
  have hgpr : s'.gpr = s.gpr := by rw [← hs']; rfl
  have hself : s'.threads i = .destroyClear := by rw [hthreads, Function.update_self]
  have hother : ∀ j, j ≠ i → s'.threads j = s.threads j := by
    intro j hji
    rw [hthreads, Function.update_of_ne hji]
  have hcontrol : Invariant c s' := by
    refine h.control.inside .destroyClear (Or.inr hmine) hthreads hmutex ?_ ?_ ?_ nofun ?_
    · rw [hpq]
      exact h.control.nodup
    · rw [hevents]
      exact h.control.size
    · rw [hpq, hevents]
      exact h.control.empty
    · intro hserving' j
      have hsame : s'.serving = s.serving := hserving'.trans hserving.symm
      by_cases hji : j = i
      · rw [hji]
        refine State.Good.of_awake (by rw [hself]; rfl) (by rw [hpq]; exact hnowhere.1)
          (by rw [hsignal]; exact hnowhere.2.1) ?_
        rw [hsame]
        exact hnowhere.2.2
      · exact (h.control.good j).congr (hother j hji) (by rw [hpq]) (by rw [hsignal]) (by rw [hsame])
  have hchoosing' : s'.choosing = none := by rw [choosing_of_owner hmutex, hself]; rfl
  have hcancelling : s'.cancelling = true := by rw [cancelling_of_owner hmutex, hself]; rfl
  refine ⟨hcontrol, ?_, ?_⟩
  · rw [hevents, sending_update s s' .destroyClear hthreads (by rw [hpc]; rfl)]
    exact h.books
  · intro j
    by_cases hj : j ∈ s.pq
    · have hji : j ≠ i := fun heq => hnowhere.1 (heq ▸ hj)
      have hwaits := Pc.waits_of_queues ((h.control.good j).queued hj).1
      have hempty := (h.mail j).empty fun hgiven => hgiven.2.1 hj
      refine ⟨?_, ?_, ?_, ?_, fun _ => hempty⟩
      · intro timeout heq
        rw [hother j hji] at heq
        exact absurd heq (Pc.not_receive_of_waits hwaits)
      · intro _
        rw [hgpr3, if_pos hj, hcancelling]
        rfl
      · rw [hchoosing']
        nofun
      · intro hgiven
        rw [← hpq] at hj
        exact absurd hj hgiven.2.1
    · by_cases hji : j = i
      · rw [hji]
        refine State.Mail.of_awake hcontrol (by rw [hself]; rfl)
          ((h.mail i).inbox_of_awake (by rw [hpc]; rfl)) ?_
        rw [hself]
        nofun
      · refine (h.mail j).congr (hother j hji) (by rw [hpq]) (fun hin => absurd hin hj) ?_ ?_ (by rw [hgpr])
        · rw [hchoosing, hchoosing']
        · rw [hgpr3, if_neg hj]

theorem destroy_clear (h : Sound c s log) (hpc : s.threads i = .destroyClear) :
    Sound c { s.goto i (.destroyAwake s.pq) with pq := [] } log := by
  have hmine : s.mutex = some i := (h.control.exclusive i).mp (by rw [hpc]; rfl)
  have hnowhere := h.control.nowhere (i := i) (by rw [hpc]; rfl)
  have hserving : s.serving = [] := by rw [serving_of_owner hmine, hpc]; rfl
  have hchoosing : s.choosing = none := by rw [choosing_of_owner hmine, hpc]; rfl
  have hcancelling : s.cancelling = true := by rw [cancelling_of_owner hmine, hpc]; rfl
  generalize hs' : State.mk _ _ _ _ _ _ _ _ = s'
  have hthreads : s'.threads = Function.update s.threads i (.destroyAwake s.pq) := by rw [← hs']; rfl
  have hpq : s'.pq = [] := by rw [← hs']
  have hmutex : s'.mutex = some i := by rw [← hs']; exact hmine
  have hevents : s'.events = s.events := by rw [← hs']; rfl
  have hsignal : s'.signal = s.signal := by rw [← hs']; rfl
  have hgpr3 : s'.gpr3 = s.gpr3 := by rw [← hs']; rfl
  have hgpr : s'.gpr = s.gpr := by rw [← hs']; rfl
  have hself : s'.threads i = .destroyAwake s.pq := by rw [hthreads, Function.update_self]
  have hother : ∀ j, j ≠ i → s'.threads j = s.threads j := by
    intro j hji
    rw [hthreads, Function.update_of_ne hji]
  have hnone : ∀ j, j ∉ s'.pq := by
    intro j
    rw [hpq]
    exact List.not_mem_nil
  have hcontrol : Invariant c s' := by
    refine h.control.inside (.destroyAwake s.pq) (Or.inr hmine) hthreads hmutex ?_ ?_ ?_ nofun ?_
    · rw [hpq]
      exact List.nodup_nil
    · rw [hevents]
      exact h.control.size
    · intro hne
      exact absurd hpq hne
    · intro hserving' j
      by_cases hj : j ∈ s.pq
      · have hji : j ≠ i := fun heq => hnowhere.1 (heq ▸ hj)
        obtain ⟨hqueues, hsilent, _⟩ := (h.control.good j).queued hj
        have hwaits : (s'.threads j).waits = true := by
          rw [hother j hji]
          exact Pc.waits_of_queues hqueues
        refine ⟨fun hin => absurd hin (hnone j), fun _ => ⟨hwaits, by rw [hsignal]; exact hsilent⟩,
          fun _ => hwaits, fun _ => Or.inr (Or.inl ?_)⟩
        rw [hserving']
        exact hj
      · have hout : j ∉ s'.serving := by
          rw [hserving']
          exact hj
        by_cases hji : j = i
        · rw [hji] at hout ⊢
          exact State.Good.of_awake (by rw [hself]; rfl) (hnone i) (by rw [hsignal]; exact hnowhere.2.1)
            hout
        · refine (h.control.good j).congr (hother j hji) ?_ (by rw [hsignal]) ?_
          · exact ⟨fun hin => absurd hin (hnone j), fun hin => absurd hin hj⟩
          · rw [hserving]
            exact ⟨fun hin => absurd hin hout, nofun⟩
  have hchoosing' : s'.choosing = none := by rw [choosing_of_owner hmutex, hself]; rfl
  refine ⟨hcontrol, ?_, ?_⟩
  · rw [hevents, sending_update s s' (.destroyAwake s.pq) hthreads (by rw [hpc]; rfl)]
    exact h.books
  · intro j
    by_cases hj : j ∈ s.pq
    · have hji : j ≠ i := fun heq => hnowhere.1 (heq ▸ hj)
      have hwaits := Pc.waits_of_queues ((h.control.good j).queued hj).1
      have hempty := (h.mail j).empty fun hgiven => hgiven.2.1 hj
      have hcanceled : s'.gpr3 j = .ecanceled := by
        rw [hgpr3, (h.mail j).queued hj, hcancelling]
        rfl
      refine ⟨?_, fun hin => absurd hin (hnone j), ?_, fun _ => Or.inr ⟨hcanceled, hempty⟩,
        fun _ => hempty⟩
      · intro timeout heq
        rw [hother j hji] at heq
        exact absurd heq (Pc.not_receive_of_waits hwaits)
      · rw [hchoosing']
        nofun
    · by_cases hji : j = i
      · rw [hji]
        refine State.Mail.of_awake hcontrol (by rw [hself]; rfl)
          ((h.mail i).inbox_of_awake (by rw [hpc]; rfl)) ?_
        rw [hself]
        nofun
      · refine (h.mail j).congr (hother j hji) ?_ (fun hin => absurd hin hj) ?_ (by rw [hgpr3])
          (by rw [hgpr])
        · exact ⟨fun hin => absurd hin (hnone j), fun hin => absurd hin hj⟩
        · rw [hchoosing, hchoosing']

end Owner

section Results

theorem advance_sound (h : Sound c s log) (hs : advance c prio s i = some (s', l)) :
    Sound c s' (log.apply l) := by
  cases hpc : s.threads i with
  | idle result => simp [advance, hpc] at hs
  | send event =>
      have hbefore : (s.threads i).holds = false := by rw [hpc]; rfl
      have hawake : (s.threads i).waits = false := by rw [hpc]; rfl
      simp only [advance, hpc] at hs
      split at hs
      · cases hs
      · rename_i hfree
        rw [not_not] at hfree
        split at hs
        · cases hs
          exact h.silent _ (.idle (some .enotconn)) hbefore rfl hawake rfl rfl rfl rfl rfl rfl rfl rfl nofun
        · split at hs
          · rename_i hnone
            split at hs
            · rename_i hsize
              cases hs
              exact h.stores _ event hfree (schedule_eq_none.mp hnone) hsize hbefore hawake rfl hfree rfl
                rfl rfl rfl rfl
            · cases hs
              exact h.silent _ (.idle (some .ebusy)) hbefore rfl hawake rfl rfl rfl rfl rfl rfl rfl rfl
                nofun
          · rename_i ppu pq hsome
            cases hs
            rw [schedule_eq_erase h.control.nodup hsome]
            exact send_schedule h hpc hfree ((schedule_perm hsome).mem_iff.mpr List.mem_cons_self)
  | sendStore event ppu =>
      simp only [advance, hpc] at hs
      cases hs
      exact send_store h hpc
  | sendAwake event ppu =>
      simp only [advance, hpc] at hs
      cases hs
      exact send_awake h hpc
  | receive timeout =>
      have hbefore : (s.threads i).holds = false := by rw [hpc]; rfl
      have hawake : (s.threads i).waits = false := by rw [hpc]; rfl
      simp only [advance, hpc] at hs
      split at hs
      · cases hs
      · rename_i hfree
        rw [not_not] at hfree
        split at hs
        · cases hs
          exact h.fails hbefore hawake nofun
        · split at hs
          · rename_i hevents
            cases hs
            exact receive_park h hpc hfree hevents
          · rename_i event events hevents
            cases hs
            have htake : s.events.take 1 = [event] := by rw [hevents]; rfl
            rw [← htake]
            refine h.takes _ 1 hfree hbefore hawake rfl hfree rfl rfl rfl ?_ ?_ ?_
            · intro j hji
              exact Function.update_of_ne hji _ _
            · rw [hevents]
              rfl
            · intro _
              rw [htake]
              rfl
  | parked timeout =>
      simp only [advance, hpc] at hs
      split at hs
      · rename_i hsignal
        cases hs
        exact h.wakes (by rw [hpc]; rfl) hsignal
      · cases hs
  | expired =>
      have hbefore : (s.threads i).holds = false := by rw [hpc]; rfl
      have hwaits : (s.threads i).waits = true := by rw [hpc]; rfl
      simp only [advance, hpc] at hs
      split at hs
      · rename_i hempty
        cases hs
        refine h.waiting_goto .barrier hbefore rfl hwaits rfl ?_
        rw [hempty]
        nofun
      · cases hs
        exact h.waiting_goto .timeoutLock hbefore rfl hwaits rfl fun _ => rfl
  | barrier =>
      simp only [advance, hpc] at hs
      split at hs
      · cases hs
      · rename_i hfree
        rw [not_not] at hfree
        cases hs
        have hgood := h.control.good i
        apply h.wakes (by rw [hpc]; rfl)
        rcases hgood.waiting (by rw [hpc]; rfl) with hin | hserved | hsignal
        · have hqueues := (hgood.queued hin).1
          rw [hpc] at hqueues
          cases hqueues
        · rw [serving_of_free hfree] at hserved
          cases hserved
        · exact hsignal
  | timeoutLock =>
      simp only [advance, hpc] at hs
      split at hs
      · cases hs
      · rename_i hfree
        cases hs
        exact h.locks _ .timeoutUnqueue (not_not.mp hfree) rfl rfl rfl rfl rfl rfl (by rw [hpc]; rfl)
          (fun _ => rfl) (by rw [hpc]; rfl) nofun rfl rfl rfl rfl rfl
  | timeoutUnqueue => exact timeout_unqueue h hpc hs
  | tryreceive size =>
      have hbefore : (s.threads i).holds = false := by rw [hpc]; rfl
      have hawake : (s.threads i).waits = false := by rw [hpc]; rfl
      simp only [advance, hpc] at hs
      split at hs
      · cases hs
      · rename_i hfree
        rw [not_not] at hfree
        split at hs
        · cases hs
          exact h.fails hbefore hawake nofun
        · cases hs
          exact h.takes _ size.toNat hfree hbefore hawake rfl hfree rfl rfl rfl (fun _ _ => rfl) rfl nofun
  | drain =>
      have hbefore : (s.threads i).holds = false := by rw [hpc]; rfl
      have hawake : (s.threads i).waits = false := by rw [hpc]; rfl
      simp only [advance, hpc] at hs
      split at hs
      · cases hs
      · rename_i hfree
        rw [not_not] at hfree
        split at hs
        · cases hs
          exact h.silent _ (.idle (some .esrch)) hbefore rfl hawake rfl rfl rfl rfl rfl rfl rfl rfl nofun
        · cases hs
          exact h.drains _ hfree hbefore hawake rfl hfree rfl rfl rfl rfl rfl
  | destroy force =>
      have hbefore : (s.threads i).holds = false := by rw [hpc]; rfl
      have hawake : (s.threads i).waits = false := by rw [hpc]; rfl
      simp only [advance, hpc] at hs
      split at hs
      · cases hs
      · rename_i hfree
        rw [not_not] at hfree
        split at hs
        · cases hs
          exact h.silent _ (.idle (some .esrch)) hbefore rfl hawake rfl rfl rfl rfl rfl rfl rfl rfl nofun
        · split at hs
          · cases hs
            exact h.silent _ (.idle (some .ok)) hbefore rfl hawake rfl rfl rfl rfl rfl rfl rfl rfl nofun
          · split at hs
            · cases hs
              exact h.locks _ .destroyCancel hfree rfl rfl rfl rfl rfl rfl (by rw [hpc]; rfl)
                (by rw [hpc]; nofun) (by rw [hpc]; rfl) nofun rfl rfl rfl rfl rfl
            · cases hs
              exact h.silent _ (.idle (some .ebusy)) hbefore rfl hawake rfl rfl rfl rfl rfl rfl rfl rfl
                nofun
  | destroyCancel =>
      simp only [advance, hpc] at hs
      cases hs
      exact destroy_cancel h hpc
  | destroyClear =>
      simp only [advance, hpc] at hs
      cases hs
      exact destroy_clear h hpc
  | destroyAwake cpus =>
      simp only [advance, hpc] at hs
      cases hs
      exact destroy_awake h hpc

-- A run of the queue with the log of it.
inductive Run (c : Config) : State ι → Log ι → Prop where
  | start : Run c State.start Log.start
  | step (s s' : State ι) (log : Log ι) (l : Label ι) (hrun : Run c s log) (hstep : Step c s s' l) :
      Run c s' (log.apply l)

theorem step_sound (h : Sound c s log) (hs : Step c s s' l) : Sound c s' (log.apply l) := by
  cases hs with
  | call i result call hidle => exact h.call hidle
  | run i prio _ _ hs => exact advance_sound h hs
  | expire i hparked =>
      exact h.waiting_goto .expired (by rw [hparked]; rfl) rfl (by rw [hparked]; rfl) rfl fun _ => rfl

theorem run_sound (h : Run c s log) : Sound c s log := by
  induction h with
  | start =>
      refine ⟨Invariant.start, Books.start, ?_⟩
      intro j
      exact State.Mail.of_awake (c := c) Invariant.start rfl rfl nofun
  | step s s' log l _ hstep ih => exact step_sound ih hstep

-- The queue is never overfull, and receivers sleep only at an empty queue. The events for which
-- send has returned success (or is about to) are those of the history. Each has one fate, and no
-- event leaves the queue before one that was sent earlier. What was delivered to a call is what the
-- call returns, or will return; and it was stored when the call began or sent later.
theorem event_queue_invariant (h : Run c s log) :
    s.events.length ≤ c.size ∧
    (s.pq ≠ [] → s.events = []) ∧
    (∀ i, log.outbox i = log.sent i ++ (s.threads i).sending) ∧
    (∃ done pending, Split log.history done pending ∧ s.events = pending.map Entry.event) ∧
    (∀ j (k : Nat) r, (log.results j)[k]? = some r → log.inbox j k = r.events ∧
      (r.code ≠ .ok → r.events = []) ∧ (r.code = .ok → r.received = true → r.events.length = 1)) ∧
    (∀ x ∈ log.history, ∀ j k, x.fate = .delivered j k → k < log.call j ∨
      k = log.call j ∧ (s.threads j).waits = true ∧ s.gpr3 j = .ok ∧ s.gpr j = x.event) ∧
    (∀ (m : Nat) x j k, log.history[m]? = some x → x.fate = .delivered j k →
      log.begunAt j k ≤ m) := by
  have hsound := run_sound h
  refine ⟨hsound.control.size, hsound.control.empty, hsound.books.outbox, hsound.books.split,
    hsound.books.results, ?_, hsound.books.begun⟩
  intro x hx j k hfate
  have hmem : x.event ∈ log.inbox j k :=
    List.mem_map_of_mem (List.mem_filter.mpr ⟨hx, decide_eq_true hfate⟩)
  rcases Nat.lt_trichotomy k (log.call j) with hlt | heq | hgt
  · exact Or.inl hlt
  · right
    rw [heq] at hmem
    have hmail := hsound.mail j
    have hgiven : s.Given j := by
      by_contra hn
      rw [hmail.empty hn] at hmem
      cases hmem
    rcases hmail.given hgiven with ⟨hok, hinbox⟩ | ⟨_, hinbox⟩
    · rw [hinbox] at hmem
      exact ⟨heq, hgiven.1, hok, (List.mem_singleton.mp hmem).symm⟩
    · rw [hinbox] at hmem
      cases hmem
  · rw [hsound.books.later j k hgt] at hmem
    cases hmem

end Results

-- Thread 1 receives the event that thread 0 has sent.
theorem event_queue_invariant_received : ∃ (s : State (Fin 2)) (log : Log (Fin 2)),
    Run ⟨.fifo, 1⟩ s log ∧ log.sent 0 = [⟨1, 2, 3, 4⟩] ∧ log.inbox 1 0 = [⟨1, 2, 3, 4⟩] ∧
      s.events = [] := by
  have hcall := Run.step _ _ _ _ (Run.start (c := ⟨.fifo, 1⟩) (ι := Fin 2))
    (.call 0 none (.send ⟨1, 2, 3, 4⟩) rfl)
  have hsend := Run.step _ _ _ _ hcall (.run 0 (fun _ => ⟨0, 0⟩) _ _ rfl)
  have hreceive := Run.step _ _ _ _ hsend (.call 1 none (.receive false) rfl)
  have htake := Run.step _ _ _ _ hreceive (.run 1 (fun _ => ⟨0, 0⟩) _ _ rfl)
  obtain ⟨-, -, -, -, hresults, -, -⟩ := event_queue_invariant htake
  exact ⟨_, _, htake, rfl, (hresults 1 0 _ rfl).1, rfl⟩

end Rpcsx.Lv2.EventQueue
