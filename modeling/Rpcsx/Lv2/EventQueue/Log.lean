import Rpcsx.Lv2.EventQueue

namespace Rpcsx.Lv2.EventQueue

-- What has become of an event for which send returned success: it was delivered to a receiver in
-- one of the calls of it, counted from zero.
inductive Fate (ι : Type) where
  | stored
  | delivered (ppu : ι) (call : Nat)
  | drained
deriving DecidableEq, Repr

structure Entry (ι : Type) where
  sender : ι
  event : Event
  fate : Fate ι
deriving DecidableEq, Repr

-- A call of sys_event_queue_receive or sys_event_queue_tryreceive that has returned: how many
-- events were gone from the queue when it began, and the result.
structure Result where
  begun : Nat
  received : Bool
  code : Code
  events : List Event
deriving DecidableEq, Repr

-- The events in the order in which they were sent, the calls that have returned and the events
-- for which send has returned success to a thread.
structure Log (ι : Type) where
  history : List (Entry ι)
  begun : ι → Nat
  results : ι → List Result
  sent : ι → List Event

section Log

variable {ι : Type} [DecidableEq ι]

-- The first stored events leave the queue.
def leave (fate : Fate ι) : Nat → List (Entry ι) → List (Entry ι)
  | 0, history => history
  | _ + 1, [] => []
  | count + 1, x :: rest =>
      if x.fate = .stored then { x with fate := fate } :: leave fate count rest
      else x :: leave fate (count + 1) rest

namespace Log

def start : Log ι where
  history := []
  begun _ := 0
  results _ := []
  sent _ := []

def gone (log : Log ι) : Nat := (log.history.filter fun x => x.fate ≠ .stored).length

-- The number of the call that a receiver is in.
def call (log : Log ι) (j : ι) : Nat := (log.results j).length

def returned (log : Log ι) (j : ι) (received : Bool) (code : Code) (events : List Event) : Log ι :=
  { log with
    results := Function.update log.results j
      (log.results j ++ [⟨log.begun j, received, code, events⟩]) }

def apply (log : Log ι) : Label ι → Log ι
  | .silent => log
  | .begins ppu => { log with begun := Function.update log.begun ppu log.gone }
  | .stores cpu event =>
      { log with
        history := log.history ++ [⟨cpu, event, .stored⟩]
        sent := Function.update log.sent cpu (log.sent cpu ++ [event]) }
  | .hands cpu event ppu =>
      { log with history := log.history ++ [⟨cpu, event, .delivered ppu (log.call ppu)⟩] }
  | .sent cpu event =>
      { log with sent := Function.update log.sent cpu (log.sent cpu ++ [event]) }
  | .takes ppu events received =>
      { log with history := leave (.delivered ppu (log.call ppu)) events.length log.history }.returned
        ppu received .ok events
  | .drains => { log with history := leave .drained log.history.length log.history }
  | .returns ppu received code events => log.returned ppu received code events

-- The events that were delivered to a receiver in one of its calls, in send order.
def inbox (log : Log ι) (j : ι) (call : Nat) : List Event :=
  (log.history.filter fun x => x.fate = .delivered j call).map Entry.event

-- The events that a thread has sent.
def outbox (log : Log ι) (i : ι) : List Event :=
  (log.history.filter fun x => x.sender = i).map Entry.event

-- How many events were gone when a call began.
def begunAt (log : Log ι) (j : ι) (call : Nat) : Nat :=
  match (log.results j)[call]? with
  | some result => result.begun
  | none => log.begun j

end Log

end Log

section Leave

variable {ι : Type} [DecidableEq ι] {fate : Fate ι} {count : Nat} {done pending : List (Entry ι)}

theorem leave_done (h : ∀ x ∈ done, x.fate ≠ .stored) :
    leave fate count (done ++ pending) = done ++ leave fate count pending := by
  induction done with
  | nil => rfl
  | cons x rest ih =>
      cases count with
      | zero => simp only [leave]
      | succ count =>
          have hrest := ih fun y hy => h y (List.mem_cons_of_mem _ hy)
          rw [List.cons_append, leave, if_neg (h x List.mem_cons_self), hrest]
          rfl

theorem leave_pending (h : ∀ x ∈ pending, x.fate = .stored) :
    leave fate count pending =
      (pending.take count).map (fun x => { x with fate := fate }) ++ pending.drop count := by
  induction pending generalizing count with
  | nil => cases count <;> rfl
  | cons x rest ih =>
      cases count with
      | zero => simp only [leave, List.take_zero, List.map_nil, List.nil_append, List.drop_zero]
      | succ count =>
          have hrest : leave fate count rest =
              (rest.take count).map (fun x => { x with fate := fate }) ++ rest.drop count :=
            ih fun y hy => h y (List.mem_cons_of_mem _ hy)
          rw [leave, if_pos (h x List.mem_cons_self), hrest]
          rfl

end Leave

section Books

variable {ι : Type} [DecidableEq ι] {log : Log ι} {events : List Event} {sending : ι → List Event}
  {i j : ι} {event : Event}

-- The events that are gone and those that are stored: no event has left the queue before an event
-- that was sent earlier.
structure Split (history done pending : List (Entry ι)) : Prop where
  eq : history = done ++ pending
  done : ∀ x ∈ done, x.fate ≠ .stored
  pending : ∀ x ∈ pending, x.fate = .stored

-- The books are balanced: every event that was sent is stored, gone with a drain or in the inbox
-- of one call of one receiver, and this is what the call returns. `sending` are the events of
-- sends that have delivered and not yet returned.
structure Books (log : Log ι) (events : List Event) (sending : ι → List Event) : Prop where
  split : ∃ done pending, Split log.history done pending ∧ events = pending.map Entry.event
  results : ∀ j (k : Nat) r, (log.results j)[k]? = some r → log.inbox j k = r.events ∧
    (r.code ≠ .ok → r.events = []) ∧ (r.code = .ok → r.received = true → r.events.length = 1)
  later : ∀ j k, log.call j < k → log.inbox j k = []
  outbox : ∀ i, log.outbox i = log.sent i ++ sending i
  begun : ∀ (m : Nat) x j k, log.history[m]? = some x → x.fate = .delivered j k →
    log.begunAt j k ≤ m
  begun_le : ∀ j, log.begun j ≤ log.gone

theorem Split.gone {done pending : List (Entry ι)} (h : Split log.history done pending) :
    log.gone = done.length := by
  unfold Log.gone
  rw [h.eq, List.filter_append, List.filter_eq_self.mpr, List.filter_eq_nil_iff.mpr, List.append_nil]
  · intro x hx
    simp [h.pending x hx]
  · intro x hx
    simp [h.done x hx]

theorem Books.start : Books (Log.start : Log ι) [] fun _ => [] where
  split := ⟨[], [], ⟨rfl, nofun, nofun⟩, rfl⟩
  results j k r h := by
    change ([] : List Result)[k]? = some r at h
    rw [List.getElem?_nil] at h
    cases h
  later _ _ _ := rfl
  outbox _ := rfl
  begun m x j k h := by
    change ([] : List (Entry ι))[m]? = some x at h
    rw [List.getElem?_nil] at h
    cases h
  begun_le _ := Nat.zero_le _

-- A receiver that has got nothing in its call.
theorem begunAt_of_inbox {m k : Nat} {x : Entry ι} (hx : log.history[m]? = some x)
    (hempty : log.inbox j k = []) : x.fate ≠ .delivered j k := by
  intro hfate
  unfold Log.inbox at hempty
  rw [List.map_eq_nil_iff, List.filter_eq_nil_iff] at hempty
  exact hempty x (List.mem_of_getElem? hx) (decide_eq_true hfate)

theorem Books.begins (h : Books log events sending) (hempty : log.inbox j (log.call j) = []) :
    Books (log.apply (.begins j)) events sending where
  split := h.split
  results := h.results
  later := h.later
  outbox := h.outbox
  begun m x k call hx hfate := by
    have hold := h.begun m x k call hx hfate
    unfold Log.begunAt at hold ⊢
    change (match (log.results k)[call]? with
      | some result => result.begun
      | none => Function.update log.begun j log.gone k) ≤ m
    cases hr : (log.results k)[call]? with
    | some result =>
        rw [hr] at hold
        exact hold
    | none =>
        rw [hr] at hold
        by_cases hkj : k = j
        · -- the call is the one that begins, or a later one
          subst hkj
          exfalso
          rcases Nat.lt_or_eq_of_le (List.getElem?_eq_none_iff.mp hr) with hlt | heq
          · exact begunAt_of_inbox hx (h.later k call hlt) hfate
          · rw [← heq] at hfate
            exact begunAt_of_inbox hx hempty hfate
        · simp only [Function.update_of_ne hkj]
          exact hold
  begun_le k := by
    change Function.update log.begun j log.gone k ≤ log.gone
    by_cases hkj : k = j
    · rw [hkj, Function.update_self]
    · rw [Function.update_of_ne hkj]
      exact h.begun_le k

omit [DecidableEq ι] in
theorem begunAt_congr {log' : Log ι} (hresults : log'.results = log.results)
    (hbegun : log'.begun = log.begun) (j : ι) (k : Nat) : log'.begunAt j k = log.begunAt j k := by
  unfold Log.begunAt
  rw [hresults, hbegun]

omit [DecidableEq ι] in
theorem begunAt_now (log : Log ι) (j : ι) : log.begunAt j (log.call j) = log.begun j := by
  unfold Log.begunAt Log.call
  rw [List.getElem?_eq_none_iff.mpr (Nat.le_refl _)]

theorem inbox_append (log' : Log ι) {x : Entry ι} (hhistory : log'.history = log.history ++ [x])
    (j : ι) (k : Nat) : log'.inbox j k =
      log.inbox j k ++ if x.fate = .delivered j k then [x.event] else [] := by
  unfold Log.inbox
  rw [hhistory, List.filter_append, List.map_append]
  by_cases hx : x.fate = .delivered j k
  · simp [hx]
  · simp [hx]

omit [DecidableEq ι] in
theorem lt_call {k : Nat} {r : Result} (h : (log.results j)[k]? = some r) : k < log.call j :=
  (List.getElem?_eq_some_iff.mp h).1

-- An event is added behind the others.
theorem Books.append (h : Books log events sending) {log' : Log ι} {events' : List Event}
    {sending' : ι → List Event} (x : Entry ι) (hhistory : log'.history = log.history ++ [x])
    (hresults : log'.results = log.results) (hbegun : log'.begun = log.begun)
    (hfate : x.fate = .stored ∧ events' = events ++ [x.event] ∨
      events = [] ∧ events' = [] ∧ ∃ j, x.fate = .delivered j (log.call j))
    (houtbox : ∀ i, log.sent i ++ sending i ++ (if x.sender = i then [x.event] else []) =
      log'.sent i ++ sending' i) : Books log' events' sending' := by
  have hcall : ∀ j, log'.call j = log.call j := by
    intro j
    unfold Log.call
    rw [hresults]
  have hother : ∀ j k, k ≠ log.call j → log'.inbox j k = log.inbox j k := by
    intro j k hk
    rw [inbox_append log' hhistory, if_neg, List.append_nil]
    intro hx
    rcases hfate with ⟨hstored, _⟩ | ⟨_, _, j', hj'⟩
    · rw [hx] at hstored
      cases hstored
    · rw [hx] at hj'
      cases hj'
      exact hk rfl
  have hgone : log.gone ≤ log'.gone := by
    unfold Log.gone
    rw [hhistory, List.filter_append, List.length_append]
    exact Nat.le_add_right _ _
  obtain ⟨done, pending, hsplit, hevents⟩ := h.split
  refine ⟨?_, ?_, ?_, ?_, ?_, ?_⟩
  · rcases hfate with ⟨hstored, hnew⟩ | ⟨hnone, hnew, j, hj⟩
    · refine ⟨done, pending ++ [x], ⟨?_, hsplit.done, ?_⟩, ?_⟩
      · rw [hhistory, hsplit.eq, List.append_assoc]
      · intro y hy
        rcases List.mem_append.mp hy with hold | hlast
        · exact hsplit.pending y hold
        · rw [List.mem_singleton.mp hlast]
          exact hstored
      · rw [hnew, hevents, List.map_append]
        rfl
    · have hpending : pending = [] := by
        rw [hnone] at hevents
        exact List.map_eq_nil_iff.mp hevents.symm
      refine ⟨done ++ [x], [], ⟨?_, ?_, nofun⟩, hnew⟩
      · rw [hhistory, hsplit.eq, hpending, List.append_nil, List.append_nil]
      · intro y hy
        rcases List.mem_append.mp hy with hold | hlast
        · exact hsplit.done y hold
        · rw [List.mem_singleton.mp hlast, hj]
          nofun
  · intro j k r hr
    rw [hresults] at hr
    rw [hother j k (Nat.ne_of_lt (lt_call hr))]
    exact h.results j k r hr
  · intro j k hk
    rw [hcall] at hk
    rw [hother j k (Nat.ne_of_gt hk)]
    exact h.later j k hk
  · intro i
    rw [← houtbox i, ← h.outbox i]
    unfold Log.outbox
    rw [hhistory, List.filter_append, List.map_append]
    by_cases hx : x.sender = i
    · simp [hx]
    · simp [hx]
  · intro m y j k hy hdelivered
    rw [begunAt_congr hresults hbegun]
    rw [hhistory] at hy
    rcases Nat.lt_or_ge m log.history.length with hlt | hge
    · rw [List.getElem?_append_left hlt] at hy
      exact h.begun m y j k hy hdelivered
    · rw [List.getElem?_append_right hge] at hy
      have hm : y = x := by
        rw [List.getElem?_singleton] at hy
        split at hy
        · exact (Option.some.inj hy).symm
        · cases hy
      rcases hfate with ⟨hstored, _⟩ | ⟨_, _, j', hj'⟩
      · rw [hm, hstored] at hdelivered
        cases hdelivered
      · rw [hm, hj'] at hdelivered
        cases hdelivered
        rw [begunAt_now]
        exact Nat.le_trans (Nat.le_trans (h.begun_le _) (List.length_filter_le _ _)) hge
  · intro j
    rw [hbegun]
    exact Nat.le_trans (h.begun_le j) hgone

-- A receiver returns with what is in its inbox.
theorem Books.returned (h : Books log events sending) {received : Bool} {code : Code}
    {result : List Event} (hinbox : log.inbox j (log.call j) = result)
    (hfailed : code ≠ .ok → result = [])
    (hok : code = .ok → received = true → result.length = 1) :
    Books (log.returned j received code result) events sending := by
  have hnew : ∀ k, k ≠ j → (log.returned j received code result).results k = log.results k :=
    fun k hk => Function.update_of_ne hk _ _
  have hmine : (log.returned j received code result).results j =
      log.results j ++ [⟨log.begun j, received, code, result⟩] := Function.update_self _ _ _
  have hbegunAt : ∀ k call, (log.returned j received code result).begunAt k call =
      log.begunAt k call := by
    intro k call
    by_cases hkj : k = j
    · subst hkj
      unfold Log.begunAt
      rw [hmine]
      rcases Nat.lt_trichotomy call (log.results k).length with hlt | heq | hgt
      · rw [List.getElem?_append_left hlt]
        rfl
      · rw [heq, List.getElem?_concat_length, List.getElem?_eq_none_iff.mpr (Nat.le_refl _)]
      · rw [List.getElem?_eq_none_iff.mpr (by simp; omega),
          List.getElem?_eq_none_iff.mpr (Nat.le_of_lt hgt)]
        rfl
    · unfold Log.begunAt
      rw [hnew k hkj]
      rfl
  refine ⟨h.split, ?_, ?_, h.outbox, ?_, h.begun_le⟩
  · intro k call r hr
    by_cases hkj : k = j
    · subst hkj
      rw [hmine] at hr
      rcases Nat.lt_or_ge call (log.results k).length with hlt | hge
      · rw [List.getElem?_append_left hlt] at hr
        exact h.results k call r hr
      · rw [List.getElem?_append_right hge, List.getElem?_singleton] at hr
        split at hr
        · rename_i hzero
          cases hr
          have hcall : call = log.call k := by
            unfold Log.call
            omega
          rw [hcall]
          exact ⟨hinbox, hfailed, hok⟩
        · cases hr
    · rw [hnew k hkj] at hr
      exact h.results k call r hr
  · intro k call hk
    apply h.later k call
    refine Nat.lt_of_le_of_lt ?_ hk
    unfold Log.call
    by_cases hkj : k = j
    · rw [hkj, hmine, List.length_append]
      exact Nat.le_add_right _ _
    · rw [hnew k hkj]
  · intro m x k call hx hdelivered
    rw [hbegunAt]
    exact h.begun m x k call hx hdelivered

-- Events leave the queue from the front.
theorem Books.leave (h : Books log events sending) (log' : Log ι) {fate : Fate ι} {count : Nat}
    (hhistory : log'.history = EventQueue.leave fate count log.history)
    (hresults : log'.results = log.results) (hbegun : log'.begun = log.begun)
    (hsent : log'.sent = log.sent)
    (hfate : fate = .drained ∨ ∃ j, fate = .delivered j (log.call j)) :
    Books log' (events.drop count) sending ∧ ∀ j k, log'.inbox j k =
      log.inbox j k ++ if fate = .delivered j k then events.take count else [] := by
  obtain ⟨done, pending, hsplit, hevents⟩ := h.split
  have hstored : fate ≠ .stored := by
    rcases hfate with hdrained | ⟨j, hj⟩
    · rw [hdrained]
      nofun
    · rw [hj]
      nofun
  generalize hleft : (pending.take count).map (fun x => { x with fate := fate }) = left
  have hleft_fate : ∀ x ∈ left, x.fate = fate := by
    intro x hx
    rw [← hleft] at hx
    obtain ⟨y, _, hy⟩ := List.mem_map.mp hx
    rw [← hy]
  have hleft_event : left.map Entry.event = events.take count := by
    rw [← hleft, List.map_map, hevents, List.map_take]
    rfl
  have hpending : ∀ x ∈ pending.drop count, x.fate = .stored :=
    fun x hx => hsplit.pending x (List.mem_of_mem_drop hx)
  have hnew : log'.history = done ++ left ++ pending.drop count := by
    rw [hhistory, hsplit.eq, leave_done hsplit.done, leave_pending hsplit.pending, hleft,
      List.append_assoc]
  have hold : log.history = done ++ pending.take count ++ pending.drop count := by
    rw [hsplit.eq, List.append_assoc, List.take_append_drop]
  have hsplit' : Split log'.history (done ++ left) (pending.drop count) := by
    refine ⟨hnew, ?_, hpending⟩
    intro x hx
    rcases List.mem_append.mp hx with hin | hin
    · exact hsplit.done x hin
    · rw [hleft_fate x hin]
      exact hstored
  have hinbox : ∀ j k, log'.inbox j k =
      log.inbox j k ++ if fate = .delivered j k then events.take count else [] := by
    intro j k
    have hnone : ∀ l : List (Entry ι), (∀ x ∈ l, x.fate = .stored) →
        (l.filter fun x => x.fate = .delivered j k) = [] := by
      intro l hl
      rw [List.filter_eq_nil_iff]
      intro x hx
      simp [hl x hx]
    unfold Log.inbox
    rw [hnew, hsplit.eq, List.filter_append, List.filter_append, List.filter_append,
      hnone _ hpending, hnone _ hsplit.pending, List.append_nil, List.append_nil, List.map_append]
    congr 1
    by_cases hjk : fate = .delivered j k
    · rw [if_pos hjk, List.filter_eq_self.mpr, hleft_event]
      intro x hx
      exact decide_eq_true ((hleft_fate x hx).trans hjk)
    · rw [if_neg hjk, List.filter_eq_nil_iff.mpr, List.map_nil]
      intro x hx
      simpa [hleft_fate x hx] using hjk
  have hcall : ∀ j, log'.call j = log.call j := by
    intro j
    unfold Log.call
    rw [hresults]
  have hother : ∀ j k, k ≠ log.call j → log'.inbox j k = log.inbox j k := by
    intro j k hk
    rw [hinbox, if_neg, List.append_nil]
    intro heq
    rcases hfate with hdrained | ⟨j', hj'⟩
    · rw [heq] at hdrained
      cases hdrained
    · rw [heq] at hj'
      cases hj'
      exact hk rfl
  refine ⟨⟨?_, ?_, ?_, ?_, ?_, ?_⟩, hinbox⟩
  · refine ⟨done ++ left, pending.drop count, hsplit', ?_⟩
    rw [hevents, List.map_drop]
  · intro j k r hr
    rw [hresults] at hr
    rw [hother j k (Nat.ne_of_lt (lt_call hr))]
    exact h.results j k r hr
  · intro j k hk
    rw [hcall] at hk
    rw [hother j k (Nat.ne_of_gt hk)]
    exact h.later j k hk
  · intro i
    have hout : log'.outbox i = log.outbox i := by
      unfold Log.outbox
      rw [hnew, hold, ← hleft]
      simp only [List.filter_append, List.map_append, List.filter_map, List.map_map]
      rfl
    rw [hout, hsent]
    exact h.outbox i
  · intro m x j k hx hdelivered
    rw [begunAt_congr hresults hbegun]
    rw [hnew, List.append_assoc] at hx
    rcases Nat.lt_or_ge m done.length with hlt | hge
    · rw [List.getElem?_append_left hlt] at hx
      apply h.begun m x j k _ hdelivered
      rw [hsplit.eq, List.getElem?_append_left hlt]
      exact hx
    · rw [List.getElem?_append_right hge] at hx
      rcases List.mem_append.mp (List.mem_of_getElem? hx) with hin | hin
      · rw [hleft_fate x hin] at hdelivered
        rcases hfate with hdrained | ⟨j', hj'⟩
        · rw [hdelivered] at hdrained
          cases hdrained
        · rw [hdelivered] at hj'
          cases hj'
          rw [begunAt_now]
          exact Nat.le_trans (h.begun_le _) (hsplit.gone ▸ hge)
      · rw [hpending x hin] at hdelivered
        cases hdelivered
  · intro j
    rw [hbegun]
    refine Nat.le_trans (h.begun_le j) ?_
    rw [hsplit.gone, hsplit'.gone, List.length_append]
    exact Nat.le_add_right _ _

end Books

end Rpcsx.Lv2.EventQueue
