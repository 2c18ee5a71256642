import Rpcsx.Data.Interleaving
import Rpcsx.P2ps.Monitor

namespace Rpcsx.P2ps.Monitor

open Rpcsx.Data

-- The monitor with what is known of its rounds: in how many of them a message of a socket was late
-- since its last confirmation, which sockets have a late message in the last round that has begun,
-- and which of them it has closed or not found.
structure Watch where
  monitor : State
  rounds : Int → Nat
  late : Int → Bool
  ended : List Int

def Watch.start : Watch := ⟨State.start, fun _ => 0, fun _ => false, []⟩

-- A message of a socket is due.
def State.isLate (s : State) (now sockId : Int) : Bool :=
  s.msgs.entries.any fun entry => entry.1 ≤ now ∧ entry.2.sockId = sockId

namespace Watch

def observe (w : Watch) (monitor : State) : Action → Event → Watch
  | .beginRound now, _ =>
      let late := w.monitor.isLate now
      ⟨monitor, fun y => if late y then w.rounds y + 1 else w.rounds y, late, []⟩
  | .confirmDataReceived sockId _ _, _ =>
      { w with monitor := monitor, rounds := Function.update w.rounds sockId 0 }
  | _, .closed sockId => { w with monitor := monitor, ended := sockId :: w.ended }
  | _, .dropped msg => { w with monitor := monitor, ended := msg.sockId :: w.ended }
  | _, _ => { w with monitor := monitor }

end Watch

-- The message that the thread looks at next.
def State.looked (s : State) : Option Message :=
  match s.round with
  | some (.checking _ _ last) => (s.current last).map Prod.snd
  | _ => none

def Watch.Moves (action : Action) (w w' : Watch) : Prop :=
  ∃ monitor event, Monitor.step w.monitor action = some (monitor, event) ∧
    w' = w.observe monitor action event

def Watch.Step (w w' : Watch) : Prop := ∃ action, Watch.Moves action w w'

-- A late message is still ahead of the thread.
def State.Ahead (s : State) (sockId : Int) : Prop :=
  ∃ now rttIncreased last, s.round = some (.checking now rttIncreased last) ∧
    ∃ entry ∈ s.msgs.entries, entry.1 ≤ now ∧
      (last.all fun time => decide (time < entry.1)) = true ∧ entry.2.sockId = sockId

-- A socket in its tenth late round, or a later one, is closed in this round, or not found.
def GivesUp (w : Watch) : Prop :=
  ∀ sockId, w.late sockId = true → w.rounds sockId ≥ 10 →
    sockId ∈ w.ended ∨ w.monitor.Ahead sockId

-- The retries of a socket change by a confirmation for it or by a message of it.
def OwnRetries (s s' : State) (action : Action) : Prop :=
  ∀ sockId, (s'.rtts sockId).numRetries = (s.rtts sockId).numRetries ∨
    (∃ ack now, action = .confirmDataReceived sockId ack now) ∨
    ∃ sent msg, action = .check sent ∧ s.looked = some msg ∧ msg.sockId = sockId

-- The time of a late message is stored under its own socket.
def OwnKey (rttIncreased : List Int) (msg : Message) : Prop :=
  msg.sockId ∉ rttIncreased → toS32 msg.dstAddr = msg.sockId

-- The thread closes no stream while another socket waits for its end: it does not come back.
def OnlyOne (w : Watch) (rttIncreased : List Int) (msg : Message) (sent : Option Bool) : Prop :=
  sent ≠ none → (w.monitor.lateRtt rttIncreased msg).numRetries ≥ 10 ∨ sent = some false →
    ∀ other ≠ msg.sockId, w.late other = true → w.rounds other ≥ 10 → other ∈ w.ended

def Regular (w : Watch) : Action → Prop
  | .check sent => ∀ now rttIncreased last time msg,
      w.monitor.round = some (.checking now rttIncreased last) →
      w.monitor.current last = some (time, msg) →
        OwnKey rttIncreased msg ∧ OnlyOne w rttIncreased msg sent
  | _ => True

def Watch.RegularStep (w w' : Watch) : Prop := ∃ action, Regular w action ∧ Watch.Moves action w w'

-- The part of the invariant that a round keeps.
structure Checking (w : Watch) (now : Int) (rttIncreased : List Int) (last : Option Int) :
    Prop where
  late : ∀ entry ∈ w.monitor.msgs.entries, entry.1 ≤ now → w.late entry.2.sockId = true
  retries : ∀ sockId, w.rounds sockId = (w.monitor.rtts sockId).numRetries +
    if w.late sockId = true ∧ sockId ∉ rttIncreased then 1 else 0
  ahead : ∀ sockId, w.late sockId = true → sockId ∉ rttIncreased →
    ∃ entry ∈ w.monitor.msgs.entries, entry.1 ≤ now ∧
      (last.all fun time => decide (time < entry.1)) = true ∧ entry.2.sockId = sockId
  ended : ∀ sockId ∈ rttIncreased, w.rounds sockId ≥ 10 → sockId ∈ w.ended

structure Idle (w : Watch) : Prop where
  retries : ∀ sockId, w.rounds sockId = (w.monitor.rtts sockId).numRetries
  ended : ∀ sockId, w.late sockId = true → w.rounds sockId ≥ 10 → sockId ∈ w.ended

def Invariant (w : Watch) : Prop :=
  match w.monitor.round with
  | none => Idle w
  | some (.checking now rttIncreased last) => Checking w now rttIncreased last
  | some .stuck => ∀ sockId, w.late sockId = true → w.rounds sockId ≥ 10 → sockId ∈ w.ended

section Counts

variable {s : State}

theorem decreaseRtt_retries (sockId now : Int) (rtts : Int → RttInfo) (entry : Int × Message)
    (other : Int) :
    (State.decreaseRtt sockId now rtts entry other).numRetries = (rtts other).numRetries := by
  unfold State.decreaseRtt
  dsimp only
  split_ifs
  · by_cases hother : other = sockId
    · rw [hother, Function.update_self]
    · rw [Function.update_of_ne hother]
  · rfl
  · rfl

theorem confirm_retries (sockId : Int) (ack : Nat) (now other : Int) :
    ((s.confirmDataReceived sockId ack now).rtts other).numRetries =
      if other = sockId then 0 else (s.rtts other).numRetries := by
  have hfold (acked : List (Int × Message)) (rtts : Int → RttInfo) :
      (acked.foldl (State.decreaseRtt sockId now) rtts other).numRetries =
        (rtts other).numRetries := by
    induction acked generalizing rtts with
    | nil => rfl
    | cons entry acked ih => rw [List.foldl_cons, ih, decreaseRtt_retries]
  rw [State.confirmDataReceived]
  dsimp only
  rw [hfold]
  split_ifs with hother
  · rw [hother, Function.update_self]
  · rw [Function.update_of_ne hother]

theorem lateRtt_retries (rttIncreased : List Int) (msg : Message) :
    (s.lateRtt rttIncreased msg).numRetries =
      (s.rtts msg.sockId).numRetries + if msg.sockId ∈ rttIncreased then 0 else 1 := by
  unfold State.lateRtt
  dsimp only
  split_ifs <;> rfl

-- A message is counted once in a round, for its own socket.
theorem check_retries {rttIncreased : List Int} {msg : Message} (hkey : OwnKey rttIncreased msg)
    (now time : Int) (sent : Option Bool) (other : Int) :
    ((s.checkMessage now rttIncreased time msg sent).1.rtts other).numRetries =
      (s.rtts other).numRetries + if other = msg.sockId ∧ other ∉ rttIncreased then 1 else 0 := by
  have hrtts : (s.checkMessage now rttIncreased time msg sent).1.rtts =
      if msg.sockId ∈ rttIncreased then s.rtts
      else Function.update s.rtts (toS32 msg.dstAddr) (s.lateRtt rttIncreased msg) := by
    unfold State.checkMessage
    cases sent with
    | none => rfl
    | some sent =>
        dsimp only
        split <;> rfl
  rw [hrtts]
  by_cases hin : msg.sockId ∈ rttIncreased
  · rw [if_pos hin, if_neg]
    · rfl
    · rintro ⟨rfl, hnot⟩
      exact hnot hin
  · rw [if_neg hin, hkey hin]
    by_cases hother : other = msg.sockId
    · rw [hother, Function.update_self, if_pos ⟨rfl, hin⟩, lateRtt_retries, if_neg hin]
    · rw [Function.update_of_ne hother, if_neg fun h => hother h.1]
      rfl

end Counts

section Rounds

variable {w : Watch} {now : Int} {rttIncreased : List Int} {last : Option Int} {time : Int}
  {msg : Message}

theorem current_mem' (h : w.monitor.current last = some (time, msg)) :
    (time, msg) ∈ w.monitor.msgs.entries ∧ (last.all fun t => decide (t < time)) = true :=
  ⟨List.mem_of_find?_eq_some h, (List.find?_eq_some_iff_append.mp h).1⟩

-- The thread looks at the messages in the order of their times.
theorem current_least (h : w.monitor.current last = some (time, msg)) {entry : Int × Message}
    (hmem : entry ∈ w.monitor.msgs.entries)
    (hahead : (last.all fun t => decide (t < entry.1)) = true) (hne : entry ≠ (time, msg)) :
    time < entry.1 := by
  obtain ⟨hpred, before, after, hsplit, hbefore⟩ := List.find?_eq_some_iff_append.mp h
  have hsorted := w.monitor.msgs.sorted
  rw [hsplit] at hmem hsorted
  rcases List.mem_append.mp hmem with hin | hin
  · have := hbefore entry hin
    rw [hahead] at this
    cases this
  · rcases List.mem_cons.mp hin with rfl | hin
    · exact absurd rfl hne
    · exact (List.pairwise_cons.mp (List.pairwise_append.mp hsorted).2.1).1 entry hin

variable (h : Checking w now rttIncreased last)
  (hcurrent : w.monitor.current last = some (time, msg)) (hdue : time ≤ now)

include h hcurrent hdue

-- What the thread reads of a late message is the number of the rounds of its socket.
theorem Checking.lateRtt :
    (w.monitor.lateRtt rttIncreased msg).numRetries = w.rounds msg.sockId := by
  have hlate := h.late _ (current_mem' hcurrent).1 hdue
  rw [lateRtt_retries, h.retries, hlate]
  by_cases hin : msg.sockId ∈ rttIncreased
  · rw [if_pos hin, if_neg fun hnot => hnot.2 hin]
  · rw [if_neg hin, if_pos ⟨rfl, hin⟩]

-- The messages behind a look at one: it may have moved to a later time, the others have stayed.
theorem Checking.next {w' : Watch} (hkey : OwnKey rttIncreased msg) {sent : Option Bool}
    (hrtts : w'.monitor.rtts = (w.monitor.checkMessage now rttIncreased time msg sent).1.rtts)
    (hrounds : w'.rounds = w.rounds) (hlate : w'.late = w.late)
    (hended : ∀ sockId ∈ w.ended, sockId ∈ w'.ended)
    (hself : w.rounds msg.sockId ≥ 10 → msg.sockId ∈ w'.ended)
    (hold : ∀ entry ∈ w'.monitor.msgs.entries, entry ∈ w.monitor.msgs.entries ∨ entry.2 = msg)
    (hkept : ∀ entry ∈ w.monitor.msgs.entries, entry.1 ≠ time →
      entry ∈ w'.monitor.msgs.entries) :
    Checking w' now
      (if msg.sockId ∈ rttIncreased then rttIncreased else msg.sockId :: rttIncreased)
      (some time) := by
  have hmsg := h.late _ (current_mem' hcurrent).1 hdue
  have hmem (other : Int) : other ∈ (if msg.sockId ∈ rttIncreased then rttIncreased
      else msg.sockId :: rttIncreased) ↔ other = msg.sockId ∨ other ∈ rttIncreased := by
    split_ifs with hin
    · constructor
      · exact .inr
      · rintro (rfl | hother)
        · exact hin
        · exact hother
    · exact List.mem_cons
  refine ⟨?_, ?_, ?_, ?_⟩
  · intro entry hentry hle
    rw [hlate]
    rcases hold entry hentry with hin | heq
    · exact h.late entry hin hle
    · rw [heq]
      exact hmsg
  · intro other
    rw [hrounds, hlate, hrtts, check_retries hkey, h.retries other]
    simp only [hmem]
    by_cases hother : other = msg.sockId
    · subst hother
      by_cases hin : msg.sockId ∈ rttIncreased <;> simp [hin, hmsg]
    · simp [hother]
  · intro other hother hnot
    rw [hmem, not_or] at hnot
    rw [hlate] at hother
    obtain ⟨entry, hentry, hle, hahead, heq⟩ := h.ahead other hother hnot.2
    have hlt : time < entry.1 := by
      apply current_least hcurrent hentry hahead
      rintro rfl
      exact hnot.1 heq.symm
    exact ⟨entry, hkept entry hentry hlt.ne', hle, by simpa using hlt, heq⟩
  · intro other hother hmany
    rw [hrounds] at hmany
    rcases (hmem other).mp hother with rfl | hin
    · exact hself hmany
    · exact hended other (h.ended other hin hmany)

theorem Checking.check (hkey : OwnKey rttIncreased msg) {sent : Option Bool}
    (hone : OnlyOne w rttIncreased msg sent) :
    Invariant (w.observe (w.monitor.checkMessage now rttIncreased time msg sent).1 (.check sent)
      (w.monitor.checkMessage now rttIncreased time msg sent).2) := by
  have hcount := h.lateRtt hcurrent hdue
  have herase {entry : Int × Message} (hin : entry ∈ (w.monitor.msgs.erase time).entries) :
      entry ∈ w.monitor.msgs.entries := (List.mem_filter.mp hin).1
  cases sent with
  | none =>
      refine h.next hcurrent hdue hkey rfl rfl rfl ?_ ?_ ?_ ?_
      · exact fun sockId hin => List.mem_cons_of_mem _ hin
      · exact fun _ => List.mem_cons_self
      · exact fun entry hin => .inl (herase hin)
      · intro entry hin hne
        exact List.mem_filter.mpr ⟨hin, decide_eq_true hne⟩
  | some sent =>
      by_cases hclose : (w.monitor.lateRtt rttIncreased msg).numRetries ≥ 10 ∨ sent = false
      · have hresult : w.monitor.checkMessage now rttIncreased time msg (some sent) =
            ({ w.monitor with
                rtts := (w.monitor.checkMessage now rttIncreased time msg (some sent)).1.rtts
                round := some .stuck }, .closed msg.sockId) := by
          simp only [State.checkMessage, if_pos hclose]
        rw [hresult]
        intro other hother hmany
        by_cases hself : other = msg.sockId
        · rw [hself]
          exact List.mem_cons_self
        · refine List.mem_cons_of_mem _ (hone nofun ?_ other hself hother hmany)
          rcases hclose with hten | hfailed
          · exact .inl hten
          · exact .inr (congrArg some hfailed)
      · have hresult : w.monitor.checkMessage now rttIncreased time msg (some sent) =
            (⟨(w.monitor.msgs.emplace (now + nanoseconds
                (w.monitor.lateRtt rttIncreased msg).rttTime) msg).1.erase time,
              (w.monitor.checkMessage now rttIncreased time msg (some sent)).1.rtts,
              some (.checking now (if msg.sockId ∈ rttIncreased then rttIncreased
                else msg.sockId :: rttIncreased) (some time))⟩, .none) := by
          simp only [State.checkMessage, if_neg hclose]
        rw [hresult]
        refine h.next hcurrent hdue hkey rfl rfl rfl ?_ ?_ ?_ ?_
        · exact fun _ hin => hin
        · intro hmany
          exact absurd (.inl (hcount ▸ hmany)) hclose
        · intro entry hin
          rcases OrderedMap.mem_emplace (List.mem_filter.mp hin).1 with hold | rfl
          · exact .inl hold
          · exact .inr rfl
        · intro entry hin hne
          exact List.mem_filter.mpr ⟨OrderedMap.mem_emplace_of_mem hin _ _, decide_eq_true hne⟩

end Rounds

section Run

variable {w w' : Watch}

theorem Invariant.start : Invariant Watch.start := ⟨fun _ => rfl, nofun⟩

theorem isLate_iff {s : State} {now sockId : Int} : s.isLate now sockId = true ↔
    ∃ entry ∈ s.msgs.entries, entry.1 ≤ now ∧ entry.2.sockId = sockId := by
  simp only [State.isLate, List.any_eq_true, decide_eq_true_eq]

theorem Idle.begin {w : Watch} (h : Idle w) (now : Int) :
    Invariant (w.observe { w.monitor with round := some (.checking now [] none) }
      (.beginRound now) .none) := by
  refine ⟨?_, ?_, ?_, nofun⟩
  · intro entry hentry hle
    exact isLate_iff.mpr ⟨entry, hentry, hle, rfl⟩
  · intro sockId
    change (if w.monitor.isLate now sockId = true then w.rounds sockId + 1 else w.rounds sockId) =
      (w.monitor.rtts sockId).numRetries +
        if w.monitor.isLate now sockId = true ∧ sockId ∉ [] then 1 else 0
    rw [← h.retries sockId]
    cases w.monitor.isLate now sockId with
    | true => simp
    | false => simp
  · intro sockId hlate _
    obtain ⟨entry, hentry, hle, heq⟩ := isLate_iff.mp hlate
    exact ⟨entry, hentry, hle, rfl, heq⟩

theorem Checking.finish {now : Int} {rttIncreased : List Int} {last : Option Int}
    (h : Checking w now rttIncreased last)
    (hover : ((w.monitor.current last).all fun entry => decide (entry.1 > now)) = true) :
    Invariant (w.observe { w.monitor with round := none } .endRound .none) := by
  -- no message that is due is ahead, so every late socket has been looked at
  have hlooked : ∀ sockId, w.late sockId = true → sockId ∈ rttIncreased := by
    intro sockId hlate
    by_contra hnot
    obtain ⟨entry, hentry, hle, hahead, -⟩ := h.ahead sockId hlate hnot
    cases hcurrent : w.monitor.current last with
    | none =>
        have hnone := List.find?_eq_none.mp hcurrent entry hentry
        exact hnone hahead
    | some first =>
        rw [hcurrent, Option.all_some, decide_eq_true_eq] at hover
        by_cases hfirst : entry = first
        · rw [hfirst] at hle
          omega
        · have hfound : w.monitor.current last = some (first.1, first.2) := hcurrent
          have hlt := current_least hfound hentry hahead hfirst
          omega
  refine ⟨?_, ?_⟩
  · intro sockId
    have hretries := h.retries sockId
    rw [if_neg fun hboth => hboth.2 (hlooked sockId hboth.1)] at hretries
    exact hretries
  · exact fun sockId hlate hmany => h.ended sockId (hlooked sockId hlate) hmany

theorem Invariant.moves (h : Invariant w) {action : Action} (hregular : Regular w action)
    (hmove : Watch.Moves action w w') : Invariant w' := by
  obtain ⟨monitor, event, hstep, rfl⟩ := hmove
  unfold Invariant at h
  cases action with
  | addMessage sockId dstAddr dstPort data seq now =>
      cases hround : w.monitor.round with
      | some round => simp [step, hround] at hstep
      | none =>
          simp only [step, hround] at h hstep
          cases hstep
          simp only [Invariant, Watch.observe, State.addMessage, hround]
          exact ⟨h.retries, h.ended⟩
  | confirmDataReceived sockId ack now =>
      cases hround : w.monitor.round with
      | some round => simp [step, hround] at hstep
      | none =>
          simp only [step, hround] at h hstep
          cases hstep
          have hidle : (w.monitor.confirmDataReceived sockId ack now).round = none := hround
          simp only [Invariant, Watch.observe, hidle]
          refine ⟨?_, ?_⟩
          · intro other
            change Function.update w.rounds sockId 0 other = _
            rw [confirm_retries]
            by_cases hother : other = sockId
            · rw [hother, Function.update_self, if_pos rfl]
            · rw [Function.update_of_ne hother, if_neg hother, h.retries]
          · intro other hlate hmany
            change Function.update w.rounds sockId 0 other ≥ 10 at hmany
            by_cases hother : other = sockId
            · rw [hother, Function.update_self] at hmany
              omega
            · rw [Function.update_of_ne hother] at hmany
              exact h.ended other hlate hmany
  | clearAllMessages sockId =>
      cases hround : w.monitor.round with
      | some round => simp [step, hround] at hstep
      | none =>
          simp only [step, hround] at h hstep
          cases hstep
          simp only [Invariant, Watch.observe, State.clearAllMessages, hround]
          exact ⟨h.retries, h.ended⟩
  | beginRound now =>
      cases hround : w.monitor.round with
      | some round => simp [step, hround] at hstep
      | none =>
          simp only [step, hround] at h hstep
          cases hstep
          exact Idle.begin h now
  | check sent =>
      cases hround : w.monitor.round with
      | none => simp [step, hround] at hstep
      | some round =>
          cases round with
          | stuck => simp [step, hround] at hstep
          | checking now rttIncreased last =>
              simp only [step, hround] at h hstep
              cases hcurrent : w.monitor.current last with
              | none => simp [hcurrent] at hstep
              | some entry =>
                  obtain ⟨time, msg⟩ := entry
                  obtain ⟨hkey, hone⟩ := hregular now rttIncreased last time msg hround hcurrent
                  simp only [hcurrent] at hstep
                  split_ifs at hstep with hdue
                  have hcheck := Checking.check h hcurrent (not_lt.mp hdue) hkey hone
                  rwa [Option.some.inj hstep] at hcheck
  | endRound =>
      cases hround : w.monitor.round with
      | none => simp [step, hround] at hstep
      | some round =>
          cases round with
          | stuck => simp [step, hround] at hstep
          | checking now rttIncreased last =>
              simp only [step, hround] at h hstep
              split_ifs at hstep with hover
              cases hstep
              exact Checking.finish h hover

theorem Invariant.givesUp (h : Invariant w) : GivesUp w := by
  intro sockId hlate hmany
  unfold Invariant at h
  cases hround : w.monitor.round with
  | none =>
      simp only [hround] at h
      exact .inl (h.ended sockId hlate hmany)
  | some round =>
      simp only [hround] at h
      cases round with
      | stuck => exact .inl (h sockId hlate hmany)
      | checking now rttIncreased last =>
          by_cases hin : sockId ∈ rttIncreased
          · exact .inl (h.ended sockId hin hmany)
          · exact .inr ⟨now, rttIncreased, last, hround, h.ahead sockId hlate hin⟩

theorem observe_monitor (w : Watch) (monitor : State) (action : Action) (event : Event) :
    (w.observe monitor action event).monitor = monitor := by
  cases action <;> cases event <;> rfl

theorem Regular.ownRetries {action : Action} (hregular : Regular w action)
    (hmove : Watch.Moves action w w') : OwnRetries w.monitor w'.monitor action := by
  obtain ⟨monitor, event, hstep, rfl⟩ := hmove
  rw [observe_monitor]
  intro other
  cases action with
  | addMessage sockId dstAddr dstPort data seq now =>
      simp only [step] at hstep
      split at hstep
      · cases hstep
        exact .inl rfl
      · cases hstep
  | confirmDataReceived sockId ack now =>
      simp only [step] at hstep
      split at hstep
      · cases hstep
        by_cases hother : other = sockId
        · exact .inr (.inl ⟨ack, now, by rw [hother]⟩)
        · exact .inl (by rw [confirm_retries, if_neg hother])
      · cases hstep
  | clearAllMessages sockId =>
      simp only [step] at hstep
      split at hstep
      · cases hstep
        exact .inl rfl
      · cases hstep
  | beginRound now =>
      simp only [step] at hstep
      split at hstep
      · cases hstep
        exact .inl rfl
      · cases hstep
  | check sent =>
      cases hround : w.monitor.round with
      | none => simp [step, hround] at hstep
      | some round =>
          cases round with
          | stuck => simp [step, hround] at hstep
          | checking now rttIncreased last =>
              cases hcurrent : w.monitor.current last with
              | none => simp [step, hround, hcurrent] at hstep
              | some entry =>
                  obtain ⟨time, msg⟩ := entry
                  obtain ⟨hkey, -⟩ := hregular now rttIncreased last time msg hround hcurrent
                  simp only [step, hround, hcurrent] at hstep
                  split_ifs at hstep with hdue
                  have hretries := check_retries (s := w.monitor) hkey now time sent other
                  rw [Option.some.inj hstep] at hretries
                  by_cases hother : other = msg.sockId
                  · refine .inr (.inr ⟨sent, msg, rfl, ?_, hother.symm⟩)
                    simp only [State.looked, hround, hcurrent, Option.map_some]
                  · rw [if_neg fun hboth => hother hboth.1] at hretries
                    exact .inl hretries
  | endRound =>
      simp only [step] at hstep
      split at hstep
      · split at hstep
        · cases hstep
          exact .inl rfl
        · cases hstep
      · cases hstep

end Run

-- In a regular run every socket is given up in its tenth late round, and its retries are its own.
theorem gives_up {w w' : Watch} (hrun : Relation.ReflTransGen Watch.RegularStep Watch.start w)
    {action : Action} (hregular : Regular w action) (hmove : Watch.Moves action w w') :
    GivesUp w' ∧ OwnRetries w.monitor w'.monitor action := by
  have hinv : Invariant w := by
    apply Interleaving.invariant_of_reachable Invariant.start _ hrun
    rintro v v' hv ⟨action, hregular, hmove⟩
    exact hv.moves hregular hmove
  exact ⟨(hinv.moves hregular hmove).givesUp, hregular.ownRetries hmove⟩

-- A packet of one socket that is never acknowledged, and ten rounds in which it is late.
def unanswered (dstAddr : Nat) : List Action :=
  .addMessage 1 dstAddr 3658 [] 10 0 :: (List.range 10).flatMap fun round =>
    [.beginRound (100000000 * (round + 1)), .check (some true), .endRound]

def Watch.play (w : Watch) (action : Action) : Option Watch :=
  (Monitor.step w.monitor action).map fun result => w.observe result.1 action result.2

theorem Watch.play_moves {w w' : Watch} {action : Action} (h : w.play action = some w') :
    Watch.Moves action w w' := by
  obtain ⟨⟨monitor, event⟩, hstep, rfl⟩ := Option.map_eq_some_iff.mp h
  exact ⟨monitor, event, hstep, rfl⟩

-- A packet whose address is the number of its socket.
def ownAddress : Message := ⟨1, 1, 3658, [], 10, 0⟩

theorem gives_up_first : ∃ w w', Watch.Moves (.check (some true)) w w' ∧ w'.rounds 1 = 1 ∧
    GivesUp w' ∧ OwnRetries w.monitor w'.monitor (.check (some true)) := by
  obtain ⟨w, w', hrun, hcheck, hround, hcurrent, hretries, hrounds⟩ : ∃ w w',
      [.addMessage 1 1 3658 [] 10 0, .beginRound 60000000].foldlM Watch.play Watch.start = some w ∧
      w.play (.check (some true)) = some w' ∧
      w.monitor.round = some (.checking 60000000 [] none) ∧
      w.monitor.current none = some (50000000, ownAddress) ∧
      (w.monitor.lateRtt [] ownAddress).numRetries = 1 ∧ w'.rounds 1 = 1 :=
    ⟨_, _, rfl, rfl, rfl, rfl, rfl, rfl⟩
  have hregular : Regular w (.check (some true)) := by
    intro now rttIncreased last time msg hchecking hfound
    rw [hround] at hchecking
    cases hchecking
    rw [hcurrent] at hfound
    cases hfound
    refine ⟨fun _ => rfl, fun _ hclose => ?_⟩
    rw [hretries] at hclose
    rcases hclose with hten | hfailed
    · omega
    · cases hfailed
  have hsteps : Relation.ReflTransGen Watch.RegularStep Watch.start w := by
    rw [List.foldlM_cons, Option.bind_eq_bind, Option.bind_eq_some_iff] at hrun
    obtain ⟨v, hadd, hrun⟩ := hrun
    rw [List.foldlM_cons, Option.bind_eq_bind, Option.bind_eq_some_iff] at hrun
    obtain ⟨w, hbegin, hrun⟩ := hrun
    cases hrun
    have hfirst : Regular Watch.start (.addMessage 1 1 3658 [] 10 0) := trivial
    have hsecond : Regular v (.beginRound 60000000) := trivial
    exact .tail (.single ⟨_, hfirst, Watch.play_moves hadd⟩)
      ⟨_, hsecond, Watch.play_moves hbegin⟩
  have hmove := Watch.play_moves hcheck
  exact ⟨w, w', hmove, hrounds, gives_up hsteps hregular hmove⟩

theorem tenth_round_goes_on : ¬∀ w, Relation.ReflTransGen Watch.Step Watch.start w → GivesUp w := by
  intro hclaim
  obtain ⟨w, hrun, hround, hlate, hrounds, hended⟩ :
      ∃ w, (unanswered 0x0100007f).foldlM Watch.play Watch.start = some w ∧
        w.monitor.round = none ∧ w.late 1 = true ∧ w.rounds 1 = 10 ∧ w.ended = [] :=
    ⟨_, rfl, rfl, rfl, rfl, rfl⟩
  have hreach : Relation.ReflTransGen Watch.Step Watch.start w :=
    Interleaving.reachable_of_foldlM (fun _ action _ h => ⟨action, Watch.play_moves h⟩) hrun
  rcases hclaim w hreach 1 hlate hrounds.ge with hin | ⟨now, rttIncreased, last, hchecking, -⟩
  · rw [hended] at hin
    cases hin
  · rw [hround] at hchecking
    cases hchecking

end Rpcsx.P2ps.Monitor
