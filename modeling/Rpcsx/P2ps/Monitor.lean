import Mathlib.Data.Int.Order.Basic
import Mathlib.Logic.Function.Basic
import Rpcsx.Data.OrderedMap
import Mathlib.Data.List.Perm.Subperm
import Rpcsx.Data.Interleaving

namespace Rpcsx.P2ps.Monitor

open Rpcsx.Data

-- A packet that waits for its acknowledgement. Times are in nanoseconds.
structure Message where
  sockId : Int
  dstAddr : Nat
  dstPort : Nat
  data : List UInt8
  seq : Nat
  initialSendtime : Int
deriving DecidableEq

-- The round trip time is in milliseconds.
structure RttInfo where
  numRetries : Nat
  rttTime : Int
deriving DecidableEq

def RttInfo.start : RttInfo := ⟨0, 50⟩

def nanoseconds (milliseconds : Int) : Int := milliseconds * 1000000

-- duration_cast to milliseconds.
def milliseconds (duration : Int) : Int := duration.tdiv 1000000

-- The address of a message where a socket id is expected.
def toS32 (addr : Nat) : Int := if addr < 2 ^ 31 then addr else (addr : Int) - 2 ^ 32

-- A round of the thread, with the clock it has read, the sockets whose time it has increased and
-- the wake-up time of the last message it has looked at. The thread locks data_mutex a second
-- time, and is stuck, when it closes a stream.
inductive Round where
  | checking (now : Int) (rttIncreased : List Int) (last : Option Int)
  | stuck

-- tcp_timeout_monitor.
structure State where
  msgs : OrderedMap Int Message
  rtts : Int → RttInfo
  round : Option Round

def State.start : State := ⟨.empty, fun _ => .start, none⟩

-- What happens to the messages, as the callers and the peers see it.
inductive Event where
  | added (msg : Message)
  | acked (sockId : Int) (ack : Nat)
  | cleared (sockId : Int)
  -- the stream is closed by the thread itself
  | closed (sockId : Int)
  -- the socket of a message that is sent again does not exist
  | dropped (msg : Message)
  | none

inductive Action where
  | addMessage (sockId : Int) (dstAddr dstPort : Nat) (data : List UInt8) (seq : Nat) (now : Int)
  | confirmDataReceived (sockId : Int) (ack : Nat) (now : Int)
  | clearAllMessages (sockId : Int)
  | beginRound (now : Int)
  -- the next message of a round; none if its socket does not exist, else whether it could be sent
  | check (sent : Option Bool)
  | endRound

namespace State

def addMessage (s : State) (msg : Message) : State :=
  { s with msgs :=
      (s.msgs.emplace (msg.initialSendtime + nanoseconds (s.rtts msg.sockId).rttTime) msg).1 }

def isAcked (sockId : Int) (ack : Nat) (msg : Message) : Bool := msg.sockId = sockId ∧ msg.seq < ack

-- Decreases the time of the socket if a message is early.
def decreaseRtt (sockId now : Int) (rtts : Int → RttInfo) (entry : Int × Message) : Int → RttInfo :=
  if now < entry.1 then
    let actualRtt := milliseconds (now - entry.2.initialSendtime)
    let rtt := rtts sockId
    if rtt.rttTime > actualRtt then
      Function.update rtts sockId { rtt with rttTime := (actualRtt + rtt.rttTime).tdiv 2 }
    else rtts
  else rtts

-- The messages that are kept, in the order of their times.
def keep (s : State) (kept : Message → Bool) : OrderedMap Int Message :=
  ⟨s.msgs.entries.filter fun entry => kept entry.2, s.msgs.sorted.filter _⟩

def confirmDataReceived (s : State) (sockId : Int) (ack : Nat) (now : Int) : State :=
  let rtts := Function.update s.rtts sockId { s.rtts sockId with numRetries := 0 }
  let acked := s.msgs.entries.filter fun entry => isAcked sockId ack entry.2
  { s with
    msgs := s.keep fun msg => !isAcked sockId ack msg
    rtts := acked.foldl (decreaseRtt sockId now) rtts }

def clearAllMessages (s : State) (sockId : Int) : State :=
  { s with msgs := s.keep fun msg => decide (msg.sockId ≠ sockId) }

-- The message that the iterator of a round stands at.
def current (s : State) (last : Option Int) : Option (Int × Message) :=
  s.msgs.entries.find? fun entry => last.all fun time => decide (time < entry.1)

-- The time of a message that is late, increased once in a round for each socket.
def lateRtt (s : State) (rttIncreased : List Int) (msg : Message) : RttInfo :=
  let rtt := s.rtts msg.sockId
  if msg.sockId ∈ rttIncreased then rtt
  else ⟨rtt.numRetries + 1, rtt.rttTime + rtt.rttTime.tdiv 10⟩

-- The body of the loop for one message.
def checkMessage (s : State) (now : Int) (rttIncreased : List Int) (time : Int) (msg : Message)
    (sent : Option Bool) : State × Event :=
  let rtt := s.lateRtt rttIncreased msg
  let s := { s with
    -- the time is stored under the address of the message
    rtts := if msg.sockId ∈ rttIncreased then s.rtts
      else Function.update s.rtts (toS32 msg.dstAddr) rtt
    round := some (.checking now
      (if msg.sockId ∈ rttIncreased then rttIncreased else msg.sockId :: rttIncreased)
      (some time)) }
  match sent with
  | none => ({ s with msgs := s.msgs.erase time }, .dropped msg)
  | some sent =>
      if rtt.numRetries ≥ 10 ∨ sent = false then ({ s with round := some .stuck }, .closed msg.sockId)
      else
        ({ s with msgs :=
            (s.msgs.emplace (now + nanoseconds rtt.rttTime) msg).1.erase time }, .none)

end State

-- One step of the callers or of the thread. All but the end of a round take data_mutex.
def step (s : State) : Action → Option (State × Event)
  | .addMessage sockId dstAddr dstPort data seq now =>
      match s.round with
      | none =>
          let msg := ⟨sockId, dstAddr, dstPort, data, seq, now⟩
          some (s.addMessage msg, .added msg)
      | some _ => none
  | .confirmDataReceived sockId ack now =>
      match s.round with
      | none => some (s.confirmDataReceived sockId ack now, .acked sockId ack)
      | some _ => none
  | .clearAllMessages sockId =>
      match s.round with
      | none => some (s.clearAllMessages sockId, .cleared sockId)
      | some _ => none
  | .beginRound now =>
      match s.round with
      | none => some ({ s with round := some (.checking now [] none) }, .none)
      | some _ => none
  | .check sent =>
      match s.round with
      | some (.checking now rttIncreased last) =>
          match s.current last with
          | some (time, msg) =>
              if time > now then none
              else some (s.checkMessage now rttIncreased time msg sent)
          | none => none
      | _ => none
  | .endRound =>
      match s.round with
      | some (.checking now _ last) =>
          if (s.current last).all fun entry => decide (entry.1 > now) then
            some ({ s with round := none }, .none)
          else none
      | _ => none

end Rpcsx.P2ps.Monitor

namespace Rpcsx.P2ps.Monitor

open Rpcsx.Data

-- The messages that have to be kept after an event.
def discharge (owed : List Message) : Event → List Message
  | .added msg => msg :: owed
  | .acked sockId ack => owed.filter fun msg => !State.isAcked sockId ack msg
  | .cleared sockId => owed.filter fun msg => decide (msg.sockId ≠ sockId)
  | .closed sockId => owed.filter fun msg => decide (msg.sockId ≠ sockId)
  | .dropped msg => owed.erase msg
  | .none => owed

-- The monitor and the messages that it owes to its callers.
structure Run where
  monitor : State
  owed : List Message

def Run.start : Run := ⟨State.start, []⟩

def State.values (s : State) : List Message := s.msgs.entries.map Prod.snd

def Moves (action : Action) (r r' : Run) : Prop :=
  ∃ event, step r.monitor action = some (r'.monitor, event) ∧ r'.owed = discharge r.owed event

def Step (r r' : Run) : Prop := ∃ action, Moves action r r'

-- No other message waits for the same time.
def Unused (s : State) (time : Int) : Prop := ∀ entry ∈ s.msgs.entries, entry.1 ≠ time

-- The wake-up time that a step gives to a message is not in use.
def Fresh (s : State) : Action → Prop
  | .addMessage sockId _ _ _ _ now => Unused s (now + nanoseconds (s.rtts sockId).rttTime)
  | .check _ => ∀ now rttIncreased last time msg, s.round = some (.checking now rttIncreased last) →
      s.current last = some (time, msg) →
      Unused s (now + nanoseconds (s.lateRtt rttIncreased msg).rttTime)
  | _ => True

def FreshStep (r r' : Run) : Prop := ∃ action, Fresh r.monitor action ∧ Moves action r r'

section Map

variable {m : OrderedMap Int Message} {key time : Int} {msg : Message}

theorem erase_perm (h : (time, msg) ∈ m.entries) :
    m.entries.Perm ((time, msg) :: (m.erase time).entries) := by
  obtain ⟨before, after, hsplit⟩ := List.append_of_mem h
  rw [OrderedMap.erase_at hsplit, hsplit]
  exact List.perm_middle

end Map

section Steps

variable {s : State}

theorem values_keep (kept : Message → Bool) :
    (s.keep kept).entries.map Prod.snd = s.values.filter kept := by
  unfold State.keep State.values
  rw [List.filter_map]
  rfl

theorem values_erase {time : Int} {msg : Message} (h : (time, msg) ∈ s.msgs.entries) :
    s.values.erase msg |>.Subperm ((s.msgs.erase time).entries.map Prod.snd) := by
  have hperm := (erase_perm h).map Prod.snd
  have herase := hperm.erase msg
  rw [List.map_cons, List.erase_cons_head] at herase
  exact herase.subperm

-- A message that moves to an unused time is still there.
theorem values_move {time time' : Int} {msg : Message} (h : (time, msg) ∈ s.msgs.entries)
    (hunused : Unused s time') :
    ((s.msgs.emplace time' msg).1.erase time).entries.map Prod.snd |>.Perm s.values := by
  have hemplace := OrderedMap.emplace_perm hunused msg
  have hmem : (time, msg) ∈ (s.msgs.emplace time' msg).1.entries :=
    hemplace.mem_iff.mpr (List.mem_cons_of_mem _ h)
  have hboth := (((erase_perm hmem).symm.trans hemplace).map Prod.snd)
  rw [List.map_cons, List.map_cons] at hboth
  exact (List.perm_cons msg).mp hboth

theorem current_mem {last : Option Int} {entry : Int × Message} (h : s.current last = some entry) :
    entry ∈ s.msgs.entries :=
  List.mem_of_find?_eq_some h

theorem checkMessage_keeps {owed : List Message} (h : owed.Subperm s.values) {now time : Int}
    {rttIncreased : List Int} {msg : Message} (hmem : (time, msg) ∈ s.msgs.entries)
    (hunused : Unused s (now + nanoseconds (s.lateRtt rttIncreased msg).rttTime))
    (sent : Option Bool) :
    (discharge owed (s.checkMessage now rttIncreased time msg sent).2).Subperm
      (s.checkMessage now rttIncreased time msg sent).1.values := by
  unfold State.checkMessage
  cases sent with
  | none => exact (h.erase msg).trans (values_erase hmem)
  | some sent =>
      dsimp only
      split
      · exact (List.filter_sublist.subperm).trans h
      · exact h.trans (values_move hmem hunused).symm.subperm

theorem step_keeps {s' : State} {action : Action} {event : Event} {owed : List Message}
    (hfresh : Fresh s action) (hstep : step s action = some (s', event))
    (h : owed.Subperm s.values) : (discharge owed event).Subperm s'.values := by
  cases action with
  | addMessage sockId dstAddr dstPort data seq now =>
      simp only [step] at hstep
      split at hstep
      · cases hstep
        have hperm := (OrderedMap.emplace_perm hfresh ⟨sockId, dstAddr, dstPort, data, seq, now⟩).map Prod.snd
        exact ((List.subperm_cons _).mpr h).trans hperm.symm.subperm
      · cases hstep
  | confirmDataReceived sockId ack now =>
      simp only [step] at hstep
      split at hstep
      · cases hstep
        change (owed.filter _).Subperm ((s.keep _).entries.map Prod.snd)
        rw [values_keep]
        exact h.filter _
      · cases hstep
  | clearAllMessages sockId =>
      simp only [step] at hstep
      split at hstep
      · cases hstep
        change (owed.filter _).Subperm ((s.keep _).entries.map Prod.snd)
        rw [values_keep]
        exact h.filter _
      · cases hstep
  | beginRound now =>
      simp only [step] at hstep
      split at hstep
      · cases hstep
        exact h
      · cases hstep
  | check sent =>
      simp only [step] at hstep
      split at hstep
      · rename_i now rttIncreased last hround
        split at hstep
        · rename_i time msg hcurrent
          split at hstep
          · cases hstep
          · have hkeeps := checkMessage_keeps h (current_mem hcurrent)
              (hfresh now rttIncreased last time msg hround hcurrent) sent
            rw [Option.some.inj hstep] at hkeeps
            exact hkeeps
        · cases hstep
      · cases hstep
  | endRound =>
      simp only [step] at hstep
      split at hstep
      · split at hstep
        · cases hstep
          exact h
        · cases hstep
      · cases hstep

end Steps

-- Every message that is owed is in the list, as often as it is owed.
def Kept (r : Run) : Prop := r.owed.Subperm r.monitor.values

-- In a run whose steps give only unused times, no message is lost.
theorem messages_kept {r : Run} (h : Relation.ReflTransGen FreshStep Run.start r) : Kept r := by
  have hstart : Kept Run.start := List.nil_subperm
  apply Interleaving.invariant_of_reachable hstart _ h
  rintro r r' hr ⟨action, hfresh, event, hstep, howed⟩
  unfold Kept
  rw [howed]
  exact step_keeps hfresh hstep hr

-- Three packets of one socket, and a round in which the last two get the same time.
def twins : List Action :=
  [.addMessage 1 0 0 [] 10 0, .addMessage 1 0 0 [] 20 1, .addMessage 1 0 0 [] 30 2,
    .beginRound 60000000, .check (some true), .check (some true), .check (some true)]

def play (r : Run) (action : Action) : Option Run :=
  (step r.monitor action).map fun result => ⟨result.1, discharge r.owed result.2⟩

theorem play_step {r r' : Run} {action : Action} (h : play r action = some r') :
    Moves action r r' := by
  unfold play at h
  rw [Option.map_eq_some_iff] at h
  obtain ⟨⟨s', event⟩, hstep, rfl⟩ := h
  exact ⟨event, hstep, rfl⟩

theorem messages_kept_first : ∃ r, Relation.ReflTransGen FreshStep Run.start r ∧
    r.owed = [⟨1, 0, 0, [], 10, 0⟩] ∧ Kept r := by
  obtain ⟨r, hplay, howed⟩ : ∃ r, play Run.start (.addMessage 1 0 0 [] 10 0) = some r ∧
      r.owed = [⟨1, 0, 0, [], 10, 0⟩] := ⟨_, rfl, rfl⟩
  have hfresh : Fresh Run.start.monitor (.addMessage 1 0 0 [] 10 0) := nofun
  have hstep : FreshStep Run.start r := ⟨_, hfresh, play_step hplay⟩
  have hrun := Relation.ReflTransGen.single hstep
  exact ⟨r, hrun, howed, messages_kept hrun⟩

theorem message_lost : ¬∀ r, Relation.ReflTransGen Step Run.start r → Kept r := by
  intro hclaim
  obtain ⟨r, hrun, howed, hvalues⟩ : ∃ r, twins.foldlM play Run.start = some r ∧
      r.owed.length = 3 ∧ r.monitor.values.length = 2 := ⟨_, rfl, rfl, rfl⟩
  have hreach : Relation.ReflTransGen Step Run.start r :=
    Interleaving.reachable_of_foldlM (fun _ action _ h => ⟨action, play_step h⟩) hrun
  have hlength := (hclaim r hreach).length_le
  omega

end Rpcsx.P2ps.Monitor
