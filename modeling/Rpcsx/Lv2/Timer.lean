import Rpcsx.Lv2
import Mathlib.Data.List.Range
import Mathlib.Data.Nat.ModEq

namespace Rpcsx.Lv2.Timer

-- The greatest u64, `umax`.
def umax : Nat := 2 ^ 64 - 1

def addSaturate (addend1 addend2 : Nat) : Nat :=
  if umax - addend1 < addend2 then umax else addend1 + addend2

def subSaturate (minuend subtrahend : Nat) : Nat :=
  if minuend < subtrahend then 0 else minuend - subtrahend

inductive Status where
  | stop
  | run
deriving DecidableEq, Repr

-- lv2_timer. A port is the id of an event queue.
structure State where
  state : Status
  port : Option Nat
  source : Nat
  data1 : Nat
  data2 : Nat
  expire : Nat
  period : Nat

-- A call of lv2_event_queue::send.
structure Sent where
  port : Nat
  source : Nat
  data1 : Nat
  data2 : Nat
  data3 : Nat

-- The loop of LV2 that _sys_timer_start replaces:
-- do { base_time += period; } while (base_time < start_time)
def lv2Loop (startTime period : Nat) : Nat → Nat → Option Nat
  | 0, _ => none
  | rounds + 1, baseTime =>
      if baseTime + period < startTime then lv2Loop startTime period rounds (baseTime + period)
      else some (baseTime + period)

-- The expiration time of _sys_timer_start.
def expireTime (startTime baseTime period : Nat) : Nat :=
  if period = 0 then baseTime
  else if baseTime = 0 then addSaturate startTime period
  else if startTime < addSaturate baseTime period then addSaturate baseTime period
  else
    let startTimeWithBaseTimeReminder :=
      addSaturate (startTime - startTime % period) (baseTime % period)
    addSaturate startTimeWithBaseTimeReminder
      (if startTimeWithBaseTimeReminder < startTime then period else 0)

namespace State

variable (t : State)

def send (next : Nat) : List Sent :=
  match t.port with
  | some port => [⟨port, t.source, t.data1, t.data2, next⟩]
  | none => []

-- The timer, what it has sent and the result.
def checkUnlocked (now : Nat) : State × List Sent × Nat :=
  if now < t.expire ∨ t.state ≠ .run then (t, [], umax)
  else if t.period ≠ 0 then
    let expire0 := addSaturate t.expire t.period
    ({ t with expire := expire0 }, t.send t.expire, subSaturate expire0 now)
  else ({ t with state := .stop }, t.send t.expire, umax)

def check (now : Nat) : State × List Sent × Nat :=
  if t.state = .run then
    if now ≥ t.expire then t.checkUnlocked now else (t, [], t.expire - now)
  else (t, [], umax)

-- The loop of the timer thread over one timer; none if it has not ended after some rounds.
def threadCheck (now : Nat) : Nat → State → Option (State × List Sent)
  | 0, _ => none
  | rounds + 1, t =>
      if (t.check now).2.2 ≠ 0 then some ((t.check now).1, (t.check now).2.1)
      else (threadCheck now rounds (t.check now).1).map fun (t', sent) =>
        (t', (t.check now).2.1 ++ sent)

-- _sys_timer_start.
def start (startTime baseTime period : Nat) : State × List Sent × Code :=
  if period ≠ 0 ∧ period < 100 then (t, [], .einval)
  else if t.port = none then (t, [], .enotconn)
  else
    let (t, sent, _) := t.checkUnlocked startTime
    if t.state ≠ .stop then (t, sent, .ebusy)
    else if period = 0 ∧ startTime ≥ baseTime then (t, sent, .etimedout)
    else
      ({ t with expire := expireTime startTime baseTime period, period := period, state := .run },
        sent, .ok)

-- sys_timer_stop.
def stop (now : Nat) : State × List Sent :=
  let (t, sent, _) := t.checkUnlocked now
  ({ t with state := .stop }, sent)

-- sys_timer_connect_event_queue, with whether the queue of the port still exists.
def connect (alive : Bool) (queue name pid timerId data1 data2 : Nat) : State :=
  if t.port ≠ none ∧ alive = true then t
  else
    { t with
      port := some queue
      source := if name ≠ 0 then name else pid * 2 ^ 32 ||| timerId
      data1 := data1
      data2 := data2 }

-- sys_timer_disconnect_event_queue.
def disconnect (alive : Bool) (now : Nat) : State × List Sent :=
  let (t, sent, _) := t.checkUnlocked now
  if t.port ≠ none ∧ alive = true then ({ t with state := .stop, port := none }, sent)
  else ({ t with state := .stop }, sent)

end State

-- The sections of the mutex of a timer.
inductive Call where
  -- the timer thread, or sys_timer_get_information
  | check (now : Nat)
  | start (startTime baseTime period : Nat)
  | stop (now : Nat)
  | connect (alive : Bool) (queue name pid timerId data1 data2 : Nat)
  | disconnect (alive : Bool) (now : Nat)

def Call.now : Call → Option Nat
  | .check now => some now
  | .start startTime _ _ => some startTime
  | .stop now => some now
  | .connect .. => none
  | .disconnect _ now => some now

def State.step (t : State) : Call → State × List Sent
  | .check now => ((t.checkUnlocked now).1, (t.checkUnlocked now).2.1)
  | .start startTime baseTime period =>
      ((t.start startTime baseTime period).1, (t.start startTime baseTime period).2.1)
  | .stop now => t.stop now
  | .connect alive queue name pid timerId data1 data2 =>
      (t.connect alive queue name pid timerId data1 data2, [])
  | .disconnect alive now => t.disconnect alive now

-- Calls in any order, each of them on a timer that runs, and what they have sent; the last one may
-- have stopped it.
inductive Running : State → List Call → List Sent → State → Prop
  | nil (t : State) : Running t [] [] t
  | call {t t' : State} {calls : List Call} {sent : List Sent} (h : Running t calls sent t')
      (hrun : t'.state = .run) (call : Call) :
      Running t (calls ++ [call]) (sent ++ (t'.step call).2) (t'.step call).1

end Rpcsx.Lv2.Timer

namespace Rpcsx.Lv2.Timer

section Expire

variable {startTime baseTime period rounds expire : Nat}

theorem addSaturate_eq {addend1 addend2 : Nat} (h : addend1 + addend2 < 2 ^ 64) :
    addSaturate addend1 addend2 = addend1 + addend2 := by
  rw [addSaturate, if_neg]
  simp only [umax]
  omega

-- The loop stops at the first boundary that is not before the start.
theorem lv2Loop_ends (hperiod : 0 < period) (hrounds : startTime ≤ baseTime + rounds * period) :
    ∃ expire, lv2Loop startTime period (rounds + 1) baseTime = some expire := by
  induction rounds generalizing baseTime with
  | zero =>
      rw [Nat.zero_mul] at hrounds
      exact ⟨_, by rw [lv2Loop, if_neg (by omega)]⟩
  | succ rounds ih =>
      rw [lv2Loop]
      split_ifs
      · apply ih
        rw [Nat.succ_mul] at hrounds
        omega
      · exact ⟨_, rfl⟩

theorem lv2Loop_spec (h : lv2Loop startTime period rounds baseTime = some expire) :
    ∃ k, expire = baseTime + (k + 1) * period ∧ startTime ≤ expire ∧
      (k ≠ 0 → baseTime + k * period < startTime) := by
  induction rounds generalizing baseTime with
  | zero => cases h
  | succ rounds ih =>
      rw [lv2Loop] at h
      split_ifs at h with hbefore
      · obtain ⟨k, hexpire, hle, hlast⟩ := ih h
        refine ⟨k + 1, by rw [hexpire, Nat.succ_mul (k + 1)]; omega, hle, fun _ => ?_⟩
        rcases Nat.eq_zero_or_pos k with hzero | hpos
        · rw [hzero, Nat.zero_add, Nat.one_mul]
          exact hbefore
        · have := hlast hpos.ne'
          rw [Nat.succ_mul]
          omega
      · cases h
        exact ⟨0, by rw [Nat.zero_add, Nat.one_mul], by omega, fun hne => absurd rfl hne⟩

-- The number of whole periods in front of the first boundary at or behind a time.
theorem whole_eq {q m s b : Nat} (hs : s < period) (hb : b < period)
    (hle : period * q + s ≤ period * m + b) (hlt : period * m + b < period * q + s + period) :
    m = if b < s then q + 1 else q := by
  have hlow : q ≤ m := by
    by_contra hnot
    have := Nat.mul_le_mul_left period (show m + 1 ≤ q by omega)
    rw [Nat.mul_succ] at this
    omega
  have hhigh : m ≤ q + 1 := by
    by_contra hnot
    have := Nat.mul_le_mul_left period (show q + 1 + 1 ≤ m by omega)
    rw [Nat.mul_succ, Nat.mul_succ] at this
    omega
  rcases (show m = q ∨ m = q + 1 by omega) with rfl | rfl
  · rw [if_neg (by omega)]
  · rw [Nat.mul_succ] at hlt
    rw [if_pos (by omega)]

-- The closed form of the loop.
theorem expireTime_eq (hbase : baseTime ≠ 0) (hperiod : 0 < period)
    (h : lv2Loop startTime period rounds baseTime = some expire) (hfits : expire < 2 ^ 64) :
    expireTime startTime baseTime period = expire := by
  obtain ⟨k, hexpire, hle, hlast⟩ := lv2Loop_spec h
  have hfirst : baseTime + period ≤ expire := by
    rw [hexpire, Nat.succ_mul]
    omega
  rw [expireTime, if_neg hperiod.ne', if_neg hbase, addSaturate_eq (by omega)]
  by_cases hbefore : startTime < baseTime + period
  · -- the loop ends in its first round
    have hzero : k = 0 := by
      by_contra hne
      have hearly := hlast hne
      have hone := Nat.le_mul_of_pos_left period (Nat.pos_of_ne_zero hne)
      omega
    rw [if_pos hbefore, hexpire, hzero, Nat.zero_add, Nat.one_mul]
  · rw [if_neg hbefore]
    have hlate : expire < startTime + period := by
      rcases Nat.eq_zero_or_pos k with hzero | hpos
      · rw [hzero, Nat.zero_add, Nat.one_mul] at hexpire
        omega
      · have hearly := hlast hpos.ne'
        rw [hexpire, Nat.succ_mul]
        omega
    have hstart := Nat.div_add_mod startTime period
    have hbegin := Nat.div_add_mod baseTime period
    have hsum : expire = period * (baseTime / period + k + 1) + baseTime % period := by
      rw [hexpire, Nat.mul_add, Nat.mul_add, Nat.mul_one, Nat.mul_comm period k, Nat.succ_mul]
      omega
    have hwhole := whole_eq (Nat.mod_lt startTime hperiod) (Nat.mod_lt baseTime hperiod)
      (by rw [hstart, ← hsum]; exact hle) (by rw [hstart, ← hsum]; exact hlate)
    have hreminder : startTime - startTime % period + baseTime % period =
        period * (startTime / period) + baseTime % period := by omega
    rw [hwhole] at hsum
    split_ifs at hsum with hless
    · rw [Nat.mul_succ] at hsum
      have hinner : addSaturate (startTime - startTime % period) (baseTime % period) =
          period * (startTime / period) + baseTime % period := by
        rw [addSaturate_eq (by omega), hreminder]
      rw [hinner]
      dsimp only
      rw [if_pos (by omega), addSaturate_eq (by omega)]
      omega
    · have hinner : addSaturate (startTime - startTime % period) (baseTime % period) =
          period * (startTime / period) + baseTime % period := by
        rw [addSaturate_eq (by omega), hreminder]
      rw [hinner]
      dsimp only
      rw [if_neg (by omega), addSaturate_eq (by omega)]
      omega

end Expire

-- The expiration times that come up to a time fit into 64 bits.
def Fits (expire period now : Nat) : Prop :=
  ∀ k, expire + k * period ≤ now → expire + (k + 1) * period < 2 ^ 64

-- A periodic timer that has sent the events of `n` boundaries.
structure Periodic (expire period n : Nat) (t : State) : Prop where
  running : t.state = .run
  connected : t.port ≠ none
  every : t.period = period
  next : t.expire = expire + n * period

section Steps

variable {expire period n now : Nat} {t t' : State}

theorem Periodic.send (h : Periodic expire period n t) (next : Nat) :
    ∃ sent, t.send next = [sent] ∧ sent.data3 = next := by
  cases hport : t.port with
  | none => exact absurd hport h.connected
  | some port => exact ⟨_, by rw [State.send, hport], rfl⟩

theorem checkUnlocked_early (hearly : now < t.expire) : t.checkUnlocked now = (t, [], umax) := by
  rw [State.checkUnlocked, if_pos (.inl hearly)]

-- A boundary that has passed is sent, and the next one is waited for.
theorem Periodic.checkUnlocked_due (h : Periodic expire period n t) (hperiod : period ≠ 0)
    (hdue : t.expire ≤ now) (hfits : Fits expire period now) : ∃ sent,
      t.checkUnlocked now = ({ t with expire := expire + (n + 1) * period }, [sent],
        subSaturate (expire + (n + 1) * period) now) ∧
      sent.data3 = expire + n * period ∧
      Periodic expire period (n + 1) { t with expire := expire + (n + 1) * period } := by
  have hnext : addSaturate t.expire t.period = expire + (n + 1) * period := by
    have hlt := hfits n (by rw [← h.next]; exact hdue)
    rw [Nat.succ_mul] at hlt ⊢
    rw [h.next, h.every, addSaturate_eq (by omega)]
    omega
  obtain ⟨sent, hsend, hdata⟩ := h.send t.expire
  refine ⟨sent, ?_, hdata.trans h.next, ⟨h.running, h.connected, h.every, rfl⟩⟩
  rw [State.checkUnlocked, if_neg, if_pos (by rw [h.every]; exact hperiod)]
  · dsimp only
    rw [hnext, hsend]
  · rintro (hearly | hstopped)
    · omega
    · exact hstopped h.running

theorem Periodic.checkUnlocked (h : Periodic expire period n t) (hperiod : period ≠ 0)
    (hfits : Fits expire period now) :
    ((t.checkUnlocked now).2.1 = [] ∧ Periodic expire period n (t.checkUnlocked now).1) ∨
      ∃ sent, (t.checkUnlocked now).2.1 = [sent] ∧ sent.data3 = expire + n * period ∧
        sent.data3 ≤ now ∧ Periodic expire period (n + 1) (t.checkUnlocked now).1 := by
  by_cases hdue : t.expire ≤ now
  · obtain ⟨sent, hcheck, hdata, hnext⟩ := h.checkUnlocked_due hperiod hdue hfits
    rw [hcheck]
    refine .inr ⟨sent, rfl, hdata, ?_, hnext⟩
    rw [hdata, ← h.next]
    exact hdue
  · rw [checkUnlocked_early (not_le.mp hdue)]
    exact .inl ⟨rfl, h⟩

-- A call on a running timer checks it once, or sends nothing.
theorem Periodic.step_eq (h : Periodic expire period n t) (call : Call)
    (hrun : ∀ now, call.now = some now → (t.checkUnlocked now).1.state = .run) :
    ((t.step call).2 = [] ∧ Periodic expire period n (t.step call).1) ∨
      ∃ now, call.now = some now ∧ (t.step call).2 = (t.checkUnlocked now).2.1 ∧
        ((t.step call).1.state = .run → (t.step call).1 = (t.checkUnlocked now).1) := by
  cases call with
  | check now => exact .inr ⟨now, rfl, rfl, fun _ => rfl⟩
  | start startTime baseTime period' =>
      have hbusy : (t.checkUnlocked startTime).1.state ≠ .stop := by
        rw [hrun startTime rfl]
        nofun
      simp only [State.step, State.start, if_neg h.connected, if_pos hbusy]
      split_ifs
      · exact .inl ⟨rfl, h⟩
      · exact .inr ⟨startTime, rfl, rfl, fun _ => rfl⟩
  | stop now => exact .inr ⟨now, rfl, rfl, nofun⟩
  | connect alive queue name pid timerId data1 data2 =>
      refine .inl ⟨rfl, ?_⟩
      rw [State.step, State.connect]
      by_cases hkept : t.port ≠ none ∧ alive = true
      · rw [if_pos hkept]
        exact h
      · rw [if_neg hkept]
        exact ⟨h.running, nofun, h.every, h.next⟩
  | disconnect alive now =>
      refine .inr ⟨now, rfl, ?_, ?_⟩
      · simp only [State.step, State.disconnect]
        split_ifs <;> rfl
      · simp only [State.step, State.disconnect]
        split_ifs <;> nofun

theorem Periodic.step (h : Periodic expire period n t) (hperiod : period ≠ 0) (call : Call)
    (hfits : ∀ now, call.now = some now → Fits expire period now) :
    ((t.step call).2 = [] ∧
        ((t.step call).1.state = .run → Periodic expire period n (t.step call).1)) ∨
      ∃ sent now, (t.step call).2 = [sent] ∧ sent.data3 = expire + n * period ∧
        call.now = some now ∧ sent.data3 ≤ now ∧
        ((t.step call).1.state = .run → Periodic expire period (n + 1) (t.step call).1) := by
  have hrun : ∀ now, call.now = some now → (t.checkUnlocked now).1.state = .run := by
    intro now hnow
    rcases h.checkUnlocked hperiod (hfits now hnow) with ⟨-, hnext⟩ | ⟨sent, -, -, -, hnext⟩
    · exact hnext.running
    · exact hnext.running
  rcases h.step_eq call hrun with ⟨hsent, hnext⟩ | ⟨now, hnow, hsent, hsame⟩
  · exact .inl ⟨hsent, fun _ => hnext⟩
  · rw [hsent]
    rcases h.checkUnlocked hperiod (hfits now hnow) with
      ⟨hnone, hnext⟩ | ⟨sent, hone, hdata, hle, hnext⟩
    · exact .inl ⟨hnone, fun hstate => by rw [hsame hstate]; exact hnext⟩
    · exact .inr ⟨sent, now, hone, hdata, hnow, hle,
        fun hstate => by rw [hsame hstate]; exact hnext⟩

-- A run of calls sends the first boundaries, one event for each.
theorem Periodic.run (h : Periodic expire period 0 t) (hperiod : period ≠ 0) {calls : List Call}
    {events : List Sent} (hrun : Running t calls events t')
    (hfits : ∀ call ∈ calls, ∀ now, call.now = some now → Fits expire period now) :
    ∃ n, events.map (·.data3) = (List.range n).map (fun k => expire + k * period) ∧
      (t'.state = .run → Periodic expire period n t') ∧
      ∀ e ∈ events, ∃ call ∈ calls, ∃ now, call.now = some now ∧ e.data3 ≤ now := by
  induction hrun with
  | nil => exact ⟨0, rfl, fun _ => h, nofun⟩
  | @call s calls events hbefore hstate call ih =>
      obtain ⟨n, hevents, hperiodic, hpassed⟩ :=
        ih fun c hc => hfits c (List.mem_append_left _ hc)
      have hkept : ∀ e ∈ events, ∃ c ∈ calls ++ [call], ∃ now,
          c.now = some now ∧ e.data3 ≤ now := by
        intro e he
        obtain ⟨c, hc, hle⟩ := hpassed e he
        exact ⟨c, List.mem_append_left _ hc, hle⟩
      have hlast : call ∈ calls ++ [call] := List.mem_append_right _ List.mem_cons_self
      rcases (hperiodic hstate).step hperiod call (hfits call hlast) with
        ⟨hsent, hnext⟩ | ⟨sent, now, hsent, hdata, hnow, hle, hnext⟩
      · rw [hsent, List.append_nil]
        exact ⟨n, hevents, hnext, hkept⟩
      · refine ⟨n + 1, ?_, hnext, ?_⟩
        · rw [hsent, List.map_append, hevents, List.range_succ, List.map_append, List.map_singleton,
            List.map_singleton, hdata]
        · intro e he
          rw [hsent] at he
          rcases List.mem_append.mp he with hold | hnew
          · exact hkept e hold
          · rw [List.mem_singleton.mp hnew]
            exact ⟨call, hlast, now, hnow, hle⟩

theorem Periodic.check_early (h : Periodic expire period n t) (hearly : now < t.expire) :
    t.check now = (t, [], t.expire - now) := by
  rw [State.check, if_pos h.running, if_neg (by omega)]

theorem Periodic.check_due (h : Periodic expire period n t) (hdue : t.expire ≤ now) :
    t.check now = t.checkUnlocked now := by
  rw [State.check, if_pos h.running, if_pos hdue]

-- The loop of the thread sends what has passed.
theorem Periodic.thread (h : Periodic expire period n t) (hperiod : period ≠ 0)
    (hfits : Fits expire period now) {left : Nat} (hleft : now < expire + (n + left) * period) :
    ∃ rounds t' more m, State.threadCheck now rounds t = some (t', more) ∧
      (List.range n).map (fun k => expire + k * period) ++ more.map (·.data3) =
        (List.range m).map (fun k => expire + k * period) ∧
      (∀ e ∈ more, e.data3 ≤ now) ∧ now < expire + m * period := by
  induction left generalizing n t with
  | zero =>
      have hearly : now < t.expire := by
        rw [h.next]
        exact hleft
      refine ⟨1, t, [], n, ?_, by rw [List.map_nil, List.append_nil], nofun, hleft⟩
      rw [State.threadCheck, h.check_early hearly, if_pos (by dsimp only; omega)]
  | succ left ih =>
      by_cases hdue : t.expire ≤ now
      · obtain ⟨sent, hcheck, hdata, hnext⟩ := h.checkUnlocked_due hperiod hdue hfits
        rw [← h.check_due hdue] at hcheck
        have hle : sent.data3 ≤ now := by
          rw [hdata, ← h.next]
          exact hdue
        by_cases hover : now < expire + (n + 1) * period
        · refine ⟨1, { t with expire := expire + (n + 1) * period }, [sent], n + 1, ?_, ?_, ?_,
            hover⟩
          · rw [State.threadCheck, hcheck, if_pos]
            dsimp only
            rw [subSaturate, if_neg (by omega)]
            omega
          · rw [List.range_succ, List.map_append, List.map_singleton, List.map_singleton, hdata]
          · intro e he
            rw [List.mem_singleton.mp he]
            exact hle
        · obtain ⟨rounds, t', more, m, hthread, hsent, hmore, hend⟩ := ih hnext
            (by rw [show n + 1 + left = n + (left + 1) by omega]; exact hleft)
          refine ⟨rounds + 1, t', sent :: more, m, ?_, ?_, ?_, hend⟩
          · rw [State.threadCheck, hcheck, if_neg]
            · rw [hthread]
              rfl
            · dsimp only
              rw [subSaturate]
              split_ifs <;> omega
          · rw [← hsent, List.range_succ, List.map_append, List.map_singleton, List.map_cons, hdata,
              List.append_assoc]
            rfl
          · intro e he
            rcases List.mem_cons.mp he with rfl | hin
            · exact hle
            · exact hmore e hin
      · have hearly : now < t.expire := not_le.mp hdue
        refine ⟨1, t, [], n, ?_, by rw [List.map_nil, List.append_nil], nofun, ?_⟩
        · rw [State.threadCheck, h.check_early hearly, if_pos (by dsimp only; omega)]
        · rw [← h.next]
          exact hearly

end Steps

-- What has been sent of the boundaries of a timer since its start.
structure Served (expire period : Nat) (calls : List Call) (events : List Sent) (t : State) :
    Prop where
  once : ∃ n, events.map (·.data3) = (List.range n).map fun k => expire + k * period
  increasing : (events.map (·.data3)).Pairwise (· < ·)
  passed : ∀ e ∈ events, ∃ call ∈ calls, ∃ now, call.now = some now ∧ e.data3 ≤ now
  -- a check that asks for no other one leaves no boundary behind
  settled : t.state = .run → ∀ now, Fits expire period now → (t.check now).2.2 ≠ 0 →
    ∀ k, expire + k * period ≤ now →
      expire + k * period ∈ (events ++ (t.check now).2.1).map (·.data3)
  -- the thread comes to such a check, and sends all that has passed until then
  complete : t.state = .run → ∀ now, Fits expire period now →
    ∃ rounds t' more n, State.threadCheck now rounds t = some (t', more) ∧
      (events ++ more).map (·.data3) = (List.range n).map (fun k => expire + k * period) ∧
      (∀ e ∈ more, e.data3 ≤ now) ∧ ∀ k, expire + k * period ≤ now → k < n

section Served

variable {expire period : Nat}

theorem boundaries_increasing (hperiod : period ≠ 0) (n : Nat) :
    ((List.range n).map fun k => expire + k * period).Pairwise (· < ·) := by
  rw [List.pairwise_map]
  refine List.pairwise_lt_range.imp fun {j k} hlt => ?_
  have := Nat.mul_lt_mul_of_pos_right hlt (Nat.pos_of_ne_zero hperiod)
  omega

theorem lt_of_boundary {k n now : Nat} (hle : expire + k * period ≤ now)
    (hlt : now < expire + n * period) : k < n := by
  by_contra hnot
  have := Nat.mul_le_mul_right period (not_lt.mp hnot)
  omega

theorem Periodic.served {t t' : State} (h : Periodic expire period 0 t) (hperiod : period ≠ 0)
    {calls : List Call} {events : List Sent} (hrun : Running t calls events t')
    (hfits : ∀ call ∈ calls, ∀ now, call.now = some now → Fits expire period now) :
    Served expire period calls events t' := by
  obtain ⟨n, hevents, hperiodic, hpassed⟩ := h.run hperiod hrun hfits
  refine ⟨⟨n, hevents⟩, by rw [hevents]; exact boundaries_increasing hperiod n, hpassed, ?_, ?_⟩
  · intro hstate now hnow hresult k hk
    have hlast := hperiodic hstate
    rw [List.map_append, List.mem_append, hevents, List.mem_map]
    by_cases hdue : t'.expire ≤ now
    · obtain ⟨sent, hcheck, hdata, -⟩ := hlast.checkUnlocked_due hperiod hdue hnow
      rw [← hlast.check_due hdue] at hcheck
      rw [hcheck] at hresult ⊢
      have hnext : now < expire + (n + 1) * period := by
        dsimp only at hresult
        rw [subSaturate] at hresult
        split_ifs at hresult <;> omega
      rcases Nat.lt_succ_iff_lt_or_eq.mp (lt_of_boundary hk hnext) with hlt | rfl
      · exact .inl ⟨k, List.mem_range.mpr hlt, rfl⟩
      · exact .inr (List.mem_map.mpr ⟨sent, List.mem_cons_self, hdata⟩)
    · have hearly : now < expire + n * period := by
        rw [← hlast.next]
        exact not_le.mp hdue
      exact .inl ⟨k, List.mem_range.mpr (lt_of_boundary hk hearly), rfl⟩
  · intro hstate now hnow
    have hleft : now < expire + (n + (now + 1)) * period := by
      have := Nat.le_mul_of_pos_right (n + (now + 1)) (Nat.pos_of_ne_zero hperiod)
      omega
    obtain ⟨rounds, t'', more, m, hthread, hsent, hmore, hend⟩ :=
      (hperiodic hstate).thread hperiod hnow hleft
    refine ⟨rounds, t'', more, m, hthread, ?_, hmore, fun k hk => lt_of_boundary hk hend⟩
    rw [List.map_append, hevents, hsent]

end Served

theorem checkUnlocked_port (t : State) (now : Nat) : (t.checkUnlocked now).1.port = t.port := by
  rw [State.checkUnlocked]
  split_ifs <;> rfl

theorem start_periodic {t t' : State} {startTime baseTime period : Nat} {before : List Sent}
    (hstart : t.start startTime baseTime period = (t', before, .ok)) :
    Periodic (expireTime startTime baseTime period) period 0 t' := by
  have hport := checkUnlocked_port t startTime
  rw [State.start] at hstart
  by_cases hinvalid : period ≠ 0 ∧ period < 100
  · rw [if_pos hinvalid] at hstart
    cases hstart
  · rw [if_neg hinvalid] at hstart
    by_cases hnone : t.port = none
    · rw [if_pos hnone] at hstart
      cases hstart
    · rw [if_neg hnone] at hstart
      rcases hcheck : t.checkUnlocked startTime with ⟨s, sent, result⟩
      rw [hcheck] at hport
      simp only [hcheck] at hstart
      split_ifs at hstart
      · cases hstart
      · cases hstart
      · cases hstart
        refine ⟨rfl, fun hp => hnone (hport.symm.trans hp), rfl, ?_⟩
        rw [Nat.zero_mul, Nat.add_zero]

-- A periodic timer starts at the time of the loop of LV2 and sends one event for each boundary.
theorem start_served {t t' : State} {startTime baseTime period : Nat} {before : List Sent}
    (hbase : baseTime ≠ 0) (hperiod : period ≠ 0)
    (hstart : t.start startTime baseTime period = (t', before, .ok)) :
    ∃ rounds expire, lv2Loop startTime period rounds baseTime = some expire ∧
      (expire < 2 ^ 64 → t'.expire = expire ∧ ∀ calls events last, Running t' calls events last →
        (∀ call ∈ calls, ∀ now, call.now = some now → Fits expire period now) →
          Served expire period calls events last) := by
  have hpos := Nat.pos_of_ne_zero hperiod
  have hrounds : startTime ≤ baseTime + startTime * period := by
    have := Nat.le_mul_of_pos_right startTime hpos
    omega
  obtain ⟨expire, hloop⟩ := lv2Loop_ends hpos hrounds
  refine ⟨_, expire, hloop, fun hfits => ?_⟩
  have hstarted := start_periodic hstart
  rw [expireTime_eq hbase hpos hloop hfits] at hstarted
  refine ⟨?_, fun calls events last hrun hcalls => hstarted.served hperiod hrun hcalls⟩
  rw [hstarted.next, Nat.zero_mul, Nat.add_zero]

-- A timer with a queue that starts at 1000 with the base 250 and the period 100.
def connected : State := ⟨.stop, some 1, 2, 3, 4, 0, 0⟩

theorem start_served_hundred : ∃ t' last, connected.start 1000 250 100 = (t', [], .ok) ∧
    t'.expire = 1050 ∧ Served 1050 100 [.check 1060] [⟨1, 2, 3, 4, 1050⟩] last := by
  obtain ⟨t', hstart, hrunning, hsent⟩ : ∃ t', connected.start 1000 250 100 = (t', [], .ok) ∧
      t'.state = .run ∧ (t'.step (.check 1060)).2 = [⟨1, 2, 3, 4, 1050⟩] := ⟨_, rfl, rfl, rfl⟩
  obtain ⟨rounds, expire, hloop, hserved⟩ := start_served (by decide) (by decide) hstart
  obtain ⟨k, hexpire, hle, hlast⟩ := lv2Loop_spec hloop
  have htime : expire = 1050 := by omega
  subst htime
  obtain ⟨hstarted, hserved⟩ := hserved (by decide)
  have hrun := Running.call (.nil t') hrunning (.check 1060)
  rw [hsent] at hrun
  refine ⟨t', _, hstart, hstarted, hserved _ _ _ hrun ?_⟩
  intro call hcall now hnow k hk
  rw [List.mem_singleton.mp hcall] at hnow
  cases hnow
  omega

end Rpcsx.Lv2.Timer
