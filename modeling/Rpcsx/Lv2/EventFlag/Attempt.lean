import Rpcsx.Data.Mask
import Rpcsx.Lv2.EventFlag

namespace Rpcsx.Lv2.EventFlag

open Rpcsx.Data.Mask

section CheckPattern

variable {wait : Wait} {pattern left bits : BitVec 64}

theorem checkPattern_eq_none : checkPattern pattern wait = none ↔
    wait.mode = .and ∧ ¬ Within wait.bitptn pattern ∨
      wait.mode = .or ∧ Apart pattern wait.bitptn := by
  rw [← and_eq_right_iff, ← and_eq_zero_iff]
  unfold checkPattern
  split
  · rename_i h
    exact ⟨fun _ => h, fun _ => rfl⟩
  · rename_i h
    cases wait.clear with
    | keep => exact ⟨nofun, fun h' => absurd h' h⟩
    | clear => exact ⟨nofun, fun h' => absurd h' h⟩
    | clearAll => exact ⟨nofun, fun h' => absurd h' h⟩

-- What a clear mode leaves of the pattern.
def Wait.leave (wait : Wait) (pattern : BitVec 64) : BitVec 64 :=
  match wait.clear with
  | .keep => pattern
  | .clear => pattern &&& ~~~wait.bitptn
  | .clearAll => 0

-- A waiter that a pattern does not satisfy is not satisfied by fewer bits.
theorem checkPattern_mono (h : checkPattern pattern wait = none) (hb : Within bits pattern) :
    checkPattern bits wait = none := by
  rw [checkPattern_eq_none] at h ⊢
  rcases h with ⟨hand, hn⟩ | ⟨hor, ha⟩
  · exact Or.inl ⟨hand, fun hw => hn (hw.trans hb)⟩
  · exact Or.inr ⟨hor, fun k hk => ha k (hb k hk)⟩

end CheckPattern

section SchedulingOrder

variable {ι : Type} [DecidableEq ι] {prio : ι → Int} {protocol : Protocol}

omit [DecidableEq ι] in
theorem getNext_mem {sq : List ι} {it : ι} (h : getNext prio protocol sq = some it) : it ∈ sq := by
  cases sq with
  | nil => cases h
  | cons first rest =>
      cases h
      have hmem := foldl_mem (fun ppu it => decide (protocol ≠ .priority ∨ prio ppu ≤ prio it))
        first rest
      simpa only [decide_eq_true_eq] using hmem

omit [DecidableEq ι] in
theorem getNext_eq_none {sq : List ι} (h : getNext prio protocol sq = none) : sq = [] := by
  cases sq with
  | nil => rfl
  | cons first rest => cases h

theorem schedulingOrder_perm {count : Nat} {sq : List ι} (h : sq.length = count) :
    (schedulingOrder prio protocol count sq).Perm sq := by
  induction count generalizing sq with
  | zero =>
      rw [List.length_eq_zero_iff.mp h]
      exact List.Perm.refl _
  | succ count ih =>
      unfold schedulingOrder
      cases hn : getNext prio protocol sq with
      | none =>
          rw [getNext_eq_none hn]
      | some it =>
          have hmem := getNext_mem hn
          have hlen : (sq.erase it).length = count := by
            rw [List.length_erase_of_mem hmem, h, Nat.add_sub_cancel]
          exact ((ih hlen).cons it).trans (List.perm_cons_erase hmem).symm

end SchedulingOrder

section Offer

variable {ι : Type} {waits : ι → Wait} {order : List ι} {pattern bits : BitVec 64}

-- The waiters are offered the pattern one by one: what is left of it and who is satisfied.
def offer (waits : ι → Wait) : List ι → BitVec 64 → BitVec 64 × List ι
  | [], pattern => (pattern, [])
  | it :: rest, pattern =>
      match checkPattern pattern (waits it) with
      | none => offer waits rest pattern
      | some left => ((offer waits rest left).1, it :: (offer waits rest left).2)

theorem offer_mem {j : ι} (h : j ∈ (offer waits order pattern).2) : j ∈ order := by
  induction order generalizing pattern with
  | nil => cases h
  | cons it rest ih =>
      unfold offer at h
      split at h
      · exact List.mem_cons_of_mem _ (ih h)
      · rcases List.mem_cons.mp h with heq | hrest
        · rw [heq]
          exact List.mem_cons_self
        · exact List.mem_cons_of_mem _ (ih hrest)

end Offer

section Evaluate

variable {ι : Type} [DecidableEq ι] {bitptn : BitVec 64} {waits : ι → Wait} {order : List ι}
  {a : Attempt ι}

end Evaluate

section Commit

variable {ι : Type} {waits : ι → Wait} {order : List ι} {value pattern bitptn mask left : BitVec 64}

-- The bits that have gone since the pattern was loaded and are not set again.
def lost (value pattern bitptn : BitVec 64) : BitVec 64 := pattern &&& ~~~value &&& ~~~bitptn

end Commit

end Rpcsx.Lv2.EventFlag

namespace Rpcsx.Lv2.EventFlag

variable {ι : Type} [DecidableEq ι]

-- Where a thread stands with an event flag whose calls are atomic.
inductive Phase where
  | idle (result : Option Code)
  | pending (call : Call)
  | queued
deriving DecidableEq, Repr

-- An event flag whose calls are atomic.
structure Atomic (ι : Type) where
  pattern : BitVec 64
  queue : List ι
  phases : ι → Phase
  waits : ι → Wait

namespace Atomic

omit [DecidableEq ι] in
theorem ext_fields {a a' : Atomic ι} (hpattern : a.pattern = a'.pattern) (hqueue : a.queue = a'.queue)
    (hphases : ∀ j, a.phases j = a'.phases j) (hwaits : a.waits = a'.waits) : a = a' := by
  cases a
  cases a'
  cases hpattern
  cases hqueue
  cases hwaits
  cases funext hphases
  rfl

def enter (a : Atomic ι) (i : ι) (phase : Phase) : Atomic ι :=
  { a with phases := Function.update a.phases i phase }

def finish (a : Atomic ι) (i : ι) (code : Code) : Atomic ι := a.enter i (.idle (some code))

def call (a : Atomic ι) (i : ι) (call : Call) : Atomic ι :=
  match call with
  | .wait args _ =>
      { a.enter i (.pending call) with waits := Function.update a.waits i args }
  | _ => a.enter i (.pending call)

-- The pattern and the waiters that are satisfied when the bits are set in one step: the waiters
-- are offered the pattern one by one, in scheduling order.
def offered (c : Config) (prio : ι → Int) (a : Atomic ι) (bitptn : BitVec 64) :
    BitVec 64 × List ι :=
  offer a.waits (schedulingOrder prio c.protocol a.queue.length a.queue) (a.pattern ||| bitptn)

-- sys_event_flag_set as one step.
def set (c : Config) (prio : ι → Int) (a : Atomic ι) (i : ι) (bitptn : BitVec 64) : Atomic ι where
  pattern := (a.offered c prio bitptn).1
  queue := a.queue.filter fun j => j ∉ (a.offered c prio bitptn).2
  phases j :=
    if j ∈ (a.offered c prio bitptn).2 ∨ j = i then .idle (some .ok) else a.phases j
  waits := a.waits

inductive Step (c : Config) (a : Atomic ι) : Atomic ι → Prop where
  | call (i : ι) (result : Option Code) (call : Call) (h : a.phases i = .idle result) :
      Step c a (a.call i call)
  -- sys_event_flag_wait
  | take (i : ι) (timeout : Bool) (pattern : BitVec 64)
      (h : a.phases i = .pending (.wait (a.waits i) timeout))
      (hcheck : checkPattern a.pattern (a.waits i) = some pattern) :
      Step c a { a.finish i .ok with pattern := pattern }
  | refuse (i : ι) (timeout : Bool) (h : a.phases i = .pending (.wait (a.waits i) timeout))
      (hcheck : checkPattern a.pattern (a.waits i) = none) (hsingle : c.single = true)
      (hqueue : a.queue ≠ []) : Step c a (a.finish i .eperm)
  | sleep (i : ι) (timeout : Bool) (h : a.phases i = .pending (.wait (a.waits i) timeout))
      (hcheck : checkPattern a.pattern (a.waits i) = none) :
      Step c a { a.enter i .queued with queue := i :: a.queue }
  | expire (i : ι) (h : i ∈ a.queue) :
      Step c a { a.finish i .etimedout with queue := a.queue.erase i }
  -- sys_event_flag_trywait
  | trywait (i : ι) (args : Wait) (pattern : BitVec 64) (h : a.phases i = .pending (.trywait args))
      (hcheck : checkPattern a.pattern args = some pattern) :
      Step c a { a.finish i .ok with pattern := pattern }
  | busy (i : ι) (args : Wait) (h : a.phases i = .pending (.trywait args))
      (hcheck : checkPattern a.pattern args = none) : Step c a (a.finish i .ebusy)
  -- sys_event_flag_set
  | set (i : ι) (bitptn : BitVec 64) (prio : ι → Int) (h : a.phases i = .pending (.set bitptn)) :
      Step c a (a.set c prio i bitptn)
  -- sys_event_flag_clear
  | clear (i : ι) (bitptn : BitVec 64) (h : a.phases i = .pending (.clear bitptn)) :
      Step c a { a.finish i .ok with pattern := a.pattern &&& bitptn }
  -- sys_event_flag_cancel
  | cancel (i j : ι) (h : a.phases i = .pending .cancel) (hj : j ∈ a.queue) :
      Step c a { a.finish j .ecanceled with queue := a.queue.erase j }
  | cancelled (i : ι) (h : a.phases i = .pending .cancel) (hqueue : a.queue = []) :
      Step c a (a.finish i .ok)

end Atomic

namespace State

-- A set that has been committed is about to take the satisfied waiters out of the queue.
def removing (s : State ι) : Bool :=
  match s.mutex with
  | none => false
  | some i => s.threads i = .setRemove

-- The queue without the waiters that a committed set has satisfied.
def queue (s : State ι) : List ι :=
  s.sq.filter fun j => ¬ (s.removing = true ∧ s.gpr3 j = some .ok)

def phase (s : State ι) (j : ι) : Phase :=
  match s.threads j with
  | .idle result => .idle result
  | .waitCheck timeout | .waitLock timeout | .waitRecheck timeout | .waitEmplace timeout =>
      .pending (.wait (s.waits j) timeout)
  | .parked _ | .expired | .barrier | .timeoutLock | .timeoutUnqueue =>
      if j ∈ s.queue then .queued else .idle (s.gpr3 j)
  | .trywait args => .pending (.trywait args)
  | .setCheck bitptn | .setLock bitptn | .setLoad bitptn | .setEvaluate bitptn _
  | .setCommit bitptn _ _ _ _ => .pending (.set bitptn)
  | .setRemove => .idle (some .ok)
  | .clear bitptn => .pending (.clear bitptn)
  | .cancelLock | .cancelLoad | .cancelSchedule _ => .pending .cancel

-- What a state of the code is for the atomic flag.
def abstract (s : State ι) : Atomic ι where
  pattern := s.pattern
  queue := s.queue
  phases := s.phase
  waits := s.waits

end State

end Rpcsx.Lv2.EventFlag
