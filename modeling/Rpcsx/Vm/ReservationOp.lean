import Mathlib.Logic.Relation
import Rpcsx.Data.Interleaving

namespace Rpcsx.Vm.ReservationOp

open Data

-- The lock bits of a reservation word, and the bit of the unique lock.
def rsrvLockMask : BitVec 64 := 127

def rsrvUniqueLock : BitVec 64 := 64

variable {τ ρ : Type}

-- An operation on the data of a cache line; a result of type bool may be any that tests as one.
inductive Op (τ ρ : Type) where
  | void (op : τ → τ)
  | boolean (op : τ → τ × ρ) (test : ρ → Bool)

-- Where the thread stands in reservation_op.
inductive Pc (ρ : Type) where
  | start
  | stage1
  | stage2
  | loop (old : BitVec 64)
  | transaction (old : BitVec 64)
  | stage3
  | lock
  | write
  -- `res += 127` or `res -= 1` is next
  | progress (result : Option ρ)
  | unlock (result : Option ρ)
  | done (result : Option ρ) (notified : Bool)

-- The word and the data, and ghost variables for what the locks of the other threads add up to and
-- for the timestamp without the operation of this thread.
structure State (τ ρ : Type) where
  res : BitVec 64
  data : τ
  pc : Pc ρ
  others : Fin 128
  stamp : Nat

structure Config (τ ρ : Type) where
  useRtm : Bool
  ack : Bool
  op : Op τ ρ

namespace State

def goto (s : State τ ρ) (pc : Pc ρ) : State τ ρ := { s with pc := pc }

end State

inductive Event (τ : Type) where
  -- other threads take and give back locks, advance the timestamp and write to the line
  | others (locks : Fin 128) (advances : Nat) (data : τ)
  | start
  -- a transaction starts, and commits or aborts with a status
  | stage1 (aborts : Bool)
  | fetchAdd
  -- whether the time limit is passed or the thread is to pause
  | check (leaves : Bool)
  | transaction (aborts : Option Nat)
  | internal
  | sharedLock
  | invoke
  | release

-- The first transaction, which reads the word too.
def stage1 (c : Config τ ρ) (s : State τ ρ) : State τ ρ :=
  if s.res &&& rsrvUniqueLock ≠ 0 then s.goto .stage2
  else
    match c.op with
    | .void op => { s with data := op s.data, res := s.res + 128, pc := .done none c.ack }
    | .boolean op test =>
        let (data, result) := op s.data
        if test result then
          { s with data := data, res := s.res + 128, pc := .done (some result) c.ack }
        else { s with data := data, pc := .done (some result) false }

-- The second one, with the shared lock in the word.
def transaction (c : Config τ ρ) (s : State τ ρ) : State τ ρ :=
  match c.op with
  | .void op => { s with data := op s.data, pc := .progress none }
  | .boolean op test =>
      let (data, result) := op s.data
      if test result then { s with data := data, pc := .progress (some result) }
      else { s with data := data, pc := .done (some result) false }

-- reservation_op_internal, with the other threads suspended.
def opInternal (c : Config τ ρ) (s : State τ ρ) : State τ ρ :=
  match c.op with
  | .void op => { s with data := op s.data, res := s.res + 127, pc := .done none c.ack }
  | .boolean op test =>
      let (data, result) := op s.data
      if test result then
        { s with data := data, res := s.res + 127, pc := .done (some result) c.ack }
      else { s with data := data, res := s.res - 1, pc := .done (some result) false }

-- The operation inside the writer lock.
def invoke (c : Config τ ρ) (s : State τ ρ) : State τ ρ :=
  match c.op with
  | .void op => { s with data := op s.data, pc := .progress none }
  | .boolean op test =>
      let (data, result) := op s.data
      if test result then { s with data := data, pc := .progress (some result) }
      else { s with data := data, pc := .unlock (some result) }

def step (c : Config τ ρ) (s : State τ ρ) : Event τ → Option (State τ ρ)
  | .others locks advances data =>
      some { s with
        res := s.res - BitVec.ofNat 64 s.others + BitVec.ofNat 64 locks +
          BitVec.ofNat 64 (128 * advances)
        data := data
        others := locks
        stamp := s.stamp + advances }
  | .start =>
      match s.pc with
      | .start => some (s.goto (if c.useRtm then .stage1 else .lock))
      | _ => none
  | .stage1 aborts =>
      match s.pc with
      | .stage1 => some (if aborts then s.goto .stage2 else stage1 c s)
      | _ => none
  | .fetchAdd =>
      match s.pc with
      | .stage2 => some { s with res := s.res + 1, pc := .loop s.res }
      | _ => none
  | .check leaves =>
      match s.pc with
      | .loop old =>
          some (s.goto (if old &&& rsrvUniqueLock ≠ 0 ∨ leaves then .stage3 else .transaction old))
      | _ => none
  | .transaction aborts =>
      match s.pc with
      | .transaction old =>
          match aborts with
          -- a status of zero ends the loop
          | some status => some (s.goto (if status = 0 then .stage3 else .loop old))
          | none => some (transaction c s)
      | _ => none
  | .internal =>
      match s.pc with
      | .stage3 => some (opInternal c s)
      | _ => none
  -- reservation_shared_lock_internal
  | .sharedLock =>
      match s.pc with
      | .lock =>
          if s.res &&& rsrvUniqueLock ≠ 0 then some s
          else some { s with res := s.res + 1, pc := .write }
      | _ => none
  | .invoke =>
      match s.pc with
      | .write => some (invoke c s)
      | _ => none
  | .release =>
      match s.pc with
      | .progress result => some { s with res := s.res + 127, pc := .done result c.ack }
      | .unlock result => some { s with res := s.res - 1, pc := .done result false }
      | _ => none

def Step (c : Config τ ρ) (s s' : State τ ρ) : Prop := ∃ event, step c s event = some s'

-- A call begins without a lock of this thread.
structure Started (s : State τ ρ) : Prop where
  pc : s.pc = .start
  res : s.res = BitVec.ofNat 64 (128 * s.stamp + s.others)

def Op.succeeded : Op τ ρ → Option ρ → Bool
  | .void _, _ => true
  | .boolean _ test, result => result.any test

-- The lock bits are those of the other threads, and the timestamp has advanced for this operation
-- exactly when it has succeeded.
structure Balanced (c : Config τ ρ) (s : State τ ρ) (result : Option ρ) : Prop where
  locks : (s.res &&& rsrvLockMask).toNat = s.others
  stamp : (s.res >>> 7).toNat = (s.stamp + if c.op.succeeded result then 1 else 0) % 2 ^ 57

-- The operation fails in a transaction that commits in the second stage.
def Leaks (c : Config τ ρ) (s : State τ ρ) : Event τ → Prop
  | .transaction none =>
      (∃ old, s.pc = .transaction old) ∧ match c.op with
        | .void _ => False
        | .boolean op test => test (op s.data).2 = false
  | _ => False

-- What the lock of this thread adds to the word.
def Pc.own : Pc ρ → Nat
  | .loop _ | .transaction _ | .stage3 | .write | .progress _ | .unlock _ => 1
  | _ => 0

def Pc.isDone : Pc ρ → Bool
  | .done _ _ => true
  | _ => false

-- The word that the ghost variables stand for.
def State.Holds (s : State τ ρ) (own : Nat) (advances : Nat) : Prop :=
  s.res = BitVec.ofNat 64 (128 * (s.stamp + advances) + s.others + own)

structure Invariant (c : Config τ ρ) (s : State τ ρ) : Prop where
  holds : s.pc.isDone = false → s.Holds s.pc.own 0
  progress : ∀ result, s.pc = .progress result → c.op.succeeded result = true
  unlock : ∀ result, s.pc = .unlock result → c.op.succeeded result = false

section Word

variable {c : Config τ ρ} {s s' : State τ ρ} {own advances : Nat}

theorem balanced_iff {result : Option ρ} : Balanced c s result ↔
    s.Holds 0 (if c.op.succeeded result then 1 else 0) := by
  have hlocks : (s.res &&& rsrvLockMask).toNat = s.res.toNat % 2 ^ 7 := by
    rw [BitVec.toNat_and]
    exact Nat.and_two_pow_sub_one_eq_mod s.res.toNat 7
  have hstamp : (s.res >>> 7).toNat = s.res.toNat / 2 ^ 7 := by
    rw [BitVec.toNat_ushiftRight, Nat.shiftRight_eq_div_pow]
  have hword := s.res.isLt
  have hothers := s.others.isLt
  generalize hadvances : (if c.op.succeeded result then 1 else 0) = advances
  constructor
  · rintro ⟨hl, hs⟩
    rw [hlocks] at hl
    rw [hstamp, hadvances] at hs
    apply BitVec.eq_of_toNat_eq
    rw [BitVec.toNat_ofNat]
    omega
  · intro h
    have htoNat := congrArg BitVec.toNat h
    rw [BitVec.toNat_ofNat] at htoNat
    constructor
    · rw [hlocks]
      omega
    · rw [hstamp, hadvances]
      omega

theorem State.Holds.add (h : s.Holds own advances) {own' advances' : Nat} (delta : Nat)
    (hres : s'.res = s.res + BitVec.ofNat 64 delta) (hothers : s'.others = s.others)
    (hstamp : s'.stamp = s.stamp) (hsum : 128 * advances' + own' = 128 * advances + own + delta) :
    s'.Holds own' advances' := by
  rw [State.Holds, hres, hothers, hstamp, h, ← BitVec.ofNat_add]
  congr 1
  omega

theorem State.Holds.sub (h : s.Holds (own + 1) advances) (hres : s'.res = s.res - 1)
    (hothers : s'.others = s.others) (hstamp : s'.stamp = s.stamp) : s'.Holds own advances := by
  rw [State.Holds, hres, hothers, hstamp, h, ← Nat.add_assoc, BitVec.ofNat_add _ 1]
  exact BitVec.add_sub_cancel _ _

-- The other threads change their part of the word only.
theorem State.Holds.others (h : s.Holds own advances) (locks : Fin 128) (more : Nat)
    (hres : s'.res = s.res - BitVec.ofNat 64 s.others + BitVec.ofNat 64 locks +
      BitVec.ofNat 64 (128 * more)) (hothers : s'.others = locks)
    (hstamp : s'.stamp = s.stamp + more) : s'.Holds own advances := by
  have hsplit : 128 * (s.stamp + advances) + s.others + own =
      128 * (s.stamp + advances) + own + s.others := by omega
  have hgoal : 128 * (s.stamp + more + advances) + locks + own =
      128 * (s.stamp + advances) + own + locks + 128 * more := by omega
  rw [State.Holds, hsplit, BitVec.ofNat_add] at h
  rw [State.Holds, hres, hothers, hstamp, h, hgoal, BitVec.add_sub_cancel, ← BitVec.ofNat_add,
    ← BitVec.ofNat_add]

theorem not_holds_of_left (h : s.Holds 1 0) : ¬s.Holds 0 0 := by
  intro h'
  have heq := congrArg BitVec.toNat (h.symm.trans h')
  rw [BitVec.toNat_ofNat, BitVec.toNat_ofNat] at heq
  omega

end Word

section Steps

variable {c : Config τ ρ} {s s' : State τ ρ} {event : Event τ}

-- A call that has returned is balanced unless it has leaked its lock.
def Result (c : Config τ ρ) (s s' : State τ ρ) (event : Event τ) : Prop :=
  ∀ result notified, s'.pc = .done result notified → (Balanced c s' result ↔ ¬Leaks c s event)

theorem Started.invariant (h : Started s) : Invariant c s := by
  refine ⟨fun _ => ?_, ?_, ?_⟩
  · rw [h.pc]
    exact h.res
  · intro result hpc
    rw [h.pc] at hpc
    cases hpc
  · intro result hpc
    rw [h.pc] at hpc
    cases hpc

-- The thread goes on without a change of the word.
theorem Invariant.goto (h : Invariant c s) (hopen : s.pc.isDone = false) {pc : Pc ρ}
    (hown : pc.own = s.pc.own) (hprogress : ∀ result, pc ≠ .progress result)
    (hunlock : ∀ result, pc ≠ .unlock result) : Invariant c (s.goto pc) := by
  refine ⟨fun _ => ?_, fun result hpc => absurd hpc (hprogress result),
    fun result hpc => absurd hpc (hunlock result)⟩
  have hholds := h.holds hopen
  rw [← hown] at hholds
  exact hholds

-- A return with the word that the result asks for.
theorem returned {result : Option ρ} {notified : Bool} (hpc : s'.pc = .done result notified)
    (hword : s'.Holds 0 (if c.op.succeeded result then 1 else 0)) (hleak : ¬Leaks c s event) :
    Invariant c s' ∧ Result c s s' event := by
  refine ⟨⟨?_, ?_, ?_⟩, ?_⟩
  · rw [hpc]
    nofun
  · rw [hpc]
    nofun
  · rw [hpc]
    nofun
  · intro result' notified' hpc'
    rw [hpc] at hpc'
    cases hpc'
    exact iff_of_true (balanced_iff.mpr hword) hleak

theorem not_returned (h : Invariant c s') (hopen : s'.pc.isDone = false) :
    Invariant c s' ∧ Result c s s' event := by
  refine ⟨h, fun result notified hpc => ?_⟩
  rw [hpc] at hopen
  cases hopen

theorem stage1_returned (hword : s.Holds 0 0) {aborts : Bool} (hpc : s.pc = .stage1)
    (h : Invariant c s) :
    Invariant c (stage1 c s) ∧ Result c s (stage1 c s) (.stage1 aborts) := by
  unfold stage1
  split_ifs with hlock
  · exact not_returned (h.goto (by rw [hpc]; rfl) (by rw [hpc]; rfl) nofun nofun) rfl
  · cases hop : c.op with
    | void op =>
        refine returned rfl ?_ nofun
        exact hword.add 128 rfl rfl rfl (by rw [hop]; rfl)
    | boolean op test =>
        dsimp only
        cases htest : test (op s.data).2 with
        | true =>
            rw [if_pos rfl]
            refine returned rfl ?_ nofun
            have hsucceeded : c.op.succeeded (some (op s.data).2) = true := by
              rw [hop]
              exact htest
            rw [hsucceeded]
            exact hword.add 128 rfl rfl rfl rfl
        | false =>
            rw [if_neg nofun]
            refine returned rfl ?_ nofun
            have hfailed : c.op.succeeded (some (op s.data).2) = false := by
              rw [hop]
              exact htest
            rw [hfailed]
            exact hword

theorem transaction_returned (hword : s.Holds 1 0) {old : BitVec 64}
    (hpc : s.pc = .transaction old) :
    Invariant c (transaction c s) ∧
      Result c s (transaction c s) (.transaction none) := by
  unfold transaction
  cases hop : c.op with
  | void op =>
      refine not_returned ⟨fun _ => hword, ?_, nofun⟩ rfl
      intro result _
      rw [hop]
      rfl
  | boolean op test =>
      dsimp only
      cases htest : test (op s.data).2 with
      | true =>
          rw [if_pos rfl]
          refine not_returned ⟨fun _ => hword, ?_, nofun⟩ rfl
          intro result hresult
          cases hresult
          rw [hop]
          exact htest
      | false =>
          -- the lock is still in the word
          rw [if_neg nofun]
          refine ⟨⟨nofun, nofun, nofun⟩, ?_⟩
          intro result notified hresult
          cases hresult
          have hfailed : c.op.succeeded (some (op s.data).2) = false := by
            rw [hop]
            exact htest
          refine iff_of_false ?_ ?_
          · rw [balanced_iff, hfailed]
            exact not_holds_of_left hword
          · intro hnot
            apply hnot
            refine ⟨⟨old, hpc⟩, ?_⟩
            simp only [hop]
            exact htest

theorem opInternal_returned (hword : s.Holds 1 0) :
    Invariant c (opInternal c s) ∧ Result c s (opInternal c s) .internal := by
  unfold opInternal
  cases hop : c.op with
  | void op =>
      refine returned rfl ?_ nofun
      exact hword.add 127 rfl rfl rfl (by rw [hop]; rfl)
  | boolean op test =>
      dsimp only
      cases htest : test (op s.data).2 with
      | true =>
          rw [if_pos rfl]
          refine returned rfl ?_ nofun
          have hsucceeded : c.op.succeeded (some (op s.data).2) = true := by
            rw [hop]
            exact htest
          rw [hsucceeded]
          exact hword.add 127 rfl rfl rfl rfl
      | false =>
          rw [if_neg nofun]
          refine returned rfl ?_ nofun
          have hfailed : c.op.succeeded (some (op s.data).2) = false := by
            rw [hop]
            exact htest
          rw [hfailed]
          exact hword.sub rfl rfl rfl

theorem invoke_kept (hword : s.Holds 1 0) :
    Invariant c (invoke c s) ∧ Result c s (invoke c s) .invoke := by
  unfold invoke
  cases hop : c.op with
  | void op =>
      refine not_returned ⟨fun _ => hword, ?_, nofun⟩ rfl
      intro result _
      rw [hop]
      rfl
  | boolean op test =>
      dsimp only
      cases htest : test (op s.data).2 with
      | true =>
          rw [if_pos rfl]
          refine not_returned ⟨fun _ => hword, ?_, nofun⟩ rfl
          intro result hresult
          cases hresult
          rw [hop]
          exact htest
      | false =>
          rw [if_neg nofun]
          refine not_returned ⟨fun _ => hword, nofun, ?_⟩ rfl
          intro result hresult
          cases hresult
          rw [hop]
          exact htest

theorem Invariant.step (h : Invariant c s) (hopen : s.pc.isDone = false)
    (hstep : step c s event = some s') : Invariant c s' ∧ Result c s s' event := by
  have hword := h.holds hopen
  cases event with
  | others locks advances data =>
      cases hstep
      refine not_returned ⟨fun _ => ?_, h.progress, h.unlock⟩ hopen
      exact hword.others locks advances rfl rfl rfl
  | start =>
      cases hpc : s.pc with
      | start =>
          simp only [ReservationOp.step, hpc] at hstep
          cases hstep
          split_ifs
          · exact not_returned (h.goto hopen (by rw [hpc]; rfl) nofun nofun) rfl
          · exact not_returned (h.goto hopen (by rw [hpc]; rfl) nofun nofun) rfl
      | _ => simp [ReservationOp.step, hpc] at hstep
  | stage1 aborts =>
      cases hpc : s.pc with
      | stage1 =>
          simp only [ReservationOp.step, hpc] at hstep
          cases hstep
          rw [hpc] at hword
          split_ifs
          · exact not_returned (h.goto hopen (by rw [hpc]; rfl) nofun nofun) rfl
          · exact stage1_returned hword hpc h
      | _ => simp [ReservationOp.step, hpc] at hstep
  | fetchAdd =>
      cases hpc : s.pc with
      | stage2 =>
          simp only [ReservationOp.step, hpc] at hstep
          cases hstep
          rw [hpc] at hword
          exact not_returned ⟨fun _ => hword.add 1 rfl rfl rfl rfl, nofun, nofun⟩ rfl
      | _ => simp [ReservationOp.step, hpc] at hstep
  | check leaves =>
      cases hpc : s.pc with
      | loop old =>
          simp only [ReservationOp.step, hpc] at hstep
          cases hstep
          split_ifs
          · exact not_returned (h.goto hopen (by rw [hpc]; rfl) nofun nofun) rfl
          · exact not_returned (h.goto hopen (by rw [hpc]; rfl) nofun nofun) rfl
      | _ => simp [ReservationOp.step, hpc] at hstep
  | transaction aborts =>
      cases hpc : s.pc with
      | transaction old =>
          cases aborts with
          | some status =>
              simp only [ReservationOp.step, hpc] at hstep
              cases hstep
              split_ifs
              · exact not_returned (h.goto hopen (by rw [hpc]; rfl) nofun nofun) rfl
              · exact not_returned (h.goto hopen (by rw [hpc]; rfl) nofun nofun) rfl
          | none =>
              simp only [ReservationOp.step, hpc] at hstep
              cases hstep
              rw [hpc] at hword
              exact transaction_returned hword hpc
      | _ => simp [ReservationOp.step, hpc] at hstep
  | internal =>
      cases hpc : s.pc with
      | stage3 =>
          simp only [ReservationOp.step, hpc] at hstep
          cases hstep
          rw [hpc] at hword
          exact opInternal_returned hword
      | _ => simp [ReservationOp.step, hpc] at hstep
  | sharedLock =>
      cases hpc : s.pc with
      | lock =>
          simp only [ReservationOp.step, hpc] at hstep
          split_ifs at hstep
          · cases hstep
            exact not_returned h hopen
          · cases hstep
            rw [hpc] at hword
            exact not_returned ⟨fun _ => hword.add 1 rfl rfl rfl rfl, nofun, nofun⟩ rfl
      | _ => simp [ReservationOp.step, hpc] at hstep
  | invoke =>
      cases hpc : s.pc with
      | write =>
          simp only [ReservationOp.step, hpc] at hstep
          cases hstep
          rw [hpc] at hword
          exact invoke_kept hword
      | _ => simp [ReservationOp.step, hpc] at hstep
  | release =>
      cases hpc : s.pc with
      | progress result =>
          simp only [ReservationOp.step, hpc] at hstep
          cases hstep
          rw [hpc] at hword
          refine returned rfl ?_ nofun
          rw [h.progress result hpc]
          exact hword.add 127 rfl rfl rfl rfl
      | unlock result =>
          simp only [ReservationOp.step, hpc] at hstep
          cases hstep
          rw [hpc] at hword
          refine returned rfl ?_ nofun
          rw [h.unlock result hpc]
          exact hword.sub rfl rfl rfl
      | _ => simp [ReservationOp.step, hpc] at hstep

-- A call that has returned stays so.
theorem isDone_step (hdone : s.pc.isDone = true) (hstep : step c s event = some s') :
    s'.pc.isDone = true := by
  cases hpc : s.pc with
  | done result notified =>
      cases event with
      | others locks advances data =>
          cases hstep
          exact hdone
      | _ => simp [ReservationOp.step, hpc] at hstep
  | _ =>
      rw [hpc] at hdone
      cases hdone

end Steps

-- A call returns balanced exactly when it does not return from a failed operation in the second
-- transaction.
theorem reservation_op_balanced_iff {c : Config τ ρ} {start s s' : State τ ρ} {event : Event τ}
    (hstart : Started start) (hrun : Relation.ReflTransGen (Step c) start s)
    (hopen : s.pc.isDone = false) (hstep : step c s event = some s') {result : Option ρ}
    {notified : Bool} (hreturn : s'.pc = .done result notified) :
    Balanced c s' result ↔ ¬Leaks c s event := by
  have hinv : s.pc.isDone = true ∨ Invariant c s := by
    apply Interleaving.invariant_of_reachable (.inr hstart.invariant) _ hrun
    rintro t t' ht ⟨event, hevent⟩
    rcases ht with hdone | ht
    · exact .inl (isDone_step hdone hevent)
    · cases hdone : t.pc.isDone with
      | true => exact .inl (isDone_step hdone hevent)
      | false => exact .inr (ht.step hdone hevent).1
  rcases hinv with hdone | hinv
  · rw [hopen] at hdone
    cases hdone
  · exact (hinv.step hopen hstep).2 result notified hreturn

-- A free line with a counter, and operations on it: one that counts, and one that declines.
def freeLine : State Nat Bool := ⟨128, 5, .start, 0, 1⟩

def counting : Config Nat Bool := ⟨false, true, .boolean (fun n => (n + 1, true)) id⟩

def declining : Config Nat Bool := ⟨true, true, .boolean (fun n => (n, false)) id⟩

theorem reachable_of_events {c : Config τ ρ} {events : List (Event τ)} {start s : State τ ρ}
    (h : events.foldlM (step c) start = some s) : Relation.ReflTransGen (Step c) start s :=
  Interleaving.reachable_of_foldlM (fun _ event _ hstep => ⟨event, hstep⟩) h

theorem freeLine_started : Started freeLine := ⟨rfl, rfl⟩

theorem reservation_op_balanced_iff_counting : ∃ s s' : State Nat Bool,
    step counting s .release = some s' ∧ s'.pc = .done (some true) true ∧
      (Balanced counting s' (some true) ↔ ¬Leaks counting s .release) := by
  obtain ⟨s, s', hrun, hopen, hstep, hreturn⟩ : ∃ s s',
      [.start, .sharedLock, .invoke].foldlM (step counting) freeLine = some s ∧
      s.pc.isDone = false ∧ step counting s .release = some s' ∧
      s'.pc = .done (some true) true := ⟨_, _, rfl, rfl, rfl, rfl⟩
  exact ⟨s, s', hstep, hreturn, reservation_op_balanced_iff freeLine_started
    (reachable_of_events hrun) hopen hstep hreturn⟩

-- The first transaction aborts, the second one commits with an operation that declines.
theorem declined_lock_stays : ¬∀ (c : Config Nat Bool) (start s : State Nat Bool)
    (result : Option Bool) (notified : Bool), Started start →
      Relation.ReflTransGen (Step c) start s → s.pc = .done result notified → Balanced c s result := by
  intro hclaim
  obtain ⟨s, hrun, hreturn, hlocks, hothers⟩ : ∃ s,
      [.start, .stage1 true, .fetchAdd, .check false, .transaction none].foldlM (step declining)
        freeLine = some s ∧ s.pc = .done (some false) false ∧
      (s.res &&& rsrvLockMask).toNat = 1 ∧ s.others = 0 := ⟨_, rfl, rfl, rfl, rfl⟩
  have hreach := reachable_of_events hrun
  have hbalanced := hclaim declining freeLine s _ _ freeLine_started hreach hreturn
  have hzero := hbalanced.locks
  rw [hlocks, hothers] at hzero
  exact absurd hzero (by decide)

end Rpcsx.Vm.ReservationOp
