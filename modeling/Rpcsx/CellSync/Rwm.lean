import Mathlib.Data.BitVec
import Mathlib.Data.List.Basic
import Mathlib.Logic.Function.Basic
import Rpcsx.CellSync
import Rpcsx.Data.Interleaving

namespace Rpcsx.CellSync.Rwm

structure Ctrl where
  readers : BitVec 16
  writers : BitVec 16
deriving DecidableEq

def tryReadBegin (ctrl : Ctrl) : Bool × Ctrl :=
  if ctrl.writers ≠ 0 then (false, ctrl) else (true, { ctrl with readers := ctrl.readers + 1 })

def tryReadEnd (ctrl : Ctrl) : Bool × Ctrl :=
  if ctrl.readers = 0 then (false, ctrl) else (true, { ctrl with readers := ctrl.readers - 1 })

def tryWriteBegin (ctrl : Ctrl) : Bool × Ctrl :=
  if ctrl.writers ≠ 0 then (false, ctrl) else (true, { ctrl with writers := 1 })

-- Where a thread stands; a finished read has its copy of the buffer.
inductive Pc where
  | idle (result : Code) (copy : Option (List UInt8))
  | readLoop
  -- in the copy out of the buffer, with the bytes that it has
  | reading (copied : List UInt8)
  | writeLoop (source : List UInt8)
  -- `writers` is set, readers may be left
  | claimed (source : List UInt8)
  -- in the copy into the buffer, `k` bytes are there
  | writing (source : List UInt8) (k : Nat)
  | stopped (claim : Bool)

inductive Call where
  | read
  | write (source : List UInt8)

-- The object with its buffer, the threads, and a ghost list of the contents that complete writes
-- have given the buffer, the latest last.
structure State (ι : Type) where
  ctrl : Ctrl
  buffer : List UInt8
  threads : ι → Pc
  versions : List (List UInt8)

inductive Action (ι : Type) where
  -- cellSyncRwmRead and cellSyncRwmWrite
  | call (i : ι) (c : Call)
  -- cellSyncRwmTryRead and cellSyncRwmTryWrite
  | tryCall (i : ι) (c : Call)
  -- `stop` is what test_stopped answers
  | advance (i : ι) (stop : Bool)

namespace State

variable {ι : Type}

-- cellSyncRwmInitialize
def start (buffer : List UInt8) : State ι :=
  ⟨⟨0, 0⟩, buffer, fun _ => .idle .ok none, [buffer]⟩

variable [DecidableEq ι]

def goto (s : State ι) (i : ι) (pc : Pc) : State ι :=
  { s with threads := Function.update s.threads i pc }

@[simp] theorem goto_self (s : State ι) (i : ι) (pc : Pc) : (s.goto i pc).threads i = pc :=
  Function.update_self ..

theorem goto_of_ne (s : State ι) {i j : ι} (pc : Pc) (hj : j ≠ i) :
    (s.goto i pc).threads j = s.threads j := Function.update_of_ne hj ..

def advance (s : State ι) (i : ι) (stop : Bool) : Option (State ι) :=
  match s.threads i with
  | .idle _ _ | .stopped _ => none
  | .readLoop =>
      let (begun, ctrl) := tryReadBegin s.ctrl
      if begun then some { s.goto i (.reading []) with ctrl := ctrl }
      else some (if stop then s.goto i (.stopped false) else s)
  | .reading copied =>
      match s.buffer[copied.length]? with
      | some byte => some (s.goto i (.reading (copied ++ [byte])))
      | none =>
          let (ended, ctrl) := tryReadEnd s.ctrl
          if ended then some { s.goto i (.idle .ok (some copied)) with ctrl := ctrl }
          else some (s.goto i (.idle .abort none))
  | .writeLoop source =>
      let (begun, ctrl) := tryWriteBegin s.ctrl
      if begun then some { s.goto i (.claimed source) with ctrl := ctrl }
      else some (if stop then s.goto i (.stopped false) else s)
  | .claimed source =>
      if s.ctrl.readers ≠ 0 then some (if stop then s.goto i (.stopped true) else s)
      else some (s.goto i (.writing source 0))
  | .writing source k =>
      match source[k]? with
      | some byte => some { s.goto i (.writing source (k + 1)) with buffer := s.buffer.set k byte }
      -- the exchange
      | none =>
          some { s.goto i (.idle .ok none) with
            ctrl := ⟨0, 0⟩
            versions := s.versions ++ [source] }

def tryCall (s : State ι) (i : ι) : Call → State ι
  | .read =>
      let (begun, ctrl) := tryReadBegin s.ctrl
      if begun then { s.goto i (.reading []) with ctrl := ctrl } else s.goto i (.idle .busy none)
  | .write source =>
      if s.ctrl = ⟨0, 0⟩ then { s.goto i (.writing source 0) with ctrl := ⟨0, 1⟩ }
      else s.goto i (.idle .busy none)

end State

def Pc.isIdle : Pc → Bool
  | idle _ _ => true
  | _ => false

-- A write copies as many bytes as the buffer has.
def Call.Fits (size : Nat) : Call → Prop
  | read => True
  | write source => source.length = size

instance (size : Nat) : (c : Call) → Decidable (c.Fits size)
  | .read => .isTrue trivial
  | .write source => inferInstanceAs (Decidable (source.length = size))

def Call.start : Call → Pc
  | read => .readLoop
  | write source => .writeLoop source

section Step

variable {ι : Type} [DecidableEq ι]

def step (s : State ι) : Action ι → Option (State ι)
  | .call i c =>
      if (s.threads i).isIdle ∧ c.Fits s.buffer.length then some (s.goto i c.start) else none
  | .tryCall i c =>
      if (s.threads i).isIdle ∧ c.Fits s.buffer.length then some (s.tryCall i c) else none
  | .advance i stop => s.advance i stop

def Step (s s' : State ι) : Prop := ∃ action, step s action = some s'

end Step

-- Between read_begin and read_end.
def Pc.reads : Pc → Nat
  | reading _ => 1
  | _ => 0

def Pc.writes : Pc → Bool
  | writing _ _ => true
  | _ => false

-- Since write_begin; a writer that is stopped keeps its claim.
def Pc.claims : Pc → Bool
  | claimed _ | writing _ _ | stopped true => true
  | _ => false

structure Sound {ι : Type} [Fintype ι] (s : State ι) : Prop where
  exclusive : ∀ i j, (s.threads i).writes = true → (s.threads j).reads = 0
  one_claim : ∀ i j, (s.threads i).claims = true → (s.threads j).claims = true → i = j
  readers : s.ctrl.readers.toNat = Data.Interleaving.total Pc.reads s.threads
  writers : s.ctrl.writers ≠ 0 ↔ ∃ i, (s.threads i).claims = true
  no_abort : ∀ i copy, s.threads i ≠ .idle .abort copy
  whole : ∀ i code copy, s.threads i = .idle code (some copy) → copy ∈ s.versions

section Invariant

open Data.Interleaving

variable {ι : Type} {s s' : State ι} {owner : Option ι} {latest : List UInt8} {i j : ι} {pc : Pc}

-- What a thread has of the buffer, whose last complete contents are `latest`.
def ThreadOk (buffer latest : List UInt8) (versions : List (List UInt8)) : Pc → Prop
  | .idle code copy => code ≠ .abort ∧ ∀ c, copy = some c → c ∈ versions
  | .reading copied => copied = latest.take copied.length ∧ copied.length ≤ latest.length
  | .writeLoop source | .claimed source => source.length = latest.length
  | .writing source k =>
      source.length = latest.length ∧ k ≤ latest.length ∧ buffer = source.take k ++ latest.drop k
  | .readLoop | .stopped _ => True

-- A thread that is not in a copy does not see the buffer.
theorem ThreadOk.outside {buffer buffer' latest' : List UInt8} {versions versions' : List (List UInt8)}
    (h : ThreadOk buffer latest versions pc) (hreads : pc.reads = 0) (hwrites : pc.writes = false)
    (hlength : latest'.length = latest.length) (hversions : versions ⊆ versions') :
    ThreadOk buffer' latest' versions' pc := by
  cases pc with
  | idle code copy => exact ⟨h.1, fun c hc => hversions (h.2 c hc)⟩
  | readLoop | stopped claim => trivial
  | writeLoop source | claimed source => exact h.trans hlength.symm
  | reading copied => cases hreads
  | writing source k => cases hwrites

-- `owner` is the writer since write_begin.
structure Invariant [Fintype ι] (s : State ι) (owner : Option ι) (latest : List UInt8) : Prop where
  claims : Exclusive Pc.claims s.threads owner
  writers : s.ctrl.writers = if owner.isSome then 1 else 0
  readers : s.ctrl.readers.toNat = total Pc.reads s.threads
  drained : ∀ i, (s.threads i).writes = true → s.ctrl.readers = 0
  complete : latest ∈ s.versions
  size : s.buffer.length = latest.length
  whole : (∀ i, (s.threads i).writes = false) → s.buffer = latest
  threads : ∀ i, ThreadOk s.buffer latest s.versions (s.threads i)

theorem Pc.claims_of_writes (h : pc.writes = true) : pc.claims = true := by
  cases pc with
  | writing source k => rfl
  | _ => cases h

theorem Pc.reads_le_one (pc : Pc) : pc.reads ≤ 1 := by
  cases pc <;> simp [Pc.reads]

theorem not_writes_of_not_claims (h : pc.claims = false) : pc.writes = false := by
  cases hw : pc.writes with
  | false => rfl
  | true => exact absurd (Pc.claims_of_writes hw) (by rw [h]; nofun)

variable [Fintype ι] [DecidableEq ι]

theorem Invariant.not_reads (h : Invariant s owner latest) (hzero : s.ctrl.readers = 0) (i : ι) :
    (s.threads i).reads = 0 := by
  have hle := le_total Pc.reads s.threads i
  rw [← h.readers, hzero] at hle
  exact Nat.le_zero.mp hle

theorem Invariant.not_writes_of_reads (h : Invariant s owner latest)
    (hi : (s.threads i).reads = 1) (j : ι) : (s.threads j).writes = false := by
  cases hw : (s.threads j).writes with
  | false => rfl
  | true =>
      have hzero := h.not_reads (h.drained j hw) i
      rw [hi] at hzero
      cases hzero

omit [DecidableEq ι] in
theorem Invariant.not_claims (h : Invariant s owner latest) (hzero : s.ctrl.writers = 0) :
    owner = none := by
  have hwriters := h.writers
  rw [hzero] at hwriters
  cases owner with
  | none => rfl
  | some i => cases hwriters

theorem Invariant.sound (h : Invariant s owner latest) : Sound s where
  exclusive i j hi := h.not_reads (h.drained i hi) j
  one_claim i j hi hj := by
    have hsame := ((h.claims i).mp hi).symm.trans ((h.claims j).mp hj)
    exact Option.some.inj hsame
  readers := h.readers
  writers := by
    rw [h.writers]
    cases owner with
    | none =>
        refine ⟨fun hne => absurd rfl hne, ?_⟩
        rintro ⟨i, hi⟩
        cases (h.claims i).mp hi
    | some i =>
        have hone : (1 : BitVec 16) ≠ 0 := by decide
        exact ⟨fun _ => ⟨i, (h.claims i).mpr rfl⟩, fun _ => hone⟩
  no_abort i copy hi := by
    have hok := h.threads i
    rw [hi] at hok
    exact hok.1 rfl
  whole i code copy hi := by
    have hok := h.threads i
    rw [hi] at hok
    exact hok.2 copy rfl

-- A step of one thread that changes neither the counts nor the buffer.
theorem Invariant.goto (h : Invariant s owner latest) (hreads : pc.reads = (s.threads i).reads)
    (hclaims : pc.claims = (s.threads i).claims) (hwrites : pc.writes = (s.threads i).writes)
    (hok : ThreadOk s.buffer latest s.versions pc) : Invariant (s.goto i pc) owner latest where
  claims j := by
    rw [← h.claims j]
    by_cases hj : j = i
    · rw [hj, State.goto_self, hclaims]
    · rw [State.goto_of_ne s pc hj]
  writers := h.writers
  readers := by
    rw [State.goto, total_update, hreads, ← total_eq]
    exact h.readers
  drained := by
    refine (Function.forall_update_iff s.threads fun _ p => p.writes = true → _).mpr ⟨?_, ?_⟩
    · rw [hwrites]
      exact h.drained i
    · exact fun j _ => h.drained j
  complete := h.complete
  size := h.size
  whole hnone := by
    refine h.whole fun j => ?_
    have hj : ((s.goto i pc).threads j).writes = false := hnone j
    by_cases hji : j = i
    · rw [hji, State.goto_self, hwrites] at hj
      rw [hji]
      exact hj
    · rw [State.goto_of_ne s pc hji] at hj
      exact hj
  threads := (Function.forall_update_iff s.threads fun _ => _).mpr ⟨hok, fun j _ => h.threads j⟩

theorem Invariant.readBegin (h : Invariant s owner latest) (hcard : Fintype.card ι < 65536)
    (hreads : (s.threads i).reads = 0) (hclaims : (s.threads i).claims = false)
    (hzero : s.ctrl.writers = 0) :
    Invariant { s.goto i (.reading []) with
      ctrl := { s.ctrl with readers := s.ctrl.readers + 1 } } owner latest where
  claims := h.claims.outside hclaims rfl
  writers := h.writers
  readers := by
    have hlt := others_lt_card Pc.reads s.threads i Pc.reads_le_one
    have hold := total_eq Pc.reads s.threads i
    have hreaders := h.readers
    rw [State.goto, total_update, BitVec.toNat_add]
    change (s.ctrl.readers.toNat + 1) % 65536 = _ + 1
    omega
  drained := by
    refine (Function.forall_update_iff s.threads fun _ p => p.writes = true → _).mpr ⟨nofun, ?_⟩
    intro j _ hj
    have howner := (h.claims j).mp (Pc.claims_of_writes hj)
    rw [h.not_claims hzero] at howner
    cases howner
  complete := h.complete
  size := h.size
  whole hnone := by
    refine h.whole fun j => ?_
    have hj : ((s.goto i (.reading [])).threads j).writes = false := hnone j
    by_cases hji : j = i
    · rw [hji]
      exact not_writes_of_not_claims hclaims
    · rw [State.goto_of_ne s _ hji] at hj
      exact hj
  threads := (Function.forall_update_iff s.threads fun _ => _).mpr
    ⟨⟨rfl, Nat.zero_le _⟩, fun j _ => h.threads j⟩

theorem Invariant.readEnd (h : Invariant s owner latest) {copied : List UInt8}
    (hi : s.threads i = .reading copied) (hcopied : copied ∈ s.versions) :
    Invariant { s.goto i (.idle .ok (some copied)) with
      ctrl := { s.ctrl with readers := s.ctrl.readers - 1 } } owner latest where
  claims := h.claims.outside (by rw [hi]; rfl) rfl
  writers := h.writers
  readers := by
    have hold := total_eq Pc.reads s.threads i
    have hreaders := h.readers
    have hbound := s.ctrl.readers.isLt
    rw [hi] at hold
    change _ = _ + 1 at hold
    rw [State.goto, total_update, BitVec.toNat_sub]
    change (65536 - 1 + s.ctrl.readers.toNat) % 65536 = _ + 0
    omega
  drained := by
    refine (Function.forall_update_iff s.threads fun _ p => p.writes = true → _).mpr ⟨nofun, ?_⟩
    intro j _ hj
    rw [h.not_writes_of_reads (by rw [hi]; rfl) j] at hj
    cases hj
  complete := h.complete
  size := h.size
  whole hnone := h.whole (h.not_writes_of_reads (by rw [hi]; rfl))
  threads := (Function.forall_update_iff s.threads fun _ => _).mpr
    ⟨⟨nofun, fun c hc => Option.some.inj hc ▸ hcopied⟩, fun j _ => h.threads j⟩

theorem Invariant.writeBegin (h : Invariant s owner latest) {source : List UInt8}
    (hreads : (s.threads i).reads = 0) (hzero : s.ctrl.writers = 0)
    (hsource : source.length = latest.length) {ctrl : Ctrl}
    (hctrl : ctrl = { s.ctrl with writers := 1 })
    (hpc : pc = .claimed source ∨ (pc = .writing source 0 ∧ s.ctrl.readers = 0)) :
    Invariant { s.goto i pc with ctrl := ctrl } (some i) latest where
  claims := by
    have howner := h.claims.owner (t := pc) (i := i) (Or.inl (h.not_claims hzero))
    have hclaims : pc.claims = true := by
      rcases hpc with hpc | ⟨hpc, -⟩ <;> rw [hpc] <;> rfl
    rw [hclaims] at howner
    exact howner
  writers := by
    rw [hctrl]
    rfl
  readers := by
    have hpcreads : pc.reads = 0 := by
      rcases hpc with hpc | ⟨hpc, -⟩ <;> rw [hpc] <;> rfl
    rw [hctrl, State.goto, total_update, hpcreads, ← hreads, ← total_eq]
    exact h.readers
  drained := by
    rw [hctrl]
    refine (Function.forall_update_iff s.threads fun _ p => p.writes = true → _).mpr ⟨?_, ?_⟩
    · intro hwrites
      rcases hpc with hpc | ⟨-, hreaders⟩
      · rw [hpc] at hwrites
        cases hwrites
      · exact hreaders
    · exact fun j _ => h.drained j
  complete := h.complete
  size := h.size
  whole _ := by
    refine h.whole fun j => not_writes_of_not_claims ?_
    cases hc : (s.threads j).claims with
    | false => rfl
    | true =>
        have howner := (h.claims j).mp hc
        rw [h.not_claims hzero] at howner
        cases howner
  threads := by
    refine (Function.forall_update_iff s.threads fun _ => _).mpr ⟨?_, fun j _ => h.threads j⟩
    rcases hpc with hpc | ⟨hpc, -⟩ <;> rw [hpc]
    · exact hsource
    · refine ⟨hsource, Nat.zero_le _, ?_⟩
      rw [List.take_zero, List.drop_zero, List.nil_append]
      refine h.whole fun j => not_writes_of_not_claims ?_
      cases hc : (s.threads j).claims with
      | false => rfl
      | true =>
          have howner := (h.claims j).mp hc
          rw [h.not_claims hzero] at howner
          cases howner

-- The others while a thread is in its copy into the buffer.
theorem Invariant.others (h : Invariant s owner latest) (hi : (s.threads i).writes = true)
    (hj : j ≠ i) : (s.threads j).reads = 0 ∧ (s.threads j).writes = false := by
  refine ⟨h.not_reads (h.drained i hi) j, not_writes_of_not_claims ?_⟩
  exact h.claims.not_holds_of_ne (Or.inr ((h.claims i).mp (Pc.claims_of_writes hi))) hj

theorem Invariant.writeByte (h : Invariant s owner latest) {source : List UInt8} {k : Nat}
    {byte : UInt8} (hi : s.threads i = .writing source k) (hbyte : source[k]? = some byte) :
    Invariant { s.goto i (.writing source (k + 1)) with buffer := s.buffer.set k byte }
      owner latest := by
  have hok := h.threads i
  rw [hi] at hok
  obtain ⟨hsource, hk, hbuffer⟩ := hok
  obtain ⟨hlt, hget⟩ := List.getElem?_eq_some_iff.mp hbyte
  have hwrites : (s.threads i).writes = true := by rw [hi]; rfl
  have hnext : ThreadOk (s.buffer.set k byte) latest s.versions (.writing source (k + 1)) := by
    refine ⟨hsource, by omega, ?_⟩
    have hdrop : latest.drop k = latest[k] :: latest.drop (k + 1) :=
      List.drop_eq_getElem_cons (by omega)
    have htake : (source.take k).length = k := by
      rw [List.length_take]
      omega
    rw [hbuffer, List.set_append_right _ _ (by omega), htake, Nat.sub_self, hdrop,
      List.set_cons_zero, List.take_add_one, hbyte, List.append_assoc]
    rfl
  refine ⟨?_, h.writers, ?_, ?_, h.complete, ?_, ?_, ?_⟩
  · intro j
    rw [← h.claims j]
    by_cases hj : j = i
    · dsimp only
      rw [hj, State.goto_self, hi]
      rfl
    · dsimp only
      rw [State.goto_of_ne s _ hj]
  · have hreads : Pc.reads (.writing source (k + 1)) = (s.threads i).reads := by rw [hi]; rfl
    dsimp only
    rw [State.goto, total_update, hreads, ← total_eq]
    exact h.readers
  · intro j _
    exact h.drained i hwrites
  · dsimp only
    rw [List.length_set]
    exact h.size
  · intro hnone
    have hfalse : ((s.goto i (.writing source (k + 1))).threads i).writes = false := hnone i
    rw [State.goto_self] at hfalse
    cases hfalse
  · refine (Function.forall_update_iff s.threads fun _ => _).mpr ⟨hnext, fun j hj => ?_⟩
    obtain ⟨hreads, hother⟩ := h.others hwrites hj
    exact (h.threads j).outside hreads hother rfl (List.Subset.refl _)

-- A writer finds that the readers have gone.
theorem Invariant.startWriting (h : Invariant s owner latest) {source : List UInt8}
    (hi : s.threads i = .claimed source) (hzero : s.ctrl.readers = 0) :
    Invariant (s.goto i (.writing source 0)) owner latest := by
  have hok := h.threads i
  rw [hi] at hok
  have howner : owner = some i := (h.claims i).mp (by rw [hi]; rfl)
  have hnone : ∀ j, (s.threads j).writes = false := by
    intro j
    by_cases hj : j = i
    · rw [hj, hi]
      rfl
    · exact not_writes_of_not_claims (h.claims.not_holds_of_ne (Or.inr howner) hj)
  refine ⟨?_, h.writers, ?_, fun _ _ => hzero, h.complete, h.size, fun _ => h.whole hnone, ?_⟩
  · have hclaims := h.claims.owner (t := .writing source 0) (Or.inr howner)
    rw [howner]
    exact hclaims
  · have hreads : Pc.reads (.writing source 0) = (s.threads i).reads := by rw [hi]; rfl
    rw [State.goto, total_update, hreads, ← total_eq]
    exact h.readers
  · refine (Function.forall_update_iff s.threads fun _ => _).mpr
      ⟨⟨hok, Nat.zero_le _, ?_⟩, fun j _ => h.threads j⟩
    exact h.whole hnone

-- The exchange of a writer.
theorem Invariant.writeEnd (h : Invariant s owner latest) {source : List UInt8} {k : Nat}
    (hi : s.threads i = .writing source k) (hend : source[k]? = none) :
    Invariant { s.goto i (.idle .ok none) with
      ctrl := ⟨0, 0⟩
      versions := s.versions ++ [source] } none source := by
  have hok := h.threads i
  rw [hi] at hok
  obtain ⟨hsource, hk, hbuffer⟩ := hok
  have hle := List.getElem?_eq_none_iff.mp hend
  have hwrites : (s.threads i).writes = true := by rw [hi]; rfl
  have howner := (h.claims i).mp (Pc.claims_of_writes hwrites)
  refine ⟨h.claims.owner (Or.inr howner), rfl, ?_, ?_, ?_, ?_, ?_, ?_⟩
  · have hzero := h.readers
    have hreads : Pc.reads (.idle .ok none) = (s.threads i).reads := by rw [hi]; rfl
    dsimp only
    rw [State.goto, total_update, hreads, ← total_eq, ← hzero, h.drained i hwrites]
  · intro j _
    rfl
  · exact List.mem_append_right _ List.mem_cons_self
  · exact h.size.trans hsource.symm
  · intro _
    change s.buffer = source
    rw [hbuffer, List.take_of_length_le hle, List.drop_of_length_le (by omega), List.append_nil]
  · refine (Function.forall_update_iff s.threads fun _ => _).mpr ⟨⟨nofun, nofun⟩, fun j hj => ?_⟩
    obtain ⟨hreads, hother⟩ := h.others hwrites hj
    exact (h.threads j).outside hreads hother hsource (List.subset_append_left _ _)

end Invariant

section Run

open Data.Interleaving

variable {ι : Type} [Fintype ι] [DecidableEq ι] {s s' : State ι} {owner : Option ι}
  {latest : List UInt8} {i : ι}

theorem reads_eq_zero_of_idle {pc : Pc} (h : pc.isIdle = true) :
    pc.reads = 0 ∧ pc.claims = false ∧ pc.writes = false := by
  cases pc with
  | idle code copy => exact ⟨rfl, rfl, rfl⟩
  | _ => cases h

theorem Invariant.advance (h : Invariant s owner latest) (hcard : Fintype.card ι < 65536)
    {stop : Bool} (hstep : s.advance i stop = some s') :
    ∃ owner latest, Invariant s' owner latest := by
  unfold State.advance at hstep
  have hok := h.threads i
  split at hstep
  · cases hstep
  · cases hstep
  · rename_i hi
    simp only [tryReadBegin] at hstep
    split at hstep
    · cases hstep
      refine ⟨owner, latest, ?_⟩
      split
      · exact h.goto (by rw [hi]; rfl) (by rw [hi]; rfl) (by rw [hi]; rfl) trivial
      · exact h
    · rename_i hzero
      cases hstep
      exact ⟨owner, latest, h.readBegin hcard (by rw [hi]; rfl) (by rw [hi]; rfl)
        (not_not.mp hzero)⟩
  · rename_i copied hi
    rw [hi] at hok
    obtain ⟨hcopied, hle⟩ := hok
    have hbuffer : s.buffer = latest := h.whole (h.not_writes_of_reads (by rw [hi]; rfl))
    split at hstep
    · rename_i byte hbyte
      cases hstep
      rw [hbuffer] at hbyte
      refine ⟨owner, latest, h.goto (by rw [hi]; rfl) (by rw [hi]; rfl) (by rw [hi]; rfl) ?_⟩
      obtain ⟨hlt, -⟩ := List.getElem?_eq_some_iff.mp hbyte
      have hlength : (copied ++ [byte]).length = copied.length + 1 := List.length_append
      constructor
      · rw [hlength, List.take_add_one, ← hcopied, hbyte]
        rfl
      · omega
    · rename_i hend
      have hall : copied = latest := by
        rw [hbuffer, List.getElem?_eq_none_iff] at hend
        rw [hcopied, List.take_of_length_le hend]
      have hpos : s.ctrl.readers ≠ 0 := by
        intro hzero
        have hreads := h.not_reads hzero i
        rw [hi] at hreads
        cases hreads
      simp only [tryReadEnd, if_neg hpos] at hstep
      cases hstep
      exact ⟨owner, latest, h.readEnd hi (by rw [hall]; exact h.complete)⟩
  · rename_i source hi
    rw [hi] at hok
    simp only [tryWriteBegin] at hstep
    split at hstep
    · cases hstep
      refine ⟨owner, latest, ?_⟩
      split
      · exact h.goto (by rw [hi]; rfl) (by rw [hi]; rfl) (by rw [hi]; rfl) trivial
      · exact h
    · rename_i hzero
      cases hstep
      exact ⟨some i, latest, h.writeBegin (by rw [hi]; rfl) (not_not.mp hzero) hok rfl
        (Or.inl rfl)⟩
  · rename_i source hi
    rw [hi] at hok
    split at hstep
    · cases hstep
      refine ⟨owner, latest, ?_⟩
      split
      · exact h.goto (by rw [hi]; rfl) (by rw [hi]; rfl) (by rw [hi]; rfl) trivial
      · exact h
    · rename_i hzero
      cases hstep
      exact ⟨owner, latest, h.startWriting hi (not_not.mp hzero)⟩
  · rename_i source k hi
    split at hstep
    · rename_i byte hbyte
      cases hstep
      exact ⟨owner, latest, h.writeByte hi hbyte⟩
    · rename_i hend
      cases hstep
      exact ⟨none, source, h.writeEnd hi hend⟩

theorem Invariant.tryCall (h : Invariant s owner latest) (hcard : Fintype.card ι < 65536)
    (hidle : (s.threads i).isIdle = true) {c : Call} (hfits : c.Fits s.buffer.length) :
    ∃ owner latest, Invariant (s.tryCall i c) owner latest := by
  obtain ⟨hreads, hclaims, hwrites⟩ := reads_eq_zero_of_idle hidle
  have hbusy : Invariant (s.goto i (.idle .busy none)) owner latest :=
    h.goto hreads.symm hclaims.symm hwrites.symm ⟨nofun, nofun⟩
  cases c with
  | read =>
      by_cases hzero : s.ctrl.writers = 0
      · have hbegin : tryReadBegin s.ctrl = (true, { s.ctrl with readers := s.ctrl.readers + 1 }) :=
          if_neg (not_not.mpr hzero)
        simp only [State.tryCall, hbegin, if_true]
        exact ⟨owner, latest, h.readBegin hcard hreads hclaims hzero⟩
      · have hbegin : tryReadBegin s.ctrl = (false, s.ctrl) := if_pos hzero
        simp only [State.tryCall, hbegin, Bool.false_eq_true, if_false]
        exact ⟨owner, latest, hbusy⟩
  | write source =>
      simp only [State.tryCall]
      split
      · rename_i hctrl
        have hsource : source.length = latest.length := hfits.trans h.size
        refine ⟨some i, latest, h.writeBegin hreads ?_ hsource ?_ (Or.inr ⟨rfl, ?_⟩)⟩ <;>
          rw [hctrl]
      · exact ⟨owner, latest, hbusy⟩

def Held (s : State ι) : Prop := ∃ owner latest, Invariant s owner latest

theorem Held.step (hcard : Fintype.card ι < 65536) (h : Held s) (hstep : Step s s') :
    Held s' := by
  obtain ⟨owner, latest, h⟩ := h
  obtain ⟨action, hstep⟩ := hstep
  cases action with
  | call i c =>
      simp only [Rwm.step] at hstep
      split at hstep
      · rename_i hguard
        obtain ⟨hreads, hclaims, hwrites⟩ := reads_eq_zero_of_idle hguard.1
        cases hstep
        refine ⟨owner, latest, ?_⟩
        cases c with
        | read => exact h.goto hreads.symm hclaims.symm hwrites.symm trivial
        | write source =>
            exact h.goto hreads.symm hclaims.symm hwrites.symm (hguard.2.trans h.size)
      · cases hstep
  | tryCall i c =>
      simp only [Rwm.step] at hstep
      split at hstep
      · rename_i hguard
        cases hstep
        exact h.tryCall hcard hguard.1 hguard.2
      · cases hstep
  | advance i stop => exact h.advance hcard hstep

omit [DecidableEq ι] in
theorem Invariant.start (buffer : List UInt8) :
    Invariant (State.start buffer : State ι) none buffer where
  claims _ := ⟨nofun, nofun⟩
  writers := rfl
  readers := (Finset.sum_const_zero).symm
  drained := nofun
  complete := List.mem_cons_self
  size := rfl
  whole _ := rfl
  threads _ := ⟨nofun, nofun⟩

theorem rwm_sound (hcard : Fintype.card ι < 65536) {buffer : List UInt8}
    (h : Relation.ReflTransGen Step (State.start buffer) s) : Sound s := by
  have hstart : Held (State.start buffer : State ι) := ⟨none, buffer, Invariant.start buffer⟩
  obtain ⟨owner, latest, hinv⟩ :=
    invariant_of_reachable hstart (fun _ _ hs hstep => hs.step hcard hstep) h
  exact hinv.sound

end Run

-- A writer has its claim while a reader is in its copy.
def draining : State (Fin 2) where
  ctrl := ⟨1, 1⟩
  buffer := [7]
  threads := Function.update (Function.update (Function.update (fun _ => .idle .ok none) 0
    (.reading [])) 1 (.writeLoop [9])) 1 (.claimed [9])
  versions := [[7]]

theorem rwm_sound_draining : Sound draining := by
  have hrun : [Action.tryCall 0 .read, .call 1 (.write [9]), .advance 1 false].foldlM step
      (State.start [7]) = some draining := rfl
  exact rwm_sound (by decide)
    (Data.Interleaving.reachable_of_foldlM (fun _ action _ h => ⟨action, h⟩) hrun)

end Rpcsx.CellSync.Rwm
