import Mathlib.Data.List.Basic
import Mathlib.Data.List.Nodup
import Mathlib.Logic.Function.Basic
import Rpcsx.Data.Chain
import Rpcsx.Data.Interleaving

namespace Rpcsx.LfQueue

open Data Data.Interleaving

-- The head keeps the address of an item above 16 spare bits.
def pack (item : Nat) : Nat := item * 2 ^ 16 % 2 ^ 64

def load (value : Nat) : Nat := value / 2 ^ 16

theorem load_pack {item : Nat} (h : item < 2 ^ 48) : load (pack item) = item := by
  rw [load, pack, Nat.mod_eq_of_lt (by omega), Nat.mul_div_cancel _ (by decide)]

inductive Kind where
  | popAll
  | apply
deriving DecidableEq

-- One call of `pop_all` or `apply`: what was read through the slice, and what `apply` counted.
structure Call (α : Type) where
  kind : Kind
  -- The first load of the head found a list.
  found : Bool
  items : List α := []
  count : Nat := 0

inductive Consumer (α : Type) where
  | idle
  | found (kind : Kind)
  | detached (kind : Kind) (head : Nat)
  | reversing (kind : Kind) (head prev : Nat)
  | slice (call : Call α) (head : Nat)

inductive Producer (α : Type) where
  | idle
  | loaded (data : α) (oldv : Nat)
  | ready (data : α) (item oldv : Nat)
  | lost (data : α) (item oldv : Nat)

structure State (ι α : Type) where
  heap : Heap α := fun _ => none
  head : Nat := 0
  producers : ι → Producer α := fun _ => .idle
  consumer : Consumer α := .idle
  -- The elements in the order of the exchanges that pushed them.
  pushed : List α := []
  calls : List (Call α) := []

variable {ι α : Type} [DecidableEq ι]

namespace State

def setHeap (s : State ι α) (item : Nat) (v : Option (Item α)) : State ι α :=
  { s with heap := Function.update s.heap item v }

def setProducer (s : State ι α) (i : ι) (p : Producer α) : State ι α :=
  { s with producers := Function.update s.producers i p }

-- What `pop_all` or `apply` does first.
omit [DecidableEq ι] in
def begin (s : State ι α) (kind : Kind) : State ι α :=
  { s with
    consumer := if load s.head ≠ 0 then .found kind else .slice { kind, found := false } 0 }

-- One access of the consumer; there is none at a null or freed item.
def advance (s : State ι α) : Option (State ι α) :=
  match s.consumer with
  | .idle => none
  | .found kind => some { s with head := 0, consumer := .detached kind (load s.head) }
  | .detached kind head =>
      if head = 0 then some { s with consumer := .slice { kind, found := true } 0 }
      else do
        let item ← s.heap head
        if item.link = 0 then some { s with consumer := .slice { kind, found := true } head }
        else some { s.setHeap head (some { item with link := 0 }) with
          consumer := .reversing kind head item.link }
  | .reversing kind head prev => do
      let item ← s.heap prev
      some { s.setHeap prev (some { item with link := head }) with
        consumer := if item.link = 0 then .slice { kind, found := true } prev
          else .reversing kind prev item.link }
  -- apply leaves the count as it is.
  | .slice call head =>
      if head = 0 then some { s with consumer := .idle, calls := s.calls ++ [call] }
      else do
        let item ← s.heap head
        some { s.setHeap head none with
          consumer := .slice { call with items := call.items ++ [item.data] } item.link }

end State

inductive Step : State ι α → State ι α → Prop where
  | start (s : State ι α) (i : ι) (data : α) : s.producers i = .idle →
      Step s (s.setProducer i (.loaded data s.head))
  -- A freed address may be given out again.
  | create (s : State ι α) (i : ι) (data : α) (oldv item : Nat) :
      s.producers i = .loaded data oldv → item ≠ 0 → item < 2 ^ 48 → s.heap item = none →
      Step s ((s.setHeap item (some ⟨data, load oldv⟩)).setProducer i (.ready data item oldv))
  | push (s : State ι α) (i : ι) (data : α) (item oldv : Nat) :
      s.producers i = .ready data item oldv → s.head = oldv →
      Step s { s.setProducer i .idle with head := pack item, pushed := s.pushed ++ [data] }
  | lose (s : State ι α) (i : ι) (data : α) (item oldv : Nat) :
      s.producers i = .ready data item oldv → s.head ≠ oldv →
      Step s (s.setProducer i (.lost data item s.head))
  | relink (s : State ι α) (i : ι) (data : α) (item oldv : Nat) :
      s.producers i = .lost data item oldv →
      Step s ((s.setHeap item (some ⟨data, load oldv⟩)).setProducer i (.ready data item oldv))
  | call (s : State ι α) (kind : Kind) : s.consumer = .idle → Step s (s.begin kind)
  | advance (s s' : State ι α) : s.advance = some s' → Step s s'

abbrev Reachable (s : State ι α) : Prop := Relation.ReflTransGen Step {} s

section Shape

def Consumer.heads : Consumer α → Nat × Nat
  | .idle | .found _ => (0, 0)
  | .detached _ head => (0, head)
  | .reversing _ head prev => (head, prev)
  | .slice _ head => (head, 0)

def Consumer.delivered : Consumer α → List α
  | .slice call _ => call.items
  | _ => []

def State.delivered (s : State ι α) : List α :=
  s.calls.flatMap Call.items ++ s.consumer.delivered

def Call.Marked (call : Call α) : Prop :=
  call.count = 0 ∧ (call.found = true ↔ call.items ≠ [])

def Consumer.Marked (head : Nat) : Consumer α → Prop
  | .idle => True
  | .found _ => load head ≠ 0
  | .detached _ head => head ≠ 0
  | .reversing _ _ prev => prev ≠ 0
  | .slice call head => call.count = 0 ∧ (call.found = true ↔ call.items ≠ [] ∨ head ≠ 0)

def Producer.node : Producer α → Option Nat
  | .ready _ item _ | .lost _ item _ => some item
  | _ => none

def Producer.Owns (heap : Heap α) : Producer α → Prop
  | .ready data item oldv => heap item = some ⟨data, load oldv⟩
  | .lost data item _ => ∃ link, heap item = some ⟨data, link⟩
  | _ => True

def addresses (waiting front rest : List (Nat × α)) : List Nat :=
  (waiting ++ front ++ rest).map Prod.fst

-- The queue, and the list that the consumer reverses or walks.
structure Chains (heap : Heap α) (head : Nat) (heads : Nat × Nat)
    (waiting front rest : List (Nat × α)) : Prop where
  queue : Chain heap head waiting
  left : Chain heap heads.1 front
  right : Chain heap heads.2 rest
  nodup : (addresses waiting front rest).Nodup

structure Shape (s : State ι α) (waiting front rest : List (Nat × α)) : Prop where
  chains : Chains s.heap (load s.head) s.consumer.heads waiting front rest
  owns : ∀ i, (s.producers i).Owns s.heap
  apart : ∀ i item, (s.producers i).node = some item →
    item ∉ addresses waiting front rest ∧ item ≠ 0 ∧ item < 2 ^ 48
  distinct : ∀ i k item, (s.producers i).node = some item → (s.producers k).node = some item → i = k
  order : s.pushed = s.delivered ++ (rest.reverse ++ front ++ waiting.reverse).map Prod.snd
  marked : s.consumer.Marked s.head
  calls : ∀ call ∈ s.calls, call.Marked

variable {heap : Heap α} {head : Nat} {heads : Nat × Nat} {waiting front rest : List (Nat × α)}
  {s : State ι α}

theorem not_mem_addresses {item : Nat} :
    item ∉ addresses waiting front rest ↔ item ∉ waiting.map Prod.fst ∧
      item ∉ front.map Prod.fst ∧ item ∉ rest.map Prod.fst := by
  simp only [addresses, List.map_append, List.mem_append, not_or, and_assoc]

theorem Chains.update (h : Chains heap head heads waiting front rest) {item : Nat}
    (hitem : item ∉ addresses waiting front rest) (v : Option (Item α)) :
    Chains (Function.update heap item v) head heads waiting front rest := by
  obtain ⟨hwaiting, hfront, hrest⟩ := not_mem_addresses.mp hitem
  exact ⟨h.queue.update hwaiting v, h.left.update hfront v, h.right.update hrest v, h.nodup⟩

theorem Chains.not_mem_of_free (h : Chains heap head heads waiting front rest) {item : Nat}
    (hitem : heap item = none) : item ∉ addresses waiting front rest :=
  not_mem_addresses.mpr ⟨fun hm => h.queue.allocated hm hitem, fun hm => h.left.allocated hm hitem,
    fun hm => h.right.allocated hm hitem⟩

theorem Producer.Owns.allocated {p : Producer α} (h : p.Owns heap) {item : Nat}
    (hnode : p.node = some item) : heap item ≠ none := by
  cases p with
  | idle => cases hnode
  | loaded data oldv => cases hnode
  | ready data item' oldv =>
      cases hnode
      rw [show heap item = _ from h]
      nofun
  | lost data item' oldv =>
      cases hnode
      obtain ⟨link, hlink⟩ := h
      rw [hlink]
      nofun

theorem Producer.Owns.congr {p : Producer α} (h : p.Owns heap) {heap' : Heap α}
    (heq : ∀ item, p.node = some item → heap' item = heap item) : p.Owns heap' := by
  cases p with
  | idle => trivial
  | loaded data oldv => trivial
  | ready data item oldv => exact (heq item rfl).trans h
  | lost data item oldv =>
      obtain ⟨link, hlink⟩ := h
      exact ⟨link, (heq item rfl).trans hlink⟩

@[simp] theorem producers_setProducer (s : State ι α) (i : ι) (p : Producer α) :
    (s.setProducer i p).producers = Function.update s.producers i p := rfl

omit [DecidableEq ι] in
@[simp] theorem calls_setHeap (s : State ι α) (item : Nat) (v : Option (Item α)) :
    (s.setHeap item v).calls = s.calls := rfl

theorem node_setProducer {i k : ι} {p : Producer α} {item : Nat}
    (h : ((s.setProducer i p).producers k).node = some item) :
    (k = i ∧ p.node = some item) ∨ (k ≠ i ∧ (s.producers k).node = some item) := by
  by_cases hki : k = i
  · subst hki
    rw [producers_setProducer, Function.update_self] at h
    exact Or.inl ⟨rfl, h⟩
  · rw [producers_setProducer, Function.update_of_ne hki] at h
    exact Or.inr ⟨hki, h⟩

theorem Shape.setProducer (h : Shape s waiting front rest) (i : ι) {p : Producer α}
    (howns : p.Owns s.heap) (hnode : ∀ item, p.node = some item →
      item ∉ addresses waiting front rest ∧ item ≠ 0 ∧ item < 2 ^ 48 ∧
        ∀ k, k ≠ i → (s.producers k).node ≠ some item) :
    Shape (s.setProducer i p) waiting front rest := by
  refine ⟨h.chains, fun k => ?_, fun k item hk => ?_, fun k l item hk hl => ?_, h.order, h.marked,
    h.calls⟩
  · by_cases hki : k = i
    · rw [producers_setProducer, hki, Function.update_self]
      exact howns
    · rw [producers_setProducer, Function.update_of_ne hki]
      exact h.owns k
  · rcases node_setProducer hk with ⟨-, hp⟩ | ⟨-, hp⟩
    · obtain ⟨haway, hne, hlt, -⟩ := hnode item hp
      exact ⟨haway, hne, hlt⟩
    · exact h.apart k item hp
  · rcases node_setProducer hk with ⟨hki, hp⟩ | ⟨hki, hp⟩
    · rcases node_setProducer hl with ⟨hli, -⟩ | ⟨hli, hp'⟩
      · rw [hki, hli]
      · exact absurd hp' ((hnode item hp).2.2.2 l hli)
    · rcases node_setProducer hl with ⟨hli, hp'⟩ | ⟨hli, hp'⟩
      · exact absurd hp ((hnode item hp').2.2.2 k hki)
      · exact h.distinct k l item hp hp'

-- A producer that lets go of its item.
theorem Shape.idleProducer (h : Shape s waiting front rest) (i : ι) :
    Shape (s.setProducer i .idle) waiting front rest := h.setProducer i trivial nofun

theorem node_idleProducer {i k : ι} {item : Nat}
    (h : ((s.setProducer i .idle).producers k).node = some item) :
    k ≠ i ∧ (s.producers k).node = some item := by
  rcases node_setProducer h with ⟨-, hnone⟩ | hk
  · cases hnone
  · exact hk

omit [DecidableEq ι] in
theorem Shape.setHeap (h : Shape s waiting front rest) {item : Nat}
    (haway : item ∉ addresses waiting front rest)
    (hnode : ∀ k, (s.producers k).node ≠ some item) (v : Option (Item α)) :
    Shape (s.setHeap item v) waiting front rest := by
  refine ⟨h.chains.update haway v, fun k => (h.owns k).congr fun other hk => ?_, h.apart,
    h.distinct, h.order, h.marked, h.calls⟩
  have hne : other ≠ item := fun he => hnode k (he ▸ hk)
  exact Function.update_of_ne hne v s.heap

-- A producer writes an item that only it knows.
theorem Shape.write (h : Shape s waiting front rest) (i : ι) (data : α) (oldv : Nat) {item : Nat}
    (haway : item ∉ addresses waiting front rest) (hne : item ≠ 0) (hlt : item < 2 ^ 48)
    (hnode : ∀ k, k ≠ i → (s.producers k).node ≠ some item) :
    Shape ((s.setHeap item (some ⟨data, load oldv⟩)).setProducer i (.ready data item oldv))
      waiting front rest := by
  have hwritten : Shape ((s.setProducer i .idle).setHeap item (some ⟨data, load oldv⟩))
      waiting front rest := by
    refine (h.idleProducer i).setHeap haway (fun k hk => ?_) _
    obtain ⟨hki, hk⟩ := node_idleProducer hk
    exact hnode k hki hk
  have hready := hwritten.setProducer i (p := .ready data item oldv)
    (Function.update_self item _ s.heap) (by
      intro other ho
      cases ho
      exact ⟨haway, hne, hlt, fun k hki hk => hnode k hki (node_idleProducer hk).2⟩)
  simpa only [State.setProducer, State.setHeap, Function.update_idem] using hready

theorem Consumer.Marked.of_head {consumer : Consumer α} (h : consumer.Marked head) {head' : Nat}
    (hne : load head' ≠ 0) : consumer.Marked head' := by
  cases consumer with
  | found kind => exact hne
  | idle => exact h
  | detached kind head => exact h
  | reversing kind head prev => exact h
  | slice call head => exact h

-- The exchange puts the item in front of the list that its link leads to.
theorem Shape.push (h : Shape s waiting front rest) (i : ι) {data : α} {item : Nat}
    (hpc : s.producers i = .ready data item s.head) :
    Shape { s.setProducer i .idle with head := pack item, pushed := s.pushed ++ [data] }
      ((item, data) :: waiting) front rest := by
  have hnode : (s.producers i).node = some item := by rw [hpc]; rfl
  have hitem : s.heap item = some ⟨data, load s.head⟩ := by
    have := h.owns i
    rwa [hpc] at this
  obtain ⟨haway, hne, hlt⟩ := h.apart i item hnode
  have hidle := h.idleProducer i
  have hchains : Chains s.heap (load (pack item)) s.consumer.heads ((item, data) :: waiting) front
      rest := by
    rw [load_pack hlt]
    exact ⟨.cons hne hitem h.chains.queue, h.chains.left, h.chains.right,
      List.nodup_cons.mpr ⟨haway, h.chains.nodup⟩⟩
  have horder : s.pushed ++ [data] =
      s.delivered ++ (rest.reverse ++ front ++ ((item, data) :: waiting).reverse).map Prod.snd := by
    rw [h.order]
    simp
  refine ⟨hchains, hidle.owns, fun k other hk => ?_, hidle.distinct, horder,
    Consumer.Marked.of_head h.marked (by rw [load_pack hlt]; exact hne), h.calls⟩
  obtain ⟨haway', hrange⟩ := hidle.apart k other hk
  refine ⟨fun hm => ?_, hrange⟩
  rcases List.mem_cons.mp hm with heq | hm
  · obtain ⟨hki, hk⟩ := node_idleProducer hk
    exact hki (h.distinct k i other hk (heq ▸ hnode))
  · exact haway' hm

-- An access of the consumer changes its own list only.
omit [DecidableEq ι] in
theorem Shape.consume (h : Shape s waiting front rest) {heap : Heap α} {head : Nat}
    {consumer : Consumer α} {calls : List (Call α)} {waiting' front' rest' : List (Nat × α)}
    (hchains : Chains heap (load head) consumer.heads waiting' front' rest')
    (hsub : addresses waiting' front' rest' ⊆ addresses waiting front rest)
    (hheap : ∀ item, item ∉ addresses waiting front rest → heap item = s.heap item)
    (horder : calls.flatMap Call.items ++ consumer.delivered ++
        (rest'.reverse ++ front' ++ waiting'.reverse).map Prod.snd =
      s.delivered ++ (rest.reverse ++ front ++ waiting.reverse).map Prod.snd)
    (hmarked : consumer.Marked head) (hcalls : ∀ call ∈ calls, call.Marked) :
    Shape { s with heap, head, consumer, calls } waiting' front' rest' := by
  refine ⟨hchains, fun k => (h.owns k).congr fun item hk => hheap item (h.apart k item hk).1,
    fun k item hk => ?_, h.distinct, h.order.trans horder.symm, hmarked, hcalls⟩
  obtain ⟨haway, hrange⟩ := h.apart k item hk
  exact ⟨fun hm => haway (hsub hm), hrange⟩

-- How many accesses of the consumer there are until its call returns.
def Consumer.left (waiting front rest : List (Nat × α)) : Consumer α → Nat
  | .idle => 0
  | .found _ => 2 * waiting.length + 4
  | .detached _ _ => 2 * rest.length + 3
  | .reversing _ _ _ => front.length + 2 * rest.length + 2
  | .slice _ _ => front.length + 1

omit [DecidableEq ι] in
theorem Shape.at (h : Shape s waiting front rest) {consumer : Consumer α}
    (hpc : s.consumer = consumer) :
    Chains s.heap (load s.head) consumer.heads waiting front rest ∧ consumer.Marked s.head ∧
      s.delivered = s.calls.flatMap Call.items ++ consumer.delivered := by
  subst hpc
  exact ⟨h.chains, h.marked, rfl⟩

-- The state after an access, with the list that it leaves and fewer accesses to go.
def Advances (s : State ι α) (waiting front rest : List (Nat × α)) : Prop :=
  ∃ s' waiting' front' rest', s.advance = some s' ∧ Shape s' waiting' front' rest' ∧
    s'.consumer.left waiting' front' rest' < s.consumer.left waiting front rest

omit [DecidableEq ι] in
theorem Shape.advance_found (h : Shape s waiting front rest) {kind : Kind}
    (hpc : s.consumer = .found kind) : Advances s waiting front rest := by
  obtain ⟨⟨hqueue, hleft, hright, hnodup⟩, hmarked, hdelivered⟩ := h.at hpc
  obtain rfl : front = [] := hleft.null
  obtain rfl : rest = [] := hright.null
  have hshape : Shape { s with head := 0, consumer := .detached kind (load s.head) } [] []
      waiting := by
    refine h.consume ⟨.nil, .nil, hqueue, ?_⟩ ?_ (fun _ _ => rfl) ?_ hmarked h.calls
    · simpa [addresses] using hnodup
    · simp [addresses]
    · rw [hdelivered]
      simp [Consumer.delivered]
  refine ⟨_, [], [], waiting, by rw [State.advance, hpc], hshape, ?_⟩
  simp [Consumer.left, hpc]

omit [DecidableEq ι] in
theorem Shape.advance_detached (h : Shape s waiting front rest) {kind : Kind} {head : Nat}
    (hpc : s.consumer = .detached kind head) : Advances s waiting front rest := by
  obtain ⟨⟨hqueue, hleft, hright, hnodup⟩, hmarked, hdelivered⟩ := h.at hpc
  have hhead : head ≠ 0 := hmarked
  obtain rfl : front = [] := hleft.null
  obtain ⟨data, link, rest', rfl, hitem, hnext⟩ :
      ∃ data link rest', rest = (head, data) :: rest' ∧ s.heap head = some ⟨data, link⟩ ∧
        Chain s.heap link rest' := hright.cons_of_ne hhead
  obtain ⟨hwaiting, hrest⟩ : head ∉ waiting.map Prod.fst ∧ head ∉ rest'.map Prod.fst := by
    have hperm : (head :: (waiting.map Prod.fst ++ rest'.map Prod.fst)).Nodup := by
      refine (List.Perm.nodup_iff ?_).mpr hnodup
      simpa [addresses] using List.perm_middle.symm
    simpa using (List.nodup_cons.mp hperm).1
  by_cases hlink : link = 0
  · subst hlink
    obtain rfl := hnext.null
    have hshape : Shape { s with consumer := .slice { kind, found := true } head } waiting
        [(head, data)] [] := by
      refine h.consume ⟨hqueue, hright, .nil, ?_⟩ ?_ (fun _ _ => rfl) ?_ ?_ h.calls
      · simpa [addresses] using hnodup
      · simp [addresses]
      · rw [hdelivered]
        simp [Consumer.delivered]
      · exact ⟨rfl, by simp [hhead]⟩
    refine ⟨_, waiting, [(head, data)], [], ?_, hshape, ?_⟩
    · simp [State.advance, hpc, hhead, hitem]
    · simp [Consumer.left, hpc]
  · have hshape : Shape { s.setHeap head (some ⟨data, 0⟩) with
        consumer := .reversing kind head link } waiting [(head, data)] rest' := by
      refine h.consume ⟨hqueue.update hwaiting _, .cons hhead (Function.update_self ..) .nil,
        hnext.update hrest _, ?_⟩ ?_ (fun item hi => ?_) ?_ hlink h.calls
      · simpa [addresses] using hnodup
      · simp [addresses]
      · refine Function.update_of_ne (fun he => hi ?_) ..
        simp [addresses, he]
      · rw [hdelivered]
        simp [Consumer.delivered]
    refine ⟨_, waiting, [(head, data)], rest', ?_, hshape, ?_⟩
    · simp [State.advance, hpc, hhead, hitem, hlink]
    · simp only [Consumer.left, hpc, List.length_cons, List.length_nil]
      omega

omit [DecidableEq ι] in
theorem Shape.advance_reversing (h : Shape s waiting front rest) {kind : Kind} {head prev : Nat}
    (hpc : s.consumer = .reversing kind head prev) : Advances s waiting front rest := by
  obtain ⟨⟨hqueue, hleft, hright, hnodup⟩, hmarked, hdelivered⟩ := h.at hpc
  have hprev : prev ≠ 0 := hmarked
  obtain ⟨data, link, rest', rfl, hitem, hnext⟩ :
      ∃ data link rest', rest = (prev, data) :: rest' ∧ s.heap prev = some ⟨data, link⟩ ∧
        Chain s.heap link rest' := hright.cons_of_ne hprev
  have hperm : (prev :: addresses waiting front rest').Perm
      (addresses waiting front ((prev, data) :: rest')) := by
    simp only [addresses, List.map_append, List.map_cons]
    exact List.perm_middle.symm
  have hmoved : (addresses waiting ((prev, data) :: front) rest').Perm
      (addresses waiting front ((prev, data) :: rest')) := by
    refine List.Perm.trans ?_ hperm
    simp [addresses]
  obtain ⟨hwaiting, hfront, hrest⟩ := not_mem_addresses.mp
    (List.nodup_cons.mp (hperm.nodup_iff.mpr hnodup)).1
  have hchains : Chains (Function.update s.heap prev (some ⟨data, head⟩)) (load s.head) (prev, link)
      waiting ((prev, data) :: front) rest' :=
    ⟨hqueue.update hwaiting _, .cons hprev (Function.update_self ..) (hleft.update hfront _),
      hnext.update hrest _, hmoved.nodup_iff.mpr hnodup⟩
  have hheap (item : Nat) (hi : item ∉ addresses waiting front ((prev, data) :: rest')) :
      Function.update s.heap prev (some ⟨data, head⟩) item = s.heap item := by
    refine Function.update_of_ne (fun he => hi ?_) ..
    simp [addresses, he]
  by_cases hlink : link = 0
  · subst hlink
    obtain rfl := hnext.null
    have hshape : Shape { s.setHeap prev (some ⟨data, head⟩) with
        consumer := .slice { kind, found := true } prev } waiting ((prev, data) :: front) [] := by
      refine h.consume ⟨hchains.queue, hchains.left, .nil, hchains.nodup⟩ hmoved.subset hheap ?_ ?_
        h.calls
      · rw [hdelivered]
        simp [Consumer.delivered]
      · exact ⟨rfl, by simp [hprev]⟩
    refine ⟨_, waiting, (prev, data) :: front, [], ?_, hshape, ?_⟩
    · simp [State.advance, hpc, hitem]
    · simp only [Consumer.left, hpc, List.length_cons, List.length_nil]
      omega
  · have hshape : Shape { s.setHeap prev (some ⟨data, head⟩) with
        consumer := .reversing kind prev link } waiting ((prev, data) :: front) rest' := by
      refine h.consume hchains hmoved.subset hheap ?_ hlink h.calls
      rw [hdelivered]
      simp [Consumer.delivered]
    refine ⟨_, waiting, (prev, data) :: front, rest', ?_, hshape, ?_⟩
    · simp [State.advance, hpc, hitem, hlink]
    · simp only [Consumer.left, hpc, List.length_cons]
      omega

omit [DecidableEq ι] in
theorem Shape.advance_slice (h : Shape s waiting front rest) {call : Call α} {head : Nat}
    (hpc : s.consumer = .slice call head) : Advances s waiting front rest := by
  obtain ⟨⟨hqueue, hleft, hright, hnodup⟩, ⟨hcount, hfound⟩, hdelivered⟩ := h.at hpc
  obtain rfl : rest = [] := hright.null
  by_cases hhead : head = 0
  · subst hhead
    obtain rfl : front = [] := hleft.null
    have hshape : Shape { s with consumer := .idle, calls := s.calls ++ [call] } waiting [] [] := by
      refine h.consume ⟨hqueue, .nil, .nil, hnodup⟩ (fun _ hm => hm) (fun _ _ => rfl) ?_ trivial ?_
      · rw [hdelivered]
        simp [Consumer.delivered]
      · intro c hc
        rcases List.mem_append.mp hc with hc | hc
        · exact h.calls c hc
        · obtain rfl := List.mem_singleton.mp hc
          exact ⟨hcount, by simpa using hfound⟩
    refine ⟨_, waiting, [], [], ?_, hshape, ?_⟩
    · simp [State.advance, hpc]
    · simp [Consumer.left, hpc]
  · obtain ⟨data, link, front', rfl, hitem, hnext⟩ :
        ∃ data link front', front = (head, data) :: front' ∧ s.heap head = some ⟨data, link⟩ ∧
          Chain s.heap link front' := hleft.cons_of_ne hhead
    have hperm : (head :: addresses waiting front' []).Perm
        (addresses waiting ((head, data) :: front') []) := by
      simpa [addresses] using List.perm_middle.symm
    obtain ⟨haway, hnodup'⟩ := List.nodup_cons.mp (hperm.nodup_iff.mpr hnodup)
    obtain ⟨hwaiting, hfront, -⟩ := not_mem_addresses.mp haway
    have hshape : Shape { s.setHeap head none with
        consumer := .slice { call with items := call.items ++ [data] } link }
        waiting front' [] := by
      refine h.consume ⟨hqueue.update hwaiting _, hnext.update hfront _, .nil, hnodup'⟩
        (fun _ hm => hperm.subset (List.mem_cons_of_mem _ hm)) (fun item hi => ?_) ?_ ?_ h.calls
      · refine Function.update_of_ne (fun he => hi ?_) ..
        simp [addresses, he]
      · rw [hdelivered]
        simp [Consumer.delivered]
      · exact ⟨hcount, by simpa [hhead] using hfound⟩
    refine ⟨_, waiting, front', [], ?_, hshape, ?_⟩
    · simp [State.advance, hpc, hhead, hitem]
    · simp [Consumer.left, hpc]

omit [DecidableEq ι] in
theorem Shape.advance (h : Shape s waiting front rest) (hbusy : s.consumer ≠ .idle) :
    Advances s waiting front rest := by
  cases hpc : s.consumer with
  | idle => exact absurd hpc hbusy
  | found kind => exact h.advance_found hpc
  | detached kind head => exact h.advance_detached hpc
  | reversing kind head prev => exact h.advance_reversing hpc
  | slice call head => exact h.advance_slice hpc

omit [DecidableEq ι] in
theorem Shape.begin (h : Shape s waiting front rest) (hpc : s.consumer = .idle) (kind : Kind) :
    Shape (s.begin kind) waiting front rest := by
  obtain ⟨hchains, -, hdelivered⟩ := h.at hpc
  by_cases hhead : load s.head = 0
  · have hbegin : s.begin kind = { s with consumer := .slice { kind, found := false } 0 } := by
      rw [State.begin, if_neg (not_not.mpr hhead)]
    rw [hbegin]
    refine h.consume hchains (fun _ hm => hm) (fun _ _ => rfl) ?_ ⟨rfl, by simp⟩ h.calls
    rw [hdelivered]
    rfl
  · have hbegin : s.begin kind = { s with consumer := .found kind } := by
      rw [State.begin, if_pos hhead]
    rw [hbegin]
    refine h.consume hchains (fun _ hm => hm) (fun _ _ => rfl) ?_ hhead h.calls
    rw [hdelivered]
    rfl

theorem Shape.step (h : Shape s waiting front rest) {s' : State ι α} (hstep : Step s s') :
    ∃ waiting' front' rest', Shape s' waiting' front' rest' := by
  cases hstep with
  | start i data hpc => exact ⟨waiting, front, rest, h.setProducer i trivial nofun⟩
  | create i data oldv item hpc hne hlt hfree =>
      exact ⟨waiting, front, rest, h.write i data oldv (h.chains.not_mem_of_free hfree) hne hlt
        fun k _ hk => (h.owns k).allocated hk hfree⟩
  | push i data item oldv hpc hhead =>
      subst hhead
      exact ⟨(item, data) :: waiting, front, rest, h.push i hpc⟩
  | lose i data item oldv hpc hhead =>
      have howns := h.owns i
      rw [hpc] at howns
      have hnode : (s.producers i).node = some item := by rw [hpc]; rfl
      refine ⟨waiting, front, rest, h.setProducer i ⟨_, howns⟩ fun other ho => ?_⟩
      cases ho
      obtain ⟨haway, hne, hlt⟩ := h.apart i item hnode
      exact ⟨haway, hne, hlt, fun k hki hk => hki (h.distinct k i item hk hnode)⟩
  | relink i data item oldv hpc =>
      have hnode : (s.producers i).node = some item := by rw [hpc]; rfl
      obtain ⟨haway, hne, hlt⟩ := h.apart i item hnode
      exact ⟨waiting, front, rest, h.write i data oldv haway hne hlt fun k hki hk =>
        hki (h.distinct k i item hk hnode)⟩
  | call kind hpc => exact ⟨waiting, front, rest, h.begin hpc kind⟩
  | advance s' hs' =>
      have hbusy : s.consumer ≠ .idle := by
        intro hpc
        rw [State.advance, hpc] at hs'
        cases hs'
      obtain ⟨next, waiting', front', rest', hnext, hshape, -⟩ := h.advance hbusy
      obtain rfl := Option.some.inj (hs'.symm.trans hnext)
      exact ⟨waiting', front', rest', hshape⟩

omit [DecidableEq ι] in
theorem initial_shape : Shape ({} : State ι α) [] [] [] := by
  have hqueue : Chain (α := α) (fun _ => none) (load 0) [] := by
    rw [load, Nat.zero_div]
    exact .nil
  exact ⟨⟨hqueue, .nil, .nil, List.nodup_nil⟩, fun _ => trivial, nofun, nofun, rfl, trivial, nofun⟩

def Shaped (s : State ι α) : Prop := ∃ waiting front rest, Shape s waiting front rest

theorem reachable_shape (h : Reachable s) : Shaped s := by
  refine invariant_of_reachable ⟨[], [], [], initial_shape⟩ (fun s s' hs hstep => ?_) h
  obtain ⟨waiting, front, rest, hshape⟩ := hs
  exact hshape.step hstep

end Shape

section Results

variable {s : State ι α}

-- What was handed out is what was pushed first, and at the end of a call the rest is queued.
def Fifo (s : State ι α) : Prop :=
  s.delivered <+: s.pushed ∧ (s.consumer = .idle → ∃ waiting, Chain s.heap (load s.head) waiting ∧
    s.calls.flatMap Call.items ++ (waiting.map Prod.snd).reverse = s.pushed)

def Counted (s : State ι α) : Prop :=
  ∀ call ∈ s.calls, call.kind = .apply → call.count = call.items.length

-- No call of apply found a list.
def FoundNothing (s : State ι α) : Prop :=
  ∀ call ∈ s.calls, call.kind = .apply → call.found = false

-- The consumer ends its call by its own accesses.
def Returns (s : State ι α) : Prop :=
  ∃ s', Relation.ReflTransGen (fun t t' => t.advance = some t') s s' ∧ s'.consumer = .idle

omit [DecidableEq ι] in
theorem Shape.fifo {waiting front rest : List (Nat × α)} (h : Shape s waiting front rest) :
    Fifo s := by
  refine ⟨⟨_, h.order.symm⟩, fun hpc => ⟨waiting, h.chains.queue, ?_⟩⟩
  obtain ⟨hchains, -, hdelivered⟩ := h.at hpc
  obtain rfl : front = [] := hchains.left.null
  obtain rfl : rest = [] := hchains.right.null
  rw [h.order, hdelivered]
  simp [Consumer.delivered]

omit [DecidableEq ι] in
theorem Shape.returns {waiting front rest : List (Nat × α)} (h : Shape s waiting front rest) :
    Returns s := by
  induction hn : s.consumer.left waiting front rest using Nat.strong_induction_on
    generalizing s waiting front rest with
  | h n ih =>
      by_cases hpc : s.consumer = .idle
      · exact ⟨s, .refl, hpc⟩
      · obtain ⟨next, waiting', front', rest', hnext, hshape, hlt⟩ := h.advance hpc
        obtain ⟨s', hrun, hidle⟩ := ih _ (hn ▸ hlt) hshape rfl
        exact ⟨s', .head hnext hrun, hidle⟩

omit [DecidableEq ι] in
theorem Shape.counted_iff {waiting front rest : List (Nat × α)} (h : Shape s waiting front rest) :
    Counted s ↔ FoundNothing s := by
  refine forall₃_congr fun call hmem _ => ?_
  obtain ⟨hcount, hfound⟩ := h.calls call hmem
  rw [hcount, ← Bool.not_eq_true, hfound, not_not, eq_comm, List.length_eq_zero_iff]

theorem fifo_and_counted_iff (h : Reachable s) :
    Fifo s ∧ Returns s ∧ (Counted s ↔ FoundNothing s) := by
  obtain ⟨waiting, front, rest, hshape⟩ := reachable_shape h
  exact ⟨hshape.fifo, hshape.returns, hshape.counted_iff⟩

theorem single_push : ∃ s : State Unit Nat, Reachable s ∧ s.heap 8 = some ⟨7, 0⟩ ∧
    load s.head = 8 ∧ s.consumer = .idle ∧ s.pushed = [7] ∧ s.calls = [] := by
  have hready := (Relation.ReflTransGen.refl.tail (Step.start ({} : State Unit Nat) () 7 rfl)).tail
    (.create _ () 7 0 8 rfl (by decide) (by decide) rfl)
  exact ⟨_, hready.tail (.push _ () 7 8 0 rfl rfl), rfl, rfl, rfl, rfl, rfl⟩

-- One element is pushed and one call takes it.
theorem single_run (kind : Kind) : ∃ s : State Unit Nat, Reachable s ∧ s.pushed = [7] ∧
    s.calls = [⟨kind, true, [7], 0⟩] := by
  obtain ⟨s, hpushed, hitem, hhead, hidle, hdata, hcalls⟩ := single_push
  have hfound := hpushed.tail (.call s kind hidle)
  rw [State.begin, hhead, if_pos (by decide)] at hfound
  have hdetached := hfound.tail (.advance _ _ rfl)
  rw [hhead] at hdetached
  have hslice := hdetached.tail (.advance _
    { s with head := 0, consumer := .slice { kind, found := true } 8 }
    (by simp [State.advance, hitem]))
  have htaken := hslice.tail (.advance _
    { s.setHeap 8 none with head := 0, consumer := .slice ⟨kind, true, [7], 0⟩ 0 }
    (by simp [State.advance, State.setHeap, hitem]))
  have hdone := htaken.tail (.advance _ _ rfl)
  exact ⟨_, hdone, hdata, congrArg (· ++ [_]) hcalls⟩

theorem fifo_and_counted_iff_single : ∃ s : State Unit Nat, s.pushed = [7] ∧
    s.calls = [⟨.popAll, true, [7], 0⟩] ∧ Fifo s ∧ Returns s ∧ (Counted s ↔ FoundNothing s) := by
  obtain ⟨s, hreachable, hpushed, hcalls⟩ := single_run .popAll
  exact ⟨s, hpushed, hcalls, fifo_and_counted_iff hreachable⟩

-- apply called the function for the element and returns 0.
theorem apply_counts_nothing : ∃ s : State Unit Nat, Reachable s ∧
    s.calls = [⟨.apply, true, [7], 0⟩] ∧ ¬Counted s := by
  obtain ⟨s, hreachable, -, hcalls⟩ := single_run .apply
  refine ⟨s, hreachable, hcalls, fun hcounted => ?_⟩
  have hcount := hcounted ⟨.apply, true, [7], 0⟩ (by rw [hcalls]; exact List.mem_cons_self) rfl
  cases hcount

end Results

end Rpcsx.LfQueue
