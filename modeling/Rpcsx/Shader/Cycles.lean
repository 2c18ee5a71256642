import Mathlib.Data.Finset.Card
import Mathlib.Data.List.Dedup
import Mathlib.Data.List.Perm.Basic
import Mathlib.Logic.Function.Basic
import Rpcsx.Data.Components

namespace Rpcsx.Shader

open Relation Data.Components

inductive Terminator (β : Type) where
  | branch (target : β)
  | branchConditional (ifTrue ifFalse : β)
  | switch (targets : List β)
  | construct (header : β)
  | other

-- The successors, each with the number of its operand.
def walkSuccessors {β : Type} : Terminator β → List (β × Nat)
  | .branch target => [(target, 0)]
  | .branchConditional ifTrue ifFalse => [(ifTrue, 1), (ifFalse, 2)]
  | .switch targets => targets.zipIdx.map fun (target, k) => (target, 2 * k + 1)
  | .construct header => [(header, 0)]
  | .other => []

variable {β π : Type} [DecidableEq β] [DecidableEq π]

structure Cfg (β π : Type) [DecidableEq β] where
  blocks : List β
  parent : β → π
  terminator : β → Terminator β
  -- The order in which the set of the successors is iterated.
  getSuccessors : β → List β
  nodup : blocks.Nodup
  terminator_other : ∀ b, b ∉ blocks → terminator b = .other
  target_mem : ∀ b e, e ∈ walkSuccessors (terminator b) → e.1 ∈ blocks
  getSuccessors_perm : ∀ b,
    (getSuccessors b).Perm ((walkSuccessors (terminator b)).map Prod.fst).dedup

namespace Cfg

variable (g : Cfg β π)

def getAllSuccessors (region : β) : List (β × Nat) := walkSuccessors (g.terminator region)

-- The uses of the block in branches and constructs.
def getAllPredecessors (region : β) : List (β × Nat) :=
  g.blocks.flatMap fun pred =>
    ((g.getAllSuccessors pred).filter (·.1 = region)).map fun e => (pred, e.2)

def hasSuccessor (region successor : β) : Bool :=
  (g.getAllSuccessors region).any (·.1 = successor)

-- root.children<ir::Block>()
def children (root : π) : List β := g.blocks.filter (g.parent · = root)

end Cfg

structure State (β : Type) where
  indices : β → Option Nat := fun _ => none
  lowlinks : β → Nat := fun _ => 0
  onStack : β → Bool := fun _ => false
  -- The top of the stack is first.
  stack : List β := []
  sccs : List (List β) := []
  index : Nat := 0

namespace State

def enter (s : State β) (node : β) : State β :=
  { s with
    indices := Function.update s.indices node (some s.index)
    lowlinks := Function.update s.lowlinks node s.index
    index := s.index + 1
    stack := node :: s.stack
    onStack := Function.update s.onStack node true }

def lower (s : State β) (node : β) (link : Nat) : State β :=
  { s with lowlinks := Function.update s.lowlinks node (min (s.lowlinks node) link) }

def indexOf (s : State β) (node : β) : Nat := (s.indices node).getD 0

end State

def popUntil (node : β) : List β → Option (List β × List β)
  | [] => none
  | w :: rest =>
      if w = node then some ([w], rest)
      else (popUntil node rest).map fun (scc, stack) => (w :: scc, stack)

section Connect

variable (g : Cfg β π) (root : π)

def visit (strongConnect : β → State β → Option (State β)) (node : β) (s : State β)
    (successor : β) : Option (State β) :=
  if g.parent successor ≠ root then some s
  else
    match s.indices successor with
    | none => do
        let s ← strongConnect successor s
        some (s.lower node (s.lowlinks successor))
    | some index => if s.onStack successor then some (s.lower node index) else some s

-- If node is a root node, pop the stack and keep the component if it is a cycle.
def close (node : β) (s : State β) : Option (State β) :=
  if s.lowlinks node = s.indexOf node then do
    let (scc, stack) ← popUntil node s.stack
    let s := { s with stack, onStack := fun b => s.onStack b && !scc.contains b }
    if scc.length > 1 ∨ g.hasSuccessor node node then some { s with sccs := s.sccs ++ [scc] }
    else some s
  else some s

def strongConnect : Nat → β → State β → Option (State β)
  | 0, _, _ => none
  | depth + 1, node, s => do
      let s ← (g.getSuccessors node).foldlM (visit g root (strongConnect depth) node) (s.enter node)
      close g node s

def connectNode (s : State β) (node : β) : Option (State β) :=
  if g.parent node ≠ root then some s
  else
    match s.indices node with
    | none => strongConnect g root (g.blocks.length + 1) node s
    | some _ => some s

end Connect

def findSCCs (g : Cfg β π) (nodes : List β) : Option (List (List β)) := do
  let first ← nodes.head?
  let s ← nodes.foldlM (connectNode g (g.parent first)) {}
  some s.sccs

-- An edge is a block and the operand of its terminator.
structure CycleEdges (β : Type) where
  entryEdges : List (β × Nat)
  backEdges : List (β × Nat)
  exitEdges : List (β × Nat)

def calculateCycleEdges (g : Cfg β π) (cycles : List β) : CycleEdges β :=
  let entryEdges := cycles.flatMap fun block =>
    (g.getAllPredecessors block).filter fun e => !cycles.contains e.1
  let exits := cycles.flatMap fun block =>
    ((g.getAllSuccessors block).filter fun e => !cycles.contains e.1).map fun e => (block, e)
  let entryBlocks := exits.map (·.2.1)
  { entryEdges
    exitEdges := exits.map fun (block, e) => (block, e.2)
    backEdges := cycles.flatMap fun block =>
      ((g.getAllSuccessors block).filter fun e => !entryBlocks.contains e.1).map
        fun e => (block, e.2) }

section Invariant

variable {g : Cfg β π} {root : π} {s s' t : State β}

def Edge (g : Cfg β π) (root : π) (x y : β) : Prop :=
  g.parent x = root ∧ g.parent y = root ∧ y ∈ g.getSuccessors x

def Visited (s : State β) (b : β) : Prop := s.indices b ≠ none

-- Blocks whose component has been taken from the stack.
def Settled (s : State β) (b : β) : Prop := Visited s b ∧ b ∉ s.stack

structure Component (g : Cfg β π) (root : π) (s : State β) (scc : List β) : Prop where
  nodup : scc.Nodup
  ne_nil : scc ≠ []
  settled : ∀ v ∈ scc, Settled s v
  cycle : ∀ v ∈ scc, TransGen (Edge g root) v v
  mem_iff : ∀ v ∈ scc, ∀ u, u ∈ scc ↔ Connected (Edge g root) v u

structure Inv (g : Cfg β π) (root : π) (s : State β) : Prop where
  index_lt : ∀ b, Visited s b → s.indexOf b < s.index
  parent : ∀ b, Visited s b → b ∈ g.children root
  onStack : ∀ b, s.onStack b = true ↔ b ∈ s.stack
  visited : ∀ b ∈ s.stack, Visited s b
  order : s.stack.Pairwise fun a b => s.indexOf b < s.indexOf a
  closed : ∀ x y, Settled s x → Edge g root x y → Settled s y
  sound : ∀ scc ∈ s.sccs, Component g root s scc
  complete : ∀ v, Settled s v → TransGen (Edge g root) v v → ∃ scc ∈ s.sccs, v ∈ scc
  disjoint : s.sccs.Pairwise List.Disjoint

omit [DecidableEq β] in
theorem indices_eq {b : β} (h : Visited s b) : s.indices b = some (s.indexOf b) := by
  rw [State.indexOf]
  cases hb : s.indices b with
  | none => exact absurd hb h
  | some i => rfl

theorem mem_children {b : β} : b ∈ g.children root ↔ b ∈ g.blocks ∧ g.parent b = root := by
  simp [Cfg.children]

omit [DecidableEq π] in
theorem mem_getSuccessors {x y : β} :
    y ∈ g.getSuccessors x ↔ ∃ i, (y, i) ∈ g.getAllSuccessors x := by
  rw [(g.getSuccessors_perm x).mem_iff, List.mem_dedup, List.mem_map]
  constructor
  · rintro ⟨⟨y, i⟩, hmem, rfl⟩
    exact ⟨i, hmem⟩
  · rintro ⟨i, hmem⟩
    exact ⟨(y, i), hmem, rfl⟩

omit [DecidableEq π] in
theorem hasSuccessor_iff {x y : β} : g.hasSuccessor x y = true ↔ y ∈ g.getSuccessors x := by
  rw [mem_getSuccessors, Cfg.hasSuccessor, List.any_eq_true]
  constructor
  · rintro ⟨⟨z, i⟩, hmem, hz⟩
    obtain rfl := of_decide_eq_true hz
    exact ⟨i, hmem⟩
  · rintro ⟨i, hmem⟩
    exact ⟨(y, i), hmem, decide_eq_true rfl⟩

theorem Edge.mem_children {x y : β} (h : Edge g root x y) : y ∈ g.children root := by
  obtain ⟨-, hparent, hmem⟩ := h
  obtain ⟨i, hi⟩ := mem_getSuccessors.mp hmem
  exact Shader.mem_children.mpr ⟨g.target_mem x _ hi, hparent⟩

-- What a part of the search has done to the state: blocks put on the stack, and others settled.
structure Extends (g : Cfg β π) (root : π) (s t : State β) (added : List β) : Prop where
  inv : Inv g root t
  stack : t.stack = added ++ s.stack
  indices : ∀ b, Visited s b → t.indices b = s.indices b
  lowlinks : ∀ b, Visited s b → t.lowlinks b = s.lowlinks b
  fresh : ∀ b ∈ added, ¬Visited s b
  index_le : s.index ≤ t.index

theorem Extends.visited {added : List β} (h : Extends g root s t added) {b : β}
    (hb : Visited s b) : Visited t b := by
  rw [Visited, h.indices b hb]
  exact hb

theorem Extends.indexOf {added : List β} (h : Extends g root s t added) {b : β}
    (hb : Visited s b) : t.indexOf b = s.indexOf b := by
  rw [State.indexOf, State.indexOf, h.indices b hb]

theorem Extends.trans {added added' : List β} {u : State β} (h : Extends g root s t added)
    (h' : Extends g root t u added') : Extends g root s u (added' ++ added) := by
  refine ⟨h'.inv, by rw [h'.stack, h.stack, List.append_assoc], fun b hb => ?_, fun b hb => ?_,
    fun b hb hv => ?_, Nat.le_trans h.index_le h'.index_le⟩
  · rw [h'.indices b (h.visited hb), h.indices b hb]
  · rw [h'.lowlinks b (h.visited hb), h.lowlinks b hb]
  · rcases List.mem_append.mp hb with hb | hb
    · exact h'.fresh b hb (h.visited hv)
    · exact h.fresh b hb hv

-- A block that was on the stack before is older than what was added.
theorem Extends.mem_stack {added : List β} (h : Extends g root s t added) {b : β}
    (hb : Visited s b) : b ∈ t.stack ↔ b ∈ s.stack := by
  rw [h.stack, List.mem_append, or_iff_right fun hmem => h.fresh b hmem hb]

theorem Inv.congr (h : Inv g root s) {t : State β} (hindices : t.indices = s.indices)
    (honStack : t.onStack = s.onStack) (hstack : t.stack = s.stack) (hsccs : t.sccs = s.sccs)
    (hindex : t.index = s.index) : Inv g root t := by
  obtain ⟨indices, lowlinks, onStack, stack, sccs, index⟩ := t
  obtain rfl := hindices
  obtain rfl := honStack
  obtain rfl := hstack
  obtain rfl := hsccs
  obtain rfl := hindex
  exact ⟨h.index_lt, h.parent, h.onStack, h.visited, h.order, h.closed,
    fun scc hscc => ⟨(h.sound scc hscc).nodup, (h.sound scc hscc).ne_nil, (h.sound scc hscc).settled,
      (h.sound scc hscc).cycle, (h.sound scc hscc).mem_iff⟩, h.complete, h.disjoint⟩

theorem Inv.lower (h : Inv g root s) (node : β) (link : Nat) : Inv g root (s.lower node link) :=
  h.congr rfl rfl rfl rfl rfl

@[simp] theorem indices_enter (s : State β) (node : β) :
    (s.enter node).indices = Function.update s.indices node (some s.index) := rfl

theorem indexOf_enter (s : State β) (node b : β) :
    (s.enter node).indexOf b = if b = node then s.index else s.indexOf b := by
  by_cases hb : b = node
  · subst hb
    rw [State.indexOf, indices_enter, Function.update_self, if_pos rfl]
    rfl
  · rw [State.indexOf, indices_enter, Function.update_of_ne hb, if_neg hb]
    rfl

theorem visited_enter {node b : β} : Visited (s.enter node) b ↔ b = node ∨ Visited s b := by
  rw [Visited, indices_enter]
  by_cases hb : b = node
  · subst hb
    simp
  · simp [hb, Visited]

theorem settled_enter {node b : β} (hnode : ¬Visited s node) :
    Settled (s.enter node) b ↔ Settled s b := by
  have hstack : b ∈ (s.enter node).stack ↔ b = node ∨ b ∈ s.stack := List.mem_cons
  rw [Settled, Settled, visited_enter, hstack]
  constructor
  · rintro ⟨hvisited, hout⟩
    exact ⟨hvisited.resolve_left fun h => hout (Or.inl h), fun h => hout (Or.inr h)⟩
  · rintro ⟨hvisited, hout⟩
    exact ⟨Or.inr hvisited, fun h => h.elim (fun heq => hnode (heq ▸ hvisited)) hout⟩

omit [DecidableEq π] in
theorem Component.congr {scc : List β} (h : Component g root s scc)
    (hsettled : ∀ v ∈ scc, Settled s v → Settled t v) : Component g root t scc :=
  ⟨h.nodup, h.ne_nil, fun v hv => hsettled v hv (h.settled v hv), h.cycle, h.mem_iff⟩

theorem Inv.enter (h : Inv g root s) {node : β} (hnode : ¬Visited s node)
    (hmem : node ∈ g.children root) : Extends g root s (s.enter node) [node] := by
  have hne {b : β} (hb : Visited s b) : b ≠ node := fun heq => hnode (heq ▸ hb)
  refine ⟨⟨fun b hb => ?_, fun b hb => ?_, fun b => ?_, fun b hb => ?_, ?_, fun x y hx hedge => ?_,
    fun scc hscc => ?_, fun v hv hcycle => ?_, h.disjoint⟩, rfl, fun b hb => ?_, fun b hb => ?_,
    fun b hb hv => ?_, Nat.le_succ _⟩
  · rw [indexOf_enter]
    rcases visited_enter.mp hb with rfl | hb
    · rw [if_pos rfl]
      exact Nat.lt_succ_self _
    · rw [if_neg (hne hb)]
      exact Nat.lt_succ_of_lt (h.index_lt b hb)
  · rcases visited_enter.mp hb with rfl | hb
    · exact hmem
    · exact h.parent b hb
  · rw [show (s.enter node).stack = node :: s.stack from rfl, List.mem_cons]
    by_cases hb : b = node
    · subst hb
      simp [State.enter]
    · rw [show (s.enter node).onStack b = s.onStack b from Function.update_of_ne hb .., h.onStack,
        or_iff_right hb]
  · rcases List.mem_cons.mp hb with rfl | hb
    · exact visited_enter.mpr (Or.inl rfl)
    · exact visited_enter.mpr (Or.inr (h.visited b hb))
  · refine List.pairwise_cons.mpr ⟨fun b hb => ?_, h.order.imp_of_mem fun ha hb hlt => ?_⟩
    · rw [indexOf_enter, indexOf_enter, if_pos rfl, if_neg (hne (h.visited b hb))]
      exact h.index_lt b (h.visited b hb)
    · rwa [indexOf_enter, indexOf_enter, if_neg (hne (h.visited _ ha)),
        if_neg (hne (h.visited _ hb))]
  · exact (settled_enter hnode).mpr (h.closed x y ((settled_enter hnode).mp hx) hedge)
  · exact (h.sound scc hscc).congr fun v _ hv => (settled_enter hnode).mpr hv
  · exact h.complete v ((settled_enter hnode).mp hv) hcycle
  · exact Function.update_of_ne (hne hb) ..
  · exact Function.update_of_ne (hne hb) ..
  · rw [List.mem_singleton.mp hb] at hv
    exact hnode hv

omit [DecidableEq π] in
theorem popUntil_eq {node : β} {added rest : List β} (h : node ∉ added) :
    popUntil node (added ++ node :: rest) = some (added ++ [node], rest) := by
  induction added with
  | nil => rw [List.nil_append, popUntil, if_pos rfl, List.nil_append]
  | cons w added ih =>
      obtain ⟨hne, hrest⟩ := not_or.mp (mt List.mem_cons.mpr h)
      rw [List.cons_append, popUntil, if_neg (Ne.symm hne), ih hrest]
      rfl

-- What the search knows of a block above which the stack is complete.
structure Complete (g : Cfg β π) (root : π) (t : State β) (node : β) (added : List β) : Prop where
  reach : ∀ y ∈ added ++ [node], ReflTransGen (Edge g root) node y
  edges : ∀ y ∈ added ++ [node], ∀ z, Edge g root y z →
    Visited t z ∧ (z ∈ t.stack → t.lowlinks node ≤ t.indexOf z)
  older : ∀ y ∈ added, ∃ z ∈ t.stack, t.indexOf z < t.indexOf y ∧ ReflTransGen (Edge g root) y z

theorem Complete.inside {node : β} {added rest : List β} (h : Complete g root t node added)
    (hinv : Inv g root t) (hstack : t.stack = added ++ node :: rest)
    (hlow : t.lowlinks node = t.indexOf node) {x y : β} (hx : x ∈ added ++ [node])
    (hedge : Edge g root x y) : y ∈ added ++ [node] ∨ Settled t y := by
  obtain ⟨hvisited, hindex⟩ := h.edges x hx y hedge
  by_cases hy : y ∈ t.stack
  · have horder := hinv.order
    have hle := hindex hy
    rw [hstack] at horder hy
    rw [List.mem_append, List.mem_cons] at hy
    rw [List.mem_append, List.mem_singleton]
    rcases hy with hy | hy | hy
    · exact Or.inl (Or.inl hy)
    · exact Or.inl (Or.inr hy)
    · have hlt := List.rel_of_pairwise_cons (List.pairwise_append.mp horder).2.1 hy
      omega
  · exact Or.inr ⟨hvisited, hy⟩

theorem Complete.mem_iff {node : β} {added rest : List β} (h : Complete g root t node added)
    (hinv : Inv g root t) (hstack : t.stack = added ++ node :: rest)
    (hlow : t.lowlinks node = t.indexOf node) {u : β} :
    u ∈ added ++ [node] ↔ Connected (Edge g root) node u := by
  have hinside (x y : β) (hx : x ∈ added ++ [node]) (hedge : Edge g root x y) :
      y ∈ added ++ [node] ∨ Settled t y := h.inside hinv hstack hlow hx hedge
  have hnode : node ∈ t.stack := by
    rw [hstack]
    simp
  refine inside_iff_connected hinv.closed hinside (by simp) (fun hs => hs.2 hnode) h.reach
    fun x hx => reach_root t.indexOf hinv.closed hinside (fun y hy => ?_) hx
  rcases List.mem_append.mp hy with hy | hy
  · obtain ⟨z, hz, hlt, hreach⟩ := h.older y hy
    exact Or.inr ⟨z, fun hs => hs.2 hz, hlt, hreach⟩
  · exact Or.inl (List.mem_singleton.mp hy)

-- The state after the component of the node has been taken from the stack.
def popped (t : State β) (added : List β) (node : β) (rest : List β) (sccs : List (List β)) :
    State β :=
  { t with
    stack := rest
    onStack := fun b => t.onStack b && !(added ++ [node]).contains b
    sccs }

theorem settled_popped {node b : β} {added rest : List β} {sccs : List (List β)}
    (hinv : Inv g root t) (hstack : t.stack = added ++ node :: rest) :
    Settled (Shader.popped t added node rest sccs) b ↔ b ∈ added ++ [node] ∨ Settled t b := by
  have hnodup : t.stack.Nodup := hinv.order.imp fun hlt heq => by subst heq; omega
  rw [hstack, List.append_cons] at hnodup
  have hmem : b ∈ t.stack ↔ b ∈ added ++ [node] ∨ b ∈ rest := by
    rw [hstack, List.append_cons, List.mem_append]
  have hapart : b ∈ added ++ [node] → b ∉ rest := fun h h' =>
    (List.nodup_append.mp hnodup).2.2 b h b h' rfl
  change Visited t b ∧ b ∉ rest ↔ b ∈ added ++ [node] ∨ Visited t b ∧ b ∉ t.stack
  rw [hmem]
  constructor
  · rintro ⟨hvisited, hrest⟩
    by_cases hb : b ∈ added ++ [node]
    · exact Or.inl hb
    · exact Or.inr ⟨hvisited, fun h => h.elim hb hrest⟩
  · rintro (hb | ⟨hvisited, hout⟩)
    · exact ⟨hinv.visited b (hmem.mpr (Or.inl hb)), hapart hb⟩
    · exact ⟨hvisited, fun h => hout (Or.inr h)⟩

theorem Complete.popped {node : β} {added rest : List β} (h : Complete g root t node added)
    (hinv : Inv g root t) (hstack : t.stack = added ++ node :: rest)
    (hlow : t.lowlinks node = t.indexOf node) {sccs : List (List β)}
    (hsound : ∀ scc ∈ sccs, Component g root (popped t added node rest sccs) scc)
    (hcomplete : ∀ v, v ∈ added ++ [node] ∨ Settled t v → TransGen (Edge g root) v v →
      ∃ scc ∈ sccs, v ∈ scc)
    (hdisjoint : sccs.Pairwise List.Disjoint) : Inv g root (popped t added node rest sccs) := by
  have hsettled (b : β) : Settled (Shader.popped t added node rest sccs) b ↔
      b ∈ added ++ [node] ∨ Settled t b := settled_popped hinv hstack
  have hsub : rest.Sublist t.stack := by
    rw [hstack]
    exact (List.sublist_cons_self node rest).trans (List.sublist_append_right added _)
  refine ⟨hinv.index_lt, hinv.parent, fun b => ?_, fun b hb => hinv.visited b (hsub.subset hb),
    hinv.order.sublist hsub, fun x y hx hedge => ?_, hsound,
    fun v hv hcycle => hcomplete v ((hsettled v).mp hv) hcycle, hdisjoint⟩
  · have hb := hsettled b
    change (t.onStack b && !(added ++ [node]).contains b) = true ↔ b ∈ rest
    rw [Bool.and_eq_true, hinv.onStack, Bool.not_eq_true', List.contains_eq_mem,
      decide_eq_false_iff_not]
    constructor
    · rintro ⟨hmem, hout⟩
      rw [hstack, List.append_cons, List.mem_append] at hmem
      exact hmem.resolve_left hout
    · intro hmem
      have hmem' := hsub.subset hmem
      exact ⟨hmem', fun hin => ((hsettled b).mpr (Or.inl hin)).2 hmem⟩
  · refine (hsettled y).mpr ?_
    rcases (hsettled x).mp hx with hx | hx
    · exact h.inside hinv hstack hlow hx hedge
    · exact Or.inr (hinv.closed x y hx hedge)

omit [DecidableEq β] [DecidableEq π] in
theorem eq_nil_of_single {node : β} {added : List β} (h : ¬(added ++ [node]).length > 1) :
    added = [] := by
  rw [List.length_append, List.length_singleton] at h
  exact List.length_eq_zero_iff.mp (by omega)

omit [DecidableEq π] in
theorem exists_ne {l : List β} (hnodup : l.Nodup) (hlong : l.length > 1) (v : β) :
    ∃ u ∈ l, u ≠ v := by
  match l, hlong with
  | a :: b :: rest, _ =>
      have hne : b ≠ a := fun heq =>
        (List.nodup_cons.mp hnodup).1 (heq ▸ List.mem_cons_self)
      by_cases hv : a = v
      · exact ⟨b, by simp, hv ▸ hne⟩
      · exact ⟨a, List.mem_cons_self, hv⟩

-- A node with a cycle through it that is alone in its component branches to itself.
theorem Complete.self_edge {node : β} {rest : List β} (h : Complete g root t node [])
    (hinv : Inv g root t) (hstack : t.stack = node :: rest)
    (hlow : t.lowlinks node = t.indexOf node) (hcycle : TransGen (Edge g root) node node) :
    g.hasSuccessor node node = true := by
  obtain ⟨z, hedge, hback⟩ := TransGen.head'_iff.mp hcycle
  have hz := (h.mem_iff hinv hstack hlow).mpr ⟨.single hedge, hback⟩
  rw [List.nil_append, List.mem_singleton] at hz
  subst hz
  exact hasSuccessor_iff.mpr hedge.2.2

theorem Complete.component {node : β} {added rest : List β} (h : Complete g root t node added)
    (hinv : Inv g root t) (hstack : t.stack = added ++ node :: rest)
    (hlow : t.lowlinks node = t.indexOf node)
    (hcycle : (added ++ [node]).length > 1 ∨ g.hasSuccessor node node = true) (sccs : List (List β)) :
    Component g root (Shader.popped t added node rest sccs) (added ++ [node]) := by
  have hmem (u : β) := h.mem_iff (u := u) hinv hstack hlow
  have hnodup : (added ++ [node]).Nodup := by
    have hnodup : t.stack.Nodup := hinv.order.imp fun hlt heq => by subst heq; omega
    rw [hstack, List.append_cons] at hnodup
    exact (List.nodup_append.mp hnodup).1
  have hconnected (v u : β) (hv : v ∈ added ++ [node]) :
      u ∈ added ++ [node] ↔ Connected (Edge g root) v u := by
    have hv' := (hmem v).mp hv
    exact (hmem u).trans ⟨fun hu => hv'.symm.trans hu, fun hu => hv'.trans hu⟩
  refine ⟨hnodup, by simp, fun v hv => (settled_popped hinv hstack).mpr (Or.inl hv), fun v hv => ?_,
    fun v hv u => hconnected v u hv⟩
  by_cases hlong : (added ++ [node]).length > 1
  · obtain ⟨u, hu, hne⟩ := exists_ne hnodup hlong v
    exact transGen_of_connected hne.symm ((hconnected v u hv).mp hu)
  · obtain rfl := eq_nil_of_single hlong
    obtain rfl := List.mem_singleton.mp hv
    have hself := hasSuccessor_iff.mp (hcycle.resolve_left hlong)
    have hvisited := hinv.visited v (by rw [hstack]; exact List.mem_cons_self)
    have hparent := (mem_children.mp (hinv.parent v hvisited)).2
    exact .single ⟨hparent, hparent, hself⟩

theorem Complete.close {node : β} {added rest : List β} (h : Complete g root t node added)
    (hinv : Inv g root t) (hstack : t.stack = added ++ node :: rest)
    (hlow : t.lowlinks node = t.indexOf node) :
    ∃ sccs, Shader.close g node t = some (Shader.popped t added node rest sccs) ∧
      Inv g root (Shader.popped t added node rest sccs) := by
  have hold (sccs : List (List β)) (scc : List β) (hscc : scc ∈ t.sccs) :
      Component g root (Shader.popped t added node rest sccs) scc :=
    (hinv.sound scc hscc).congr fun v _ hv => (settled_popped hinv hstack).mpr (Or.inr hv)
  have hout : node ∉ added := by
    have hnodup : t.stack.Nodup := hinv.order.imp fun hlt heq => by subst heq; omega
    rw [hstack] at hnodup
    exact fun hmem => (List.nodup_append.mp hnodup).2.2 node hmem node List.mem_cons_self rfl
  have hpop : popUntil node t.stack = some (added ++ [node], rest) := by
    rw [hstack, popUntil_eq hout]
  by_cases hcycle : (added ++ [node]).length > 1 ∨ g.hasSuccessor node node = true
  · refine ⟨t.sccs ++ [added ++ [node]], ?_, h.popped hinv hstack hlow (fun scc hscc => ?_)
      (fun v hv hv' => ?_) ?_⟩
    · simp only [Shader.close, if_pos hlow, hpop, bind, Option.bind, if_pos hcycle]
      rfl
    · rcases List.mem_append.mp hscc with hscc | hscc
      · exact hold _ scc hscc
      · rw [List.mem_singleton.mp hscc]
        exact h.component hinv hstack hlow hcycle _
    · rcases hv with hv | hv
      · exact ⟨_, List.mem_append_right _ (List.mem_singleton.mpr rfl), hv⟩
      · obtain ⟨scc, hscc, hmem⟩ := hinv.complete v hv hv'
        exact ⟨scc, List.mem_append_left _ hscc, hmem⟩
    · refine List.pairwise_append.mpr ⟨hinv.disjoint, List.pairwise_singleton .., ?_⟩
      intro scc hscc new hnew v hv hv'
      rw [List.mem_singleton.mp hnew] at hv'
      refine ((hinv.sound scc hscc).settled v hv).2 ?_
      rw [hstack, List.append_cons]
      exact List.mem_append_left _ hv'
  · obtain ⟨hshort, hself⟩ := not_or.mp hcycle
    obtain rfl := eq_nil_of_single hshort
    refine ⟨t.sccs, ?_, h.popped hinv hstack hlow (fun scc hscc => hold _ scc hscc)
      (fun v hv hv' => ?_) hinv.disjoint⟩
    · simp only [Shader.close, if_pos hlow, hpop, bind, Option.bind, if_neg hcycle]
      rfl
    · rcases hv with hv | hv
      · obtain rfl := List.mem_singleton.mp hv
        exact absurd (h.self_edge hinv hstack hlow hv') hself
      · exact hinv.complete v hv hv'

theorem Extends.lower {added : List β} (h : Extends g root s t added) {node : β}
    (hnode : ¬Visited s node) (link : Nat) : Extends g root s (t.lower node link) added := by
  refine ⟨h.inv.lower node link, h.stack, h.indices, fun b hb => ?_, h.fresh, h.index_le⟩
  have hne : b ≠ node := fun heq => hnode (heq ▸ hb)
  exact (Function.update_of_ne hne ..).trans (h.lowlinks b hb)

-- The bound that a link gives for the edges out of a set of blocks.
def Bounded (g : Cfg β π) (root : π) (t : State β) (link : Nat) (added : List β) : Prop :=
  ∀ y ∈ added, ∀ z, Edge g root y z → Visited t z ∧ (z ∈ t.stack → link ≤ t.indexOf z)

def Older (g : Cfg β π) (root : π) (t : State β) (added : List β) : Prop :=
  ∀ y ∈ added, ∃ z ∈ t.stack, t.indexOf z < t.indexOf y ∧ ReflTransGen (Edge g root) y z

-- What a call of strongConnect has done.
structure Connects (g : Cfg β π) (root : π) (s t : State β) (node : β) (added : List β) : Prop where
  ext : Extends g root s t added
  visited : Visited t node
  own : t.indexOf node = s.index
  reach : ∀ y ∈ added, ReflTransGen (Edge g root) node y
  bounded : Bounded g root t (t.lowlinks node) added
  older : Older g root t added
  low : (added = [] ∧ s.index ≤ t.lowlinks node) ∨
    ∃ z ∈ s.stack, s.indexOf z = t.lowlinks node ∧ ReflTransGen (Edge g root) node z

-- Where the loop over the successors is.
structure Scan (g : Cfg β π) (root : π) (s t : State β) (node : β) (added done : List β)
    (link : Nat) : Prop where
  ext : Extends g root s t (added ++ [node])
  own : t.indexOf node = s.index
  link_le : link ≤ s.index
  low : ∃ z ∈ t.stack, t.indexOf z = link ∧ ReflTransGen (Edge g root) node z
  reach : ∀ y ∈ added, ReflTransGen (Edge g root) node y
  bounded : Bounded g root t link added
  older : Older g root t added
  seen : ∀ w ∈ done, g.parent w = root → Visited t w ∧ (w ∈ t.stack → link ≤ t.indexOf w)

section Scanning

variable {node w : β} {added done : List β} {link : Nat}

theorem Scan.fresh (h : Scan g root s t node added done link) : ¬Visited s node :=
  h.ext.fresh node (by simp)

theorem Scan.mem_stack (h : Scan g root s t node added done link) : node ∈ t.stack := by
  rw [h.ext.stack]
  simp

theorem Scan.lower (h : Scan g root s t node added done link) (link' : Nat) :
    Scan g root s (t.lower node link') node added done link :=
  ⟨h.ext.lower h.fresh link', h.own, h.link_le, h.low, h.reach, h.bounded, h.older, h.seen⟩

omit [DecidableEq π] in
theorem Bounded.mono (h : Bounded g root t link added) {link' : Nat} (hle : link' ≤ link) :
    Bounded g root t link' added := fun y hy z hedge =>
  ⟨(h y hy z hedge).1, fun hz => Nat.le_trans hle ((h y hy z hedge).2 hz)⟩

theorem Scan.seen_append (h : Scan g root s t node added done link) {link' : Nat}
    (hle : link' ≤ link) (hw : g.parent w = root → Visited t w ∧ (w ∈ t.stack → link' ≤ t.indexOf w)) :
    ∀ u ∈ done ++ [w], g.parent u = root →
      Visited t u ∧ (u ∈ t.stack → link' ≤ t.indexOf u) := by
  intro u hu hparent
  rcases List.mem_append.mp hu with hu | hu
  · obtain ⟨hvisited, hindex⟩ := h.seen u hu hparent
    exact ⟨hvisited, fun hmem => Nat.le_trans hle (hindex hmem)⟩
  · rw [List.mem_singleton.mp hu] at hparent ⊢
    exact hw hparent

-- A successor that is not waited for.
theorem Scan.skip (h : Scan g root s t node added done link)
    (hw : g.parent w = root → Visited t w ∧ w ∉ t.stack) :
    Scan g root s t node added (done ++ [w]) link :=
  ⟨h.ext, h.own, h.link_le, h.low, h.reach, h.bounded, h.older,
    h.seen_append (Nat.le_refl _) fun hparent =>
      ⟨(hw hparent).1, fun hmem => absurd hmem (hw hparent).2⟩⟩

-- A successor that is on the stack.
theorem Scan.back (h : Scan g root s t node added done link) (hedge : Edge g root node w)
    (hw : w ∈ t.stack) :
    Scan g root s t node added (done ++ [w]) (min link (t.indexOf w)) := by
  have hle : min link (t.indexOf w) ≤ link := Nat.min_le_left ..
  refine ⟨h.ext, h.own, Nat.le_trans hle h.link_le, ?_, h.reach, h.bounded.mono hle, h.older,
    h.seen_append hle fun _ => ⟨h.ext.inv.visited w hw, fun _ => Nat.min_le_right ..⟩⟩
  rcases Nat.le_total link (t.indexOf w) with hmin | hmin
  · rw [Nat.min_eq_left hmin]
    exact h.low
  · rw [Nat.min_eq_right hmin]
    exact ⟨w, hw, rfl, .single hedge⟩

theorem Bounded.extends {u : State β} {added' : List β} (h : Bounded g root t link added)
    (hext : Extends g root t u added') : Bounded g root u link added := by
  intro y hy z hedge
  obtain ⟨hvisited, hindex⟩ := h y hy z hedge
  refine ⟨hext.visited hvisited, fun hz => ?_⟩
  rw [hext.indexOf hvisited]
  exact hindex ((hext.mem_stack hvisited).mp hz)

theorem Older.extends {u : State β} {added' : List β} (h : Older g root t added)
    (hvisited : ∀ y ∈ added, Visited t y) (hinv : Inv g root t)
    (hext : Extends g root t u added') : Older g root u added := by
  intro y hy
  obtain ⟨z, hz, hlt, hreach⟩ := h y hy
  have hvisitedz := hinv.visited z hz
  refine ⟨z, (hext.mem_stack hvisitedz).mpr hz, ?_, hreach⟩
  rwa [hext.indexOf hvisitedz, hext.indexOf (hvisited y hy)]

-- A successor that was visited from here.
theorem Scan.tree (h : Scan g root s t node added done link) (hedge : Edge g root node w)
    {u : State β} {added' : List β} (hcall : Connects g root t u w added') :
    Scan g root s u node (added' ++ added) (done ++ [w]) (min link (u.lowlinks w)) := by
  have hle : min link (u.lowlinks w) ≤ link := Nat.min_le_left ..
  have hle' : min link (u.lowlinks w) ≤ u.lowlinks w := Nat.min_le_right ..
  have hnode := h.ext.inv.visited node h.mem_stack
  have hadded : ∀ y ∈ added, Visited t y := fun y hy => h.ext.inv.visited y (by
    rw [h.ext.stack]
    simp [hy])
  refine ⟨by rw [List.append_assoc]; exact h.ext.trans hcall.ext, ?_, Nat.le_trans hle h.link_le, ?_,
    fun y hy => ?_, fun y hy => ?_, fun y hy => ?_, fun v hv hparent => ?_⟩
  · rw [hcall.ext.indexOf hnode, h.own]
  · obtain ⟨z, hz, hindex, hreach⟩ := h.low
    have hvisited := h.ext.inv.visited z hz
    have hstay : ∃ z ∈ u.stack, u.indexOf z = link ∧ ReflTransGen (Edge g root) node z :=
      ⟨z, (hcall.ext.mem_stack hvisited).mpr hz, by rw [hcall.ext.indexOf hvisited, hindex], hreach⟩
    rcases hcall.low with ⟨-, hlow⟩ | ⟨z', hz', hindex', hreach'⟩
    · rw [Nat.min_eq_left (Nat.le_trans h.link_le (Nat.le_trans h.ext.index_le hlow))]
      exact hstay
    · rcases Nat.le_total link (u.lowlinks w) with hmin | hmin
      · rw [Nat.min_eq_left hmin]
        exact hstay
      · rw [Nat.min_eq_right hmin]
        have hvisited' := h.ext.inv.visited z' hz'
        exact ⟨z', (hcall.ext.mem_stack hvisited').mpr hz',
          by rw [hcall.ext.indexOf hvisited', hindex'], .head hedge hreach'⟩
  · rcases List.mem_append.mp hy with hy | hy
    · exact .head hedge (hcall.reach y hy)
    · exact h.reach y hy
  · rcases List.mem_append.mp hy with hy | hy
    · exact hcall.bounded.mono hle' y hy
    · exact (h.bounded.extends hcall.ext).mono hle y hy
  · rcases List.mem_append.mp hy with hy | hy
    · exact hcall.older y hy
    · exact h.older.extends hadded h.ext.inv hcall.ext y hy
  · rcases List.mem_append.mp hv with hv | hv
    · obtain ⟨hvisited, hindex⟩ := h.seen v hv hparent
      refine ⟨hcall.ext.visited hvisited, fun hmem => ?_⟩
      rw [hcall.ext.indexOf hvisited]
      exact Nat.le_trans hle (hindex ((hcall.ext.mem_stack hvisited).mp hmem))
    · rw [List.mem_singleton.mp hv]
      refine ⟨hcall.visited, fun _ => ?_⟩
      rw [hcall.own]
      exact Nat.le_trans hle (Nat.le_trans h.link_le h.ext.index_le)

-- The blocks that the search has not come to.
def unvisited (g : Cfg β π) (root : π) (s : State β) : Nat :=
  ((g.children root).toFinset.filter fun b => s.indices b = none).card

theorem unvisited_lt (hkeep : ∀ b, Visited s b → Visited t b) (hnode : ¬Visited s node)
    (hnode' : Visited t node) (hmem : node ∈ g.children root) :
    unvisited g root t < unvisited g root s := by
  refine Finset.card_lt_card (Finset.ssubset_iff_of_subset (fun b hb => ?_) |>.mpr ⟨node, ?_, ?_⟩)
  · rw [Finset.mem_filter] at hb ⊢
    exact ⟨hb.1, not_not.mp fun hv => hkeep b hv hb.2⟩
  · rw [Finset.mem_filter]
    exact ⟨List.mem_toFinset.mpr hmem, not_not.mp hnode⟩
  · rw [Finset.mem_filter]
    exact fun h => hnode' h.2

theorem Scan.unvisited_lt (h : Scan g root s t node added done link) :
    unvisited g root t < unvisited g root s := by
  have hnode := h.ext.inv.visited node h.mem_stack
  exact Shader.unvisited_lt (fun b hb => h.ext.visited hb) h.fresh hnode (h.ext.inv.parent node hnode)

-- A function that does what strongConnect is to do, from states with few blocks to visit.
def Searches (g : Cfg β π) (root : π) (depth : Nat) (connect : β → State β → Option (State β)) :
    Prop :=
  ∀ node s, Inv g root s → ¬Visited s node → node ∈ g.children root → unvisited g root s ≤ depth →
    ∃ t added, connect node s = some t ∧ Connects g root s t node added

variable {depth : Nat} {connect : β → State β → Option (State β)}

theorem lowlinks_lower (s : State β) (node : β) (link : Nat) :
    (s.lower node link).lowlinks node = min (s.lowlinks node) link := Function.update_self ..

theorem Scan.visit (h : Scan g root s t node added done (t.lowlinks node))
    (hconnect : Searches g root depth connect) (hdepth : unvisited g root s ≤ depth + 1)
    (hw : w ∈ g.getSuccessors node) :
    ∃ t' added', Shader.visit g root connect node t w = some t' ∧
      Scan g root s t' node added' (done ++ [w]) (t'.lowlinks node) := by
  have hlt := h.unvisited_lt
  have hnode := h.ext.inv.visited node h.mem_stack
  by_cases hparent : g.parent w = root
  · have hedge : Edge g root node w :=
      ⟨(mem_children.mp (h.ext.inv.parent node hnode)).2, hparent, hw⟩
    cases hindex : t.indices w with
    | none =>
        obtain ⟨u, added', hu, hcall⟩ :=
          hconnect w t h.ext.inv (not_not.mpr hindex) hedge.mem_children (by omega)
        refine ⟨u.lower node (u.lowlinks w), added' ++ added, ?_, ?_⟩
        · simp only [Shader.visit, if_neg (not_not.mpr hparent), hindex, hu, bind, Option.bind]
        · rw [lowlinks_lower, hcall.ext.lowlinks node hnode]
          exact (h.tree hedge hcall).lower _
    | some index =>
        have hvisited : Visited t w := by
          rw [Visited, hindex]
          nofun
        have hindexOf : t.indexOf w = index := by
          rw [State.indexOf, hindex]
          rfl
        by_cases hstack : t.onStack w = true
        · refine ⟨t.lower node index, added, ?_, ?_⟩
          · simp only [Shader.visit, if_neg (not_not.mpr hparent), hindex, if_pos hstack]
          · rw [lowlinks_lower, ← hindexOf]
            exact (h.back hedge ((h.ext.inv.onStack w).mp hstack)).lower _
        · refine ⟨t, added, ?_, h.skip fun _ => ⟨hvisited, mt (h.ext.inv.onStack w).mpr hstack⟩⟩
          simp only [Shader.visit, if_neg (not_not.mpr hparent), hindex, if_neg hstack]
  · exact ⟨t, added, by rw [Shader.visit, if_pos hparent], h.skip fun hp => absurd hp hparent⟩

theorem Scan.all (h : Scan g root s t node added done (t.lowlinks node))
    (hconnect : Searches g root depth connect) (hdepth : unvisited g root s ≤ depth + 1)
    {rest : List β} (hrest : ∀ w ∈ rest, w ∈ g.getSuccessors node) :
    ∃ t' added', rest.foldlM (Shader.visit g root connect node) t = some t' ∧
      Scan g root s t' node added' (done ++ rest) (t'.lowlinks node) := by
  induction rest generalizing t added done with
  | nil => exact ⟨t, added, rfl, by rwa [List.append_nil]⟩
  | cons w rest ih =>
      obtain ⟨t₁, added₁, ht₁, hscan⟩ := h.visit hconnect hdepth (hrest w List.mem_cons_self)
      obtain ⟨t', added', ht', hdone⟩ := ih hscan fun u hu => hrest u (List.mem_cons_of_mem _ hu)
      rw [List.append_assoc, List.singleton_append] at hdone
      refine ⟨t', added', ?_, hdone⟩
      rw [List.foldlM_cons, ht₁]
      exact ht'

theorem scan_enter (hinv : Inv g root s) (hnode : ¬Visited s node)
    (hmem : node ∈ g.children root) :
    Scan g root s (s.enter node) node [] [] ((s.enter node).lowlinks node) := by
  have hlow : (s.enter node).lowlinks node = s.index := Function.update_self ..
  have hown : (s.enter node).indexOf node = s.index := by rw [indexOf_enter, if_pos rfl]
  rw [hlow]
  exact ⟨hinv.enter hnode hmem, hown, Nat.le_refl _, ⟨node, List.mem_cons_self, hown, .refl⟩, nofun,
    nofun, nofun, nofun⟩

theorem Scan.complete (h : Scan g root s t node added (g.getSuccessors node) (t.lowlinks node)) :
    Complete g root t node added := by
  refine ⟨fun y hy => ?_, fun y hy z hedge => ?_, h.older⟩
  · rcases List.mem_append.mp hy with hy | hy
    · exact h.reach y hy
    · rw [List.mem_singleton.mp hy]
  · rcases List.mem_append.mp hy with hy | hy
    · exact h.bounded y hy z hedge
    · rw [List.mem_singleton.mp hy] at hedge
      exact h.seen z hedge.2.2 hedge.2.1

-- A link below the own index is the index of an older block.
theorem Scan.older_link (h : Scan g root s t node added done link) (hne : link ≠ s.index) :
    ∃ z ∈ s.stack, t.indexOf z = link ∧ ReflTransGen (Edge g root) node z := by
  obtain ⟨z, hz, hindex, hreach⟩ := h.low
  have horder := h.ext.inv.order
  have hle := h.link_le
  rw [h.ext.stack, List.append_assoc, List.singleton_append] at hz horder
  rcases List.mem_append.mp hz with hadded | hrest
  · have hlt := (List.pairwise_append.mp horder).2.2 z hadded node List.mem_cons_self
    rw [h.own] at hlt
    omega
  · rcases List.mem_cons.mp hrest with rfl | hold
    · exact absurd (hindex.symm.trans h.own) hne
    · exact ⟨z, hold, hindex, hreach⟩

theorem Scan.close (hinv : Inv g root s)
    (h : Scan g root s t node added (g.getSuccessors node) (t.lowlinks node)) :
    ∃ t' added', Shader.close g node t = some t' ∧ Connects g root s t' node added' := by
  have hcomplete := h.complete
  have hstack : t.stack = added ++ node :: s.stack := by
    rw [h.ext.stack, List.append_assoc, List.singleton_append]
  have hnode := h.ext.inv.visited node h.mem_stack
  by_cases hlow : t.lowlinks node = t.indexOf node
  · obtain ⟨sccs, hclose, hpopped⟩ := hcomplete.close h.ext.inv hstack hlow
    refine ⟨_, [], hclose, ⟨⟨hpopped, rfl, h.ext.indices, h.ext.lowlinks, nofun, h.ext.index_le⟩,
      hnode, h.own, nofun, nofun, nofun, Or.inl ⟨rfl, ?_⟩⟩⟩
    change s.index ≤ t.lowlinks node
    rw [hlow, h.own]
  · obtain ⟨z, hz, hindex, hreach⟩ := h.older_link fun heq => hlow (heq.trans h.own.symm)
    refine ⟨t, added ++ [node], by rw [Shader.close, if_neg hlow], ⟨h.ext, hnode, h.own,
      hcomplete.reach, hcomplete.edges, fun y hy => ?_, Or.inr ⟨z, hz, ?_, hreach⟩⟩⟩
    · rcases List.mem_append.mp hy with hy | hy
      · exact h.older y hy
      · obtain rfl := List.mem_singleton.mp hy
        refine ⟨z, by rw [hstack]; simp [hz], ?_, hreach⟩
        rw [hindex, h.own]
        exact Nat.lt_of_le_of_ne h.link_le fun heq => hlow (heq.trans h.own.symm)
    · rw [← hindex, h.ext.indexOf (hinv.visited z hz)]

theorem strongConnect_searches (depth : Nat) :
    Searches g root depth (strongConnect g root depth) := by
  induction depth with
  | zero =>
      intro node s hinv hnode hmem hdepth
      have hpos : 0 < unvisited g root s := by
        refine Finset.card_pos.mpr ⟨node, ?_⟩
        rw [Finset.mem_filter]
        exact ⟨List.mem_toFinset.mpr hmem, not_not.mp hnode⟩
      omega
  | succ depth ih =>
      intro node s hinv hnode hmem hdepth
      obtain ⟨t, added, ht, hscan⟩ :=
        (scan_enter hinv hnode hmem).all ih hdepth fun w hw => hw
      rw [List.nil_append] at hscan
      obtain ⟨t', added', ht', hconnects⟩ := hscan.close hinv
      refine ⟨t', added', ?_, hconnects⟩
      simp only [strongConnect, ht, bind, Option.bind]
      exact ht'

end Scanning

section Whole

variable {node : β}

theorem connectNode_spec (hinv : Inv g root s) (hempty : s.stack = [])
    (hmem : node ∈ g.children root) :
    ∃ t, connectNode g root s node = some t ∧ Inv g root t ∧ t.stack = [] ∧ Visited t node ∧
      ∀ b, Visited s b → Visited t b := by
  have hparent := (mem_children.mp hmem).2
  cases hindex : s.indices node with
  | some i =>
      refine ⟨s, ?_, hinv, hempty, by rw [Visited, hindex]; nofun, fun b hb => hb⟩
      simp only [connectNode, if_neg (not_not.mpr hparent), hindex]
  | none =>
      have hdepth : unvisited g root s ≤ g.blocks.length + 1 := by
        refine Nat.le_trans (Finset.card_filter_le ..) ?_
        refine Nat.le_trans (List.toFinset_card_le _) ?_
        exact Nat.le_succ_of_le (List.length_filter_le ..)
      obtain ⟨t, added, ht, hcall⟩ :=
        strongConnect_searches (g.blocks.length + 1) node s hinv (not_not.mpr hindex) hmem hdepth
      have hstack := hcall.ext.stack
      have hadded : added = [] := by
        rcases hcall.low with ⟨hnil, -⟩ | ⟨z, hz, -⟩
        · exact hnil
        · rw [hempty] at hz
          cases hz
      rw [hempty, hadded] at hstack
      refine ⟨t, ?_, hcall.ext.inv, hstack, hcall.visited, fun b hb => hcall.ext.visited hb⟩
      simp only [connectNode, if_neg (not_not.mpr hparent), hindex, ht]

theorem connectNodes_spec (nodes : List β) (hnodes : ∀ b ∈ nodes, b ∈ g.children root)
    (hinv : Inv g root s) (hempty : s.stack = []) :
    ∃ t, nodes.foldlM (connectNode g root) s = some t ∧ Inv g root t ∧ t.stack = [] ∧
      (∀ b ∈ nodes, Visited t b) ∧ ∀ b, Visited s b → Visited t b := by
  induction nodes generalizing s with
  | nil => exact ⟨s, rfl, hinv, hempty, nofun, fun b hb => hb⟩
  | cons node nodes ih =>
      obtain ⟨t₁, ht₁, hinv₁, hempty₁, hvisited₁, hkeep₁⟩ :=
        connectNode_spec hinv hempty (hnodes node List.mem_cons_self)
      obtain ⟨t, ht, hinv', hempty', hvisited, hkeep⟩ :=
        ih (fun b hb => hnodes b (List.mem_cons_of_mem _ hb)) hinv₁ hempty₁
      refine ⟨t, ?_, hinv', hempty', fun b hb => ?_, fun b hb => hkeep b (hkeep₁ b hb)⟩
      · rw [List.foldlM_cons, ht₁]
        exact ht
      · rcases List.mem_cons.mp hb with rfl | hb
        · exact hkeep _ hvisited₁
        · exact hvisited b hb

theorem initial_inv : Inv g root ({} : State β) :=
  ⟨fun b hb => absurd rfl hb, fun b hb => absurd rfl hb, fun b => by simp, nofun, .nil,
    fun x y hx => absurd rfl hx.1, nofun, fun v hv => absurd rfl hv.1, .nil⟩

-- The components with a cycle of the blocks under a parent, each once.
structure Components (g : Cfg β π) (root : π) (sccs : List (List β)) : Prop where
  nodup : ∀ scc ∈ sccs, scc.Nodup
  cycle : ∀ v, (∃ scc ∈ sccs, v ∈ scc) ↔ TransGen (Edge g root) v v
  mem_iff : ∀ scc ∈ sccs, ∀ v ∈ scc, ∀ u, u ∈ scc ↔ Connected (Edge g root) v u
  ne_nil : ∀ scc ∈ sccs, scc ≠ []
  disjoint : sccs.Pairwise List.Disjoint

theorem findSCCs_spec (h : g.children root ≠ []) :
    ∃ sccs, findSCCs g (g.children root) = some sccs ∧ Components g root sccs := by
  obtain ⟨first, hfirst⟩ : ∃ first, (g.children root).head? = some first :=
    Option.ne_none_iff_exists'.mp (mt List.head?_eq_none_iff.mp h)
  have hroot : g.parent first = root := (mem_children.mp (List.mem_of_head? hfirst)).2
  obtain ⟨t, ht, hinv, hempty, hvisited, -⟩ :=
    connectNodes_spec (g.children root) (fun b hb => hb) initial_inv rfl
  have hsettled (v : β) (hv : v ∈ g.children root) : Settled t v :=
    ⟨hvisited v hv, by rw [hempty]; nofun⟩
  refine ⟨t.sccs, ?_, fun scc hscc => (hinv.sound scc hscc).nodup, fun v => ⟨?_, fun hcycle => ?_⟩,
    fun scc hscc => (hinv.sound scc hscc).mem_iff, fun scc hscc => (hinv.sound scc hscc).ne_nil,
    hinv.disjoint⟩
  · simp only [findSCCs, hfirst, hroot, ht, bind, Option.bind]
  · rintro ⟨scc, hscc, hv⟩
    exact (hinv.sound scc hscc).cycle v hv
  · obtain ⟨u, -, hedge⟩ := TransGen.tail'_iff.mp hcycle
    exact hinv.complete v (hsettled v hedge.mem_children) hcycle

end Whole

end Invariant

section Edges

variable {g : Cfg β π} {root : π} {cycles : List β}

-- The edges that a set of blocks has with the outside, and those inside to where it is entered.
structure EdgesExact (g : Cfg β π) (cycles : List β) (edges : CycleEdges β) : Prop where
  entry : ∀ e, e ∈ edges.entryEdges ↔
    e.1 ∉ cycles ∧ ∃ b ∈ cycles, (b, e.2) ∈ g.getAllSuccessors e.1
  exit : ∀ e, e ∈ edges.exitEdges ↔
    e.1 ∈ cycles ∧ ∃ b, b ∉ cycles ∧ (b, e.2) ∈ g.getAllSuccessors e.1
  back : ∀ e, e ∈ edges.backEdges ↔
    e.1 ∈ cycles ∧ ∃ b ∈ cycles, (b, e.2) ∈ g.getAllSuccessors e.1 ∧
      ∃ pred, pred ∉ cycles ∧ b ∈ g.getSuccessors pred
  entry_nodup : edges.entryEdges.Nodup
  exit_nodup : edges.exitEdges.Nodup
  back_nodup : edges.backEdges.Nodup

omit [DecidableEq π] in
theorem mem_getAllPredecessors {region : β} {e : β × Nat} :
    e ∈ g.getAllPredecessors region ↔ (region, e.2) ∈ g.getAllSuccessors e.1 := by
  obtain ⟨from', operand⟩ := e
  simp only [Cfg.getAllPredecessors, List.mem_flatMap, List.mem_map, List.mem_filter]
  constructor
  · rintro ⟨pred, -, ⟨b, i⟩, ⟨hmem, hb⟩, heq⟩
    obtain ⟨rfl, rfl⟩ := Prod.mk.inj heq
    obtain rfl := of_decide_eq_true hb
    exact hmem
  · intro hmem
    have hblock : from' ∈ g.blocks := by
      by_contra hout
      rw [Cfg.getAllSuccessors, g.terminator_other _ hout] at hmem
      cases hmem
    exact ⟨from', hblock, (region, operand), ⟨hmem, decide_eq_true rfl⟩, rfl⟩

omit [DecidableEq π] in
theorem mem_entryEdges (e : β × Nat) : e ∈ (calculateCycleEdges g cycles).entryEdges ↔
    e.1 ∉ cycles ∧ ∃ b ∈ cycles, (b, e.2) ∈ g.getAllSuccessors e.1 := by
  simp only [calculateCycleEdges, List.mem_flatMap, List.mem_filter, mem_getAllPredecessors,
    Bool.not_eq_true', List.contains_eq_mem, decide_eq_false_iff_not]
  constructor
  · rintro ⟨b, hb, hmem, hout⟩
    exact ⟨hout, b, hb, hmem⟩
  · rintro ⟨hout, b, hb, hmem⟩
    exact ⟨b, hb, hmem, hout⟩

-- The edges of the blocks that a test of their targets lets through.
omit [DecidableEq π] in
theorem mem_selected (keep : β → Bool) (e : β × Nat) :
    (e ∈ cycles.flatMap fun block =>
      ((g.getAllSuccessors block).filter fun e => keep e.1).map fun e => (block, e.2)) ↔
      e.1 ∈ cycles ∧ ∃ b, keep b = true ∧ (b, e.2) ∈ g.getAllSuccessors e.1 := by
  obtain ⟨from', operand⟩ := e
  simp only [List.mem_flatMap, List.mem_map, List.mem_filter]
  constructor
  · rintro ⟨block, hblock, ⟨b, i⟩, ⟨hmem, hkeep⟩, heq⟩
    obtain ⟨rfl, rfl⟩ := Prod.mk.inj heq
    exact ⟨hblock, b, hkeep, hmem⟩
  · rintro ⟨hblock, b, hkeep, hmem⟩
    exact ⟨from', hblock, (b, operand), ⟨hmem, hkeep⟩, rfl⟩

omit [DecidableEq π] in
theorem exitEdges_eq (cycles : List β) : (calculateCycleEdges g cycles).exitEdges =
    cycles.flatMap fun block =>
      ((g.getAllSuccessors block).filter fun e => !cycles.contains e.1).map
        fun e => (block, e.2) := by
  simp only [calculateCycleEdges, List.map_flatMap, List.map_map]
  rfl

omit [DecidableEq π] in
theorem mem_exitEdges (e : β × Nat) : e ∈ (calculateCycleEdges g cycles).exitEdges ↔
    e.1 ∈ cycles ∧ ∃ b, b ∉ cycles ∧ (b, e.2) ∈ g.getAllSuccessors e.1 := by
  rw [exitEdges_eq, mem_selected fun b => !cycles.contains b]
  simp

-- The blocks that no edge is a back edge to: the targets of the exit edges.
def passedOver (g : Cfg β π) (cycles : List β) : List β :=
  (cycles.flatMap fun block => ((g.getAllSuccessors block).filter fun e =>
    !cycles.contains e.1).map fun e => (block, e)).map (·.2.1)

omit [DecidableEq π] in
theorem mem_passedOver {b : β} : b ∈ passedOver g cycles ↔
    b ∉ cycles ∧ ∃ block ∈ cycles, ∃ i, (b, i) ∈ g.getAllSuccessors block := by
  simp only [passedOver, List.mem_map, List.mem_flatMap, List.mem_filter, Bool.not_eq_true',
    List.contains_eq_mem, decide_eq_false_iff_not]
  constructor
  · rintro ⟨-, ⟨block, hblock, ⟨b', i⟩, ⟨hmem, hout⟩, rfl⟩, rfl⟩
    exact ⟨hout, block, hblock, i, hmem⟩
  · rintro ⟨hout, block, hblock, i, hmem⟩
    exact ⟨(block, (b, i)), ⟨block, hblock, (b, i), ⟨hmem, hout⟩, rfl⟩, rfl⟩

omit [DecidableEq π] in
theorem backEdges_eq (cycles : List β) : (calculateCycleEdges g cycles).backEdges =
    cycles.flatMap fun block =>
      ((g.getAllSuccessors block).filter fun e => !(passedOver g cycles).contains e.1).map
        fun e => (block, e.2) :=
  rfl

-- All edges inside are kept.
omit [DecidableEq π] in
theorem mem_backEdges (e : β × Nat) : e ∈ (calculateCycleEdges g cycles).backEdges ↔
    e.1 ∈ cycles ∧ ∃ b ∈ cycles, (b, e.2) ∈ g.getAllSuccessors e.1 := by
  rw [backEdges_eq, mem_selected fun b => !(passedOver g cycles).contains b]
  refine and_congr_right fun hin => exists_congr fun b => ?_
  rw [Bool.not_eq_true', List.contains_eq_mem, decide_eq_false_iff_not, mem_passedOver]
  constructor
  · rintro ⟨hkept, hmem⟩
    exact ⟨by_contra fun hout => hkept ⟨hout, e.1, hin, e.2, hmem⟩, hmem⟩
  · rintro ⟨hb, hmem⟩
    exact ⟨fun hpass => hpass.1 hb, hmem⟩

omit [DecidableEq β] in
theorem operands_nodup (terminator : Terminator β) :
    ((walkSuccessors terminator).map Prod.snd).Nodup := by
  cases terminator with
  | branch target => simp [walkSuccessors]
  | branchConditional ifTrue ifFalse => simp [walkSuccessors]
  | construct header => simp [walkSuccessors]
  | other => simp [walkSuccessors]
  | switch targets =>
      have hoperands : (walkSuccessors (.switch targets)).map Prod.snd =
          (targets.zipIdx.map Prod.snd).map fun k => 2 * k + 1 := by
        rw [walkSuccessors, List.map_map, List.map_map]
        rfl
      rw [hoperands, List.zipIdx_map_snd]
      have hinjective : Function.Injective fun k : Nat => 2 * k + 1 := by
        intro a b h
        have h' : 2 * a + 1 = 2 * b + 1 := h
        omega
      exact List.Nodup.map hinjective List.nodup_range'

omit [DecidableEq π] in
theorem target_eq {b b' pred : β} {i : Nat} (h : (b, i) ∈ g.getAllSuccessors pred)
    (h' : (b', i) ∈ g.getAllSuccessors pred) : b = b' :=
  congrArg Prod.fst (List.inj_on_of_nodup_map (operands_nodup (g.terminator pred)) h h' rfl)

omit [DecidableEq π] in
theorem selected_nodup (hcycles : cycles.Nodup) (keep : β → Bool) :
    (cycles.flatMap fun block =>
      ((g.getAllSuccessors block).filter fun e => keep e.1).map fun e => (block, e.2)).Nodup := by
  refine List.nodup_flatMap.mpr ⟨fun block _ => ?_, hcycles.imp fun hne e he he' => ?_⟩
  · refine List.Nodup.of_map Prod.snd ?_
    rw [List.map_map]
    exact (operands_nodup (g.terminator block)).sublist (List.filter_sublist.map Prod.snd)
  · obtain ⟨_, _, rfl⟩ := List.mem_map.mp he
    obtain ⟨_, _, heq⟩ := List.mem_map.mp he'
    exact hne (congrArg Prod.fst heq).symm

omit [DecidableEq π] in
theorem entryEdges_nodup (hcycles : cycles.Nodup) :
    (calculateCycleEdges g cycles).entryEdges.Nodup := by
  refine List.nodup_flatMap.mpr ⟨fun block _ => ?_, hcycles.imp fun hne e he he' => ?_⟩
  · exact (selected_nodup g.nodup fun b => b = block).sublist List.filter_sublist
  · exact hne (target_eq (mem_getAllPredecessors.mp (List.mem_filter.mp he).1)
      (mem_getAllPredecessors.mp (List.mem_filter.mp he').1))

omit [DecidableEq π] in
theorem exitEdges_nodup (hcycles : cycles.Nodup) :
    (calculateCycleEdges g cycles).exitEdges.Nodup := by
  rw [exitEdges_eq]
  exact selected_nodup hcycles fun b => !cycles.contains b

omit [DecidableEq π] in
theorem backEdges_nodup (hcycles : cycles.Nodup) :
    (calculateCycleEdges g cycles).backEdges.Nodup := by
  rw [backEdges_eq]
  exact selected_nodup hcycles fun b => !(passedOver g cycles).contains b

-- Two of the three lists are right for all graphs.
omit [DecidableEq π] in
theorem edgesExact_iff (hcycles : cycles.Nodup) :
    EdgesExact g cycles (calculateCycleEdges g cycles) ↔
      ∀ x ∈ cycles, ∀ y ∈ cycles, y ∈ g.getSuccessors x →
        ∃ pred, pred ∉ cycles ∧ y ∈ g.getSuccessors pred := by
  constructor
  · intro h x hx y hy hedge
    obtain ⟨i, hi⟩ := mem_getSuccessors.mp hedge
    obtain ⟨-, b, -, hb, hentered⟩ := (h.back (x, i)).mp ((mem_backEdges _).mpr ⟨hx, y, hy, hi⟩)
    rwa [target_eq hb hi] at hentered
  · intro h
    refine ⟨mem_entryEdges, mem_exitEdges, fun e => (mem_backEdges e).trans ?_,
      entryEdges_nodup hcycles, exitEdges_nodup hcycles, backEdges_nodup hcycles⟩
    refine and_congr_right fun hin => exists_congr fun b => and_congr_right fun hb => ?_
    exact (and_iff_left_of_imp fun hmem =>
      h e.1 hin b hb (mem_getSuccessors.mpr ⟨e.2, hmem⟩)).symm

-- The components are found, and their edges sorted, in whatever order a component is iterated.
def CycleAnalysis (g : Cfg β π) (root : π) : Prop :=
  ∃ sccs, findSCCs g (g.children root) = some sccs ∧ Components g root sccs ∧
    ∀ scc ∈ sccs, ∀ cycles, cycles.Perm scc → EdgesExact g cycles (calculateCycleEdges g cycles)

-- Every edge inside a component leads to a block that is also entered from outside of it.
def EnteredInside (g : Cfg β π) (root : π) : Prop :=
  ∀ x y, Edge g root x y → Connected (Edge g root) x y →
    ∃ pred, ¬Connected (Edge g root) x pred ∧ y ∈ g.getSuccessors pred

theorem cycleAnalysis_iff (h : g.children root ≠ []) :
    CycleAnalysis g root ↔ EnteredInside g root := by
  obtain ⟨sccs, hfound, hcomponents⟩ := findSCCs_spec h
  constructor
  · rintro ⟨sccs', hfound', -, hedges⟩ x y hedge hconnected
    obtain rfl := Option.some.inj (hfound.symm.trans hfound')
    have hcycle : TransGen (Edge g root) x x := .head' hedge hconnected.2
    obtain ⟨scc, hscc, hx⟩ := (hcomponents.cycle x).mpr hcycle
    have hmem := hcomponents.mem_iff scc hscc x hx
    have hexact := (edgesExact_iff (hcomponents.nodup scc hscc)).mp (hedges scc hscc scc (.refl _))
    obtain ⟨pred, hout, hpred⟩ := hexact x hx y ((hmem y).mpr hconnected) hedge.2.2
    exact ⟨pred, fun hc => hout ((hmem pred).mpr hc), hpred⟩
  · intro hentered
    refine ⟨sccs, hfound, hcomponents, fun scc hscc cycles hperm => ?_⟩
    refine (edgesExact_iff (hperm.nodup_iff.mpr (hcomponents.nodup scc hscc))).mpr
      fun x hx y hy hedge => ?_
    rw [hperm.mem_iff] at hx hy
    have hmem := hcomponents.mem_iff scc hscc x hx
    have hinside (v : β) (hv : v ∈ scc) : g.parent v = root := by
      obtain ⟨u, -, hlast⟩ := TransGen.tail'_iff.mp ((hcomponents.cycle v).mp ⟨scc, hscc, hv⟩)
      exact hlast.2.1
    obtain ⟨pred, hout, hpred⟩ :=
      hentered x y ⟨hinside x hx, hinside y hy, hedge⟩ ((hmem y).mp hy)
    exact ⟨pred, fun hp => hout ((hmem pred).mp (hperm.mem_iff.mp hp)), hpred⟩

-- Block 1 is entered from block 0 and loops, through block 2 or by a branch to itself.
def loopTerminator (latch : Bool) : Fin 4 → Terminator (Fin 4)
  | 0 => .branch 1
  | 1 => .branchConditional (if latch then 2 else 1) 3
  | 2 => .branch 1
  | _ => .other

def loopSuccessors (latch : Bool) : Fin 4 → List (Fin 4)
  | 0 => [1]
  | 1 => [if latch then 2 else 1, 3]
  | 2 => [1]
  | _ => []

def loop (latch : Bool) : Cfg (Fin 4) Unit where
  blocks := [0, 1, 2, 3]
  parent _ := ()
  terminator := loopTerminator latch
  getSuccessors := loopSuccessors latch
  nodup := by decide
  terminator_other b hb := absurd (by revert b; decide) hb
  target_mem _ e _ := by
    have hall : ∀ b : Fin 4, b ∈ [0, 1, 2, 3] := by decide
    exact hall e.1
  getSuccessors_perm := by revert latch; decide

theorem cycleAnalysis_selfLoop : CycleAnalysis (loop false) () := by
  refine (cycleAnalysis_iff (by decide)).mpr ?_
  rintro x y ⟨-, -, hedge⟩ ⟨-, hback⟩
  have hentry (u v : Fin 4) : v ∈ (loop false).getSuccessors u → v ≠ 0 := by
    revert u v; decide
  have hnever {u : Fin 4} (h : ReflTransGen (Edge (loop false) ()) u 0) : u = 0 := by
    rcases ReflTransGen.cases_tail h with heq | ⟨_, _, hlast⟩
    · exact heq.symm
    · exact absurd rfl (hentry _ _ hlast.2.2)
  have hx : x ≠ 0 := by
    rintro rfl
    exact hentry _ _ hedge (hnever hback)
  have hpassed (u v w : Fin 4) : v ∈ (loop false).getSuccessors u →
      w ∈ (loop false).getSuccessors v → v = 1 := by
    revert u v w; decide
  have hy : y = 1 := by
    rcases ReflTransGen.cases_head hback with rfl | ⟨z, hfirst, -⟩
    · exact hpassed _ _ _ hedge hedge
    · exact hpassed x y z hedge hfirst.2.2
  exact ⟨0, fun h => hx (hnever h.1), by rw [hy]; decide⟩

-- The branch to block 2 is inside the loop, which is entered at block 1 only.
theorem not_cycleAnalysis_latch : ¬CycleAnalysis (loop true) () := by
  rintro ⟨sccs, hfound, -, hedges⟩
  have hrun : findSCCs (loop true) ((loop true).children ()) = some [[2, 1]] := by decide
  obtain rfl := Option.some.inj (hrun.symm.trans hfound)
  have hexact := hedges [2, 1] (by decide) [2, 1] (.refl _)
  obtain ⟨-, b, -, hb, pred, hout, hentered⟩ := (hexact.back (1, 1)).mp (by decide)
  revert b pred
  decide

end Edges

end Rpcsx.Shader
