import Rpcsx.Data.Alignment
import Mathlib.Data.List.Perm.Basic
import Rpcsx.Data.Interleaving

namespace Rpcsx.KernelHeap

open Rpcsx.Data.Alignment

def heapBaseAddress : Nat := 0x60000000000

def heapSize : Nat := 0x100000000

-- __STDCPP_DEFAULT_NEW_ALIGNMENT__ and its logarithm.
def defaultNewAlignmentLog : Nat := 4

def defaultNewAlignment : Nat := 2 ^ defaultNewAlignmentLog

-- The sizes that the compiler gives to the resource, which lies at the start of the heap, and to
-- the nodes of its maps.
structure Config where
  resourceSize : Nat
  resourceSize_le : resourceSize ≤ heapSize
  nodeSize : Nat
  nodeAlignLog : Nat
  nodeAlignLog_lt : nodeAlignLog < 64

-- A node of m_free_heap or m_used_node: where the node itself is stored, and its pair.
structure Node where
  storage : Nat
  key : Nat
  mapped : Nat
deriving DecidableEq

-- KernelMemoryResource. The multimaps are lists in the order of their keys.
structure State where
  next : Nat
  freeHeap : List Node
  usedNode : List Node

def State.start (cfg : Config) : State where
  next := heapBaseAddress + cfg.resourceSize
  freeHeap := []
  usedNode := []

def roundSize (size : Nat) : Nat := roundUp 64 size defaultNewAlignment

def isAligned (align : Nat) (node : Node) : Bool := node.mapped &&& (align - 1) = 0

-- Behind the entries of the same key.
def insertNode (node : Node) (nodes : List Node) : List Node :=
  nodes.takeWhile (fun n => n.key ≤ node.key) ++ node :: nodes.dropWhile fun n => n.key ≤ node.key

namespace State

-- The block is cut from the rest of the heap; none if the process is aborted.
def grow (s : State) (size align : Nat) : Option (Nat × State) :=
  let align := max align defaultNewAlignment
  let heap := roundUp 64 s.next align
  if (heap + size) % 2 ^ 64 > heapBaseAddress + heapSize then none
  else if (heap + size) % 2 ^ 64 < heap then none
  else some (heap, { s with next := (heap + size) % 2 ^ 64 })

-- `locked` is whether m_heap_map_mtx cannot be taken.
def kalloc (s : State) (locked : Bool) (size align : Nat) : Option (Nat × State) :=
  let size := roundSize size
  if size = 0 then none
  else
    let found := if locked then none
      else (s.freeHeap.filter (fun n => n.key = size)).find? (isAligned align)
    match found with
    | some node =>
        some (node.mapped, { s with
          freeHeap := s.freeHeap.erase node
          usedNode := { node with key := 0, mapped := 0 } :: s.usedNode })
    | none => s.grow size align

def kfree (cfg : Config) (s : State) (ptr size : Nat) : Option State :=
  let size := roundSize size
  if size = 0 then none
  else if ptr < heapBaseAddress ∨ (ptr + size) % 2 ^ 64 > heapBaseAddress + heapSize then none
  else
    match s.usedNode with
    | node :: rest =>
        some { s with
          freeHeap := insertNode { node with key := size, mapped := ptr } s.freeHeap
          usedNode := rest }
    | [] => do
        -- the map asks for the memory of a new node while the mutex is held
        let (storage, s) ← s.kalloc true cfg.nodeSize (2 ^ cfg.nodeAlignLog)
        some { s with freeHeap := insertNode ⟨storage, size, ptr⟩ s.freeHeap }

end State

-- The heap and the blocks that are in use, with the sizes that were asked for.
structure Run where
  heap : State
  live : List (Nat × Nat)

inductive Step (cfg : Config) (r : Run) : Run → Prop where
  | kalloc (locked : Bool) (size alignLog ptr : Nat) (heap : State) : size < 2 ^ 64 →
      alignLog < 64 → r.heap.kalloc locked size (2 ^ alignLog) = some (ptr, heap) →
      Step cfg r ⟨heap, (ptr, size) :: r.live⟩
  | kfree (ptr size : Nat) (heap : State) : (ptr, size) ∈ r.live →
      r.heap.kfree cfg ptr size = some heap → Step cfg r ⟨heap, r.live.erase (ptr, size)⟩

end Rpcsx.KernelHeap

namespace Rpcsx.KernelHeap

open Rpcsx.Data Rpcsx.Data.Alignment

-- Two blocks, each an address with a size, do not overlap.
def Apart (a b : Nat × Nat) : Prop := a.1 + a.2 ≤ b.1 ∨ b.1 + b.2 ≤ a.1

theorem Apart.symm {a b : Nat × Nat} (h : Apart a b) : Apart b a := Or.symm h

theorem Apart.mono {a b : Nat × Nat} {n m : Nat} (h : Apart a b) (hn : n ≤ a.2) (hm : m ≤ b.2) :
    Apart (a.1, n) (b.1, m) := by
  unfold Apart at *
  omega

-- Blocks of the heap below `next`.
structure Laid (next : Nat) (blocks : List (Nat × Nat)) : Prop where
  apart : blocks.Pairwise Apart
  inside : ∀ b ∈ blocks, heapBaseAddress ≤ b.1 ∧ b.1 + b.2 ≤ next ∧ 0 < b.2

section Laid

variable {next : Nat} {blocks other : List (Nat × Nat)}

theorem Laid.perm (h : Laid next blocks) (hp : blocks.Perm other) : Laid next other where
  apart := (hp.pairwise_iff Apart.symm).mp h.apart
  inside b hb := h.inside b (hp.mem_iff.mpr hb)

theorem Laid.grow (h : Laid next blocks) {heap size : Nat} (hbase : heapBaseAddress ≤ heap)
    (hheap : next ≤ heap) (hsize : 0 < size) : Laid (heap + size) ((heap, size) :: blocks) where
  apart := by
    rw [List.pairwise_cons]
    refine ⟨?_, h.apart⟩
    intro b hb
    have := h.inside b hb
    exact Or.inr (by dsimp only; omega)
  inside b hb := by
    rcases List.mem_cons.mp hb with rfl | hb
    · exact ⟨hbase, Nat.le_refl _, hsize⟩
    · have := h.inside b hb
      omega

theorem Laid.apart_head {b : Nat × Nat} (h : Laid next (b :: blocks)) :
    ∀ c ∈ blocks, Apart b c := (List.pairwise_cons.mp h.apart).1

end Laid

-- The blocks of an allocator: in use, free, and the nodes of its maps.
def liveBlock (b : Nat × Nat) : Nat × Nat := (b.1, roundSize b.2)

def freeBlock (node : Node) : Nat × Nat := (node.mapped, node.key)

def nodeBlock (cfg : Config) (node : Node) : Nat × Nat := (node.storage, roundSize cfg.nodeSize)

def blocks (cfg : Config) (r : Run) : List (Nat × Nat) :=
  r.live.map liveBlock ++ (r.heap.freeHeap.map freeBlock ++
    (r.heap.freeHeap.map (nodeBlock cfg) ++ r.heap.usedNode.map (nodeBlock cfg)))

structure Inv (cfg : Config) (r : Run) : Prop where
  laid : Laid r.heap.next (blocks cfg r)
  base_le : heapBaseAddress ≤ r.heap.next
  le_end : r.heap.next ≤ heapBaseAddress + heapSize

theorem insertNode_perm (node : Node) (nodes : List Node) :
    (insertNode node nodes).Perm (node :: nodes) := by
  unfold insertNode
  have h : (nodes.takeWhile (fun n => n.key ≤ node.key) ++ node ::
      nodes.dropWhile fun n => n.key ≤ node.key).Perm (node ::
        (nodes.takeWhile (fun n => n.key ≤ node.key) ++
          nodes.dropWhile fun n => n.key ≤ node.key)) := List.perm_middle
  rwa [List.takeWhile_append_dropWhile] at h

theorem grow_spec {s s' : State} {size k heap : Nat} (hk : k < 64) (hsize : size < 2 ^ 64)
    (hend : s.next ≤ heapBaseAddress + heapSize) (h : s.grow size (2 ^ k) = some (heap, s')) :
    2 ^ k ∣ heap ∧ s.next ≤ heap ∧ heap + size ≤ heapBaseAddress + heapSize ∧
      s' = { s with next := heap + size } := by
  obtain ⟨j, hj, hkj, hmax⟩ : ∃ j, j < 64 ∧ k ≤ j ∧ max (2 ^ k) defaultNewAlignment = 2 ^ j := by
    rcases Nat.le_total k 4 with hle | hle
    · exact ⟨4, by decide, hle, Nat.max_eq_right (Nat.pow_le_pow_right (by decide) hle)⟩
    · exact ⟨k, hk, Nat.le_refl k, Nat.max_eq_left (Nat.pow_le_pow_right (by decide) hle)⟩
  have hpow : 2 ^ j ≤ 2 ^ 63 := Nat.pow_le_pow_right (by decide) (by omega)
  have hnext : s.next + (2 ^ j - 1) < 2 ^ 64 := by
    simp only [heapBaseAddress, heapSize] at hend
    omega
  have hdvd : 2 ^ j ∣ roundUp 64 s.next (2 ^ j) := roundUp_dvd (by omega)
  have hle := le_roundUp (by omega) hnext
  have hlt : roundUp 64 s.next (2 ^ j) < 2 ^ 64 := by
    have hbound : roundUp 64 s.next (2 ^ j) ≤ 2 ^ 64 - 1 - (2 ^ j - 1) := Nat.and_le_right
    omega
  unfold State.grow at h
  rw [hmax] at h
  dsimp only at h
  split at h
  · cases h
  · split at h
    · cases h
    · cases h
      have hsum : (roundUp 64 s.next (2 ^ j) + size) % 2 ^ 64 = roundUp 64 s.next (2 ^ j) + size :=
        Nat.mod_eq_of_lt (by omega)
      rw [hsum] at *
      exact ⟨(Nat.pow_dvd_pow 2 hkj).trans hdvd, hle, by omega, rfl⟩

variable {cfg : Config} {r : Run} {s heap : State} {locked : Bool} {size k ptr : Nat}

theorem isAligned_iff {node : Node} : isAligned (2 ^ k) node = true ↔ 2 ^ k ∣ node.mapped := by
  unfold isAligned
  rw [and_low, decide_eq_true_eq, Nat.dvd_iff_mod_eq_zero]

-- What an allocation does: it takes a free block of the size or grows the heap.
theorem kalloc_cases (h : s.kalloc locked size (2 ^ k) = some (ptr, heap)) :
    roundSize size ≠ 0 ∧
      ((∃ node ∈ s.freeHeap, node.mapped = ptr ∧ node.key = roundSize size ∧ 2 ^ k ∣ ptr ∧
          locked = false ∧ heap = { s with
            freeHeap := s.freeHeap.erase node
            usedNode := { node with key := 0, mapped := 0 } :: s.usedNode }) ∨
        s.grow (roundSize size) (2 ^ k) = some (ptr, heap)) := by
  unfold State.kalloc at h
  dsimp only at h
  split at h
  · cases h
  · rename_i hsize
    refine ⟨hsize, ?_⟩
    split at h
    · rename_i node hfound
      cases h
      cases locked with
      | true => cases hfound
      | false =>
          have hmem := List.mem_filter.mp (List.mem_of_find?_eq_some hfound)
          have haligned := isAligned_iff.mp (List.find?_some hfound)
          exact Or.inl ⟨node, hmem.1, rfl, of_decide_eq_true hmem.2, haligned, rfl, rfl⟩
    · exact Or.inr h

theorem roundSize_lt (size : Nat) : roundSize size < 2 ^ 64 := by
  have hle : roundSize size ≤ 2 ^ 64 - 1 - (2 ^ 4 - 1) := Nat.and_le_right
  omega

theorem Inv.kalloc (h : Inv cfg r) (hk : k < 64)
    (halloc : r.heap.kalloc locked size (2 ^ k) = some (ptr, heap)) :
    2 ^ k ∣ ptr ∧ Inv cfg ⟨heap, (ptr, size) :: r.live⟩ := by
  obtain ⟨hsize, ⟨node, hmem, hptr, hkey, hdvd, -, rfl⟩ | hgrow⟩ := kalloc_cases halloc
  · have hperm := List.perm_cons_erase hmem
    have hblocks : (blocks cfg r).Perm (blocks cfg ⟨{ r.heap with
        freeHeap := r.heap.freeHeap.erase node
        usedNode := { node with key := 0, mapped := 0 } :: r.heap.usedNode },
        (ptr, size) :: r.live⟩) := by
      rw [List.perm_iff_count]
      intro a
      have hfree := (hperm.map freeBlock).count_eq a
      have hnode := (hperm.map (nodeBlock cfg)).count_eq a
      have hblock : liveBlock (ptr, size) = freeBlock node := by
        unfold liveBlock freeBlock
        rw [hptr, hkey]
      have hstorage : nodeBlock cfg { node with key := 0, mapped := 0 } = nodeBlock cfg node := rfl
      simp only [blocks, List.map_cons, List.count_append, List.count_cons, hblock,
        hstorage] at hfree hnode ⊢
      omega
    exact ⟨hdvd, h.laid.perm hblocks, h.base_le, h.le_end⟩
  · obtain ⟨hdvd, hle, hend, rfl⟩ := grow_spec hk (roundSize_lt size) h.le_end hgrow
    refine ⟨hdvd, ?_, ?_, hend⟩
    · exact h.laid.grow (h.base_le.trans hle) hle (Nat.pos_of_ne_zero hsize)
    · exact (h.base_le.trans hle).trans (Nat.le_add_right ..)

theorem insertNode_map_count {α : Type} [BEq α] (f : Node → α) (node : Node)
    (nodes : List Node) (a : α) :
    ((insertNode node nodes).map f).count a = ((node :: nodes).map f).count a :=
  ((insertNode_perm node nodes).map f).count_eq a

theorem Inv.kfree (h : Inv cfg r) (hlive : (ptr, size) ∈ r.live)
    (hfree : r.heap.kfree cfg ptr size = some heap) :
    Inv cfg ⟨heap, r.live.erase (ptr, size)⟩ := by
  have hperm := List.perm_cons_erase hlive
  unfold State.kfree at hfree
  dsimp only at hfree
  split at hfree
  · cases hfree
  · split at hfree
    · cases hfree
    · split at hfree
      · rename_i node rest hused
        cases hfree
        refine ⟨h.laid.perm ?_, h.base_le, h.le_end⟩
        rw [List.perm_iff_count]
        intro a
        have hcount := (hperm.map liveBlock).count_eq a
        have hstorage : nodeBlock cfg { node with key := roundSize size, mapped := ptr } =
            nodeBlock cfg node := rfl
        have hblock : freeBlock { node with key := roundSize size, mapped := ptr } =
            liveBlock (ptr, size) := rfl
        simp only [blocks, hused, List.map_cons, List.count_append, insertNode_map_count,
          List.count_cons, hstorage, hblock] at hcount ⊢
        omega
      · rename_i hused
        rw [Option.bind_eq_bind, Option.bind_eq_some_iff] at hfree
        obtain ⟨⟨storage, s⟩, hnode, hfree⟩ := hfree
        cases hfree
        obtain ⟨hsize, ⟨_, _, _, _, _, hlocked, _⟩ | hgrow⟩ := kalloc_cases hnode
        · cases hlocked
        · obtain ⟨_, hle, hend, rfl⟩ :=
            grow_spec cfg.nodeAlignLog_lt (roundSize_lt cfg.nodeSize) h.le_end hgrow
          have hgrown := h.laid.grow (h.base_le.trans hle) hle (Nat.pos_of_ne_zero hsize)
          refine ⟨hgrown.perm ?_, (h.base_le.trans hle).trans (Nat.le_add_right ..), hend⟩
          rw [List.perm_iff_count]
          intro a
          have hcount := (hperm.map liveBlock).count_eq a
          have hstorage : nodeBlock cfg ⟨storage, roundSize size, ptr⟩ =
              (storage, roundSize cfg.nodeSize) := rfl
          have hblock : freeBlock ⟨storage, roundSize size, ptr⟩ = liveBlock (ptr, size) := rfl
          simp only [blocks, hused, List.map_cons, List.map_nil, List.append_nil, List.count_append,
            insertNode_map_count, List.count_cons, hstorage, hblock] at hcount ⊢
          omega

theorem Inv.start (cfg : Config) : Inv cfg ⟨State.start cfg, []⟩ where
  laid := ⟨List.Pairwise.nil, nofun⟩
  base_le := Nat.le_add_right ..
  le_end := Nat.add_le_add_left cfg.resourceSize_le _

def Reachable (cfg : Config) (r : Run) : Prop :=
  Relation.ReflTransGen (Step cfg) ⟨State.start cfg, []⟩ r

theorem inv_of_reachable (h : Reachable cfg r) : Inv cfg r := by
  apply Interleaving.invariant_of_reachable (Inv.start cfg) _ h
  intro r r' hr hstep
  cases hstep with
  | kalloc locked size alignLog ptr heap _ halign halloc => exact (hr.kalloc halign halloc).2
  | kfree ptr size heap hlive hfree => exact hr.kfree hlive hfree

theorem Laid.ne {next : Nat} {l : List (Nat × Nat)} (h : Laid next l) {a b : Nat × Nat}
    (ha : a ∈ l) (hb : b ∈ l) (hab : Apart a b) : a.1 ≠ b.1 := by
  have hpos := (h.inside a ha).2.2
  have hpos' := (h.inside b hb).2.2
  unfold Apart at hab
  omega

-- A block that is handed out is aligned, inside of the heap and apart from all others.
theorem Inv.handed_out (h : Inv cfg r) (hsize : size < 2 ^ 64) (hk : k < 64)
    (halloc : r.heap.kalloc locked size (2 ^ k) = some (ptr, heap)) :
    2 ^ k ∣ ptr ∧ heapBaseAddress ≤ ptr ∧ size ≤ roundSize size ∧
      ptr + roundSize size ≤ heapBaseAddress + heapSize ∧
      (∀ b ∈ r.live, Apart (ptr, roundSize size) (liveBlock b) ∧ ptr ≠ b.1) ∧
      ∀ node ∈ heap.freeHeap ++ heap.usedNode, Apart (ptr, roundSize size) (nodeBlock cfg node) := by
  obtain ⟨hdvd, hinv⟩ := h.kalloc hk halloc
  obtain ⟨hne, -⟩ := kalloc_cases halloc
  have hhead : (ptr, roundSize size) ∈ blocks cfg ⟨heap, (ptr, size) :: r.live⟩ :=
    List.mem_cons_self
  have hapart := hinv.laid.apart_head
  obtain ⟨hbase, hend, _⟩ := hinv.laid.inside _ hhead
  refine ⟨hdvd, hbase, le_roundUp_of_ne_zero (by decide) hsize hne, hend.trans hinv.le_end, ?_, ?_⟩
  · intro b hb
    have hmem : liveBlock b ∈ r.live.map liveBlock := List.mem_map_of_mem hb
    have hb' := hapart _ (List.mem_append_left _ hmem)
    have htail : liveBlock b ∈ blocks cfg ⟨heap, (ptr, size) :: r.live⟩ :=
      List.mem_cons_of_mem _ (List.mem_append_left _ hmem)
    have hne' := hinv.laid.ne hhead htail hb'
    exact ⟨hb', hne'⟩
  · intro node hnode
    apply hapart
    apply List.mem_append_right
    apply List.mem_append_right
    rw [← List.map_append]
    exact List.mem_map_of_mem hnode

theorem Inv.free_apart (h : Inv cfg r) {node : Node} (hnode : node ∈ r.heap.freeHeap)
    {b : Nat × Nat} (hb : b ∈ r.live) :
    Apart (freeBlock node) (liveBlock b) ∧ node.mapped ≠ b.1 := by
  have hlive : liveBlock b ∈ r.live.map liveBlock := List.mem_map_of_mem hb
  have hfree : freeBlock node ∈ r.heap.freeHeap.map freeBlock ++
      (r.heap.freeHeap.map (nodeBlock cfg) ++ r.heap.usedNode.map (nodeBlock cfg)) :=
    List.mem_append_left _ (List.mem_map_of_mem hnode)
  have hapart := ((List.pairwise_append.mp h.laid.apart).2.2 _ hlive _ hfree).symm
  have hne := h.laid.ne (List.mem_append_right _ hfree) (List.mem_append_left _ hlive) hapart
  exact ⟨hapart, hne⟩

theorem Inv.free_nodup (h : Inv cfg r) : (r.heap.freeHeap.map Node.mapped).Nodup := by
  have hfree := (List.pairwise_append.mp (List.pairwise_append.mp h.laid.apart).2.1).1
  rw [List.pairwise_map] at hfree
  rw [List.Nodup, List.pairwise_map]
  apply hfree.imp_of_mem
  intro a b ha hb hab
  have hmem : ∀ node ∈ r.heap.freeHeap, freeBlock node ∈ blocks cfg r := by
    intro node hnode
    exact List.mem_append_right _ (List.mem_append_left _ (List.mem_map_of_mem hnode))
  exact h.laid.ne (hmem a ha) (hmem b hb) hab

-- Every allocation of every run, and the free list.
theorem kernel_heap_safe (h : Reachable cfg r) :
    (∀ locked size k ptr heap, size < 2 ^ 64 → k < 64 →
      r.heap.kalloc locked size (2 ^ k) = some (ptr, heap) →
      2 ^ k ∣ ptr ∧ heapBaseAddress ≤ ptr ∧ size ≤ roundSize size ∧
        ptr + roundSize size ≤ heapBaseAddress + heapSize ∧
        (∀ b ∈ r.live, Apart (ptr, roundSize size) (liveBlock b) ∧ ptr ≠ b.1) ∧
        ∀ node ∈ heap.freeHeap ++ heap.usedNode,
          Apart (ptr, roundSize size) (nodeBlock cfg node)) ∧
      (∀ node ∈ r.heap.freeHeap, ∀ b ∈ r.live,
        Apart (freeBlock node) (liveBlock b) ∧ node.mapped ≠ b.1) ∧
      (r.heap.freeHeap.map Node.mapped).Nodup := by
  have hinv := inv_of_reachable h
  refine ⟨?_, fun node hnode b hb => hinv.free_apart hnode hb, hinv.free_nodup⟩
  intro locked size k ptr heap hsize hk halloc
  exact hinv.handed_out hsize hk halloc

def smallConfig : Config := ⟨0x100, by decide, 48, 3, by decide⟩

-- The second block of a heap starts behind the first.
theorem kernel_heap_safe_second : ∃ r heap, Reachable smallConfig r ∧
    r.live = [(0x60000000100, 100)] ∧ r.heap.kalloc false 16 (2 ^ 5) = some (0x60000000180, heap) ∧
      0x60000000180 ≠ 0x60000000100 := by
  obtain ⟨heap, hfirst, next, hsecond⟩ : ∃ heap,
      (State.start smallConfig).kalloc false 100 (2 ^ 4) = some (0x60000000100, heap) ∧
        ∃ next, heap.kalloc false 16 (2 ^ 5) = some (0x60000000180, next) := ⟨_, rfl, _, rfl⟩
  have hrun : Reachable smallConfig ⟨heap, [(0x60000000100, 100)]⟩ :=
    .tail .refl (.kalloc false 100 4 _ heap (by decide) (by decide) hfirst)
  have hsafe := kernel_heap_safe hrun
  have hblock := hsafe.1 false 16 5 _ next (by decide) (by decide) hsecond
  exact ⟨_, next, hrun, rfl, hsecond,
    (hblock.2.2.2.2.1 (0x60000000100, 100) (List.mem_singleton_self _)).2⟩

end Rpcsx.KernelHeap
