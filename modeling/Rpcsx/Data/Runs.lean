import Mathlib.Data.Set.Card
import Mathlib.Order.Interval.Finset.Nat

namespace Rpcsx.Data.Runs

variable {ι α : Type}

-- The addresses from `a` up to `b` all have the value `v`, and neither end can move out.
def IsMaximalRun (f : Nat → Option α) (v : α) (a b : Nat) : Prop :=
  a < b ∧ (∀ x, a ≤ x → x < b → f x = some v) ∧ f b ≠ some v ∧ ∀ x, x + 1 = a → f x ≠ some v

-- The stretches `[lo i, hi i)` of a list, in order, carry the whole of a partial function.
structure Partition (lo hi : ι → Nat) (value : ι → α) (f : Nat → Option α) (l : List ι) : Prop where
  ordered : l.Pairwise fun i j => hi i ≤ lo j
  nonempty : ∀ i ∈ l, lo i < hi i
  covers : ∀ x v, f x = some v ↔ ∃ i ∈ l, lo i ≤ x ∧ x < hi i ∧ value i = v

variable {lo hi : ι → Nat} {value : ι → α} {f : Nat → Option α} {l : List ι}

-- Two stretches of a partition that share an address are the same.
theorem Partition.eq_of_mem (hp : Partition lo hi value f l) {i j : ι} (hi' : i ∈ l) (hj : j ∈ l)
    {x : Nat} (hix : lo i ≤ x ∧ x < hi i) (hjx : lo j ≤ x ∧ x < hi j) : i = j := by
  obtain ⟨m, hm, rfl⟩ := List.getElem_of_mem hi'
  obtain ⟨n, hn, rfl⟩ := List.getElem_of_mem hj
  have ho := List.pairwise_iff_getElem.mp hp.ordered
  rcases Nat.lt_trichotomy m n with h | rfl | h
  · have := ho m n hm hn h
    omega
  · rfl
  · have := ho n m hn hm h
    omega

section Find

variable (hp : Partition lo hi value f l) {i : ι} {a : Nat}

include hp

theorem Partition.find?_contains (hi' : i ∈ l) (hlo : lo i ≤ a) (hhi : a < hi i) :
    l.find? (fun j => lo j ≤ a ∧ a < hi j) = some i := by
  cases hf : l.find? (fun j => lo j ≤ a ∧ a < hi j) with
  | none =>
      have hn := List.find?_eq_none.mp hf i hi'
      simp [hlo, hhi] at hn
  | some j =>
      have hj := List.find?_some hf
      simp only [decide_eq_true_eq] at hj
      rw [hp.eq_of_mem hi' (List.mem_of_find?_eq_some hf) ⟨hlo, hhi⟩ hj]

theorem Partition.find?_contains_none (ha : f a = none) :
    l.find? (fun j => lo j ≤ a ∧ a < hi j) = none := by
  rw [List.find?_eq_none]
  intro j hj hc
  simp only [decide_eq_true_eq] at hc
  have hv := (hp.covers a (value j)).mpr ⟨j, hj, hc.1, hc.2, rfl⟩
  simp [ha] at hv

-- The first stretch that ends after an address is the one with nothing in between.
theorem Partition.find?_after (hi' : i ∈ l) (hhi : a < hi i)
    (hgap : ∀ x, a ≤ x → x < lo i → f x = none) :
    l.find? (fun j => a < hi j) = some i := by
  obtain ⟨left, right, rfl⟩ := List.append_of_mem hi'
  have hleft : left.find? (fun j => a < hi j) = none := by
    rw [List.find?_eq_none]
    intro j hj hc
    simp only [decide_eq_true_eq] at hc
    have ho := (List.pairwise_append.mp hp.ordered).2.2 j hj i (by simp)
    have hpos := hp.nonempty j (by simp [hj])
    have hv := (hp.covers (max a (lo j)) (value j)).mpr
      ⟨j, by simp [hj], by omega, by omega, rfl⟩
    rw [hgap (max a (lo j)) (by omega) (by omega)] at hv
    cases hv
  rw [List.find?_append, hleft, Option.none_or, List.find?_cons_of_pos (by simpa using hhi)]

theorem Partition.find?_after_none (hgap : ∀ x, a ≤ x → f x = none) :
    l.find? (fun j => a < hi j) = none := by
  rw [List.find?_eq_none]
  intro j hj hc
  simp only [decide_eq_true_eq] at hc
  have hpos := hp.nonempty j hj
  have hv := (hp.covers (max a (lo j)) (value j)).mpr ⟨j, hj, by omega, by omega, rfl⟩
  rw [hgap (max a (lo j)) (by omega)] at hv
  cases hv

end Find

-- When touching stretches differ in value, the stretches are the maximal runs.
theorem Partition.maximal_iff (hp : Partition lo hi value f l)
    (hsep : l.Pairwise fun i j => hi i = lo j → value i ≠ value j) (v : α) (a b : Nat) :
    IsMaximalRun f v a b ↔ ∃ i ∈ l, lo i = a ∧ hi i = b ∧ value i = v := by
  have htouch {i j : ι} (hil : i ∈ l) (hjl : j ∈ l) (h : hi i = lo j) : value i ≠ value j := by
    obtain ⟨m, hm, rfl⟩ := List.getElem_of_mem hil
    obtain ⟨n, hn, rfl⟩ := List.getElem_of_mem hjl
    have ho := List.pairwise_iff_getElem.mp hp.ordered
    have hs := List.pairwise_iff_getElem.mp hsep
    have h₁ := hp.nonempty _ hil
    have h₂ := hp.nonempty _ hjl
    rcases Nat.lt_trichotomy m n with hc | rfl | hc
    · exact hs m n hm hn hc h
    · omega
    · have := ho n m hn hm hc
      omega
  constructor
  · rintro ⟨hab, hall, hb, ha⟩
    -- the stretch at the left end starts there and reaches the right end
    obtain ⟨i, hil, hlo, hhi, hv⟩ := (hp.covers a v).mp (hall a le_rfl hab)
    refine ⟨i, hil, ?_, ?_, hv⟩
    · by_contra hne
      exact ha (a - 1) (by omega) ((hp.covers _ v).mpr ⟨i, hil, by omega, by omega, hv⟩)
    · rcases Nat.lt_trichotomy (hi i) b with h | h | h
      · obtain ⟨j, hjl, hjlo, hjhi, hjv⟩ := (hp.covers (hi i) v).mp (hall _ (by omega) h)
        by_cases hej : lo j = hi i
        · exact absurd (hv.trans hjv.symm) (htouch hil hjl hej.symm)
        · have hpos := hp.nonempty i hil
          have hij := hp.eq_of_mem hil hjl (x := hi i - 1) (by omega) (by omega)
          subst hij
          omega
      · exact h
      · exact absurd ((hp.covers b v).mpr ⟨i, hil, by omega, h, hv⟩) hb
  · rintro ⟨i, hil, rfl, rfl, hv⟩
    have hpos := hp.nonempty i hil
    refine ⟨hpos, fun x hx hx' => (hp.covers x v).mpr ⟨i, hil, hx, hx', hv⟩, ?_, ?_⟩
    · intro hb
      obtain ⟨j, hjl, hjlo, hjhi, hjv⟩ := (hp.covers _ v).mp hb
      by_cases hej : lo j = hi i
      · exact htouch hil hjl hej.symm (hv.trans hjv.symm)
      · have hij := hp.eq_of_mem hil hjl (x := hi i - 1) (by omega) (by omega)
        subst hij
        omega
    · intro x hx hfx
      obtain ⟨j, hjl, hjlo, hjhi, hjv⟩ := (hp.covers _ v).mp hfx
      by_cases hej : hi j = lo i
      · exact htouch hjl hil hej (hjv.trans hv.symm)
      · have hij := hp.eq_of_mem hil hjl (x := x + 1) (by omega) (by omega)
        subst hij
        omega

theorem ncard_stretches (ho : l.Pairwise fun i j => hi i ≤ lo j) :
    {x | ∃ i ∈ l, lo i ≤ x ∧ x < hi i}.ncard = (l.map fun i => hi i - lo i).sum ∧
      {x | ∃ i ∈ l, lo i ≤ x ∧ x < hi i}.Finite := by
  induction l with
  | nil => simp
  | cons i rest ih =>
      obtain ⟨hi', hr⟩ := List.pairwise_cons.mp ho
      obtain ⟨hc, hfin⟩ := ih hr
      have hset : {x | ∃ j ∈ i :: rest, lo j ≤ x ∧ x < hi j} =
          Set.Ico (lo i) (hi i) ∪ {x | ∃ j ∈ rest, lo j ≤ x ∧ x < hi j} := by
        ext x
        simp
      have hdisj : Disjoint (Set.Ico (lo i) (hi i)) {x | ∃ j ∈ rest, lo j ≤ x ∧ x < hi j} := by
        rw [Set.disjoint_left]
        rintro x hx ⟨j, hj, hjx, -⟩
        have := hi' j hj
        have := hx.2
        omega
      have hIco : (Set.Ico (lo i) (hi i)).ncard = hi i - lo i := by
        rw [← Finset.coe_Ico, Set.ncard_coe_finset, Nat.card_Ico]
      refine ⟨?_, hset ▸ (Set.finite_Ico _ _).union hfin⟩
      rw [hset, Set.ncard_union_eq hdisj (Set.finite_Ico _ _) hfin, hc, hIco, List.map_cons,
        List.sum_cons]

section RunStart

variable [DecidableEq α] (g : Nat → α) (first : Nat)

-- Where the run of equal values that a position lies in starts, from `first` on.
def runStart : Nat → Nat
  | 0 => 0
  | x + 1 => if first ≤ x ∧ g x = g (x + 1) then runStart x else x + 1

variable {g first}

theorem runStart_le (x : Nat) : runStart g first x ≤ x := by
  induction x with
  | zero => exact Nat.le_refl _
  | succ x ih =>
      rw [runStart]
      split <;> omega

theorem le_runStart {x : Nat} (h : first ≤ x) : first ≤ runStart g first x := by
  induction x with
  | zero => exact h
  | succ x ih =>
      rw [runStart]
      split
      · rename_i hx
        exact ih hx.1
      · exact h

theorem eq_of_runStart_le {x y : Nat} (hy : runStart g first x ≤ y) (hyx : y ≤ x) : g y = g x := by
  induction x with
  | zero =>
      have hzero : y = 0 := by omega
      rw [hzero]
  | succ x ih =>
      rcases Nat.lt_or_ge x y with hlt | hle
      · have heq : y = x + 1 := by omega
        rw [heq]
      · rw [runStart] at hy
        split at hy
        · rename_i hx
          rw [ih hy hle, hx.2]
        · omega

theorem runStart_eq {a x : Nat} (ha : first ≤ a) (hax : a ≤ x)
    (hrun : ∀ y, a ≤ y → y ≤ x → g y = g x) (hleft : a = first ∨ g (a - 1) ≠ g x) :
    runStart g first x = a := by
  induction x with
  | zero =>
      rw [runStart]
      omega
  | succ x ih =>
      rw [runStart]
      rcases Nat.eq_or_lt_of_le hax with rfl | hlt
      · rw [if_neg]
        rintro ⟨hfirst, heq⟩
        rcases hleft with hleft | hleft
        · omega
        · exact hleft heq
      · have heq := hrun x (by omega) (by omega)
        rw [if_pos ⟨by omega, heq⟩]
        apply ih (by omega)
        · intro y hy hyx
          rw [heq]
          exact hrun y hy (by omega)
        · rwa [heq]

theorem runStart_eq_of_eq {x y : Nat} (hx : first ≤ x) (hxy : x ≤ y)
    (heq : ∀ z, x ≤ z → z ≤ y → g z = g x) : runStart g first y = runStart g first x := by
  induction y with
  | zero =>
      have hzero : x = 0 := by omega
      rw [hzero]
  | succ y ih =>
      rcases Nat.eq_or_lt_of_le hxy with rfl | hlt
      · rfl
      · have hy := heq y (by omega) (by omega)
        have hy' := heq (y + 1) (by omega) (Nat.le_refl _)
        rw [runStart, if_pos ⟨by omega, by rw [hy, hy']⟩]
        exact ih (by omega) (fun z hz hzy => heq z hz (by omega))

end RunStart

end Rpcsx.Data.Runs
