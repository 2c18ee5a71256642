import Mathlib.Algebra.BigOperators.Group.Finset.Basic
import Mathlib.Algebra.Order.BigOperators.Group.Finset
import Mathlib.Data.Fintype.Card
import Mathlib.Logic.Relation

namespace Rpcsx.Data.Interleaving

section Reachable

variable {σ : Type} {step : σ → σ → Prop} {inv : σ → Prop}

-- An invariant of every step holds along every run.
theorem invariant_of_reachable {start s : σ} (hstart : inv start)
    (hstep : ∀ s s', inv s → step s s' → inv s') (h : Relation.ReflTransGen step start s) :
    inv s := by
  induction h with
  | refl => exact hstart
  | tail _ hlast ih => exact hstep _ _ ih hlast

-- A run that is played move by move.
theorem reachable_of_foldlM {μ : Type} {move : σ → μ → Option σ}
    (hmove : ∀ s m s', move s m = some s' → step s s') {moves : List μ} {start s : σ}
    (h : moves.foldlM move start = some s) : Relation.ReflTransGen step start s := by
  induction moves generalizing start with
  | nil =>
      cases h
      exact .refl
  | cons m rest ih =>
      rw [List.foldlM_cons, Option.bind_eq_bind, Option.bind_eq_some_iff] at h
      obtain ⟨next, hnext, hrest⟩ := h
      exact .head (hmove start m next hnext) (ih hrest)

end Reachable

section Total

variable {ι τ : Type} [Fintype ι] [DecidableEq ι] (weight : τ → Nat) (threads : ι → τ) (i : ι)

-- What all threads have of a quantity, and what the threads other than one have.
def total : Nat := ∑ j, weight (threads j)

def others : Nat := ∑ j ∈ Finset.univ.erase i, weight (threads j)

theorem total_eq : total weight threads = others weight threads i + weight (threads i) :=
  (Finset.sum_erase_add _ _ (Finset.mem_univ i)).symm

theorem total_update (t : τ) :
    total weight (Function.update threads i t) = others weight threads i + weight t := by
  have ho : others weight (Function.update threads i t) i = others weight threads i := by
    apply Finset.sum_congr rfl
    intro j hj
    rw [Function.update_of_ne (Finset.ne_of_mem_erase hj)]
  rw [total_eq _ _ i, ho, Function.update_self]

theorem total_update_add (t : τ) :
    total weight (Function.update threads i t) + weight (threads i) =
      total weight threads + weight t := by
  rw [total_update, total_eq weight threads i]
  omega

theorem le_total : weight (threads i) ≤ total weight threads := by
  rw [total_eq weight threads i]
  omega

theorem add_le_total {j : ι} (hne : i ≠ j) :
    weight (threads i) + weight (threads j) ≤ total weight threads := by
  have hj : weight (threads j) ≤ others weight threads i :=
    Finset.single_le_sum (f := fun k => weight (threads k)) (fun _ _ => Nat.zero_le _)
      (Finset.mem_erase.mpr ⟨hne.symm, Finset.mem_univ j⟩)
  rw [total_eq weight threads i]
  omega

theorem others_lt_card (h : ∀ t, weight t ≤ 1) : others weight threads i < Fintype.card ι := by
  have hle : others weight threads i ≤ (Finset.univ.erase i).card * 1 :=
    Finset.sum_le_card_nsmul _ _ _ fun j _ => h (threads j)
  have hpos : 0 < Fintype.card ι := Fintype.card_pos_iff.mpr ⟨i⟩
  rw [Finset.card_erase_of_mem (Finset.mem_univ i), Finset.card_univ] at hle
  omega

end Total

section Exclusive

variable {ι τ : Type} [DecidableEq ι] {holds : τ → Bool} {threads : ι → τ} {mutex : Option ι}
  {i : ι} {t : τ}

-- A mutex belongs to the thread that is inside a section of it.
def Exclusive (holds : τ → Bool) (threads : ι → τ) (mutex : Option ι) : Prop :=
  ∀ i, holds (threads i) = true ↔ mutex = some i

omit [DecidableEq ι] in
theorem Exclusive.ne_of_not_holds (h : Exclusive holds threads mutex)
    (hbefore : holds (threads i) = false) {j : ι} (hj : mutex = some j) : j ≠ i := by
  intro hji
  rw [hji] at hj
  rw [(h i).mpr hj] at hbefore
  cases hbefore

omit [DecidableEq ι] in
theorem Exclusive.not_holds_of_ne (h : Exclusive holds threads mutex)
    (hmine : mutex = none ∨ mutex = some i) {j : ι} (hj : j ≠ i) : holds (threads j) = false := by
  cases hb : holds (threads j) with
  | false => rfl
  | true =>
      have hm := (h j).mp hb
      rcases hmine with hnone | hsome
      · rw [hnone] at hm
        cases hm
      · rw [hsome] at hm
        exact absurd (Option.some.inj hm).symm hj

-- A step of a thread outside of the mutex.
theorem Exclusive.outside (h : Exclusive holds threads mutex) (hbefore : holds (threads i) = false)
    (ht : holds t = false) : Exclusive holds (Function.update threads i t) mutex := by
  intro j
  by_cases hj : j = i
  · rw [hj, Function.update_self, ht]
    constructor
    · nofun
    · intro hm
      exact absurd rfl (h.ne_of_not_holds hbefore hm)
  · rw [Function.update_of_ne hj]
    exact h j

-- A step of the thread that has the mutex, takes it or gives it back.
theorem Exclusive.owner (h : Exclusive holds threads mutex)
    (hmine : mutex = none ∨ mutex = some i) :
    Exclusive holds (Function.update threads i t) (if holds t then some i else none) := by
  intro j
  by_cases hj : j = i
  · rw [hj, Function.update_self]
    cases holds t <;> simp
  · rw [Function.update_of_ne hj, h.not_holds_of_ne hmine hj]
    cases holds t with
    | true => simpa using Ne.symm hj
    | false => simp

end Exclusive

end Rpcsx.Data.Interleaving
