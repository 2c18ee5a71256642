import Mathlib.Data.Finset.Card
import Mathlib.Data.List.Chain
import Mathlib.Data.Nat.ModEq

namespace Rpcsx.Data

-- Values, the latest in front, each of which advances a counter modulo `m`.
def Ticks (m : Nat) (l : List Nat) : Prop := l.IsChain fun x y => x % m = (y + 1) % m

namespace Ticks

variable {m : Nat}

theorem getElem {x : Nat} {l : List Nat} (h : Ticks m (x :: l)) (k : Nat) (hk : k < l.length) :
    x ≡ l[k] + (k + 1) [MOD m] := by
  induction l generalizing x k with
  | nil => exact absurd hk (Nat.not_lt_zero k)
  | cons y l ih =>
      obtain ⟨hxy, hl⟩ := List.isChain_cons_cons.mp h
      cases k with
      | zero => exact hxy
      | succ k =>
          have hrest := (ih hl k (Nat.lt_of_succ_lt_succ hk)).add_right 1
          exact Nat.ModEq.trans hxy hrest

-- Between two occurrences of a value there are all the other values of the counter.
theorem card_between (hm : 0 < m) {x : Nat} {b rest : List Nat}
    (h : Ticks m (x :: (b ++ x :: rest))) : m - 1 ≤ (b.toFinset.erase x).card := by
  have hat : ∀ k (hk : k < b.length), x ≡ b[k] + (k + 1) [MOD m] := by
    intro k hk
    have hget := h.getElem k (by rw [List.length_append]; omega)
    rw [List.getElem_append_left hk] at hget
    exact hget
  have hlength : m ≤ b.length + 1 := by
    have hget := h.getElem b.length (by simp)
    rw [List.getElem_append_right le_rfl] at hget
    simp only [Nat.sub_self, List.getElem_cons_zero] at hget
    have hzero : x + 0 ≡ x + (b.length + 1) [MOD m] := hget
    have hdvd := (Nat.modEq_zero_iff_dvd.mp (Nat.ModEq.add_left_cancel' x hzero).symm)
    exact Nat.le_of_dvd (Nat.succ_pos _) hdvd
  have hnodup : (b.take (m - 1)).Nodup := by
    apply List.pairwise_iff_getElem.mpr
    intro j k hj hk hjk he
    rw [List.length_take] at hj hk
    rw [List.getElem_take, List.getElem_take] at he
    have hj' := hat j (by omega)
    have hk' := hat k (by omega)
    rw [he] at hj'
    have hmod := Nat.ModEq.add_left_cancel' _ (hj'.symm.trans hk')
    have := hmod.eq_of_lt_of_lt (by omega) (by omega)
    omega
  have hx : x ∉ b.take (m - 1) := by
    intro hmem
    obtain ⟨k, hk, he⟩ := List.getElem_of_mem hmem
    rw [List.length_take] at hk
    rw [List.getElem_take] at he
    have hk' := hat k (by omega)
    rw [he] at hk'
    have hzero : x + 0 ≡ x + (k + 1) [MOD m] := hk'
    have := (Nat.ModEq.add_left_cancel' x hzero).eq_of_lt_of_lt hm (by omega)
    omega
  calc m - 1 = (b.take (m - 1)).toFinset.card := by
        rw [List.toFinset_card_of_nodup hnodup, List.length_take]
        omega
    _ ≤ (b.toFinset.erase x).card := by
        apply Finset.card_le_card
        intro y hy
        rw [List.mem_toFinset] at hy
        refine Finset.mem_erase.mpr ⟨?_, List.mem_toFinset.mpr (List.mem_of_mem_take hy)⟩
        rintro rfl
        exact hx hy

end Ticks

end Rpcsx.Data
