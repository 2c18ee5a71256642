import Mathlib

namespace Rpcsx.Data.Walk

-- Goes around a circle of positions, from each by the length that stands there, to a position
-- without a length; none if the rounds are used up.
def follow (length? : Nat → Option Nat) (size : Nat) : Nat → Nat → Option Nat
  | 0, _ => none
  | rounds + 1, pos =>
      match length? pos with
      | some length => follow length? size rounds ((pos + length) % size)
      | none => some pos

section Follow

variable {length? : Nat → Option Nat} {size : Nat}

theorem follow_stuck {pos : Nat} (hpos : pos < size) (h : length? pos = some 0) (rounds : Nat) :
    follow length? size rounds pos = none := by
  induction rounds with
  | zero => rfl
  | succ rounds ih => simp only [follow, h, Nat.add_zero, Nat.mod_eq_of_lt hpos, ih]

theorem ne_add_mod {pos d : Nat} (hpos : pos < size) (hd : 0 < d) (hlt : d < size) :
    pos ≠ (pos + d) % size := by
  rw [Nat.add_mod_eq_ite, Nat.mod_eq_of_lt hpos, Nat.mod_eq_of_lt hlt]
  split_ifs <;> omega

-- The positions with a length that are not in `rest` are behind, by less than the circle, so the
-- walk does not come to them again.
theorem follow_rest {rest : List (Nat × Nat)} {behind pos : Nat} (hpos : pos < size)
    (hrest : ∀ at' length, length? at' = some length →
      (at', length) ∈ rest ∨ ∃ d, 0 < d ∧ d ≤ behind ∧ pos = (at' + d) % size)
    (hlength : ∀ at' length, length? at' = some length → 0 < length)
    (hsum : behind + (rest.map Prod.snd).sum < size) :
    ∃ last, follow length? size (rest.length + 1) pos = some last := by
  induction hn : rest.length generalizing rest behind pos with
  | zero =>
      cases h : length? pos with
      | none => exact ⟨pos, by simp only [follow, h]⟩
      | some length =>
          rw [List.length_eq_zero_iff.mp hn] at hrest
          rcases hrest pos length h with hmem | ⟨d, hd, hle, hback⟩
          · cases hmem
          · exact absurd hback (ne_add_mod hpos hd (by omega))
  | succ n ih =>
      cases h : length? pos with
      | none => exact ⟨pos, by simp only [follow, h]⟩
      | some length =>
          have hmem : (pos, length) ∈ rest := by
            rcases hrest pos length h with hmem | ⟨d, hd, hle, hback⟩
            · exact hmem
            · exact absurd hback (ne_add_mod hpos hd (by omega))
          have hperm := List.perm_cons_erase hmem
          have htotal : (rest.map Prod.snd).sum =
              length + ((rest.erase (pos, length)).map Prod.snd).sum := by
            rw [(hperm.map Prod.snd).sum_eq, List.map_cons, List.sum_cons]
          have hpositive := hlength pos length h
          have hnext : ∀ at' length', length? at' = some length' →
              (at', length') ∈ rest.erase (pos, length) ∨
                ∃ d, 0 < d ∧ d ≤ behind + length ∧ (pos + length) % size = (at' + d) % size := by
            intro at' length' h'
            rcases hrest at' length' h' with hin | ⟨d, hd, hle, hback⟩
            · by_cases hsame : (at', length') = (pos, length)
              · cases hsame
                exact .inr ⟨length, hpositive, by omega, rfl⟩
              · exact .inl ((List.mem_erase_of_ne hsame).mpr hin)
            · refine .inr ⟨d + length, by omega, by omega, ?_⟩
              rw [hback, Nat.mod_add_mod, Nat.add_assoc]
          have herased : (rest.erase (pos, length)).length = n := by
            rw [List.length_erase_of_mem hmem, hn, Nat.add_sub_cancel]
          obtain ⟨last, hlast⟩ := ih (Nat.mod_lt _ (by omega)) hnext (by omega) herased
          exact ⟨last, by simp only [follow, h, ← hlast]⟩

-- The walk ends if no length is zero and the lengths do not fill the circle.
theorem follow_ends {entries : List (Nat × Nat)} {pos : Nat} (hpos : pos < size)
    (hentries : ∀ at' length, length? at' = some length → (at', length) ∈ entries)
    (hlength : ∀ entry ∈ entries, 0 < entry.2) (hsum : (entries.map Prod.snd).sum < size) :
    ∃ last, follow length? size (entries.length + 1) pos = some last :=
  @follow_rest length? size entries 0 pos hpos (fun at' length h => .inl (hentries at' length h))
    (fun at' length h => hlength _ (hentries at' length h)) (by omega)

end Follow

end Rpcsx.Data.Walk
