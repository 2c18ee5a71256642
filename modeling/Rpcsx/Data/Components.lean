import Mathlib.Logic.Relation

namespace Rpcsx.Data.Components

open Relation

variable {β : Type} {edge : β → β → Prop} {inside settled : β → Prop} {root x y : β}

-- Each of the two is reached from the other.
def Connected (edge : β → β → Prop) (x y : β) : Prop :=
  ReflTransGen edge x y ∧ ReflTransGen edge y x

theorem Connected.refl (x : β) : Connected edge x x := ⟨.refl, .refl⟩

theorem Connected.symm (h : Connected edge x y) : Connected edge y x := ⟨h.2, h.1⟩

theorem Connected.trans {z : β} (h : Connected edge x y) (h' : Connected edge y z) :
    Connected edge x z := ⟨h.1.trans h'.1, h'.2.trans h.2⟩

theorem reach_settled (hsettled : ∀ x y, settled x → edge x y → settled y)
    (h : ReflTransGen edge x y) (hx : settled x) : settled y := by
  induction h with
  | refl => exact hx
  | tail _ hedge ih => exact hsettled _ _ ih hedge

-- What leaves the inside is settled, and stays so.
theorem reach_inside (hsettled : ∀ x y, settled x → edge x y → settled y)
    (hinside : ∀ x y, inside x → edge x y → inside y ∨ settled y) (h : ReflTransGen edge x y)
    (hx : inside x) : inside y ∨ settled y := by
  induction h with
  | refl => exact Or.inl hx
  | tail _ hedge ih =>
      rcases ih with ih | ih
      · exact hinside _ _ ih hedge
      · exact Or.inr (hsettled _ _ ih hedge)

-- From each inner place a lower one is reached, so the root is.
theorem reach_root (rank : β → Nat) (hsettled : ∀ x y, settled x → edge x y → settled y)
    (hinside : ∀ x y, inside x → edge x y → inside y ∨ settled y)
    (hlower : ∀ x, inside x → x = root ∨
      ∃ z, ¬settled z ∧ rank z < rank x ∧ ReflTransGen edge x z) (hx : inside x) :
    ReflTransGen edge x root := by
  induction hn : rank x using Nat.strongRecOn generalizing x with
  | ind n ih =>
      rcases hlower x hx with rfl | ⟨z, hz, hlt, hreach⟩
      · exact .refl
      · rcases reach_inside hsettled hinside hreach hx with hin | hout
        · exact hreach.trans (ih (rank z) (hn ▸ hlt) hin rfl)
        · exact absurd hout hz

-- The inside is the component of its root.
theorem inside_iff_connected (hsettled : ∀ x y, settled x → edge x y → settled y)
    (hinside : ∀ x y, inside x → edge x y → inside y ∨ settled y) (hroot : inside root)
    (hactive : ¬settled root) (hfrom : ∀ x, inside x → ReflTransGen edge root x)
    (hto : ∀ x, inside x → ReflTransGen edge x root) :
    inside y ↔ Connected edge root y := by
  constructor
  · exact fun hy => ⟨hfrom y hy, hto y hy⟩
  · rintro ⟨hforth, hback⟩
    rcases reach_inside hsettled hinside hforth hroot with hin | hout
    · exact hin
    · exact absurd (reach_settled hsettled hback hout) hactive

-- A component of more than one member has a cycle through each.
theorem transGen_of_connected (hne : x ≠ y) (h : Connected edge x y) : TransGen edge x x := by
  rcases ReflTransGen.cases_head h.1 with heq | ⟨z, hedge, hrest⟩
  · exact absurd heq hne
  · exact TransGen.head' hedge (hrest.trans h.2)

end Rpcsx.Data.Components
