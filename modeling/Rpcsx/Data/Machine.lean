import Mathlib.Data.List.Basic

namespace Rpcsx.Data.Machine

variable {σ τ ι ο : Type}

-- `P` holds of every call of a run: of the state before it, of what an observer of the calls and
-- their results knows by then, of the call and of its result.
def Along (step : σ → ι → σ × ο) (next : τ → ι → ο → τ) (P : σ → τ → ι → ο → Prop) :
    σ → τ → List ι → Prop
  | _, _, [] => True
  | s, a, i :: rest =>
      P s a i (step s i).2 ∧ Along step next P (step s i).1 (next a i (step s i).2) rest

variable {step : σ → ι → σ × ο} {next : τ → ι → ο → τ} {Q P : σ → τ → ι → ο → Prop}

-- An invariant that every call with `Q` keeps carries `P` along every run with `Q`.
theorem along_of_invariant (inv : σ → τ → Prop)
    (hstep : ∀ s a i, inv s a → Q s a i (step s i).2 →
      inv (step s i).1 (next a i (step s i).2) ∧ P s a i (step s i).2)
    {s : σ} {a : τ} (hinv : inv s a) {calls : List ι} (h : Along step next Q s a calls) :
    Along step next P s a calls := by
  induction calls generalizing s a with
  | nil => trivial
  | cons i rest ih =>
      obtain ⟨hq, hrest⟩ := h
      obtain ⟨hinv', hp⟩ := hstep s a i hinv hq
      exact ⟨hp, ih hinv' hrest⟩

-- Where `Q` and `P` say the same under the invariant, a run has the one exactly when it has
-- the other.
theorem along_iff_of_invariant (inv : σ → τ → Prop)
    (hstep : ∀ s a i, inv s a → (Q s a i (step s i).2 ↔ P s a i (step s i).2) ∧
      (Q s a i (step s i).2 → inv (step s i).1 (next a i (step s i).2)))
    {s : σ} {a : τ} (hinv : inv s a) (calls : List ι) :
    Along step next Q s a calls ↔ Along step next P s a calls := by
  induction calls generalizing s a with
  | nil => exact Iff.rfl
  | cons i rest ih =>
      obtain ⟨hiff, hkeep⟩ := hstep s a i hinv
      constructor
      · rintro ⟨hq, hrest⟩
        exact ⟨hiff.mp hq, (ih (hkeep hq)).mp hrest⟩
      · rintro ⟨hp, hrest⟩
        exact ⟨hiff.mpr hp, (ih (hkeep (hiff.mpr hp))).mpr hrest⟩

-- The state and the observer behind a run.
def exec (step : σ → ι → σ × ο) (next : τ → ι → ο → τ) : σ → τ → List ι → σ × τ
  | s, a, [] => (s, a)
  | s, a, i :: rest => exec step next (step s i).1 (next a i (step s i).2) rest

theorem exec_append (s : σ) (a : τ) (calls rest : List ι) :
    exec step next s a (calls ++ rest) =
      exec step next (exec step next s a calls).1 (exec step next s a calls).2 rest := by
  induction calls generalizing s a with
  | nil => rfl
  | cons i calls ih => exact ih _ _

theorem along_append {s : σ} {a : τ} {calls rest : List ι} :
    Along step next P s a (calls ++ rest) ↔ Along step next P s a calls ∧
      Along step next P (exec step next s a calls).1 (exec step next s a calls).2 rest := by
  induction calls generalizing s a with
  | nil => simp [Along, exec]
  | cons i calls ih => simp only [List.cons_append, Along, exec, ih, and_assoc]

end Rpcsx.Data.Machine
