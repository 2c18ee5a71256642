import Mathlib

-- Blocks of a span that are placed where they first fit.
namespace Rpcsx.Data.FirstFit

-- Blocks (start, length) one behind the other between two bounds.
def Fits (limit : Nat) : Nat → List (Nat × Nat) → Prop
  | last, [] => last ≤ limit
  | last, b :: rest => last ≤ b.1 ∧ 0 < b.2 ∧ Fits limit (b.1 + b.2) rest

-- `a` addresses from `o` on that are inside the bounds and touch no block.
structure Room (limit last : Nat) (l : List (Nat × Nat)) (a o : Nat) : Prop where
  lower : last ≤ o
  upper : o + a ≤ limit
  clear : ∀ b ∈ l, o + a ≤ b.1 ∨ b.1 + b.2 ≤ o

def firstFit (limit a : Nat) : Nat → List (Nat × Nat) → Option Nat
  | last, [] => if a ≤ limit - last then some last else none
  | last, b :: rest => if a ≤ b.1 - last then some last else firstFit limit a (b.1 + b.2) rest

def total (l : List (Nat × Nat)) : Nat := (l.map Prod.snd).sum

variable {limit last a : Nat} {l : List (Nat × Nat)}

theorem Fits.le_limit (h : Fits limit last l) : last ≤ limit := by
  induction l generalizing last with
  | nil => exact h
  | cons b rest ih =>
      have := ih h.2.2
      have := h.1
      omega

theorem Fits.start_le (h : Fits limit last l) {b : Nat × Nat} (hb : b ∈ l) :
    last ≤ b.1 ∧ 0 < b.2 ∧ b.1 + b.2 ≤ limit := by
  induction l generalizing last with
  | nil => cases hb
  | cons c rest ih =>
      obtain ⟨hstart, hpos, hrest⟩ := h
      rcases List.mem_cons.mp hb with rfl | hb
      · exact ⟨hstart, hpos, hrest.le_limit⟩
      · have := ih hrest hb
        omega

theorem Fits.mono (h : Fits limit last l) {last' : Nat} (hle : last' ≤ last) :
    Fits limit last' l := by
  cases l with
  | nil => exact hle.trans h
  | cons b rest => exact ⟨hle.trans h.1, h.2⟩

theorem Fits.total_le (h : Fits limit last l) : last + total l ≤ limit := by
  induction l generalizing last with
  | nil => exact h
  | cons b rest ih =>
      have hrest := ih h.2.2
      have hstart := h.1
      have hsum : total (b :: rest) = b.2 + total rest := by simp [total]
      omega

-- No two blocks touch.
theorem Fits.pairwise (h : Fits limit last l) :
    l.Pairwise fun b c => b.1 + b.2 ≤ c.1 := by
  induction l generalizing last with
  | nil => exact List.Pairwise.nil
  | cons b rest ih => exact List.pairwise_cons.mpr ⟨fun c hc => (h.2.2.start_le hc).1, ih h.2.2⟩

-- Behind a block there is room exactly where there is room for what follows it.
theorem room_cons {b : Nat × Nat} {rest : List (Nat × Nat)} (hpos : 0 < b.2)
    (hstart : last ≤ b.1) (hgap : ¬a ≤ b.1 - last) (o : Nat) :
    Room limit last (b :: rest) a o ↔ Room limit (b.1 + b.2) rest a o := by
  constructor
  · intro h
    have hb := h.clear b List.mem_cons_self
    have hlow := h.lower
    exact ⟨by omega, h.upper, fun c hc => h.clear c (List.mem_cons_of_mem b hc)⟩
  · intro h
    have hlow := h.lower
    refine ⟨by omega, h.upper, fun c hc => ?_⟩
    rcases List.mem_cons.mp hc with rfl | hc
    · exact .inr hlow
    · exact h.clear c hc

-- First fit finds the lowest place there is.
theorem firstFit_isLeast (h : Fits limit last l) {o : Nat}
    (ho : firstFit limit a last l = some o) : IsLeast {o | Room limit last l a o} o := by
  induction l generalizing last with
  | nil =>
      have hle := h.le_limit
      simp only [firstFit] at ho
      split at ho
      · obtain rfl := Option.some.inj ho
        exact ⟨⟨le_rfl, by omega, fun b hb => absurd hb List.not_mem_nil⟩, fun _ hroom => Room.lower hroom⟩
      · cases ho
  | cons b rest ih =>
      obtain ⟨hstart, hpos, hrest⟩ := h
      simp only [firstFit] at ho
      split at ho
      · obtain rfl := Option.some.inj ho
        have hb := hrest.le_limit
        refine ⟨⟨le_rfl, by omega, fun c hc => ?_⟩, fun _ hroom => Room.lower hroom⟩
        rcases List.mem_cons.mp hc with rfl | hc
        · omega
        · have := (hrest.start_le hc).1
          omega
      · rename_i hgap
        obtain ⟨hroom, hleast⟩ := ih hrest ho
        refine ⟨(room_cons hpos hstart hgap o).mpr hroom, fun o' ho' => ?_⟩
        exact hleast ((room_cons hpos hstart hgap o').mp ho')

theorem firstFit_eq_none (h : Fits limit last l)
    (hnone : firstFit limit a last l = none) (o : Nat) : ¬Room limit last l a o := by
  induction l generalizing last with
  | nil =>
      simp only [firstFit] at hnone
      split at hnone
      · cases hnone
      · intro hroom
        have := hroom.lower
        have := hroom.upper
        omega
  | cons b rest ih =>
      obtain ⟨hstart, hpos, hrest⟩ := h
      simp only [firstFit] at hnone
      split at hnone
      · cases hnone
      · rename_i hgap
        rw [room_cons hpos hstart hgap]
        exact ih hrest hnone

-- Where the new block goes in the order of the old ones.
theorem firstFit_insert (h : Fits limit last l) (ha : 0 < a) {o : Nat}
    (ho : firstFit limit a last l = some o) :
    ∃ before after, l = before ++ after ∧ (∀ b ∈ before, b.1 < o) ∧ (∀ b ∈ after, o < b.1) ∧
      Fits limit last (before ++ (o, a) :: after) := by
  induction l generalizing last with
  | nil =>
      have hle := h.le_limit
      simp only [firstFit] at ho
      split at ho
      · obtain rfl := Option.some.inj ho
        refine ⟨[], [], rfl, by simp, by simp, le_rfl, ha, ?_⟩
        simp only [Fits]
        omega
      · cases ho
  | cons b rest ih =>
      obtain ⟨hstart, hpos, hrest⟩ := h
      simp only [firstFit] at ho
      split at ho
      · obtain rfl := Option.some.inj ho
        refine ⟨[], b :: rest, rfl, by simp, fun c hc => ?_, le_rfl, ha, ?_, hpos, hrest⟩
        · rcases List.mem_cons.mp hc with rfl | hc
          · omega
          · have := (hrest.start_le hc).1
            omega
        · simp only
          omega
      · obtain ⟨before, after, rfl, hbefore, hafter, hfits⟩ := ih hrest ho
        refine ⟨b :: before, after, rfl, fun c hc => ?_, hafter, hstart, hpos, hfits⟩
        rcases List.mem_cons.mp hc with rfl | hc
        · have hlow := Room.lower (firstFit_isLeast hrest ho).1
          omega
        · exact hbefore c hc

-- A block that is taken out or made shorter leaves the others where they are.
theorem Fits.remove {before after : List (Nat × Nat)} {b : Nat × Nat}
    (h : Fits limit last (before ++ b :: after)) : Fits limit last (before ++ after) := by
  induction before generalizing last with
  | nil => exact h.2.2.mono (by have := h.1; omega)
  | cons c before ih => exact ⟨h.1, h.2.1, ih h.2.2⟩

theorem Fits.shrink {before after : List (Nat × Nat)} {b : Nat × Nat}
    (h : Fits limit last (before ++ b :: after)) {n : Nat} (hpos : 0 < n) (hle : n ≤ b.2) :
    Fits limit last (before ++ (b.1, n) :: after) := by
  induction before generalizing last with
  | nil => exact ⟨h.1, hpos, h.2.2.mono (by simp only; omega)⟩
  | cons c before ih => exact ⟨h.1, h.2.1, ih h.2.2⟩

end Rpcsx.Data.FirstFit
