import Mathlib.Data.Nat.Digits.Defs
import Rpcsx.AmdgpuTiler.MacroTile

namespace Rpcsx.AmdgpuTiler

variable {bits bits' : List Nat} {x y z x' y' z' bitsPerElement : Nat}

def IsBits (bits : List Nat) : Prop := ∀ b ∈ bits, b < 2

theorem bit_eq (v k : Nat) : bit v k = v / 2 ^ k % 2 := by
  rw [bit, Nat.and_one_is_mod, Nat.shiftRight_eq_div_pow]

theorem and_one_lt (n : Nat) : n &&& 1 < 2 := by
  rw [Nat.and_one_is_mod]
  exact Nat.mod_lt n (by decide)

-- Induction on the bits, with the position of the first one and the bits in front generalised.
theorem foldl_place (hbits : IsBits bits) (first start : Nat) :
    (((bits.zipIdx first).map fun b => b.1 <<< b.2).foldl (· ||| ·) start) =
      start ||| Nat.ofDigits 2 bits <<< first := by
  induction bits generalizing first start with
  | nil => simp [Nat.ofDigits_nil]
  | cons b rest ih =>
      have hb : b < 2 ^ 1 := hbits b List.mem_cons_self
      have hrest : IsBits rest := fun c hc => hbits c (List.mem_cons_of_mem b hc)
      have hcons : Nat.ofDigits 2 (b :: rest) = Nat.ofDigits 2 rest <<< 1 ||| b := by
        rw [Nat.ofDigits_cons, ← Nat.shiftLeft_add_eq_or_of_lt hb, Nat.shiftLeft_eq]
        simp only [Nat.pow_one]
        omega
      rw [List.zipIdx_cons, List.map_cons, List.foldl_cons, ih hrest, hcons,
        Nat.shiftLeft_or_distrib, ← Nat.shiftLeft_add, Nat.add_comm 1 first, Nat.or_assoc,
        Nat.or_comm (b <<< first)]

theorem place_eq_ofDigits (hbits : IsBits bits) : place bits = Nat.ofDigits 2 bits := by
  rw [place, foldl_place hbits, Nat.zero_or, Nat.shiftLeft_zero]

theorem place_lt (hbits : IsBits bits) : place bits < 2 ^ bits.length := by
  rw [place_eq_ofDigits hbits]
  exact Nat.ofDigits_lt_base_pow_length (by decide) hbits

theorem place_inj (hbits : IsBits bits) (hbits' : IsBits bits')
    (hlength : bits.length = bits'.length) (h : place bits = place bits') : bits = bits' := by
  rw [place_eq_ofDigits hbits, place_eq_ofDigits hbits'] at h
  exact Nat.ofDigits_inj_of_len_eq (by decide) hlength hbits hbits' h

theorem place_cons_mod_two {b : Nat} (hbits : IsBits (b :: bits)) : place (b :: bits) % 2 = b := by
  have hb : b < 2 := hbits b List.mem_cons_self
  rw [place_eq_ofDigits hbits, Nat.ofDigits_cons]
  omega

-- The bits of an element index where its order has one for every element of a thin tile or of a
-- tile of four planes.
def orderBits (x y z bitsPerElement : Nat) (mode : MicroTileMode) (arrayMode : ArrayMode) :
    List Nat :=
  match mode with
  | .display => (displayBits x y bitsPerElement).getD []
  | .thin | .depth => thinBits x y ++ thinDepthBits z arrayMode
  | .thick => (thickBits x y z bitsPerElement).getD []
  | .rotated | .other => []

-- The order tells the elements of a micro tile apart.
def SeparatesElements (mode : MicroTileMode) (arrayMode : ArrayMode) (bitsPerElement depth : Nat) :
    Prop :=
  match mode with
  | .display => bitsPerElement ≠ 128 ∧ (getMicroTileThickness arrayMode = 1 ∨ depth = 1)
  | .thin | .depth => True
  | .thick => getMicroTileThickness arrayMode = 4
  | .rotated | .other => False

section Order

variable {mode : MicroTileMode} {arrayMode : ArrayMode} {depth : Nat}

theorem bit_lt (v k : Nat) : bit v k < 2 := and_one_lt _

theorem isBits_nil : IsBits [] := by
  intro b hb
  cases hb

theorem isBits_bit_cons {v k : Nat} : IsBits (bit v k :: bits) ↔ IsBits bits := by
  rw [IsBits, List.forall_mem_cons]
  exact and_iff_right (bit_lt v k)

theorem isBits_displayBits : IsBits ((displayBits x y bitsPerElement).getD []) := by
  unfold displayBits
  split_ifs <;> simp only [Option.getD_some, Option.getD_none, isBits_bit_cons, isBits_nil]

theorem isBits_thickBits : IsBits ((thickBits x y z bitsPerElement).getD []) := by
  unfold thickBits
  split_ifs <;> simp only [Option.getD_some, Option.getD_none, isBits_bit_cons, isBits_nil]

theorem isBits_thinBits : IsBits (thinBits x y) := by
  simp only [thinBits, isBits_bit_cons, isBits_nil]

theorem isBits_thinDepthBits : IsBits (thinDepthBits z arrayMode) := by
  unfold thinDepthBits
  split <;> simp only [isBits_bit_cons, isBits_nil]

theorem isBits_orderBits : IsBits (orderBits x y z bitsPerElement mode arrayMode) := by
  cases mode with
  | display => exact isBits_displayBits
  | thin | depth =>
      intro b hb
      rcases List.mem_append.mp hb with hb | hb
      · exact isBits_thinBits b hb
      · exact isBits_thinDepthBits b hb
  | thick => exact isBits_thickBits
  | rotated | other => simp [orderBits, IsBits]

theorem shaderElementIndex_eq_place (horder : SeparatesElements mode arrayMode bitsPerElement depth) :
    shaderElementIndex x y z bitsPerElement mode arrayMode =
      place (orderBits x y z bitsPerElement mode arrayMode) := by
  cases mode with
  | display | thin | depth => rfl
  | thick =>
      simp only [SeparatesElements] at horder
      simp [shaderElementIndex, orderBits, horder]
  | rotated | other => exact absurd horder id

theorem thinDepthBits_of_thin (h : getMicroTileThickness arrayMode = 1) :
    thinDepthBits z arrayMode = [] := by
  revert h
  cases arrayMode <;> simp [getMicroTileThickness, thinDepthBits]

theorem thinDepthBits_of_thick (h : getMicroTileThickness arrayMode = 4) :
    thinDepthBits z arrayMode = [bit z 0, bit z 1] := by
  revert h
  cases arrayMode <;> simp [getMicroTileThickness, thinDepthBits]

theorem mod_eight_eq (h0 : bit x 0 = bit x' 0) (h1 : bit x 1 = bit x' 1) (h2 : bit x 2 = bit x' 2) :
    x % 8 = x' % 8 := by
  simp only [bit_eq, Nat.reducePow] at h0 h1 h2
  omega

theorem mod_four_eq (h0 : bit z 0 = bit z' 0) (h1 : bit z 1 = bit z' 1) : z % 4 = z' % 4 := by
  simp only [bit_eq, Nat.reducePow] at h0 h1
  omega

theorem displayBits_inj (hsize : bitsPerElement ∈ [8, 16, 32, 64, 128]) (hne : bitsPerElement ≠ 128)
    (h : (displayBits x y bitsPerElement).getD [] = (displayBits x' y' bitsPerElement).getD []) :
    x % 8 = x' % 8 ∧ y % 8 = y' % 8 := by
  simp only [List.mem_cons, List.not_mem_nil, or_false] at hsize
  rcases hsize with rfl | rfl | rfl | rfl | rfl
  · simp only [displayBits, if_pos, Option.getD_some, List.cons.injEq, and_true] at h
    obtain ⟨hx0, hx1, hx2, hy1, hy0, hy2⟩ := h
    exact ⟨mod_eight_eq hx0 hx1 hx2, mod_eight_eq hy0 hy1 hy2⟩
  · simp only [displayBits, if_pos, if_neg (by decide : ¬16 = 8), Option.getD_some,
      List.cons.injEq, and_true] at h
    obtain ⟨hx0, hx1, hx2, hy0, hy1, hy2⟩ := h
    exact ⟨mod_eight_eq hx0 hx1 hx2, mod_eight_eq hy0 hy1 hy2⟩
  · simp only [displayBits, if_pos, if_neg (by decide : ¬32 = 8), if_neg (by decide : ¬32 = 16),
      Option.getD_some, List.cons.injEq, and_true] at h
    obtain ⟨hx0, hx1, hy0, hx2, hy1, hy2⟩ := h
    exact ⟨mod_eight_eq hx0 hx1 hx2, mod_eight_eq hy0 hy1 hy2⟩
  · simp only [displayBits, if_pos, if_neg (by decide : ¬64 = 8), if_neg (by decide : ¬64 = 16),
      if_neg (by decide : ¬64 = 32), Option.getD_some, List.cons.injEq, and_true] at h
    obtain ⟨hx0, hy0, hx1, hx2, hy1, hy2⟩ := h
    exact ⟨mod_eight_eq hx0 hx1 hx2, mod_eight_eq hy0 hy1 hy2⟩
  · exact absurd rfl hne

theorem thickBits_inj (hsize : bitsPerElement ∈ [8, 16, 32, 64, 128])
    (h : (thickBits x y z bitsPerElement).getD [] = (thickBits x' y' z' bitsPerElement).getD []) :
    x % 8 = x' % 8 ∧ y % 8 = y' % 8 ∧ z % 4 = z' % 4 := by
  have hcases : (bitsPerElement = 8 ∨ bitsPerElement = 16) ∨ bitsPerElement = 32 ∨
      (bitsPerElement = 64 ∨ bitsPerElement = 128) := by
    simp only [List.mem_cons, List.not_mem_nil, or_false] at hsize
    omega
  rcases hcases with hsmall | rfl | hlarge
  · simp only [thickBits, if_pos hsmall, Option.getD_some, List.cons.injEq, and_true] at h
    obtain ⟨hx0, hy0, hx1, hy1, hz0, hz1, hx2, hy2⟩ := h
    exact ⟨mod_eight_eq hx0 hx1 hx2, mod_eight_eq hy0 hy1 hy2, mod_four_eq hz0 hz1⟩
  · simp only [thickBits, if_pos, if_neg (by decide : ¬(32 = 8 ∨ 32 = 16)), Option.getD_some,
      List.cons.injEq, and_true] at h
    obtain ⟨hx0, hy0, hx1, hz0, hy1, hz1, hx2, hy2⟩ := h
    exact ⟨mod_eight_eq hx0 hx1 hx2, mod_eight_eq hy0 hy1 hy2, mod_four_eq hz0 hz1⟩
  · have hsmall : ¬(bitsPerElement = 8 ∨ bitsPerElement = 16) := by omega
    have hmiddle : ¬bitsPerElement = 32 := by omega
    simp only [thickBits, if_neg hsmall, if_neg hmiddle, if_pos hlarge, Option.getD_some,
      List.cons.injEq, and_true] at h
    obtain ⟨hx0, hy0, hz0, hx1, hy1, hz1, hx2, hy2⟩ := h
    exact ⟨mod_eight_eq hx0 hx1 hx2, mod_eight_eq hy0 hy1 hy2, mod_four_eq hz0 hz1⟩

theorem thinBits_inj (h : thinBits x y = thinBits x' y') : x % 8 = x' % 8 ∧ y % 8 = y' % 8 := by
  simp only [thinBits, List.cons.injEq, and_true] at h
  obtain ⟨hx0, hy0, hx1, hy1, hx2, hy2⟩ := h
  exact ⟨mod_eight_eq hx0 hx1 hx2, mod_eight_eq hy0 hy1 hy2⟩

-- An order has six bits in a plane and two for the four planes of a thick tile.
theorem length_orderBits_le (hthickness : getMicroTileThickness arrayMode = 1 ∨
      getMicroTileThickness arrayMode = 4)
    (horder : SeparatesElements mode arrayMode bitsPerElement depth) :
    2 ^ (orderBits x y z bitsPerElement mode arrayMode).length ≤
      64 * getMicroTileThickness arrayMode := by
  cases mode with
  | display =>
      have hlength : ((displayBits x y bitsPerElement).getD []).length ≤ 6 := by
        unfold displayBits
        split_ifs <;> simp
      have hpow := Nat.pow_le_pow_right (by decide : 0 < 2) hlength
      simp only [orderBits]
      omega
  | thin | depth =>
      rcases hthickness with h | h
      · simp [orderBits, thinDepthBits_of_thin h, thinBits, h]
      · simp [orderBits, thinDepthBits_of_thick h, thinBits, h]
  | thick =>
      have hlength : ((thickBits x y z bitsPerElement).getD []).length ≤ 8 := by
        unfold thickBits
        split_ifs <;> simp
      have hpow := Nat.pow_le_pow_right (by decide : 0 < 2) hlength
      simp only [SeparatesElements] at horder
      simp only [orderBits, horder]
      omega
  | rotated | other => exact absurd horder id

theorem length_orderBits : (orderBits x y z bitsPerElement mode arrayMode).length =
    (orderBits x' y' z' bitsPerElement mode arrayMode).length := by
  cases mode with
  | display =>
      simp only [orderBits, displayBits]
      split_ifs <;> rfl
  | thin | depth =>
      simp only [orderBits, List.length_append]
      congr 1
      unfold thinDepthBits
      split <;> rfl
  | thick =>
      simp only [orderBits, thickBits]
      split_ifs <;> rfl
  | rotated | other => rfl

theorem shaderElementIndex_lt (hthickness : getMicroTileThickness arrayMode = 1 ∨
      getMicroTileThickness arrayMode = 4)
    (horder : SeparatesElements mode arrayMode bitsPerElement depth) :
    shaderElementIndex x y z bitsPerElement mode arrayMode <
      64 * getMicroTileThickness arrayMode := by
  rw [shaderElementIndex_eq_place horder]
  exact (place_lt isBits_orderBits).trans_le (length_orderBits_le hthickness horder)

-- Elements of one index are at one place of their tiles.
theorem shaderElementIndex_inj (hthickness : getMicroTileThickness arrayMode = 1 ∨
      getMicroTileThickness arrayMode = 4)
    (horder : SeparatesElements mode arrayMode bitsPerElement depth)
    (hsize : bitsPerElement ∈ [8, 16, 32, 64, 128]) (hz : z < depth) (hz' : z' < depth)
    (h : shaderElementIndex x y z bitsPerElement mode arrayMode =
      shaderElementIndex x' y' z' bitsPerElement mode arrayMode) :
    x % 8 = x' % 8 ∧ y % 8 = y' % 8 ∧
      z % getMicroTileThickness arrayMode = z' % getMicroTileThickness arrayMode := by
  rw [shaderElementIndex_eq_place horder, shaderElementIndex_eq_place horder] at h
  have hbits := place_inj isBits_orderBits isBits_orderBits length_orderBits h
  cases mode with
  | display =>
      obtain ⟨hx, hy⟩ := displayBits_inj hsize horder.1 hbits
      refine ⟨hx, hy, ?_⟩
      rcases horder.2 with hthin | hflat
      · rw [hthin, Nat.mod_one, Nat.mod_one]
      · have hzero : z = z' := by omega
        rw [hzero]
  | thin | depth =>
      simp only [orderBits] at hbits
      rcases hthickness with hthin | hthick
      · rw [thinDepthBits_of_thin hthin, thinDepthBits_of_thin hthin, List.append_nil,
          List.append_nil] at hbits
        obtain ⟨hx, hy⟩ := thinBits_inj hbits
        exact ⟨hx, hy, by rw [hthin, Nat.mod_one, Nat.mod_one]⟩
      · rw [thinDepthBits_of_thick hthick, thinDepthBits_of_thick hthick] at hbits
        obtain ⟨hplane, hplanes⟩ := List.append_inj hbits rfl
        obtain ⟨hx, hy⟩ := thinBits_inj hplane
        simp only [List.cons.injEq, and_true] at hplanes
        exact ⟨hx, hy, by rw [hthick]; exact mod_four_eq hplanes.1 hplanes.2⟩
  | thick =>
      simp only [SeparatesElements] at horder
      rw [horder]
      exact thickBits_inj hsize hbits
  | rotated | other => exact absurd horder id

-- Two neighbours of one byte lie side by side in every order.
theorem shaderElementIndex_mod_two (horder : SeparatesElements mode arrayMode 8 depth) :
    shaderElementIndex x y z 8 mode arrayMode % 2 = x % 2 := by
  have hbit : bit x 0 = x % 2 := by rw [bit_eq, Nat.pow_zero, Nat.div_one]
  rw [shaderElementIndex_eq_place horder, ← hbit]
  have hbits : IsBits (orderBits x y z 8 mode arrayMode) := isBits_orderBits
  cases mode with
  | display | thin | depth | thick => exact place_cons_mod_two hbits
  | rotated | other => exact absurd horder id

end Order

end Rpcsx.AmdgpuTiler
