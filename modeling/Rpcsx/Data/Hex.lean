import Rpcsx.Data.Text

namespace Rpcsx.Data.Hex

def isHexDigit (c : Char) : Bool :=
  (48 ≤ c.toNat && c.toNat ≤ 57) || (65 ≤ c.toNat && c.toNat ≤ 70) ||
    (97 ≤ c.toNat && c.toNat ≤ 102)

def digitValue (c : Char) : Nat :=
  if c.toNat ≤ 57 then c.toNat - 48
  else if c.toNat ≤ 70 then c.toNat - 55
  else c.toNat - 87

def hexValue (text : Text) : Nat := text.foldl (fun value c => 16 * value + digitValue c) 0

def hexDigit (value : Nat) : Char :=
  if value < 10 then Char.ofNat ('0'.toNat + value) else Char.ofNat ('A'.toNat + (value - 10))

-- Upper case digits without leading zeros.
def hexText (value : Nat) : Text :=
  if value < 16 then [hexDigit value] else hexText (value / 16) ++ [hexDigit (value % 16)]

def padStart (length : Nat) (c : Char) (text : Text) : Text :=
  List.replicate (length - text.length) c ++ text

theorem digitValue_hexDigit : ∀ value < 16, digitValue (hexDigit value) = value := by decide

theorem isHexDigit_hexDigit : ∀ value < 16, isHexDigit (hexDigit value) = true := by decide

theorem toNat_lt {c : Char} (h : isHexDigit c = true) : c.toNat < 103 := by
  simp only [isHexDigit, Bool.or_eq_true, Bool.and_eq_true, decide_eq_true_eq] at h
  omega

theorem digitValue_lt {c : Char} (h : isHexDigit c = true) : digitValue c < 16 := by
  simp only [isHexDigit, Bool.or_eq_true, Bool.and_eq_true, decide_eq_true_eq] at h
  unfold digitValue
  split
  · omega
  · split <;> omega

private theorem alphanum_small : ∀ n < 103, isHexDigit (Char.ofNat n) = true →
    (Char.ofNat n).isAlphanum = true := by decide

theorem isAlphanum_of_isHexDigit {c : Char} (h : isHexDigit c = true) : c.isAlphanum = true := by
  have hsmall := alphanum_small c.toNat (toNat_lt h)
  rw [Char.ofNat_toNat] at hsmall
  exact hsmall h

private theorem toUpper_small : ∀ n < 103, isHexDigit (Char.ofNat n) = true →
    digitValue (Char.ofNat n).toUpper = digitValue (Char.ofNat n) ∧
      isHexDigit (Char.ofNat n).toUpper = true := by decide

-- The case of a digit does not change its value.
theorem toUpper_digit {c : Char} (h : isHexDigit c = true) :
    digitValue c.toUpper = digitValue c ∧ isHexDigit c.toUpper = true := by
  have hsmall := toUpper_small c.toNat (toNat_lt h)
  rw [Char.ofNat_toNat] at hsmall
  exact hsmall h

theorem hexValue_concat (text : Text) (c : Char) :
    hexValue (text ++ [c]) = 16 * hexValue text + digitValue c := by
  simp [hexValue]

theorem hexValue_lt {text : Text} (h : ∀ c ∈ text, isHexDigit c = true) :
    hexValue text < 16 ^ text.length := by
  induction text using List.reverseRecOn with
  | nil => simp [hexValue]
  | append_singleton text c ih =>
      have hc := digitValue_lt (h c (by simp))
      have ih' := ih fun d hd => h d (by simp [hd])
      rw [hexValue_concat, List.length_append, List.length_singleton, Nat.pow_succ]
      omega

theorem hexValue_hexText (value : Nat) : hexValue (hexText value) = value := by
  fun_induction hexText value with
  | case1 value h => simp [hexValue, digitValue_hexDigit value h]
  | case2 value h ih =>
      rw [hexValue_concat, ih, digitValue_hexDigit _ (Nat.mod_lt _ (by decide))]
      omega

theorem isHexDigit_hexText (value : Nat) : ∀ c ∈ hexText value, isHexDigit c = true := by
  fun_induction hexText value with
  | case1 value h => simpa using isHexDigit_hexDigit value h
  | case2 value h ih =>
      intro c hc
      rcases List.mem_append.mp hc with hc | hc
      · exact ih c hc
      · rw [List.mem_singleton.mp hc]
        exact isHexDigit_hexDigit _ (Nat.mod_lt _ (by decide))

theorem hexValue_zero_cons (text : Text) : hexValue ('0' :: text) = hexValue text := rfl

theorem hexValue_padStart (length : Nat) (text : Text) :
    hexValue (padStart length '0' text) = hexValue text := by
  unfold padStart
  induction length - text.length with
  | zero => rfl
  | succ count ih => rw [List.replicate_succ, List.cons_append, hexValue_zero_cons, ih]

theorem isHexDigit_padStart {length : Nat} {text : Text}
    (h : ∀ c ∈ text, isHexDigit c = true) :
    ∀ c ∈ padStart length '0' text, isHexDigit c = true := by
  intro c hc
  rcases List.mem_append.mp hc with hc | hc
  · rw [List.eq_of_mem_replicate hc]
    decide
  · exact h c hc

theorem hexValue_toUpper {text : Text} (h : ∀ c ∈ text, isHexDigit c = true) :
    hexValue (text.map Char.toUpper) = hexValue text := by
  induction text using List.reverseRecOn with
  | nil => rfl
  | append_singleton text c ih =>
      rw [List.map_append, List.map_singleton, hexValue_concat, hexValue_concat,
        ih fun d hd => h d (by simp [hd]), (toUpper_digit (h c (by simp))).1]

theorem isHexDigit_toUpper {text : Text} (h : ∀ c ∈ text, isHexDigit c = true) :
    ∀ c ∈ text.map Char.toUpper, isHexDigit c = true := by
  intro c hc
  obtain ⟨d, hd, rfl⟩ := List.mem_map.mp hc
  exact (toUpper_digit (h d hd)).2

-- The bytes of a text, two digits each.
def hexBytes : Text → List Byte
  | high :: low :: rest => Fin.ofNat 256 (16 * digitValue high + digitValue low) :: hexBytes rest
  | _ => []

theorem hexBytes_append {left : Text} (h : left.length % 2 = 0) (right : Text) :
    hexBytes (left ++ right) = hexBytes left ++ hexBytes right := by
  fun_induction hexBytes left with
  | case1 high low rest ih =>
      have hrest := ih (by simp only [List.length_cons] at h; omega)
      simp only [List.cons_append, hexBytes, hrest]
  | case2 left hne =>
      match left, h, hne with
      | [], _, _ => rfl
      | [c], h, _ => simp at h
      | high :: low :: rest, _, hne => exact absurd rfl (hne high low rest)

theorem length_hexBytes (text : Text) : (hexBytes text).length = text.length / 2 := by
  fun_induction hexBytes text with
  | case1 high low rest ih =>
      rw [List.length_cons, ih, List.length_cons, List.length_cons]
      omega
  | case2 text hne =>
      match text, hne with
      | [], _ => rfl
      | [c], _ => simp
      | high :: low :: rest, hne => exact absurd rfl (hne high low rest)

-- The bytes are those of the number that the digits stand for, from the most significant one.
theorem leBytes_hexValue (count : Nat) {text : Text} (hl : text.length = 2 * count)
    (h : ∀ c ∈ text, isHexDigit c = true) :
    Bytes.leBytes count (hexValue text) = (hexBytes text).reverse := by
  induction count generalizing text with
  | zero =>
      obtain rfl : text = [] := List.length_eq_zero_iff.mp hl
      rfl
  | succ count ih =>
      obtain ⟨init, low, rfl⟩ := (List.eq_nil_or_concat' text).resolve_left (by
        rintro rfl
        simp at hl)
      obtain ⟨init, high, rfl⟩ := (List.eq_nil_or_concat' init).resolve_left (by
        rintro rfl
        simp only [List.nil_append, List.length_singleton] at hl
        omega)
      simp only [List.length_append, List.length_singleton] at hl
      have hinit : init.length = 2 * count := by omega
      have hlow := digitValue_lt (h low (by simp))
      have hhigh := digitValue_lt (h high (by simp))
      have hvalue : hexValue (init ++ [high] ++ [low]) =
          256 * hexValue init + (16 * digitValue high + digitValue low) := by
        rw [hexValue_concat, hexValue_concat]
        omega
      have hlast : hexBytes ([high] ++ [low]) =
          [Fin.ofNat 256 (16 * digitValue high + digitValue low)] := rfl
      rw [hvalue, Bytes.leBytes, List.append_assoc, hexBytes_append (by omega), hlast,
        List.reverse_append, ← ih hinit fun c hc => h c (by simp [hc])]
      have hdiv : (256 * hexValue init + (16 * digitValue high + digitValue low)) / 256 =
          hexValue init := by omega
      have hmod : Fin.ofNat 256 (256 * hexValue init + (16 * digitValue high + digitValue low)) =
          Fin.ofNat 256 (16 * digitValue high + digitValue low) := by
        apply Fin.ext
        simp only [Fin.val_ofNat]
        omega
      rw [hdiv, hmod]
      rfl

end Rpcsx.Data.Hex
