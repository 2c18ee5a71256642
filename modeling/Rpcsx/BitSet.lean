import Mathlib.Data.List.Basic
import Mathlib.Tactic.Linarith

namespace Rpcsx

-- `rx::BitSet<Count>`: whole 64-bit words, also where `Count` ends inside the last one.
structure BitSet (count : Nat) where
  bits : List (BitVec 64)
  length_bits : bits.length = (count + 63) / 64
  deriving DecidableEq

namespace BitSet

-- `std::countr_one` and `std::countr_zero` of one word: the place of its first bit that is `b`.
def scanWord (b : Bool) (word : BitVec 64) : Nat :=
  (List.range 64).findIdx fun i => word.getLsbD i == b

-- The loops over the words add up counts until one of them is not a whole word.
def scanWords (b : Bool) : List (BitVec 64) → Nat
  | [] => 0
  | word :: rest =>
      if scanWord b word ≠ 64 then scanWord b word else scanWord b word + scanWords b rest

variable {count : Nat}

def empty : BitSet count := ⟨List.replicate ((count + 63) / 64) 0, by simp⟩

def word (s : BitSet count) (i : Nat) : BitVec 64 := s.bits.getD i 0

def setWord (s : BitSet count) (i : Nat) (w : BitVec 64) : BitSet count :=
  ⟨s.bits.set i w, by rw [List.length_set, s.length_bits]⟩

def countrOne (s : BitSet count) : Nat := scanWords false s.bits

def countrZeroFrom (s : BitSet count) (offset : Nat) : Nat :=
  scanWords true (s.bits.drop (offset / 64)) + offset

def countrZero (s : BitSet count) (offset : Nat) : Nat :=
  if offset % 64 ≠ 0 then
    if scanWord true (s.word (offset / 64) >>> (offset % 64)) ≠ 64 then
      scanWord true (s.word (offset / 64) >>> (offset % 64)) + offset
    else s.countrZeroFrom ((offset + 63) / 64 * 64)
  else s.countrZeroFrom offset

def full (s : BitSet count) : Bool :=
  if count < 64 then s.word 0 == (1#64 <<< count) - 1#64
  else s.bits.all (· == ~~~0#64)

def isEmpty (s : BitSet count) : Bool := s.bits.all (· == 0#64)

def clear (s : BitSet count) (index : Nat) : BitSet count :=
  s.setWord (index / 64) (s.word (index / 64) &&& ~~~(1#64 <<< (index % 64)))

def set (s : BitSet count) (index : Nat) : BitSet count :=
  s.setWord (index / 64) (s.word (index / 64) ||| 1#64 <<< (index % 64))

def test (s : BitSet count) (index : Nat) : Bool :=
  s.word (index / 64) &&& 1#64 <<< (index % 64) != 0#64

theorem test_eq (s : BitSet count) (i : Nat) :
    s.test i = (s.word (i / 64)).getLsbD (i % 64) := by
  have hlt : i % 64 < 64 := Nat.mod_lt _ (by omega)
  have hone : 1#64 <<< (i % 64) = BitVec.twoPow 64 (i % 64) := by
    rw [BitVec.twoPow]
  rw [test, hone, BitVec.and_twoPow]
  cases (s.word (i / 64)).getLsbD (i % 64) with
  | false => simp
  | true =>
      have hne : BitVec.twoPow 64 (i % 64) ≠ 0#64 := by
        intro he
        have hb := congrArg (fun w => BitVec.getLsbD w (i % 64)) he
        simp [hlt] at hb
      simpa using hne

theorem word_setWord (s : BitSet count) {i : Nat} (hi : i < (count + 63) / 64) (w : BitVec 64)
    (j : Nat) : (s.setWord i w).word j = if i = j then w else s.word j := by
  have hl : i < s.bits.length := by rw [s.length_bits]; exact hi
  simp only [word, setWord, List.getD_eq_getElem?_getD, List.getElem?_set, hl, if_true]
  split
  · rfl
  · rfl

@[simp] theorem test_empty (i : Nat) : (empty : BitSet count).test i = false := by
  rw [test_eq, word, empty, List.getD_eq_getElem?_getD, List.getElem?_replicate]
  split
  · simp
  · simp

theorem test_set (s : BitSet count) {i : Nat} (hi : i < count) (j : Nat) :
    (s.set i).test j = (decide (i = j) || s.test j) := by
  rw [test_eq, test_eq, set, word_setWord _ (by omega)]
  by_cases hw : i / 64 = j / 64
  · have hm : (i % 64 = j % 64) ↔ i = j := by omega
    have hlt : i % 64 < 64 := Nat.mod_lt _ (by omega)
    have hone : 1#64 <<< (i % 64) = BitVec.twoPow 64 (i % 64) := by rw [BitVec.twoPow]
    rw [if_pos hw, hone, BitVec.getLsbD_or, BitVec.getLsbD_twoPow, hw, Bool.or_comm]
    simp [hm, hlt]
  · have hne : i ≠ j := fun he => hw (by rw [he])
    rw [if_neg hw]
    simp [hne]

theorem test_clear (s : BitSet count) {i : Nat} (hi : i < count) (j : Nat) :
    (s.clear i).test j = (!decide (i = j) && s.test j) := by
  rw [test_eq, test_eq, clear, word_setWord _ (by omega)]
  by_cases hw : i / 64 = j / 64
  · have hm : (i % 64 = j % 64) ↔ i = j := by omega
    have hlt : j % 64 < 64 := Nat.mod_lt _ (by omega)
    have hlt' : i % 64 < 64 := Nat.mod_lt _ (by omega)
    have hone : 1#64 <<< (i % 64) = BitVec.twoPow 64 (i % 64) := by rw [BitVec.twoPow]
    rw [if_pos hw, hone, BitVec.getLsbD_and, BitVec.getLsbD_not, BitVec.getLsbD_twoPow, hw,
      Bool.and_comm]
    simp [hm, hlt, hlt']
  · have hne : i ≠ j := fun he => hw (by rw [he])
    rw [if_neg hw]
    simp [hne]

-- `r` is the first place from `lo` on where `p` is `b`, or `hi` where there is none.
structure First (b : Bool) (p : Nat → Bool) (lo hi r : Nat) : Prop where
  ge : lo ≤ r
  le : r ≤ hi
  skipped : ∀ i, lo ≤ i → i < r → p i = !b
  hit : r < hi → p r = b

-- What lies before the first place where `p` holds adds nothing to the places where it holds.
theorem First.filter_range' {p : Nat → Bool} {lo hi r : Nat} (h : First true p lo hi r)
    (size : Nat) :
    (List.range' lo (size - lo)).filter p = (List.range' r (size - r)).filter p := by
  have hge := h.ge
  have hsplit : List.range' lo (size - lo) =
      List.range' lo (min r size - lo) ++ List.range' r (size - r) := by
    by_cases hin : r < size
    · rw [Nat.min_eq_left (by omega), show size - lo = (r - lo) + (size - r) by omega,
        ← List.range'_append_1, Nat.add_sub_cancel' hge]
    · rw [Nat.min_eq_right (by omega), show size - r = 0 by omega, List.range'_zero,
        List.append_nil]
  have hskipped : (List.range' lo (min r size - lo)).filter p = [] := by
    rw [List.filter_eq_nil_iff]
    intro i hi
    rw [List.mem_range'_1] at hi
    rw [h.skipped i (by omega) (by omega)]
    simp
  rw [hsplit, List.filter_append, hskipped, List.nil_append]

theorem scanWord_first (b : Bool) (w : BitVec 64) :
    First b w.getLsbD 0 64 (scanWord b w) := by
  have hle : scanWord b w ≤ 64 := by
    have h : scanWord b w ≤ (List.range 64).length := List.findIdx_le_length
    simpa using h
  refine ⟨Nat.zero_le _, hle, ?_, ?_⟩
  · intro i _ hi
    have hn := List.not_of_lt_findIdx hi
    rw [List.getElem_range] at hn
    cases hb : w.getLsbD i
    · cases b
      · simp [hb] at hn
      · rfl
    · cases b
      · rfl
      · simp [hb] at hn
  · intro hlt
    have hlt' : (List.range 64).findIdx (fun i => w.getLsbD i == b) < (List.range 64).length := by
      simpa [scanWord] using hlt
    have hf := List.findIdx_getElem (w := hlt')
    simpa [scanWord] using hf

def bitAt (words : List (BitVec 64)) (i : Nat) : Bool := (words.getD (i / 64) 0).getLsbD (i % 64)

theorem bitAt_cons_lt (w : BitVec 64) (rest : List (BitVec 64)) {i : Nat} (hi : i < 64) :
    bitAt (w :: rest) i = w.getLsbD i := by
  simp only [bitAt, Nat.div_eq_of_lt hi, Nat.mod_eq_of_lt hi, List.getD_cons_zero]

theorem bitAt_cons_add (w : BitVec 64) (rest : List (BitVec 64)) (i : Nat) :
    bitAt (w :: rest) (64 + i) = bitAt rest i := by
  have hd : (64 + i) / 64 = i / 64 + 1 := by omega
  have hm : (64 + i) % 64 = i % 64 := by omega
  simp only [bitAt, hd, hm, List.getD_cons_succ]

theorem scanWords_first (b : Bool) (words : List (BitVec 64)) :
    First b (bitAt words) 0 (64 * words.length) (scanWords b words) := by
  induction words with
  | nil => exact ⟨Nat.le_refl _, Nat.le_refl _, fun i _ hi => absurd hi (Nat.not_lt_zero i), fun h => absurd h (Nat.not_lt_zero _)⟩
  | cons w rest ih =>
      have hw := scanWord_first b w
      have hle := hw.le
      rw [scanWords, List.length_cons]
      by_cases hc : scanWord b w ≠ 64
      · rw [if_pos hc]
        refine ⟨Nat.zero_le _, by omega, ?_, ?_⟩
        · intro i hi hlt
          rw [bitAt_cons_lt w rest (by omega)]
          exact hw.skipped i hi hlt
        · intro _
          rw [bitAt_cons_lt w rest (by omega)]
          exact hw.hit (by omega)
      · rw [if_neg hc]
        have hc' : scanWord b w = 64 := by omega
        have hr := ih.le
        rw [hc']
        refine ⟨Nat.zero_le _, by omega, ?_, ?_⟩
        · intro i _ hlt
          by_cases hi : i < 64
          · rw [bitAt_cons_lt w rest hi]
            exact hw.skipped i (Nat.zero_le _) (by omega)
          · obtain ⟨k, rfl⟩ := Nat.exists_eq_add_of_le (Nat.le_of_not_lt hi)
            rw [bitAt_cons_add]
            exact ih.skipped k (Nat.zero_le _) (by omega)
        · intro hlt
          rw [bitAt_cons_add]
          exact ih.hit (by omega)

theorem bitAt_bits (s : BitSet count) (i : Nat) : bitAt s.bits i = s.test i := by
  rw [test_eq]
  rfl

-- The first clear bit; a set whose bits below `count` are all set has it at `count` or later.
theorem countrOne_first (s : BitSet count) :
    First false s.test 0 (64 * ((count + 63) / 64)) s.countrOne := by
  have h := scanWords_first false s.bits
  rw [s.length_bits] at h
  exact ⟨h.ge, h.le, fun i hi hlt => by rw [← bitAt_bits]; exact h.skipped i hi hlt,
    fun hlt => by rw [← bitAt_bits]; exact h.hit hlt⟩

theorem countrZeroFrom_first (s : BitSet count) (offset : Nat) (ha : offset % 64 = 0)
    (hle : offset ≤ 64 * ((count + 63) / 64)) :
    First true s.test offset (64 * ((count + 63) / 64)) (s.countrZeroFrom offset) := by
  have h := scanWords_first true (s.bits.drop (offset / 64))
  have hlen : 64 * (s.bits.drop (offset / 64)).length + offset = 64 * ((count + 63) / 64) := by
    rw [List.length_drop, s.length_bits]
    omega
  have hbit (k : Nat) : bitAt (s.bits.drop (offset / 64)) k = s.test (k + offset) := by
    have hd : (k + offset) / 64 = offset / 64 + k / 64 := by omega
    have hm : (k + offset) % 64 = k % 64 := by omega
    rw [test_eq, bitAt, word, hd, hm, List.getD_eq_getElem?_getD, List.getElem?_drop,
      List.getD_eq_getElem?_getD]
  have hl := h.le
  rw [countrZeroFrom]
  refine ⟨by omega, by omega, ?_, ?_⟩
  · intro i hi hlt
    have hs := h.skipped (i - offset) (Nat.zero_le _) (by omega)
    rwa [hbit, Nat.sub_add_cancel hi] at hs
  · intro hlt
    have hh := h.hit (by omega)
    rwa [hbit] at hh

-- The first set bit from an offset on.
theorem countrZero_first (s : BitSet count) (offset : Nat)
    (hle : offset ≤ 64 * ((count + 63) / 64)) :
    First true s.test offset (64 * ((count + 63) / 64)) (s.countrZero offset) := by
  rw [countrZero]
  by_cases ha : offset % 64 ≠ 0
  · rw [if_pos ha]
    have hw := scanWord_first true (s.word (offset / 64) >>> (offset % 64))
    have hbit (k : Nat) (hk : k + offset % 64 < 64) :
        (s.word (offset / 64) >>> (offset % 64)).getLsbD k = s.test (k + offset) := by
      have hd : (k + offset) / 64 = offset / 64 := by omega
      have hm : (k + offset) % 64 = offset % 64 + k := by omega
      rw [BitVec.getLsbD_ushiftRight, test_eq, hd, hm]
    have hhigh (k : Nat) (hk : 64 ≤ k + offset % 64) :
        (s.word (offset / 64) >>> (offset % 64)).getLsbD k = false := by
      rw [BitVec.getLsbD_ushiftRight]
      exact BitVec.getLsbD_of_ge _ _ (by omega)
    by_cases hc : scanWord true (s.word (offset / 64) >>> (offset % 64)) ≠ 64
    · rw [if_pos hc]
      have hlt := hw.le
      have hhit := hw.hit (by omega)
      have hin : scanWord true (s.word (offset / 64) >>> (offset % 64)) + offset % 64 < 64 := by
        by_contra hn
        rw [hhigh _ (by omega)] at hhit
        cases hhit
      refine ⟨by omega, by omega, ?_, ?_⟩
      · intro i hi hlt
        have hs := hw.skipped (i - offset) (Nat.zero_le _) (by omega)
        rwa [hbit _ (by omega), Nat.sub_add_cancel hi] at hs
      · intro _
        rwa [hbit _ hin] at hhit
    · rw [if_neg hc]
      have hc' : scanWord true (s.word (offset / 64) >>> (offset % 64)) = 64 := by omega
      have h := s.countrZeroFrom_first ((offset + 63) / 64 * 64) (by omega) (by omega)
      refine ⟨by have := h.ge; omega, h.le, ?_, h.hit⟩
      intro i hi hlt
      by_cases hnext : (offset + 63) / 64 * 64 ≤ i
      · exact h.skipped i hnext hlt
      · have hs := hw.skipped (i - offset) (Nat.zero_le _) (by omega)
        rwa [hbit _ (by omega), Nat.sub_add_cancel hi] at hs
  · rw [if_neg ha]
    exact s.countrZeroFrom_first offset (by omega) hle

theorem le_countrZero (s : BitSet count) (offset : Nat) : offset ≤ s.countrZero offset := by
  rw [countrZero]
  split
  · split
    · omega
    · rw [countrZeroFrom]
      omega
  · rw [countrZeroFrom]
    omega

-- A mask of at most one word is full when exactly the bits below its count are set.
theorem full_iff (s : BitSet count) (hpos : 0 < count) (hle : count ≤ 64)
    (hhigh : ∀ i, s.test i = true → i < count) :
    s.full = true ↔ ∀ i, i < count → s.test i = true := by
  have htest (i : Nat) (hi : i < 64) : s.test i = (s.word 0).getLsbD i := by
    rw [test_eq, Nat.div_eq_of_lt hi, Nat.mod_eq_of_lt hi]
  obtain ⟨w, hw⟩ : ∃ w, s.bits = [w] := by
    rw [← List.length_eq_one_iff, s.length_bits]
    omega
  have hword : s.word 0 = w := by rw [word, hw]; rfl
  have hones (i : Nat) (hi : i < 64) (hlt : count < 64) :
      ((1#64 <<< count) - 1#64).getLsbD i = decide (i < count) := by
    have hmask : (1#64 <<< count) - 1#64 = BitVec.ofNat 64 (2 ^ count - 1) := by
      apply BitVec.eq_of_toNat_eq
      have hp : 2 ^ count < 2 ^ 64 := Nat.pow_lt_pow_right (by omega) hlt
      have hq : 0 < 2 ^ count := Nat.two_pow_pos count
      simp only [BitVec.toNat_sub, BitVec.toNat_shiftLeft, BitVec.toNat_ofNat, Nat.shiftLeft_eq]
      omega
    rw [hmask, BitVec.getLsbD_ofNat, Nat.testBit_two_pow_sub_one]
    simp [hi]
  rw [full]
  by_cases hc : count < 64
  · rw [if_pos hc, beq_iff_eq]
    constructor
    · intro he i hi
      rw [htest i (by omega), he, hones i (by omega) hc, decide_eq_true hi]
    · intro hall
      apply BitVec.eq_of_getLsbD_eq
      intro i hi
      rw [hones i hi hc]
      by_cases hic : i < count
      · rw [decide_eq_true hic, ← htest i hi]
        exact hall i hic
      · rw [decide_eq_false hic, ← htest i hi]
        by_contra hn
        exact hic (hhigh i (by simpa using hn))
  · rw [if_neg hc, hw]
    simp only [List.all_cons, List.all_nil, Bool.and_true, beq_iff_eq]
    constructor
    · intro he i hi
      rw [htest i (by omega), hword, he]
      simp only [BitVec.getLsbD_not, BitVec.getLsbD_zero]
      simp
      omega
    · intro hall
      apply BitVec.eq_of_getLsbD_eq
      intro i hi
      rw [← hword, ← htest i hi, hall i (by omega), BitVec.getLsbD_not, BitVec.getLsbD_zero,
        decide_eq_true hi]
      rfl

theorem all_words_iff (b : Bool) {pattern : BitVec 64}
    (hp : ∀ i, i < 64 → pattern.getLsbD i = b) (words : List (BitVec 64)) :
    words.all (· == pattern) = true ↔ ∀ i, i < 64 * words.length → bitAt words i = b := by
  induction words with
  | nil => simp
  | cons w rest ih =>
      rw [List.all_cons, Bool.and_eq_true, beq_iff_eq, ih, List.length_cons]
      constructor
      · rintro ⟨rfl, hrest⟩ i hi
        by_cases hlt : i < 64
        · rw [bitAt_cons_lt w rest hlt]
          exact hp i hlt
        · obtain ⟨k, rfl⟩ := Nat.exists_eq_add_of_le (Nat.le_of_not_lt hlt)
          rw [bitAt_cons_add]
          exact hrest k (by omega)
      · intro hall
        refine ⟨BitVec.eq_of_getLsbD_eq fun i hi => ?_, fun i hi => ?_⟩
        · rw [hp i hi, ← bitAt_cons_lt w rest hi]
          exact hall i (by omega)
        · rw [← bitAt_cons_add w rest i]
          exact hall (64 + i) (by omega)

theorem words_iff (s : BitSet count) (b : Bool) {pattern : BitVec 64}
    (hp : ∀ i, i < 64 → pattern.getLsbD i = b) :
    s.bits.all (· == pattern) = true ↔
      ∀ i, i < 64 * ((count + 63) / 64) → s.test i = b := by
  rw [all_words_iff b hp, s.length_bits]
  simp only [bitAt_bits]

-- The sets that `set` and `clear` of indices below `count` lead to.
inductive Built : BitSet count → Prop where
  | empty : Built empty
  | set {s : BitSet count} {index : Nat} : Built s → index < count → Built (s.set index)
  | clear {s : BitSet count} {index : Nat} : Built s → index < count → Built (s.clear index)

theorem Built.lt_count {s : BitSet count} (h : Built s) :
    ∀ i, s.test i = true → i < count := by
  induction h with
  | empty =>
      intro i hi
      rw [test_empty] at hi
      cases hi
  | set _ hlt ih =>
      intro i hi
      rw [test_set _ hlt, Bool.or_eq_true, decide_eq_true_iff] at hi
      rcases hi with rfl | hi
      · exact hlt
      · exact ih i hi
  | clear _ hlt ih =>
      intro i hi
      rw [test_clear _ hlt, Bool.and_eq_true] at hi
      exact ih i hi.2

-- A last word that is only in part used never has all its bits set.
theorem full_iff_of_lt_count (s : BitSet count) (hhigh : ∀ i, s.test i = true → i < count) :
    s.full = true ↔ (count < 64 ∨ 64 ∣ count) ∧ ∀ i, i < count → s.test i = true := by
  by_cases hc : count < 64
  · by_cases hpos : 0 < count
    · rw [s.full_iff hpos (by omega) hhigh]
      exact ⟨fun hall => ⟨Or.inl hc, hall⟩, fun h => h.2⟩
    · obtain rfl : count = 0 := by omega
      have hbits : s.bits = [] := List.length_eq_zero_iff.mp s.length_bits
      rw [full, if_pos hc, word, hbits]
      exact iff_of_true rfl ⟨Or.inl hc, fun i hi => absurd hi (Nat.not_lt_zero i)⟩
  · have hones (i : Nat) (hi : i < 64) : (~~~0#64).getLsbD i = true := by
      rw [BitVec.getLsbD_not, BitVec.getLsbD_zero, decide_eq_true hi]
      rfl
    rw [full, if_neg hc, s.words_iff true hones]
    constructor
    · intro hall
      have hdvd : 64 ∣ count := by
        by_contra hn
        have hlt := hhigh count (hall count (by omega))
        omega
      exact ⟨Or.inr hdvd, fun i hi => hall i (by omega)⟩
    · rintro ⟨hwhole, hall⟩ i hi
      exact hall i (by omega)

theorem isEmpty_iff_of_lt_count (s : BitSet count) (hhigh : ∀ i, s.test i = true → i < count) :
    s.isEmpty = true ↔ ∀ i, i < count → s.test i = false := by
  rw [isEmpty, s.words_iff false fun i _ => BitVec.getLsbD_zero]
  constructor
  · intro hall i hi
    exact hall i (by omega)
  · intro hall i _
    by_contra hn
    rw [Bool.not_eq_false] at hn
    rw [hall i (hhigh i hn)] at hn
    cases hn

-- `r` is the least place from `lo` on where `p` is `b`, or at least `size` where there is none
-- below `size`.
def Least (b : Bool) (p : Nat → Bool) (lo size r : Nat) : Prop :=
  (r < size ∧ lo ≤ r ∧ p r = b ∧ ∀ i, lo ≤ i → i < r → p i = !b) ∨
    (size ≤ r ∧ ∀ i, lo ≤ i → i < size → p i = !b)

theorem First.least {b : Bool} {p : Nat → Bool} {lo hi r : Nat} (h : First b p lo hi r)
    {size : Nat} (hle : size ≤ hi) : Least b p lo size r := by
  by_cases hlt : r < size
  · exact Or.inl ⟨hlt, h.ge, h.hit (by omega), h.skipped⟩
  · exact Or.inr ⟨by omega, fun i hi' hs => h.skipped i hi' (by omega)⟩

-- `for (auto index : set)` from the iterator at `offset` on
def items (s : BitSet count) (offset : Nat) : List Nat :=
  if offset < count then offset :: s.items (s.countrZero (offset + 1)) else []
termination_by count - offset
decreasing_by
  have := s.le_countrZero (offset + 1)
  omega

theorem items_eq (s : BitSet count) (offset : Nat) (hhit : offset < count → s.test offset = true) :
    s.items offset = (List.range' offset (count - offset)).filter s.test := by
  induction hn : count - offset using Nat.strong_induction_on generalizing offset with
  | h n ih =>
      rw [items]
      by_cases hlt : offset < count
      · have hfirst := s.countrZero_first (offset + 1) (by omega)
        have hge := hfirst.ge
        rw [if_pos hlt, ih _ (by omega) (s.countrZero (offset + 1)) (fun h => hfirst.hit (by omega))
          rfl, ← hfirst.filter_range', ← hn, show count - offset = count - (offset + 1) + 1 by omega,
          List.range'_succ, List.filter_cons_of_pos (hhit hlt)]
      · rw [if_neg hlt, ← hn, show count - offset = 0 by omega]
        rfl

theorem items_begin (s : BitSet count) :
    s.items (s.countrZero 0) = (List.range count).filter s.test := by
  have hfirst := s.countrZero_first 0 (Nat.zero_le _)
  rw [items_eq s _ fun h => hfirst.hit (by omega), ← hfirst.filter_range', List.range_eq_range',
    Nat.sub_zero]

-- What the observers of a set say, compared with its bits below `count`.
structure Observed (s : BitSet count) : Prop where
  full : s.full = true ↔ ∀ i, i < count → s.test i = true
  empty : s.isEmpty = true ↔ ∀ i, i < count → s.test i = false
  countrOne : Least false s.test 0 count s.countrOne
  countrZero : ∀ offset, offset ≤ count → Least true s.test offset count (s.countrZero offset)
  iteration : s.items (s.countrZero 0) = (List.range count).filter s.test

-- More than one word with an unused part: then `full` is false also of the full set.
theorem observed_iff {s : BitSet count} (h : Built s) :
    Observed s ↔ count < 64 ∨ 64 ∣ count ∨ ∃ i, i < count ∧ s.test i = false := by
  have hfull := s.full_iff_of_lt_count h.lt_count
  constructor
  · intro hobs
    by_cases hall : ∀ i, i < count → s.test i = true
    · rcases (hfull.mp (hobs.full.mpr hall)).1 with hc | hd
      · exact Or.inl hc
      · exact Or.inr (Or.inl hd)
    · push Not at hall
      obtain ⟨i, hi, hn⟩ := hall
      exact Or.inr (Or.inr ⟨i, hi, Bool.eq_false_of_not_eq_true hn⟩)
  · intro hcond
    have hle : count ≤ 64 * ((count + 63) / 64) := by omega
    refine ⟨?_, s.isEmpty_iff_of_lt_count h.lt_count, s.countrOne_first.least hle,
      fun offset ho => (s.countrZero_first offset (by omega)).least hle, s.items_begin⟩
    rw [hfull]
    refine ⟨fun hf => hf.2, fun hall => ⟨?_, hall⟩⟩
    rcases hcond with hc | hd | ⟨i, hi, hn⟩
    · exact Or.inl hc
    · exact Or.inr hd
    · rw [hall i hi] at hn
      cases hn

theorem Built.setAll {s : BitSet count} (h : Built s) (indices : List Nat)
    (hlt : ∀ i ∈ indices, i < count) : Built (indices.foldl BitSet.set s) := by
  induction indices generalizing s with
  | nil => exact h
  | cons i rest ih =>
      exact ih (h.set (hlt i (List.mem_cons_self ..))) fun j hj =>
        hlt j (List.mem_cons_of_mem _ hj)

-- All of 65 bits: the second word is one bit, and `full` compares it with a word of ones.
theorem full_misses_last_word : ¬∀ (count : Nat) (s : BitSet count), Built s → Observed s := by
  intro hall
  have hbuilt : Built ((List.range 65).foldl set (empty : BitSet 65)) :=
    Built.empty.setAll _ fun i hi => List.mem_range.mp hi
  have hset : ∀ i, i < 65 → ((List.range 65).foldl set (empty : BitSet 65)).test i = true := by
    decide +kernel
  have hfull := (hall 65 _ hbuilt).full.mpr hset
  rw [full_iff_of_lt_count _ hbuilt.lt_count] at hfull
  omega

theorem observed_iff_pair : Observed ((empty : BitSet 2).set 1) :=
  (observed_iff (.set .empty (by omega))).mpr (Or.inl (by omega))

end BitSet

end Rpcsx
