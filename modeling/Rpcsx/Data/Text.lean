import Mathlib.Data.List.DropRight
import Rpcsx.Data.Bytes

namespace Rpcsx.Data

-- Kotlin strings, as lists of characters.
abbrev Text := List Char

namespace Text

-- Char.isWhitespace of the Kotlin standard library.
def isWhitespace (c : Char) : Bool :=
  let code := c.toNat
  (9 ≤ code && code ≤ 13) || (28 ≤ code && code ≤ 32) || code == 0xa0 || code == 0x1680 ||
    (0x2000 ≤ code && code ≤ 0x200a) || code == 0x2028 || code == 0x2029 || code == 0x202f ||
    code == 0x205f || code == 0x3000

def isBlank (text : Text) : Bool := text.all isWhitespace

def trimStart (p : Char → Bool) (text : Text) : Text := text.dropWhile p

def trimEnd (p : Char → Bool) (text : Text) : Text := text.rdropWhile p

def trim (p : Char → Bool) (text : Text) : Text := trimEnd p (trimStart p text)

-- Line ends: a carriage return, with or without a line feed behind it, is one too.
def normalizeNewlines : Text → Text
  | [] => []
  | '\r' :: '\n' :: rest => '\n' :: normalizeNewlines rest
  | '\r' :: rest => '\n' :: normalizeNewlines rest
  | c :: rest => c :: normalizeNewlines rest

def lines (text : Text) : List Text := (normalizeNewlines text).splitOn '\n'

abbrev OneLine (line : Text) : Prop := ∀ c ∈ line, c ≠ '\n' ∧ c ≠ '\r'

theorem oneLine_of_all {line : Text} (h : line.all (fun c => c ≠ '\n' ∧ c ≠ '\r') = true) :
    OneLine line := fun c hc => by simpa using List.all_eq_true.mp h c hc

theorem normalizeNewlines_line {line : Text} (hline : OneLine line) (rest : Text) :
    normalizeNewlines (line ++ rest) = line ++ normalizeNewlines rest := by
  induction line with
  | nil => rfl
  | cons c line ih =>
      have hc := (hline c List.mem_cons_self).2
      rw [List.cons_append, normalizeNewlines,
        ih fun c hc => hline c (List.mem_cons_of_mem _ hc), List.cons_append]
      · rintro _ rfl
        exact absurd rfl hc
      · rintro rfl
        exact absurd rfl hc

theorem normalizeNewlines_newline (rest : Text) :
    normalizeNewlines ('\n' :: rest) = '\n' :: normalizeNewlines rest := by
  rw [normalizeNewlines] <;> nofun

-- A line without line ends, in front.
theorem lines_append {line : Text} (hline : OneLine line) (rest : Text) :
    lines (line ++ '\n' :: rest) = line :: lines rest := by
  have hnot : '\n' ∉ line := fun h => (hline _ h).1 rfl
  rw [lines, normalizeNewlines_line hline, normalizeNewlines_newline,
    List.splitOn_append_cons_self_of_not_mem hnot, lines]

theorem lines_self {line : Text} (hline : OneLine line) : lines line = [line] := by
  have hnorm : normalizeNewlines line = line := by
    have h := normalizeNewlines_line hline []
    rwa [List.append_nil, show normalizeNewlines [] = [] from rfl, List.append_nil] at h
  rw [lines, hnorm, List.splitOn_eq_singleton fun h => (hline _ h).1 rfl]

-- Lines with a line feed behind each.
def appendLines : List Text → Text
  | [] => []
  | line :: rest => line ++ '\n' :: appendLines rest

theorem appendLines_append (front rest : List Text) :
    appendLines (front ++ rest) = appendLines front ++ appendLines rest := by
  induction front with
  | nil => rfl
  | cons line front ih => simp [appendLines, ih]

theorem lines_appendLines {front : List Text} (h : ∀ line ∈ front, OneLine line) (last : Text) :
    lines (appendLines front ++ last) = front ++ lines last := by
  induction front with
  | nil => rfl
  | cons line front ih =>
      obtain ⟨hline, hrest⟩ := List.forall_mem_cons.mp h
      rw [appendLines, List.append_assoc, List.cons_append, lines_append hline, ih hrest,
        List.cons_append]

-- split of a text at each occurrence of a separator, from the left.
def splitFrom (separator : Text) (part : Text) : Text → List Text
  | [] => [part]
  | c :: rest =>
      if separator ≠ [] ∧ separator <+: c :: rest then
        part :: splitFrom separator [] ((c :: rest).drop separator.length)
      else splitFrom separator (part ++ [c]) rest
termination_by text => text.length
decreasing_by
  · have := List.length_pos_of_ne_nil (by tauto : separator ≠ [])
    simp only [List.length_drop, List.length_cons]
    omega
  · simp

def split (separator text : Text) : List Text := splitFrom separator [] text

-- Pieces of the given size, the last one may be shorter.
def chunked (size : Nat) (text : Text) : List Text :=
  if size = 0 ∨ text = [] then [] else text.take size :: chunked size (text.drop size)
termination_by text.length
decreasing_by
  have := List.length_pos_of_ne_nil (by tauto : text ≠ [])
  simp only [List.length_drop]
  omega

theorem chunked_spec {size : Nat} (hs : size ≠ 0) (count : Nat) {text : Text}
    (h : text.length = count * size) :
    (chunked size text).length = count ∧
      ∀ chunk ∈ chunked size text, chunk.length = size ∧ ∀ c ∈ chunk, c ∈ text := by
  induction count generalizing text with
  | zero =>
      have hnil : text = [] := List.length_eq_zero_iff.mp (by omega)
      rw [chunked, if_pos (Or.inr hnil)]
      simp
  | succ count ih =>
      rw [Nat.succ_mul] at h
      have hne : text ≠ [] := List.ne_nil_of_length_pos (by omega)
      obtain ⟨hlen, hmem⟩ := ih (show (text.drop size).length = _ by rw [List.length_drop]; omega)
      rw [chunked, if_neg (by tauto), List.length_cons, hlen]
      refine ⟨rfl, List.forall_mem_cons.mpr ⟨⟨?_, fun c hc => List.mem_of_mem_take hc⟩, ?_⟩⟩
      · rw [List.length_take]
        omega
      · intro chunk hchunk
        obtain ⟨hl, hc⟩ := hmem chunk hchunk
        exact ⟨hl, fun c h => List.mem_of_mem_drop (hc c h)⟩

def substringBefore (delimiter : Char) (text : Text) : Text := text.takeWhile (· ≠ delimiter)

-- The text behind the first delimiter, or nothing.
def substringAfter (delimiter : Char) (text : Text) : Text := (text.dropWhile (· ≠ delimiter)).drop 1

theorem substringBefore_append {delimiter : Char} {front : Text} (h : delimiter ∉ front)
    (rest : Text) : substringBefore delimiter (front ++ delimiter :: rest) = front := by
  have hne : ∀ c ∈ front, decide (c ≠ delimiter) = true := by
    intro c hc
    simp only [ne_eq, decide_eq_true_eq]
    rintro rfl
    exact h hc
  rw [substringBefore, List.takeWhile_append_of_pos hne]
  simp

theorem substringAfter_append {delimiter : Char} {front : Text} (h : delimiter ∉ front)
    (rest : Text) : substringAfter delimiter (front ++ delimiter :: rest) = rest := by
  have hne : ∀ c ∈ front, decide (c ≠ delimiter) = true := by
    intro c hc
    simp only [ne_eq, decide_eq_true_eq]
    rintro rfl
    exact h hc
  rw [substringAfter, List.dropWhile_append_of_pos hne]
  simp

theorem substringBefore_self {delimiter : Char} {text : Text} (h : delimiter ∉ text) :
    substringBefore delimiter text = text := by
  rw [substringBefore, List.takeWhile_eq_self_iff]
  intro c hc
  simp only [ne_eq, decide_eq_true_eq]
  rintro rfl
  exact h hc

theorem substringAfter_none {delimiter : Char} {text : Text} (h : delimiter ∉ text) :
    substringAfter delimiter text = [] := by
  have hnil : text.dropWhile (· ≠ delimiter) = [] := by
    rw [List.dropWhile_eq_nil_iff]
    intro c hc
    simp only [ne_eq, decide_eq_true_eq]
    rintro rfl
    exact h hc
  rw [substringAfter, hnil]
  rfl

theorem not_mem_substringBefore (delimiter : Char) (text : Text) :
    delimiter ∉ substringBefore delimiter text := by
  intro h
  have hne := List.mem_takeWhile_imp h
  simp at hne

-- A text is its part in front of the delimiter, and the delimiter and its part behind it.
theorem substring_split (delimiter : Char) (text : Text) :
    text = substringBefore delimiter text ∧ substringAfter delimiter text = [] ∨
      text = substringBefore delimiter text ++ delimiter :: substringAfter delimiter text := by
  by_cases h : delimiter ∈ text
  · obtain ⟨front, rest, rfl, hfront⟩ := List.eq_append_cons_of_mem h
    right
    rw [substringBefore_append hfront, substringAfter_append hfront]
  · exact .inl ⟨(substringBefore_self h).symm, substringAfter_none h⟩

-- Only ASCII letters have a case here.
def equalsIgnoreCase (left right : Text) : Bool := left.map Char.toLower = right.map Char.toLower

-- Charsets.US_ASCII replaces every byte that is no character of it.
def decodeAscii (bytes : List Byte) : Text :=
  bytes.map fun b => if b.val < 128 then Char.ofNat b.val else '\ufffd'

end Text

end Rpcsx.Data

namespace Rpcsx.Data.Utf8

open Bytes

-- The ranges of the bytes that may follow a lead byte; none when it leads nothing.
def tailRanges (lead : Nat) : List (Nat × Nat) :=
  let tail := (0x80, 0xbf)
  if 0xc2 ≤ lead ∧ lead ≤ 0xdf then [tail]
  else if lead = 0xe0 then [(0xa0, 0xbf), tail]
  else if lead = 0xed then [(0x80, 0x9f), tail]
  else if 0xe1 ≤ lead ∧ lead ≤ 0xef then [tail, tail]
  else if lead = 0xf0 then [(0x90, 0xbf), tail, tail]
  else if 0xf1 ≤ lead ∧ lead ≤ 0xf3 then [tail, tail, tail]
  else if lead = 0xf4 then [(0x80, 0x8f), tail, tail]
  else []

-- The bytes in front that lie in the ranges, one after the other.
def matchTail : List (Nat × Nat) → List Byte → List Byte
  | [], _ => []
  | _ :: _, [] => []
  | (low, high) :: ranges, b :: rest =>
      if low ≤ b.val ∧ b.val ≤ high then b :: matchTail ranges rest else []

def codePoint (lead : Nat) (tail : List Byte) : Nat :=
  let bits := if tail.length = 1 then lead % 0x20 else if tail.length = 2 then lead % 0x10
    else lead % 0x08
  tail.foldl (fun value b => value * 0x40 + b.val % 0x40) bits

theorem length_matchTail_le (ranges : List (Nat × Nat)) (bytes : List Byte) :
    (matchTail ranges bytes).length ≤ bytes.length := by
  induction ranges generalizing bytes with
  | nil => exact Nat.zero_le _
  | cons range ranges ih =>
      cases bytes with
      | nil => exact Nat.le_refl _
      | cons b rest =>
          rw [matchTail]
          split
          · simpa using ih rest
          · exact Nat.zero_le _

-- What is not well formed becomes a replacement character, up to the byte that breaks it.
def decode : List Byte → Text
  | [] => []
  | lead :: rest =>
      if lead.val < 0x80 then Char.ofNat lead.val :: decode rest
      else
        let ranges := tailRanges lead.val
        let tail := matchTail ranges rest
        if ranges ≠ [] ∧ tail.length = ranges.length then
          Char.ofNat (codePoint lead.val tail) :: decode (rest.drop tail.length)
        else '\ufffd' :: decode (rest.drop tail.length)
termination_by bytes => bytes.length
decreasing_by
  · simp
  all_goals
    simp only [List.length_drop, List.length_cons]
    omega

theorem tailRanges_low (lead : Nat) : ∀ range ∈ tailRanges lead, 0x80 ≤ range.1 := by
  unfold tailRanges
  dsimp only
  repeat' split
  all_goals decide

-- An ASCII byte ends what comes before it.
theorem matchTail_append_ascii {ranges : List (Nat × Nat)} (hlow : ∀ range ∈ ranges, 0x80 ≤ range.1)
    (bytes rest : List Byte) {b : Byte} (hb : b.val < 0x80) :
    matchTail ranges (bytes ++ b :: rest) = matchTail ranges bytes := by
  induction ranges generalizing bytes with
  | nil => rfl
  | cons range ranges ih =>
      obtain ⟨low, high⟩ := range
      cases bytes with
      | nil =>
          have hle : 0x80 ≤ low := hlow (low, high) List.mem_cons_self
          have hnone : matchTail ((low, high) :: ranges) (b :: rest) = [] := by
            rw [matchTail, if_neg (by omega)]
          rw [List.nil_append, hnone, matchTail]
      | cons first bytes =>
          rw [List.cons_append, matchTail, matchTail,
            ih (fun range hrange => hlow range (List.mem_cons_of_mem _ hrange))]

theorem decode_append_ascii (bytes rest : List Byte) {b : Byte} (hb : b.val < 0x80) :
    decode (bytes ++ b :: rest) = decode bytes ++ Char.ofNat b.val :: decode rest := by
  fun_induction decode bytes with
  | case1 => rw [List.nil_append, List.nil_append, decode, if_pos hb]
  | case2 lead bytes hlead ih => rw [List.cons_append, decode, if_pos hlead, ih, List.cons_append]
  | case3 lead bytes hlead ranges tail hcomplete ih =>
      have htail : matchTail (tailRanges lead.val) (bytes ++ b :: rest) = tail :=
        matchTail_append_ascii (tailRanges_low _) bytes rest hb
      have hle : tail.length ≤ bytes.length := length_matchTail_le _ _
      rw [List.cons_append, decode, if_neg hlead]
      dsimp only
      rw [htail, if_pos hcomplete, List.drop_append_of_le_length hle, ih, List.cons_append]
  | case4 lead bytes hlead ranges tail hbroken ih =>
      have htail : matchTail (tailRanges lead.val) (bytes ++ b :: rest) = tail :=
        matchTail_append_ascii (tailRanges_low _) bytes rest hb
      have hle : tail.length ≤ bytes.length := length_matchTail_le _ _
      rw [List.cons_append, decode, if_neg hlead]
      dsimp only
      rw [htail, if_neg hbroken, List.drop_append_of_le_length hle, ih, List.cons_append]

theorem decode_append_of_ascii (bytes : List Byte) {tail : List Byte}
    (htail : ∀ b ∈ tail, b.val < 0x80) :
    decode (bytes ++ tail) = decode bytes ++ tail.map fun b => Char.ofNat b.val := by
  induction tail generalizing bytes with
  | nil => simp
  | cons b tail ih =>
      have hrest := ih [] fun b hb => htail b (List.mem_cons_of_mem _ hb)
      rw [List.nil_append, decode, List.nil_append] at hrest
      rw [decode_append_ascii bytes tail (htail b List.mem_cons_self), hrest, List.map_cons]

end Rpcsx.Data.Utf8
