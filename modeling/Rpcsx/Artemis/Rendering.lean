import Rpcsx.Artemis.Stores
import Rpcsx.Artemis.Limit

namespace Rpcsx.Artemis

open Data Data.Hex Data.Text

-- The code lines of an NCL file that the converter can take: a write on one line, or a
-- repeated one on two.
inductive NclCode where
  | fixedWrite (line : Text)
  | serialWrite (line next : Text)

namespace NclCode

def lines : NclCode → List Text
  | .fixedWrite line => [line]
  | .serialWrite line next => [line, next]

def code : NclCode → CodeLine
  | .fixedWrite line =>
      match fixedWriteRegex (trim isWhitespace line) with
      | some (address, value) => .fixedWrite address value
      | none => .noCode
  | .serialWrite line next =>
      match serialWriteRegex (trim isWhitespace line), serialWriteRegex (trim isWhitespace next) with
      | some (address, value), some (addressStep, count) =>
          .serialWrite address value addressStep count
      | _, _ => .noCode

end NclCode

-- How many writes a value needs at an address.
def writesAt (address : Nat) (value : Text) : Nat :=
  value.length / 2 / chunkBytes (value.length / 2) address

namespace CodeLine

def Valid : CodeLine → Prop
  | .fixedWrite _ value => value.length % 2 = 0
  | .serialWrite _ value _ count =>
      value.length % 2 = 0 ∧ 1 ≤ hexValue count ∧ hexValue count ≤ maxStaticOpsPerCheat
  | _ => False

def size : CodeLine → Nat
  | .fixedWrite address value => writesAt (hexValue address) value
  | .serialWrite address value addressStep count =>
      ((List.range' 0 (hexValue count)).map fun index =>
        writesAt (hexValue address + hexValue addressStep * index) value).sum
  | _ => 0

end CodeLine

structure NclCheat where
  name : Text
  flag : Text
  author : Text
  codes : List NclCode

namespace NclCheat

def lines (cheat : NclCheat) : List Text :=
  cheat.name :: cheat.flag :: cheat.author :: cheat.codes.flatMap NclCode.lines

structure Valid (cheat : NclCheat) : Prop where
  name_line : OneLine cheat.name
  name_text : isBlank cheat.name = false
  name_hash : (trim isWhitespace cheat.name).head? ≠ some '#'
  flag : cheat.flag = "0".toList ∨ cheat.flag = "1".toList
  author_line : OneLine cheat.author
  author_text : isBlank cheat.author = false
  author_hash : cheat.author.head? ≠ some '#' ∧ trim isWhitespace cheat.author ≠ "#".toList
  author_code : looksLikeCodeLine cheat.author = false
  codes_some : cheat.codes ≠ []
  codes_line : ∀ code ∈ cheat.codes, ∀ line ∈ code.lines, OneLine line
  codes_valid : ∀ code ∈ cheat.codes, code.code.Valid
  limit : (cheat.codes.map fun code => code.code.size).sum ≤ maxStaticOpsPerCheat

-- The cheat that the lines stand for.
def cheat (cheat : NclCheat) : ArtemisCheat where
  name := trim isWhitespace cheat.name
  author := trim isWhitespace cheat.author
  writes := cheat.codes.flatMap fun code => code.code.writes.getD []
  aobPatches := []
  unsupportedReasons := []

end NclCheat

def nclLines (cheats : List NclCheat) : List Text :=
  cheats.flatMap fun cheat => cheat.lines ++ ["#".toList]

-- The text with a line end behind each line.
def render (lineEnd : Text) (cheats : List NclCheat) : Text :=
  (nclLines cheats).flatMap fun line => line ++ lineEnd

-- Valid code lines are converted

theorem writesAt_mul (address : Nat) (value : Text) :
    writesAt address value * chunkBytes (value.length / 2) address = value.length / 2 :=
  Nat.div_mul_cancel (Nat.dvd_of_mod_eq_zero (chunkBytes_spec _ _).2.1)

theorem writesAt_pos (address : Nat) {value : Text} (hne : value ≠ []) (heven : value.length % 2 = 0) :
    0 < writesAt address value := by
  have hlen : 0 < value.length := List.length_pos_of_ne_nil hne
  have hmul := writesAt_mul address value
  rcases Nat.eq_zero_or_pos (writesAt address value) with hzero | hpos
  · rw [hzero, Nat.zero_mul] at hmul
    omega
  · exact hpos

theorem staticWrites_some {address value : Text} {start : Nat}
    (ha : toLongOrNull (uppercase address) = some start) (heven : value.length % 2 = 0)
    (hlimit : writesAt start value ≤ maxStaticOpsPerCheat) :
    ∃ writes, staticWritesForValue address value = some writes ∧
      writes.length = writesAt start value := by
  have hlen : (uppercase value).length = value.length := List.length_map _
  have hsize : chunkBytes (value.length / 2) start ≠ 0 := by
    have hmem := (chunkBytes_spec (value.length / 2) start).1
    intro hzero
    rw [hzero] at hmem
    simp at hmem
  have hchunks : (chunked (chunkBytes (value.length / 2) start * 2) (uppercase value)).length =
      writesAt start value := by
    refine (chunked_spec (Nat.mul_ne_zero hsize (by decide)) _ ?_).1
    rw [hlen, ← Nat.mul_assoc, writesAt_mul]
    omega
  refine ⟨(chunked (chunkBytes (value.length / 2) start * 2) (uppercase value)).mapIdx
    (chunkWrite (chunkBytes (value.length / 2) start) start), ?_, ?_⟩
  · rw [staticWritesForValue]
    simp only [hlen, ha]
    rw [if_neg (by omega), if_neg (by omega)]
    rfl
  · rw [List.length_mapIdx, hchunks]

theorem repeatWrites_some (startAddress step : Nat) {value : Text}
    (heven : value.length % 2 = 0) (count index : Nat) (writes : List ArtemisWrite)
    (hlimit : writes.length + ((List.range' index count).map fun i =>
      writesAt (startAddress + step * i) value).sum ≤ maxStaticOpsPerCheat)
    (hrange : startAddress + step * (index + count) < 2 ^ 63) :
    ∃ result, repeatWrites startAddress step value count index writes = some result ∧
      result.length = writes.length + ((List.range' index count).map fun i =>
        writesAt (startAddress + step * i) value).sum := by
  induction count generalizing index writes with
  | zero => exact ⟨writes, rfl, rfl⟩
  | succ count ih =>
      rw [List.range'_succ, List.map_cons, List.sum_cons] at hlimit ⊢
      have hle : step * index ≤ step * (index + (count + 1)) := Nat.mul_le_mul_left _ (by omega)
      have haddress : startAddress + step * index < 2 ^ 63 := by omega
      obtain ⟨parsedWrites, hparsed, hlength⟩ :=
        staticWrites_some (toLongOrNull_addressText haddress) heven (by omega)
      obtain ⟨result, hresult, hresultLength⟩ := ih (index + 1) (writes ++ parsedWrites)
        (by rw [List.length_append, hlength]; omega)
        (by rwa [Nat.add_assoc, Nat.add_comm 1])
      refine ⟨result, ?_, by rw [hresultLength, List.length_append, hlength]; omega⟩
      rw [repeatWrites, hparsed]
      simp only
      rw [if_neg (by rw [List.length_append, hlength]; omega), hresult]

theorem toNumberOrNull_some {bits : Nat} {text : Text} (hne : text ≠ [])
    (hhex : ∀ c ∈ text, isHexDigit c = true) (hlt : hexValue text < 2 ^ bits) :
    toNumberOrNull bits text = some (hexValue text) := by
  rw [toNumberOrNull, if_pos ⟨hne, List.all_eq_true.mpr hhex, hlt⟩]

theorem word_lt {text : Text} (hl : text.length = 8) (hhex : ∀ c ∈ text, isHexDigit c = true) :
    hexValue text < 2 ^ 32 := by
  have hlt := hexValue_lt hhex
  rw [hl] at hlt
  exact hlt

theorem toLongOrNull_word {text : Text} (hl : text.length = 8)
    (hhex : ∀ c ∈ text, isHexDigit c = true) : toLongOrNull text = some (hexValue text) :=
  toNumberOrNull_some (List.ne_nil_of_length_pos (by omega)) hhex
    (Nat.lt_trans (word_lt hl hhex) (by decide))

theorem valid_writes {code : CodeLine} (hg : code.GroupsOk) (hv : code.Valid)
    (hlimit : code.size ≤ maxStaticOpsPerCheat) :
    ∃ writes, code.writes = some writes ∧ writes.length = code.size ∧ 0 < code.size := by
  cases code with
  | fixedWrite address value =>
      obtain ⟨hal, hah, hne, hvh⟩ := hg
      have hupper : toLongOrNull (uppercase address) = some (hexValue address) := by
        rw [← hexValue_toUpper hah]
        exact toLongOrNull_word (by rw [uppercase, List.length_map, hal]) (isHexDigit_toUpper hah)
      obtain ⟨writes, hwrites, hlength⟩ := staticWrites_some hupper hv hlimit
      exact ⟨writes, hwrites, hlength, writesAt_pos _ hne hv⟩
  | serialWrite address value addressStep count =>
      obtain ⟨hal, hah, hne, hvh, hsl, hsh, hch⟩ := hg
      obtain ⟨heven, hone, hmax⟩ := hv
      have hcount : toIntOrNull count = some (hexValue count) := by
        refine toNumberOrNull_some ?_ hch (Nat.lt_of_le_of_lt hmax (by decide))
        rintro rfl
        exact absurd hone (by decide)
      have hstart := word_lt hal hah
      have hstep := word_lt hsl hsh
      have hproduct : hexValue addressStep * (0 + hexValue count) ≤ 2 ^ 32 * 4096 :=
        Nat.mul_le_mul hstep.le (by rw [Nat.zero_add]; exact hmax)
      obtain ⟨writes, hwrites, hlength⟩ := repeatWrites_some (hexValue address)
        (hexValue addressStep) heven (hexValue count) 0 [] (by
          rw [List.length_nil, Nat.zero_add]
          exact hlimit) (by omega)
      refine ⟨writes, ?_, ?_, ?_⟩
      · rw [CodeLine.writes, serialWrites_eq (toLongOrNull_word hal hah) (toLongOrNull_word hsl hsh)
          hcount (by omega) hmax, hwrites]
      · rw [hlength, List.length_nil, Nat.zero_add]
        rfl
      · obtain ⟨rest, hrest⟩ := Nat.exists_eq_succ_of_ne_zero (by omega : hexValue count ≠ 0)
        have hfirst := writesAt_pos (hexValue address + hexValue addressStep * 0) hne heven
        rw [CodeLine.size, hrest, List.range'_succ, List.map_cons, List.sum_cons]
        omega
  | comment => exact hv.elim
  | placeholder => exact hv.elim
  | serialIncomplete => exact hv.elim
  | aobReplace searchPattern replacePattern => exact hv.elim
  | aobUnsupported => exact hv.elim
  | unsupportedType token => exact hv.elim
  | noCode => exact hv.elim

-- The code lines of a cheat within the limit add their writes, and nothing else.
theorem run_valid {codes : List CodeLine} (hg : ∀ code ∈ codes, code.GroupsOk)
    (hv : ∀ code ∈ codes, code.Valid) (state : CodeState)
    (hlimit : state.writes.length + (codes.map CodeLine.size).sum ≤ maxStaticOpsPerCheat) :
    codes.foldl CodeState.step state = { state with
      writes := state.writes ++ codes.flatMap fun code => code.writes.getD [] } := by
  induction codes generalizing state with
  | nil => simp
  | cons code codes ih =>
      obtain ⟨hgc, hg⟩ := List.forall_mem_cons.mp hg
      obtain ⟨hvc, hv⟩ := List.forall_mem_cons.mp hv
      rw [List.map_cons, List.sum_cons] at hlimit
      obtain ⟨writes, hwrites, hlength, -⟩ := valid_writes hgc hvc (by omega)
      have hstep : state.step code = { state with writes := state.writes ++ writes } := by
        cases code with
        | fixedWrite address value =>
            rw [CodeLine.writes] at hwrites
            simp only [CodeState.step, hwrites]
            rw [if_neg (by omega)]
        | serialWrite address value addressStep count =>
            rw [CodeLine.writes] at hwrites
            simp only [CodeState.step, hwrites]
        | comment => exact hvc.elim
        | placeholder => exact hvc.elim
        | serialIncomplete => exact hvc.elim
        | aobReplace searchPattern replacePattern => exact hvc.elim
        | aobUnsupported => exact hvc.elim
        | unsupportedType token => exact hvc.elim
        | noCode => exact hvc.elim
      rw [List.foldl_cons, hstep, ih hg hv _ (by
        simp only [List.length_append, hlength]
        omega)]
      simp only [List.flatMap_cons, hwrites, Option.getD_some, List.append_assoc]

-- Reading the code lines back

theorem matchCode_head {code : Char → Bool} {first second : Nat → Bool} {line : Text}
    {groups : Text × Text} (h : matchCode code first second line = some groups) :
    ∃ c rest, line = c :: rest ∧ code c = true := by
  cases line with
  | nil => simp [matchCode] at h
  | cons c rest =>
      simp only [matchCode, Option.ite_none_right_eq_some] at h
      exact ⟨c, rest, rfl, h.1.1⟩

theorem matchCode_other {code : Char → Bool} (first second : Nat → Bool) {c : Char}
    (h : code c = false) (rest : Text) : matchCode code first second (c :: rest) = none := by
  simp only [matchCode]
  rw [if_neg]
  rw [h]
  rintro ⟨hcode, -⟩
  cases hcode

theorem fixedWrite_head {line : Text} {groups : Text × Text} (h : fixedWriteRegex line = some groups) :
    line.head? = some '0' := by
  obtain ⟨c, rest, rfl, hc⟩ := matchCode_head h
  rw [decide_eq_true_eq] at hc
  rw [hc, List.head?_cons]

theorem serialWrite_head {line : Text} {groups : Text × Text}
    (h : serialWriteRegex line = some groups) :
    line.head? = some '4' ∧ fixedWriteRegex line = none := by
  obtain ⟨c, rest, rfl, hc⟩ := matchCode_head h
  rw [decide_eq_true_eq] at hc
  subst hc
  exact ⟨rfl, matchCode_other _ _ rfl rest⟩

theorem nclCode_cases {code : NclCode} (h : code.code.Valid) :
    (∃ line address value, code = .fixedWrite line ∧ code.code = .fixedWrite address value ∧
      fixedWriteRegex (trim isWhitespace line) = some (address, value)) ∨
    ∃ line next address value addressStep count, code = .serialWrite line next ∧
      code.code = .serialWrite address value addressStep count ∧
      serialWriteRegex (trim isWhitespace line) = some (address, value) ∧
      serialWriteRegex (trim isWhitespace next) = some (addressStep, count) := by
  cases code with
  | fixedWrite line =>
      rw [NclCode.code] at h
      split at h
      · next address value hmatch =>
          exact .inl ⟨line, address, value, rfl, by rw [NclCode.code, hmatch], hmatch⟩
      · exact h.elim
  | serialWrite line next =>
      rw [NclCode.code] at h
      split at h
      · next address value addressStep count hline hnext =>
          exact .inr ⟨line, next, address, value, addressStep, count, rfl,
            by rw [NclCode.code, hline, hnext], hline, hnext⟩
      · exact h.elim

theorem nclCode_groupsOk {code : NclCode} (h : code.code.Valid) : code.code.GroupsOk := by
  rcases nclCode_cases h with ⟨line, address, value, -, hcode, hmatch⟩ |
    ⟨line, next, address, value, addressStep, count, -, hcode, hline, hnext⟩
  · rw [hcode]
    exact static_groups hmatch
  · obtain ⟨ha, hax, hv, hvx⟩ := static_groups hline
    obtain ⟨hs, hsx, -, hcx⟩ := static_groups hnext
    rw [hcode]
    exact ⟨ha, hax, hv, hvx, hs, hsx, hcx⟩

theorem readCodeLines_codes {codes : List NclCode} (h : ∀ code ∈ codes, code.code.Valid) :
    readCodeLines ((codes.flatMap NclCode.lines).map (trim isWhitespace)) =
      codes.map NclCode.code := by
  induction codes with
  | nil => rfl
  | cons code codes ih =>
      obtain ⟨hcode, hrest⟩ := List.forall_mem_cons.mp h
      rw [List.flatMap_cons, List.map_append, List.map_cons]
      rcases nclCode_cases hcode with ⟨line, address, value, rfl, heq, hmatch⟩ |
        ⟨line, next, address, value, addressStep, count, rfl, heq, hline, hnext⟩
      · have hhead := fixedWrite_head hmatch
        rw [heq, NclCode.lines, List.map_cons, List.map_nil, List.singleton_append, readCodeLines,
          if_neg (by rw [hhead]; decide), if_neg (by rw [hhead]; decide), hmatch, ih hrest]
      · obtain ⟨hhead, hfixed⟩ := serialWrite_head hline
        rw [heq, NclCode.lines, List.map_cons, List.map_cons, List.map_nil, List.cons_append,
          List.singleton_append, readCodeLines, if_neg (by rw [hhead]; decide),
          if_neg (by rw [hhead]; decide), hfixed, hline]
        simp only [hnext, ih hrest]

-- Trimmed texts

section Trim

variable {p : Char → Bool}

theorem all_dropWhile (text : Text) : (text.dropWhile p).all p = text.all p := by
  induction text with
  | nil => rfl
  | cons c rest ih =>
      by_cases hc : p c = true
      · rw [List.dropWhile_cons_of_pos hc, ih, List.all_cons, hc, Bool.true_and]
      · rw [List.dropWhile_cons_of_neg hc]

theorem all_trim (text : Text) : (trim p text).all p = text.all p := by
  rw [trim, trimEnd, List.rdropWhile, List.all_reverse, all_dropWhile, List.all_reverse, trimStart,
    all_dropWhile]

theorem trimEnd_cons {c : Char} (hc : p c = false) (rest : Text) :
    trimEnd p (c :: rest) = c :: trimEnd p rest := by
  have hneg : ¬p c = true := by simp [hc]
  induction rest using List.reverseRecOn with
  | nil => exact List.rdropWhile_concat_neg p [] c hneg
  | append_singleton front d ih =>
      rw [← List.cons_append, trimEnd, trimEnd]
      by_cases hd : p d = true
      · rw [List.rdropWhile_concat_pos _ _ _ hd, List.rdropWhile_concat_pos _ _ _ hd]
        exact ih
      · rw [List.rdropWhile_concat_neg _ _ _ hd, List.rdropWhile_concat_neg _ _ _ hd,
          List.cons_append]

theorem trim_trim (text : Text) : trim p (trim p text) = trim p text := by
  have hstart : trimStart p (trim p text) = trim p text := by
    rw [trim]
    cases hfront : trimStart p text with
    | nil => rfl
    | cons c rest =>
        have hc : p c = false := by
          have hidem := List.dropWhile_idempotent p text
          rw [trimStart] at hfront
          rw [hfront] at hidem
          by_contra hpos
          rw [List.dropWhile_cons_of_pos (by simpa using hpos)] at hidem
          have hle := List.length_dropWhile_le p rest
          rw [hidem, List.length_cons] at hle
          omega
        rw [trimEnd_cons hc, trimStart, List.dropWhile_cons_of_neg (by simp [hc])]
  rw [trim, hstart, trim, trimEnd, trimEnd, List.rdropWhile_idempotent]

theorem trim_head {c : Char} (hc : p c = false) {text : Text} (h : text.head? = some c) :
    (trim p text).head? = some c := by
  obtain ⟨rest, rfl⟩ := List.head?_eq_some_iff.mp h
  rw [trim, trimStart, List.dropWhile_cons_of_neg (by simp [hc]), trimEnd_cons hc, List.head?_cons]

end Trim

-- Splitting the text

def nclSeparator : Text := "\n#".toList

theorem splitFrom_line {line : Text} (hline : '\n' ∉ line) (part rest : Text) :
    splitFrom nclSeparator part (line ++ rest) = splitFrom nclSeparator (part ++ line) rest := by
  induction line generalizing part with
  | nil => rw [List.nil_append, List.append_nil]
  | cons c line ih =>
      have hc : '\n' ≠ c := fun h => hline (h ▸ List.mem_cons_self)
      have hno : ¬(nclSeparator ≠ [] ∧ nclSeparator <+: c :: (line ++ rest)) := by
        rintro ⟨-, hprefix⟩
        exact hc (List.cons_prefix_cons.mp hprefix).1
      rw [List.cons_append, splitFrom, if_neg hno, ih fun h => hline (List.mem_cons_of_mem c h),
        List.append_assoc, List.singleton_append]

theorem splitFrom_newline {rest : Text} (h : rest.head? ≠ some '#') (part : Text) :
    splitFrom nclSeparator part ('\n' :: rest) = splitFrom nclSeparator (part ++ ['\n']) rest := by
  have hno : ¬(nclSeparator ≠ [] ∧ nclSeparator <+: '\n' :: rest) := by
    rintro ⟨-, hprefix⟩
    obtain ⟨-, hprefix⟩ := List.cons_prefix_cons.mp hprefix
    obtain ⟨tail, rfl⟩ := hprefix
    exact h rfl
  rw [splitFrom, if_neg hno]

theorem splitFrom_separator (part rest : Text) :
    splitFrom nclSeparator part ('\n' :: '#' :: rest) = part :: splitFrom nclSeparator [] rest := by
  have hyes : nclSeparator ≠ [] ∧ nclSeparator <+: '\n' :: '#' :: rest :=
    ⟨by decide, ⟨rest, rfl⟩⟩
  rw [splitFrom, if_pos hyes]
  rfl

def joinLines (lines : List Text) : Text := ['\n'].intercalate lines

theorem splitFrom_lines {lines : List Text} (hne : lines ≠ []) (hone : ∀ line ∈ lines, OneLine line)
    (hhash : ∀ line ∈ lines.tail, line.head? ≠ some '#') (part rest : Text) :
    splitFrom nclSeparator part (appendLines lines ++ '#' :: rest) =
      (part ++ joinLines lines) :: splitFrom nclSeparator [] rest := by
  induction lines generalizing part with
  | nil => exact absurd rfl hne
  | cons line lines ih =>
      obtain ⟨hline, hlines⟩ := List.forall_mem_cons.mp hone
      have hnot : '\n' ∉ line := fun h => (hline _ h).1 rfl
      rw [appendLines, List.append_assoc, splitFrom_line hnot]
      cases lines with
      | nil =>
          rw [appendLines, List.singleton_append, splitFrom_separator, joinLines,
            List.intercalate_singleton]
      | cons next lines =>
          obtain ⟨hnext, hbehind⟩ := List.forall_mem_cons.mp hhash
          have hhead : (appendLines (next :: lines) ++ '#' :: rest).head? ≠ some '#' := by
            cases next with
            | nil => simp [appendLines]
            | cons c next => simpa [appendLines] using hnext
          rw [List.cons_append, splitFrom_newline hhead, ih (List.cons_ne_nil _ _) hlines hbehind,
            joinLines, joinLines, List.intercalate_cons_cons]
          simp

theorem lines_joinLines {text : List Text} (hne : text ≠ []) (hone : ∀ line ∈ text, OneLine line) :
    lines (joinLines text) = text := by
  induction text with
  | nil => exact absurd rfl hne
  | cons line text ih =>
      obtain ⟨hline, htext⟩ := List.forall_mem_cons.mp hone
      cases text with
      | nil => rw [joinLines, List.intercalate_singleton, lines_self hline]
      | cons next text =>
          rw [joinLines, List.intercalate_cons_cons, List.append_assoc, List.singleton_append,
            lines_append hline]
          congr 1
          exact ih (List.cons_ne_nil _ _) htext

theorem normalizeNewlines_terminated {lineEnd : Text}
    (hend : lineEnd ∈ ["\n".toList, "\r\n".toList, "\r".toList]) {text : List Text}
    (hone : ∀ line ∈ text, OneLine line) :
    normalizeNewlines (text.flatMap fun line => line ++ lineEnd) = appendLines text := by
  have hhead : ∀ rest : List Text, (∀ line ∈ rest, OneLine line) → lineEnd.head? ≠ some '\n' →
      (rest.flatMap fun line => line ++ lineEnd).head? ≠ some '\n' := by
    intro rest hrest hfirst
    cases rest with
    | nil => simp
    | cons line rest =>
        cases line with
        | nil =>
            obtain ⟨c, others, rfl⟩ : ∃ c others, lineEnd = c :: others := by
              simp only [List.mem_cons, List.not_mem_nil, or_false] at hend
              rcases hend with rfl | rfl | rfl <;> exact ⟨_, _, rfl⟩
            simpa using hfirst
        | cons c line =>
            have hc := (hrest (c :: line) List.mem_cons_self c List.mem_cons_self).1
            simpa using hc
  induction text with
  | nil => rfl
  | cons line text ih =>
      obtain ⟨hline, htext⟩ := List.forall_mem_cons.mp hone
      rw [List.flatMap_cons, List.append_assoc, normalizeNewlines_line hline, appendLines]
      congr 1
      rw [← ih htext]
      have hrest := hhead text htext
      generalize (text.flatMap fun line => line ++ lineEnd) = rest at hrest
      simp only [List.mem_cons, List.not_mem_nil, or_false] at hend
      rcases hend with rfl | rfl | rfl
      · exact normalizeNewlines_newline rest
      · show normalizeNewlines ('\r' :: '\n' :: rest) = _
        rw [normalizeNewlines]
      · show normalizeNewlines ('\r' :: rest) = _
        rw [normalizeNewlines]
        rintro tail rfl
        exact hrest (by decide) rfl

-- Blocks

def isKept (line : Text) : Bool := !isBlank line && line ≠ "#".toList

theorem blockLines_eq (rawBlock : Text) :
    blockLines rawBlock = ((lines rawBlock).map (trim isWhitespace)).filter isKept := rfl

theorem isKept_of {line : Text} (hblank : isBlank line = false) (hhash : line ≠ "#".toList) :
    isKept line = true := by
  rw [isKept, hblank, decide_eq_true hhash]
  rfl

section Block

variable {cheat : NclCheat} (h : cheat.Valid)
include h

theorem codeLine_head {code : NclCode} (hcode : code ∈ cheat.codes) {line : Text}
    (hline : line ∈ code.lines) : (trim isWhitespace line).head? = some '0' ∨
      (trim isWhitespace line).head? = some '4' := by
  rcases nclCode_cases (h.codes_valid code hcode) with ⟨single, address, value, rfl, -, hmatch⟩ |
    ⟨first, next, address, value, addressStep, count, rfl, -, hfirst, hnext⟩
  · rw [NclCode.lines, List.mem_singleton] at hline
    exact .inl (hline ▸ fixedWrite_head hmatch)
  · rw [NclCode.lines, List.mem_cons, List.mem_singleton] at hline
    rcases hline with rfl | rfl
    · exact .inr (serialWrite_head hfirst).1
    · exact .inr (serialWrite_head hnext).1

theorem lines_oneLine : ∀ line ∈ cheat.lines, OneLine line := by
  have hflag : OneLine cheat.flag := by
    rcases h.flag with hflag | hflag <;> rw [hflag]
    · exact List.forall_mem_cons.mpr ⟨by decide, by simp⟩
    · exact List.forall_mem_cons.mpr ⟨by decide, by simp⟩
  simp only [NclCheat.lines, List.forall_mem_cons]
  refine ⟨h.name_line, hflag, h.author_line, ?_⟩
  intro line hline
  obtain ⟨code, hcode, hline⟩ := List.mem_flatMap.mp hline
  exact h.codes_line code hcode line hline

theorem lines_noHash : ∀ line ∈ cheat.lines, line.head? ≠ some '#' := by
  simp only [NclCheat.lines, List.forall_mem_cons]
  refine ⟨?_, ?_, h.author_hash.1, ?_⟩
  · exact fun hhash => h.name_hash (trim_head (by decide) hhash)
  · rcases h.flag with hflag | hflag <;> rw [hflag] <;> decide
  · intro line hline hhash
    obtain ⟨code, hcode, hline⟩ := List.mem_flatMap.mp hline
    rcases codeLine_head h hcode hline with hfirst | hfirst <;>
      rw [trim_head (by decide) hhash] at hfirst <;> cases hfirst

-- The lines of a block, behind a blank one or not.
theorem blockLines_cheat {front : List Text} (hfront : ∀ line ∈ front, line = []) :
    blockLines (joinLines (front ++ cheat.lines)) =
      trim isWhitespace cheat.name :: cheat.flag :: trim isWhitespace cheat.author ::
        (cheat.codes.flatMap NclCode.lines).map (trim isWhitespace) := by
  have hone : ∀ line ∈ front ++ cheat.lines, OneLine line := by
    intro line hline
    rcases List.mem_append.mp hline with hline | hline
    · rw [hfront line hline]
      exact List.forall_mem_nil _
    · exact lines_oneLine h line hline
  have hne : front ++ cheat.lines ≠ [] := by simp [NclCheat.lines]
  have hblank : (front.map (trim isWhitespace)).filter isKept = [] := by
    rw [List.filter_eq_nil_iff]
    intro line hline
    obtain ⟨original, horiginal, rfl⟩ := List.mem_map.mp hline
    rw [hfront original horiginal]
    decide
  have hflag : trim isWhitespace cheat.flag = cheat.flag ∧ isKept cheat.flag = true := by
    rcases h.flag with hflag | hflag <;> rw [hflag] <;> decide
  have hname : isKept (trim isWhitespace cheat.name) = true := by
    refine isKept_of ?_ fun heq => h.name_hash (by rw [heq]; rfl)
    rw [isBlank, all_trim]
    exact h.name_text
  have hauthor : isKept (trim isWhitespace cheat.author) = true := by
    refine isKept_of ?_ h.author_hash.2
    rw [isBlank, all_trim]
    exact h.author_text
  have hcodes : ∀ line ∈ (cheat.codes.flatMap NclCode.lines).map (trim isWhitespace),
      isKept line = true := by
    intro line hline
    obtain ⟨original, horiginal, rfl⟩ := List.mem_map.mp hline
    obtain ⟨code, hcode, horiginal⟩ := List.mem_flatMap.mp horiginal
    rcases codeLine_head h hcode horiginal with hfirst | hfirst <;>
      obtain ⟨rest, hrest⟩ := List.head?_eq_some_iff.mp hfirst <;> rw [hrest] <;> rfl
  rw [blockLines_eq, lines_joinLines hne hone, List.map_append, List.filter_append, hblank,
    List.nil_append, NclCheat.lines, List.map_cons, List.map_cons, List.map_cons, hflag.1,
    List.filter_cons_of_pos hname, List.filter_cons_of_pos hflag.2, List.filter_cons_of_pos hauthor,
    List.filter_eq_self.mpr hcodes]

theorem blockName_cheat {front : List Text} (hfront : ∀ line ∈ front, line = []) :
    blockName (joinLines (front ++ cheat.lines)) = some (trim isWhitespace cheat.name) := by
  have hblank : isBlank (trim isWhitespace cheat.name) = false := by
    rw [isBlank, all_trim]
    exact h.name_text
  rw [blockName, blockLines_cheat h hfront, List.head?_cons, Option.bind_some]
  simp only
  rw [if_neg h.name_hash, trim_trim, if_neg (by rw [hblank]; decide)]

theorem blockAuthor_cheat {front : List Text} (hfront : ∀ line ∈ front, line = []) :
    codeStart (blockLines (joinLines (front ++ cheat.lines))) = 2 ∧
      blockAuthor (blockLines (joinLines (front ++ cheat.lines))) =
        trim isWhitespace cheat.author := by
  have hstart : codeStart (blockLines (joinLines (front ++ cheat.lines))) = 2 := by
    rw [blockLines_cheat h hfront, codeStart]
    exact if_pos h.flag
  have hcode : looksLikeCodeLine (trim isWhitespace cheat.author) = false := by
    rw [looksLikeCodeLine, firstToken, trim_trim]
    exact h.author_code
  have hblank : isBlank (trim isWhitespace cheat.author) = false := by
    rw [isBlank, all_trim]
    exact h.author_text
  refine ⟨hstart, ?_⟩
  rw [blockAuthor, hstart, blockLines_cheat h hfront]
  exact if_neg (by simp [hcode, hblank])

-- The code lines; an author that is called Unknown is read as a line without code.
theorem blockCode_cheat {front : List Text} (hfront : ∀ line ∈ front, line = []) :
    (blockCode (joinLines (front ++ cheat.lines))).foldl CodeState.step {} =
      (cheat.codes.map NclCode.code).foldl CodeState.step {} := by
  obtain ⟨hstart, hauthor⟩ := blockAuthor_cheat h hfront
  have hread := readCodeLines_codes h.codes_valid
  rw [blockCode, hstart, hauthor, blockLines_cheat h hfront]
  by_cases hunknown : trim isWhitespace cheat.author = "Unknown".toList
  · rw [if_pos hunknown, List.drop_succ_cons, List.drop_succ_cons, List.drop_zero, hunknown]
    have hline : readCodeLines ("Unknown".toList ::
        (cheat.codes.flatMap NclCode.lines).map (trim isWhitespace)) =
          .noCode :: cheat.codes.map NclCode.code := by
      have hfixed : fixedWriteRegex "Unknown".toList = none := by decide
      have hserial : serialWriteRegex "Unknown".toList = none := by decide
      have hother : otherCodeLine "Unknown".toList = .noCode := by decide
      rw [readCodeLines, if_neg (by decide), if_neg (by decide), hfixed, hserial, hother, hread]
    rw [hline, List.foldl_cons]
    rfl
  · rw [if_neg hunknown, List.drop_succ_cons, List.drop_succ_cons, List.drop_succ_cons,
      List.drop_zero, hread]

theorem cheat_writes_ne_nil : cheat.cheat.writes ≠ [] := by
  obtain ⟨code, codes, hcodes⟩ := List.exists_cons_of_ne_nil h.codes_some
  have hvalid := h.codes_valid code (hcodes ▸ List.mem_cons_self)
  have hlimit := h.limit
  rw [hcodes, List.map_cons, List.sum_cons] at hlimit
  obtain ⟨writes, hwrites, hlength, hpos⟩ :=
    valid_writes (nclCode_groupsOk hvalid) hvalid (by omega)
  have hne : writes ≠ [] := List.ne_nil_of_length_pos (by omega)
  rw [NclCheat.cheat, hcodes, List.flatMap_cons, hwrites]
  exact fun hnil => hne (List.append_eq_nil_iff.mp hnil).1

theorem parseBlock_cheat {front : List Text} (hfront : ∀ line ∈ front, line = []) :
    parseBlock (joinLines (front ++ cheat.lines)) = some cheat.cheat := by
  have hcodes : ∀ code ∈ cheat.codes.map NclCode.code, code.GroupsOk ∧ code.Valid := by
    intro code hcode
    obtain ⟨original, horiginal, rfl⟩ := List.mem_map.mp hcode
    have hvalid := h.codes_valid original horiginal
    exact ⟨nclCode_groupsOk hvalid, hvalid⟩
  have hlimit : (0 + ((cheat.codes.map NclCode.code).map CodeLine.size).sum) ≤
      maxStaticOpsPerCheat := by
    rw [Nat.zero_add, List.map_map]
    exact h.limit
  have hrun := run_valid (fun code hcode => (hcodes code hcode).1)
    (fun code hcode => (hcodes code hcode).2) {} hlimit
  have hstate : blockState (joinLines (front ++ cheat.lines)) =
      { writes := cheat.cheat.writes } := by
    rw [blockState, blockCode_cheat h hfront, hrun]
    simp [NclCheat.cheat, List.flatMap_map]
  rw [parseBlock_eq, blockName_cheat h hfront, Option.bind_some, hstate,
    if_neg fun hnil => cheat_writes_ne_nil h hnil.1, (blockAuthor_cheat h hfront).2]
  rfl

end Block

-- The blocks of a text, where the first one may stand behind a blank line.
theorem parse_blocks {cheats : List NclCheat} (h : ∀ cheat ∈ cheats, cheat.Valid)
    {front : List Text} (hfront : front = [] ∨ front = [[]]) :
    (splitFrom nclSeparator [] (appendLines (front ++ nclLines cheats))).filterMap parseBlock =
      cheats.map NclCheat.cheat := by
  induction cheats generalizing front with
  | nil => rcases hfront with rfl | rfl <;> decide +kernel
  | cons cheat cheats ih =>
      obtain ⟨hcheat, hrest⟩ := List.forall_mem_cons.mp h
      have hnil : ∀ line ∈ front, line = [] := by
        rcases hfront with rfl | rfl <;> simp
      have hone : ∀ line ∈ front ++ cheat.lines, OneLine line := by
        intro line hline
        rcases List.mem_append.mp hline with hline | hline
        · rw [hnil line hline]
          exact List.forall_mem_nil _
        · exact lines_oneLine hcheat line hline
      have hhash : ∀ line ∈ (front ++ cheat.lines).tail, line.head? ≠ some '#' := by
        intro line hline
        rcases List.mem_append.mp (List.mem_of_mem_tail hline) with hline | hline
        · rw [hnil line hline]
          decide
        · exact lines_noHash hcheat line hline
      have hne : front ++ cheat.lines ≠ [] := by simp [NclCheat.lines]
      have hshape : appendLines (front ++ nclLines (cheat :: cheats)) =
          appendLines (front ++ cheat.lines) ++
            '#' :: appendLines ([[]] ++ nclLines cheats) := by
        rw [nclLines, List.flatMap_cons, ← List.append_assoc, ← List.append_assoc,
          appendLines_append, appendLines_append, List.append_assoc]
        rfl
      rw [hshape, splitFrom_lines hne hone hhash, List.nil_append,
        List.filterMap_cons_some (parseBlock_cheat hcheat hnil), ih hrest (.inr rfl),
        List.map_cons]

-- The parser gives back the cheats of a text, with trimmed names and authors.
theorem parse_render {lineEnd : Text} (hend : lineEnd ∈ ["\n".toList, "\r\n".toList, "\r".toList])
    {cheats : List NclCheat} (h : ∀ cheat ∈ cheats, cheat.Valid) :
    parse (render lineEnd cheats) = cheats.map NclCheat.cheat ∧
      ∀ cheat ∈ parse (render lineEnd cheats), cheat.isSupported = true := by
  have hone : ∀ line ∈ nclLines cheats, OneLine line := by
    intro line hline
    obtain ⟨cheat, hcheat, hline⟩ := List.mem_flatMap.mp hline
    rcases List.mem_append.mp hline with hline | hline
    · exact lines_oneLine (h cheat hcheat) line hline
    · rw [List.mem_singleton.mp hline]
      exact List.forall_mem_cons.mpr ⟨by decide, List.forall_mem_nil _⟩
  have hparse : parse (render lineEnd cheats) = cheats.map NclCheat.cheat := by
    rw [parse, nclBlocks, render, normalizeNewlines_terminated hend hone, split]
    exact parse_blocks h (.inl rfl)
  refine ⟨hparse, ?_⟩
  rw [hparse]
  intro cheat hcheat
  obtain ⟨source, hsource, rfl⟩ := List.mem_map.mp hcheat
  rw [ArtemisCheat.isSupported, decide_eq_true_eq]
  exact ⟨cheat_writes_ne_nil (h source hsource), rfl⟩

def maxMoney : NclCheat where
  name := "Max Money".toList
  flag := "0".toList
  author := "Aldo".toList
  codes := [.fixedWrite "0 00000000 0001".toList,
    .serialWrite "4 00000010 01".toList "4 00000004 00000002".toList]

theorem maxMoney_valid : maxMoney.Valid where
  name_line := oneLine_of_all (by decide)
  name_text := by decide
  name_hash := by decide
  flag := .inl rfl
  author_line := oneLine_of_all (by decide)
  author_text := by decide
  author_hash := by decide
  author_code := by decide
  codes_some := by decide
  codes_line := by
    have hlines : ∀ line ∈ maxMoney.codes.flatMap NclCode.lines, OneLine line :=
      List.forall_mem_cons.mpr ⟨oneLine_of_all (by decide),
        List.forall_mem_cons.mpr ⟨oneLine_of_all (by decide),
          List.forall_mem_cons.mpr ⟨oneLine_of_all (by decide), List.forall_mem_nil _⟩⟩⟩
    exact fun code hcode line hline => hlines line (List.mem_flatMap.mpr ⟨code, hcode, hline⟩)
  codes_valid := by
    have hfixed : (NclCode.fixedWrite "0 00000000 0001".toList).code =
        .fixedWrite "00000000".toList "0001".toList := by decide +kernel
    have hserial : (NclCode.serialWrite "4 00000010 01".toList
        "4 00000004 00000002".toList).code = .serialWrite "00000010".toList "01".toList
          "00000004".toList "00000002".toList := by decide +kernel
    refine List.forall_mem_cons.mpr ⟨?_, List.forall_mem_cons.mpr ⟨?_, List.forall_mem_nil _⟩⟩
    · rw [hfixed]
      exact rfl
    · rw [hserial]
      exact ⟨rfl, by decide, by decide⟩
  limit := by decide +kernel

theorem parse_render_maxMoney :
    parse (render "\r\n".toList [maxMoney]) = [maxMoney.cheat] ∧
      ∀ cheat ∈ parse (render "\r\n".toList [maxMoney]), cheat.isSupported = true :=
  parse_render (by decide) (List.forall_mem_cons.mpr ⟨maxMoney_valid, List.forall_mem_nil _⟩)

-- An author that looks like a code line, one that looks like the end of the block, and a name
-- with a blank in front.
theorem free_text_lost :
    parse (render "\n".toList [{ maxMoney with author := "DA Hacker".toList }]) ≠
        [{ maxMoney.cheat with author := "DA Hacker".toList }] ∧
      parse (render "\n".toList [{ maxMoney with author := "#Aldo".toList }]) ≠
        [{ maxMoney.cheat with author := "#Aldo".toList }] ∧
      parse (render "\n".toList [{ maxMoney with name := " Max Money".toList }]) ≠
        [{ maxMoney.cheat with name := " Max Money".toList }] := by
  decide +kernel

end Rpcsx.Artemis
