import Rpcsx.Artemis.Limit
import Rpcsx.Data.Words

namespace Rpcsx.Artemis

open Data Data.Hex Data.Text

-- The fields of an entry that the conversion and the expansion use.
structure CheatEntry where
  title : Text
  size : Text
  fileName : Text
  convertibleCount : Option Nat := none
  riskyCount : Option Nat := none
  format : Text := "artemis_ncl".toList
  cheatName : Option Text := none
  cheatIndex : Option Int := none
deriving DecidableEq, Repr

def formatRpcs3Patch : Text := "rpcs3_patch".toList

def decimalText (number : Nat) : Text := Nat.toDigits 10 number

-- An entry for each cheat of the file. There is no text when it cannot be read.
def expandEntry (entry : CheatEntry) (text : Option Text) : List CheatEntry :=
  if entry.format = formatRpcs3Patch then [entry]
  else
    match text with
    | none => [entry]
    | some text =>
        let cheats := parse text
        if cheats = [] then [entry]
        else cheats.mapIdx fun index cheat => { entry with
          size :=
            if cheat.isSupported then decimalText cheat.writes.length ++ " static patch ops".toList
            else "Risky/runtime".toList
          convertibleCount := some (if cheat.isSupported then 1 else 0)
          riskyCount := some (if cheat.isSupported then 0 else 1)
          cheatName := some cheat.name
          cheatIndex := some (index : Int) }

def expandEntries (sourceEntries : List (CheatEntry × Option Text)) : List CheatEntry :=
  sourceEntries.flatMap fun source => expandEntry source.1 source.2

def selectedCheats (text : Text) (entry : CheatEntry) : List ArtemisCheat :=
  let cheats := parse text
  match entry.cheatIndex with
  | some cheatIndex => if cheatIndex < 0 then [] else (cheats[cheatIndex.toNat]?).toList
  | none =>
      match entry.cheatName with
      | some cheatName =>
          if isBlank cheatName then cheats else cheats.filter fun cheat => cheat.name = cheatName
      | none => cheats

structure PatchItem where
  entry : CheatEntry
  cheat : ArtemisCheat
deriving DecidableEq, Repr

namespace PatchItem

def label (item : PatchItem) : Text := item.entry.title ++ " - ".toList ++ item.cheat.name

def suffix (item : PatchItem) (index : Nat) : Text :=
  if item.entry.cheatIndex = none then " [".toList ++ decimalText (index + 1) ++ "]".toList else []

def description (item : PatchItem) (index : Nat) : Text :=
  "Artemis: ".toList ++ (item.label ++ item.suffix index)

end PatchItem

def yamlScalar (value : Text) : Text :=
  let clean := trim isWhitespace (squash isSpace false ((((value.flatMap fun c =>
    if c = '\\' then ['\\', '\\'] else [c]).flatMap fun c =>
      if c = '"' then ['\\', '"'] else [c])).map fun c => if c = '\n' then ' ' else c))
  '"' :: (clean ++ ['"'])

def yamlKey : Text → Text := yamlScalar

def buildString (lines : List Text) : Text := trimEnd isWhitespace (appendLines lines)

section Body

variable (hashKey titleId gameTitle : Text)

def keyLine (indent key : Text) : Text := indent ++ (yamlKey key ++ [':'])

def patchLines (index : Nat) (item : PatchItem) : List Text :=
  [keyLine "  ".toList (item.description index),
    "    Games:".toList,
    keyLine "      ".toList gameTitle,
    keyLine "        ".toList titleId,
    "          - All".toList,
    "    Author: ".toList ++ yamlScalar item.cheat.author,
    "    Patch Version: \"1.0\"".toList,
    "    Group: \"Artemis\"".toList,
    "    Notes: ".toList ++ yamlScalar
      ("Converted from AldosTools Artemis NCL by RPCSX Easy. Source: ".toList ++
        item.entry.fileName ++ ".".toList),
    "    Patch:".toList] ++
  item.cheat.writes.map fun write => "      - ".toList ++ patchOperation write

def buildPatchBody (patchItems : List PatchItem) : Text :=
  if patchItems = [] then []
  else buildString (keyLine [] hashKey :: (patchItems.mapIdx (patchLines titleId gameTitle)).flatten)

def configLines (index : Nat) (item : PatchItem) : List Text :=
  [keyLine "  ".toList (item.description index),
    keyLine "    ".toList gameTitle,
    keyLine "      ".toList titleId,
    "        All:".toList,
    "          Enabled: true".toList]

def buildConfigBody (patchItems : List PatchItem) : Text :=
  if patchItems = [] then []
  else buildString (keyLine [] hashKey :: (patchItems.mapIdx (configLines titleId gameTitle)).flatten)

end Body

structure ArtemisPatchPreview where
  patchBody : Text
  configBody : Text
  installedCheats : Nat
  skippedCheats : Nat
  installedWrites : Nat
deriving DecidableEq, Repr

def supportedItems (entry : CheatEntry) (text : Text) : List PatchItem :=
  ((selectedCheats text entry).filter ArtemisCheat.isSupported).map fun cheat => { entry, cheat }

def patchItems (entries : List (CheatEntry × Text)) : List PatchItem :=
  entries.flatMap fun source => supportedItems source.1 source.2

def skippedCheats (entries : List (CheatEntry × Text)) : Nat :=
  (entries.map fun source =>
    (selectedCheats source.2 source.1).countP fun cheat => !cheat.isSupported).sum

def buildPatchPreview (entries : List (CheatEntry × Text)) (titleId ppuHash gameTitle : Text) :
    ArtemisPatchPreview :=
  let hashKey := titleId ++ "-".toList ++ ppuHash
  { patchBody := buildPatchBody hashKey titleId gameTitle (patchItems entries)
    configBody := buildConfigBody hashKey titleId gameTitle (patchItems entries)
    installedCheats := (patchItems entries).length
    skippedCheats := skippedCheats entries
    installedWrites := ((patchItems entries).map fun item => item.cheat.writes.length).sum }

-- Reading the keys of a body

-- A double-quoted scalar with a colon behind it.
def readQuoted : Text → Option Text
  | [] => none
  | '"' :: rest => if rest = [':'] then some [] else none
  | '\\' :: c :: rest =>
      if c = '\\' ∨ c = '"' then (readQuoted rest).map (c :: ·) else none
  | c :: rest => (readQuoted rest).map (c :: ·)

def entryKey : Text → Option Text
  | ' ' :: ' ' :: '"' :: rest => readQuoted rest
  | _ => none

-- The keys of the map under the hash key.
def bodyKeys (hashKey body : Text) : List Text :=
  match lines body with
  | [] => []
  | first :: rest => if first = keyLine [] hashKey then rest.filterMap entryKey else []

def escapeChar (c : Char) : Text :=
  if c = '\\' then ['\\', '\\'] else if c = '"' then ['\\', '"'] else [c]

def escape (text : Text) : Text := text.flatMap escapeChar

def cleanText (value : Text) : Text := trim isWhitespace (squash isSpace false value)

theorem isWhitespace_of_isSpace {c : Char} (h : isSpace c = true) : isWhitespace c = true := by
  simp only [isSpace, decide_eq_true_eq] at h
  rcases h with rfl | rfl | rfl | rfl | rfl | rfl <;> decide

section Escape

theorem escape_cons (c : Char) (rest : Text) : escape (c :: rest) = escapeChar c ++ escape rest :=
  rfl

theorem escape_append (left right : Text) : escape (left ++ right) = escape left ++ escape right :=
  List.flatMap_append

theorem escape_steps (text : Text) : (text.flatMap fun c =>
    if c = '\\' then ['\\', '\\'] else [c]).flatMap
      (fun c => if c = '"' then ['\\', '"'] else [c]) = escape text := by
  rw [List.flatMap_assoc, escape]
  congr 1
  funext c
  unfold escapeChar
  by_cases hb : c = '\\'
  · subst hb
    rfl
  · rw [if_neg hb, if_neg hb]
    simp

-- A blank stands for itself, and no other character is written with one.
theorem escapeChar_blank {c : Char} (h : isWhitespace c = true) : escapeChar c = [c] := by
  unfold escapeChar
  rw [if_neg, if_neg]
  · rintro rfl
    exact absurd h (by decide)
  · rintro rfl
    exact absurd h (by decide)

theorem escapeChar_word {c : Char} (h : isWhitespace c = false) :
    EndsWord isWhitespace (escapeChar c) ∧ ∀ d ∈ escapeChar c, isWhitespace d = false := by
  unfold escapeChar
  split
  · exact ⟨⟨['\\'], '\\', rfl, by decide⟩, by simp [show isWhitespace '\\' = false by decide]⟩
  · split
    · exact ⟨⟨['\\'], '"', rfl, by decide⟩, by
        simp [show isWhitespace '\\' = false by decide, show isWhitespace '"' = false by decide]⟩
    · exact ⟨⟨[], c, rfl, h⟩, by simpa using h⟩

theorem squash_newline (inside : Bool) (text : Text) :
    squash isSpace inside (text.map fun c => if c = '\n' then ' ' else c) =
      squash isSpace inside text := by
  induction text generalizing inside with
  | nil => rfl
  | cons c rest ih =>
      rw [List.map_cons, squash, squash, ih, ih]
      by_cases hc : c = '\n'
      · subst hc
        rfl
      · rw [if_neg hc]

theorem squash_append_word {word : Text} (hw : ∀ c ∈ word, isSpace c = false) (hne : word ≠ [])
    (inside : Bool) (rest : Text) :
    squash isSpace inside (word ++ rest) = word ++ squash isSpace false rest := by
  induction word generalizing inside with
  | nil => exact absurd rfl hne
  | cons c word ih =>
      have hc : ¬isSpace c = true := by simp [hw c List.mem_cons_self]
      rw [List.cons_append, squash, if_neg hc, List.cons_append]
      cases word with
      | nil => rfl
      | cons d word => rw [ih (fun e he => hw e (List.mem_cons_of_mem c he)) (List.cons_ne_nil d word)]

theorem not_isSpace {c : Char} (h : isWhitespace c = false) : isSpace c = false :=
  Bool.eq_false_iff.mpr fun hs => by simp [isWhitespace_of_isSpace hs] at h

theorem squash_escape (inside : Bool) (text : Text) :
    squash isSpace inside (escape text) = escape (squash isSpace inside text) := by
  induction text generalizing inside with
  | nil => rfl
  | cons c rest ih =>
      rw [escape_cons, squash]
      by_cases hs : isSpace c = true
      · rw [escapeChar_blank (isWhitespace_of_isSpace hs), if_pos hs, List.singleton_append, squash,
          if_pos hs, ih]
        cases inside <;> rfl
      · rw [if_neg hs, escape_cons, ← ih]
        have hword : (∀ d ∈ escapeChar c, isSpace d = false) ∧ escapeChar c ≠ [] := by
          unfold escapeChar
          split
          · simp [show isSpace '\\' = false by decide]
          · split
            · simp [show isSpace '\\' = false by decide, show isSpace '"' = false by decide]
            · simpa using hs
        exact squash_append_word hword.1 hword.2 inside (escape rest)

theorem trimStart_escape (text : Text) :
    trimStart isWhitespace (escape text) = escape (trimStart isWhitespace text) := by
  induction text with
  | nil => rfl
  | cons c rest ih =>
      rw [escape_cons]
      by_cases hc : isWhitespace c = true
      · rw [escapeChar_blank hc, List.singleton_append, trimStart, trimStart,
          List.dropWhile_cons_of_pos hc, List.dropWhile_cons_of_pos hc]
        exact ih
      · obtain ⟨⟨-, -, -, -⟩, hword⟩ := escapeChar_word (Bool.eq_false_iff.mpr hc)
        rw [trimStart, trimStart, List.dropWhile_cons_of_neg hc, escape_cons]
        obtain ⟨d, others, hd⟩ : ∃ d others, escapeChar c = d :: others := by
          unfold escapeChar
          split
          · exact ⟨_, _, rfl⟩
          · split <;> exact ⟨_, _, rfl⟩
        rw [hd, List.cons_append, List.dropWhile_cons_of_neg]
        simp [hword d (hd ▸ List.mem_cons_self)]

theorem trimEnd_endsWord {text : Text} (h : EndsWord isWhitespace text) :
    trimEnd isWhitespace text = text := by
  obtain ⟨front, c, rfl, hc⟩ := h
  exact List.rdropWhile_concat_neg _ _ _ (by simp [hc])

theorem trimEnd_escape (text : Text) :
    trimEnd isWhitespace (escape text) = escape (trimEnd isWhitespace text) := by
  induction text using List.reverseRecOn with
  | nil => rfl
  | append_singleton front c ih =>
      rw [escape_append, escape_cons, show escape [] = [] from rfl, List.append_nil]
      by_cases hc : isWhitespace c = true
      · rw [escapeChar_blank hc, trimEnd, trimEnd, List.rdropWhile_concat_pos _ _ _ hc,
          List.rdropWhile_concat_pos _ _ _ hc]
        exact ih
      · have hword := (escapeChar_word (Bool.eq_false_iff.mpr hc)).1
        have hself : trimEnd isWhitespace (front ++ [c]) = front ++ [c] :=
          trimEnd_endsWord ⟨front, c, rfl, Bool.eq_false_iff.mpr hc⟩
        rw [trimEnd_endsWord (hword.append _), hself, escape_append, escape_cons,
          show escape [] = [] from rfl, List.append_nil]

-- The scalar is the clean text between quotes.
theorem yamlScalar_eq (value : Text) :
    yamlScalar value = '"' :: (escape (cleanText value) ++ ['"']) := by
  rw [yamlScalar, escape_steps, squash_newline, squash_escape, trim, trimStart_escape, trimEnd_escape]
  rfl

theorem readQuoted_escape (text : Text) : readQuoted (escape text ++ ['"', ':']) = some text := by
  induction text with
  | nil => rfl
  | cons c rest ih =>
      rw [escape_cons, List.append_assoc]
      unfold escapeChar
      split
      · next hb =>
          subst hb
          simp only [List.cons_append, List.nil_append, readQuoted, ih]
          rfl
      · next hb =>
          split
          · next hq =>
              subst hq
              simp only [List.cons_append, List.nil_append, readQuoted, ih]
              rfl
          · next hq =>
              rw [List.singleton_append, readQuoted, ih]
              · rfl
              · exact fun h => hq h
              · exact fun _ _ h _ => hb h

theorem entryKey_keyLine (key : Text) : entryKey (keyLine "  ".toList key) = some (cleanText key) := by
  rw [keyLine, yamlKey, yamlScalar_eq]
  show readQuoted (escape (cleanText key) ++ ['"'] ++ [':']) = _
  rw [List.append_assoc]
  exact readQuoted_escape _

end Escape

section Lines

-- A line that a text with line ends can be read back from.
def LineOk (line : Text) : Prop := OneLine line ∧ EndsWord isWhitespace line

theorem endsWord_of_getLast? {text : Text} {c : Char} (h : text.getLast? = some c)
    (hc : isWhitespace c = false) : EndsWord isWhitespace text := by
  obtain ⟨front, rfl⟩ := List.getLast?_eq_some_iff.mp h
  exact ⟨front, c, rfl, hc⟩

theorem lines_buildString {text : List Text} (hne : text ≠ []) (h : ∀ line ∈ text, LineOk line) :
    lines (buildString text) = text := by
  obtain ⟨front, last, rfl⟩ := text.eq_nil_or_concat.resolve_left hne
  rw [List.concat_eq_append] at h ⊢
  have hlast : LineOk last := h last (by simp)
  have hends : trimEnd isWhitespace (appendLines front ++ last) = appendLines front ++ last :=
    trimEnd_endsWord (hlast.2.append _)
  have hconcat : appendLines (front ++ [last]) = appendLines front ++ last ++ ['\n'] := by
    rw [appendLines_append, appendLines, List.append_assoc]
    rfl
  rw [buildString, hconcat, trimEnd, List.rdropWhile_concat_pos _ _ _ (by decide)]
  rw [trimEnd] at hends
  rw [hends, lines_appendLines fun line hline => (h line (List.mem_append_left _ hline)).1,
    lines_self hlast.1]

theorem yamlScalar_noBreak (value : Text) : ∀ c ∈ yamlScalar value, c ≠ '\n' ∧ c ≠ '\r' := by
  have hclean : ∀ c ∈ cleanText value, c ≠ '\n' ∧ c ≠ '\r' := by
    intro c hc
    have hmem : c ∈ squash isSpace false value :=
      (List.dropWhile_suffix isWhitespace).subset ((List.rdropWhile_prefix isWhitespace _).subset hc)
    rcases mem_squash hmem with rfl | hs
    · decide
    · constructor
      · rintro rfl
        cases hs
      · rintro rfl
        cases hs
  intro c hc
  rw [yamlScalar_eq, List.mem_cons, List.mem_append, List.mem_singleton] at hc
  rcases hc with rfl | hc | rfl
  · decide
  · obtain ⟨d, hd, hmem⟩ := List.mem_flatMap.mp hc
    unfold escapeChar at hmem
    split at hmem
    · simp only [List.mem_cons, List.not_mem_nil, or_false, or_self] at hmem
      subst hmem
      decide
    · split at hmem
      · simp only [List.mem_cons, List.not_mem_nil, or_false] at hmem
        rcases hmem with rfl | rfl <;> decide
      · rw [List.mem_singleton] at hmem
        rw [hmem]
        exact hclean d hd
  · decide

theorem lineOk_keyLine {indent : Text}
    (h : indent.all (fun c => c ≠ '\n' ∧ c ≠ '\r') = true) (key : Text) :
    LineOk (keyLine indent key) := by
  refine ⟨?_, ⟨indent ++ yamlKey key, ':', by rw [keyLine, List.append_assoc], by decide⟩⟩
  intro c hc
  simp only [keyLine, List.mem_append, List.mem_singleton] at hc
  rcases hc with hc | hc | rfl
  · exact oneLine_of_all h c hc
  · exact yamlScalar_noBreak key c hc
  · decide

theorem lineOk_scalar {front : Text}
    (h : front.all (fun c => c ≠ '\n' ∧ c ≠ '\r') = true) (value : Text) :
    LineOk (front ++ yamlScalar value) := by
  refine ⟨?_, ?_⟩
  · intro c hc
    rcases List.mem_append.mp hc with hc | hc
    · exact oneLine_of_all h c hc
    · exact yamlScalar_noBreak value c hc
  · rw [yamlScalar_eq, ← List.cons_append, ← List.append_assoc]
    exact ⟨_, '"', rfl, by decide⟩

end Lines

-- What parse gives

section Parsed

structure PlainWrite (write : ArtemisWrite) : Prop where
  address : ∀ c ∈ write.address, isHexDigit c = true
  value : ∀ c ∈ write.value, isHexDigit c = true
  patchType : ∃ size, write.patchType = patchTypeName size

theorem mem_chunked {size : Nat} {text chunk : Text} (h : chunk ∈ chunked size text) :
    ∀ c ∈ chunk, c ∈ text := by
  fun_induction chunked size text with
  | case1 text hcond => cases h
  | case2 text hcond ih =>
      rcases List.mem_cons.mp h with rfl | hmem
      · exact fun c hc => List.mem_of_mem_take hc
      · exact fun c hc => List.mem_of_mem_drop (ih hmem c hc)

theorem staticWrites_plain {address value : Text} {writes : List ArtemisWrite}
    (ha : ∀ c ∈ address, isHexDigit c = true) (hv : ∀ c ∈ value, isHexDigit c = true)
    (h : staticWritesForValue address value = some writes) : ∀ write ∈ writes, PlainWrite write := by
  obtain ⟨-, rfl⟩ := staticWrites_eq ha h
  intro write hmem
  obtain ⟨index, hi, rfl⟩ := List.mem_mapIdx.mp hmem
  exact ⟨(addressText_spec _).2.1,
    fun c hc => isHexDigit_toUpper hv c (mem_chunked (List.getElem_mem hi) c hc), ⟨_, rfl⟩⟩

theorem repeatWrites_plain {startAddress step : Nat} {value : Text}
    (hv : ∀ c ∈ value, isHexDigit c = true) (count index : Nat) {writes result : List ArtemisWrite}
    (hw : ∀ write ∈ writes, PlainWrite write)
    (h : repeatWrites startAddress step value count index writes = some result) :
    ∀ write ∈ result, PlainWrite write := by
  induction count generalizing index writes with
  | zero =>
      obtain rfl := Option.some.inj h
      exact hw
  | succ count ih =>
      rw [repeatWrites] at h
      split at h
      · cases h
      · next parsedWrites hparsed =>
          dsimp only at h
          split at h
          · cases h
          · have hplain := staticWrites_plain (addressText_spec _).2.1 hv hparsed
            exact ih (index + 1) (List.forall_mem_append.mpr ⟨hw, hplain⟩) h

theorem writes_plain {code : CodeLine} (hg : code.GroupsOk) {writes : List ArtemisWrite}
    (h : code.writes = some writes) : ∀ write ∈ writes, PlainWrite write := by
  have hnone (h : some [] = some writes) : ∀ write ∈ writes, PlainWrite write := by
    obtain rfl := Option.some.inj h
    simp
  cases code with
  | fixedWrite address value => exact staticWrites_plain hg.2.1 hg.2.2.2 h
  | serialWrite address value addressStep count =>
      simp only [CodeLine.writes, serialWrites] at h
      split at h
      · split at h
        · cases h
        · exact repeatWrites_plain hg.2.2.2.1 _ 0 (by simp) h
      · cases h
  | comment => exact hnone h
  | placeholder => exact hnone h
  | serialIncomplete => exact hnone h
  | aobReplace searchPattern replacePattern => exact hnone h
  | aobUnsupported => exact hnone h
  | unsupportedType token => exact hnone h
  | noCode => exact hnone h

theorem mem_writes {codes : List CodeLine} {parts : List (List ArtemisWrite)}
    (h : codes.mapM CodeLine.writes = some parts) {part : List ArtemisWrite} (hpart : part ∈ parts) :
    ∃ code ∈ codes, code.writes = some part := by
  induction codes generalizing parts with
  | nil =>
      obtain rfl := Option.some.inj h
      cases hpart
  | cons code codes ih =>
      simp only [List.mapM_cons, Option.pure_def, Option.bind_eq_bind, Option.bind_eq_some_iff,
        Option.some.injEq] at h
      obtain ⟨first, hfirst, rest, hrest, rfl⟩ := h
      rcases List.mem_cons.mp hpart with rfl | hpart
      · exact ⟨code, List.mem_cons_self, hfirst⟩
      · obtain ⟨other, hother, heq⟩ := ih hrest hpart
        exact ⟨other, List.mem_cons_of_mem code hother, heq⟩

theorem parse_plain {text : Text} {cheat : ArtemisCheat} (h : cheat ∈ parse text)
    (hs : cheat.isSupported = true) : ∀ write ∈ cheat.writes, PlainWrite write := by
  obtain ⟨rawBlock, -, hblock⟩ := List.mem_filterMap.mp h
  obtain ⟨writes, hall, hwrites⟩ := supported_writes hblock hs
  rw [hwrites]
  intro write hmem
  obtain ⟨part, hpart, hmem⟩ := List.mem_flatten.mp hmem
  obtain ⟨code, hcode, heq⟩ := mem_writes hall hpart
  exact writes_plain (readCodeLines_groupsOk _ code hcode) heq write hmem

theorem trim_endsWord {text : Text} (h : isBlank (trim isWhitespace text) = false) :
    EndsWord isWhitespace (trim isWhitespace text) := by
  have hne : trim isWhitespace text ≠ [] := by
    intro hnil
    rw [hnil] at h
    cases h
  refine ⟨_, _, (List.dropLast_concat_getLast hne).symm, ?_⟩
  exact Bool.eq_false_iff.mpr (List.rdropWhile_last_not isWhitespace _ hne)

theorem parse_name {text : Text} {cheat : ArtemisCheat} (h : cheat ∈ parse text) :
    EndsWord isWhitespace cheat.name := by
  obtain ⟨rawBlock, -, hblock⟩ := List.mem_filterMap.mp h
  rw [parseBlock_eq, Option.bind_eq_some_iff] at hblock
  obtain ⟨name, hname, hcheat⟩ := hblock
  rw [Option.ite_none_left_eq_some, Option.some.injEq] at hcheat
  obtain ⟨-, rfl⟩ := hcheat
  obtain ⟨first, -, hname⟩ := Option.bind_eq_some_iff.mp hname
  simp only [Option.ite_none_left_eq_some, Option.some.injEq] at hname
  obtain ⟨hblank, rfl⟩ := hname
  exact trim_endsWord (Bool.eq_false_iff.mpr hblank)

end Parsed

-- The keys of a body

section Keys

structure PatchItem.Ok (item : PatchItem) : Prop where
  name : EndsWord isWhitespace item.cheat.name
  writes : ∀ write ∈ item.cheat.writes, PlainWrite write

theorem mem_selectedCheats {text : Text} {entry : CheatEntry} {cheat : ArtemisCheat}
    (h : cheat ∈ selectedCheats text entry) : cheat ∈ parse text := by
  unfold selectedCheats at h
  dsimp only at h
  split at h
  · split at h
    · cases h
    · exact List.mem_of_getElem? (Option.mem_toList.mp h)
  · split at h
    · split at h
      · exact h
      · exact List.mem_of_mem_filter h
    · exact h

theorem patchItems_ok (entries : List (CheatEntry × Text)) : ∀ item ∈ patchItems entries, item.Ok := by
  intro item hitem
  obtain ⟨⟨entry, text⟩, -, hitem⟩ := List.mem_flatMap.mp hitem
  obtain ⟨cheat, hcheat, rfl⟩ := List.mem_map.mp hitem
  obtain ⟨hselected, hsupported⟩ := List.mem_filter.mp hcheat
  have hparsed := mem_selectedCheats hselected
  exact ⟨parse_name hparsed, parse_plain hparsed hsupported⟩

theorem lineOk_patchOperation {write : ArtemisWrite} (h : PlainWrite write) :
    LineOk ("      - ".toList ++ patchOperation write) := by
  have hhex {c : Char} (hc : isHexDigit c = true) : c ≠ '\n' ∧ c ≠ '\r' := by
    constructor <;> rintro rfl <;> cases hc
  have htype : ∀ c ∈ write.patchType, c ≠ '\n' ∧ c ≠ '\r' := by
    obtain ⟨size, hsize⟩ := h.patchType
    rw [hsize, patchTypeName]
    split
    · exact oneLine_of_all (by decide)
    · split <;> exact oneLine_of_all (by decide)
  have hcomma : ∀ c ∈ ", 0x".toList, c ≠ '\n' ∧ c ≠ '\r' := oneLine_of_all (by decide)
  refine ⟨?_, ?_⟩
  · intro c hc
    simp only [patchOperation, List.mem_append] at hc
    rcases hc with hc | (((((hc | hc) | hc) | hc) | hc) | hc) | hc
    · exact oneLine_of_all (by decide) c hc
    · exact oneLine_of_all (by decide) c hc
    · exact htype c hc
    · exact hcomma c hc
    · exact hhex (h.address c hc)
    · exact hcomma c hc
    · exact hhex (h.value c hc)
    · exact oneLine_of_all (by decide) c hc
  · have hend : EndsWord isWhitespace " ]".toList := endsWord_of_getLast? rfl (by decide)
    exact (hend.append _).append _

theorem lineOk_patchLines (titleId gameTitle : Text) (index : Nat) {item : PatchItem} (h : item.Ok) :
    ∀ line ∈ patchLines titleId gameTitle index item, LineOk line := by
  have hplain : ∀ line ∈ ["    Games:".toList, "          - All".toList,
      "    Patch Version: \"1.0\"".toList, "    Group: \"Artemis\"".toList, "    Patch:".toList],
      LineOk line := by
    simp only [List.forall_mem_cons]
    exact ⟨⟨oneLine_of_all (by decide), endsWord_of_getLast? rfl (by decide)⟩,
      ⟨oneLine_of_all (by decide), endsWord_of_getLast? rfl (by decide)⟩,
      ⟨oneLine_of_all (by decide), endsWord_of_getLast? rfl (by decide)⟩,
      ⟨oneLine_of_all (by decide), endsWord_of_getLast? rfl (by decide)⟩,
      ⟨oneLine_of_all (by decide), endsWord_of_getLast? rfl (by decide)⟩, by simp⟩
  simp only [List.forall_mem_cons] at hplain
  obtain ⟨hgames, hall, hversion, hgroup, hpatch, -⟩ := hplain
  rw [patchLines, List.forall_mem_append]
  refine ⟨?_, ?_⟩
  · simp only [List.forall_mem_cons]
    exact ⟨lineOk_keyLine (by decide) _, hgames, lineOk_keyLine (by decide) _,
      lineOk_keyLine (by decide) _, hall, lineOk_scalar (by decide) _, hversion, hgroup,
      lineOk_scalar (by decide) _, hpatch, by simp⟩
  · intro line hline
    obtain ⟨write, hwrite, rfl⟩ := List.mem_map.mp hline
    exact lineOk_patchOperation (h.writes write hwrite)

theorem lineOk_configLines (titleId gameTitle : Text) (index : Nat) (item : PatchItem) :
    ∀ line ∈ configLines titleId gameTitle index item, LineOk line := by
  simp only [configLines, List.forall_mem_cons]
  exact ⟨lineOk_keyLine (by decide) _, lineOk_keyLine (by decide) _, lineOk_keyLine (by decide) _,
    ⟨oneLine_of_all (by decide), endsWord_of_getLast? rfl (by decide)⟩,
    ⟨oneLine_of_all (by decide), endsWord_of_getLast? rfl (by decide)⟩, by simp⟩

theorem entryKey_patchLines (titleId gameTitle : Text) (index : Nat) (item : PatchItem) :
    (patchLines titleId gameTitle index item).filterMap entryKey =
      [cleanText (item.description index)] := by
  have hwrites : (item.cheat.writes.map fun write =>
      "      - ".toList ++ patchOperation write).filterMap entryKey = [] := by
    rw [List.filterMap_eq_nil_iff]
    intro line hline
    obtain ⟨write, -, rfl⟩ := List.mem_map.mp hline
    rfl
  rw [patchLines, List.filterMap_append, hwrites, List.append_nil, List.filterMap_cons_some
    (entryKey_keyLine (item.description index))]
  rfl

theorem entryKey_configLines (titleId gameTitle : Text) (index : Nat) (item : PatchItem) :
    (configLines titleId gameTitle index item).filterMap entryKey =
      [cleanText (item.description index)] := by
  rw [configLines, List.filterMap_cons_some (entryKey_keyLine (item.description index))]
  rfl

-- The keys of the items in order.
def itemKeys (items : List PatchItem) : List Text :=
  items.mapIdx fun index item => cleanText (item.description index)

theorem filterMap_mapIdx {α β γ : Type} {f : α → Option β} {linesOf : Nat → γ → List α}
    {key : Nat → γ → β} (h : ∀ index item, (linesOf index item).filterMap f = [key index item])
    (items : List γ) : (items.mapIdx linesOf).flatten.filterMap f = items.mapIdx key := by
  induction items generalizing linesOf key with
  | nil => rfl
  | cons item items ih =>
      rw [List.mapIdx_cons, List.mapIdx_cons, List.flatten_cons, List.filterMap_append, h,
        ih fun index item => h (index + 1) item, List.singleton_append]

theorem bodyKeys_eq {items : List PatchItem} {linesOf : Nat → PatchItem → List Text}
    (hok : ∀ item ∈ items, ∀ index, ∀ line ∈ linesOf index item, LineOk line)
    (hkeys : ∀ index item, (linesOf index item).filterMap entryKey =
      [cleanText (item.description index)]) (hashKey : Text) :
    bodyKeys hashKey (if items = [] then []
      else buildString (keyLine [] hashKey :: (items.mapIdx linesOf).flatten)) = itemKeys items := by
  by_cases hnil : items = []
  · subst hnil
    rw [if_pos rfl, bodyKeys, show lines [] = [[]] from rfl]
    rfl
  · rw [if_neg hnil, bodyKeys, lines_buildString (List.cons_ne_nil _ _)]
    · dsimp only
      rw [if_pos rfl, filterMap_mapIdx hkeys, itemKeys]
    · refine List.forall_mem_cons.mpr ⟨lineOk_keyLine rfl hashKey, ?_⟩
      intro line hline
      obtain ⟨part, hpart, hline⟩ := List.mem_flatten.mp hline
      obtain ⟨index, hi, rfl⟩ := List.mem_mapIdx.mp hpart
      exact hok _ (List.getElem_mem hi) index line hline

-- A whole-file item has its number behind the label, as a word of its own.
def numberWord (number : Nat) : Text := '[' :: (decimalText number ++ [']'])

def PatchItem.words (item : PatchItem) (index : Nat) : List Text :=
  if item.entry.cheatIndex = none then
    Text.words isSpace item.label ++ [numberWord (index + 1)]
  else Text.words isSpace item.label

theorem numberWord_inj {left right : Nat} (h : numberWord left = numberWord right) :
    left = right := by
  have hdigits : decimalText left = decimalText right :=
    List.append_cancel_right (List.cons.inj h).2
  have hvalue : Nat.ofDigitChars 10 (decimalText left) 0 =
      Nat.ofDigitChars 10 (decimalText right) 0 := by rw [hdigits]
  rwa [decimalText, decimalText, Nat.ofDigitChars_ten_toDigits, Nat.ofDigitChars_ten_toDigits]
    at hvalue

theorem numberWord_noSpace (number : Nat) : ∀ c ∈ numberWord number, isSpace c = false := by
  intro c hc
  rw [numberWord, List.mem_cons, List.mem_append, List.mem_singleton] at hc
  rcases hc with rfl | hc | rfl
  · decide
  · have hdigit : c.isDigit := Nat.isDigit_of_mem_toDigits (by decide) (by decide) hc
    rw [Bool.eq_false_iff]
    intro hs
    simp only [isSpace, decide_eq_true_eq] at hs
    rcases hs with rfl | rfl | rfl | rfl | rfl | rfl <;> cases hdigit
  · decide

section Item

variable {item : PatchItem} (hok : item.Ok)
include hok

theorem endsWord_description (index : Nat) :
    EndsWord isWhitespace (item.label ++ item.suffix index) := by
  unfold PatchItem.suffix
  split
  · have hend : EndsWord isWhitespace "]".toList := endsWord_of_getLast? rfl (by decide)
    exact (hend.append _).append _
  · rw [List.append_nil]
    exact hok.name.append _

omit hok in
theorem words_description (index : Nat) :
    Text.words isSpace (item.label ++ item.suffix index) = item.words index := by
  unfold PatchItem.suffix PatchItem.words
  split
  · have happ : " [".toList ++ decimalText (index + 1) ++ "]".toList =
        ' ' :: numberWord (index + 1) := rfl
    rw [happ]
    exact words_append rfl _ (List.cons_ne_nil _ _) (numberWord_noSpace _)
  · rw [List.append_nil]

theorem cleanText_description (index : Nat) : cleanText (item.description index) =
    "Artemis: ".toList ++ squash isSpace true (item.label ++ item.suffix index) := by
  obtain ⟨front, c, heq, hc⟩ := endsWord_description hok index
  have hsquash : squash isSpace false (item.description index) =
      "Artemis: ".toList ++ squash isSpace true (item.label ++ item.suffix index) := rfl
  have hends : EndsWord isWhitespace (squash isSpace true (item.label ++ item.suffix index)) := by
    rw [heq, squash_concat (not_isSpace hc)]
    exact ⟨_, c, rfl, hc⟩
  have hstart : trimStart isWhitespace ("Artemis: ".toList ++
      squash isSpace true (item.label ++ item.suffix index)) = "Artemis: ".toList ++
        squash isSpace true (item.label ++ item.suffix index) := rfl
  rw [cleanText, hsquash, trim, hstart, trimEnd_endsWord (hends.append _)]

theorem key_eq_iff {other : PatchItem} (hother : other.Ok) (i j : Nat) :
    cleanText (item.description i) = cleanText (other.description j) ↔
      item.words i = other.words j := by
  have hends {text : Text} (h : EndsWord isWhitespace text) : EndsWord isSpace text := by
    obtain ⟨front, c, rfl, hc⟩ := h
    exact ⟨front, c, rfl, not_isSpace hc⟩
  rw [cleanText_description hok, cleanText_description hother, List.append_cancel_left_eq,
    squash_eq_iff rfl (hends (endsWord_description hok i)) (hends (endsWord_description hother j)),
    words_description, words_description]

end Item

-- No two single cheats have the same words in title and name, and none has those of a cheat of
-- a whole file with its number behind.
structure LabelsApart (items : List PatchItem) : Prop where
  singles : ∀ (i j : Nat) (a b : PatchItem), i < j → items[i]? = some a → items[j]? = some b →
    a.entry.cheatIndex ≠ none → b.entry.cheatIndex ≠ none →
      Text.words isSpace a.label ≠ Text.words isSpace b.label
  numbered : ∀ (i j : Nat) (a b : PatchItem), items[i]? = some a → items[j]? = some b →
    a.entry.cheatIndex = none → b.entry.cheatIndex ≠ none →
      Text.words isSpace a.label ++ [numberWord (i + 1)] ≠ Text.words isSpace b.label

theorem labelsApart_iff (items : List PatchItem) : LabelsApart items ↔
    ∀ (i j : Nat) (a b : PatchItem), i < j → items[i]? = some a → items[j]? = some b →
      a.words i ≠ b.words j := by
  constructor
  · intro h i j a b hij ha hb
    unfold PatchItem.words
    by_cases hai : a.entry.cheatIndex = none
    · by_cases hbi : b.entry.cheatIndex = none
      · rw [if_pos hai, if_pos hbi]
        intro heq
        have hnumber := numberWord_inj (List.cons.inj (List.append_inj_right' heq rfl)).1
        omega
      · rw [if_pos hai, if_neg hbi]
        exact h.numbered i j a b ha hb hai hbi
    · by_cases hbi : b.entry.cheatIndex = none
      · rw [if_neg hai, if_pos hbi]
        exact (h.numbered j i b a hb ha hbi hai).symm
      · rw [if_neg hai, if_neg hbi]
        exact h.singles i j a b hij ha hb hai hbi
  · intro h
    refine ⟨?_, ?_⟩
    · intro i j a b hij ha hb hai hbi
      have hne := h i j a b hij ha hb
      rwa [PatchItem.words, PatchItem.words, if_neg hai, if_neg hbi] at hne
    · intro i j a b ha hb hai hbi
      rcases Nat.lt_trichotomy i j with hij | rfl | hij
      · have hne := h i j a b hij ha hb
        rwa [PatchItem.words, PatchItem.words, if_pos hai, if_neg hbi] at hne
      · rw [ha] at hb
        obtain rfl := Option.some.inj hb
        exact absurd hai hbi
      · have hne := h j i b a hij hb ha
        rw [PatchItem.words, PatchItem.words, if_neg hbi, if_pos hai] at hne
        exact hne.symm

theorem itemKeys_nodup_iff {items : List PatchItem} (hok : ∀ item ∈ items, item.Ok) :
    (itemKeys items).Nodup ↔ LabelsApart items := by
  rw [labelsApart_iff, List.Nodup, List.pairwise_iff_getElem]
  constructor
  · intro h i j a b hij ha hb heq
    obtain ⟨hi, rfl⟩ := List.getElem?_eq_some_iff.mp ha
    obtain ⟨hj, rfl⟩ := List.getElem?_eq_some_iff.mp hb
    have hne := h i j (by simpa [itemKeys] using hi) (by simpa [itemKeys] using hj) hij
    simp only [itemKeys, List.getElem_mapIdx] at hne
    exact hne ((key_eq_iff (hok _ (List.getElem_mem hi)) (hok _ (List.getElem_mem hj)) i j).mpr heq)
  · intro h i j hi hj hij heq
    simp only [itemKeys, List.length_mapIdx] at hi hj
    simp only [itemKeys, List.getElem_mapIdx] at heq
    exact h i j items[i] items[j] hij (List.getElem?_eq_getElem hi) (List.getElem?_eq_getElem hj)
      ((key_eq_iff (hok _ (List.getElem_mem hi)) (hok _ (List.getElem_mem hj)) i j).mp heq)

end Keys

-- The keys of both bodies are those of the installed cheats, in the same order. They are
-- distinct as long as the labels are apart.
theorem previewKeys_iff (entries : List (CheatEntry × Text)) (titleId ppuHash gameTitle : Text) :
    let preview := buildPatchPreview entries titleId ppuHash gameTitle
    let hashKey := titleId ++ "-".toList ++ ppuHash
    ((bodyKeys hashKey preview.patchBody).Nodup ∧
      (bodyKeys hashKey preview.patchBody).length = preview.installedCheats ∧
      bodyKeys hashKey preview.configBody = bodyKeys hashKey preview.patchBody) ↔
        LabelsApart (patchItems entries) := by
  have hok := patchItems_ok entries
  have hpatch : bodyKeys (titleId ++ "-".toList ++ ppuHash)
      (buildPatchPreview entries titleId ppuHash gameTitle).patchBody =
        itemKeys (patchItems entries) :=
    bodyKeys_eq (fun item hitem index => lineOk_patchLines titleId gameTitle index (hok item hitem))
      (entryKey_patchLines titleId gameTitle) _
  have hconfig : bodyKeys (titleId ++ "-".toList ++ ppuHash)
      (buildPatchPreview entries titleId ppuHash gameTitle).configBody =
        itemKeys (patchItems entries) :=
    bodyKeys_eq (fun item _ index => lineOk_configLines titleId gameTitle index item)
      (entryKey_configLines titleId gameTitle) _
  have hlength : (itemKeys (patchItems entries)).length =
      (buildPatchPreview entries titleId ppuHash gameTitle).installedCheats := List.length_mapIdx
  simp only
  rw [hpatch, hconfig, ← itemKeys_nodup_iff hok]
  exact ⟨fun h => h.1, fun h => ⟨h, hlength, rfl⟩⟩

def repeatedName : Text :=
  "Infinite Health\n0\nAldo\n0 00000000 01\n#Infinite Health\n0\nAldo\n0 00000004 01".toList

def repeatedEntries : List (CheatEntry × Text) :=
  (expandEntries [({ title := "Game".toList, size := [], fileName := "Game.ncl".toList },
    some repeatedName)]).map fun entry => (entry, repeatedName)

-- Two cheats of one file with the same name.
theorem repeatedName_shadowed :
    let preview := buildPatchPreview repeatedEntries "BLUS30001".toList "PPU-0".toList "Game".toList
    preview.installedCheats = 2 ∧
      ¬(bodyKeys "BLUS30001-PPU-0".toList preview.patchBody).Nodup := by
  decide +kernel

end Rpcsx.Artemis
