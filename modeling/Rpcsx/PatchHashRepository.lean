import Rpcsx.Data.Text

namespace Rpcsx.PatchHashRepository

open Data Data.Text

-- Character classes of the regular expressions.
def isLetter (c : Char) : Bool := ('A' ≤ c ∧ c ≤ 'Z') ∨ ('a' ≤ c ∧ c ≤ 'z')

def isDigit (c : Char) : Bool := '0' ≤ c ∧ c ≤ '9'

def isWordChar (c : Char) : Bool := isLetter c || isDigit c || c = '_'

def isHashChar (c : Char) : Bool := isLetter c || isDigit c || c = '_' || c = '-'

def isSpace (c : Char) : Bool := c = ' ' ∨ c = '\t' ∨ c = '\n' ∨ c = '\x0b' ∨ c = '\x0c' ∨ c = '\r'

def uppercase (text : Text) : Text := text.map Char.toUpper

-- \b[A-Z]{4}\d{5}\b at the begin of a text, behind the given character.
def titleIdAt (previous : Option Char) (text : Text) : Option Text :=
  if (previous.map isWordChar).getD false = false ∧ (text.take 4).length = 4 ∧
      (text.take 4).all isLetter ∧ ((text.drop 4).take 5).length = 5 ∧
      ((text.drop 4).take 5).all isDigit ∧ ((text.drop 9).head?.map isWordChar).getD false = false then
    some (text.take 9)
  else none

-- titleIdRegex.find(line)?.value
def findTitleIdFrom (previous : Option Char) : Text → Option Text
  | [] => none
  | c :: rest => (titleIdAt previous (c :: rest)).or (findTitleIdFrom (some c) rest)

def findTitleId (line : Text) : Option Text := (findTitleIdFrom none line).map uppercase

-- A label, blanks, and 8 to 96 characters of a hash.
def hashAt (label text : Text) : Option Text :=
  if label <+: text then
    let hash := (((text.drop label.length).dropWhile isSpace).takeWhile isHashChar).take 96
    if 8 ≤ hash.length then some hash else none
  else none

def findHash (label : Text) : Text → Option Text
  | [] => none
  | c :: rest => (hashAt label (c :: rest)).or (findHash label rest)

def findPpuHash : Text → Option Text := findHash "PPU executable hash:".toList

def findSpuHash : Text → Option Text := findHash "SPU executable hash:".toList

-- line.contains(text, ignoreCase = true), for texts in ASCII.
def containsIgnoreCase (text line : Text) : Bool :=
  (List.range (line.length + 1)).any fun start =>
    equalsIgnoreCase ((line.drop start).take text.length) text

structure LearnedHashes where
  ppuHashForTitle : Option Text
  ppuHash : Option Text
  spuHashes : List Text
deriving DecidableEq, Repr

-- A linked set keeps each element once, where it was added first.
def addHash (hashes : List Text) (hash : Text) : List Text :=
  if hash ∈ hashes then hashes else hashes ++ [hash]

structure LogState where
  activeTitleId : Option Text := none
  ppuHashForTitle : Option Text := none
  latestPpuHash : Option Text := none
  spuHashes : List Text := []

-- The line belongs to the title.
def LogState.inScope (state : LogState) (titleId line : Text) : Bool :=
  state.activeTitleId = some (uppercase titleId) || containsIgnoreCase titleId line

def LogState.readTitleId (state : LogState) (line : Text) : LogState :=
  match findTitleId line with
  | some id => { state with activeTitleId := some id }
  | none => state

def LogState.readPpuHash (state : LogState) (titleId line : Text) : LogState :=
  match findPpuHash line with
  | some hash =>
      let state := { state with latestPpuHash := some hash }
      if state.inScope titleId line then { state with ppuHashForTitle := some hash } else state
  | none => state

def LogState.readSpuHash (state : LogState) (titleId line : Text) : LogState :=
  match findSpuHash line with
  | some hash =>
      if state.inScope titleId line then
        { state with spuHashes := addHash state.spuHashes hash }
      else state
  | none => state

def LogState.readLine (titleId : Text) (state : LogState) (line : Text) : LogState :=
  ((state.readTitleId line).readPpuHash titleId line).readSpuHash titleId line

def parseLogText (text titleId : Text) : LearnedHashes :=
  let state := (lines text).foldl (LogState.readLine titleId) {}
  ⟨state.ppuHashForTitle, state.latestPpuHash, state.spuHashes⟩

-- The old log and the current one; a log is missing where the file does not exist or cannot be
-- read.
structure Logs where
  old : Option Text
  current : Option Text

def Logs.texts (logs : Logs) : List Text := logs.old.toList ++ logs.current.toList

def LearnedHashes.merge (learned parsed : LearnedHashes) : LearnedHashes where
  ppuHashForTitle := parsed.ppuHashForTitle.or learned.ppuHashForTitle
  ppuHash := parsed.ppuHash.or learned.ppuHash
  spuHashes := parsed.spuHashes.foldl addHash learned.spuHashes

def parseLogs (logs : Logs) (titleId : Text) : LearnedHashes :=
  logs.texts.foldl (fun learned text => learned.merge (parseLogText text titleId)) ⟨none, none, []⟩

-- The shared preferences, by key.
structure Prefs where
  strings : Text → Option Text
  stringSets : Text → Option (List Text)

def ppuHashPrefKey (path titleId : Text) : Text :=
  "ppu_hash:".toList ++ titleId ++ ':' :: path

def spuHashPrefKey (path titleId : Text) : Text :=
  "spu_hashes:".toList ++ titleId ++ ':' :: path

def Prefs.rememberPpuHash (prefs : Prefs) (path titleId hash : Text) : Prefs :=
  { prefs with strings := fun key =>
      if key = ppuHashPrefKey path titleId then some hash else prefs.strings key }

def Prefs.rememberSpuHashes (prefs : Prefs) (path titleId : Text) (hashes : List Text) : Prefs :=
  { prefs with stringSets := fun key =>
      if key = spuHashPrefKey path titleId then some hashes else prefs.stringSets key }

-- What the application knows of the game played last and of the one that runs.
structure Playing where
  lastPlayedGame : Text
  activeGame : Option Text

def Playing.isLikelyCurrentGame (playing : Playing) (path : Text) : Bool :=
  playing.lastPlayedGame = path || playing.activeGame = some path

-- learnFromLogs for a game with a title id; without one nothing is stored.
def learnFromLogs (prefs : Prefs) (playing : Playing) (logs : Logs) (path titleId : Text) : Prefs :=
  let learned := parseLogs logs titleId
  let prefs :=
    match learned.ppuHash, playing.isLikelyCurrentGame path, learned.ppuHashForTitle with
    | some hash, true, _ => prefs.rememberPpuHash path titleId hash
    | _, _, some hash => prefs.rememberPpuHash path titleId hash
    | _, _, none => prefs
  if learned.spuHashes = [] then prefs
  else prefs.rememberSpuHashes path titleId learned.spuHashes

-- The title that is active behind some lines: the first title id of the last line with one.
def activeTitle (lines : List Text) : Option Text := (lines.filterMap findTitleId).getLast?

-- The last hash of some lines, whichever title it belongs to.
def latestPpuHash (lines : List Text) : Option Text := (lines.filterMap findPpuHash).getLast?

-- A line of the log has the hash, and the title is active there or the line names it.
def HashOfTitle (titleId : Text) (lines : List Text) (hash : Text) : Prop :=
  ∃ before line after, lines = before ++ line :: after ∧ findPpuHash line = some hash ∧
    (activeTitle (before ++ [line]) = some (uppercase titleId) ∨
      containsIgnoreCase titleId line = true)

theorem getLast?_filterMap_concat {α β : Type} (f : α → Option β) (list : List α) (a : α) :
    ((list ++ [a]).filterMap f).getLast? = (f a).or (list.filterMap f).getLast? := by
  rw [List.filterMap_append, List.filterMap_cons, List.filterMap_nil]
  cases f a with
  | none => simp
  | some b => simp

namespace LogState

section Line

variable (state : LogState) (titleId line : Text)

theorem readSpuHash_eq : (state.readSpuHash titleId line).activeTitleId = state.activeTitleId ∧
    (state.readSpuHash titleId line).latestPpuHash = state.latestPpuHash ∧
    (state.readSpuHash titleId line).ppuHashForTitle = state.ppuHashForTitle := by
  unfold readSpuHash
  cases findSpuHash line with
  | none => exact ⟨rfl, rfl, rfl⟩
  | some hash =>
      dsimp only
      split <;> exact ⟨rfl, rfl, rfl⟩

theorem readPpuHash_eq : (state.readPpuHash titleId line).activeTitleId = state.activeTitleId ∧
    (state.readPpuHash titleId line).latestPpuHash = (findPpuHash line).or state.latestPpuHash ∧
    (state.readPpuHash titleId line).ppuHashForTitle =
      if state.inScope titleId line then (findPpuHash line).or state.ppuHashForTitle
      else state.ppuHashForTitle := by
  unfold readPpuHash
  cases findPpuHash line with
  | none => simp
  | some hash =>
      dsimp only
      have hscope : ({ state with latestPpuHash := some hash } : LogState).inScope titleId line =
          state.inScope titleId line := rfl
      rw [hscope]
      cases state.inScope titleId line <;> exact ⟨rfl, rfl, rfl⟩

theorem readTitleId_eq : (state.readTitleId line).activeTitleId =
      (findTitleId line).or state.activeTitleId ∧
    (state.readTitleId line).latestPpuHash = state.latestPpuHash ∧
    (state.readTitleId line).ppuHashForTitle = state.ppuHashForTitle := by
  unfold readTitleId
  cases findTitleId line with
  | none => exact ⟨rfl, rfl, rfl⟩
  | some id => exact ⟨rfl, rfl, rfl⟩

-- What one line does to the three fields.
theorem readLine_spec : (state.readLine titleId line).activeTitleId =
      (findTitleId line).or state.activeTitleId ∧
    (state.readLine titleId line).latestPpuHash = (findPpuHash line).or state.latestPpuHash ∧
    (state.readLine titleId line).ppuHashForTitle =
      if (findTitleId line).or state.activeTitleId = some (uppercase titleId) ∨
          containsIgnoreCase titleId line = true then
        (findPpuHash line).or state.ppuHashForTitle
      else state.ppuHashForTitle := by
  obtain ⟨ha, hl, ht⟩ := readTitleId_eq state line
  obtain ⟨ha', hl', ht'⟩ := readPpuHash_eq (state.readTitleId line) titleId line
  obtain ⟨ha'', hl'', ht''⟩ :=
    readSpuHash_eq ((state.readTitleId line).readPpuHash titleId line) titleId line
  refine ⟨by rw [readLine, ha'', ha', ha], by rw [readLine, hl'', hl', hl], ?_⟩
  rw [readLine, ht'', ht', ht, inScope, ha]
  simp only [Bool.or_eq_true, decide_eq_true_eq]

end Line

theorem run_spec (titleId : Text) (lines : List Text) :
    (lines.foldl (readLine titleId) {}).activeTitleId = activeTitle lines ∧
    (lines.foldl (readLine titleId) {}).latestPpuHash = PatchHashRepository.latestPpuHash lines ∧
    ∀ hash, (lines.foldl (readLine titleId) {}).ppuHashForTitle = some hash →
      HashOfTitle titleId lines hash := by
  induction lines using List.reverseRecOn with
  | nil => exact ⟨rfl, rfl, fun hash h => by cases h⟩
  | append_singleton lines line ih =>
      obtain ⟨hactive, hlatest, hscoped⟩ := ih
      obtain ⟨ha, hl, ht⟩ := readLine_spec (lines.foldl (readLine titleId) {}) titleId line
      rw [hactive] at ha ht
      have hnext : (findTitleId line).or (activeTitle lines) = activeTitle (lines ++ [line]) :=
        (getLast?_filterMap_concat findTitleId lines line).symm
      rw [hnext] at ha ht
      rw [List.foldl_append, List.foldl_cons, List.foldl_nil]
      refine ⟨ha, ?_, ?_⟩
      · rw [hl, hlatest, PatchHashRepository.latestPpuHash, PatchHashRepository.latestPpuHash,
          getLast?_filterMap_concat]
      · intro hash hhash
        rw [ht] at hhash
        -- a hash of an earlier line stays one
        have hearlier (h : (lines.foldl (readLine titleId) {}).ppuHashForTitle = some hash) :
            HashOfTitle titleId (lines ++ [line]) hash := by
          obtain ⟨before, other, after, rfl, hother⟩ := hscoped hash h
          exact ⟨before, other, after ++ [line], by simp, hother⟩
        split at hhash
        · next hin =>
            cases hp : findPpuHash line with
            | none =>
                rw [hp] at hhash
                exact hearlier hhash
            | some found =>
                rw [hp] at hhash
                obtain rfl : found = hash := by simpa using hhash
                exact ⟨lines, line, [], rfl, hp, hin⟩
        · exact hearlier hhash

end LogState

theorem parseLogText_spec (text titleId : Text) :
    (parseLogText text titleId).ppuHash = latestPpuHash (lines text) ∧
      ∀ hash, (parseLogText text titleId).ppuHashForTitle = some hash →
        HashOfTitle titleId (lines text) hash := by
  obtain ⟨-, hlatest, hscoped⟩ := LogState.run_spec titleId (lines text)
  exact ⟨hlatest, hscoped⟩

theorem latestPpuHash_append (left right : List Text) :
    latestPpuHash (left ++ right) = (latestPpuHash right).or (latestPpuHash left) := by
  rw [latestPpuHash, List.filterMap_append, List.getLast?_append]
  rfl

theorem merge_ppuHash (learned parsed : LearnedHashes) :
    (learned.merge parsed).ppuHash = parsed.ppuHash.or learned.ppuHash := rfl

theorem parseLogs_spec (logs : Logs) (titleId : Text) :
    (parseLogs logs titleId).ppuHash = latestPpuHash (logs.texts.flatMap lines) ∧
      ∀ hash, (parseLogs logs titleId).ppuHashForTitle = some hash →
        ∃ text ∈ logs.texts, HashOfTitle titleId (lines text) hash := by
  unfold parseLogs
  generalize logs.texts = texts
  induction texts using List.reverseRecOn with
  | nil => exact ⟨rfl, fun hash h => by cases h⟩
  | append_singleton texts text ih =>
      obtain ⟨hlatest, hscoped⟩ := ih
      obtain ⟨htext, hof⟩ := parseLogText_spec text titleId
      rw [List.foldl_append, List.foldl_cons, List.foldl_nil, List.flatMap_append]
      refine ⟨?_, ?_⟩
      · rw [merge_ppuHash, hlatest, htext, latestPpuHash_append, List.flatMap_singleton]
      · intro hash hhash
        simp only [LearnedHashes.merge, Option.or_eq_some_iff] at hhash
        rcases hhash with hnew | ⟨-, hold⟩
        · exact ⟨text, by simp, hof hash hnew⟩
        · obtain ⟨other, hmem, hother⟩ := hscoped hash hold
          exact ⟨other, by simp [hmem], hother⟩

-- Where the logs have no hash, they have none of the title.
theorem latestPpuHash_ne_none {texts : List Text} {titleId text hash : Text} (hmem : text ∈ texts)
    (h : HashOfTitle titleId (lines text) hash) : latestPpuHash (texts.flatMap lines) ≠ none := by
  obtain ⟨before, line, after, hlines, hline, -⟩ := h
  have hin : line ∈ texts.flatMap lines :=
    List.mem_flatMap.mpr ⟨text, hmem, by rw [hlines]; simp⟩
  have hhash : hash ∈ (texts.flatMap lines).filterMap findPpuHash :=
    List.mem_filterMap.mpr ⟨line, hin, hline⟩
  rw [latestPpuHash, Ne, List.getLast?_eq_none_iff]
  exact List.ne_nil_of_mem hhash

-- A game that is likely the current one gets the last hash of the logs; any other game only a
-- hash of its title.
theorem learnFromLogs_stores (prefs : Prefs) (playing : Playing) (logs : Logs)
    (path titleId : Text) :
    (learnFromLogs prefs playing logs path titleId).strings (ppuHashPrefKey path titleId) =
        prefs.strings (ppuHashPrefKey path titleId) ∨
      ∃ hash, (learnFromLogs prefs playing logs path titleId).strings
          (ppuHashPrefKey path titleId) = some hash ∧
        if playing.isLikelyCurrentGame path then
          latestPpuHash (logs.texts.flatMap lines) = some hash
        else ∃ text ∈ logs.texts, HashOfTitle titleId (lines text) hash := by
  obtain ⟨hlatest, hscoped⟩ := parseLogs_spec logs titleId
  have hstrings (prefs : Prefs) :
      (if (parseLogs logs titleId).spuHashes = [] then prefs
        else prefs.rememberSpuHashes path titleId (parseLogs logs titleId).spuHashes).strings =
          prefs.strings := by
    split <;> rfl
  unfold learnFromLogs
  dsimp only
  rw [hstrings]
  cases hcurrent : playing.isLikelyCurrentGame path with
  | true =>
      cases hp : (parseLogs logs titleId).ppuHash with
      | some hash =>
          right
          exact ⟨hash, if_pos rfl, by rw [if_pos rfl, ← hlatest, hp]⟩
      | none =>
          cases ht : (parseLogs logs titleId).ppuHashForTitle with
          | none => exact .inl rfl
          | some hash =>
              obtain ⟨text, hmem, htext⟩ := hscoped hash ht
              rw [hp] at hlatest
              exact absurd hlatest.symm (latestPpuHash_ne_none hmem htext)
  | false =>
      cases ht : (parseLogs logs titleId).ppuHashForTitle with
      | some hash =>
          right
          refine ⟨hash, ?_, ?_⟩
          · cases (parseLogs logs titleId).ppuHash <;> exact if_pos rfl
          · rw [if_neg (by decide)]
            exact hscoped hash ht
      | none =>
          left
          cases (parseLogs logs titleId).ppuHash <;> rfl

-- The hash of another title, for a game that is taken for the current one.
theorem learnFromLogs_other_title :
    let logs : Logs := ⟨none,
      some "Booting BLES99999 from disc path\nPPU executable hash: deadbeefdeadbeef".toList⟩
    let prefs := learnFromLogs ⟨fun _ => none, fun _ => none⟩ ⟨"/roms/a.iso".toList, none⟩ logs
      "/roms/a.iso".toList "BLUS12345".toList
    prefs.strings (ppuHashPrefKey "/roms/a.iso".toList "BLUS12345".toList) =
        some "deadbeefdeadbeef".toList ∧
      activeTitle (logs.texts.flatMap lines) = some "BLES99999".toList := by
  decide +kernel

end Rpcsx.PatchHashRepository
