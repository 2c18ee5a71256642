import Rpcsx.Data.Hex

namespace Rpcsx.Artemis

open Data Data.Hex Data.Text

structure ArtemisWrite where
  address : Text
  value : Text
  patchType : Text
deriving DecidableEq, Repr

structure ArtemisAobPatch where
  searchPattern : Text
  replacePattern : Text
deriving DecidableEq, Repr

-- Why a cheat cannot be converted.
inductive UnsupportedReason where
  | placeholder
  | notByteAligned
  | payloadTooLarge
  | missingRepeat
  | invalidSerial
  | aobLengths
  | aobCode
  | codeType (token : Text)
  | aobParsed
deriving DecidableEq, Repr

def UnsupportedReason.text : UnsupportedReason → Text
  | .placeholder =>
      "Configurable placeholder values need a user choice before conversion.".toList
  | .notByteAligned => "Static write value is not byte-aligned hex.".toList
  | .payloadTooLarge => "Static write payload is too large for a generated patch.".toList
  | .missingRepeat => "Serial static write is missing its repeat descriptor.".toList
  | .invalidSerial => "Serial static write is invalid or too large.".toList
  | .aobLengths => "AoB search/replace pattern lengths do not match.".toList
  | .aobCode => "Unsupported AoB search/replace code.".toList
  | .codeType token => "Unsupported Artemis code type: ".toList ++ token
  | .aobParsed =>
      "AoB search/replace parsed, but needs native byte validation before install.".toList

structure ArtemisCheat where
  name : Text
  author : Text
  writes : List ArtemisWrite
  aobPatches : List ArtemisAobPatch
  unsupportedReasons : List UnsupportedReason
deriving DecidableEq, Repr

def ArtemisCheat.isSupported (cheat : ArtemisCheat) : Bool :=
  cheat.writes ≠ [] ∧ cheat.unsupportedReasons = []

def maxStaticOpsPerCheat : Nat := 4096

-- \s and . of a regular expression.
def isSpace (c : Char) : Bool := c = ' ' ∨ c = '\t' ∨ c = '\n' ∨ c = '\x0b' ∨ c = '\x0c' ∨ c = '\r'

def isDot (c : Char) : Bool :=
  c ≠ '\n' ∧ c ≠ '\r' ∧ c ≠ '\u0085' ∧ c ≠ '\u2028' ∧ c ≠ '\u2029'

-- (?:\s+.*)?$
def isLineRest (text : Text) : Bool :=
  match text with
  | [] => true
  | c :: _ => isSpace c && (text.dropWhile isSpace).all isDot

-- A code letter and two hexadecimal groups, with blanks between them.
def matchCode (code : Char → Bool) (first second : Nat → Bool) (line : Text) :
    Option (Text × Text) :=
  match line with
  | [] => none
  | c :: rest =>
      let group1 := (rest.dropWhile isSpace).takeWhile isHexDigit
      let rest1 := (rest.dropWhile isSpace).dropWhile isHexDigit
      let group2 := (rest1.dropWhile isSpace).takeWhile isHexDigit
      let rest2 := (rest1.dropWhile isSpace).dropWhile isHexDigit
      if code c ∧ rest.takeWhile isSpace ≠ [] ∧ first group1.length ∧
          rest1.takeWhile isSpace ≠ [] ∧ second group2.length ∧ isLineRest rest2 then
        some (group1, group2)
      else none

def fixedWriteRegex : Text → Option (Text × Text) := matchCode (· = '0') (· = 8) (1 ≤ ·)

def serialWriteRegex : Text → Option (Text × Text) := matchCode (· = '4') (· = 8) (1 ≤ ·)

def aobReplaceRegex : Text → Option (Text × Text) :=
  matchCode (fun c => c = 'B' ∨ c = 'b') (16 ≤ ·) (16 ≤ ·)

def firstToken (line : Text) : Text := (trim isWhitespace line).takeWhile fun c => !isSpace c

def looksLikeCodeLine (line : Text) : Bool :=
  let first := firstToken line
  1 ≤ first.length ∧ first.length ≤ 2 ∧ first.all isHexDigit

-- toLongOrNull(16) and toIntOrNull(16) of hexadecimal digits.
def toNumberOrNull (bits : Nat) (text : Text) : Option Nat :=
  if text ≠ [] ∧ text.all isHexDigit ∧ hexValue text < 2 ^ bits then some (hexValue text) else none

def toLongOrNull : Text → Option Nat := toNumberOrNull 63

def toIntOrNull : Text → Option Nat := toNumberOrNull 31

def uppercase (text : Text) : Text := text.map Char.toUpper

def addressText (address : Nat) : Text := padStart 8 '0' (uppercase (hexText address))

def chunkBytes (byteCount startAddress : Nat) : Nat :=
  if byteCount = 1 then 1
  else if byteCount = 2 ∧ startAddress % 2 = 0 then 2
  else if 4 ≤ byteCount ∧ byteCount % 4 = 0 ∧ startAddress % 4 = 0 then 4
  else if 2 ≤ byteCount ∧ byteCount % 2 = 0 ∧ startAddress % 2 = 0 then 2
  else 1

def patchTypeName (chunkBytes : Nat) : Text :=
  if chunkBytes = 1 then "be8".toList else if chunkBytes = 2 then "be16".toList else "be32".toList

def staticWritesForValue (address value : Text) : Option (List ArtemisWrite) :=
  let normalizedAddress := uppercase address
  let normalizedValue := uppercase value
  if normalizedValue.length % 2 ≠ 0 then none
  else
    match toLongOrNull normalizedAddress with
    | none => none
    | some startAddress =>
        let chunkBytes := chunkBytes (normalizedValue.length / 2) startAddress
        let chunks := chunked (chunkBytes * 2) normalizedValue
        if maxStaticOpsPerCheat < chunks.length then none
        else some (chunks.mapIdx fun index chunk => {
          address := addressText (startAddress + index * chunkBytes)
          value := chunk
          patchType := patchTypeName chunkBytes })

-- The repeat loop of serialWrites, from the given index on.
def repeatWrites (startAddress step : Nat) (value : Text) :
    Nat → Nat → List ArtemisWrite → Option (List ArtemisWrite)
  | 0, _, writes => some writes
  | count + 1, index, writes =>
      match staticWritesForValue (addressText (startAddress + step * index)) value with
      | none => none
      | some parsedWrites =>
          let writes := writes ++ parsedWrites
          if maxStaticOpsPerCheat < writes.length then none
          else repeatWrites startAddress step value count (index + 1) writes

def serialWrites (address value addressStep count : Text) : Option (List ArtemisWrite) :=
  match toLongOrNull address, toLongOrNull addressStep, toIntOrNull count with
  | some startAddress, some step, some repeatCount =>
      if repeatCount = 0 ∨ maxStaticOpsPerCheat < repeatCount then none
      else repeatWrites startAddress step value repeatCount 0 []
  | _, _, _ => none

-- The branches that the code loop of parseBlock takes, one for each line or pair of lines.
inductive CodeLine where
  | comment
  | placeholder
  | fixedWrite (address value : Text)
  | serialWrite (address value addressStep count : Text)
  | serialIncomplete
  | aobReplace (searchPattern replacePattern : Text)
  | aobUnsupported
  | unsupportedType (token : Text)
  | noCode
deriving DecidableEq, Repr

def otherCodeLine (line : Text) : CodeLine :=
  match aobReplaceRegex line with
  | some (searchPattern, replacePattern) =>
      .aobReplace (uppercase searchPattern) (uppercase replacePattern)
  | none =>
      if equalsIgnoreCase (firstToken line) "B".toList then .aobUnsupported
      else if looksLikeCodeLine line then .unsupportedType (firstToken line)
      else .noCode

def readCodeLines : List Text → List CodeLine
  | [] => []
  | line :: rest =>
      if line.head? = some ';' then .comment :: readCodeLines rest
      else if line.head? = some '[' then .placeholder :: readCodeLines rest
      else
        match fixedWriteRegex line with
        | some (address, value) => .fixedWrite address value :: readCodeLines rest
        | none =>
            match serialWriteRegex line with
            | some (address, value) =>
                match rest with
                | next :: behind =>
                    match serialWriteRegex next with
                    | some (addressStep, count) =>
                        .serialWrite address value addressStep count :: readCodeLines behind
                    | none => .serialIncomplete :: readCodeLines (next :: behind)
                | [] => [.serialIncomplete]
            | none => otherCodeLine line :: readCodeLines rest

structure CodeState where
  writes : List ArtemisWrite := []
  aobPatches : List ArtemisAobPatch := []
  unsupported : List UnsupportedReason := []

-- A reason is listed once, where it was added first.
def CodeState.refuse (state : CodeState) (reason : UnsupportedReason) : CodeState :=
  if reason ∈ state.unsupported then state
  else { state with unsupported := state.unsupported ++ [reason] }

def CodeState.step (state : CodeState) : CodeLine → CodeState
  | .comment => state
  | .placeholder => state.refuse .placeholder
  | .fixedWrite address value =>
      match staticWritesForValue address value with
      | none => state.refuse .notByteAligned
      | some parsedWrites =>
          if maxStaticOpsPerCheat < state.writes.length + parsedWrites.length then
            state.refuse .payloadTooLarge
          else { state with writes := state.writes ++ parsedWrites }
  | .serialWrite address value addressStep count =>
      match serialWrites address value addressStep count with
      | none => state.refuse .invalidSerial
      | some parsedWrites => { state with writes := state.writes ++ parsedWrites }
  | .serialIncomplete => state.refuse .missingRepeat
  | .aobReplace searchPattern replacePattern =>
      if searchPattern.length = replacePattern.length ∧ searchPattern.length % 2 = 0 then
        { state with aobPatches := state.aobPatches ++ [{ searchPattern, replacePattern }] }
      else state.refuse .aobLengths
  | .aobUnsupported => state.refuse .aobCode
  | .unsupportedType token => state.refuse (.codeType token)
  | .noCode => state

def blockLines (rawBlock : Text) : List Text :=
  ((lines rawBlock).map (trim isWhitespace)).filter fun line => !isBlank line && line ≠ "#".toList

-- The line at which the code starts, and the author in front of it.
def codeStart (blockLines : List Text) : Nat :=
  match blockLines[1]? with
  | some line => if line = "0".toList ∨ line = "1".toList then 2 else 1
  | none => 1

def blockAuthor (blockLines : List Text) : Text :=
  match blockLines[codeStart blockLines]? with
  | some line => if looksLikeCodeLine line ∨ isBlank line then "Unknown".toList else line
  | none => "Unknown".toList

def blockCode (rawBlock : Text) : List CodeLine :=
  let blockLines := blockLines rawBlock
  let start :=
    if blockAuthor blockLines = "Unknown".toList then codeStart blockLines
    else codeStart blockLines + 1
  readCodeLines (blockLines.drop start)

def parseBlock (rawBlock : Text) : Option ArtemisCheat :=
  match blockLines rawBlock with
  | [] => none
  | first :: _ =>
      let name := trim isWhitespace (if first.head? = some '#' then first.tail else first)
      if isBlank name then none
      else
        let state := (blockCode rawBlock).foldl CodeState.step {}
        let state :=
          if state.aobPatches = [] then state
          else state.refuse .aobParsed
        if state.writes = [] ∧ state.unsupported = [] then none
        else some {
          name := name
          author := blockAuthor (blockLines rawBlock)
          writes := state.writes
          aobPatches := state.aobPatches
          unsupportedReasons := state.unsupported }

def nclBlocks (text : Text) : List Text := split "\n#".toList (normalizeNewlines text)

def parse (text : Text) : List ArtemisCheat := (nclBlocks text).filterMap parseBlock

-- A line of the generated patch, without the dash in front of it.
def patchOperation (write : ArtemisWrite) : Text :=
  "[ ".toList ++ write.patchType ++ ", 0x".toList ++ write.address ++ ", 0x".toList ++
    write.value ++ " ]".toList

end Rpcsx.Artemis
