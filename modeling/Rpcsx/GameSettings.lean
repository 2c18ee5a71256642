import Rpcsx.Artemis

namespace Rpcsx.GameSettings

open Data Data.Text

def managedHeader : Text := "# RPCSX_THOR_AUTO_SETTINGS".toList

def timestampHeader : Text := "# Database timestamp: ".toList

def sourceUrl : Text := "https://api.rpcs3.net/config/?api=v1".toList

-- Four capital letters and five digits, as GameIdentity finds them.
structure TitleId where
  letters : Text
  digits : Text
  letters_length : letters.length = 4
  digits_length : digits.length = 5
  letters_upper : letters.all Char.isUpper
  digits_digit : digits.all Char.isDigit
deriving DecidableEq

def TitleId.text (titleId : TitleId) : Text := titleId.letters ++ titleId.digits

def decimalText (number : Int) : Text := (toString number).toList

def eternalSonata : TitleId :=
  ⟨"BLUS".toList, "30161".toList, by decide, by decide, by decide, by decide⟩

def eternalSonataLines : List String := [
  "# RPCSX_THOR_PROFILE_OVERRIDE",
  "# Eternal Sonata stability/speed profile for AYN Thor.",
  "# Official DB requires Write Color Buffers; keep it for black-spot correctness.",
  "# 30 FPS matches the practical full-speed target for this title on Thor.",
  "# Cap Vulkan VRAM on shared-memory Adreno so cache/shader spikes do not eat the device.",
  "# Do not cap SPURS here; SPURS 4 caused a black-screen-alive load hang on Thor.",
  "# 2026-05-16 Thor A/B: RPCS3 Scheduler + SPU busy-wait dropped the opening field route to low single digits.",
  "Core:",
  "  Thread Scheduler Mode: Operating System",
  "  SPU Reservation Busy Waiting Percentage: 0",
  "  SPU Reservation Busy Waiting Enabled: false",
  "  Max SPURS Threads: 6",
  "  Accurate SPU Reservations: true",
  "  SPU Verification: true",
  "  Sleep Timers Accuracy: As Host",
  "Video:",
  "  Frame limit: 30",
  "  Write Color Buffers: true",
  "  Accurate ZCULL stats: false",
  "  Relaxed ZCULL Sync: false",
  "  Multithreaded RSX: false",
  "  Shader Compiler Threads: 2",
  "  Vulkan:",
  "    VRAM allocation limit (MB): 3072",
  "  Performance Overlay:",
  "    Enabled: true"]

def joinLines (lines : List Text) : Text := List.intercalate ['\n'] lines

def thorProfileOverrides : List (Text × Text) :=
  [(eternalSonata.text, joinLines (eternalSonataLines.map String.toList))]

inductive DatabaseSource where
  | localCache
  | bundledSnapshot
deriving DecidableEq, Repr

structure Database where
  timestamp : Int
  profiles : List (Text × Text)
  source : DatabaseSource
deriving DecidableEq, Repr

-- What parseDatabase asks of the JSON object, with the defaults of optInt, optLong and optString.
structure JsonRoot where
  returnCode : Int := -1
  games : Option (List (Text × Text))
  timestamp : Int := 0

-- What the calls find around them: the JSON parser, the asset of the application, the device.
structure Platform where
  jsonObject : Text → Option JsonRoot
  bundledText : Option Text
  isThorTarget : Bool

variable (platform : Platform)

-- Later entries replace earlier ones.
def putProfile (profiles : List (Text × Text)) (titleId config : Text) : List (Text × Text) :=
  (titleId, config) :: profiles.filter (·.1 ≠ titleId)

def parseDatabase (json : Text) (source : DatabaseSource) : Option Database :=
  match platform.jsonObject json with
  | none => none
  | some root =>
      if root.returnCode < 0 then none
      else
        match root.games with
        | none => none
        | some games =>
            let valid := games.foldl (fun profiles (titleId, config) =>
              if isBlank config then profiles else putProfile profiles titleId config) []
            let profiles := thorProfileOverrides.foldl (fun profiles (titleId, config) =>
              putProfile profiles titleId config) valid
            if profiles = [] then none
            else some ⟨root.timestamp, profiles, source⟩

-- ^(\s*SPU Decoder:\s*)Recompiler \(ASMJIT\)\s*$
def thorUnsafeSpuAsmjit (line : Text) : Option Text :=
  let blanks := line.takeWhile Artemis.isSpace
  let rest := line.dropWhile Artemis.isSpace
  let key := "SPU Decoder:".toList
  let value := "Recompiler (ASMJIT)".toList
  let rest1 := (rest.drop key.length).dropWhile Artemis.isSpace
  if key <+: rest ∧ value <+: rest1 ∧ (rest1.drop value.length).all Artemis.isSpace then
    some (blanks ++ key ++ (rest.drop key.length).takeWhile Artemis.isSpace)
  else none

def sanitizeThorManagedConfig (config : Text) : Text :=
  if platform.isThorTarget then
    joinLines ((lines config).map fun line =>
      match thorUnsafeSpuAsmjit line with
      | some group => group ++ "Recompiler (LLVM)".toList
      | none => line)
  else config

def buildManagedConfig (titleId : TitleId) (timestamp : Int) (config : Text) : Text :=
  managedHeader ++ ['\n'] ++
  ("# Source: ".toList ++ sourceUrl ++ ['\n']) ++
  (timestampHeader ++ decimalText timestamp ++ ['\n']) ++
  ("# Title ID: ".toList ++ titleId.text ++ ['\n']) ++
  sanitizeThorManagedConfig platform (trimEnd isWhitespace config) ++ ['\n']

def isManaged (text : Text) : Bool := managedHeader.isPrefixOf text

-- The files of config/custom_configs, by name.
abbrev Files := Text → Option Text

def setFile (files : Files) (name : Text) (content : Option Text) : Files :=
  fun other => if other = name then content else files other

def configName (titleId : TitleId) : Text :=
  "config_".toList ++ titleId.text ++ ".yml".toList

def backupName (titleId : TitleId) (currentTimeMillis : Int) : Text :=
  "config_".toList ++ titleId.text ++ ".user-backup-".toList ++ decimalText currentTimeMillis ++
    ".yml".toList

-- A write that fails leaves the file alone or holding the part written so far.
inductive Outcome where
  | done
  | notOpened
  | cutOff (length : Nat)
deriving DecidableEq, Repr

-- What the file system answers during a call.
structure Io where
  rootReady : Bool := true
  currentTimeMillis : Int := 0
  readable : Bool := true
  copied : Outcome := .done
  written : Outcome := .done
  deleted : Bool := true
deriving DecidableEq, Repr

-- Whether it threw is the second part.
def writeText (outcome : Outcome) (name text : Text) (files : Files) : Files × Bool :=
  match outcome with
  | .done => (setFile files name (some text), true)
  | .notOpened => (files, false)
  | .cutOff length => (setFile files name (some (text.take length)), false)

structure State where
  files : Files
  disabled : TitleId → Bool
  cachedDatabase : Option Database
  -- Under the root directory, or in the directory of the application while there is none.
  localDatabase : Bool → Option Text

def readLocalDatabase (io : Io) (s : State) : Option Database :=
  match s.localDatabase io.rootReady with
  | none => none
  | some json => parseDatabase platform json .localCache

def readBundledDatabase : Option Database :=
  match platform.bundledText with
  | none => none
  | some json => parseDatabase platform json .bundledSnapshot

def loadDatabase (io : Io) (s : State) : Option Database × State :=
  match s.cachedDatabase with
  | some database => (some database, s)
  | none =>
      let database := (readLocalDatabase platform io s).or (readBundledDatabase platform)
      (database, { s with cachedDatabase := database })

-- The status itself is left out; computing it may load the database.
def statusForGame (io : Io) (s : State) : State := (loadDatabase platform io s).2

def backupCustomConfig (io : Io) (titleId : TitleId) (existing : Text) (files : Files) :
    Files × Bool :=
  let name := backupName titleId io.currentTimeMillis
  if (files name).isSome then (files, false)
  else writeText io.copied name existing files

-- The part of applyRecommendedConfig inside runCatching.
def writeManagedConfig (io : Io) (titleId : TitleId) (body : Text) (replaceCustomConfig : Bool)
    (s : State) : State :=
  match s.files (configName titleId) with
  | none => { s with files := (writeText io.written (configName titleId) body s.files).1 }
  | some existing =>
      if io.readable = false then s
      else if isManaged existing = false then
        if replaceCustomConfig = false then s
        else
          let (files, copied) := backupCustomConfig io titleId existing s.files
          if copied = false then { s with files := files }
          else
            let (files, written) := writeText io.written (configName titleId) body files
            if written = false then { s with files := files }
            else
              { s with
                files := files
                disabled := fun other => if other = titleId then false else s.disabled other }
      else if existing = body then s
      else { s with files := (writeText io.written (configName titleId) body s.files).1 }

def applyRecommendedConfig (io : Io) (title : Option TitleId) (replaceCustomConfig : Bool)
    (s : State) : State :=
  match title with
  | none => statusForGame platform io s
  | some titleId =>
      match loadDatabase platform io s with
      | (none, s) => statusForGame platform io s
      | (some database, s) =>
          match database.profiles.lookup titleId.text with
          | none => statusForGame platform io s
          | some config =>
              if s.disabled titleId then statusForGame platform io s
              else if io.rootReady = false then statusForGame platform io s
              else
                let body := buildManagedConfig platform titleId database.timestamp config
                statusForGame platform io
                  (writeManagedConfig io titleId body replaceCustomConfig s)

def removeManagedConfig (io : Io) (titleId : TitleId) (s : State) : State :=
  if io.rootReady = false then s
  else
    match s.files (configName titleId) with
    | none => s
    | some existing =>
        if io.readable ∧ isManaged existing ∧ io.deleted then
          { s with files := setFile s.files (configName titleId) none }
        else s

def setRecommendedSettingsEnabled (io : Io) (title : Option TitleId) (enabled : Bool)
    (s : State) : State :=
  match title with
  | none => statusForGame platform io s
  | some titleId =>
      let s := { s with
        disabled := fun other => if other = titleId then !enabled else s.disabled other }
      let s :=
        if enabled then applyRecommendedConfig platform io title false s
        else removeManagedConfig io titleId s
      statusForGame platform io s

def setLocalDatabase (io : Io) (text : Text) (s : State) : State × Bool :=
  let store (content : Text) : State :=
    { s with localDatabase := fun rootReady =>
        if rootReady = io.rootReady then some content else s.localDatabase rootReady }
  match io.written with
  | .done => (store text, true)
  | .notOpened => (s, false)
  | .cutOff length => (store (text.take length), false)

def ensureDatabaseExported (io : Io) (s : State) : State :=
  match platform.bundledText, readBundledDatabase platform with
  | some bundledText, some bundled =>
      let stale : Bool :=
        match readLocalDatabase platform io s with
        | none => true
        | some database => database.timestamp < bundled.timestamp
      if stale then
        let (s, written) := setLocalDatabase io bundledText s
        if written then { s with cachedDatabase := none } else s
      else s
  | _, _ => s

-- What the server answers.
inductive Response where
  | failed
  | unsuccessful
  | body (text : Text)
deriving DecidableEq, Repr

def refreshLocalCache (io : Io) (response : Response) (s : State) : State :=
  let (before, s) := loadDatabase platform io s
  match response with
  | .failed => statusForGame platform io s
  | .unsuccessful => s
  | .body text =>
      match parseDatabase platform text .localCache with
      | none => statusForGame platform io s
      | some remote =>
          let newer : Bool :=
            match before with
            | none => false
            | some database =>
                database.source = .localCache ∧ remote.timestamp < database.timestamp
          if newer then s
          else
            let (s, written) := setLocalDatabase io text s
            if written then { s with cachedDatabase := some remote }
            else statusForGame platform io s

inductive Call where
  | setRecommendedSettingsEnabled (title : Option TitleId) (enabled : Bool)
  | applyRecommendedConfig (title : Option TitleId)
  | replaceCustomWithRecommendedConfig (title : Option TitleId)
  | refreshLocalCache (response : Response)
  | ensureDatabaseExported
  -- The user writes the config file of a title.
  | userEdit (titleId : TitleId) (text : Text)
deriving DecidableEq

def step (s : State) : Call × Io → State
  | (.setRecommendedSettingsEnabled title enabled, io) =>
      setRecommendedSettingsEnabled platform io title enabled s
  | (.applyRecommendedConfig title, io) => applyRecommendedConfig platform io title false s
  | (.replaceCustomWithRecommendedConfig title, io) =>
      applyRecommendedConfig platform io title true s
  | (.refreshLocalCache response, io) => refreshLocalCache platform io response s
  | (.ensureDatabaseExported, io) => ensureDatabaseExported platform io s
  | (.userEdit titleId text, _) =>
      { s with files := setFile s.files (configName titleId) (some text) }

def run (calls : List (Call × Io)) (s : State) : State := calls.foldl (step platform) s

end Rpcsx.GameSettings
