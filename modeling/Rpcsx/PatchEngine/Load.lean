import Rpcsx.PatchEngine.Versions

namespace Rpcsx.PatchEngine

open Data Yaml

namespace PatchKey

def all : Text := "All".toList
def anchors : Text := "Anchors".toList
def author : Text := "Author".toList
def games : Text := "Games".toList
def group : Text := "Group".toList
def notes : Text := "Notes".toList
def patch : Text := "Patch".toList
def patchVersion : Text := "Patch Version".toList
def version : Text := "Version".toList
def configValues : Text := "Configurable Values".toList
def value : Text := "Value".toList
def type : Text := "Type".toList
def min : Text := "Min".toList
def max : Text := "Max".toList
def allowedValues : Text := "Allowed Values".toList

end PatchKey

def patchEngineVersion : Text := "1.2".toList

structure PatchContainer where
  patchInfoMap : Table PatchInfo := ∅
  hash : Text := []
  version : Text := []

abbrev PatchMap : Type := Table PatchContainer

namespace PatchMap

def patch (patches : PatchMap) (hash description : Text) : Option PatchInfo :=
  (patches.lookup hash).bind fun container => container.patchInfoMap.lookup description

end PatchMap

-- Conversion to doubles and their comparisons, on their bits.
structure Doubles where
  ofInt : Int → Nat
  lt : Nat → Nat → Bool
  le : Nat → Nat → Bool
  eq : Nat → Nat → Bool

-- What is read, and whether all of it was valid.
abbrev Checked (α : Type) : Type := Bool × α

def skipped {α : Type} (others : Checked α) : Checked α := (false, others.2)

def also {α : Type} (valid : Bool) (others : Checked α) : Checked α := (valid && others.1, others.2)

section Games

-- The expression [0-9]{2}\.[0-9]{2}
def isAppVersion : Text → Bool
  | [a, b, '.', c, d] => a.isDigit && b.isDigit && c.isDigit && d.isDigit
  | _ => false

def isSerial (serial : Text) : Bool := serial.length = 9 && serial.all Char.isAlphanum

def readAppVersions (config : Text → AppConfig) : List Node → AppVersions → Checked AppVersions
  | [], versions => (true, versions)
  | node :: rest, versions =>
      let appVersion := node.scalarText
      if appVersion ≠ PatchKey.all ∧ ¬isAppVersion appVersion then
        skipped (readAppVersions config rest versions)
      else if (versions.lookup appVersion).isSome then
        skipped (readAppVersions config rest versions)
      else readAppVersions config rest (versions.insert appVersion (config appVersion))

def readSerials (title : Text) (config : Text → Text → AppConfig) :
    List (Node × Node) → Titles → Checked Titles
  | [], titles => (true, titles)
  | (key, node) :: rest, titles =>
      let serial := key.scalarText
      if serial = [] then skipped (readSerials title config rest titles)
      else if serial = PatchKey.all ∧ title ≠ PatchKey.all then
        skipped (readSerials title config rest titles)
      else if serial ≠ PatchKey.all ∧ (title = PatchKey.all ∨ ¬isSerial serial) then
        skipped (readSerials title config rest titles)
      else
        match node with
        | .sequence items =>
            let versions := readAppVersions (config serial) items ∅
            if versions.2.entries.isEmpty then skipped (readSerials title config rest titles)
            else
              let serials := (titles.lookup title).getD ∅
              also versions.1 (readSerials title config rest
                (titles.insert title (serials.insert serial versions.2)))
        | _ => skipped (readSerials title config rest titles)

def readGames (config : Text → Text → Text → AppConfig) :
    List (Node × Node) → Titles → Checked Titles
  | [], titles => (true, titles)
  | (key, node) :: rest, titles =>
      let title := key.scalarText
      if title = [] then skipped (readGames config rest titles)
      else
        match node with
        | .map serials =>
            let result := readSerials title (config title) serials titles
            also result.1 (readGames config rest result.2)
        | _ => skipped (readGames config rest titles)

end Games

def readNotes : List Node → Text → Checked Text
  | [], notes => (true, notes)
  | .scalar text :: rest, notes => readNotes rest (notes ++ text)
  | _ :: rest, notes => skipped (readNotes rest notes)

section ConfigValues

variable (yaml : YamlCpp) (doubles : Doubles)

def configurableType (text : Text) : Option ConfigurableType :=
  if text = "double_range".toList then some .doubleRange
  else if text = "double_enum".toList then some .doubleEnum
  else if text = "long_range".toList then some .longRange
  else if text = "long_enum".toList then some .longEnum
  else none

-- get_and_check_config_value: a failed conversion leaves zero.
def configNumber (type : ConfigurableType) (text : Text) : Checked Nat :=
  let number :=
    match type with
    | .doubleRange | .doubleEnum => yaml.real 64 text
    | .longRange | .longEnum => (yaml.signed 64 text).map doubles.ofInt
  (number.isSome, number.getD 0)

def configField (type : ConfigurableType) (node : Node) (old : Nat) : Checked Nat :=
  match node with
  | .scalar text => configNumber yaml doubles type text
  | _ => (false, old)

def readAllowedValues (type : ConfigurableType) :
    List (Node × Node) → List AllowedValue → Checked (List AllowedValue)
  | [], values => (true, values)
  | (key, .scalar text) :: rest, values =>
      let number := configNumber yaml doubles type text
      if values.any fun other => doubles.eq number.2 other.value || key.scalarText == other.label then
        skipped (readAllowedValues type rest values)
      else
        also number.1 (readAllowedValues type rest (values ++ [⟨key.scalarText, number.2⟩]))
  | _ :: rest, values => skipped (readAllowedValues type rest values)

def readConfigValue (node : Node) (config : ConfigValue) : Checked ConfigValue :=
  match node.get PatchKey.type with
  | .scalar typeText =>
      match configurableType typeText with
      | none => (false, config)
      | some type =>
          let value := configField yaml doubles type (node.get PatchKey.value) config.value
          match type with
          | .doubleRange | .longRange =>
              let min := configField yaml doubles type (node.get PatchKey.min) config.min
              let max := configField yaml doubles type (node.get PatchKey.max) config.max
              (value.1 && min.1 && max.1 && !doubles.le max.2 min.2 &&
                  !(doubles.lt value.2 min.2 || doubles.lt max.2 value.2),
                { config with type, value := value.2, min := min.2, max := max.2 })
          | .doubleEnum | .longEnum =>
              match node.get PatchKey.allowedValues with
              | .map entries =>
                  let allowed := readAllowedValues yaml doubles type entries []
                  (value.1 && allowed.1 && decide (2 ≤ allowed.2.length) &&
                      allowed.2.any (fun other => doubles.eq other.value value.2),
                    { config with type, value := value.2, allowedValues := allowed.2 })
              | _ => (false, { config with type, value := value.2 })
  | _ => (false, config)

def setConfigValue (key : Text) (value : ConfigValue) (config : ConfigValues) : ConfigValues :=
  if config.any (·.1 = key) then
    config.map fun entry => if entry.1 = key then (key, value) else entry
  else config ++ [(key, value)]

def readConfigValues : List (Node × Node) → ConfigValues → Checked ConfigValues
  | [], config => (true, config)
  | (key, node) :: rest, config =>
      if node.isMap then
        let old := ((config.find? (·.1 = key.scalarText)).map Prod.snd).getD {}
        let result := readConfigValue yaml doubles node old
        also result.1 (readConfigValues rest (setConfigValue key.scalarText result.2 config))
      else skipped (readConfigValues rest config)

end ConfigValues

section Load

-- config is patch_config.yml by hash, description, title, serial and version of the application.
variable (yaml : YamlCpp) (toInteger : Nat → Nat → Nat) (doubles : Doubles)
  (config : Text → Text → Text → Text → Text → AppConfig)

-- Games that are no map make the loop go on to the next patch.
def readPatch (path hash version description : Text) (node : Node) : Option (Checked PatchInfo) :=
  let games : Option (Checked Titles) :=
    match node.get PatchKey.games with
    | .undefined => some (true, ∅)
    | .map titles => some (readGames (config hash description) titles ∅)
    | _ => none
  games.map fun games =>
    let notes : Checked Text :=
      match node.get PatchKey.notes with
      | .sequence items => readNotes items []
      | notes => (true, notes.scalarText)
    let configValues : Checked ConfigValues :=
      match node.get PatchKey.configValues with
      | .undefined => (true, [])
      | .map [] => (false, [])
      | .map entries => readConfigValues yaml doubles entries []
      | _ => (false, [])
    let info : PatchInfo :=
      { titles := games.2
        description
        patchVersion := (node.get PatchKey.patchVersion).scalarText
        patchGroup := (node.get PatchKey.group).scalarText
        author := (node.get PatchKey.author).scalarText
        notes := notes.2
        sourcePath := path
        defaultConfigValues := configValues.2
        hash
        version }
    let data : Checked PatchInfo :=
      if (node.get PatchKey.patch).isDefined then
        readPatchNode yaml toInteger info (node.get PatchKey.patch)
      else (true, info)
    (games.1 && notes.1 && configValues.1 && data.1, data.2)

-- "Skip this patch if a higher patch version already exists"
def insertPatch (patches : PatchMap) (hash description : Text) (info : PatchInfo) : PatchMap :=
  let container := (patches.lookup hash).getD {}
  let inserted := patches.insert hash
    { container with patchInfoMap := container.patchInfoMap.insert description info }
  match container.patchInfoMap.lookup description with
  | some existing =>
      let compared := compareVersions info.patchVersion existing.patchVersion
      if ¬compared.2 ∨ ¬compared.1 > 0 then patches else inserted
  | none => inserted

def loadPatches (path hash version : Text) : List (Node × Node) → PatchMap → Checked PatchMap
  | [], patches => (true, patches)
  | (key, node) :: rest, patches =>
      let description := key.scalarText
      if description = [] then skipped (loadPatches path hash version rest patches)
      else if node.isMap then
        match readPatch yaml toInteger doubles config path hash version description node with
        | none => skipped (loadPatches path hash version rest patches)
        | some info =>
            also info.1 (loadPatches path hash version rest
              (insertPatch patches hash description info.2))
      else skipped (loadPatches path hash version rest patches)

-- "Find or create an entry matching the key/hash in our map"
def openContainer (patches : PatchMap) (hash version : Text) : PatchMap :=
  patches.insert hash { (patches.lookup hash).getD {} with hash, version }

def loadKeys (path version : Text) : List (Node × Node) → PatchMap → Checked PatchMap
  | [], patches => (true, patches)
  | (key, node) :: rest, patches =>
      let mainKey := key.scalarText
      if mainKey = [] then skipped (loadKeys path version rest patches)
      else
        match node with
        | .map entries =>
            if mainKey = PatchKey.anchors then loadKeys path version rest patches
            else
              let result := loadPatches yaml toInteger doubles config path mainKey version entries
                (openContainer patches mainKey version)
              also result.1 (loadKeys path version rest result.2)
        | _ => skipped (loadKeys path version rest patches)

end Load

structure Environment where
  yaml : YamlCpp
  toInteger : Nat → Nat → Nat
  doubles : Doubles
  files : Text → Option Text
  config : Text → Text → Text → Text → Text → AppConfig

-- A file that is not there leaves the map as it is.
def load (env : Environment) (patches : PatchMap) (path content : Text) (importing : Bool) :
    Checked PatchMap :=
  match (if content = [] then env.files path else some content) with
  | none => (true, patches)
  | some content =>
      match env.yaml.load content with
      | none => (false, patches)
      | some root =>
          if root.isDefined ∧ (root.get PatchKey.version).isDefined ∧
              (root.get PatchKey.version).scalarText = patchEngineVersion then
            match root with
            | .map entries =>
                loadKeys env.yaml env.toInteger env.doubles
                  (if importing then fun _ _ _ _ _ => {} else env.config) path patchEngineVersion
                  (entries.eraseP fun entry => entry.1.scalarText = PatchKey.version) patches
            | _ => (false, patches)
          else (false, patches)

end Rpcsx.PatchEngine
