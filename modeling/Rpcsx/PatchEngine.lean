import Rpcsx.Yaml
import Mathlib.Data.List.AList

namespace Rpcsx.PatchEngine

open Data Data.Hex Yaml

inductive PatchType where
  | invalid
  | load
  | alloc
  | codeAlloc
  | jump
  | jumpLink
  | jumpFunc
  | byte
  | le16
  | le32
  | le64
  | lef32
  | lef64
  | be16
  | be32
  | bd32
  | be64
  | bd64
  | bef32
  | bef64
  | bpExec
  | utf8
  | cUtf8
  | moveFile
  | hideFile
  -- A number behind the last enumerator.
  | other (code : Nat)
deriving DecidableEq, Repr

namespace PatchType

-- The enumerators in the order of their values.
def all : List PatchType :=
  [.invalid, .load, .alloc, .codeAlloc, .jump, .jumpLink, .jumpFunc, .byte, .le16, .le32, .le64,
    .lef32, .lef64, .be16, .be32, .bd32, .be64, .bd64, .bef32, .bef64, .bpExec, .utf8, .cUtf8,
    .moveFile, .hideFile]

def hexName (code : Nat) : Text := "0x".toList ++ (hexText code).map Char.toLower

def name : PatchType → Text
  | .invalid => "invalid".toList
  | .alloc => "alloc".toList
  | .codeAlloc => "calloc".toList
  | .jump => "jump".toList
  | .jumpLink => "jumpl".toList
  | .jumpFunc => "jumpf".toList
  | .load => "load".toList
  | .byte => "byte".toList
  | .le16 => "le16".toList
  | .le32 => "le32".toList
  | .le64 => "le64".toList
  | .bef32 => "bef32".toList
  | .bef64 => "bef64".toList
  | .be16 => "be16".toList
  | .be32 => "be32".toList
  | .bd32 => "bd32".toList
  | .be64 => "be64".toList
  | .bd64 => "bd64".toList
  | .lef32 => "lef32".toList
  | .lef64 => "lef64".toList
  | .bpExec => "bpex".toList
  | .utf8 => "utf8".toList
  | .cUtf8 => "cutf8".toList
  | .moveFile => "move_file".toList
  | .hideFile => "hide_file".toList
  | .other code => hexName code

def ofCode (code : Nat) : PatchType := all.getD code (.other code)

def usesHexOffset : PatchType → Bool
  | .invalid | .load | .moveFile | .hideFile | .other _ => false
  | _ => true

end PatchType

-- std::from_chars over the whole text.
def fromChars (base : Nat) (text : Text) : Option Nat :=
  let digit (c : Char) : Option Nat :=
    if isHexDigit c ∧ digitValue c < base then some (digitValue c) else none
  if text = [] then none
  else
    match text.foldl (fun value c => value.bind fun v => (digit c).map (base * v + ·)) (some 0) with
    | some value => if value < 2 ^ 64 then some value else none
    | none => none

-- cfg::try_to_enum_value for the patch types. Behind the last enumerator a hundred numbers
-- are still compared by their hexadecimal names.
def tryToEnumValue (text : Text) : Option PatchType :=
  let codes := (List.range 126).map PatchType.ofCode
  match codes.find? fun type => type.name = text with
  | some type => some type
  | none =>
      let number :=
        match text with
        | '0' :: 'x' :: digits => fromChars 16 digits
        | '0' :: 'X' :: digits => fromChars 16 digits
        | _ => fromChars 10 text
      match number with
      | some code => if code ≤ 24 then some (PatchType.ofCode code) else none
      | none => none

def getPatchType (text : Text) : PatchType := (tryToEnumValue text).getD .invalid

def getPatchTypeNode : Node → PatchType
  | .scalar text => getPatchType text
  | _ => .invalid

structure PatchData where
  type : PatchType
  offset : Nat
  originalOffset : Text
  originalValue : Text
  -- The bits of the value, as an integer or as a floating point number.
  value : Nat
deriving DecidableEq, Repr

inductive ConfigurableType where
  | doubleRange
  | doubleEnum
  | longRange
  | longEnum
deriving DecidableEq, Repr

structure AllowedValue where
  label : Text
  value : Nat
deriving DecidableEq, Repr

-- Values are the bits of a double.
structure ConfigValue where
  value : Nat := 0
  min : Nat := 0
  max : Nat := 0
  type : ConfigurableType := .doubleRange
  allowedValues : List AllowedValue := []
deriving DecidableEq, Repr

abbrev ConfigValues := List (Text × ConfigValue)

-- What the configuration file says of a patch for one version of an application.
structure AppConfig where
  enabled : Bool := false
  configValues : ConfigValues := []
deriving DecidableEq, Repr

-- The hash maps of the engine, in an order of their own.
abbrev Table (β : Type) : Type := AList fun _ : Text => β

abbrev AppVersions : Type := Table AppConfig

abbrev Serials : Type := Table AppVersions

abbrev Titles : Type := Table Serials

structure PatchInfo where
  dataList : List PatchData := []
  titles : Titles := ∅
  description : Text := []
  patchVersion : Text := []
  patchGroup : Text := []
  author : Text := []
  notes : Text := []
  sourcePath : Text := []
  defaultConfigValues : ConfigValues := []
  hash : Text := []
  version : Text := []

-- How the value of an entry is read: by an integer width, by a floating point width, or not.
inductive ValueKind where
  | none
  | integer (width : Nat)
  | real (width : Nat)

def PatchType.valueKind : PatchType → ValueKind
  | .bef32 | .lef32 => .real 32
  | .bef64 | .lef64 => .real 64
  | .byte => .integer 8
  | .le16 | .be16 => .integer 16
  | .le32 | .be32 | .bd32 => .integer 32
  | .alloc | .codeAlloc | .jump | .jumpLink | .le64 | .be64 | .bd64 => .integer 64
  | _ => .none

section

-- toInteger is static_cast of the double of a configurable value to an unsigned width.
variable (yaml : YamlCpp) (toInteger : Nat → Nat → Nat)

-- A number that is not an unsigned one is tried as a signed one.
def readValue (config : Option Nat) (text : Text) : ValueKind → Option Nat
  | .none => some 0
  | .integer width =>
      match config with
      | some bits => some (toInteger width bits)
      | none =>
          match yaml.unsigned width text with
          | some value => some value
          | none => (yaml.signed width text).map fun value => (value % 2 ^ 64).toNat
  | .real width =>
      match config with
      | some bits => some bits
      | none => yaml.real width text

def addEntry (type : PatchType) (addr value : Node) (info : PatchInfo) (modifier : Nat) :
    Bool × PatchInfo :=
  match value with
  | .scalar originalValue =>
      let originalOffset := addr.scalarText
      if type.usesHexOffset ∧ ¬"0x".toList <+: originalOffset then (false, info)
      else
        let address :=
          match addr with
          | .scalar text => yaml.unsigned 32 text
          | _ => none
        let offset := (address.getD 0 + modifier) % 2 ^ 32
        let checked := type ≠ .moveFile ∧ type ≠ .hideFile
        if checked ∧ address = none then (false, info)
        else if checked ∧ 0xffffffff - modifier < offset then (false, info)
        else
          let config := (info.defaultConfigValues.find? (·.1 = originalValue)).map (·.2.value)
          match readValue yaml toInteger config originalValue type.valueKind with
          | some value =>
              (true, { info with dataList := info.dataList ++
                [{ type, offset, originalOffset, originalValue, value }] })
          | none => (false, info)
  | _ => (false, info)

mutual

def addPatchData : Node → PatchInfo → Nat → Bool × PatchInfo
  | .sequence items, info, modifier =>
      let type := getPatchTypeNode (items.getD 0 .undefined)
      if type = .invalid then (false, info)
      else if type = .load then
        match items with
        | _ :: .sequence anchored :: rest =>
            let mod :=
              match rest.getD 0 .undefined with
              | .scalar text => (yaml.unsigned 32 text).getD 0
              | _ => 0
            addAnchored anchored info mod
        | _ => (false, info)
      else addEntry yaml toInteger type (items.getD 1 .undefined) (items.getD 2 .undefined) info modifier
  | _, info, _ => (false, info)

def addAnchored : List Node → PatchInfo → Nat → Bool × PatchInfo
  | [], info, _ => (true, info)
  | node :: rest, info, modifier =>
      let first := addPatchData node info modifier
      let others := addAnchored rest first.2 modifier
      (first.1 && others.1, others.2)

end

def readPatchNode (info : PatchInfo) : Node → Bool × PatchInfo
  | .sequence items => addAnchored yaml toInteger items info 0
  | _ => (false, info)

end

end Rpcsx.PatchEngine
