import Rpcsx.Data.Hex

namespace Rpcsx.Yaml

open Data Data.Hex

-- A node of a loaded document; undefined is what a missing index or key gives.
inductive Node where
  | undefined
  | null
  | scalar (text : Text)
  | sequence (items : List Node)
  | map (entries : List (Node × Node))

namespace Node

-- Node::Scalar is empty for nodes of another kind.
def scalarText : Node → Text
  | scalar text => text
  | _ => []

def isMap : Node → Bool
  | map _ => true
  | _ => false

def isDefined : Node → Bool
  | undefined => false
  | _ => true

-- The value of the first entry with that scalar key.
def get (key : Text) : Node → Node
  | map entries =>
      match entries.find? fun entry => entry.1.scalarText = key with
      | some entry => entry.2
      | none => undefined
  | _ => undefined

end Node

-- The library that loads documents and converts scalars: none is an exception. Numbers of a
-- given width are converted from the text of a scalar, floating point ones to their bits.
structure YamlCpp where
  load : Text → Option Node
  unsigned : Nat → Text → Option Nat
  signed : Nat → Text → Option Int
  real : Nat → Text → Option Nat

def isPlainWord (text : Text) : Prop := text ≠ [] ∧ ∀ c ∈ text, c.isAlphanum = true

def flowSequence (words : List Text) : Text :=
  "[ ".toList ++ ", ".toList.intercalate words ++ " ]".toList

def hexLiteral (digits : Text) : Text := '0' :: 'x' :: digits

structure YamlCpp.Lawful (yaml : YamlCpp) : Prop where
  -- A flow sequence of plain words is a sequence of their scalars.
  load_flow : ∀ words, words ≠ [] → (∀ word ∈ words, isPlainWord word) →
    yaml.load (flowSequence words) = some (.sequence (words.map .scalar))
  -- Hexadecimal numbers convert when they fit the width.
  unsigned_hex : ∀ width text, 16 ≤ width → text ≠ [] → (∀ c ∈ text, isHexDigit c = true) →
    yaml.unsigned width (hexLiteral text) =
      if hexValue text < 2 ^ width then some (hexValue text) else none

end Rpcsx.Yaml
