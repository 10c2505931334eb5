import Bitpack.Text

/-!
JSON values and their two printed forms: in one line, or with one item to a line and two spaces for
each level.
-/
namespace Bitpack

/-- A number keeps its literal, and a string that holds half of a surrogate pair has no text. -/
inductive Json where
  | null
  | boolean (value : Bool)
  | number (literal : List Char)
  | text (content : Option (List Char))
  | list (items : List Json)
  | object (members : List (Option (List Char) × Json))

namespace Json

def ofNat (n : Nat) : Json :=
  number (Text.digits n)

def ofString (s : String) : Json :=
  text (some s.toList)

def ofMembers (members : List (String × Json)) : Json :=
  object (members.map fun (key, value) => (some key.toList, value))

def hexDigits (code : Nat) : List Char :=
  [code / 16 % 16, code % 16].map Nat.digitChar

def escaped (c : Char) : List Char :=
  if c = '\x22' then ['\\', '\x22']
  else if c = '\\' then ['\\', '\\']
  else if c = '\n' then ['\\', 'n']
  else if c = '\r' then ['\\', 'r']
  else if c = '\t' then ['\\', 't']
  else if c = '\x08' then ['\\', 'b']
  else if c = '\x0c' then ['\\', 'f']
  else if c.toNat < 0x20 then ['\\', 'u', '0', '0'] ++ hexDigits c.toNat
  else [c]

def quoted (content : Option (List Char)) : List Char :=
  '\x22' :: (content.getD []).flatMap escaped ++ ['\x22']

def booleanText (value : Bool) : List Char :=
  if value then "true".toList else "false".toList

mutual

def compact : Json → List Char
  | null => "null".toList
  | boolean value => booleanText value
  | number literal => literal
  | text content => quoted content
  | list items => '[' :: compactItems items ++ [']']
  | object members => '\x7b' :: compactMembers members ++ ['\x7d']

def compactItems : List Json → List Char
  | [] => []
  | item :: [] => item.compact
  | item :: rest => item.compact ++ ',' :: compactItems rest

def compactMembers : List (Option (List Char) × Json) → List Char
  | [] => []
  | (key, value) :: [] => quoted key ++ ':' :: value.compact
  | (key, value) :: rest => quoted key ++ ':' :: value.compact ++ ',' :: compactMembers rest

end

def indent (level : Nat) : List Char :=
  '\n' :: List.replicate (2 * level) ' '

mutual

/-- The value at a level; an empty list or object stays on its line. -/
def pretty (level : Nat) : Json → List Char
  | null => "null".toList
  | boolean value => booleanText value
  | number literal => literal
  | text content => quoted content
  | list [] => "[]".toList
  | list items => '[' :: prettyItems (level + 1) items ++ indent level ++ [']']
  | object [] => "\x7b\x7d".toList
  | object members => '\x7b' :: prettyMembers (level + 1) members ++ indent level ++ ['\x7d']

def prettyItems (level : Nat) : List Json → List Char
  | [] => []
  | item :: [] => indent level ++ item.pretty level
  | item :: rest => indent level ++ item.pretty level ++ ',' :: prettyItems level rest

def prettyMembers (level : Nat) : List (Option (List Char) × Json) → List Char
  | [] => []
  | (key, value) :: [] => indent level ++ quoted key ++ ':' :: ' ' :: value.pretty level
  | (key, value) :: rest =>
    indent level ++ quoted key ++ ':' :: ' ' :: value.pretty level ++ ',' ::
      prettyMembers level rest

end

end Json

end Bitpack
