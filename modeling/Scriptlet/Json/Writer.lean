import Scriptlet.Json.Basic

/-!
# Writing JSON text

Two layouts: one value on one line in ASCII, and one item or field per line, indented by two blanks
for each level, with every character beyond the control characters written as it is. Both write
floats with the shortest digits that read back, and `NaN`, `Infinity` and `-Infinity` as words.

## Main definitions

* `Json.compact` — the one-line layout
* `Json.indented` — the layout of a file
-/

namespace Scriptlet.Json

/-- A float as JSON text. -/
def floatText (x : Float) : String :=
  if x.isNaN then "NaN"
  else if x.isInf then (if Number.isNegative x then "-Infinity" else "Infinity")
  else Number.inspect x

/-- A code unit as an escape. -/
def unitEscape (n : Nat) : List Char := '\\' :: 'u' :: Text.hexDigits 4 n

/-- The escape of a quote, a backslash or a control character. -/
def shortEscape? (c : Char) : Option (List Char) :=
  if c == '"' then some ['\\', '"']
  else if c == '\\' then some ['\\', '\\']
  else if c == '\n' then some ['\\', 'n']
  else if c == '\r' then some ['\\', 'r']
  else if c == '\t' then some ['\\', 't']
  else if c == '\x08' then some ['\\', 'b']
  else if c == '\x0c' then some ['\\', 'f']
  else if c.toNat < 0x20 then some (unitEscape c.toNat)
  else none

/-- A character of a string that keeps characters beyond ASCII. -/
def rawChar (c : Char) : List Char := (shortEscape? c).getD [c]

/-- A character of a string in ASCII: what lies beyond is written in code units. -/
def asciiChar (c : Char) : List Char :=
  match shortEscape? c with
  | some escape => escape
  | none =>
    if c.toNat < 127 then [c]
    else if c.toNat < 0x10000 then unitEscape c.toNat
    else
      unitEscape (0xd800 + (c.toNat - 0x10000) / 0x400) ++
        unitEscape (0xdc00 + (c.toNat - 0x10000) % 0x400)

/-- A string in quotes, each character written by `char`. -/
def stringText (char : Char → List Char) (s : String) : String :=
  String.ofList ('"' :: s.toList.flatMap char ++ ['"'])

/-- An atom as JSON text. -/
def atomText (char : Char → List Char) : Atom → String
  | .null => "null"
  | .bool true => "true"
  | .bool false => "false"
  | .int n => intText n
  | .float x => floatText x
  | .nan _ => floatText Number.notANumber
  | .text s => stringText char s

mutual

/-- A value on one line, in ASCII. -/
def compact : Json → String
  | atom a => atomText asciiChar a
  | arr items => "[" ++ ", ".intercalate (compactItems items) ++ "]"
  | obj fields => "\x7b" ++ ", ".intercalate (compactFields fields) ++ "\x7d"

/-- The items of an array, each on one line. -/
def compactItems : List Json → List String
  | [] => []
  | v :: rest => compact v :: compactItems rest

/-- The fields of an object, each on one line. -/
def compactFields : List (String × Json) → List String
  | [] => []
  | (k, v) :: rest => (stringText asciiChar k ++ ": " ++ compact v) :: compactFields rest

end

/-- The start of a line at the given level. -/
def newLine (level : Nat) : String := String.ofList ('\n' :: List.replicate (2 * level) ' ')

/-- Parts on lines of their own, one level deeper than the brackets around them. -/
def bracketed (opening closing : String) (level : Nat) (parts : List String) : String :=
  if parts.isEmpty then opening ++ closing
  else
    opening ++ newLine (level + 1) ++ ("," ++ newLine (level + 1)).intercalate parts ++
      newLine level ++ closing

mutual

/-- A value with one part per line, at the given level. -/
def indentedAt (level : Nat) : Json → String
  | atom a => atomText rawChar a
  | arr items => bracketed "[" "]" level (indentedItems (level + 1) items)
  | obj fields => bracketed "\x7b" "\x7d" level (indentedFields (level + 1) fields)

/-- The items of an array. -/
def indentedItems (level : Nat) : List Json → List String
  | [] => []
  | v :: rest => indentedAt level v :: indentedItems level rest

/-- The fields of an object. -/
def indentedFields (level : Nat) : List (String × Json) → List String
  | [] => []
  | (k, v) :: rest =>
    (stringText rawChar k ++ ": " ++ indentedAt level v) :: indentedFields level rest

end

/-- A value with one part per line. -/
def indented (v : Json) : String := indentedAt 0 v

end Scriptlet.Json
