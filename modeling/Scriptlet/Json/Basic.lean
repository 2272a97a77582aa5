import Scriptlet.Decimal.Number
import Scriptlet.Text.Quoted

/-!
# JSON values

A JSON value is an atom, an array, or an object whose fields keep the order in which they were
written. Integers and floats are told apart: `1` and `1.0` are different atoms. So are the NaNs that
one input holds: each has a mark, since a NaN is the same as itself alone.

## Main definitions

* `Atom` — null, booleans, integers, floats, marked NaNs and texts
* `Json` — JSON values
* `Json.get?` — the value of a field
* `Json.inspect` — the one-line text of a value for messages
-/

namespace Scriptlet

/-- The values without parts. -/
inductive Atom
  | null
  | bool (b : Bool)
  | int (n : Int)
  | float (x : Float)
  /-- A NaN that was read; the mark tells it from the others. -/
  | nan (mark : Nat)
  | text (s : String)
  deriving DecidableEq

/-- JSON values; the fields of an object are kept in order. -/
inductive Json
  | atom (a : Atom)
  | arr (items : List Json)
  | obj (fields : List (String × Json))

instance : Inhabited Json := ⟨.atom .null⟩

namespace Atom

/-- The text of an atom inside a larger value. -/
def inspect : Atom → String
  | null => "None"
  | bool true => "True"
  | bool false => "False"
  | int n => intText n
  | float x => Number.inspect x
  | nan _ => Number.inspect Number.notANumber
  | text s => Text.quoted s

/-- The text of an atom that stands alone: texts without quotes. -/
def plain : Atom → String
  | text s => s
  | a => a.inspect

/-- The float that an atom is. -/
def float? : Atom → Option Float
  | float x => some x
  | nan _ => some Number.notANumber
  | _ => none

end Atom

namespace Json

/-- The null value. -/
abbrev null : Json := .atom .null

/-- An integer value. -/
abbrev int (n : Int) : Json := .atom (.int n)

/-- A text value. -/
abbrev text (s : String) : Json := .atom (.text s)

/-- The value of the first field of the given name. -/
def lookup (key : String) : List (String × Json) → Option Json
  | [] => none
  | (k, v) :: rest => if k == key then some v else lookup key rest

/-- The value of a field of an object. -/
def get? (key : String) : Json → Option Json
  | obj fields => lookup key fields
  | _ => none

mutual

/-- The one-line text of a value. -/
def inspect : Json → String
  | atom a => a.inspect
  | arr items => "[" ++ ", ".intercalate (inspectItems items) ++ "]"
  | obj fields => "\x7b" ++ ", ".intercalate (inspectFields fields) ++ "\x7d"

/-- The texts of the items of an array. -/
def inspectItems : List Json → List String
  | [] => []
  | v :: rest => inspect v :: inspectItems rest

/-- The texts of the fields of an object. -/
def inspectFields : List (String × Json) → List String
  | [] => []
  | (k, v) :: rest => (Text.quoted k ++ ": " ++ inspect v) :: inspectFields rest

end

/-- The text of a value that stands alone: a text is written without quotes. -/
def plain : Json → String
  | atom a => a.plain
  | v => v.inspect

end Json

end Scriptlet
