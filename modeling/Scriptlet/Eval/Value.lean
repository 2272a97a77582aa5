import Scriptlet.Tree.Inspect

/-!
# Values

What an expression evaluates to: a tree, a function declared by the program, or a native function.
The ordinary values are the atoms `null` (nil), booleans, floats (numbers) and texts; any other tree
can only come from a literal of a file, and is passed around as it is.

## Main definitions

* `Native`, `Closure`, `Value` — functions and values
* `Value.isTruthy`, `Value.isEqual` — conditions and equality
* `Value.typeName`, `Value.display` — the texts that programs see
-/

namespace Scriptlet

/-- The functions that every program finds defined. -/
inductive Native
  | clock | stepBattle | length | concat
  deriving DecidableEq

namespace Native

/-- All native functions, in the order in which they are defined. -/
def all : List Native := [clock, stepBattle, length, concat]

/-- The name under which a native function is defined. -/
def name : Native → String
  | clock => "clock"
  | stepBattle => "stepBattle"
  | length => "length"
  | concat => "concat"

/-- The number of arguments of a native function. -/
def arity : Native → Nat
  | clock => 0
  | stepBattle => 0
  | length => 1
  | concat => 2

/-- The text of a native function. -/
def display (n : Native) : String := "<native fn " ++ n.name ++ ">"

end Native

/-- A declared function together with the scope it was declared in. -/
structure Closure where
  /-- Tells apart the functions that one declaration makes. -/
  id : Nat
  name : Token
  params : Tree
  body : Tree
  scope : Nat

/-- What an expression evaluates to. -/
inductive Value
  | tree (t : Tree)
  | closure (c : Closure)
  | native (n : Native)

namespace Value

/-- The value of what has none. -/
abbrev nil : Value := .tree .null

/-- A boolean value. -/
abbrev bool (b : Bool) : Value := .tree (.atom (.bool b))

/-- A number. -/
abbrev number (x : Float) : Value := .tree (.atom (.float x))

/-- A text. -/
abbrev text (s : String) : Value := .tree (.atom (.text s))

/-- Everything but nil and false counts as true. -/
def isTruthy : Value → Bool
  | tree (.atom .null) => false
  | tree (.atom (.bool b)) => b
  | _ => true

/-- The number that a value is. -/
def number? : Value → Option Float
  | tree (.atom a) => a.float?
  | _ => none

/-- The text that a value is. -/
def text? : Value → Option String
  | tree (.atom (.text s)) => some s
  | _ => none

/-- Whether two values that are not both numbers are equal: trees if they are of one type and the
same, functions only to themselves. -/
def isSame : Value → Value → Bool
  | tree s, tree t => s.label == t.label && s.same t
  | closure c, closure c' => c.id == c'.id
  | native n, native n' => n == n'
  | _, _ => false

/-- Equality without conversion: values of different types differ, and numbers are compared as
floats, so that a NaN on its own is not equal even to itself. -/
def isEqual (a b : Value) : Bool :=
  match a.number?, b.number? with
  | some x, some y => x == y
  | _, _ => a.isSame b

/-- The name of a value's type. -/
def typeName : Value → String
  | tree (.atom .null) => "nil"
  | tree (.atom (.bool _)) => "boolean"
  | tree (.atom (.float _)) => "number"
  | tree (.atom (.nan _)) => "number"
  | tree (.atom (.text _)) => "string"
  | tree t => t.label
  | closure _ => "function"
  | native _ => "function"

/-- The text that printing a value shows. -/
def display : Value → String
  | tree (.atom .null) => "nil"
  | tree (.atom (.bool true)) => "true"
  | tree (.atom (.bool false)) => "false"
  | tree (.atom (.float x)) => Number.display x
  | tree (.atom (.text s)) => s
  | tree (.token t) => t.describe
  | tree t => t.inspect
  | closure c => "<fn " ++ c.name.text ++ ">"
  | native n => n.display

end Value

end Scriptlet
