import Scriptlet.Json.Basic

/-!
# Reading JSON text

The reader accepts JSON with three additions: `NaN`, `Infinity` and `-Infinity` are numbers, and all
the NaNs of a text are one, with mark zero. A number with neither fraction nor exponent is an
integer, every other number a float. Where a key occurs twice the last value counts, at the place of
the first. Control characters must be escaped inside strings, and an integer may have at most
`longestInteger` digits. Nesting is bounded by the length of the text, so that the recursion always
ends.

## Main definitions

* `Json.parse?` — the value that a text holds
-/

namespace Scriptlet.Json

/-- The most digits that an integer may have. -/
def longestInteger : Nat := 4300

/-- White space between the parts of a JSON text. -/
def isGap (c : Char) : Bool := c == ' ' || c == '\t' || c == '\n' || c == '\r'

/-- The text after leading white space. -/
def skipGap (cs : List Char) : List Char := cs.dropWhile isGap

/-- The rest of `cs` behind the word, if it starts with it. -/
def dropWord? : List Char → List Char → Option (List Char)
  | [], cs => some cs
  | w :: ws, c :: cs => if w == c then dropWord? ws cs else none
  | _ :: _, [] => none

/-- The value of a hexadecimal digit. -/
def hexValue? (c : Char) : Option Nat :=
  if '0' ≤ c ∧ c ≤ '9' then some (c.toNat - 48)
  else if 'a' ≤ c ∧ c ≤ 'f' then some (c.toNat - 87)
  else if 'A' ≤ c ∧ c ≤ 'F' then some (c.toNat - 55)
  else none

/-- Four hexadecimal digits as a number. -/
def unit? : List Char → Option (Nat × List Char)
  | a :: b :: c :: d :: rest => do
    let a ← hexValue? a
    let b ← hexValue? b
    let c ← hexValue? c
    let d ← hexValue? d
    return (((a * 16 + b) * 16 + c) * 16 + d, rest)
  | _ => none

/-- Whether a code unit opens a pair. -/
def opensPair (n : Nat) : Bool := 0xd800 ≤ n && n < 0xdc00

/-- Whether a code unit closes a pair. -/
def closesPair (n : Nat) : Bool := 0xdc00 ≤ n && n < 0xe000

/-- The character of a code unit that stands alone. Texts are made of characters, so that half of a
pair, which is none, becomes U+FFFD. -/
def loneUnit (n : Nat) : Char :=
  if opensPair n || closesPair n then Char.ofNat 0xfffd else Char.ofNat n

/-- The character of an escape by code units, after its `\u`. -/
def escapedUnit? (cs : List Char) : Option (Char × List Char) :=
  match unit? cs with
  | none => none
  | some (hi, rest) =>
    if opensPair hi then
      match (dropWord? ['\\', 'u'] rest).bind unit? with
      | some (lo, after) =>
        if closesPair lo then
          some (Char.ofNat (0x10000 + (hi - 0xd800) * 0x400 + (lo - 0xdc00)), after)
        else some (loneUnit hi, rest)
      | none => some (loneUnit hi, rest)
    else some (loneUnit hi, rest)

/-- The character of an escape, after its backslash. -/
def escaped? : List Char → Option (Char × List Char)
  | '"' :: cs => some ('"', cs)
  | '\\' :: cs => some ('\\', cs)
  | '/' :: cs => some ('/', cs)
  | 'b' :: cs => some ('\x08', cs)
  | 'f' :: cs => some ('\x0c', cs)
  | 'n' :: cs => some ('\n', cs)
  | 'r' :: cs => some ('\r', cs)
  | 't' :: cs => some ('\t', cs)
  | 'u' :: cs => escapedUnit? cs
  | _ => none

/-- The characters of a string up to its closing quote, newest first, and the text behind it. -/
def stringBody? : Nat → List Char → List Char → Option (List Char × List Char)
  | 0, _, _ => none
  | n + 1, acc, cs =>
    match cs with
    | [] => none
    | '"' :: rest => some (acc, rest)
    | '\\' :: rest =>
      match escaped? rest with
      | some (c, after) => stringBody? n (c :: acc) after
      | none => none
    | c :: rest => if c.toNat < 0x20 then none else stringBody? n (c :: acc) rest

/-- A string after its opening quote. -/
def string? (cs : List Char) : Option (String × List Char) :=
  (stringBody? (cs.length + 1) [] cs).map fun (acc, rest) => (String.ofList acc.reverse, rest)

/-- The digits before the point: a zero alone, or a run that starts with another digit. -/
def wholePart? : List Char → Option (List Char × List Char)
  | '0' :: rest => some (['0'], rest)
  | cs => if (Number.spanDigits cs).1.isEmpty then none else some (Number.spanDigits cs)

/-- A number without its sign. -/
def magnitude? (negative : Bool) (cs : List Char) : Option (Atom × List Char) :=
  match wholePart? cs with
  | none => none
  | some (whole, rest) =>
    let (fraction, rest) := Number.spanFraction rest
    let (exponent, rest) := Number.spanExponent rest
    if fraction.isEmpty && exponent.isNone then
      if whole.length ≤ longestInteger then
        let n : Int := Number.readDigits whole
        some (.int (if negative then -n else n), rest)
      else none
    else
      let d := Number.decimalOf whole fraction (exponent.getD 0)
      some (.float (d.toFloat negative), rest)

/-- The words that are values of their own. -/
def words : List (String × Atom) :=
  [("null", .null), ("true", .bool true), ("false", .bool false), ("NaN", .nan 0),
   ("Infinity", .float Number.infinity), ("-Infinity", .float (-Number.infinity))]

/-- A word at the front of the text. -/
def word? (cs : List Char) : Option (Atom × List Char) :=
  words.findSome? fun (w, a) => (dropWord? w.toList cs).map fun rest => (a, rest)

/-- An atom other than a string. -/
def bareAtom? (cs : List Char) : Option (Atom × List Char) :=
  match word? cs with
  | some found => some found
  | none =>
    match cs with
    | '-' :: rest => magnitude? true rest
    | _ => magnitude? false cs

/-- Adds a field; a key that is present keeps its place and takes the new value. -/
def putField (key : String) (value : Json) : List (String × Json) → List (String × Json)
  | [] => [(key, value)]
  | (k, v) :: rest => if k == key then (k, value) :: rest else (k, v) :: putField key value rest

/-- The fields of an object whose keys are all different, from a list in which they may repeat. -/
def mergeFields (fields : List (String × Json)) : List (String × Json) :=
  fields.foldl (fun acc (k, v) => putField k v acc) []

mutual

/-- A value at the front of the text, after leading white space. -/
def value? : Nat → List Char → Option (Json × List Char)
  | 0, _ => none
  | n + 1, cs =>
    match skipGap cs with
    | '"' :: rest => (string? rest).map fun (s, after) => (.text s, after)
    | '[' :: rest =>
      match skipGap rest with
      | ']' :: after => some (.arr [], after)
      | _ => items? n [] rest
    | '{' :: rest =>
      match skipGap rest with
      | '}' :: after => some (.obj [], after)
      | _ => fields? n [] rest
    | cs => (bareAtom? cs).map fun (a, after) => (.atom a, after)

/-- The items of an array up to its closing bracket; those before are given newest first. -/
def items? : Nat → List Json → List Char → Option (Json × List Char)
  | 0, _, _ => none
  | n + 1, acc, cs =>
    match value? n cs with
    | none => none
    | some (v, rest) =>
      match skipGap rest with
      | ',' :: more => items? n (v :: acc) more
      | ']' :: after => some (.arr (v :: acc).reverse, after)
      | _ => none

/-- The fields of an object up to its closing brace; those before are given newest first. -/
def fields? : Nat → List (String × Json) → List Char → Option (Json × List Char)
  | 0, _, _ => none
  | n + 1, acc, cs =>
    match skipGap cs with
    | '"' :: rest =>
      match string? rest with
      | none => none
      | some (key, rest) =>
        match skipGap rest with
        | ':' :: rest =>
          match value? n rest with
          | none => none
          | some (v, rest) =>
            match skipGap rest with
            | ',' :: more => fields? n ((key, v) :: acc) more
            | '}' :: after => some (.obj (mergeFields ((key, v) :: acc).reverse), after)
            | _ => none
        | _ => none
    | _ => none

end

/-- The value that a text holds, if the text is one JSON value and white space. -/
def parse? (text : String) : Option Json :=
  let cs := text.toList
  match value? (cs.length + 1) cs with
  | some (v, rest) => if (skipGap rest).isEmpty then some v else none
  | none => none

end Scriptlet.Json
