import Scriptlet.Decimal.Shortest

/-!
# The text of a number

Numbers are written with the fewest digits that read back. `Layout` holds the choices of the format:
where positional writing ends and how an exponent looks. Numbers of the language and of JSON files
share the layout `Number.layout`.

## Main definitions

* `Layout`, `Number.layout` — the choices of the format
* `Number.inspect` — the exact text of a number, which keeps `.0` on whole numbers
* `Number.display` — the text that a program prints, without it
* `Number.read?` — reads a text written by `Number.inspect`
-/

namespace Scriptlet

/-- How a decimal is laid out as text. -/
structure Layout where
  /-- The least exponent of a leading digit that is written positionally. -/
  positionalFrom : Int
  /-- The exponent of a leading digit from which on an exponent is written. -/
  positionalBelow : Int
  /-- The least number of digits of a written exponent. -/
  exponentWidth : Nat

/-- The decimal digits of a natural number. -/
def natText (n : Nat) : String := String.ofList (Nat.toDigits 10 n)

/-- An integer in decimal, with a minus sign if it is negative. -/
def intText (n : Int) : String :=
  if n < 0 then "-" ++ natText n.natAbs else natText n.natAbs

/-- The text `digits` with the point after the first `n` digits, zeros filled in on either side;
at least one digit follows the point. -/
def pointed (digits : List Char) (n : Int) : List Char :=
  if n ≤ 0 then
    ['0', '.'] ++ List.replicate n.natAbs '0' ++ digits
  else
    let whole := digits.take n.toNat ++ List.replicate (n.toNat - digits.length) '0'
    let fraction := digits.drop n.toNat
    whole ++ '.' :: if fraction.isEmpty then ['0'] else fraction

/-- The exponent part: mark, sign, and at least `width` digits. -/
def exponentText (width : Nat) (e : Int) : List Char :=
  let digits := Nat.toDigits 10 e.natAbs
  'e' :: (if e < 0 then '-' else '+') :: (List.replicate (width - digits.length) '0' ++ digits)

/-- A decimal laid out positionally or with an exponent. -/
def Layout.write (l : Layout) (d : Decimal) : List Char :=
  let digits := Nat.toDigits 10 d.digits
  let lead : Int := d.exponent + digits.length - 1
  if l.positionalFrom ≤ lead ∧ lead < l.positionalBelow then
    pointed digits (lead + 1)
  else
    match digits with
    | [] => exponentText l.exponentWidth lead
    | [c] => c :: exponentText l.exponentWidth lead
    | c :: rest => c :: '.' :: rest ++ exponentText l.exponentWidth lead

namespace Number

/-- Positional from `0.0001` to below `10 ^ 16`; exponents have a sign and two digits. -/
def layout : Layout where
  positionalFrom := -4
  positionalBelow := 16
  exponentWidth := 2

/-- The text of a float that reads back as the same float; whole numbers keep `.0`. -/
def inspect (x : Float) : String :=
  if x.isNaN then "nan"
  else
    let sign := if isNegative x then "-" else ""
    if x.isInf then sign ++ "inf"
    else sign ++ String.ofList (layout.write (Binary.ofFloat x).shortest)

/-- The text of a float without the `.0` of a whole number. -/
def display (x : Float) : String :=
  let text := inspect x
  if text.endsWith ".0" then String.ofList (text.toList.take (text.length - 2)) else text

/-- The value of a run of decimal digits. -/
def readDigits (cs : List Char) : Nat :=
  cs.foldl (fun n c => 10 * n + (c.toNat - '0'.toNat)) 0

/-- The decimal with the given digits before and after the point, times a power of ten. -/
def decimalOf (whole fraction : List Char) (exponent : Int) : Decimal where
  digits := readDigits (whole ++ fraction)
  exponent := exponent - fraction.length

/-- Splits a run of ASCII digits off the front. -/
def spanDigits (cs : List Char) : List Char × List Char :=
  (cs.takeWhile Char.isDigit, cs.dropWhile Char.isDigit)

/-- Splits a fraction off the front: a point with at least one digit after it. -/
def spanFraction : List Char → List Char × List Char
  | '.' :: c :: rest =>
    if c.isDigit then spanDigits (c :: rest) else ([], '.' :: c :: rest)
  | cs => ([], cs)

/-- Splits an exponent off the front: a mark, an optional sign and at least one digit. -/
def spanExponent (cs : List Char) : Option Int × List Char :=
  match cs with
  | mark :: rest =>
    if mark == 'e' || mark == 'E' then
      let (negative, digits) := match rest with
        | '-' :: ds => (true, ds)
        | '+' :: ds => (false, ds)
        | ds => (false, ds)
      let (run, after) := spanDigits digits
      if run.isEmpty then (none, cs)
      else
        let n : Int := readDigits run
        (some (if negative then -n else n), after)
    else (none, cs)
  | [] => (none, [])

/-- The value of a run of digits with an optional fraction, as it stands in a program. -/
def ofDigits (cs : List Char) : Float :=
  let (whole, rest) := spanDigits cs
  (decimalOf whole (spanFraction rest).1 0).toFloat false

/-- Reads a magnitude: digits with an optional fraction and exponent, or one of the two words. -/
def readMagnitude? (negative : Bool) (cs : List Char) : Option Float :=
  if cs == "inf".toList then some (if negative then -infinity else infinity)
  else if cs == "nan".toList then some notANumber
  else
    let (whole, rest) := spanDigits cs
    let (fraction, rest) := spanFraction rest
    let (exponent, rest) := spanExponent rest
    if whole.isEmpty || !rest.isEmpty then none
    else some ((decimalOf whole fraction (exponent.getD 0)).toFloat negative)

/-- Reads a text that `inspect` writes. -/
def read? (text : String) : Option Float :=
  match text.toList with
  | '-' :: cs => readMagnitude? true cs
  | cs => readMagnitude? false cs

end Number

end Scriptlet
