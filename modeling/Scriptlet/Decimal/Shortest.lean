import Scriptlet.Decimal.Basic

/-!
# The shortest decimal of a float

Among the decimals that round to a given float, the one with the fewest digits is written; of two
with equally many digits the nearer one, and of two equally near ones the one whose last digit is
even. All comparisons are made in exact integer arithmetic.

The reals that round to `m · 2 ^ q` reach half a gap to both sides; they are measured in quarters of
the unit `2 ^ q`, because the gap below the least mantissa of an exponent is half as wide. The ends
of the interval round to the float exactly when its mantissa is even.

## Main definitions

* `Binary.covers` — whether a decimal rounds to the float
* `Binary.nearestOnGrid?` — the nearest multiple of a power of ten that rounds to the float
* `Binary.shortest` — the shortest decimal
-/

namespace Scriptlet

/-- Compares the decimal `c · 10 ^ k` with `x · 2 ^ p`. -/
def compareScaled (c : Nat) (k : Int) (x : Nat) (p : Int) : Ordering :=
  compare (c * tens k * twos (-p)) (x * twos p * tens (-k))

namespace Binary

/-- The upper end of the interval of reals that round to the float, in quarters of its unit. -/
def upper (b : Binary) : Nat := 4 * b.mantissa + 2

/-- The lower end of the interval of reals that round to the float, in quarters of its unit. -/
def lower (b : Binary) : Nat := 4 * b.mantissa - if b.narrowBelow then 1 else 2

/-- Whether the decimal `c · 10 ^ k` rounds to the float. -/
def covers (b : Binary) (c : Nat) (k : Int) : Bool :=
  let below := compareScaled c k b.lower (b.exponent - 2)
  let above := compareScaled c k b.upper (b.exponent - 2)
  let even := b.mantissa % 2 == 0
  (below == .gt || (below == .eq && even)) && (above == .lt || (above == .eq && even))

/-- The largest multiple of `10 ^ k` that is not above the float, divided by `10 ^ k`. -/
def floorOnGrid (b : Binary) (k : Int) : Nat :=
  b.mantissa * twos b.exponent * tens (-k) / (tens k * twos (-b.exponent))

/-- Of the two multiples of `10 ^ k` around the float, those that round to it; of both, the nearer
one, and on a tie the even one. -/
def nearestOnGrid? (b : Binary) (k : Int) : Option Nat :=
  let lo := b.floorOnGrid k
  match b.covers lo k, b.covers (lo + 1) k with
  | false, false => none
  | true, false => some lo
  | false, true => some (lo + 1)
  | true, true =>
    match compareScaled (2 * lo + 1) k (2 * b.mantissa) b.exponent with
    | .gt => some lo
    | .lt => some (lo + 1)
    | .eq => some (if lo % 2 = 0 then lo else lo + 1)

/-- The decimal exponent of the leading digit of the float. The binary length gives it up to one. -/
def leadingExponent (b : Binary) : Int :=
  let guess := Int.fdiv ((Nat.log2 b.mantissa + b.exponent) * 30103) 100000
  if compareScaled 1 (guess + 1) b.mantissa b.exponent == .gt then
    if compareScaled 1 guess b.mantissa b.exponent == .gt then guess - 1 else guess
  else guess + 1

end Binary

/-- Drops zeros at the end of the digits, as often as the fuel allows. -/
def Decimal.dropZeros : Nat → Decimal → Decimal
  | 0, d => d
  | n + 1, d =>
    if d.digits ≠ 0 ∧ d.digits % 10 = 0 then
      Decimal.dropZeros n { digits := d.digits / 10, exponent := d.exponent + 1 }
    else d

/-- The most digits that a float ever needs. -/
def mostDigits : Nat := 17

/-- The shortest decimal that rounds to the float, without zeros at its end. -/
def Binary.shortest (b : Binary) : Decimal :=
  if b.mantissa = 0 then { digits := 0, exponent := 0 }
  else
    let top := b.leadingExponent
    let grid (n : Nat) : Int := top - n
    let hit := (List.range mostDigits).findSome? fun n =>
      (b.nearestOnGrid? (grid n)).map fun c => ({ digits := c, exponent := grid n } : Decimal)
    let last : Decimal :=
      { digits := b.floorOnGrid (grid (mostDigits - 1)), exponent := grid (mostDigits - 1) }
    (hit.getD last).dropZeros mostDigits

end Scriptlet
