/-!
# Decimals and exact binary values

A floating-point number is, unless it is infinite or not a number, an integer times a power of
two. This module decodes a `Float` into that form, where exact integer arithmetic can reach it,
and rounds a decimal to the nearest `Float`.

## Main definitions

* `Decimal` — an integer times a power of ten
* `Binary` — a magnitude `mantissa · 2 ^ exponent`, with the width of the gap below it
* `Binary.ofFloat` — the exact magnitude of a finite float
* `Decimal.toFloat` — the float nearest to a decimal
* `Float` helpers in the namespace `Number`: `whole?`, `ofInt?`
-/

namespace Scriptlet

/-- The number `digits · 10 ^ exponent`. -/
structure Decimal where
  digits : Nat
  exponent : Int
  deriving DecidableEq, Repr

/-- The magnitude `mantissa · 2 ^ exponent` of a float. -/
structure Binary where
  mantissa : Nat
  exponent : Int
  /-- The mantissa is the least one of its exponent, so that the gap to the float below is half the
  gap to the float above. -/
  narrowBelow : Bool
  deriving DecidableEq, Repr

namespace Number

/-- The positive infinity. -/
def infinity : Float := Float.ofBits 0x7ff0000000000000

/-- The value that is not a number. -/
def notANumber : Float := Float.ofBits 0x7ff8000000000000

/-- Whether the sign bit is set, also of a zero. -/
def isNegative (x : Float) : Bool := x.toBits >>> 63 == 1

end Number

/-- The power of ten with exponent `k` where `k` is not negative, and one elsewhere. -/
def tens (k : Int) : Nat := Nat.pow 10 k.toNat

/-- The power of two with exponent `k` where `k` is not negative, and one elsewhere. -/
def twos (k : Int) : Nat := Nat.pow 2 k.toNat

/-- The leading bit of a mantissa, which its float does not store: the power of two with exponent
52. -/
def hiddenBit : Nat := 0x10000000000000

/-- The exact magnitude of a finite float. -/
def Binary.ofFloat (x : Float) : Binary :=
  let bits : Nat := x.toBits.toNat
  let fraction : Nat := bits % hiddenBit
  let biased : Nat := bits / hiddenBit % 2048
  if biased = 0 then
    { mantissa := fraction, exponent := -1074, narrowBelow := false }
  else
    { mantissa := hiddenBit + fraction, exponent := (biased : Int) - 1075,
      narrowBelow := fraction == 0 && biased > 1 }

/-- The value as an integer, if it is one. -/
def Binary.whole? (b : Binary) : Option Nat :=
  let divisor := twos (-b.exponent)
  if b.mantissa % divisor = 0 then some (b.mantissa / divisor * twos b.exponent) else none

/-- The float nearest to `d`, with the sign put in front. Decimals beyond the range of floats give
infinity or zero without any power of ten being computed. -/
def Decimal.toFloat (negative : Bool) (d : Decimal) : Float :=
  let size := d.exponent.natAbs
  let magnitude :=
    if d.digits = 0 then 0.0
    else if 0 ≤ d.exponent then
      if 400 < size then Number.infinity else Float.ofScientific d.digits false size
    else if Nat.log2 d.digits + 1200 < 3 * size then 0.0
    else Float.ofScientific d.digits true size
  if negative then -magnitude else magnitude

namespace Number

/-- The integer that a float is exactly, if it is finite and has no fraction. -/
def whole? (x : Float) : Option Int :=
  if x.isFinite then
    (Binary.ofFloat x).whole?.map fun n => if isNegative x then -(n : Int) else n
  else none

/-- The float nearest to an integer, unless it is too large for a finite one. -/
def ofInt? (n : Int) : Option Float :=
  let x := Decimal.toFloat (n < 0) { digits := n.natAbs, exponent := 0 }
  if x.isFinite then some x else none

end Number

end Scriptlet
