import Scriptlet.Decimal.Number

/-!
# Digits are numbers

The value of a run of digits is a number or infinity, never a NaN: rounding an exact value does not
lead to a NaN, and neither does multiplying or dividing by a power of ten.

## Main results

* `Number.isNaN_ofScientific` — rounding a decimal
* `Number.isNaN_ofDigits` — the value of a number in a program
* `Number.isNaN_and_isInf_of_isFinite` — finite numbers
-/

namespace Scriptlet.Number

open Float.Model Float.Model.UnpackedFloat

theorem isNaN_dite {c : Prop} [Decidable c] {u : c → UnpackedFloat} {v : ¬ c → UnpackedFloat}
    (hu : ∀ h, (u h).isNaN = false) (hv : ∀ h, (v h).isNaN = false) :
    (dite c u v).isNaN = false := by
  by_cases h : c
  · rw [dif_pos h]
    exact hu h
  · rw [dif_neg h]
    exact hv h

theorem isNaN_ite {c : Prop} [Decidable c] {u v : UnpackedFloat} (hu : c → u.isNaN = false)
    (hv : ¬ c → v.isNaN = false) : (if c then u else v).isNaN = false := isNaN_dite hu hv

/-- Bits stand for a NaN only if the exponent is the greatest and the mantissa is not zero. -/
theorem isNaN_unpack {b : BitVec Format.binary64.numBits}
    (h : unpackExponent b ≠ -1#11 ∨ unpackMantissa b = 0#52) :
    (UnpackedFloat.unpack Format.binary64 b).isNaN = false := by
  refine isNaN_ite (fun hexponent => ?_) fun _ => isNaN_ite (fun _ => ?_) fun _ => ?_
  · rw [if_pos (h.resolve_left fun hne => hne hexponent)]
    rfl
  · exact isNaN_dite (fun _ => rfl) fun _ => rfl
  · rfl

/-- A value that is no NaN is none after it was packed into bits. -/
theorem isNaN_pack {u : UnpackedFloat} (h : u.isNaN = false) :
    (Float.Model.pack u).isNaN = false := by
  change (UnpackedFloat.unpack Format.binary64 (UnpackedFloat.pack Format.binary64 u)).isNaN = false
  have hinfinity (s : Sign) :
      (UnpackedFloat.unpack Format.binary64 (packedInfinity Format.binary64 s)).isNaN = false :=
    isNaN_unpack (.inr unpackMantissa_packComponents)
  cases u with
  | notANumber => cases h
  | infinity s => exact hinfinity s
  | zero s => exact isNaN_unpack (.inr unpackMantissa_packComponents)
  | finite s m e hm =>
    unfold UnpackedFloat.pack
    dsimp only
    split
    · exact hinfinity s
    · next hexponent =>
      split
      · refine isNaN_unpack (.inl ?_)
        rw [unpackExponent_packComponents]
        intro heq
        -- the greatest exponent has the number 2047, and this one is below it
        have hnumber := congrArg BitVec.toNat heq
        rw [BitVec.toNat_ofNat, Nat.mod_eq_of_lt (by omega)] at hnumber
        have hgreatest : (-1#11).toNat = 2 ^ 11 - 1 := by decide
        change _ = (-1#11).toNat at hnumber
        omega
      · refine isNaN_unpack (.inl ?_)
        rw [unpackExponent_packComponents]
        decide

theorem isNaN_roundWithAccuracy (s : Sign) (m : Nat) (e : Int) (accuracy : Accuracy) :
    (roundWithAccuracy Format.binary64 s m e accuracy).isNaN = false :=
  isNaN_dite (fun _ => rfl) fun _ => rfl

/-- A finite value other than zero. -/
def isProper : UnpackedFloat → Bool
  | .finite .. => true
  | _ => false

section Scale

variable {u v : UnpackedFloat} (hu : u.isNaN = false) (hv : isProper v = true)
include hu hv

theorem isNaN_mul : (UnpackedFloat.mul Format.binary64 u v).isNaN = false := by
  cases v with
  | finite s' m' e' hm' =>
    cases u with
    | notANumber => cases hu
    | infinity s | zero s => rfl
    | finite s m e hm => exact isNaN_roundWithAccuracy _ _ _ _
  | infinity | notANumber | zero => cases hv

theorem isNaN_div : (UnpackedFloat.div Format.binary64 u v).isNaN = false := by
  cases v with
  | finite s' m' e' hm' =>
    cases u with
    | notANumber => cases hu
    | infinity s | zero s => rfl
    | finite s m e hm => exact isNaN_roundWithAccuracy _ _ _ _
  | infinity | notANumber | zero => cases hv

end Scale

theorem isNaN_round (s : Sign) (m : Nat) (e : Int) :
    (UnpackedFloat.round Format.binary64 s m e).isNaN = false := isNaN_roundWithAccuracy _ _ _ _

/-- A machine word as a float. -/
theorem isNaN_ofUInt64 (n : UInt64) : n.toFloat.isNaN = false := by
  refine isNaN_pack ?_
  change (UnpackedFloat.normalize Format.binary64 n.toNat 0 .positive).isNaN = false
  unfold UnpackedFloat.normalize
  split
  · exact isNaN_round _ _ _
  · rfl
  · exact isNaN_round _ _ _

/-- An exact value times a power of ten. -/
theorem isNaN_exact (m : Nat) (e : Int) :
    (UnpackedFloat.ofScientific Format.binary64 m e).isNaN = false := by
  refine isNaN_dite (fun _ => rfl) fun _ => ?_
  refine isNaN_ite (fun _ => rfl) fun _ => ?_
  refine isNaN_ite (fun _ => rfl) fun _ => isNaN_ite (fun _ => ?_) fun _ => ?_
  · exact isNaN_roundWithAccuracy _ _ _ _
  · exact isNaN_roundWithAccuracy _ _ _ _

/-- Rounding a decimal yields a number or infinity. -/
theorem isNaN_ofScientific (m : Nat) (negative : Bool) (e : Nat) :
    (Float.ofScientific m negative e).isNaN = false := by
  have hpowers : ∀ i : Fin 23,
      isProper (Float.exactlyRepresentablePowersOfTen[i]).toModel.unpack = true := by
    decide +kernel
  unfold Float.ofScientific
  split
  · next h =>
    have hpower := hpowers ⟨e, by omega⟩
    split
    · exact isNaN_pack (isNaN_div (isNaN_ofUInt64 _) hpower)
    · exact isNaN_pack (isNaN_mul (isNaN_ofUInt64 _) hpower)
  · exact isNaN_pack (isNaN_exact m _)

theorem isNaN_toFloat (d : Decimal) : (d.toFloat false).isNaN = false := by
  have hzero : (0.0 : Float).isNaN = false := by decide +kernel
  have hinfinity : infinity.isNaN = false := by decide +kernel
  have hrounded (negative : Bool) (e : Nat) := isNaN_ofScientific d.digits negative e
  rw [Decimal.toFloat, if_neg Bool.false_ne_true]
  by_cases hdigits : d.digits = 0
  · rw [if_pos hdigits]
    exact hzero
  · rw [if_neg hdigits]
    by_cases hwhole : 0 ≤ d.exponent
    · rw [if_pos hwhole]
      by_cases hlarge : 400 < d.exponent.natAbs
      · rw [if_pos hlarge]
        exact hinfinity
      · rw [if_neg hlarge]
        exact hrounded _ _
    · rw [if_neg hwhole]
      by_cases hsmall : Nat.log2 d.digits + 1200 < 3 * d.exponent.natAbs
      · rw [if_pos hsmall]
        exact hzero
      · rw [if_neg hsmall]
        exact hrounded _ _

/-- A finite number is neither a NaN nor an infinity. -/
theorem isNaN_and_isInf_of_isFinite {x : Float} (h : x.isFinite = true) :
    x.isNaN = false ∧ x.isInf = false := by
  change x.toModel.unpack.isFinite = true at h
  change x.toModel.unpack.isNaN = false ∧ x.toModel.unpack.isInf = false
  cases hx : x.toModel.unpack with
  | finite | zero => exact ⟨rfl, rfl⟩
  | infinity | notANumber =>
    rw [hx] at h
    cases h

/-- The value of a number in a program. -/
theorem isNaN_ofDigits (cs : List Char) : (ofDigits cs).isNaN = false := isNaN_toFloat _

end Scriptlet.Number
