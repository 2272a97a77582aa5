import Mathlib.Algebra.Order.Field.Power
import Mathlib.Data.Rat.Cast.Order
import Mathlib.Tactic.Positivity
import Mathlib.Tactic.Linarith
import Mathlib.Tactic.Ring
import Scriptlet.Decimal.Shortest

/-!
# The shortest decimal rounds to its float

Comparing decimals with floats in integers is comparing rationals. The decimals that round to a
float are those between two ends, and at an end only if the mantissa is even. With seventeen digits
the multiples of a power of ten are closer together than the ends, so the search finds one between
them, and dropping zeros does not change its value.

## Main definitions

* `Decimal.toRat` — the value of a decimal
* `Binary.low`, `Binary.high` — the ends
* `Binary.Covers` — a value between the ends
* `Binary.InRange` — the bounds on the parts of a float

## Main results

* `compareScaled_eq_lt`, `compareScaled_eq_eq`, `compareScaled_eq_gt` — comparisons in integers
* `Binary.ten_zpow_leadingExponent_le` — the exponent of the leading digit is not too large
* `Binary.nearestOnGrid?_ne_none` — seventeen digits suffice
* `Binary.covers_shortest` — the shortest decimal of a float lies between its ends
-/

namespace Scriptlet

/-! ### Exact comparisons -/

theorem tens_cast (k : Int) : (10 : ℚ) ^ k * tens (-k) = tens k := by
  simp only [tens, Nat.pow_eq, Nat.cast_pow, Nat.cast_ofNat, ← zpow_natCast]
  rw [← zpow_add₀ (by norm_num)]
  congr 1
  omega

theorem twos_cast (p : Int) : (2 : ℚ) ^ p * twos (-p) = twos p := by
  simp only [twos, Nat.pow_eq, Nat.cast_pow, Nat.cast_ofNat, ← zpow_natCast]
  rw [← zpow_add₀ (by norm_num)]
  congr 1
  omega

section Compare

variable (c : Nat) (k : Int) (x : Nat) (p : Int)

/-- The factor that makes a decimal and a float whole numbers. -/
def scale : ℚ := tens (-k) * twos (-p)

theorem scale_pos : 0 < scale k p := by
  have htens : 0 < tens (-k) := Nat.pow_pos (by decide)
  have htwos : 0 < twos (-p) := Nat.pow_pos (by decide)
  rw [scale]
  exact_mod_cast Nat.mul_pos htens htwos

theorem decimal_mul_scale :
    (c : ℚ) * 10 ^ k * scale k p = ((c * tens k * twos (-p) : Nat) : ℚ) := by
  push_cast
  rw [scale, ← tens_cast k]
  ring

theorem float_mul_scale :
    (x : ℚ) * 2 ^ p * scale k p = ((x * twos p * tens (-k) : Nat) : ℚ) := by
  push_cast
  rw [scale, ← twos_cast p]
  ring

theorem compareScaled_eq_lt : compareScaled c k x p = .lt ↔ (c : ℚ) * 10 ^ k < x * 2 ^ p := by
  rw [← mul_lt_mul_iff_of_pos_right (scale_pos k p), decimal_mul_scale, float_mul_scale,
    Nat.cast_lt]
  exact Nat.compare_eq_lt

theorem compareScaled_eq_eq : compareScaled c k x p = .eq ↔ (c : ℚ) * 10 ^ k = x * 2 ^ p := by
  rw [← mul_left_inj' (scale_pos k p).ne', decimal_mul_scale, float_mul_scale, Nat.cast_inj]
  exact Nat.compare_eq_eq

theorem compareScaled_eq_gt : compareScaled c k x p = .gt ↔ (x : ℚ) * 2 ^ p < c * 10 ^ k := by
  rw [← mul_lt_mul_iff_of_pos_right (scale_pos k p), decimal_mul_scale, float_mul_scale,
    Nat.cast_lt]
  exact Nat.compare_eq_gt

end Compare

/-! ### The ends -/

namespace Binary

/-- The exact value. -/
def toRat (b : Binary) : ℚ := b.mantissa * 2 ^ b.exponent

/-- The least value that rounds to the float, if its mantissa is even. -/
def low (b : Binary) : ℚ := b.lower * 2 ^ (b.exponent - 2)

/-- The greatest value that rounds to the float, if its mantissa is even. -/
def high (b : Binary) : ℚ := b.upper * 2 ^ (b.exponent - 2)

/-- The value rounds to the float. -/
structure Covers (b : Binary) (r : ℚ) : Prop where
  low_le : b.low ≤ r
  le_high : r ≤ b.high
  even : r = b.low ∨ r = b.high → b.mantissa % 2 = 0

theorem covers_iff {b : Binary} {c : Nat} {k : Int} :
    b.covers c k = true ↔ b.Covers (c * 10 ^ k) := by
  simp only [covers, Bool.and_eq_true, Bool.or_eq_true, beq_iff_eq, compareScaled_eq_gt,
    compareScaled_eq_eq, compareScaled_eq_lt]
  change (b.low < _ ∨ _ = b.low ∧ _) ∧ (_ < b.high ∨ _ = b.high ∧ _) ↔ _
  constructor
  · rintro ⟨hlow, hhigh⟩
    refine ⟨?_, ?_, ?_⟩
    · exact hlow.elim le_of_lt fun h => h.1.ge
    · exact hhigh.elim le_of_lt fun h => h.1.le
    · rintro (heq | heq)
      · exact (hlow.resolve_left heq.le.not_gt).2
      · exact (hhigh.resolve_left heq.ge.not_gt).2
  · intro h
    constructor
    · exact h.low_le.lt_or_eq.imp_right fun heq => ⟨heq.symm, h.even (.inl heq.symm)⟩
    · exact h.le_high.lt_or_eq.imp_right fun heq => ⟨heq, h.even (.inr heq)⟩

/-- The value in the unit of the ends. -/
theorem toRat_eq (b : Binary) : b.toRat = (4 * b.mantissa : Nat) * 2 ^ (b.exponent - 2) := by
  rw [toRat, zpow_sub₀ two_ne_zero]
  push_cast
  ring

/-- A float other than zero is strictly between its ends. -/
theorem low_lt_toRat {b : Binary} (h : b.mantissa ≠ 0) : b.low < b.toRat := by
  have hlower : b.lower < 4 * b.mantissa := by
    unfold lower
    split <;> omega
  rw [low, toRat_eq]
  gcongr

theorem toRat_lt_high (b : Binary) : b.toRat < b.high := by
  have hupper : 4 * b.mantissa < b.upper := Nat.lt_add_of_pos_right (by decide)
  rw [high, toRat_eq]
  gcongr

theorem low_lt_high (b : Binary) : b.low < b.high := by
  have hends : b.lower < b.upper := by
    unfold lower upper
    omega
  rw [low, high]
  gcongr

theorem covers_of_between {b : Binary} {r : ℚ} (hlow : b.low < r) (hhigh : r < b.high) :
    b.Covers r :=
  ⟨hlow.le, hhigh.le, fun h => (h.elim hlow.ne' hhigh.ne).elim⟩

/-! ### The nearest decimals -/

section Grid

variable (b : Binary) (k : Int)

/-- The float lies between two neighbours on the grid. -/
theorem floorOnGrid_le : (b.floorOnGrid k : ℚ) * 10 ^ k ≤ b.toRat := by
  rw [toRat, ← mul_le_mul_iff_of_pos_right (scale_pos k b.exponent), decimal_mul_scale,
    float_mul_scale, Nat.cast_le, Nat.mul_assoc]
  exact Nat.div_mul_le_self _ _

theorem lt_floorOnGrid_succ : b.toRat < ((b.floorOnGrid k + 1 : Nat) : ℚ) * 10 ^ k := by
  have hpos : 0 < tens k * twos (-b.exponent) :=
    Nat.mul_pos (Nat.pow_pos (by decide)) (Nat.pow_pos (by decide))
  rw [toRat, ← mul_lt_mul_iff_of_pos_right (scale_pos k b.exponent), decimal_mul_scale,
    float_mul_scale, Nat.cast_lt, Nat.mul_assoc (b.floorOnGrid k + 1)]
  exact Nat.lt_mul_of_div_lt (Nat.lt_succ_self _) hpos

variable {b k}

theorem covers_of_nearestOnGrid? {c : Nat} (h : b.nearestOnGrid? k = some c) :
    b.Covers (c * 10 ^ k) := by
  rw [← covers_iff]
  unfold nearestOnGrid? at h
  dsimp only at h
  split at h
  · cases h
  · next hlo _ => cases h; exact hlo
  · next _ hhi => cases h; exact hhi
  · next hlo hhi =>
    split at h
    · cases h; exact hlo
    · cases h; exact hhi
    · cases h
      split
      · exact hlo
      · exact hhi

theorem not_covers_of_nearestOnGrid? (h : b.nearestOnGrid? k = none) :
    ¬ b.Covers (b.floorOnGrid k * 10 ^ k) ∧
      ¬ b.Covers ((b.floorOnGrid k + 1 : Nat) * 10 ^ k) := by
  rw [← covers_iff, ← covers_iff]
  unfold nearestOnGrid? at h
  dsimp only at h
  split at h
  · next hlo hhi => simp [hlo, hhi]
  · cases h
  · cases h
  · split at h <;> cases h

end Grid

/-! ### Seventeen digits -/

/-- The bounds on the parts of a float. -/
structure InRange (b : Binary) : Prop where
  mantissa_lt : b.mantissa < 2 ^ 53
  le_exponent : -1074 ≤ b.exponent
  exponent_le : b.exponent ≤ 972
  narrow : b.narrowBelow = true → b.mantissa = hiddenBit

/-- Powers of ten are compared with powers of two by a power of ten near one of two. -/
theorem ten_zpow_le_of_pow {k e : Int} {p q : Nat} (hq : q ≠ 0) (hk : k * q ≤ p * e)
    (hpowers : ((10 : ℚ) ^ p) ^ e ≤ (2 ^ q) ^ e) : (10 : ℚ) ^ k ≤ 2 ^ e := by
  rw [← pow_le_pow_iff_left₀ (by positivity) (by positivity) hq]
  calc ((10 : ℚ) ^ k) ^ q = 10 ^ (k * q) := by rw [zpow_mul, zpow_natCast]
    _ ≤ 10 ^ (p * e) := zpow_le_zpow_right₀ (by norm_num) hk
    _ = (10 ^ p) ^ e := by rw [zpow_mul, zpow_natCast]
    _ ≤ (2 ^ q) ^ e := hpowers
    _ = (2 ^ e) ^ q := by rw [← zpow_natCast, ← zpow_natCast, ← zpow_mul, ← zpow_mul, mul_comm]

/-- The guess from the binary length is at most one too large: the logarithm of two is near
`30103 / 100000`, which is between `31 / 103` and `28 / 93`. -/
theorem ten_zpow_le_two_zpow {k e : Int} (h : 100000 * (k + 1) ≤ 30103 * e) (hlow : -2000 ≤ e)
    (hhigh : e ≤ 2000) : (10 : ℚ) ^ k ≤ 2 ^ e := by
  by_cases hnonneg : 0 ≤ e
  · have hpowers : (10 : ℚ) ^ 31 ≤ 2 ^ 103 := by norm_num
    refine ten_zpow_le_of_pow (p := 31) (q := 103) (by decide) (by omega) ?_
    exact zpow_le_zpow_left₀ hnonneg (by positivity) hpowers
  · have hpowers : (2 : ℚ) ^ 93 ≤ 10 ^ 28 := by norm_num
    refine ten_zpow_le_of_pow (p := 28) (q := 93) (by decide) (by omega) ?_
    have hneg : 0 ≤ -e := by omega
    have hinverses := zpow_le_zpow_left₀ hneg (by positivity) (inv_anti₀ (by positivity) hpowers)
    rwa [inv_zpow', inv_zpow', neg_neg] at hinverses

section Float

variable {b : Binary} (hb : b.InRange) (hm : b.mantissa ≠ 0)
include hb hm

/-- The leading digit does not stand too far left. -/
theorem ten_zpow_leadingExponent_le : (10 : ℚ) ^ b.leadingExponent ≤ b.toRat := by
  have hle {k : Int} {x : Nat} {p : Int} (h : compareScaled 1 k x p ≠ .gt) :
      (10 : ℚ) ^ k ≤ x * 2 ^ p := by
    rw [ne_eq, compareScaled_eq_gt, not_lt, Nat.cast_one, one_mul] at h
    exact h
  unfold leadingExponent
  dsimp only
  split
  · split
    · have hlength : Nat.log2 b.mantissa < 53 := (Nat.log2_lt hm).2 hb.mantissa_lt
      have hpower : ((2 ^ Nat.log2 b.mantissa : Nat) : ℚ) ≤ b.mantissa :=
        Nat.cast_le.2 (Nat.log2_self_le hm)
      have hlow := hb.le_exponent
      have hhigh := hb.exponent_le
      rw [Int.fdiv_eq_ediv_of_nonneg _ (by decide)]
      calc (10 : ℚ) ^ _ ≤ 2 ^ ((Nat.log2 b.mantissa : Int) + b.exponent) :=
            ten_zpow_le_two_zpow (by omega) (by omega) (by omega)
        _ = (2 ^ Nat.log2 b.mantissa : Nat) * 2 ^ b.exponent := by
          rw [zpow_add₀ two_ne_zero, Nat.cast_pow, Nat.cast_ofNat, zpow_natCast]
        _ ≤ b.mantissa * 2 ^ b.exponent := by gcongr
    · next h => exact hle (by simpa using h)
  · next h => exact hle (by simpa using h)

/-- The ends are further apart than neighbours on the grid of seventeen digits. -/
theorem ten_zpow_lt_gap : (10 : ℚ) ^ (b.leadingExponent - 16) < b.high - b.low := by
  -- the gap holds three or four quarters, and the mantissa is below `10 ^ 16`
  have hgap : 4 * b.mantissa + 10 ^ 16 * b.lower < 10 ^ 16 * b.upper := by
    have hlt := hb.mantissa_lt
    unfold upper lower
    split
    · next hnarrow =>
      rw [hb.narrow hnarrow, hiddenBit]
      omega
    · omega
  have hpos : (0 : ℚ) < 10 ^ 16 := by positivity
  have hgap : (4 * b.mantissa + 10 ^ 16 * b.lower : ℚ) < 10 ^ 16 * b.upper := by exact_mod_cast hgap
  refine lt_of_mul_lt_mul_right ?_ hpos.le
  calc (10 : ℚ) ^ (b.leadingExponent - 16) * 10 ^ 16 = 10 ^ b.leadingExponent := by
        rw [zpow_sub₀ (by norm_num)]
        norm_num
    _ ≤ (4 * b.mantissa : Nat) * 2 ^ (b.exponent - 2) :=
      (ten_zpow_leadingExponent_le hb hm).trans_eq b.toRat_eq
    _ < (10 ^ 16 * b.upper - 10 ^ 16 * b.lower) * 2 ^ (b.exponent - 2) := by
      push_cast
      gcongr
      linarith
    _ = (b.high - b.low) * 10 ^ 16 := by
      rw [high, low]
      ring

theorem nearestOnGrid?_ne_none : b.nearestOnGrid? (b.leadingExponent - 16) ≠ none := by
  intro h
  obtain ⟨hfloor, hceiling⟩ := not_covers_of_nearestOnGrid? h
  have hgap := ten_zpow_lt_gap hb hm
  have hle := b.floorOnGrid_le (b.leadingExponent - 16)
  have hlt := b.lt_floorOnGrid_succ (b.leadingExponent - 16)
  have hlow := b.low_lt_toRat hm
  have hhigh := b.toRat_lt_high
  generalize b.leadingExponent - 16 = k at *
  have hfloor : (b.floorOnGrid k : ℚ) * 10 ^ k ≤ b.low :=
    not_lt.1 fun hlt => hfloor (covers_of_between hlt (by linarith))
  have hceiling : b.high ≤ ((b.floorOnGrid k + 1 : Nat) : ℚ) * 10 ^ k :=
    not_lt.1 fun hlt => hceiling (covers_of_between (by linarith) hlt)
  push_cast at hceiling
  linarith

end Float

end Binary

/-! ### The shortest decimal -/

/-- The value of a decimal. -/
def Decimal.toRat (d : Decimal) : ℚ := d.digits * 10 ^ d.exponent

/-- Zeros behind the digits do not change the value. -/
theorem Decimal.toRat_mul_pow (c : Nat) (k : Int) (n : Nat) :
    Decimal.toRat { digits := c * 10 ^ n, exponent := k - n } =
      Decimal.toRat { digits := c, exponent := k } := by
  have hpower : (10 : ℚ) ^ n * 10 ^ (k - n) = 10 ^ k := by
    rw [← zpow_natCast, ← zpow_add₀ (by norm_num)]
    congr 1
    omega
  simp only [toRat, Nat.cast_mul, Nat.cast_pow, Nat.cast_ofNat, mul_assoc, hpower]

theorem Decimal.toRat_dropZeros (n : Nat) (d : Decimal) : (d.dropZeros n).toRat = d.toRat := by
  induction n generalizing d with
  | zero => rfl
  | succ n ih =>
    rw [dropZeros]
    split
    · next h =>
      have hzero := toRat_mul_pow (d.digits / 10) (d.exponent + 1) 1
      rw [Nat.pow_one, Nat.div_mul_cancel (Nat.dvd_of_mod_eq_zero h.2), Nat.cast_one,
        Int.add_sub_cancel] at hzero
      rw [ih]
      exact hzero.symm
    · rfl

theorem Binary.covers_shortest {b : Binary} (hb : b.InRange) : b.Covers b.shortest.toRat := by
  unfold shortest
  split
  · next hm =>
    have hlow : b.low = 0 := by simp [low, lower, hm]
    have hhigh := b.toRat_lt_high
    simp only [toRat, hm, Nat.cast_zero, zero_mul] at hhigh
    simp only [Decimal.toRat, Nat.cast_zero, zero_mul]
    exact ⟨hlow.le, hhigh.le, fun _ => by rw [hm]⟩
  · next hm =>
    rw [Decimal.toRat_dropZeros]
    dsimp only
    cases hhit : (List.range mostDigits).findSome? fun n : Nat =>
        (b.nearestOnGrid? (b.leadingExponent - n)).map fun c =>
          ({ digits := c, exponent := b.leadingExponent - n } : Decimal) with
    | none =>
      have hlast : 16 ∈ List.range mostDigits := List.mem_range.2 (by decide)
      have hnone := Option.map_eq_none_iff.1 (List.findSome?_eq_none_iff.1 hhit 16 hlast)
      rw [Nat.cast_ofNat] at hnone
      exact absurd hnone (nearestOnGrid?_ne_none hb hm)
    | some d =>
      obtain ⟨n, -, hn⟩ := List.exists_of_findSome?_eq_some hhit
      obtain ⟨c, hc, rfl⟩ := Option.map_eq_some_iff.1 hn
      exact covers_of_nearestOnGrid? hc

end Scriptlet
