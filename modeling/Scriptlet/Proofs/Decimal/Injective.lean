import Scriptlet.Proofs.Decimal.Numeral
import Scriptlet.Proofs.Decimal.NotNan
import Scriptlet.Proofs.Decimal.Shortest

/-!
# Different floats are written differently

Floats of one sign are numbered in their order by their bits, and the upper end of a float is the
lower end of the next one. Neighbours share that end, but their mantissas are not both even, so a
value rounds to at most one magnitude. The text of a float gives its sign and the value of its
shortest decimal, and that value rounds to it.

## Main definitions

* `Binary.ofMagnitude` — the magnitude with a given number
* `Number.magnitude` — the number of the magnitude of a float

## Main results

* `Binary.high_ofMagnitude` — the ends of neighbours meet
* `Binary.ofMagnitude_unique` — a value rounds to at most one magnitude
* `Number.inspect_injective` — finite floats with the same text are equal
-/

namespace Scriptlet

namespace Binary

/-- The magnitude with the given number: the bits of a float but its sign. -/
def ofMagnitude (n : Nat) : Binary :=
  if n / hiddenBit = 0 then
    { mantissa := n % hiddenBit, exponent := -1074, narrowBelow := false }
  else
    { mantissa := hiddenBit + n % hiddenBit, exponent := (n / hiddenBit : Nat) - 1075,
      narrowBelow := n % hiddenBit == 0 && n / hiddenBit > 1 }

/-- Below the hidden bit the number is the mantissa. -/
theorem ofMagnitude_of_lt {n : Nat} (h : n < hiddenBit) :
    ofMagnitude n = { mantissa := n, exponent := -1074, narrowBelow := false } := by
  rw [ofMagnitude, if_pos (Nat.div_eq_of_lt h), Nat.mod_eq_of_lt h]

/-- From there on the number counts the exponents, and the mantissas of each. -/
theorem ofMagnitude_add {k f : Nat} (hf : f < hiddenBit) :
    ofMagnitude ((k + 1) * hiddenBit + f) =
      { mantissa := hiddenBit + f, exponent := (k : Int) - 1074,
        narrowBelow := f == 0 && decide (0 < k) } := by
  have hdiv : ((k + 1) * hiddenBit + f) / hiddenBit = k + 1 := by
    rw [Nat.mul_comm, Nat.mul_add_div (by decide), Nat.div_eq_of_lt hf, Nat.add_zero]
  have hmod : ((k + 1) * hiddenBit + f) % hiddenBit = f := by
    rw [Nat.mul_comm, Nat.mul_add_mod, Nat.mod_eq_of_lt hf]
  rw [ofMagnitude, hdiv, hmod, if_neg (Nat.succ_ne_zero k)]
  simp only [Binary.mk.injEq, gt_iff_lt, Nat.lt_add_left_iff_pos, true_and, and_true]
  omega

/-- Every number is of one of these two kinds. -/
theorem lt_or_exists (n : Nat) :
    n < hiddenBit ∨ ∃ k f, f < hiddenBit ∧ n = (k + 1) * hiddenBit + f := by
  by_cases h : n < hiddenBit
  · exact .inl h
  · have hpos : 0 < n / hiddenBit := Nat.div_pos (Nat.not_lt.1 h) (by decide)
    refine .inr ⟨n / hiddenBit - 1, n % hiddenBit, Nat.mod_lt _ (by decide), ?_⟩
    rw [Nat.sub_add_cancel hpos, Nat.mul_comm, Nat.div_add_mod]

theorem inRange_ofMagnitude {n : Nat} (h : n < 2 ^ 63) : (ofMagnitude n).InRange := by
  rcases lt_or_exists n with hn | ⟨k, f, hf, rfl⟩
  · rw [ofMagnitude_of_lt hn]
    have hexponent : (-1074 : Int) ≤ 972 := by decide
    exact ⟨hn.trans (by decide), le_refl (-1074), hexponent, nofun⟩
  · have hk : k < 2047 := by
      rw [hiddenBit] at h
      omega
    have hmantissa : hiddenBit + f < 2 ^ 53 := by
      rw [hiddenBit] at hf ⊢
      omega
    have hlow : -1074 ≤ (k : Int) - 1074 := by omega
    have hhigh : (k : Int) - 1074 ≤ 972 := by omega
    rw [ofMagnitude_add hf]
    refine ⟨hmantissa, hlow, hhigh, fun hnarrow => ?_⟩
    have hzero : f = 0 := by simpa using (Bool.and_eq_true_iff.1 hnarrow).1
    rw [hzero, Nat.add_zero]

/-- The mantissa is even exactly if the number is. -/
theorem mantissa_ofMagnitude_mod_two (n : Nat) : (ofMagnitude n).mantissa % 2 = n % 2 := by
  rcases lt_or_exists n with hn | ⟨k, f, hf, rfl⟩
  · rw [ofMagnitude_of_lt hn]
  · rw [ofMagnitude_add hf]
    change (hiddenBit + f) % 2 = _
    rw [hiddenBit]
    omega

/-- Neighbours meet at an end. -/
theorem high_ofMagnitude (n : Nat) : (ofMagnitude n).high = (ofMagnitude (n + 1)).low := by
  rcases lt_or_exists n with hn | ⟨k, f, hf, rfl⟩
  · by_cases hnext : n + 1 < hiddenBit
    · rw [ofMagnitude_of_lt hn, ofMagnitude_of_lt hnext]
      rfl
    · -- the least mantissa with the hidden bit has the same exponent
      obtain rfl : n = hiddenBit - 1 := by omega
      rfl
  · by_cases hnext : f + 1 < hiddenBit
    · rw [Nat.add_assoc, ofMagnitude_add hf, ofMagnitude_add hnext]
      rfl
    · -- the gap is twice as wide above the next exponent
      obtain rfl : f = hiddenBit - 1 := by omega
      have hsucc : (k + 1) * hiddenBit + (hiddenBit - 1) + 1 = (k + 1 + 1) * hiddenBit + 0 := by
        rw [hiddenBit]
        omega
      have hdouble : (2 : ℚ) ^ ((k + 1 : Nat) - 1074 - 2 : Int) =
          2 ^ ((k : Int) - 1074 - 2) * 2 := by
        rw [← zpow_add_one₀ two_ne_zero]
        congr 1
        omega
      rw [hsucc, ofMagnitude_add hf, ofMagnitude_add (by decide)]
      simp only [high, low, upper, lower, hdouble, hiddenBit]
      norm_num
      ring

/-- The float with the larger number begins where the other one ends, or behind it. -/
theorem high_le_low {m n : Nat} (h : m < n) : (ofMagnitude m).high ≤ (ofMagnitude n).low := by
  induction n, h using Nat.le_induction with
  | base => exact (high_ofMagnitude m).le
  | succ n _ ih =>
    calc (ofMagnitude m).high ≤ (ofMagnitude n).low := ih
      _ ≤ (ofMagnitude n).high := (low_lt_high _).le
      _ = (ofMagnitude (n + 1)).low := high_ofMagnitude n

/-- No value rounds to a float and to one with a larger number: it would be an end of both, and of
neighbours only one has an even mantissa. -/
theorem Covers.not_lt {m n : Nat} {r : ℚ} (hm : (ofMagnitude m).Covers r)
    (hn : (ofMagnitude n).Covers r) : ¬ m < n := by
  intro hlt
  have hends := high_le_low hlt
  have hmeven := hm.even (.inr (le_antisymm hm.le_high (hends.trans hn.low_le)))
  have hneven := hn.even (.inl (le_antisymm (hm.le_high.trans hends) hn.low_le))
  rw [mantissa_ofMagnitude_mod_two] at hmeven hneven
  -- so another float lies between them
  have hbetween : (ofMagnitude (m + 1)).high ≤ (ofMagnitude n).low := high_le_low (by omega)
  have hgap := low_lt_high (ofMagnitude (m + 1))
  rw [← high_ofMagnitude] at hgap
  exact absurd (hm.le_high.trans_lt (hgap.trans_le (hbetween.trans hn.low_le))) (lt_irrefl r)

/-- A value rounds to at most one magnitude. -/
theorem ofMagnitude_unique {m n : Nat} {r : ℚ} (hm : (ofMagnitude m).Covers r)
    (hn : (ofMagnitude n).Covers r) : m = n :=
  Nat.le_antisymm (Nat.not_lt.1 (hn.not_lt hm)) (Nat.not_lt.1 (hm.not_lt hn))

end Binary

namespace Number

/-! ### Bits -/

/-- The number of the magnitude of a float. -/
def magnitude (x : Float) : Nat := x.toBits.toNat % 2 ^ 63

theorem ofFloat_eq (x : Float) : Binary.ofFloat x = Binary.ofMagnitude (magnitude x) := by
  have hbiased : magnitude x / hiddenBit = x.toBits.toNat / hiddenBit % 2048 :=
    Nat.mod_mul_right_div_self _ hiddenBit 2048
  have hfraction : magnitude x % hiddenBit = x.toBits.toNat % hiddenBit :=
    Nat.mod_mul_right_mod _ hiddenBit 2048
  rw [Binary.ofMagnitude, hbiased, hfraction]
  rfl

theorem isNegative_iff {x : Float} : isNegative x = true ↔ x.toBits.toNat / 2 ^ 63 = 1 := by
  rw [isNegative, beq_iff_eq, ← UInt64.toNat_inj, UInt64.toNat_shiftRight,
    Nat.shiftRight_eq_div_pow]
  rfl

theorem toBits_injective {x y : Float} (h : x.toBits = y.toBits) : x = y := by
  obtain ⟨⟨bits, _⟩⟩ := x
  obtain ⟨⟨bits', _⟩⟩ := y
  obtain rfl : bits = bits' := h
  rfl

/-- A float is its sign and its magnitude. -/
theorem eq_of_magnitude {x y : Float} (hsign : isNegative x = isNegative y)
    (h : magnitude x = magnitude y) : x = y := by
  refine toBits_injective (UInt64.toNat_inj.1 ?_)
  rw [Bool.eq_iff_iff, isNegative_iff, isNegative_iff] at hsign
  rw [magnitude, magnitude] at h
  have hx := x.toBits.toNat_lt
  have hy := y.toBits.toNat_lt
  omega

/-! ### Texts -/

/-- A sign is told from the text behind it. -/
theorem signText_inj {negative negative' : Bool} {p q : Parts} (hp : p.Proper) (hq : q.Proper)
    (h : signText negative ++ p.text = signText negative' ++ q.text) :
    negative = negative' ∧ p.text = q.text := by
  obtain ⟨c, cs, hcons, hc⟩ := hp.text_eq_cons
  obtain ⟨d, ds, hcons', hd⟩ := hq.text_eq_cons
  have hne {c : Char} (hc : c.isDigit = true) : c ≠ '-' := by
    rintro rfl
    cases hc
  cases negative with
  | true =>
    cases negative' with
    | true => exact ⟨rfl, List.append_cancel_left h⟩
    | false =>
      rw [hcons'] at h
      exact absurd (List.cons.inj h).1.symm (hne hd)
  | false =>
    cases negative' with
    | true =>
      rw [hcons] at h
      exact absurd (List.cons.inj h).1 (hne hc)
    | false => exact ⟨rfl, h⟩

/-- What is written for a decimal has its value. -/
theorem toRat_of_writes {l : Layout} {d : Decimal} {p : Parts} (h : l.Writes d p) :
    p.value.toRat = d.toRat := by
  obtain ⟨n, hvalue⟩ := h.value
  rw [hvalue, Decimal.toRat_mul_pow]

/-- Finite floats with the same text are equal. -/
theorem inspect_injective {x y : Float} (hx : x.isFinite = true) (hy : y.isFinite = true)
    (h : inspect x = inspect y) : x = y := by
  obtain ⟨hxnan, hxinf⟩ := isNaN_and_isInf_of_isFinite hx
  obtain ⟨hynan, hyinf⟩ := isNaN_and_isInf_of_isFinite hy
  obtain ⟨p, hp, hxtext⟩ := toList_inspect hxnan hxinf
  obtain ⟨q, hq, hytext⟩ := toList_inspect hynan hyinf
  rw [h, hytext] at hxtext
  obtain ⟨hsign, htext⟩ := signText_inj hq.proper hp.proper hxtext
  have hvalue : (Binary.ofFloat x).shortest.toRat = (Binary.ofFloat y).shortest.toRat := by
    rw [← toRat_of_writes hp, ← toRat_of_writes hq, Parts.value_eq_of_text hp.proper hq.proper
      htext.symm]
  have hrange (z : Float) : (Binary.ofMagnitude (magnitude z)).InRange :=
    Binary.inRange_ofMagnitude (Nat.mod_lt _ (by decide))
  have hxcovers := Binary.covers_shortest (hrange x)
  have hycovers := Binary.covers_shortest (hrange y)
  rw [ofFloat_eq, ofFloat_eq] at hvalue
  rw [hvalue] at hxcovers
  exact eq_of_magnitude hsign.symm (Binary.ofMagnitude_unique hxcovers hycovers)

end Number

end Scriptlet
