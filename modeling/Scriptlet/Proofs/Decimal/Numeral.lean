import Mathlib.Algebra.Group.Nat.Defs
import Scriptlet.Decimal.Number

/-!
# The parts of a written number

A written number is a run of digits, a fraction or none, and an exponent or none. Reading a number
takes these parts off the front of the text one after the other, and stops before anything that does
not continue a number.

## Main definitions

* `Number.Parts` — the digits before the point, those behind it, and the exponent
* `Number.Parts.text` — the parts put together
* `Number.Closes` — a text that does not continue a number

## Main results

* `Number.spanDigits_text`, `Number.spanFraction_text`, `Number.spanExponent_text` — reading takes
  the parts off one by one
* `Number.Parts.value_eq_of_text` — the text of a number gives its value
* `Layout.exists_parts` — every number is written in parts
* `Number.exists_parts_inspect` — so is every finite float, and its parts are read as the float
-/

namespace Scriptlet

namespace Number

/-! ### Runs of digits -/

/-- A text that does not begin with a digit. -/
def NoDigit (cs : List Char) : Prop := ∀ c ∈ cs.head?, c.isDigit = false

theorem spanDigits_append {ds rest : List Char} (hds : ∀ c ∈ ds, c.isDigit = true)
    (hrest : NoDigit rest) : spanDigits (ds ++ rest) = (ds, rest) := by
  have htake : rest.takeWhile Char.isDigit = [] := by
    cases rest with
    | nil => rfl
    | cons c rest => simp [hrest c rfl]
  have hdrop : rest.dropWhile Char.isDigit = rest := by
    cases rest with
    | nil => rfl
    | cons c rest => simp [hrest c rfl]
  rw [spanDigits, List.takeWhile_append_of_pos hds, List.dropWhile_append_of_pos hds, htake, hdrop,
    List.append_nil]

theorem readDigits_eq (cs : List Char) : readDigits cs = Nat.ofDigitChars 10 cs 0 :=
  Nat.ofDigitChars_eq_foldl.symm

/-- A number is read from its digits. -/
theorem readDigits_toDigits (n : Nat) : readDigits (Nat.toDigits 10 n) = n := by
  rw [readDigits_eq, Nat.ofDigitChars_ten_toDigits]

/-- Zeros in front do not count. -/
theorem readDigits_zeros_append (n : Nat) (cs : List Char) :
    readDigits (List.replicate n '0' ++ cs) = readDigits cs := by
  rw [readDigits_eq, readDigits_eq, Nat.ofDigitChars_append, Nat.ofDigitChars_replicate_zero,
    Nat.mul_zero]

/-- Zeros behind are powers of ten. -/
theorem readDigits_append_zeros (cs : List Char) (n : Nat) :
    readDigits (cs ++ List.replicate n '0') = readDigits cs * 10 ^ n := by
  rw [readDigits_eq, readDigits_eq, Nat.ofDigitChars_append, Nat.ofDigitChars_replicate_zero,
    Nat.mul_comm]

theorem isDigit_of_mem_toDigits {n : Nat} {c : Char} (h : c ∈ Nat.toDigits 10 n) :
    c.isDigit = true := Nat.isDigit_of_mem_toDigits (by decide) (by decide) h

/-- The first digit of a number is a zero only if the number is zero. -/
theorem head?_toDigits {n : Nat} (h : n ≠ 0) : (Nat.toDigits 10 n).head? ≠ some '0' := by
  induction n using Nat.strongRecOn with
  | _ n ih =>
    rw [Nat.toDigits_eq_if (by decide)]
    split
    · next hlt =>
      have hsmall : ∀ n < 10, n ≠ 0 → [n.digitChar].head? ≠ some '0' := by decide
      exact hsmall n hlt h
    · next hge =>
      have hhead := ih (n / 10) (by omega) (by omega)
      rw [List.head?_append]
      cases hdigits : (Nat.toDigits 10 (n / 10)).head? with
      | none => exact absurd (List.head?_eq_none_iff.1 hdigits) Nat.toDigits_ne_nil
      | some c =>
        rw [hdigits] at hhead
        exact hhead

/-! ### Parts -/

/-- The digits before the point, those behind it, and the sign and the digits of the exponent. -/
structure Parts where
  whole : List Char
  fraction : List Char
  exponent : Option (Char × List Char)

namespace Parts

/-- A point and the digits behind it, if there are any. -/
def fractionText (p : Parts) : List Char := if p.fraction.isEmpty then [] else '.' :: p.fraction

/-- The exponent with its mark, if there is one. -/
def exponentText (p : Parts) : List Char :=
  match p.exponent with
  | none => []
  | some (sign, ds) => 'e' :: sign :: ds

/-- The parts put together. -/
def text (p : Parts) : List Char := p.whole ++ (p.fractionText ++ p.exponentText)

/-- The value of the exponent. -/
def exponent? (p : Parts) : Option Int :=
  p.exponent.map fun (sign, ds) => if sign = '-' then -(readDigits ds : Int) else readDigits ds

/-- The number without its sign. -/
def value (p : Parts) : Decimal := decimalOf p.whole p.fraction (p.exponent?.getD 0)

/-- The digits are digits, at least one stands before the point, and an exponent has a sign and a
digit. -/
structure Proper (p : Parts) : Prop where
  whole_ne_nil : p.whole ≠ []
  whole : ∀ c ∈ p.whole, c.isDigit = true
  fraction : ∀ c ∈ p.fraction, c.isDigit = true
  exponent : ∀ sign ds, p.exponent = some (sign, ds) →
    (sign = '-' ∨ sign = '+') ∧ ds ≠ [] ∧ ∀ c ∈ ds, c.isDigit = true

end Parts

/-- A text that does not continue a number. -/
def Closes (cs : List Char) : Prop :=
  ∀ c ∈ cs.head?, c.isDigit = false ∧ c ≠ '.' ∧ c ≠ 'e' ∧ c ≠ 'E'

theorem closes_nil : Closes [] := nofun

section Spans

variable {p : Parts} {rest : List Char} (hp : p.Proper) (hrest : Closes rest)

theorem spanFraction_of_ne {cs : List Char} (h : ∀ c ∈ cs.head?, c ≠ '.') :
    spanFraction cs = ([], cs) := by
  unfold spanFraction
  split
  · exact absurd rfl (h '.' rfl)
  · rfl

include hrest in
theorem noDigit_exponentText : NoDigit (p.exponentText ++ rest) := by
  unfold Parts.exponentText
  split
  · exact fun c hc => (hrest c hc).1
  · intro c hc
    cases hc
    rfl

include hp hrest in
theorem spanDigits_text :
    spanDigits (p.text ++ rest) = (p.whole, p.fractionText ++ (p.exponentText ++ rest)) := by
  have hnext : NoDigit (p.fractionText ++ (p.exponentText ++ rest)) := by
    unfold Parts.fractionText
    split
    · exact noDigit_exponentText hrest
    · intro c hc
      cases hc
      rfl
  rw [Parts.text, List.append_assoc, List.append_assoc]
  exact spanDigits_append hp.whole hnext

include hp hrest in
theorem spanFraction_text :
    spanFraction (p.fractionText ++ (p.exponentText ++ rest)) =
      (p.fraction, p.exponentText ++ rest) := by
  have hpoint : ∀ c ∈ (p.exponentText ++ rest).head?, c ≠ '.' := by
    unfold Parts.exponentText
    split
    · exact fun c hc => (hrest c hc).2.1
    · intro c hc
      cases hc
      decide
  unfold Parts.fractionText
  cases hfraction : p.fraction with
  | nil => exact spanFraction_of_ne hpoint
  | cons c ds =>
    have hdigits := hp.fraction
    rw [hfraction] at hdigits
    have hspan := spanDigits_append hdigits (noDigit_exponentText (p := p) hrest)
    simpa [spanFraction, hdigits c List.mem_cons_self] using hspan

include hp hrest in
theorem spanExponent_text : spanExponent (p.exponentText ++ rest) = (p.exponent?, rest) := by
  unfold Parts.exponentText Parts.exponent?
  cases hexponent : p.exponent with
  | none =>
    cases rest with
    | nil => rfl
    | cons c rest =>
      obtain ⟨-, -, he, hE⟩ := hrest c rfl
      simp [spanExponent, he, hE]
  | some part =>
    obtain ⟨sign, ds⟩ := part
    obtain ⟨hsign, hne, hds⟩ := hp.exponent sign ds hexponent
    have hspan := spanDigits_append hds fun c hc => (hrest c hc).1
    have hsome : ds.isEmpty = false := by simpa using hne
    rcases hsign with rfl | rfl <;> simp [spanExponent, hspan, hsome]

end Spans

/-- A number begins with a digit. -/
theorem Parts.Proper.text_eq_cons {p : Parts} (hp : p.Proper) :
    ∃ c cs, p.text = c :: cs ∧ c.isDigit = true := by
  obtain ⟨c, ds, hwhole⟩ := List.exists_cons_of_ne_nil hp.whole_ne_nil
  refine ⟨c, ds ++ (p.fractionText ++ p.exponentText), ?_, hp.whole c (by simp [hwhole])⟩
  rw [Parts.text, hwhole, List.cons_append]

/-- A number is written with digits and four marks. -/
theorem Parts.Proper.mem_text {p : Parts} (hp : p.Proper) {c : Char} (h : c ∈ p.text) :
    c.isDigit = true ∨ c ∈ ['.', 'e', '-', '+'] := by
  rw [Parts.text, List.mem_append, List.mem_append] at h
  rcases h with h | h | h
  · exact .inl (hp.whole c h)
  · unfold Parts.fractionText at h
    split at h
    · cases h
    · rcases List.mem_cons.1 h with rfl | h
      · exact .inr (by decide)
      · exact .inl (hp.fraction c h)
  · unfold Parts.exponentText at h
    split at h
    · cases h
    · next sign ds hexponent =>
      obtain ⟨hsign, -, hds⟩ := hp.exponent sign ds hexponent
      rcases List.mem_cons.1 h with rfl | h
      · exact .inr (by decide)
      · rcases List.mem_cons.1 h with rfl | h
        · rcases hsign with rfl | rfl
          · exact .inr (by decide)
          · exact .inr (by decide)
        · exact .inl (hds c h)

/-- Numbers that are written alike have the same value. -/
theorem Parts.value_eq_of_text {p q : Parts} (hp : p.Proper) (hq : q.Proper)
    (h : p.text = q.text) : p.value = q.value := by
  have hdigits := spanDigits_text hp closes_nil
  rw [h, spanDigits_text hq closes_nil] at hdigits
  obtain ⟨hwhole, hrest⟩ := Prod.mk.inj hdigits
  have hfraction := spanFraction_text hp closes_nil
  rw [← hrest, spanFraction_text hq closes_nil] at hfraction
  obtain ⟨hfraction, hrest⟩ := Prod.mk.inj hfraction
  have hexponent := spanExponent_text hp closes_nil
  rw [← hrest, spanExponent_text hq closes_nil] at hexponent
  rw [Parts.value, Parts.value, hwhole, hfraction, (Prod.mk.inj hexponent).1]

/-- A number in parts is read as its value. -/
theorem readMagnitude?_text {p : Parts} (hp : p.Proper) (negative : Bool) :
    readMagnitude? negative p.text = some (p.value.toFloat negative) := by
  have hspan := spanDigits_text hp closes_nil
  have hfraction := spanFraction_text hp closes_nil
  have hexponent := spanExponent_text hp closes_nil
  simp only [List.append_nil] at hspan hfraction hexponent
  have hwhole : p.whole.isEmpty = false := by simpa using hp.whole_ne_nil
  -- the words begin with a letter, and a number with a digit
  obtain ⟨c, cs, htext, hc⟩ := hp.text_eq_cons
  have hword (d : Char) (ds : List Char) (hd : d.isDigit = false) :
      (p.text == d :: ds) = false := by
    rw [htext, beq_eq_false_iff_ne]
    rintro heq
    cases heq
    rw [hc] at hd
    cases hd
  have hinf : (p.text == "inf".toList) = false := hword 'i' ['n', 'f'] rfl
  have hnan : (p.text == "nan".toList) = false := hword 'n' ['a', 'n'] rfl
  rw [readMagnitude?, hinf, hnan]
  simp [hspan, hfraction, hexponent, hwhole, Parts.value]

end Number

/-! ### The layout of a number -/

open Number

/-- The number is written in these parts. -/
structure Layout.Writes (l : Layout) (d : Decimal) (p : Parts) : Prop where
  proper : p.Proper
  text : l.write d = p.text
  /-- It cannot be taken for an integer. -/
  fractional : p.fraction ≠ [] ∨ p.exponent ≠ none
  /-- It has no zero in front of other digits. -/
  lead : (d.digits = 0 → d.exponent = 0) → p.whole = ['0'] ∨ p.whole.head? ≠ some '0'
  /-- It is read as the number, with zeros put behind the digits. -/
  value : ∃ n : Nat, p.value = { digits := d.digits * 10 ^ n, exponent := d.exponent - n }

/-- What is written for zero is read as zero. -/
theorem Layout.Writes.zero {l : Layout} {d : Decimal} {p : Parts} (h : l.Writes d p)
    (hd : d.digits = 0) : p.value.digits = 0 := by
  obtain ⟨n, hvalue⟩ := h.value
  rw [hvalue, hd]
  exact Nat.zero_mul _

theorem exponentText_eq (width : Nat) (e : Int) :
    ∃ sign ds, exponentText width e = 'e' :: sign :: ds ∧ (sign = '-' ∨ sign = '+') ∧ ds ≠ [] ∧
      (∀ c ∈ ds, c.isDigit = true) ∧
      (if sign = '-' then -(readDigits ds : Int) else readDigits ds) = e := by
  refine ⟨if e < 0 then '-' else '+', _, rfl, ?_, ?_, ?_, ?_⟩
  · split
    · exact .inl rfl
    · exact .inr rfl
  · exact List.append_ne_nil_of_right_ne_nil _ Nat.toDigits_ne_nil
  · intro c hc
    rcases List.mem_append.1 hc with hc | hc
    · rw [List.eq_of_mem_replicate hc]
      rfl
    · exact isDigit_of_mem_toDigits hc
  · rw [readDigits_zeros_append, readDigits_toDigits]
    by_cases he : e < 0
    · rw [if_pos he, if_pos rfl]
      omega
    · rw [if_neg he, if_neg (by decide)]
      omega

/-- With the point behind `n` digits, the digits before it and behind it are those given, filled up
with zeros. -/
theorem pointed_eq {digits : List Char} (hdigits : digits ≠ []) {n : Int} (hn : 0 < n) :
    ∃ whole fraction, pointed digits n = whole ++ '.' :: fraction ∧ fraction ≠ [] ∧
      whole.length = n.toNat ∧ whole.head? = digits.head? ∧
      ∃ k, whole ++ fraction = digits ++ List.replicate k '0' := by
  refine ⟨digits.take n.toNat ++ List.replicate (n.toNat - digits.length) '0',
    if (digits.drop n.toNat).isEmpty then ['0'] else digits.drop n.toNat, ?_, ?_, ?_, ?_, ?_⟩
  · rw [pointed, if_neg (by omega)]
  · split
    · exact nofun
    · next hsome => exact fun hnil => hsome (by simp [hnil])
  · rw [List.length_append, List.length_take, List.length_replicate]
    omega
  · obtain ⟨c, ds, rfl⟩ := List.exists_cons_of_ne_nil hdigits
    obtain ⟨k, hk⟩ : ∃ k, n.toNat = k + 1 := ⟨n.toNat - 1, by omega⟩
    simp [hk]
  · by_cases hlong : n.toNat < digits.length
    · have hdrop : (digits.drop n.toNat).isEmpty = false := by simpa using hlong
      refine ⟨0, ?_⟩
      rw [hdrop, Nat.sub_eq_zero_of_le (Nat.le_of_lt hlong)]
      simp
    · have hdrop : digits.drop n.toNat = [] := List.drop_eq_nil_of_le (by omega)
      refine ⟨n.toNat - digits.length + 1, ?_⟩
      rw [hdrop, List.take_of_length_le (by omega), List.replicate_succ']
      simp

/-- A number with its point among the digits, or with zeros between the point and them. -/
theorem Layout.writes_pointed {l : Layout} {d : Decimal} {n : Int}
    (hn : n = d.exponent + (Nat.toDigits 10 d.digits).length)
    (h : l.write d = pointed (Nat.toDigits 10 d.digits) n) : ∃ p, l.Writes d p := by
  have hread (c : Char) (hc : c ∈ Nat.toDigits 10 d.digits ∨ c = '0') : c.isDigit = true := by
    rcases hc with hc | rfl
    · exact isDigit_of_mem_toDigits hc
    · rfl
  have hzero (hd : d.digits = 0) : Nat.toDigits 10 d.digits = ['0'] := by rw [hd]; rfl
  by_cases hsmall : n ≤ 0
  · let p : Parts := ⟨['0'], List.replicate n.natAbs '0' ++ Nat.toDigits 10 d.digits, none⟩
    have hmem : ∀ c ∈ p.whole ++ p.fraction, c ∈ Nat.toDigits 10 d.digits ∨ c = '0' := by
      intro c hc
      simp only [p, List.mem_append, List.mem_singleton] at hc
      rcases hc with hc | hc | hc
      · exact .inr hc
      · exact .inr (List.eq_of_mem_replicate hc)
      · exact .inl hc
    have hne : p.fraction ≠ [] := List.append_ne_nil_of_right_ne_nil _ Nat.toDigits_ne_nil
    refine ⟨p, ⟨nofun, ?_, ?_, nofun⟩, ?_, .inl hne, fun _ => .inl rfl, 0, ?_⟩
    · exact fun c hc => hread c (hmem c (List.mem_append_left _ hc))
    · exact fun c hc => hread c (hmem c (List.mem_append_right _ hc))
    · have hempty : p.fraction.isEmpty = false := by simpa using hne
      rw [h, pointed, if_pos hsmall, Parts.text, Parts.fractionText, hempty]
      simp [p, Parts.exponentText]
    · have hdigits : readDigits (p.whole ++ p.fraction) = d.digits := by
        have hzeros : p.whole ++ p.fraction =
            List.replicate (n.natAbs + 1) '0' ++ Nat.toDigits 10 d.digits := by
          simp [p, List.replicate_succ]
        rw [hzeros, readDigits_zeros_append, readDigits_toDigits]
      rw [Parts.value, decimalOf, hdigits, Nat.pow_zero, Nat.mul_one, Decimal.mk.injEq]
      simp only [p, Parts.exponent?, Option.map_none, Option.getD_none, List.length_append,
        List.length_replicate, true_and]
      omega
  · obtain ⟨whole, fraction, hpointed, hne, hlength, hhead, k, hdigits⟩ :=
      pointed_eq (Nat.toDigits_ne_nil : Nat.toDigits 10 d.digits ≠ []) (n := n) (by omega)
    let p : Parts := ⟨whole, fraction, none⟩
    have hmem : ∀ c ∈ p.whole ++ p.fraction, c ∈ Nat.toDigits 10 d.digits ∨ c = '0' := by
      intro c hc
      rw [hdigits] at hc
      exact (List.mem_append.1 hc).imp_right List.eq_of_mem_replicate
    refine ⟨p, ⟨?_, ?_, ?_, nofun⟩, ?_, .inl hne, fun hexp => ?_, k, ?_⟩
    · refine List.ne_nil_of_length_pos ?_
      simp only [p, hlength]
      omega
    · exact fun c hc => hread c (hmem c (List.mem_append_left _ hc))
    · exact fun c hc => hread c (hmem c (List.mem_append_right _ hc))
    · rw [h, hpointed, Parts.text, Parts.fractionText]
      simp [p, Parts.exponentText, hne]
    · by_cases hd : d.digits = 0
      · -- one zero, and the point stands behind it
        have hone : whole.length = 1 := by simp [hlength, hn, hzero hd, hexp hd]
        obtain ⟨c, hc⟩ := List.length_eq_one_iff.1 hone
        rw [hc, hzero hd] at hhead
        cases hhead
        exact .inl hc
      · exact .inr (hhead ▸ head?_toDigits hd)
    · have hread : readDigits (p.whole ++ p.fraction) = d.digits * 10 ^ k := by
        rw [hdigits, readDigits_append_zeros, readDigits_toDigits]
      have hlengths := congrArg List.length hdigits
      rw [List.length_append, List.length_append, List.length_replicate, hlength] at hlengths
      rw [Parts.value, decimalOf, hread, Decimal.mk.injEq]
      simp only [p, Parts.exponent?, Option.map_none, Option.getD_none, true_and]
      omega

/-- Every number is written in parts. -/
theorem Layout.exists_parts (l : Layout) (d : Decimal) : ∃ p, l.Writes d p := by
  have hdigits (c : Char) (hc : c ∈ Nat.toDigits 10 d.digits) := isDigit_of_mem_toDigits hc
  obtain ⟨sign, ds, hexponent, hsign, hne, hds, hvalue⟩ := exponentText_eq l.exponentWidth
    (d.exponent + (Nat.toDigits 10 d.digits).length - 1)
  have hproper (sign' : Char) (ds' : List Char) (heq : some (sign, ds) = some (sign', ds')) :
      (sign' = '-' ∨ sign' = '+') ∧ ds' ≠ [] ∧ ∀ c ∈ ds', c.isDigit = true := by
    cases heq
    exact ⟨hsign, hne, hds⟩
  by_cases hpoint : l.positionalFrom ≤ d.exponent + (Nat.toDigits 10 d.digits).length - 1 ∧
      d.exponent + (Nat.toDigits 10 d.digits).length - 1 < l.positionalBelow
  · refine Layout.writes_pointed ?_ (if_pos hpoint)
    omega
  · have hwrite : l.write d = _ := if_neg hpoint
    rw [hexponent] at hwrite
    cases hcases : Nat.toDigits 10 d.digits with
    | nil => exact absurd hcases Nat.toDigits_ne_nil
    | cons c rest =>
      rw [hcases] at hwrite hdigits
      have hlead : [c] = ['0'] ∨ [c].head? ≠ some '0' := by
        by_cases hc : c = '0' <;> simp [hc]
      have hc : ∀ c' ∈ [c], c'.isDigit = true := by simpa using hdigits c List.mem_cons_self
      have hrest : ∀ c' ∈ rest, c'.isDigit = true := fun c' hc' =>
        hdigits c' (List.mem_cons_of_mem _ hc')
      refine ⟨⟨[c], rest, some (sign, ds)⟩, ⟨nofun, hc, hrest, hproper⟩, ?_, .inr nofun,
        fun _ => hlead, 0, ?_⟩
      · rw [hwrite]
        cases rest <;> simp [Parts.text, Parts.fractionText, Parts.exponentText]
      · have hread : readDigits ([c] ++ rest) = d.digits := by
          rw [List.singleton_append, ← hcases, readDigits_toDigits]
        rw [hcases, List.length_cons] at hvalue
        rw [Parts.value, decimalOf, hread, Nat.pow_zero, Nat.mul_one, Decimal.mk.injEq]
        simp only [Parts.exponent?, Option.map_some, Option.getD_some, hvalue, true_and]
        omega

namespace Number

/-- A minus sign, or nothing. -/
def signText (negative : Bool) : List Char := if negative then ['-'] else []

/-- The text of a finite float: its sign and the parts of its shortest decimal. -/
theorem toList_inspect {x : Float} (hnan : x.isNaN = false) (hinf : x.isInf = false) :
    ∃ p : Parts, layout.Writes (Binary.ofFloat x).shortest p ∧
      (inspect x).toList = signText (isNegative x) ++ p.text := by
  obtain ⟨p, hp⟩ := layout.exists_parts (Binary.ofFloat x).shortest
  refine ⟨p, hp, ?_⟩
  simp only [inspect, hnan, hinf, hp.text]
  cases isNegative x <;> simp [signText]

/-- The text of a finite float that is read back: its sign and its parts. -/
theorem exists_parts_inspect {x : Float} (hnan : x.isNaN = false) (hinf : x.isInf = false)
    (hread : read? (inspect x) = some x) :
    ∃ p : Parts, p.Proper ∧ (inspect x).toList = signText (isNegative x) ++ p.text ∧
      (p.fraction ≠ [] ∨ p.exponent ≠ none) ∧
      (p.whole = ['0'] ∨ p.whole.head? ≠ some '0') ∧ p.value.toFloat (isNegative x) = x := by
  obtain ⟨p, hp, htext⟩ := toList_inspect hnan hinf
  obtain ⟨c, cs, hcons, hc⟩ := hp.proper.text_eq_cons
  have hvalue : p.value.toFloat (isNegative x) = x := by
    have hmagnitude : read? (inspect x) = readMagnitude? (isNegative x) p.text := by
      rw [read?, htext]
      cases hsign : isNegative x with
      | true => simp [signText]
      | false =>
        have hminus : c ≠ '-' := by
          rintro rfl
          cases hc
        simp [signText, hcons, hminus]
    rw [hmagnitude, readMagnitude?_text hp.proper] at hread
    exact Option.some.inj hread
  -- the shortest digits of a float are zero only if the float is a zero
  have hzero (hdigits : (Binary.ofFloat x).shortest.digits = 0) :
      (Binary.ofFloat x).shortest.exponent = 0 := by
    have hx : x = 0.0 ∨ x = -0.0 := by
      rw [Decimal.toFloat, hp.zero hdigits] at hvalue
      cases hsign : isNegative x with
      | true => exact .inr (by rw [← hvalue, hsign]; rfl)
      | false => exact .inl (by rw [← hvalue, hsign]; rfl)
    rcases hx with rfl | rfl <;> decide +kernel
  exact ⟨p, hp.proper, htext, hp.fractional, hp.lead hzero, hvalue⟩

end Number

end Scriptlet
