import Scriptlet.Json.Reader
import Scriptlet.Json.Writer
import Scriptlet.Proofs.Decimal.Numeral

/-!
# Atoms and their texts

What stands in a file for an atom is read back as that atom, with whatever follows it left over: the
words, numbers as long as no digit, point or exponent follows them, and texts, in which every
character that has a meaning to the reader is escaped. Three kinds of atoms need a condition. The
digits of an integer must not be too many, a float must be the one that its shortest digits stand
for, and a NaN must have the mark of those that are read.

## Main definitions

* `Atom.Readable` — the atoms that come back from their text

## Main results

* `Json.string?_rawChar` — texts
* `Json.bareAtom?_atomText` — all other atoms
-/

namespace Scriptlet

/-- The atoms that are read back from the text that is written for them. -/
def Atom.Readable : Atom → Prop
  | .int n => (Nat.toDigits 10 n.natAbs).length ≤ Json.longestInteger
  | .float x => x.isNaN = false ∧ Number.read? (Number.inspect x) = some x
  | .nan mark => mark = 0
  | _ => True

namespace Json

open Number

/-! ### Texts -/

theorem hexValue?_hexDigit {d : Nat} (h : d < 16) : hexValue? (Text.hexDigit d) = some d := by
  have hall : ∀ d < 16, hexValue? (Text.hexDigit d) = some d := by decide
  exact hall d h

/-- Four hexadecimal digits are read as the number that they were written for. -/
theorem unit?_hexDigits {n : Nat} (h : n < 0x10000) (cs : List Char) :
    unit? (Text.hexDigits 4 n ++ cs) = some (n, cs) := by
  have hdigit (k : Nat) : hexValue? (Text.hexDigit (k % 16)) = some (k % 16) :=
    hexValue?_hexDigit (Nat.mod_lt k (by decide))
  have hvalue : (n / 16 / 16 / 16 % 16 * 16 + n / 16 / 16 % 16) * 16 + n / 16 % 16 =
      n / 16 := by omega
  have hn : n / 16 * 16 + n % 16 = n := by omega
  simp [Text.hexDigits, unit?, hdigit, hvalue, hn]

/-- The escape of a control character stands for it. -/
theorem escaped?_unit {c : Char} (h : c.toNat < 0x20) (cs : List Char) :
    escaped? ('u' :: (Text.hexDigits 4 c.toNat ++ cs)) = some (c, cs) := by
  have hunit := unit?_hexDigits (n := c.toNat) (by omega) cs
  have hopens : opensPair c.toNat = false := by simp [opensPair]; omega
  have hcloses : closesPair c.toNat = false := by simp [closesPair]; omega
  have hescaped : escaped? ('u' :: (Text.hexDigits 4 c.toNat ++ cs)) =
      escapedUnit? (Text.hexDigits 4 c.toNat ++ cs) := rfl
  rw [hescaped, escapedUnit?, hunit]
  simp [hopens, hcloses, loneUnit]

/-- A character is escaped, and its escape stands for it, or it is written as it is and has no
meaning of its own to the reader. -/
theorem rawChar_cases (c : Char) :
    (∃ escape, rawChar c = '\\' :: escape ∧ '\r' ∉ escape ∧
      ∀ cs, escaped? (escape ++ cs) = some (c, cs)) ∨
    (rawChar c = [c] ∧ c ≠ '"' ∧ c ≠ '\\' ∧ 0x20 ≤ c.toNat) := by
  by_cases hshort : c ∈ ['"', '\\', '\n', '\r', '\t', '\x08', '\x0c']
  · simp only [List.mem_cons, List.not_mem_nil, or_false] at hshort
    left
    rcases hshort with rfl | rfl | rfl | rfl | rfl | rfl | rfl
    all_goals exact ⟨_, rfl, by decide, fun cs => rfl⟩
  · simp only [List.mem_cons, List.not_mem_nil, or_false, not_or] at hshort
    obtain ⟨hquote, hslash, hnewline, hreturn, htab, hback, hfeed⟩ := hshort
    have hraw : rawChar c = if c.toNat < 0x20 then unitEscape c.toNat else [c] := by
      simp only [rawChar, shortEscape?, beq_iff_eq, hquote, hslash, hnewline, hreturn, htab, hback,
        hfeed, if_false]
      split <;> rfl
    by_cases hcontrol : c.toNat < 0x20
    · left
      rw [hraw, if_pos hcontrol]
      refine ⟨_, rfl, ?_, fun cs => escaped?_unit hcontrol cs⟩
      have hall : ∀ n < 0x20, '\r' ∉ 'u' :: Text.hexDigits 4 n := by decide
      exact hall _ hcontrol
    · exact .inr ⟨by rw [hraw, if_neg hcontrol], hquote, hslash, by omega⟩

/-- One character of a string. -/
theorem stringBody?_rawChar (n : Nat) (acc : List Char) (c : Char) (cs : List Char) :
    stringBody? (n + 1) acc (rawChar c ++ cs) = stringBody? n (c :: acc) cs := by
  rcases rawChar_cases c with ⟨escape, hraw, -, hescape⟩ | ⟨hraw, hquote, hslash, hcontrol⟩
  · rw [hraw, List.cons_append, stringBody?, hescape]
  · rw [hraw, List.singleton_append, stringBody?]
    · rw [if_neg (by omega)]
    · exact hquote
    · exact hslash

theorem stringBody?_flatMap (s : List Char) {n : Nat} (acc rest : List Char)
    (hn : (s.flatMap rawChar).length < n) :
    stringBody? n acc (s.flatMap rawChar ++ '"' :: rest) = some (s.reverse ++ acc, rest) := by
  obtain ⟨n, rfl⟩ := Nat.exists_eq_add_one_of_ne_zero (Nat.ne_zero_of_lt hn)
  induction s generalizing n acc with
  | nil => rfl
  | cons c s ih =>
    have hchar : 0 < (rawChar c).length := by
      rcases rawChar_cases c with ⟨_, hraw, -⟩ | ⟨hraw, -⟩ <;> simp [hraw]
    rw [List.flatMap_cons, List.length_append] at hn
    obtain ⟨m, rfl⟩ := Nat.exists_eq_add_one_of_ne_zero (n := n) (by omega)
    rw [List.flatMap_cons, List.append_assoc, stringBody?_rawChar, ih (c :: acc) m (by omega)]
    simp

/-- A string is read back from its text. -/
theorem string?_rawChar (s : String) (rest : List Char) :
    string? (s.toList.flatMap rawChar ++ '"' :: rest) = some (s, rest) := by
  rw [string?, stringBody?_flatMap]
  · simp
  · simp only [List.length_append]
    omega

/-! ### Words and numbers -/

/-- Behind its sign a number begins with a digit, and so is no word. -/
theorem bareAtom?_signed (negative : Bool) {c : Char} (hc : c.isDigit = true) (cs : List Char) :
    bareAtom? (signText negative ++ c :: cs) = magnitude? negative (c :: cs) := by
  have hne (d : Char) (hd : d.isDigit = false) : (d == c) = false := by
    rw [beq_eq_false_iff_ne]
    rintro rfl
    rw [hc] at hd
    cases hd
  have hi : ('I' == c) = false := hne 'I' rfl
  cases negative with
  | true =>
    have hword : word? ('-' :: c :: cs) = none := by simp [word?, words, dropWord?, hi]
    simp [signText, bareAtom?, hword]
  | false =>
    have hword : word? (c :: cs) = none := by simp [word?, words, dropWord?, hne]
    have hminus : c ≠ '-' := by
      rintro rfl
      cases hc
    simp [signText, bareAtom?, hword, hminus]

section Magnitude

variable {p : Parts} {rest : List Char} (hp : p.Proper) (hrest : Closes rest)
  (hlead : p.whole = ['0'] ∨ p.whole.head? ≠ some '0')

include hp hrest hlead in
theorem wholePart?_text :
    wholePart? (p.text ++ rest) = some (p.whole, p.fractionText ++ (p.exponentText ++ rest)) := by
  have hspan := spanDigits_text hp hrest
  have hwhole : p.whole.isEmpty = false := by simpa using hp.whole_ne_nil
  rcases hlead with hzero | hlead
  · rw [Parts.text, hzero]
    simp [wholePart?]
  · rw [wholePart?, hspan]
    · simp [hwhole]
    · rintro after heq
      obtain ⟨c, ds, hcons⟩ := List.exists_cons_of_ne_nil hp.whole_ne_nil
      rw [Parts.text, hcons] at heq
      cases heq
      exact hlead (by simp [hcons])

include hp hrest hlead in
/-- A number with a fraction or an exponent is read as a float. -/
theorem magnitude?_float (hfractional : p.fraction ≠ [] ∨ p.exponent ≠ none) (negative : Bool) :
    magnitude? negative (p.text ++ rest) = some (.float (p.value.toFloat negative), rest) := by
  have hfloat : (p.fraction.isEmpty && p.exponent?.isNone) = false := by
    rcases hfractional with h | h
    · simp [h]
    · obtain ⟨part, hpart⟩ := Option.ne_none_iff_exists'.1 h
      simp [Parts.exponent?, hpart]
  rw [magnitude?, wholePart?_text hp hrest hlead]
  simp only [spanFraction_text hp hrest, spanExponent_text hp hrest, hfloat]
  rfl

include hrest in
/-- A natural number is read as an integer. -/
theorem magnitude?_int {n : Nat} (hn : (Nat.toDigits 10 n).length ≤ longestInteger)
    (negative : Bool) : magnitude? negative (Nat.toDigits 10 n ++ rest) =
      some (.int (if negative then -(n : Int) else n), rest) := by
  have hlead : Nat.toDigits 10 n = ['0'] ∨ (Nat.toDigits 10 n).head? ≠ some '0' := by
    by_cases hzero : n = 0
    · left
      rw [hzero]
      rfl
    · exact .inr (head?_toDigits hzero)
  let p : Parts := ⟨Nat.toDigits 10 n, [], none⟩
  have hp : p.Proper := ⟨Nat.toDigits_ne_nil, fun c => isDigit_of_mem_toDigits, nofun, nofun⟩
  have htext : p.text = Nat.toDigits 10 n := List.append_nil _
  rw [← htext, magnitude?, wholePart?_text hp hrest hlead]
  simp only [spanFraction_text hp hrest, spanExponent_text hp hrest]
  simp [p, Parts.exponent?, hn, readDigits_toDigits]

end Magnitude

/-- An integer is read back from its text. -/
theorem bareAtom?_intText {n : Int} {rest : List Char} (hrest : Closes rest)
    (hn : (Nat.toDigits 10 n.natAbs).length ≤ longestInteger) :
    bareAtom? ((intText n).toList ++ rest) = some (.int n, rest) := by
  obtain ⟨c, ds, hcons⟩ :=
    List.exists_cons_of_ne_nil (Nat.toDigits_ne_nil : Nat.toDigits 10 n.natAbs ≠ [])
  have hc : c.isDigit = true := isDigit_of_mem_toDigits (by rw [hcons]; exact List.mem_cons_self)
  have htext : (intText n).toList ++ rest = signText (n < 0) ++ c :: (ds ++ rest) := by
    by_cases hneg : n < 0 <;> simp [intText, natText, signText, hneg, hcons]
  have hvalue : (if decide (n < 0) = true then -(n.natAbs : Int) else n.natAbs) = n := by
    by_cases hneg : n < 0
    · rw [if_pos (decide_eq_true hneg)]
      omega
    · rw [if_neg (by simpa using hneg)]
      omega
  rw [htext, bareAtom?_signed _ hc, ← List.cons_append, ← hcons, magnitude?_int hrest hn, hvalue]

/-- A float is read back from its text. -/
theorem bareAtom?_floatText {x : Float} {rest : List Char} (hrest : Closes rest)
    (hx : (Atom.float x).Readable) :
    bareAtom? ((floatText x).toList ++ rest) = some (.float x, rest) := by
  obtain ⟨hnan, hread⟩ := hx
  cases hinf : x.isInf with
  | true =>
    -- an infinite float is one of the two that have words
    have hword : read? (Number.inspect x) =
        some (if isNegative x then -infinity else infinity) := by
      simp only [Number.inspect, hnan, hinf]
      cases isNegative x <;> simp [read?, readMagnitude?]
    have hx : x = if isNegative x then -infinity else infinity :=
      Option.some.inj (hread.symm.trans hword)
    have hpos : floatText infinity = "Infinity" := by decide +kernel
    have hneg : floatText (-infinity) = "-Infinity" := by decide +kernel
    rw [hx]
    split
    · rw [hneg]
      rfl
    · rw [hpos]
      rfl
  | false =>
    obtain ⟨p, hp, htext, hfractional, hlead, hvalue⟩ := exists_parts_inspect hnan hinf hread
    obtain ⟨c, cs, hcons, hc⟩ := hp.text_eq_cons
    have hwritten : floatText x = Number.inspect x := by
      simp only [floatText, hnan, hinf, Bool.false_eq_true, if_false]
    have hmagnitude := magnitude?_float hp hrest hlead hfractional (isNegative x)
    rw [hvalue, hcons, List.cons_append] at hmagnitude
    rw [hwritten, htext, hcons, List.append_assoc, List.cons_append, bareAtom?_signed _ hc,
      hmagnitude]

/-- Every atom other than a text is read back from its text. -/
theorem bareAtom?_atomText {a : Atom} (ha : a.Readable) (htext : ∀ s, a ≠ .text s)
    {rest : List Char} (hrest : Closes rest) :
    bareAtom? ((atomText rawChar a).toList ++ rest) = some (a, rest) := by
  cases a with
  | null => rfl
  | bool b => cases b <;> rfl
  | int n => exact bareAtom?_intText hrest ha
  | float x => exact bareAtom?_floatText hrest ha
  | nan mark =>
    have hmark : mark = 0 := ha
    have hword : atomText rawChar (.nan 0) = "NaN" := by decide +kernel
    rw [hmark, hword]
    rfl
  | text s => exact absurd rfl (htext s)

end Json

end Scriptlet
