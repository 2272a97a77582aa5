import Mathlib.Data.List.Forall2
import Scriptlet.Proofs.Scan.Front
import Scriptlet.Strict.Lexeme

/-!
# The two ways to cut a text agree

A text in which the scanner finds nothing wrong, and no dot outside a number, is cut by the strict
front end into the same lexemes. The two differ on other texts: the strict front end lets numerals
of every script continue a name, where the scanner stops and complains about the numeral. They also
count the lines of a string from different ends, so tokens agree up to the line of a string.

## Main definitions

* `Token.Agrees` — equality up to the line of a string
* `Segment.piece` — what the strict front end makes of a segment

## Main results

* `Strict.first_eq` — both take the same characters from the front of a text
* `Strict.cut_of_scan` — both yield tokens that agree
-/

namespace Scriptlet

/-- The same token, except that strings may stand on different lines. -/
def Token.Agrees (t t' : Token) : Prop :=
  t' = t ∨ t.kind = .string ∧ t' = { t with line := t'.line }

theorem Token.Agrees.kind_eq {t t' : Token} (h : t.Agrees t') : t'.kind = t.kind := by
  rcases h with rfl | ⟨-, h⟩
  · rfl
  · rw [h]

theorem Token.Agrees.literal_eq {t t' : Token} (h : t.Agrees t') : t'.literal = t.literal := by
  rcases h with rfl | ⟨-, h⟩
  · rfl
  · rw [h]

theorem Token.Agrees.eq {t t' : Token} (h : t.Agrees t') (hkind : t.kind ≠ .string) : t' = t := by
  rcases h with rfl | ⟨hstring, -⟩
  · rfl
  · exact absurd hstring hkind

/-! ### Characters -/

namespace Text

/-- No letter beyond ASCII is a decimal digit. -/
theorem letterRanges_disjoint :
    ∀ r ∈ letterRanges, ∀ s ∈ decimalDigitRanges, r.2 < s.1 ∨ s.2 < r.1 := by
  have hall : (letterRanges.all fun r =>
      decimalDigitRanges.all fun s => r.2.blt s.1 || s.2.blt r.1) = true := by decide +kernel
  simpa only [List.all_eq_true, Bool.or_eq_true, Nat.blt_eq] using hall

theorem isDigit_of_isAlpha {c : Char} (h : c.isAlpha = true) : c.isDigit = false := by
  rw [Bool.eq_false_iff]
  intro hdigit
  -- all letters have greater code points than the digits
  have hle : c.val ≤ '9'.val := of_decide_eq_true (Bool.and_eq_true_iff.1 hdigit).2
  rcases Bool.or_eq_true_iff.1 h with hupper | hlower
  · have hge : 'A'.val ≤ c.val := (of_decide_eq_true hupper).1
    exact absurd (UInt32.le_trans hge hle) (by decide)
  · have hge : 'a'.val ≤ c.val := of_decide_eq_true (Bool.and_eq_true_iff.1 hlower).1
    exact absurd (UInt32.le_trans hge hle) (by decide)

theorem isDecimalDigit_of_isLetter {c : Char} (h : isLetter c = true) :
    isDecimalDigit c = false := by
  unfold isLetter at h
  unfold isDecimalDigit
  split
  -- among ASCII the two are ranges of the library
  · next hascii =>
    rw [if_pos hascii] at h
    exact isDigit_of_isAlpha h
  · next hascii =>
    -- beyond it they are tables without a common entry
    rw [if_neg hascii, inRanges_iff] at h
    obtain ⟨r, hr, hlo, hhi⟩ := h
    rw [Bool.eq_false_iff, Ne, inRanges_iff]
    rintro ⟨s, hs, hlo', hhi'⟩
    have := letterRanges_disjoint r hr s hs
    omega

end Text

namespace Segment

theorem isWordStart_of_isNameStart {c : Char} (h : isNameStart c = true) :
    Text.isWordStart c = true := by
  simp only [isNameStart, Bool.or_eq_true, beq_iff_eq] at h
  rcases h with h | rfl
  · simp [Text.isWordStart, Text.isWordChar, h, Text.isDecimalDigit_of_isLetter h]
  · decide

/-- Among ASCII, words and names are made of the same characters. -/
theorem isNameChar_of_isWordChar {c : Char} (h : Text.isWordChar c = true) (hc : c.toNat < 128) :
    isNameChar c = true := by
  simp only [Text.isWordChar, Text.isDecimalDigit, Text.isOtherNumeric, if_pos hc] at h
  simp only [isNameChar, isNameStart]
  grind

theorem isWordChar_of_isNameChar {c : Char} (h : isNameChar c = true) :
    Text.isWordChar c = true := by
  simp only [isNameChar, Bool.or_eq_true] at h
  rcases h with h | h
  · have := isWordStart_of_isNameStart h
    simp only [Text.isWordStart, Bool.and_eq_true] at this
    exact this.1
  · have hc : c.toNat < 128 := by
      simp only [Char.isDigit, Bool.and_eq_true, decide_eq_true_eq, UInt32.le_iff_toNat_le] at h
      exact Nat.lt_of_le_of_lt h.2 (by decide)
    simp [Text.isWordChar, Text.isDecimalDigit, hc, h]

/-- A character beyond ASCII that starts no name starts nothing. -/
theorem first_eq_stray {c : Char} (hc : 128 ≤ c.toNat) (h : isNameStart c = false)
    (cs : List Char) : first c cs = (.stray c, cs) := by
  -- every other case of the scanner is for an ASCII character
  have hne (c' : Char) (hc' : c'.toNat < 128) : c ≠ c' := by
    rintro rfl
    omega
  have hsingle : single? c = none := by
    unfold single?
    split <;> first | rfl | exact absurd rfl (hne _ (by decide))
  have hwidened : widened? c = none := by
    unfold widened?
    split <;> first | rfl | exact absurd rfl (hne _ (by decide))
  have hdigit : c.isDigit = false := by
    rw [Bool.eq_false_iff]
    intro hdigit
    simp only [Char.isDigit, Bool.and_eq_true, decide_eq_true_eq, UInt32.le_iff_toNat_le] at hdigit
    exact absurd (Nat.le_trans hc hdigit.2) (by decide)
  simp [first, hsingle, hwidened, isSpacing, h, hdigit, hne ' ', hne '\r', hne '\t', hne '\n',
    hne '/', hne '"']

/-- The piece that the strict front end makes of a segment. -/
def piece : Segment → Strict.Piece
  | lexeme kind text => .lexeme kind text
  | s => .gap s.text

theorem text_piece (s : Segment) : s.piece.text = s.text := by
  cases s <;> rfl

end Segment

namespace Strict

open Segment

/-! ### The front of a text -/

theorem takeWhile_congr {p q : Char → Bool} {cs : List Char} (hpq : ∀ c, p c = true → q c = true)
    (hend : ∀ c ∈ (cs.dropWhile p).head?, q c = false) :
    cs.takeWhile q = cs.takeWhile p ∧ cs.dropWhile q = cs.dropWhile p := by
  induction cs with
  | nil => exact ⟨rfl, rfl⟩
  | cons c cs ih =>
    cases hc : p c with
    | true =>
      obtain ⟨htake, hdrop⟩ := ih (by simpa [hc] using hend)
      simp [hc, hpq c hc, htake, hdrop]
    | false =>
      -- the shorter run ends here, and the condition is about this character
      have hq : q c = false := hend c (by simp [hc])
      simp [hc, hq]

theorem first_of_single {c : Char} {kind : Kind} (h : single? c = some kind) (hdot : kind ≠ .dot)
    (cs : List Char) : first c cs = some (.lexeme kind [c], cs) := by
  unfold single? at h
  split at h <;> cases h
  -- the dot is the one character that only the scanner takes alone
  case h_8 => exact absurd rfl hdot
  all_goals cases cs <;> rfl

/-- Every operator of two characters ends in an equals sign. -/
theorem doubleOperator?_eq_none {c c' : Char} (h : c' ≠ '=') (cs : List Char) :
    doubleOperator? c (c' :: cs) = none := by
  simp [doubleOperator?, doubleOperators, h.symm]

theorem first_of_widened {c : Char} {wide narrow : Kind} (h : widened? c = some (wide, narrow))
    (cs : List Char) :
    first c cs = some ((widenable c wide narrow cs).1.piece, (widenable c wide narrow cs).2) := by
  unfold widened? at h
  split at h <;> cases h
  all_goals
    unfold widenable
    split
    · rfl
    · next hne =>
      cases cs with
      | nil => rfl
      | cons c' cs =>
        -- without an equals sign next, no operator of two characters matches
        have hc' : c' ≠ '=' := by
          rintro rfl
          exact hne cs rfl
        change (doubleOperator? _ (c' :: cs)).or _ = _
        rw [doubleOperator?_eq_none hc']
        rfl

theorem first_of_slash {cs : List Char} (h : (slash cs).1.complaint? = none) :
    first '/' cs = some ((slash cs).1.piece, (slash cs).2) := by
  change (comment? cs).or (operator? '/' cs) = _
  unfold slash at h ⊢
  split at h
  · rfl
  · next rest =>
    unfold comment at h ⊢
    split at h
    · next hend =>
      rw [comment?, hend]
      rfl
    -- a block comment without end is complained about
    · cases h
  · next hline hblock =>
    have hcomment : comment? cs = none := by
      unfold comment?
      split
      · exact absurd rfl (hline _)
      · exact absurd rfl (hblock _)
      · rfl
    rw [hcomment]
    cases cs <;> rfl

theorem first_of_string {cs : List Char} (h : (string cs).1.complaint? = none) :
    first '"' cs = some ((string cs).1.piece, (string cs).2) := by
  change (untilQuote? cs).map _ = _
  unfold string at h ⊢
  split at h
  · next hquote =>
    rw [hquote]
    rfl
  · cases h

/-- A character that only words contain, and no names, is a stray one for the scanner. -/
theorem isNameChar_of_first {c : Char} {cs : List Char}
    (h : (Segment.first c cs).1.complaint? = none) (hword : Text.isWordChar c = true) :
    isNameChar c = true := by
  by_contra hname
  rw [Bool.not_eq_true] at hname
  -- a numeral of another script is left
  have hascii : 128 ≤ c.toNat := by
    by_contra hlt
    rw [isNameChar_of_isWordChar hword (by omega)] at hname
    cases hname
  have hstart : isNameStart c = false := by
    simp only [isNameChar, Bool.or_eq_false_iff] at hname
    exact hname.1
  rw [first_eq_stray hascii hstart] at h
  cases h

/-- Both take the same characters for a name, if the character behind it continues both or
neither. -/
theorem first_of_word {c : Char} {cs : List Char} (hdigit : c.isDigit = false) (hquote : c ≠ '"')
    (hstart : isNameStart c = true)
    (hnext : ∀ c' ∈ (word c cs).2.head?, Text.isWordChar c' = true → isNameChar c' = true) :
    first c cs = some ((word c cs).1.piece, (word c cs).2) := by
  have hend (c' : Char) (hc' : c' ∈ (cs.dropWhile isNameChar).head?) :
      Text.isWordChar c' = false := by
    obtain ⟨cs', hcs'⟩ := List.head?_eq_some_iff.1 hc'
    have hname : isNameChar c' = false := by
      have := List.head_dropWhile_not isNameChar (l := cs) (by simp [hcs'])
      simpa [hcs'] using this
    rw [Bool.eq_false_iff]
    intro hword
    rw [hnext c' hc' hword] at hname
    cases hname
  obtain ⟨htake, hdrop⟩ := takeWhile_congr (fun _ => isWordChar_of_isNameChar) hend
  simp [first, hdigit, hquote, isWordStart_of_isNameStart hstart, htake, hdrop, word, piece]

/-- The front of a text is the same for both, if the scanner does not complain about it and the
character behind it continues names as it continues words. -/
theorem first_eq {c : Char} {cs : List Char} (h : (Segment.first c cs).1.complaint? = none)
    (hdot : ∀ text, (Segment.first c cs).1 ≠ .lexeme .dot text)
    (hnext : ∀ c' ∈ (Segment.first c cs).2.head?,
      Text.isWordChar c' = true → isNameChar c' = true) :
    first c cs = some ((Segment.first c cs).1.piece, (Segment.first c cs).2) := by
  -- the cases are those of the scanner; in each, the strict front end goes the same way
  have hfront := front c cs
  generalize Segment.first c cs = out at h hdot hnext hfront ⊢
  cases hfront with
  | single hkind =>
    refine first_of_single hkind ?_ cs
    rintro rfl
    exact hdot _ rfl
  | widened hwide => exact first_of_widened hwide cs
  | slash hc =>
    cases hc
    exact first_of_slash h
  | spacing hc =>
    simp only [isSpacing, Bool.or_eq_true, beq_iff_eq] at hc
    rcases hc with (rfl | rfl) | rfl <;> rfl
  | newline hc =>
    cases hc
    rfl
  | quote hc =>
    cases hc
    exact first_of_string h
  | digit hdigit =>
    rw [first, if_pos hdigit]
    rfl
  | word hdigit hquote hstart => exact first_of_word hdigit hquote hstart hnext
  | stray => cases h

/-! ### Tokens -/

theorem newline_notMem_takeWhile {p : Char → Bool} (hp : p '\n' = false) (cs : List Char) :
    '\n' ∉ cs.takeWhile p := by
  intro hmem
  have := List.all_eq_true.1 List.all_takeWhile '\n' hmem
  rw [hp] at this
  cases this

theorem newline_notMem_fraction (cs : List Char) : '\n' ∉ (fraction cs).1 := by
  unfold fraction
  split
  · next c rest =>
    split
    · next hc =>
      have hne : '\n' ≠ c := by
        rintro rfl
        cases hc
      have hrest := newline_notMem_takeWhile (p := Char.isDigit) rfl rest
      simp only [List.mem_cons, hne, hrest, or_self, or_false]
      decide
    · exact List.not_mem_nil
  · exact List.not_mem_nil

/-- Only strings go over line ends. -/
theorem newline_notMem_of_lexeme {c : Char} {cs text : List Char} {kind : Kind}
    (h : (Segment.first c cs).1 = .lexeme kind text) (hkind : kind ≠ .string) : '\n' ∉ text := by
  have hfront := front c cs
  generalize Segment.first c cs = out at h hfront
  cases hfront with
  | single hsingle =>
    cases h
    rw [List.mem_singleton]
    rintro rfl
    cases hsingle
  | widened hwide =>
    have hne : '\n' ≠ c := by
      rintro rfl
      cases hwide
    unfold widenable at h
    split at h <;> cases h <;> simp [hne]
  | slash hc =>
    unfold slash comment at h
    repeat' split at h
    all_goals cases h
    decide
  | quote hc =>
    unfold string at h
    split at h <;> cases h
    exact absurd rfl hkind
  | digit hdigit =>
    have hne : '\n' ≠ c := by
      rintro rfl
      cases hdigit
    have hwhole := newline_notMem_takeWhile (p := Char.isDigit) rfl cs
    have hpart := newline_notMem_fraction (cs.dropWhile Char.isDigit)
    cases h
    rw [List.mem_append, List.mem_cons]
    exact not_or.2 ⟨not_or.2 ⟨hne, hwhole⟩, hpart⟩
  | word _ _ hstart =>
    have hne : '\n' ≠ c := by
      rintro rfl
      cases hstart
    cases h
    rw [List.mem_cons]
    exact not_or.2 ⟨hne, newline_notMem_takeWhile (by decide) cs⟩
  | spacing | newline | stray => cases h

/-- The tokens of a segment agree. -/
theorem agrees_token? {c : Char} {cs : List Char} {line : Nat} {t : Token}
    (h : (Segment.first c cs).1.token? (line + (Segment.first c cs).1.newlines) = some t) :
    ∃ t', (Segment.first c cs).1.piece.token? line = some t' ∧ t.Agrees t' := by
  have hline := @newline_notMem_of_lexeme c cs
  generalize (Segment.first c cs).1 = s at h hline ⊢
  cases s with
  | lexeme kind text =>
    cases h
    refine ⟨_, rfl, ?_⟩
    -- the scanner counts the line ends of a segment in, the strict front end does not
    by_cases hkind : kind = .string
    · exact .inr ⟨hkind, rfl⟩
    · refine .inl ?_
      rw [newlines, Segment.text, List.count_eq_zero.2 (hline rfl hkind)]
      rfl
  | _ => cases h

theorem token?_piece {s : Segment} {line line' : Nat} (h : s.token? line = none) :
    s.piece.token? line' = none := by
  cases s with
  | lexeme => cases h
  | _ => rfl

/-- A text without complaints and dots is cut to its end, into tokens that agree with those of the
segments. -/
theorem cutFrom_of_split {cs : List Char}
    (h : ∀ s ∈ split cs, s.complaint? = none ∧ ∀ text, s ≠ .lexeme .dot text) (line last : Nat) :
    ∃ ts l, cutFrom line last cs = (ts, .finished l) ∧
      List.Forall₂ Token.Agrees
        ((located line (split cs)).filterMap fun (line, s) => s.token? line) ts := by
  fun_induction split cs generalizing line last with
  | case1 =>
    rw [cutFrom]
    exact ⟨[], last, rfl, .nil⟩
  | case2 c cs ih =>
    rw [List.forall_mem_cons] at h
    -- a complaint about what follows would be one about the next segment
    have hnext (c' : Char) (hc' : c' ∈ (Segment.first c cs).2.head?) :
        Text.isWordChar c' = true → isNameChar c' = true := by
      obtain ⟨cs', heq⟩ := List.head?_eq_some_iff.1 hc'
      have := h.2
      rw [heq, split, List.forall_mem_cons] at this
      exact isNameChar_of_first this.1.1
    have hfirst := first_eq h.1.1 h.1.2 hnext
    have hline : line + (Segment.first c cs).1.piece.text.count '\n' =
        line + (Segment.first c cs).1.newlines := by
      rw [text_piece, newlines]
    rw [cutFrom, located]
    split
    · next hnone =>
      rw [hfirst] at hnone
      cases hnone
    · next piece rest hsome =>
      rw [hfirst] at hsome
      cases hsome
      dsimp only
      rw [hline]
      cases htoken : (Segment.first c cs).1.token? (line + (Segment.first c cs).1.newlines) with
      | none =>
        obtain ⟨ts, l, hcut, hts⟩ := ih h.2 (line + (Segment.first c cs).1.newlines) last
        refine ⟨ts, l, ?_, ?_⟩
        · rw [token?_piece htoken]
          exact hcut
        · simp only [List.filterMap_cons, htoken]
          exact hts
      | some t =>
        -- the line of a token is remembered for the end
        obtain ⟨ts, l, hcut, hts⟩ := ih h.2 (line + (Segment.first c cs).1.newlines) line
        obtain ⟨t', ht', hagrees⟩ := agrees_token? htoken
        refine ⟨t' :: ts, l, ?_, ?_⟩
        · rw [ht']
          dsimp only
          rw [hcut]
        · simp only [List.filterMap_cons, htoken]
          exact .cons hagrees hts

/-- A text in which the scanner finds nothing wrong, and no dot, is cut to its end, into tokens that
agree with those of the scanner. -/
theorem cut_of_scan {source : String} (h : (scan source).diagnostics = [])
    (hdot : ∀ t ∈ bodyTokens source, t.kind ≠ .dot) :
    ∃ ts l, cut source = (ts, .finished l) ∧
      List.Forall₂ Token.Agrees (bodyTokens source) ts := by
  refine cutFrom_of_split (fun s hs => ⟨complaint?_eq_none h hs, ?_⟩) 1 1
  rintro text rfl
  obtain ⟨line, hline⟩ := exists_mem_located 1 hs
  exact hdot _ (List.mem_filterMap.2 ⟨_, hline, rfl⟩) rfl

end Strict

end Scriptlet
