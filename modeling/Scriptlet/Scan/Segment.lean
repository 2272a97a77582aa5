import Scriptlet.Text.Letter
import Scriptlet.Token

/-!
# Segments of a program text

A program text is a sequence of segments: blanks, newlines, comments, lexemes, stray characters,
and at most one unterminated string or comment at the very end. Splitting loses nothing: the texts
of the segments, put together, are the program text again. Tokens and diagnostics are read off the
segments.

## Main definitions

* `Segment`, `Segment.text` — segments and the characters they cover
* `Segment.first` — the segment at the front of a text
* `Segment.split` — all segments of a text

## Main results

* `Segment.flatMap_text_split` — the segments of a text, put together, are the text
-/

namespace Scriptlet

/-- A piece of a program text. -/
inductive Segment
  /-- A space, tab or carriage return. -/
  | blank (c : Char)
  | newline
  /-- A comment up to the end of its line; the slashes are left out of `body`. -/
  | lineComment (body : List Char)
  /-- A comment between `/*` and the first `*/` after it. -/
  | blockComment (body : List Char)
  | lexeme (kind : Kind) (text : List Char)
  /-- A character that starts nothing. -/
  | stray (c : Char)
  /-- A string that never ends. -/
  | openString (body : List Char)
  /-- A block comment that never ends. -/
  | openComment (body : List Char)
  deriving DecidableEq

namespace Segment

/-- The characters that a segment covers. -/
def text : Segment → List Char
  | blank c => [c]
  | newline => ['\n']
  | lineComment body => '/' :: '/' :: body
  | blockComment body => '/' :: '*' :: body ++ ['*', '/']
  | lexeme _ text => text
  | stray c => [c]
  | openString body => '"' :: body
  | openComment body => '/' :: '*' :: body

/-- The number of line ends inside a segment. -/
def newlines (s : Segment) : Nat := s.text.count '\n'

/-- A character that may start a name. -/
def isNameStart (c : Char) : Bool := Text.isLetter c || c == '_'

/-- A character that may continue a name. -/
def isNameChar (c : Char) : Bool := isNameStart c || c.isDigit

/-- The blanks that separate lexemes within a line. -/
def isSpacing (c : Char) : Bool := c == ' ' || c == '\r' || c == '\t'

/-- The kinds of lexemes that are one character and nothing else. -/
def single? : Char → Option Kind
  | '(' => some .leftParen
  | ')' => some .rightParen
  | '{' => some .leftBrace
  | '}' => some .rightBrace
  | '[' => some .leftBracket
  | ']' => some .rightBracket
  | ',' => some .comma
  | '.' => some .dot
  | '-' => some .minus
  | '+' => some .plus
  | ';' => some .semicolon
  | '*' => some .star
  | _ => none

/-- The kinds of the operators that an equals sign widens: with it, and without. -/
def widened? : Char → Option (Kind × Kind)
  | '!' => some (.bangEqual, .bang)
  | '=' => some (.equalEqual, .equal)
  | '<' => some (.lessEqual, .less)
  | '>' => some (.greaterEqual, .greater)
  | _ => none

/-- The text before the first quote and the text behind it. -/
def untilQuote? (cs : List Char) : Option (List Char × List Char) :=
  match cs.dropWhile (· != '"') with
  | [] => none
  | _ :: rest => some (cs.takeWhile (· != '"'), rest)

/-- The text before the first `*/` and the text behind it. -/
def untilCommentEnd? : List Char → Option (List Char × List Char)
  | [] => none
  | '*' :: '/' :: rest => some ([], rest)
  | c :: rest => (untilCommentEnd? rest).map fun (body, after) => (c :: body, after)

/-- A string after its opening quote. -/
def string (cs : List Char) : Segment × List Char :=
  match untilQuote? cs with
  | some (body, rest) => (.lexeme .string ('"' :: body ++ ['"']), rest)
  | none => (.openString cs, [])

/-- A block comment after its opening. -/
def comment (cs : List Char) : Segment × List Char :=
  match untilCommentEnd? cs with
  | some (body, rest) => (.blockComment body, rest)
  | none => (.openComment cs, [])

/-- What a slash starts. -/
def slash : List Char → Segment × List Char
  | '/' :: rest => (.lineComment (rest.takeWhile (· != '\n')), rest.dropWhile (· != '\n'))
  | '*' :: rest => comment rest
  | rest => (.lexeme .slash ['/'], rest)

/-- An operator that a following equals sign becomes part of. -/
def widenable (c : Char) (wide narrow : Kind) : List Char → Segment × List Char
  | '=' :: rest => (.lexeme wide [c, '='], rest)
  | rest => (.lexeme narrow [c], rest)

/-- The longest fraction at the front: a point and the digits behind it, if there are any. -/
def fraction : List Char → List Char × List Char
  | '.' :: c :: rest =>
    if c.isDigit then
      ('.' :: c :: rest.takeWhile Char.isDigit, rest.dropWhile Char.isDigit)
    else ([], '.' :: c :: rest)
  | cs => ([], cs)

/-- A number that starts with the digit `c`. -/
def number (c : Char) (cs : List Char) : Segment × List Char :=
  let whole := cs.takeWhile Char.isDigit
  let (part, rest) := fraction (cs.dropWhile Char.isDigit)
  (.lexeme .number (c :: whole ++ part), rest)

/-- A keyword or a name that starts with `c`. -/
def word (c : Char) (cs : List Char) : Segment × List Char :=
  let text := c :: cs.takeWhile isNameChar
  (.lexeme (Kind.ofWord (String.ofList text)) text, cs.dropWhile isNameChar)

/-- The segment that starts with `c`, and the text behind it. -/
def first (c : Char) (cs : List Char) : Segment × List Char :=
  match single? c with
  | some kind => (.lexeme kind [c], cs)
  | none =>
    match widened? c with
    | some (wide, narrow) => widenable c wide narrow cs
    | none =>
      if c == '/' then slash cs
      else if isSpacing c then (.blank c, cs)
      else if c == '\n' then (.newline, cs)
      else if c == '"' then string cs
      else if c.isDigit then number c cs
      else if isNameStart c then word c cs
      else (.stray c, cs)

theorem length_dropWhile_le (p : Char → Bool) (cs : List Char) :
    (cs.dropWhile p).length ≤ cs.length :=
  (List.dropWhile_sublist p).length_le

theorem length_untilQuote? {cs body rest : List Char} (h : untilQuote? cs = some (body, rest)) :
    rest.length ≤ cs.length := by
  have := length_dropWhile_le (· != '"') cs
  unfold untilQuote? at h
  split at h
  · cases h
  · next heq =>
    cases h
    rw [heq, List.length_cons] at this
    omega

theorem length_untilCommentEnd? {cs body rest : List Char}
    (h : untilCommentEnd? cs = some (body, rest)) : rest.length ≤ cs.length := by
  fun_induction untilCommentEnd? cs generalizing body with
  | case1 => cases h
  | case2 => simp_all; omega
  | case3 c tail _ ih =>
    obtain ⟨⟨b, r⟩, hfound, heq⟩ := Option.map_eq_some_iff.1 h
    cases heq
    have := ih hfound
    simp
    omega

theorem length_fraction_le (cs : List Char) : (fraction cs).2.length ≤ cs.length := by
  unfold fraction
  split
  · next c rest =>
    have := length_dropWhile_le Char.isDigit rest
    split
    · simp
      omega
    · simp
  · simp

/-- The text behind the first segment is no longer than the text behind its first character. -/
theorem length_first_le (c : Char) (cs : List Char) : (first c cs).2.length ≤ cs.length := by
  have drop := length_dropWhile_le
  unfold first
  repeat' split
  · simp
  · unfold widenable
    split <;> simp
  · unfold slash
    split
    · simpa using Nat.le_succ_of_le (drop _ _)
    · unfold comment
      split
      · next heq => simpa using Nat.le_succ_of_le (length_untilCommentEnd? heq)
      · simp
    · simp
  · simp
  · simp
  · unfold string
    split
    · next heq => exact length_untilQuote? heq
    · simp
  · exact Nat.le_trans (length_fraction_le _) (drop _ _)
  · exact drop _ _
  · simp

theorem text_untilQuote? {cs body rest : List Char} (h : untilQuote? cs = some (body, rest)) :
    body ++ '"' :: rest = cs := by
  have whole := List.takeWhile_append_dropWhile (p := (· != '"')) (l := cs)
  unfold untilQuote? at h
  split at h
  · cases h
  · next c after heq =>
    cases h
    have hc : c = '"' := by
      have := List.head_dropWhile_not (· != '"') (l := cs) (by simp [heq])
      simpa [heq] using this
    rw [heq, hc] at whole
    exact whole

theorem text_untilCommentEnd? {cs body rest : List Char}
    (h : untilCommentEnd? cs = some (body, rest)) : body ++ '*' :: '/' :: rest = cs := by
  fun_induction untilCommentEnd? cs generalizing body with
  | case1 => cases h
  | case2 => simp_all
  | case3 c tail _ ih =>
    obtain ⟨⟨b, r⟩, hfound, heq⟩ := Option.map_eq_some_iff.1 h
    cases heq
    simp [ih hfound]

theorem text_fraction (cs : List Char) : (fraction cs).1 ++ (fraction cs).2 = cs := by
  unfold fraction
  split
  · split <;> simp
  · rfl

/-- The first segment and the text behind it are the whole text. -/
theorem text_first (c : Char) (cs : List Char) :
    (first c cs).1.text ++ (first c cs).2 = c :: cs := by
  unfold first
  repeat' split
  · rfl
  · unfold widenable
    split <;> rfl
  · next h =>
    rw [beq_iff_eq.1 h]
    unfold slash
    split
    · simp [text]
    · unfold comment
      split
      · next heq => simp [text, text_untilCommentEnd? heq]
      · simp [text]
    · rfl
  · rfl
  · next h => simp [text, beq_iff_eq.1 h]
  · next h =>
    rw [beq_iff_eq.1 h]
    unfold string
    split
    · next heq => simp [text, text_untilQuote? heq]
    · simp [text]
  · simp [number, text, text_fraction]
  · simp [word, text]
  · rfl

/-- The segments of a text. -/
def split : List Char → List Segment
  | [] => []
  | c :: cs =>
    (first c cs).1 :: split (first c cs).2
termination_by cs => cs.length
decreasing_by
  have := length_first_le c cs
  simp
  omega

/-- Splitting loses nothing: the segments, put together, are the text. -/
theorem flatMap_text_split (cs : List Char) : (split cs).flatMap text = cs := by
  fun_induction split cs with
  | case1 => rfl
  | case2 c cs ih => rw [List.flatMap_cons, ih, text_first]

end Segment

end Scriptlet
