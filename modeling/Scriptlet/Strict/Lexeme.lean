import Scriptlet.Scan.Basic
import Scriptlet.Strict.Terminal

/-!
# Lexemes of the strict front end

The strict front end cuts a text into lexemes of its own. It takes numerals of every script into
names, knows no lexeme `.`, and takes an unterminated `/*` for two operators. Where no lexeme
starts, cutting ends. The line of a lexeme is the line on which it starts.

## Main definitions

* `Strict.Piece`, `Strict.first` — a gap or a lexeme at the front of a text
* `Strict.Ending` — why cutting ended
* `Strict.cut` — the lexemes of a text, as tokens, and the ending
-/

namespace Scriptlet.Strict

/-- A piece of a text. -/
inductive Piece
  /-- White space or a comment. -/
  | gap (text : List Char)
  | lexeme (kind : Kind) (text : List Char)
  deriving DecidableEq

/-- The characters that a piece covers. -/
def Piece.text : Piece → List Char
  | gap text => text
  | lexeme _ text => text

/-- Why cutting a text ended. -/
inductive Ending
  /-- The text ended; `line` is the line of the last lexeme. -/
  | finished (line : Nat)
  /-- No lexeme starts with this character. -/
  | unexpected (c : Char) (line : Nat)
  deriving DecidableEq

/-- The operators of two characters. -/
def doubleOperators : List (Char × Char × Kind) :=
  [('!', '=', .bangEqual), ('=', '=', .equalEqual), ('>', '=', .greaterEqual),
   ('<', '=', .lessEqual)]

/-- The operators and marks of one character. -/
def singleOperators : List (Char × Kind) :=
  [('!', .bang), ('=', .equal), ('>', .greater), ('<', .less), ('-', .minus), ('+', .plus),
   ('/', .slash), ('*', .star), ('(', .leftParen), (')', .rightParen), ('{', .leftBrace),
   ('}', .rightBrace), ('[', .leftBracket), (']', .rightBracket), (',', .comma),
   (';', .semicolon)]

/-- An operator of two characters that starts with `c`. -/
def doubleOperator? (c : Char) : List Char → Option (Piece × List Char)
  | [] => none
  | c' :: rest =>
    (doubleOperators.find? fun (a, b, _) => a == c && b == c').map fun (a, b, kind) =>
      (.lexeme kind [a, b], rest)

/-- An operator that starts with `c`; the longer one is preferred. -/
def operator? (c : Char) (cs : List Char) : Option (Piece × List Char) :=
  (doubleOperator? c cs).or ((singleOperators.lookup c).map fun kind => (.lexeme kind [c], cs))

/-- A comment behind a slash. -/
def comment? : List Char → Option (Piece × List Char)
  | '/' :: cs =>
    some (.gap ('/' :: '/' :: cs.takeWhile (· != '\n')), cs.dropWhile (· != '\n'))
  | '*' :: cs =>
    (Segment.untilCommentEnd? cs).map fun (body, rest) =>
      (.gap ('/' :: '*' :: body ++ ['*', '/']), rest)
  | _ => none

/-- The piece that starts with `c`, and the text behind it. -/
def first (c : Char) (cs : List Char) : Option (Piece × List Char) :=
  if c.isDigit then
    let part := Segment.fraction (cs.dropWhile Char.isDigit)
    some (.lexeme .number (c :: cs.takeWhile Char.isDigit ++ part.1), part.2)
  else if c == '"' then
    (Segment.untilQuote? cs).map fun (body, rest) =>
      (.lexeme .string ('"' :: body ++ ['"']), rest)
  else if Text.isWordStart c then
    let text := c :: cs.takeWhile Text.isWordChar
    some (.lexeme (Kind.ofWord (String.ofList text)) text, cs.dropWhile Text.isWordChar)
  else if isGap c then some (.gap [c], cs)
  else if c == '/' then (comment? cs).or (operator? c cs)
  else operator? c cs

theorem length_operator? {c : Char} {cs rest : List Char} {piece : Piece}
    (h : operator? c cs = some (piece, rest)) : rest.length ≤ cs.length := by
  unfold operator? at h
  rcases Option.or_eq_some_iff.1 h with h | ⟨_, h⟩
  · unfold doubleOperator? at h
    split at h
    · cases h
    · obtain ⟨_, _, heq⟩ := Option.map_eq_some_iff.1 h
      cases heq
      simp
  · obtain ⟨_, _, heq⟩ := Option.map_eq_some_iff.1 h
    cases heq
    exact Nat.le_refl _

theorem length_comment? {cs rest : List Char} {piece : Piece}
    (h : comment? cs = some (piece, rest)) : rest.length ≤ cs.length := by
  unfold comment? at h
  split at h
  · cases h
    simpa using Nat.le_succ_of_le (Segment.length_dropWhile_le _ _)
  · obtain ⟨⟨_, _⟩, found, heq⟩ := Option.map_eq_some_iff.1 h
    cases heq
    simpa using Nat.le_succ_of_le (Segment.length_untilCommentEnd? found)
  · cases h

/-- The text behind a piece is no longer than the text behind its first character. -/
theorem length_first {c : Char} {cs rest : List Char} {piece : Piece}
    (h : first c cs = some (piece, rest)) : rest.length ≤ cs.length := by
  have drop := Segment.length_dropWhile_le
  unfold first at h
  repeat' split at h
  · cases h
    exact Nat.le_trans (Segment.length_fraction_le _) (drop _ _)
  · obtain ⟨⟨_, _⟩, found, heq⟩ := Option.map_eq_some_iff.1 h
    cases heq
    exact Segment.length_untilQuote? found
  · cases h
    exact drop _ _
  · cases h
    exact Nat.le_refl _
  · rcases Option.or_eq_some_iff.1 h with h | ⟨_, h⟩
    · exact length_comment? h
    · exact length_operator? h
  · exact length_operator? h

/-- The token of a piece that starts on the given line. -/
def Piece.token? (line : Nat) : Piece → Option Token
  | gap _ => none
  | lexeme kind text =>
    some (.make kind (String.ofList text) (Segment.literal kind text) line)

/-- The tokens of a text and the ending, where the text starts on `line` and the last lexeme before
it stands on `last`. -/
def cutFrom (line last : Nat) : List Char → List Token × Ending
  | [] => ([], .finished last)
  | c :: cs =>
    match _h : first c cs with
    | none => ([], .unexpected c line)
    | some (piece, rest) =>
      let next := line + piece.text.count '\n'
      match piece.token? line with
      | none => cutFrom next last rest
      | some t =>
        let (tokens, ending) := cutFrom next line rest
        (t :: tokens, ending)
termination_by cs => cs.length
decreasing_by
  all_goals
    have := length_first _h
    simp
    omega

/-- The tokens of a text and the ending. -/
def cut (source : String) : List Token × Ending := cutFrom 1 1 source.toList

end Scriptlet.Strict
