import Scriptlet.Scan.Segment
import Scriptlet.Text.Numeral

/-!
# Terminals of the strict front end

The strict front end is generated from a grammar, and this is the part of the grammar that says what
its lexemes look like. A terminal is a pattern of characters. At each place of a text the lexer
takes the first terminal, in the order of precedence, whose pattern matches there: the terminals
whose texts have no longest come first, then the literals, the longer ones before the shorter ones.
A name that is spelled like a keyword is that keyword. White space and comments are left out.

Lexemes are cut when they are asked for. Where no terminal matches, cutting ends.

## Main definitions

* `Strict.Pattern`, `Strict.Pattern.match?` — patterns, and what is left behind a match
* `Strict.terminals`, `Strict.next?` — the terminals, and the one at the front of a text
* `Strict.Lexeme`, `Strict.Stop`, `Strict.Lexes` — the lexemes of a text, and why cutting ended
-/

namespace Scriptlet.Strict

/-! ### Patterns -/

/-- A pattern of characters. -/
inductive Pattern
  | one (test : Char → Bool)
  | seq (p q : Pattern)
  | optional (p : Pattern)
  /-- Characters that satisfy a test, as many as possible. -/
  | most (test : Char → Bool)
  /-- Characters that satisfy a test, as few as possible. -/
  | fewest (test : Char → Bool)

namespace Pattern

/-- What characters that satisfy a test may leave behind, the longest run of them first. -/
def restsOfMost (test : Char → Bool) : List Char → List (List Char)
  | [] => [[]]
  | c :: cs => if test c then restsOfMost test cs ++ [c :: cs] else [c :: cs]

/-- What characters that satisfy a test may leave behind, the shortest run of them first. -/
def restsOfFewest (test : Char → Bool) : List Char → List (List Char)
  | [] => [[]]
  | c :: cs => (c :: cs) :: if test c then restsOfFewest test cs else []

/-- What a match at the front of a text may leave behind, in the order in which matches are tried.
An option is tried with its pattern first. -/
def rests : Pattern → List Char → List (List Char)
  | one _, [] => []
  | one test, c :: cs => if test c then [cs] else []
  | seq p q, cs => (p.rests cs).flatMap q.rests
  | optional p, cs => p.rests cs ++ [cs]
  | most test, cs => restsOfMost test cs
  | fewest test, cs => restsOfFewest test cs

/-- What the first match leaves behind, if there is one. -/
def match? (p : Pattern) (cs : List Char) : Option (List Char) := (p.rests cs).head?

/-- A single character. -/
def char (c : Char) : Pattern := one (· == c)

/-- A text of one or two characters. -/
def literal : Char → Option Char → Pattern
  | c, none => char c
  | c, some c' => seq (char c) (char c')

/-- One character that satisfies a test, or more. -/
def oneOrMore (test : Char → Bool) : Pattern := seq (one test) (most test)

end Pattern

/-! ### Terminals -/

/-- What the lexer tells apart. -/
inductive Terminal
  | token (kind : Kind)
  | blockComment | lineComment | whitespace
  deriving DecidableEq

/-- White space between lexemes. -/
def isGap (c : Char) : Bool := c == ' ' || c == '\t' || c == '\r' || c == '\n'

/-- `[0-9]+(\.[0-9]+)?` -/
def numberPattern : Pattern :=
  .seq (.oneOrMore Char.isDigit) (.optional (.seq (.char '.') (.oneOrMore Char.isDigit)))

/-- `\/\*[\s\S]*?\*\/` -/
def blockCommentPattern : Pattern :=
  .seq (.literal '/' (some '*')) (.seq (.fewest fun _ => true) (.literal '*' (some '/')))

/-- `\/\/[^\n]*` -/
def lineCommentPattern : Pattern := .seq (.literal '/' (some '/')) (.most (· != '\n'))

/-- `[^\W\d]\w*` -/
def namePattern : Pattern := .seq (.one Text.isWordStart) (.most Text.isWordChar)

/-- `[ \t\r\n]+` -/
def whitespacePattern : Pattern := .oneOrMore isGap

/-- `"[^"]*"` -/
def stringPattern : Pattern := .seq (.char '"') (.seq (.most (· != '"')) (.char '"'))

/-- The literals of the grammar that are no words. -/
def literals : List (Char × Option Char × Kind) :=
  [('!', some '=', .bangEqual), ('=', some '=', .equalEqual), ('>', some '=', .greaterEqual),
   ('<', some '=', .lessEqual), ('!', none, .bang), ('=', none, .equal), ('>', none, .greater),
   ('<', none, .less), ('-', none, .minus), ('+', none, .plus), ('/', none, .slash),
   ('*', none, .star), ('(', none, .leftParen), (')', none, .rightParen), ('{', none, .leftBrace),
   ('}', none, .rightBrace), ('[', none, .leftBracket), (']', none, .rightBracket),
   (',', none, .comma), (';', none, .semicolon)]

/-- The terminals with their patterns, in the order of precedence. -/
def terminals : List (Terminal × Pattern) :=
  [(.token .number, numberPattern), (.blockComment, blockCommentPattern),
   (.lineComment, lineCommentPattern), (.token .identifier, namePattern),
   (.whitespace, whitespacePattern), (.token .string, stringPattern)] ++
  literals.map fun (c, c', kind) => (.token kind, .literal c c')

/-- The terminal at the front of a text, and the text behind it. -/
def next? (cs : List Char) : Option (Terminal × List Char) :=
  terminals.findSome? fun (terminal, pattern) =>
    (pattern.match? cs).map fun rest => (terminal, rest)

/-! ### Lexemes -/

/-- A lexeme with the line on which it starts. -/
structure Lexeme where
  kind : Kind
  text : String
  line : Nat
  deriving DecidableEq

/-- The line on which a lexeme ends. -/
def Lexeme.endLine (l : Lexeme) : Nat := l.line + l.text.toList.count '\n'

/-- The kind of a lexeme: a name may be a keyword, if it is spelled exactly like it. -/
def spelledKind (kind : Kind) (text : List Char) : Kind :=
  if kind = .identifier then Kind.ofWord (String.ofList text) else kind

/-- Why cutting a text ended. -/
inductive Stop
  /-- The text ended. -/
  | finished
  /-- No terminal matches in front of this character. -/
  | unexpected (c : Char) (line : Nat)
  deriving DecidableEq

/-- The lexemes of a text that starts on a line, and why cutting ended. -/
inductive Lexes : Nat → List Char → List Lexeme → Stop → Prop
  | finished {line : Nat} : Lexes line [] [] .finished
  | unexpected {line : Nat} {c : Char} {cs : List Char} :
      next? (c :: cs) = none → Lexes line (c :: cs) [] (.unexpected c line)
  | ignored {line : Nat} {text rest : List Char} {terminal : Terminal} {ls : List Lexeme}
      {stop : Stop} :
      next? (text ++ rest) = some (terminal, rest) → (∀ kind, terminal ≠ .token kind) →
      Lexes (line + text.count '\n') rest ls stop → Lexes line (text ++ rest) ls stop
  | lexeme {line : Nat} {text rest : List Char} {kind : Kind} {ls : List Lexeme} {stop : Stop} :
      next? (text ++ rest) = some (.token kind, rest) →
      Lexes (line + text.count '\n') rest ls stop →
      Lexes line (text ++ rest) (⟨spelledKind kind text, String.ofList text, line⟩ :: ls) stop

end Scriptlet.Strict
