import Scriptlet.Diagnostic
import Scriptlet.Strict.Build

/-!
# The generated parser

The strict front end hands its grammar to a parser generator and asks the parser that it gets for
the tree of a text. That parser is a parameter here. It takes a text and yields a tree, or says
which character or lexeme is unexpected, or that the text ended too early.

What is known of it is how it goes with the grammar: it accepts the programs of the grammar and no
others. That is enough where a text is accepted. Where it is not, it matters that the parser asks
for lexemes one by one, and stops at the first one with which no program can go on.

## Main definitions

* `Strict.Unexpected`, `Strict.GeneratedParser` — generated parsers and what they object to
* `Strict.GeneratedParser.Accepts` — a parser accepts a text if the grammar does
* `Strict.GeneratedParser.Conforms` — a parser goes with the grammar on a text
* `parseWith` — the statements of a text, or what is wrong with it
-/

namespace Scriptlet

namespace Strict

/-- What a generated parser objects to. -/
inductive Unexpected
  /-- No terminal matches in front of this character. -/
  | character (c : Char) (line : Nat)
  | token (l : Lexeme)
  /-- The text ended too early; `line` is the line of the last lexeme. -/
  | finish (line : Nat)

/-- The diagnostic of an objection. -/
def Unexpected.diagnostic : Unexpected → Diagnostic
  | character c line => .atLine line ("Unexpected character '" ++ c.toString ++ "'.")
  | token l =>
    { line := .int l.line, place := " at '" ++ l.text ++ "'", message := "Unexpected token." }
  | finish line =>
    { line := .int line, place := " at end", message := "Unexpected end of input." }

/-- Parsers that a generator makes of the grammar. -/
abbrev GeneratedParser := String → Except Unexpected ParseTree

/-- The line of the last lexeme, or the first line. -/
def lastLineOf (ls : List Lexeme) : Nat := (ls.getLast?.map (·.line)).getD 1

/-- The parser accepts the text if it is a program of the grammar, and yields a tree of it. -/
structure GeneratedParser.Accepts (parser : GeneratedParser) (source : String) : Prop where
  tree : ∀ t, parser source = .ok t →
    ∃ ls, Lexes 1 source.toList ls .finished ∧ Rule.start.Derives ls [] t
  none : ∀ e, parser source = .error e →
    ¬ ∃ ls t, Lexes 1 source.toList ls .finished ∧ Rule.start.Derives ls [] t

/-- On the text, the parser goes with the grammar. -/
structure GeneratedParser.Conforms (parser : GeneratedParser) (source : String) : Prop where
  /-- A tree is one of the whole text. -/
  tree : ∀ t, parser source = .ok t →
    ∃ ls, Lexes 1 source.toList ls .finished ∧ Rule.start.Derives ls [] t
  /-- Cutting ended at an unexpected character, and a program can begin with what was cut. -/
  character : ∀ c line, parser source = .error (.character c line) →
    ∃ ls, Lexes 1 source.toList ls (.unexpected c line) ∧ Viable ls
  /-- An unexpected lexeme is the first with which no program can go on; what is behind it does not
  matter. -/
  token : ∀ l, parser source = .error (.token l) →
    ∃ before after stop, Lexes 1 source.toList (before ++ l :: after) stop ∧ Viable before ∧
      ¬ Viable (before ++ [l])
  /-- The text ended where a program can go on but not end. -/
  finish : ∀ line, parser source = .error (.finish line) →
    ∃ ls, Lexes 1 source.toList ls .finished ∧ Viable ls ∧
      (¬ ∃ t, Rule.start.Derives ls [] t) ∧ line = lastLineOf ls

/-- Why there are no statements. -/
inductive Refusal
  | rejected (diagnostics : List Diagnostic)
  /-- A node of the tree has other children than the actions are made for. -/
  | misshapen

end Strict

open Strict in
/-- The statements of a program text that a generated parser reads, or why there are none. -/
def parseWith (parser : GeneratedParser) (source : String) : Except Refusal (List Tree) :=
  match parser source with
  | .error e => .error (.rejected [e.diagnostic])
  | .ok t =>
    match t.statements? with
    | some statements => .ok statements
    | none => .error .misshapen

end Scriptlet
