import Scriptlet.Diagnostic
import Scriptlet.Scan.Segment

/-!
# Scanning

The tokens and the diagnostics of a program text are two views of its segments. Every segment has a
line: one more than the line ends up to and including its last character. A lexeme gives a token; a
stray character and an unterminated end each give a diagnostic; all else gives nothing. One token of
kind `eof` on the last line closes the list.

## Main definitions

* `Segment.located` — segments with their lines
* `Segment.token?`, `Segment.complaint?` — what a segment contributes
* `scan` — tokens and diagnostics of a text
-/

namespace Scriptlet

/-- What scanning a text yields. -/
structure Scanned where
  tokens : List Token
  diagnostics : List Diagnostic

namespace Segment

/-- The segments with the lines on which they end, where `line` is the line they start on. -/
def located (line : Nat) : List Segment → List (Nat × Segment)
  | [] => []
  | s :: rest => (line + s.newlines, s) :: located (line + s.newlines) rest

/-- The text inside the quotes of a string lexeme. -/
def unquoted (text : List Char) : String := String.ofList (text.drop 1).dropLast

/-- The literal value of a lexeme: numbers and strings have one. -/
def literal (kind : Kind) (text : List Char) : Atom :=
  match kind with
  | .number => .float (Number.ofDigits text)
  | .string => .text (unquoted text)
  | _ => .null

/-- The token of a lexeme. -/
def token? (line : Nat) : Segment → Option Token
  | lexeme kind text => some (.make kind (String.ofList text) (literal kind text) line)
  | _ => none

/-- What is wrong with a segment. -/
def complaint? : Segment → Option String
  | stray c => some ("Unexpected character '" ++ c.toString ++ "'.")
  | openString _ => some "Unterminated string."
  | openComment _ => some "Unterminated block comment."
  | _ => none

/-- The diagnostic of a segment with which something is wrong. -/
def diagnostic? (line : Nat) (s : Segment) : Option Diagnostic :=
  s.complaint?.map (Diagnostic.atLine line)

end Segment

/-- The line on which a text ends. -/
def lastLine (cs : List Char) : Nat := 1 + cs.count '\n'

/-- The token that closes every token list. -/
def endToken (line : Nat) : Token := .make .eof "" .null line

/-- The tokens and the diagnostics of a program text. -/
def scan (source : String) : Scanned :=
  let cs := source.toList
  let segments := Segment.located 1 (Segment.split cs)
  { tokens := segments.filterMap (fun (line, s) => s.token? line) ++ [endToken (lastLine cs)]
    diagnostics := segments.filterMap fun (line, s) => s.diagnostic? line }

end Scriptlet
