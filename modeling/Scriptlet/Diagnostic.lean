import Scriptlet.Token

/-!
# Diagnostics

What a front end says about a program text: a line, a place on it and a message.

## Main definitions

* `Diagnostic`, `Diagnostic.text` — a complaint and the line that shows it
* `Diagnostic.atToken` — a complaint about a token
-/

namespace Scriptlet

/-- A complaint about a program text. -/
structure Diagnostic where
  line : Json
  place : String
  message : String

namespace Diagnostic

/-- The line that shows a diagnostic. -/
def text (d : Diagnostic) : String :=
  "[line " ++ d.line.plain ++ "] Error" ++ d.place ++ ": " ++ d.message

/-- A complaint about a line as a whole. -/
def atLine (line : Nat) (message : String) : Diagnostic where
  line := .int line
  place := ""
  message := message

/-- A complaint about a token; the last token stands for the end of the text. -/
def atToken (t : Token) (message : String) : Diagnostic where
  line := t.line
  place := if t.kind = .eof then " at end" else " at '" ++ t.text ++ "'"
  message := message

/-- The lines that show several diagnostics, each ended by a newline. -/
def echo (ds : List Diagnostic) : String := String.join (ds.map fun d => d.text ++ "\n")

/-- The message of a failure that carries several diagnostics. -/
def joined (ds : List Diagnostic) : String := "\n".intercalate (ds.map text)

end Diagnostic

end Scriptlet
