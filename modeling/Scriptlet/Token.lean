import Scriptlet.Json.Basic

/-!
# Tokens

A token is a kind together with three payloads: its lexeme, its literal value and its line. Tokens
of a program text carry a text, an atom and a line number; tokens that come from a file may carry
any JSON value in each place, and keep it.

## Main definitions

* `Kind` — the kinds of tokens, with their labels and numbers
* `Kind.keyword?` — the kind of a keyword
* `Kind.startsStatement` — the keywords that begin a statement
* `Token`, `Token.make` — tokens, and tokens of a program text
* `Token.describe` — the line that a token listing shows
-/

namespace Scriptlet

/-- The kinds of tokens. -/
inductive Kind
  | leftParen | rightParen | leftBrace | rightBrace | leftBracket | rightBracket
  | comma | dot | minus | plus | semicolon | slash | star
  | bang | bangEqual | equal | equalEqual | greater | greaterEqual | less | lessEqual
  | identifier | string | number
  | andKey | elseKey | falseKey | forKey | funKey | ifKey | nilKey | orKey | printKey | returnKey
  | trueKey | varKey | whileKey
  | eof
  deriving DecidableEq, Inhabited

namespace Kind

/-- Every kind with its label, in the order of their numbers, which start at one. -/
def labels : List (Kind × String) :=
  [(.leftParen, "LEFT_PAREN"), (.rightParen, "RIGHT_PAREN"), (.leftBrace, "LEFT_BRACE"),
   (.rightBrace, "RIGHT_BRACE"), (.leftBracket, "LEFT_BRACKET"), (.rightBracket, "RIGHT_BRACKET"),
   (.comma, "COMMA"), (.dot, "DOT"), (.minus, "MINUS"), (.plus, "PLUS"),
   (.semicolon, "SEMICOLON"), (.slash, "SLASH"), (.star, "STAR"), (.bang, "BANG"),
   (.bangEqual, "BANG_EQUAL"), (.equal, "EQUAL"), (.equalEqual, "EQUAL_EQUAL"),
   (.greater, "GREATER"), (.greaterEqual, "GREATER_EQUAL"), (.less, "LESS"),
   (.lessEqual, "LESS_EQUAL"), (.identifier, "IDENTIFIER"), (.string, "STRING"),
   (.number, "NUMBER"), (.andKey, "AND"), (.elseKey, "ELSE"), (.falseKey, "FALSE"),
   (.forKey, "FOR"), (.funKey, "FUN"), (.ifKey, "IF"), (.nilKey, "NIL"), (.orKey, "OR"),
   (.printKey, "PRINT"), (.returnKey, "RETURN"), (.trueKey, "TRUE"), (.varKey, "VAR"),
   (.whileKey, "WHILE"), (.eof, "EOF")]

/-- The label of a kind. -/
def label (kind : Kind) : String := (labels.lookup kind).getD ""

/-- The kind with the given label. -/
def ofLabel? (label : String) : Option Kind :=
  (labels.find? fun entry => entry.2 == label).map (·.1)

/-- Every kind is found by its label. -/
theorem ofLabel?_label (kind : Kind) : ofLabel? kind.label = some kind := by
  cases kind <;> rfl

/-- The number of a kind. -/
def ordinal (kind : Kind) : Nat := (labels.findIdx fun entry => entry.1 == kind) + 1

/-- The keywords. -/
def keywords : List (String × Kind) :=
  [("and", .andKey), ("else", .elseKey), ("false", .falseKey), ("for", .forKey),
   ("fun", .funKey), ("if", .ifKey), ("nil", .nilKey), ("or", .orKey), ("print", .printKey),
   ("return", .returnKey), ("true", .trueKey), ("var", .varKey), ("while", .whileKey)]

/-- The kind of a word that is a keyword. -/
def keyword? (word : String) : Option Kind := keywords.lookup word

/-- The kind of a word: a keyword's own kind, or `identifier`. -/
def ofWord (word : String) : Kind := (keyword? word).getD .identifier

/-- The kinds that begin a statement, where parsing resumes after an error. -/
def startsStatement : Kind → Bool
  | .funKey | .varKey | .forKey | .ifKey | .whileKey | .printKey | .returnKey => true
  | _ => false

end Kind

/-- A kind with lexeme, literal value and line. -/
structure Token where
  kind : Kind
  lexeme : Json
  literal : Json
  line : Json

namespace Token

/-- A token of a program text. -/
def make (kind : Kind) (lexeme : String) (literal : Atom) (line : Nat) : Token where
  kind := kind
  lexeme := .text lexeme
  literal := .atom literal
  line := .int line

/-- The lexeme as it stands in messages. -/
def text (t : Token) : String := t.lexeme.plain

/-- The literal as it stands in a listing: nothing is written as `null`. -/
def literalText (t : Token) : String :=
  match t.literal with
  | .atom .null => "null"
  | v => v.plain

/-- The line of a token listing. -/
def describe (t : Token) : String :=
  t.kind.label ++ " | '" ++ t.text ++ "' | " ++ t.literalText ++ " | line=" ++ t.line.plain

/-- The text of a token inside the text of a larger value. -/
def inspect (t : Token) : String :=
  "Token(kind=<TokenType." ++ t.kind.label ++ ": " ++ natText t.kind.ordinal ++ ">, lexeme=" ++
    t.lexeme.inspect ++ ", literal=" ++ t.literal.inspect ++ ", line=" ++ t.line.inspect ++ ")"

end Token

end Scriptlet
