import Scriptlet.Token

/-!
# Runtime errors

A runtime error is a cause, located at a token unless nothing located it. Running a tree can end
early in four more ways: the stack is exhausted, the fuel for loops is spent, the tree itself is
malformed, which only a tree from a file can be, or a native function that was applied directly got
arguments that it cannot take apart.

## Main definitions

* `RuntimeCause`, `RuntimeCause.message` — what went wrong
* `RuntimeError`, `RuntimeError.message` — a cause with its place
* `TreeFault`, `ArgumentFault` — why a tree cannot be run or a native function not be applied
* `Abort` — the ways in which a run ends early
-/

namespace Scriptlet

/-- What can go wrong while a program runs. -/
inductive RuntimeCause
  | undefinedVariable (name : String)
  | returnOutsideFunction
  | operandNotNumber
  | operandsNotNumbers
  | operandsNotAddable
  | divisionByZero
  | unknownUnary (lexeme : String)
  | unknownBinary (lexeme : String)
  | notIndexable (type : String)
  | indexNotWhole
  | indexOutOfBounds (position : Int)
  | notSingleCharacter
  | assignmentTarget
  | notCallable
  | wrongArity (expected got : Nat)
  | lengthArgument (type : String)
  | concatArguments (left right : String)
  | stackOverflow
  /-- A failure of the battle hook, with its own wording. -/
  | hookFailure (message : String)
  deriving DecidableEq

/-- The wording of each cause. -/
def RuntimeCause.message : RuntimeCause → String
  | undefinedVariable name => "Undefined variable '" ++ name ++ "'."
  | returnOutsideFunction => "Can't return from top-level code."
  | operandNotNumber => "Operand must be a number."
  | operandsNotNumbers => "Operands must be numbers."
  | operandsNotAddable => "Operands must be two numbers or two strings."
  | divisionByZero => "Division by zero."
  | unknownUnary lexeme => "Unknown unary operator " ++ lexeme ++ "."
  | unknownBinary lexeme => "Unknown binary operator " ++ lexeme ++ "."
  | notIndexable type => "Only strings can be indexed, got " ++ type ++ "."
  | indexNotWhole => "String index must be a whole number."
  | indexOutOfBounds position => "String index " ++ intText position ++ " out of bounds."
  | notSingleCharacter => "Can only assign a single character to a string index."
  | assignmentTarget => "Invalid assignment target."
  | notCallable => "Can only call functions."
  | wrongArity expected got =>
    "Expected " ++ natText expected ++ " arguments but got " ++ natText got ++ "."
  | lengthArgument type => "length expects a string, got " ++ type ++ "."
  | concatArguments left right =>
    "concat expects two strings, got " ++ left ++ " and " ++ right ++ "."
  | stackOverflow => "Stack overflow."
  | hookFailure message => message

/-- A cause, located at a token if it is located. -/
structure RuntimeError where
  token : Option Token
  cause : RuntimeCause

namespace RuntimeError

/-- The line that shows an error. -/
def message (e : RuntimeError) : String :=
  match e.token with
  | some t => "[line " ++ t.line.plain ++ "] Runtime error: " ++ e.cause.message
  | none => "Runtime error: " ++ e.cause.message

/-- Locates an error that has no place yet. -/
def locate (e : RuntimeError) (t : Token) : RuntimeError :=
  { e with token := some (e.token.getD t) }

end RuntimeError

/-- Why a tree cannot be run. -/
inductive TreeFault
  /-- Something else stands in place of a statement. -/
  | notStatement (label : String)
  /-- Something else stands in place of an expression. -/
  | notExpression (label : String)
  /-- Something that cannot be gone through stands in place of a list. -/
  | notSequence
  /-- A parameter is no token. -/
  | notToken
  /-- A lexeme is an array or an object, which names nothing. -/
  | notName
  deriving DecidableEq

/-- Why a native function cannot take its arguments apart. Calls compare the number of arguments
first, so only a direct application comes to this. -/
inductive ArgumentFault
  /-- The only argument that counts is missing. -/
  | missing
  /-- There must be two arguments. -/
  | notPair (count : Nat)
  deriving DecidableEq

/-- How a run ends early. -/
inductive Abort
  | error (e : RuntimeError)
  /-- The stack is exhausted. -/
  | tooDeep
  /-- The fuel for loops is spent. -/
  | unfinished
  | fault (f : TreeFault)
  | arguments (f : ArgumentFault)

end Scriptlet
