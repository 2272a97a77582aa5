import Scriptlet.Parse.Basic

/-!
# Parsing expressions

Expressions by recursive descent, loosest first: assignment, six levels of left-associative binary
operators, unary operators, calls and indexing, primary expressions. An assignment is read as an
expression first, and its left side is turned into a target afterwards; an expression that is no
target is complained about at its equals sign, without aborting.

Every function takes the nesting depth that is left and hands less of it to the functions it calls.

## Main definitions

* `Parse.levels` — the levels of binary operators
* `Parse.expression` — an expression
-/

namespace Scriptlet.Parse

/-- A level of left-associative binary operators. -/
structure Level where
  operators : List Kind
  build : Tree → Token → Tree → Tree

/-- The levels of binary operators, the loosest first. -/
def levels : List Level :=
  [⟨[.orKey], .logical⟩, ⟨[.andKey], .logical⟩, ⟨[.bangEqual, .equalEqual], .binary⟩,
   ⟨[.greater, .greaterEqual, .less, .lessEqual], .binary⟩, ⟨[.minus, .plus], .binary⟩,
   ⟨[.slash, .star], .binary⟩]

/-- Operands with the operators of a level between them, folded to the left. -/
def foldLevel (level : Level) (operand : Parse Tree) : Parse Tree := do
  let first ← operand
  repeated (fun left => do
    match ← accept? level.operators with
    | some op => return some (level.build left op (← operand))
    | none => return none) first

/-- The assignment that gives `value` to the target `left`; `equals` are the tokens from the equals
sign on. What is no target stays as it is. -/
def assignTo (left value : Tree) (equals : List Token) : Parse Tree :=
  match left with
  | .varRef name => return .assign name value
  | .index target bracket index => return .assignIndex target bracket index value
  | _ => do
    complain .assignmentTarget equals
    return left

/-- The arguments of a call and its closing parenthesis, behind the opening one. -/
def callArguments (expression : Parse Tree) : Parse (Token × List Tree) := do
  let arguments ← if ← nextIs .rightParen then pure [] else commaSeparated expression
  let paren ← expect .rightParen .parenAfterArguments
  return (paren, arguments)

/-- A call or an indexing behind an expression, if there is one. -/
def trailer? (expression : Parse Tree) (e : Tree) : Parse (Option Tree) := do
  match ← accept? [.leftParen, .leftBracket] with
  | none => return none
  | some t =>
    if t.kind = .leftParen then
      let (paren, arguments) ← callArguments expression
      return some (.call e paren (.list arguments))
    else
      let index ← expression
      let bracket ← expect .rightBracket .bracketAfterIndex
      return some (.index e bracket index)

/-- The kinds of tokens that start a primary expression. -/
def primaryKinds : List Kind :=
  [.falseKey, .trueKey, .nilKey, .number, .string, .identifier, .leftParen]

/-- A literal, a name or an expression in parentheses. -/
def primaryWith (expression : Parse Tree) : Parse Tree := do
  match ← accept? primaryKinds with
  | none => fail .expression
  | some t =>
    match t.kind with
    | .falseKey => return .literal (.atom (.bool false))
    | .trueKey => return .literal (.atom (.bool true))
    | .nilKey => return .literal .null
    | .identifier => return .varRef t
    | .leftParen => do
      let e ← expression
      let _ ← expect .rightParen .parenAfterExpression
      return .grouping e
    | _ => return .literal (.ofJson t.literal)

mutual

/-- An expression. -/
def expression : Nat → Parse Tree
  | 0 => throw .tooDeep
  | d + 1 => assignment d

/-- An assignment, which associates to the right, or an expression of a tighter level. -/
def assignment : Nat → Parse Tree
  | 0 => throw .tooDeep
  | d + 1 => do
    let left ← binary d levels
    let equals := (← get).rest
    match ← accept? [.equal] with
    | some _ => do
      let value ← assignment d
      assignTo left value equals
    | none => return left

/-- An expression of the given levels or tighter. -/
def binary : Nat → List Level → Parse Tree
  | 0, _ => throw .tooDeep
  | d + 1, level :: tighter => foldLevel level (binary d tighter)
  | d + 1, [] => unary d

/-- Unary operators in front of a call. -/
def unary : Nat → Parse Tree
  | 0 => throw .tooDeep
  | d + 1 => do
    match ← accept? [.bang, .minus] with
    | some op => return .unary op (← unary d)
    | none => call d

/-- A primary expression with calls and indexings behind it. -/
def call : Nat → Parse Tree
  | 0 => throw .tooDeep
  | d + 1 => do
    let e ← primary d
    repeated (trailer? (expression d)) e

/-- A primary expression. -/
def primary : Nat → Parse Tree
  | 0 => throw .tooDeep
  | d + 1 => primaryWith (expression d)

end

end Scriptlet.Parse
