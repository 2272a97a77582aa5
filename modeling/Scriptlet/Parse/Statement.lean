import Scriptlet.Parse.Expression

/-!
# Parsing statements

Declarations, statements and blocks. A declaration never aborts: after a complaint it skips to the
next statement boundary and contributes nothing. A `for` loop is built as the block it stands for.

## Main definitions

* `Parse.declaration`, `Parse.statement`, `Parse.block` — the three mutually recursive parts
* `Parse.program` — declarations up to the end
* `parseTokens` — the statements and diagnostics of a token list
-/

namespace Scriptlet

namespace Parse

/-- The nesting depth that a program may have. -/
def depthLimit : Nat := 10000

/-- A variable declaration behind `var`. -/
def varDeclaration (expression : Parse Tree) : Parse Tree := do
  let name ← expect .identifier .variableName
  let initializer ← match ← accept? [.equal] with
    | some _ => expression
    | none => pure .null
  let _ ← expect .semicolon .semicolonAfterDeclaration
  return .varDecl name initializer

/-- The parameters of a function behind the opening parenthesis, up to the closing one. -/
def parameters : Parse (List Token) := do
  let params ← if ← nextIs .rightParen then pure []
    else commaSeparated (expect .identifier .parameterName)
  let _ ← expect .rightParen .parenAfterParameters
  return params

/-- A function declaration behind `fun`. -/
def funDeclaration (block : Parse (List Tree)) : Parse Tree := do
  let name ← expect .identifier .functionName
  let _ ← expect .leftParen .parenAfterFunctionName
  let params ← parameters
  let _ ← expect .leftBrace .braceBeforeBody
  let body ← block
  return .funDecl name (.list (params.map .token)) (.list body)

/-- A print statement behind `print`. -/
def printStatement (expression : Parse Tree) : Parse Tree := do
  let value ← expression
  let _ ← expect .semicolon .semicolonAfterValue
  return .printStmt value

/-- A conditional behind `if`; an `else` belongs to the nearest one. -/
def ifStatement (expression statement : Parse Tree) : Parse Tree := do
  let _ ← expect .leftParen .parenAfterIf
  let condition ← expression
  let _ ← expect .rightParen .parenAfterIfCondition
  let thenBranch ← statement
  let elseBranch ← match ← accept? [.elseKey] with
    | some _ => statement
    | none => pure .null
  return .ifStmt condition thenBranch elseBranch

/-- A loop behind `while`. -/
def whileStatement (expression statement : Parse Tree) : Parse Tree := do
  let _ ← expect .leftParen .parenAfterWhile
  let condition ← expression
  let _ ← expect .rightParen .parenAfterCondition
  let body ← statement
  return .whileStmt condition body

/-- An expression statement. -/
def expressionStatement (expression : Parse Tree) : Parse Tree := do
  let e ← expression
  let _ ← expect .semicolon .semicolonAfterExpression
  return .exprStmt e

/-- The first clause of a `for` loop, with its semicolon. -/
def forInitializer (expression : Parse Tree) : Parse Tree := do
  match ← accept? [.semicolon, .varKey] with
  | some t => if t.kind = .semicolon then return .null else varDeclaration expression
  | none => expressionStatement expression

/-- An expression unless the next token is of the given kind. -/
def optionalBefore (kind : Kind) (expression : Parse Tree) : Parse Tree := do
  if ← nextIs kind then return .null else expression

/-- A loop behind `for`. -/
def forStatement (expression statement : Parse Tree) : Parse Tree := do
  let _ ← expect .leftParen .parenAfterFor
  let initializer ← forInitializer expression
  let condition ← optionalBefore .semicolon expression
  let _ ← expect .semicolon .semicolonAfterLoopCondition
  let increment ← optionalBefore .rightParen expression
  let _ ← expect .rightParen .parenAfterForClauses
  let body ← statement
  return .desugarFor initializer condition increment body

/-- A return statement behind its keyword. -/
def returnStatement (keyword : Token) (expression : Parse Tree) : Parse Tree := do
  let value ← optionalBefore .semicolon expression
  let _ ← expect .semicolon .semicolonAfterReturn
  return .returnStmt keyword value

/-- The kinds of tokens that decide which statement follows. -/
def statementKinds : List Kind :=
  [.printKey, .ifKey, .whileKey, .forKey, .returnKey, .leftBrace]

/-- A statement, given how its parts are parsed. -/
def statementWith (expression statement : Parse Tree) (block : Parse (List Tree)) : Parse Tree := do
  match ← accept? statementKinds with
  | none => expressionStatement expression
  | some t =>
    match t.kind with
    | .printKey => printStatement expression
    | .ifKey => ifStatement expression statement
    | .whileKey => whileStatement expression statement
    | .forKey => forStatement expression statement
    | .returnKey => returnStatement t expression
    | _ => do return .block (.list (← block))

/-- A declaration, given how its parts are parsed. -/
def declarationWith (expression statement : Parse Tree) (block : Parse (List Tree)) :
    Parse Tree := do
  match ← accept? [.funKey, .varKey] with
  | none => statement
  | some t => if t.kind = .funKey then funDeclaration block else varDeclaration expression

/-- Declarations until the next token satisfies `stop` or none is left; those that were given up are
left out. -/
def declarationsUntil (stop : Kind → Bool) (declaration : Parse (Option Tree)) :
    Parse (List Tree) := do
  let all ← repeated (fun statements => do
    match ← nextKind? with
    | none => return none
    | some kind =>
      if stop kind then return none
      else
        match ← declaration with
        | some s => return some (s :: statements)
        | none => return some statements) []
  return all.reverse

mutual

/-- A declaration or statement; nothing after a complaint that aborted it. -/
def declaration : Nat → Parse (Option Tree)
  | 0 => throw .tooDeep
  | d + 1 => recover (declarationWith (expression d) (statement d) (block d))

/-- A statement. -/
def statement : Nat → Parse Tree
  | 0 => throw .tooDeep
  | d + 1 => statementWith (expression d) (statement d) (block d)

/-- The statements of a block behind its opening brace, up to the closing one. -/
def block : Nat → Parse (List Tree)
  | 0 => throw .tooDeep
  | d + 1 => do
    let statements ← declarationsUntil (· = .rightBrace) (declaration d)
    let _ ← expect .rightBrace .braceAfterBlock
    return statements

end

/-- Declarations up to the end. -/
def program (d : Nat) : Parse (List Tree) := declarationsUntil (fun _ => false) (declaration d)

end Parse

/-- What parsing a program yields: the statements that survived and the diagnostics. -/
structure Parsed where
  statements : List Tree
  diagnostics : List Diagnostic

/-- The statements and the complaints, oldest first, of the tokens before the end. A program never
aborts as a whole, as every declaration recovers. -/
def parseBody (d : Nat) (tokens : List Token) : List Tree × List Parse.Complaint :=
  match Parse.program d (.start tokens) with
  | .ok statements s => (statements, s.complaints.reverse)
  | .error _ s => ([], s.complaints.reverse)

/-- Parses a token list up to its first `eof` token. A list that does not end in one is refused. -/
def parseTokens? (tokens : List Token) : Option Parsed :=
  if tokens.getLast?.any (·.kind = .eof) then
    let body := tokens.takeWhile (·.kind ≠ .eof)
    let (statements, complaints) := parseBody Parse.depthLimit body
    (tokens.drop body.length).head?.map fun last =>
      { statements, diagnostics := complaints.map (·.diagnostic last) }
  else none

end Scriptlet
