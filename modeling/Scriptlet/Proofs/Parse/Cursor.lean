import Scriptlet.Parse.Statement

/-!
# Parsing with a cursor

The parser as it goes through a token list by a position in it. It looks at the token at the
position, moves the position on, and looks back at the token in front of it; what stands behind the
first end token is still there, and looking back from the first token finds the last one. Nothing
here keeps the position in the list or ends a loop: a token that is not there stops the parser for
good, and so does a loop that takes more turns than it is given.

The parser records where it looked at a token, from where it looked back, and where each declaration
began and ended.

## Main definitions

* `Cursor.State`, `Cursor` — parsing steps with a cursor
* `Cursor.peek`, `Cursor.previous` — the two ways to read a token
* `Cursor.loop` — a loop with a limit on its turns
* `Cursor.declaration`, `Cursor.statement`, `Cursor.block` — the three mutually recursive parts
* `Cursor.parse` — declarations up to the end
-/

namespace Scriptlet

/-- A token list, and the number of turns that a loop over it may take. -/
structure Cursor.Input where
  tokens : List Token
  turns : Nat

/-- The position of the next token and the diagnostics so far, the oldest first; then the record:
the positions of the tokens that were looked at, the positions from which was looked back, and the
positions where declarations began and ended, the newest first. -/
structure Cursor.State where
  current : Nat
  diagnostics : List Diagnostic
  peeked : List Nat
  lookedBack : List Nat
  declared : List (Nat × Nat)

/-- The state before anything was read. -/
def Cursor.State.start : Cursor.State where
  current := 0
  diagnostics := []
  peeked := []
  lookedBack := []
  declared := []

/-- Why a step ends early. -/
inductive Cursor.Stop
  /-- A diagnostic was reported. -/
  | panic
  /-- The nesting is too deep. -/
  | tooDeep
  /-- There is no token at the position. -/
  | outside
  /-- A loop has no turns left. -/
  | unfinished

/-- Parsing steps with a cursor. -/
abbrev Cursor := EStateM Cursor.Stop Cursor.State

namespace Cursor

open Parse (Cause Level levels)

variable {α : Type} (inp : Input)

/-! ### Reading tokens -/

/-- The next token. -/
def peek : Cursor Token := do
  modify fun c => { c with peeked := c.current :: c.peeked }
  match inp.tokens[(← get).current]? with
  | some t => return t
  | none => throw .outside

/-- The token in front of the next one; in front of the first token, that is the last one. -/
def previous : Cursor Token := do
  modify fun c => { c with lookedBack := c.current :: c.lookedBack }
  let current := (← get).current
  match if current = 0 then inp.tokens.getLast? else inp.tokens[current - 1]? with
  | some t => return t
  | none => throw .outside

variable {inp} in
theorem peek_of_getElem? {c : State} {t : Token} (h : inp.tokens[c.current]? = some t) :
    peek inp c = .ok t { c with peeked := c.current :: c.peeked } := by
  change (match inp.tokens[c.current]? with
    | some t => Pure.pure t
    | none => throw .outside : Cursor Token) _ = _
  rw [h]
  rfl

variable {inp} in
theorem previous_of_getElem? {c : State} {t : Token} (hpos : 0 < c.current)
    (h : inp.tokens[c.current - 1]? = some t) :
    previous inp c = .ok t { c with lookedBack := c.current :: c.lookedBack } := by
  change (match if c.current = 0 then inp.tokens.getLast? else inp.tokens[c.current - 1]? with
    | some t => Pure.pure t
    | none => throw .outside : Cursor Token) _ = _
  rw [if_neg (Nat.ne_of_gt hpos), h]
  rfl

/-- Whether an end token is next. -/
def isAtEnd : Cursor Bool := do
  return (← peek inp).kind == .eof

/-- Whether the next token is of the given kind; an end token is of none. -/
def check (kind : Kind) : Cursor Bool := do
  if ← isAtEnd inp then return false
  else return (← peek inp).kind == kind

/-- Moves on, unless an end token is next. -/
def advance : Cursor Token := do
  if ← isAtEnd inp then previous inp
  else
    modify fun c => { c with current := c.current + 1 }
    previous inp

/-- Moves on if the next token is of one of the given kinds. -/
def matchAny : List Kind → Cursor Bool
  | [] => return false
  | kind :: kinds => do
    if ← check inp kind then
      let _ ← advance inp
      return true
    else matchAny kinds

/-- Reports a diagnostic about a token. -/
def report (t : Token) (cause : Cause) : Cursor Unit :=
  modify fun c => { c with diagnostics := c.diagnostics ++ [.atToken t cause.message] }

/-- Reports a diagnostic about the next token and gives up. -/
def fail (cause : Cause) : Cursor α := do
  report (← peek inp) cause
  throw .panic

/-- Moves on past a token that has to be of the given kind. -/
def consume (kind : Kind) (cause : Cause) : Cursor Token := do
  if ← check inp kind then advance inp else fail inp cause

/-! ### Loops and choices -/

/-- A round, again and again, until it yields nothing, for less than `n` times. -/
def rounds (round : α → Cursor (Option α)) : Nat → α → Cursor α
  | 0, _ => throw .unfinished
  | n + 1, a => do
    match ← round a with
    | some b => rounds round n b
    | none => return a

/-- A round, again and again, until it yields nothing. -/
def loop (round : α → Cursor (Option α)) (a : α) : Cursor α := rounds round inp.turns a

/-- The first step of those whose kinds the next token is of, behind that token. -/
def firstOf (otherwise : Cursor α) : List (List Kind × Cursor α) → Cursor α
  | [] => otherwise
  | (kinds, step) :: more => do
    if ← matchAny inp kinds then step else firstOf otherwise more

/-- An item behind a token of the given kind, if there is one. -/
def optionalAfter (kind : Kind) (absent : α) (item : Cursor α) : Cursor α := do
  if ← matchAny inp [kind] then item else return absent

/-- An item unless the next token is of the given kind. -/
def unlessNext (kind : Kind) (absent : α) (item : Cursor α) : Cursor α := do
  if ← check inp kind then return absent else item

/-- One or more items with commas between them. -/
def commaSeparated (item : Cursor α) : Cursor (List α) := do
  let first ← item
  let all ← loop inp (fun items => do
    if ← matchAny inp [.comma] then return some ((← item) :: items)
    else return none) [first]
  return all.reverse

/-! ### Recovery -/

/-- Moves on, unless a semicolon stands in front of the next token or the next token starts a
statement. -/
def skip : Cursor (Option Unit) := do
  if ← isAtEnd inp then return none
  else if (← previous inp).kind = .semicolon then return none
  else if (← peek inp).kind.startsStatement then return none
  else
    let _ ← advance inp
    return some ()

/-- Moves on by one token at least, to where parsing may resume. -/
def synchronize : Cursor Unit := do
  let _ ← advance inp
  loop inp (fun _ => skip inp) ()

/-- Runs a step that may give up or be too deep, and moves on to where parsing resumes if so. -/
def rescue (step : Cursor α) : Cursor (Option α) := fun c =>
  match step c with
  | .ok a c => .ok (some a) c
  | .error .panic c => (do synchronize inp; return none : Cursor (Option α)) c
  | .error .tooDeep c =>
    (do report (← peek inp) .nesting; synchronize inp; return none : Cursor (Option α)) c
  | .error stop c => .error stop c

/-- Records where a step begins and ends. -/
def recorded (step : Cursor α) : Cursor α := do
  let start := (← get).current
  let a ← step
  modify fun c => { c with declared := (start, c.current) :: c.declared }
  return a

/-! ### Expressions -/

/-- Operands with the operators of a level between them, folded to the left. -/
def foldLevel (level : Level) (operand : Cursor Tree) : Cursor Tree := do
  let first ← operand
  loop inp (fun left => do
    if ← matchAny inp level.operators then
      let operator ← previous inp
      return some (level.build left operator (← operand))
    else return none) first

/-- The arguments of a call and its closing parenthesis. -/
def callArguments (expression : Cursor Tree) : Cursor (Token × List Tree) := do
  let arguments ← unlessNext inp .rightParen [] (commaSeparated inp expression)
  let paren ← consume inp .rightParen .parenAfterArguments
  return (paren, arguments)

/-- A call or an indexing behind an expression, if there is one. -/
def trailer? (expression : Cursor Tree) (e : Tree) : Cursor (Option Tree) :=
  firstOf inp (return none)
    [([.leftParen], do
        let (paren, arguments) ← callArguments inp expression
        return some (.call e paren (.list arguments))),
     ([.leftBracket], do
        let index ← expression
        let bracket ← consume inp .rightBracket .bracketAfterIndex
        return some (.index e bracket index))]

/-- A literal, a name or an expression in parentheses. -/
def primaryWith (expression : Cursor Tree) : Cursor Tree :=
  firstOf inp (fail inp .expression)
    [([.falseKey], return .literal (.atom (.bool false))),
     ([.trueKey], return .literal (.atom (.bool true))),
     ([.nilKey], return .literal .null),
     ([.number, .string], do return .literal (.ofJson (← previous inp).literal)),
     ([.identifier], do return .varRef (← previous inp)),
     ([.leftParen], do
        let e ← expression
        let _ ← consume inp .rightParen .parenAfterExpression
        return .grouping e)]

/-- The assignment of `value` to `left`; what is no target is reported at the equals sign. -/
def assignTo (left value : Tree) (equals : Token) : Cursor Tree :=
  match left with
  | .varRef name => return .assign name value
  | .index target bracket index => return .assignIndex target bracket index value
  | _ => do
    report equals .assignmentTarget
    return left

/-- What follows the left side of what may become an assignment. -/
def assignmentTail (value : Cursor Tree) (left : Tree) : Cursor Tree := do
  if ← matchAny inp [.equal] then
    let equals ← previous inp
    let value ← value
    assignTo left value equals
  else return left

mutual

/-- An expression. -/
def expression : Nat → Cursor Tree
  | 0 => throw .tooDeep
  | d + 1 => assignment d

/-- An assignment, which associates to the right, or an expression of a tighter level. -/
def assignment : Nat → Cursor Tree
  | 0 => throw .tooDeep
  | d + 1 => do
    let left ← binary d levels
    assignmentTail inp (assignment d) left

/-- An expression of the given levels or tighter. -/
def binary : Nat → List Level → Cursor Tree
  | 0, _ => throw .tooDeep
  | d + 1, level :: tighter => foldLevel inp level (binary d tighter)
  | d + 1, [] => unary d

/-- Unary operators in front of a call. -/
def unary : Nat → Cursor Tree
  | 0 => throw .tooDeep
  | d + 1 => do
    if ← matchAny inp [.bang, .minus] then
      let operator ← previous inp
      return .unary operator (← unary d)
    else call d

/-- A primary expression with calls and indexings behind it. -/
def call : Nat → Cursor Tree
  | 0 => throw .tooDeep
  | d + 1 => do
    let e ← primary d
    loop inp (trailer? inp (expression d)) e

/-- A primary expression. -/
def primary : Nat → Cursor Tree
  | 0 => throw .tooDeep
  | d + 1 => primaryWith inp (expression d)

end

/-! ### Statements -/

/-- A variable declaration behind `var`. -/
def varDeclaration (expression : Cursor Tree) : Cursor Tree := do
  let name ← consume inp .identifier .variableName
  let initializer ← optionalAfter inp .equal .null expression
  let _ ← consume inp .semicolon .semicolonAfterDeclaration
  return .varDecl name initializer

/-- The parameters of a function, up to the closing parenthesis. -/
def parameters : Cursor (List Token) := do
  let params ← unlessNext inp .rightParen []
    (commaSeparated inp (consume inp .identifier .parameterName))
  let _ ← consume inp .rightParen .parenAfterParameters
  return params

/-- A function declaration behind `fun`. -/
def funDeclaration (block : Cursor (List Tree)) : Cursor Tree := do
  let name ← consume inp .identifier .functionName
  let _ ← consume inp .leftParen .parenAfterFunctionName
  let params ← parameters inp
  let _ ← consume inp .leftBrace .braceBeforeBody
  let body ← block
  return .funDecl name (.list (params.map .token)) (.list body)

/-- A print statement behind `print`. -/
def printStatement (expression : Cursor Tree) : Cursor Tree := do
  let value ← expression
  let _ ← consume inp .semicolon .semicolonAfterValue
  return .printStmt value

/-- A conditional behind `if`. -/
def ifStatement (expression statement : Cursor Tree) : Cursor Tree := do
  let _ ← consume inp .leftParen .parenAfterIf
  let condition ← expression
  let _ ← consume inp .rightParen .parenAfterIfCondition
  let thenBranch ← statement
  let elseBranch ← optionalAfter inp .elseKey .null statement
  return .ifStmt condition thenBranch elseBranch

/-- A loop behind `while`. -/
def whileStatement (expression statement : Cursor Tree) : Cursor Tree := do
  let _ ← consume inp .leftParen .parenAfterWhile
  let condition ← expression
  let _ ← consume inp .rightParen .parenAfterCondition
  let body ← statement
  return .whileStmt condition body

/-- An expression statement. -/
def expressionStatement (expression : Cursor Tree) : Cursor Tree := do
  let e ← expression
  let _ ← consume inp .semicolon .semicolonAfterExpression
  return .exprStmt e

/-- The first clause of a `for` loop, with its semicolon. -/
def forInitializer (expression : Cursor Tree) : Cursor Tree :=
  firstOf inp (expressionStatement inp expression)
    [([.semicolon], return .null),
     ([.varKey], varDeclaration inp expression)]

/-- A loop behind `for`. -/
def forStatement (expression statement : Cursor Tree) : Cursor Tree := do
  let _ ← consume inp .leftParen .parenAfterFor
  let initializer ← forInitializer inp expression
  let condition ← unlessNext inp .semicolon .null expression
  let _ ← consume inp .semicolon .semicolonAfterLoopCondition
  let increment ← unlessNext inp .rightParen .null expression
  let _ ← consume inp .rightParen .parenAfterForClauses
  let body ← statement
  return .desugarFor initializer condition increment body

/-- A return statement behind its keyword. -/
def returnStatement (expression : Cursor Tree) : Cursor Tree := do
  let keyword ← previous inp
  let value ← unlessNext inp .semicolon .null expression
  let _ ← consume inp .semicolon .semicolonAfterReturn
  return .returnStmt keyword value

/-- A statement, given how its parts are parsed. -/
def statementWith (expression statement : Cursor Tree) (block : Cursor (List Tree)) :
    Cursor Tree :=
  firstOf inp (expressionStatement inp expression)
    [([.printKey], printStatement inp expression),
     ([.ifKey], ifStatement inp expression statement),
     ([.whileKey], whileStatement inp expression statement),
     ([.forKey], forStatement inp expression statement),
     ([.returnKey], returnStatement inp expression),
     ([.leftBrace], do return .block (.list (← block)))]

/-- A declaration, given how its parts are parsed. -/
def declarationWith (expression statement : Cursor Tree) (block : Cursor (List Tree)) :
    Cursor Tree :=
  firstOf inp statement
    [([.funKey], funDeclaration inp block),
     ([.varKey], varDeclaration inp expression)]

/-- Declarations until `ended` says so; those that were given up are left out. -/
def declarationsUntil (ended : Cursor Bool) (declaration : Cursor (Option Tree)) :
    Cursor (List Tree) := do
  let all ← loop inp (fun statements => do
    if ← ended then return none
    else return some ((← declaration).toList ++ statements)) []
  return all.reverse

mutual

/-- A declaration or statement; nothing if it was given up. -/
def declaration : Nat → Cursor (Option Tree)
  | 0 => throw .tooDeep
  | d + 1 => recorded
      (rescue inp (declarationWith inp (expression inp d) (statement d) (block d)))

/-- A statement. -/
def statement : Nat → Cursor Tree
  | 0 => throw .tooDeep
  | d + 1 => statementWith inp (expression inp d) (statement d) (block d)

/-- The statements of a block, up to the closing brace. -/
def block : Nat → Cursor (List Tree)
  | 0 => throw .tooDeep
  | d + 1 => do
    let statements ← declarationsUntil inp
      (do if ← check inp .rightBrace then return true else isAtEnd inp) (declaration d)
    let _ ← consume inp .rightBrace .braceAfterBlock
    return statements

end

/-- Declarations up to the end, in a nesting of at most `d`. -/
def parse (d : Nat) : Cursor (List Tree) :=
  declarationsUntil inp (isAtEnd inp) (declaration inp d)

end Cursor

end Scriptlet
