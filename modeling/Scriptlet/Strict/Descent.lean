import Scriptlet.Strict.Lexeme
import Scriptlet.Tree.Basic

/-!
# The strict front end

A second parser for the same language, which stops at the first lexeme with which no program can go
on. It does what the parser does that is generated from the grammar of `Strict.Rule.productions`,
with trees that are built at once; that it gives the same results is proved where that parser is
described. A fault is the list of lexemes that were left when it arose; when none is left, the
ending of the text is at fault.

## Main definitions

* `Strict.Fault` — why there is no program
* `Strict.Step` — parsing steps
* `Strict.expression`, `Strict.statement`, `Strict.declaration` — the phrases of programs
* `parseStrict` — the statements of a text, or the one diagnostic
-/

namespace Scriptlet

namespace Strict

/-- Why there is no program. -/
inductive Fault
  /-- The first of the lexemes that are left is unexpected; none left means the ending is. -/
  | unexpected (rest : List Token)
  /-- The nesting is too deep at the first of the lexemes that are left. -/
  | tooDeep (rest : List Token)

/-- Parsing steps. -/
abbrev Step := StateT (List Token) (Except Fault)

/-- The nesting depth that a program may have. -/
def depthLimit : Nat := 10000

/-- Stops at the next lexeme. -/
def stop {α : Type} : Step α := fun rest => .error (.unexpected rest)

/-- Stops because the nesting is too deep. -/
def stopNesting {α : Type} : Step α := fun rest => .error (.tooDeep rest)

/-- The kind of the next lexeme. -/
def peek? : Step (Option Kind) := fun rest => .ok (rest.head?.map (·.kind), rest)

/-- Takes a lexeme of the given kind. -/
def take (kind : Kind) : Step Token := fun rest =>
  match rest with
  | t :: after => if t.kind = kind then .ok (t, after) else .error (.unexpected rest)
  | [] => .error (.unexpected rest)

/-- Takes the next lexeme if its kind satisfies a test. -/
def takeIf? (test : Kind → Bool) : Step (Option Token) := fun rest =>
  match rest with
  | t :: after => if test t.kind then .ok (some t, after) else .ok (none, rest)
  | [] => .ok (none, rest)

/-- Goes on with `more` while it yields something, at most `n` times. -/
def extend {α : Type} (more : α → Step (Option α)) : Nat → α → Step α
  | 0, a => pure a
  | n + 1, a => do
    match ← more a with
    | none => return a
    | some b => extend more n b

/-- Goes on with `more`, which takes a lexeme whenever it yields something. -/
def extendAll {α : Type} (more : α → Step (Option α)) (a : α) : Step α := fun rest =>
  extend more rest.length a rest

/-- `item ("," item)*` -/
def commaList {α : Type} (item : Step α) : Step (List α) := do
  let a ← item
  let all ← extendAll (fun items => do
    if (← takeIf? (· == .comma)).isSome then return some ((← item) :: items)
    else return none) [a]
  return all.reverse

/-- The kind of nodes that an operator of the loosest two levels builds, and of the others. -/
def joinWith (logical : Bool) (left : Tree) (op : Token) (right : Tree) : Tree :=
  if logical then .logical left op right else .binary left op right

/-- `operand (operator operand)*`, folded to the left. -/
def leftAssociative (test : Kind → Bool) (logical : Bool) (operand : Step Tree) : Step Tree := do
  let a ← operand
  extendAll (fun left => do
    match ← takeIf? test with
    | none => return none
    | some op => return some (joinWith logical left op (← operand))) a

/-- `unary (("/" | "*") unary)*` -/
def factor (unary : Step Tree) : Step Tree :=
  leftAssociative (fun k => k == .slash || k == .star) false unary

/-- `factor (("-" | "+") factor)*` -/
def term (unary : Step Tree) : Step Tree :=
  leftAssociative (fun k => k == .minus || k == .plus) false (factor unary)

/-- `term ((">" | ">=" | "<" | "<=") term)*` -/
def comparison (unary : Step Tree) : Step Tree :=
  leftAssociative (fun k => k == .greater || k == .greaterEqual || k == .less || k == .lessEqual)
    false (term unary)

/-- `comparison (("!=" | "==") comparison)*` -/
def equality (unary : Step Tree) : Step Tree :=
  leftAssociative (fun k => k == .bangEqual || k == .equalEqual) false (comparison unary)

/-- `equality ("and" equality)*` -/
def conjunction (unary : Step Tree) : Step Tree :=
  leftAssociative (· == .andKey) true (equality unary)

/-- `conjunction ("or" conjunction)*` -/
def disjunction (unary : Step Tree) : Step Tree :=
  leftAssociative (· == .orKey) true (conjunction unary)

/-- `"(" [arguments] ")"` behind its opening parenthesis, with the closing one. -/
def arguments (expression : Step Tree) : Step (Token × List Tree) := do
  let args ← if (← peek?) == some .rightParen then pure [] else commaList expression
  let paren ← take .rightParen
  return (paren, args)

/-- A call or an indexing behind a callee. -/
def suffix? (expression : Step Tree) (callee : Tree) : Step (Option Tree) := do
  if (← takeIf? (· == .leftParen)).isSome then
    let (paren, args) ← arguments expression
    return some (.call callee paren (.list args))
  else if (← takeIf? (· == .leftBracket)).isSome then
    let index ← expression
    let bracket ← take .rightBracket
    return some (.index callee bracket index)
  else return none

/-- A literal, a name, or an expression in parentheses. -/
def primary (expression : Step Tree) : Step Tree := do
  match ← peek? with
  | some .number => return .literal (.ofJson (← take .number).literal)
  | some .string => return .literal (.ofJson (← take .string).literal)
  | some .trueKey => do
    let _ ← take .trueKey
    return .literal (.atom (.bool true))
  | some .falseKey => do
    let _ ← take .falseKey
    return .literal (.atom (.bool false))
  | some .nilKey => do
    let _ ← take .nilKey
    return .literal .null
  | some .identifier => return .varRef (← take .identifier)
  | some .leftParen => do
    let _ ← take .leftParen
    let e ← expression
    let _ ← take .rightParen
    return .grouping e
  | _ => stop

/-- Whether a name and an equals sign are next. -/
def startsAssignment : Step Bool := fun rest =>
  match rest with
  | name :: equals :: _ => .ok (name.kind == .identifier && equals.kind == .equal, rest)
  | _ => .ok (false, rest)

mutual

/-- `NAME "=" assignment | call "[" expression "]" "=" assignment | disjunction` -/
def expression : Nat → Step Tree
  | 0 => stopNesting
  | d + 1 => do
    if ← startsAssignment then
      let name ← take .identifier
      let _ ← take .equal
      return .assign name (← expression d)
    else
      let left ← disjunction (unary d)
      match left, ← peek? with
      | .index target bracket index, some .equal => do
        let _ ← take .equal
        return .assignIndex target bracket index (← expression d)
      | _, some .equal => stop
      | _, _ => return left

/-- `("!" | "-") unary | call` -/
def unary : Nat → Step Tree
  | 0 => stopNesting
  | d + 1 => do
    match ← takeIf? fun k => k == .bang || k == .minus with
    | some op => return .unary op (← unary d)
    | none => do
      let e ← primary (expression d)
      extendAll (suffix? (expression d)) e

end

/-- `[expression]` before a lexeme of the given kind. -/
def expressionUnless (kind : Kind) (d : Nat) : Step Tree := do
  if (← peek?) == some kind then return .null else expression d

/-- `"var" NAME ["=" expression] ";"` -/
def varDecl (d : Nat) : Step Tree := do
  let _ ← take .varKey
  let name ← take .identifier
  let value ← if (← takeIf? (· == .equal)).isSome then expression d else pure .null
  let _ ← take .semicolon
  return .varDecl name value

/-- `expression ";"` -/
def exprStmt (d : Nat) : Step Tree := do
  let e ← expression d
  let _ ← take .semicolon
  return .exprStmt e

/-- `"print" expression ";"` -/
def printStmt (d : Nat) : Step Tree := do
  let _ ← take .printKey
  let e ← expression d
  let _ ← take .semicolon
  return .printStmt e

/-- `"return" [expression] ";"` -/
def returnStmt (d : Nat) : Step Tree := do
  let keyword ← take .returnKey
  let value ← expressionUnless .semicolon d
  let _ ← take .semicolon
  return .returnStmt keyword value

/-- `var_decl | expression ";" | ";"` -/
def forInit (d : Nat) : Step Tree := do
  match ← peek? with
  | some .varKey => varDecl d
  | some .semicolon => do
    let _ ← take .semicolon
    return .null
  | _ => exprStmt d

/-- `"(" [NAME ("," NAME)*] ")"` -/
def params : Step (List Token) := do
  let _ ← take .leftParen
  let names ← if (← peek?) == some .rightParen then pure [] else commaList (take .identifier)
  let _ ← take .rightParen
  return names

/-- Declarations up to a closing brace or the end. -/
def declarations (declaration : Step Tree) : Step (List Tree) := do
  let all ← extendAll (fun statements => do
    match ← peek? with
    | none => return none
    | some .rightBrace => return none
    | some _ => return some ((← declaration) :: statements)) []
  return all.reverse

mutual

/-- `var_decl | fun_decl | statement` -/
def declaration : Nat → Step Tree
  | 0 => stopNesting
  | d + 1 => do
    match ← peek? with
    | some .varKey => varDecl d
    | some .funKey => do
      let _ ← take .funKey
      let name ← take .identifier
      let names ← params
      let body ← block d
      return .funDecl name (.list (names.map .token)) (.list body)
    | _ => statement d

/-- One of the statements, told apart by its first lexeme. -/
def statement : Nat → Step Tree
  | 0 => stopNesting
  | d + 1 => do
    match ← peek? with
    | some .printKey => printStmt d
    | some .ifKey => do
      let _ ← take .ifKey
      let _ ← take .leftParen
      let condition ← expression d
      let _ ← take .rightParen
      let thenBranch ← statement d
      let elseBranch ←
        if (← takeIf? (· == .elseKey)).isSome then statement d else pure .null
      return .ifStmt condition thenBranch elseBranch
    | some .whileKey => do
      let _ ← take .whileKey
      let _ ← take .leftParen
      let condition ← expression d
      let _ ← take .rightParen
      return .whileStmt condition (← statement d)
    | some .forKey => do
      let _ ← take .forKey
      let _ ← take .leftParen
      let initializer ← forInit d
      let condition ← expressionUnless .semicolon d
      let _ ← take .semicolon
      let increment ← expressionUnless .rightParen d
      let _ ← take .rightParen
      return .desugarFor initializer condition increment (← statement d)
    | some .returnKey => returnStmt d
    | some .leftBrace => return .block (.list (← block d))
    | _ => exprStmt d

/-- `"{" declaration* "}"` -/
def block : Nat → Step (List Tree)
  | 0 => stopNesting
  | d + 1 => do
    let _ ← take .leftBrace
    let statements ← declarations (declaration d)
    let _ ← take .rightBrace
    return statements

end

/-- `declaration*` up to the ending of the text, which has to be a finished one. -/
def program (ending : Ending) (d : Nat) : Step (List Tree) := do
  let statements ← declarations (declaration d)
  match ← peek?, ending with
  | none, .finished _ => return statements
  | _, _ => stop

/-- The diagnostic of an ending that came too early. -/
def Ending.diagnostic : Ending → Diagnostic
  | finished line =>
    { line := .int line, place := " at end", message := "Unexpected end of input." }
  | unexpected c line => .atLine line ("Unexpected character '" ++ c.toString ++ "'.")

/-- The diagnostic of a fault in a text with the given ending. -/
def Fault.diagnostic (ending : Ending) : Fault → Diagnostic
  | unexpected (t :: _) => .atToken t "Unexpected token."
  | unexpected [] => ending.diagnostic
  | tooDeep (t :: _) => .atToken t "Too much nesting."
  | tooDeep [] => ending.diagnostic

end Strict

/-- The statements of a program text, or the diagnostic of the first problem in it. -/
def parseStrict (source : String) : Except Diagnostic (List Tree) :=
  let (tokens, ending) := Strict.cut source
  match Strict.program ending Strict.depthLimit tokens with
  | .ok (statements, _) => .ok statements
  | .error fault => .error (fault.diagnostic ending)

end Scriptlet
