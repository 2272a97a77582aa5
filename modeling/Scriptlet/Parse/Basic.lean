import Scriptlet.Diagnostic
import Scriptlet.Tree.Basic

/-!
# Parsing with recovery: state and steps

The parser works on the tokens before the first `eof` token. Its state is the list of tokens that
are left, a suffix of the input, and the complaints so far. A step that cannot go on files a
complaint and aborts; the enclosing declaration catches the abort and skips tokens up to the next
statement boundary.

A complaint remembers the tokens that were left when it arose, beginning with the blamed token; no
tokens left means that the end is to blame.

## Main definitions

* `Parse.Cause`, `Parse.Complaint` — what is wrong, and where
* `Parse` — parsing steps
* `Parse.accept?`, `Parse.expect` — taking a token of a given kind
* `Parse.repeated` — a step repeated while it takes tokens
* `Parse.synchronize` — where parsing resumes
-/

namespace Scriptlet

/-- What a parser can complain about. -/
inductive Parse.Cause
  | functionName
  | parenAfterFunctionName
  | parameterName
  | parenAfterParameters
  | braceBeforeBody
  | variableName
  | semicolonAfterDeclaration
  | semicolonAfterValue
  | parenAfterIf
  | parenAfterIfCondition
  | parenAfterWhile
  | parenAfterCondition
  | parenAfterFor
  | semicolonAfterLoopCondition
  | parenAfterForClauses
  | semicolonAfterReturn
  | braceAfterBlock
  | semicolonAfterExpression
  | bracketAfterIndex
  | parenAfterArguments
  | parenAfterExpression
  | expression
  | assignmentTarget
  | nesting
  deriving DecidableEq

/-- The wording of each cause. -/
def Parse.Cause.message : Parse.Cause → String
  | functionName => "Expect function name."
  | parenAfterFunctionName => "Expect '(' after function name."
  | parameterName => "Expect parameter name."
  | parenAfterParameters => "Expect ')' after parameters."
  | braceBeforeBody => "Expect '\x7b' before function body."
  | variableName => "Expect variable name."
  | semicolonAfterDeclaration => "Expect ';' after variable declaration."
  | semicolonAfterValue => "Expect ';' after value."
  | parenAfterIf => "Expect '(' after 'if'."
  | parenAfterIfCondition => "Expect ')' after if condition."
  | parenAfterWhile => "Expect '(' after 'while'."
  | parenAfterCondition => "Expect ')' after condition."
  | parenAfterFor => "Expect '(' after 'for'."
  | semicolonAfterLoopCondition => "Expect ';' after loop condition."
  | parenAfterForClauses => "Expect ')' after for clauses."
  | semicolonAfterReturn => "Expect ';' after return value."
  | braceAfterBlock => "Expect '\x7d' after block."
  | semicolonAfterExpression => "Expect ';' after expression."
  | bracketAfterIndex => "Expect ']' after index."
  | parenAfterArguments => "Expect ')' after arguments."
  | parenAfterExpression => "Expect ')' after expression."
  | expression => "Expect expression."
  | assignmentTarget => "Invalid assignment target."
  | nesting => "Too much nesting."

/-- A cause together with the tokens that were left, the blamed one first. -/
structure Parse.Complaint where
  cause : Parse.Cause
  rest : List Token

/-- The diagnostic of a complaint, where `last` is the token at the end of the input. -/
def Parse.Complaint.diagnostic (last : Token) (c : Parse.Complaint) : Diagnostic :=
  .atToken (c.rest.headD last) c.cause.message

/-- The tokens that are left, the complaints so far, the newest first, and the number of
declarations that were given up. -/
structure Parse.State where
  rest : List Token
  complaints : List Parse.Complaint
  givenUp : Nat

/-- The state before anything was parsed. -/
def Parse.State.start (tokens : List Token) : Parse.State where
  rest := tokens
  complaints := []
  givenUp := 0

/-- Why a step ends early. -/
inductive Parse.Abort
  /-- A complaint was filed. -/
  | panic
  /-- The nesting is too deep. -/
  | tooDeep
  deriving DecidableEq

/-- Parsing steps. -/
abbrev Parse := EStateM Parse.Abort Parse.State

namespace Parse

/-- Files a complaint about the first of the given tokens. -/
def complain (cause : Cause) (rest : List Token) : Parse Unit :=
  modify fun s => { s with complaints := { cause, rest } :: s.complaints }

/-- Files a complaint about the next token and aborts. -/
def fail {α : Type} (cause : Cause) : Parse α := do
  complain cause (← get).rest
  throw .panic

/-- The kind of the next token. -/
def nextKind? : Parse (Option Kind) := do
  return (← get).rest.head?.map (·.kind)

/-- Whether the next token is of the given kind. -/
def nextIs (kind : Kind) : Parse Bool := do
  return (← nextKind?) == some kind

/-- Takes the next token if it is of one of the given kinds. -/
def accept? (kinds : List Kind) : Parse (Option Token) := do
  let s ← get
  match s.rest with
  | t :: rest =>
    if kinds.contains t.kind then
      set { s with rest := rest }
      return some t
    else return none
  | [] => return none

/-- Takes the next token, which has to be of the given kind. -/
def expect (kind : Kind) (cause : Cause) : Parse Token := do
  match ← accept? [kind] with
  | some t => return t
  | none => fail cause

/-- Repeats a step until it yields nothing, at most `n` times. -/
def iterate {α : Type} (step : α → Parse (Option α)) : Nat → α → Parse α
  | 0, a => return a
  | n + 1, a => do
    match ← step a with
    | some b => iterate step n b
    | none => return a

/-- Repeats a step that takes at least one token whenever it yields something. -/
def repeated {α : Type} (step : α → Parse (Option α)) (a : α) : Parse α := do
  iterate step (← get).rest.length a

/-- One or more items with commas between them. -/
def commaSeparated {α : Type} (item : Parse α) : Parse (List α) := do
  let first ← item
  let all ← repeated (fun items => do
    match ← accept? [.comma] with
    | some _ => return some ((← item) :: items)
    | none => return none) [first]
  return all.reverse

/-- The tokens from the next statement boundary on, where `previous` was just skipped: a boundary
lies behind a semicolon and before a token that starts a statement. -/
def skipFrom (previous : Token) : List Token → List Token
  | [] => []
  | t :: rest =>
    if previous.kind = .semicolon ∨ t.kind.startsStatement then t :: rest else skipFrom t rest

/-- Where parsing resumes after an abort. One token is skipped in any case. -/
def synchronize : List Token → List Token
  | [] => []
  | t :: rest => skipFrom t rest

theorem length_skipFrom_le (previous : Token) (tokens : List Token) :
    (skipFrom previous tokens).length ≤ tokens.length := by
  induction tokens generalizing previous with
  | nil => exact Nat.le_refl _
  | cons t rest ih =>
    unfold skipFrom
    split
    · exact Nat.le_refl _
    · exact Nat.le_succ_of_le (ih t)

/-- Resuming takes at least one token, if one is left. -/
theorem length_synchronize_lt {tokens : List Token} (h : tokens ≠ []) :
    (synchronize tokens).length < tokens.length := by
  cases tokens with
  | nil => exact absurd rfl h
  | cons t rest => exact Nat.lt_succ_of_le (length_skipFrom_le t rest)

/-- The state in which parsing goes on after a declaration was given up. -/
def State.resume (s : State) : State :=
  { s with rest := synchronize s.rest, givenUp := s.givenUp + 1 }

/-- Runs a step; on an abort, skips to the next statement boundary and yields nothing. An exhausted
nesting depth is complained about here, at the token where it was noticed. -/
def recover {α : Type} (step : Parse α) : Parse (Option α) := fun s =>
  match step s with
  | .ok a s => .ok (some a) s
  | .error .panic s => .ok none s.resume
  | .error .tooDeep s =>
    .ok none
      { s with complaints := { cause := .nesting, rest := s.rest } :: s.complaints }.resume

end Parse

end Scriptlet
