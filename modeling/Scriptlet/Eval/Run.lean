import Scriptlet.Eval.Operator

/-!
# Running trees

Statements are run and expressions evaluated by recursion on the depth of the stack that is left:
each statement, expression, block, argument list and call takes one unit of it. When it is used up,
the innermost call that is running fails with a stack overflow. Loops take their fuel from the
settings.

A statement ends normally or with a return signal, which every enclosing statement hands on until a
call takes the value out of it.

## Main definitions

* `Signal` — a return on its way to the call
* `Eval.exec`, `Eval.execBlock`, `Eval.eval`, `Eval.evalArgs`, `Eval.call` — the mutual recursion
* `Eval.interpret` — runs the statements of a program in the global scope
-/

namespace Scriptlet

/-- A return on its way to the call: its keyword and its value. -/
structure Signal where
  keyword : Token
  value : Value

namespace Eval

/-- The items of a tree that stands in place of a list. -/
def itemsOf (t : Tree) : Eval (List Tree) :=
  match t.items? with
  | some items => return items
  | none => throw (.fault .notSequence)

/-- Runs statements in order up to the first that ends with a return signal. -/
def runEach (run : Tree → Eval (Option Signal)) : List Tree → Eval (Option Signal)
  | [] => return none
  | s :: rest => do
    match ← run s with
    | some signal => return some signal
    | none => runEach run rest

/-- Evaluates expressions in order. -/
def evalEach (evaluate : Tree → Eval Value) : List Tree → Eval (List Value)
  | [] => return []
  | e :: rest => do
    let v ← evaluate e
    let vs ← evalEach evaluate rest
    return v :: vs

/-- Repeats a turn until it yields something, with fuel for the given number of turns. -/
def untilSome {α : Type} (turn : Eval (Option α)) : Nat → Eval α
  | 0 => throw .unfinished
  | n + 1 => do
    match ← turn with
    | some a => return a
    | none => untilSome turn n

/-- One turn of a `while` loop: nothing to go on, or how the loop ends. -/
def whileTurn (condition : Eval Value) (body : Eval (Option Signal)) :
    Eval (Option (Option Signal)) := do
  if (← condition).isTruthy then
    match ← body with
    | some signal => return some (some signal)
    | none => return none
  else return some none

/-- Binds parameters to arguments in a scope. -/
def bindParams (scope : Nat) : List Tree → List Value → Eval Unit
  | .token t :: params, v :: args => do
    define scope t v
    bindParams scope params args
  | _ :: _, _ :: _ => throw (.fault .notToken)
  | _, _ => return ()

/-- The trace line of a call. -/
def callTrace (name : Token) (args : List Value) : String :=
  "call " ++ name.text ++ "(" ++ ", ".intercalate (args.map Value.display) ++ ")"

/-- The trace line of a condition. -/
def conditionTrace (v : Value) : String :=
  "if condition " ++ v.display ++ " -> " ++ (Atom.bool v.isTruthy).inspect

/-- The value of a finished call. -/
def returned : Option Signal → Value
  | some signal => signal.value
  | none => .nil

mutual

/-- Runs a statement in a scope. -/
def exec (settings : Settings) : Nat → Tree → Nat → Eval (Option Signal)
  | 0, _, _ => throw .tooDeep
  | d + 1, t, scope =>
    match t with
    | .exprStmt e => do
      let _ ← eval settings d e scope
      return none
    | .printStmt e => do
      let v ← eval settings d e scope
      printLine v.display
      return none
    | .varDecl name e => do
      let v ← if e.isNull then pure .nil else eval settings d e scope
      define scope name v
      traceLine settings 2 fun _ => "declare " ++ name.text ++ " = " ++ v.display
      return none
    | .block statements => do
      let inner ← newScope scope
      execBlock settings d statements inner
    | .ifStmt condition thenBranch elseBranch => do
      let v ← eval settings d condition scope
      traceLine settings 3 fun _ => conditionTrace v
      if v.isTruthy then exec settings d thenBranch scope
      else if elseBranch.isNull then return none
      else exec settings d elseBranch scope
    | .whileStmt condition body =>
      untilSome (whileTurn (eval settings d condition scope) (exec settings d body scope))
        settings.turns
    | .forStmt initializer condition increment body =>
      exec settings d (.desugarFor initializer condition increment body) scope
    | .funDecl name params body => do
      let id ← newClosureId
      define scope name (.closure { id, name, params, body, scope })
      traceLine settings 2 fun _ => "define function " ++ name.text
      return none
    | .returnStmt keyword e => do
      let v ← if e.isNull then pure .nil else eval settings d e scope
      return some { keyword, value := v }
    | t => throw (.fault (.notStatement t.label))

/-- Runs the statements of a block in the scope made for it. -/
def execBlock (settings : Settings) : Nat → Tree → Nat → Eval (Option Signal)
  | 0, _, _ => throw .tooDeep
  | d + 1, statements, scope => do
    let items ← itemsOf statements
    runEach (fun s => exec settings d s scope) items

/-- Evaluates an expression in a scope. -/
def eval (settings : Settings) : Nat → Tree → Nat → Eval Value
  | 0, _, _ => throw .tooDeep
  | d + 1, t, scope =>
    match t with
    | .literal v => return .tree v
    | .grouping e => eval settings d e scope
    | .varRef name => read scope name
    | .assign name e => do
      let v ← eval settings d e scope
      assign scope name v
      return v
    | .logical left op right => do
      let v ← eval settings d left scope
      if v.isTruthy == (op.kind == .orKey) then return v
      else eval settings d right scope
    | .unary op e => do
      let v ← eval settings d e scope
      applyUnary op v
    | .binary left op right => do
      let a ← eval settings d left scope
      let b ← eval settings d right scope
      applyBinary op a b
    | .call callee paren arguments => do
      let f ← eval settings d callee scope
      let args ← evalArgs settings d arguments scope
      call settings d f args paren
    | .index target bracket index => do
      let a ← eval settings d target scope
      let i ← eval settings d index scope
      let (cs, position) ← located bracket (indexPosition a i)
      return charAt cs position
    | .assignIndex target bracket index value =>
      match target with
      | .varRef name => do
        let a ← read scope name
        let i ← eval settings d index scope
        let v ← eval settings d value scope
        let (cs, position) ← located bracket (indexPosition a i)
        match singleChar? v with
        | some c => do
          assign scope name (replaceAt cs position c)
          return v
        | none => failAt bracket .notSingleCharacter
      | _ => failAt bracket .assignmentTarget
    | t => throw (.fault (.notExpression t.label))

/-- Evaluates the arguments of a call. -/
def evalArgs (settings : Settings) : Nat → Tree → Nat → Eval (List Value)
  | 0, _, _ => throw .tooDeep
  | d + 1, arguments, scope => do
    let items ← itemsOf arguments
    evalEach (fun e => eval settings d e scope) items

/-- Calls a value. A declared function runs in a new scope inside the one it was declared in. -/
def call (settings : Settings) : Nat → Value → List Value → Token → Eval Value
  | 0, _, _, _ => throw .tooDeep
  | d + 1, f, args, paren =>
    match f with
    | .native n => do
      checkArity paren n.arity args.length
      locating paren (applyNative settings n args)
    | .closure c => do
      let params ← itemsOf c.params
      checkArity paren params.length args.length
      traceLine settings 3 fun _ => callTrace c.name args
      let scope ← newScope c.scope
      bindParams scope params args
      let result ← overflowAt paren (execBlock settings d c.body scope)
      return returned result
    | .tree _ => failAt paren .notCallable

end

/-- Runs a statement of a program; a return outside of functions is an error. -/
def interpretOne (settings : Settings) (s : Tree) : Eval Unit := do
  match ← exec settings settings.depth s Machine.globalScope with
  | some signal => failAt signal.keyword .returnOutsideFunction
  | none => return ()

/-- Runs the statements of a program in the global scope. -/
def interpret (settings : Settings) : List Tree → Eval Unit
  | [] => return ()
  | s :: rest => do
    interpretOne settings s
    interpret settings rest

end Eval

end Scriptlet
