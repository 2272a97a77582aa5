import Scriptlet.Eval.Machine

/-!
# Operators, indexing and native functions

The steps that work on values alone. Operators look at the kind of their token, not at its lexeme.

## Main definitions

* `Eval.applyBinary`, `Eval.applyUnary` — operators
* `Eval.indexPosition` — the checks that an index passes
* `Eval.lengthResult`, `Eval.concatResult`, `Eval.applyNative` — native functions
-/

namespace Scriptlet.Eval

/-- The result of an operator on two numbers. -/
def arithmetic (op : Token) (x y : Float) : Except RuntimeCause Value :=
  match op.kind with
  | .minus => .ok (.number (x - y))
  | .star => .ok (.number (x * y))
  | .slash => if y == 0 then .error .divisionByZero else .ok (.number (x / y))
  | .greater => .ok (.bool (x > y))
  | .greaterEqual => .ok (.bool (x ≥ y))
  | .less => .ok (.bool (x < y))
  | .lessEqual => .ok (.bool (x ≤ y))
  | _ => .error (.unknownBinary op.text)

/-- Two numbers are added; otherwise, if one side is a text, the texts of both are joined. -/
def add (a b : Value) : Except RuntimeCause Value :=
  match a.number?, b.number? with
  | some x, some y => .ok (.number (x + y))
  | _, _ =>
    if a.text?.isSome || b.text?.isSome then .ok (.text (a.display ++ b.display))
    else .error .operandsNotAddable

/-- The result of a binary operator. -/
def binaryResult (op : Token) (a b : Value) : Except RuntimeCause Value :=
  match op.kind with
  | .plus => add a b
  | .equalEqual => .ok (.bool (a.isEqual b))
  | .bangEqual => .ok (.bool (!a.isEqual b))
  | _ =>
    match a.number?, b.number? with
    | some x, some y => arithmetic op x y
    | _, _ => .error .operandsNotNumbers

/-- The result of a unary operator. -/
def unaryResult (op : Token) (v : Value) : Except RuntimeCause Value :=
  match op.kind with
  | .bang => .ok (.bool (!v.isTruthy))
  | .minus =>
    match v.number? with
    | some x => .ok (.number (-x))
    | none => .error .operandNotNumber
  | _ => .error (.unknownUnary op.text)

/-- A result, or an error located at a token. -/
def located {α : Type} (t : Token) : Except RuntimeCause α → Eval α
  | .ok a => return a
  | .error cause => failAt t cause

/-- Applies a binary operator; errors are located at it. -/
def applyBinary (op : Token) (a b : Value) : Eval Value := located op (binaryResult op a b)

/-- Applies a unary operator; errors are located at it. -/
def applyUnary (op : Token) (v : Value) : Eval Value := located op (unaryResult op v)

/-- The characters of an indexed value and the position that the index names. -/
def indexPosition (target index : Value) : Except RuntimeCause (List Char × Nat) :=
  match target.text? with
  | none => .error (.notIndexable target.typeName)
  | some s =>
    match index.number?.bind Number.whole? with
    | none => .error .indexNotWhole
    | some i =>
      if 0 ≤ i ∧ i < s.length then .ok (s.toList, i.toNat) else .error (.indexOutOfBounds i)

/-- The character at a position, as a text. -/
def charAt (cs : List Char) (position : Nat) : Value :=
  .text (String.ofList ((cs.drop position).take 1))

/-- The characters with the one at a position replaced. -/
def replaceAt (cs : List Char) (position : Nat) (c : Char) : Value :=
  .text (String.ofList (cs.set position c))

/-- The single character that a value is. -/
def singleChar? (v : Value) : Option Char :=
  match v.text?.map String.toList with
  | some [c] => some c
  | _ => none

/-- The end of a run with an error that has no place yet. -/
def unplaced (cause : RuntimeCause) : Abort := .error { token := none, cause }

/-- The number of characters of the first argument; what follows it does not count. -/
def lengthResult : List Value → Except Abort Value
  | [] => .error (.arguments .missing)
  | v :: _ =>
    match v.text? with
    | some s => .ok (.number (Float.ofNat s.length))
    | none => .error (unplaced (.lengthArgument v.typeName))

/-- Two texts joined. -/
def concatResult : List Value → Except Abort Value
  | [a, b] =>
    match a.text?, b.text? with
    | some s, some t => .ok (.text (s ++ t))
    | _, _ => .error (unplaced (.concatArguments a.typeName b.typeName))
  | args => .error (.arguments (.notPair args.length))

/-- Reads the clock. -/
def readClock (settings : Settings) : Eval Float := modifyGet fun m =>
  (settings.clock m.clockReadings, { m with clockReadings := m.clockReadings + 1 })

/-- The number of the next call of the battle hook, which is counted. -/
def nextHookCall : Eval Nat := modifyGet fun m =>
  (m.hookCalls, { m with hookCalls := m.hookCalls + 1 })

/-- Calls the battle hook. -/
def callHook (settings : Settings) : Eval Unit := do
  match settings.hook with
  | .absent => return ()
  | .answers failure? =>
    match failure? (← nextHookCall) with
    | some e => throw (.error e)
    | none => return ()

/-- A result, or the end of the run. -/
def settled {α : Type} : Except Abort α → Eval α
  | .ok a => return a
  | .error abort => throw abort

/-- Applies a native function to arguments. Its errors have no place, save those that the battle
hook located itself. -/
def applyNative (settings : Settings) (n : Native) (args : List Value) : Eval Value :=
  match n with
  | .clock => return .number (← readClock settings)
  | .stepBattle => do
    callHook settings
    return .nil
  | .length => settled (lengthResult args)
  | .concat => settled (concatResult args)

/-- Locates the errors of a step that have no place yet. -/
def locating {α : Type} (t : Token) (step : Eval α) : Eval α := fun m =>
  match step m with
  | .error (.error e) m => .error (.error (e.locate t)) m
  | result => result

/-- Turns an exhausted stack into an error located at a token. -/
def overflowAt {α : Type} (t : Token) (step : Eval α) : Eval α := fun m =>
  match step m with
  | .error .tooDeep m => .error (.error { token := some t, cause := .stackOverflow }) m
  | result => result

/-- Fails unless the number of arguments is the expected one. -/
def checkArity (paren : Token) (expected got : Nat) : Eval Unit := do
  if expected ≠ got then failAt paren (.wrongArity expected got)

end Scriptlet.Eval
