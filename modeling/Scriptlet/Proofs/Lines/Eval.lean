import Scriptlet.Eval.Run
import Scriptlet.Proofs.Eval.Contract
import Scriptlet.Proofs.Lines.Erasure

/-!
# Running does not look at lines

Every evaluation step commutes with forgetting lines: on trees and values without lines it yields
the values without lines, prints and traces the same lines of text, and ends early for the same
reasons, located at the same tokens. Nor does a step look at what was printed or traced before it
ran, so the images of states are taken on top of any earlier output and trace.

## Main definitions

* `Heap.map` — a heap with another value in place of each
* `Value.withoutLines`, `Abort.withoutLines`, `Settings.withoutLines` — what is left without lines
* `Machine.erased` — the state without lines, on top of earlier output and trace
* `Eval.IgnoresLines` — the contract of evaluation steps

## Main results

* `Eval.ignoresLinesAt` — statements, expressions and calls
* `Eval.interpret_withoutLines` — programs
-/

namespace Scriptlet

/-! ### Heaps with other values -/

namespace Scope

variable {V W : Type}

/-- The scope with the image of every value. -/
def map (f : V → W) (s : Scope V) : Scope W where
  parent := s.parent
  bindings := s.bindings.map fun b => (b.1, f b.2)

theorem get?_map (f : V → W) (s : Scope V) (x : Atom) : (s.map f).get? x = (s.get? x).map f := by
  obtain ⟨parent, bindings⟩ := s
  change find? x (bindings.map _) = (find? x bindings).map f
  induction bindings with
  | nil => rfl
  | cons b rest ih =>
    rw [List.map_cons, find?, find?]
    split
    · rfl
    · exact ih

theorem binds_map (f : V → W) (s : Scope V) (x : Atom) : (s.map f).binds x = s.binds x := by
  rw [binds, binds, get?_map, Option.isSome_map]

theorem map_define (f : V → W) (s : Scope V) (x : Atom) (v : V) :
    (s.define x v).map f = (s.map f).define x (f v) := by
  obtain ⟨parent, bindings⟩ := s
  simp only [Scope.map, Scope.define, Scope.mk.injEq, true_and]
  induction bindings with
  | nil => rfl
  | cons b rest ih =>
    rw [List.map_cons, put, put]
    split
    · rfl
    · rw [List.map_cons, ih]

end Scope

namespace Heap

variable {V W : Type}

/-- The heap with the image of every value. -/
def map (f : V → W) (h : Heap V) : Heap W := ⟨h.scopes.map (·.map f)⟩

theorem size_map (f : V → W) (h : Heap V) : (h.map f).scopes.size = h.scopes.size :=
  Array.size_map

theorem getElem?_map (f : V → W) (h : Heap V) (i : Nat) :
    (h.map f).scopes[i]? = (h.scopes[i]?).map (·.map f) :=
  Array.getElem?_map

theorem map_create (f : V → W) (h : Heap V) (parent : Option Nat) :
    (h.create parent).map f = (h.map f).create parent := by
  simp [map, create, Scope.map]

theorem map_define (f : V → W) (h : Heap V) (i : Nat) (x : Atom) (v : V) :
    (h.define i x v).map f = (h.map f).define i x (f v) := by
  simp only [map, define, Heap.mk.injEq]
  apply Array.ext_getElem?
  intro j
  simp only [Array.getElem?_map, Array.getElem?_modify]
  by_cases hj : i = j
  · simp only [hj, if_true, Option.map_map]
    congr 1
    funext s
    exact s.map_define f x v
  · simp only [hj, if_false]

/-- Names resolve to the same scopes, whatever the values are. -/
theorem resolve?_map (f : V → W) (h : Heap V) (x : Atom) (i : Nat) :
    (h.map f).resolve? x i = h.resolve? x i := by
  induction i using Nat.strongRecOn with
  | _ i ih =>
    rw [resolve?, resolve?, getElem?_map]
    cases h.scopes[i]? with
    | none => rfl
    | some s =>
      simp only [Option.map_some, Scope.binds_map]
      split
      · rfl
      -- the parent of a scope has a smaller number
      · simp only [Scope.map]
        cases s.parent with
        | none => rfl
        | some p =>
          dsimp only
          split
          · next hlt => exact ih p hlt
          · rfl

theorem get?_map (f : V → W) (h : Heap V) (i : Nat) (x : Atom) :
    (h.map f).get? i x = (h.get? i x).map f := by
  rw [get?, get?, resolve?_map]
  cases h.resolve? x i with
  | none => rfl
  | some j =>
    simp only [Option.bind_some, getElem?_map]
    cases h.scopes[j]? with
    | none => rfl
    | some s => exact s.get?_map f x

end Heap

/-! ### Values, errors and states without lines -/

/-- A function whose declaration has forgotten its lines. -/
def Closure.withoutLines (c : Closure) : Closure :=
  { c with
    name := c.name.withoutLine
    params := c.params.withoutLines
    body := c.body.withoutLines }

namespace Value

/-- A value without lines; trees that are values keep theirs. -/
def withoutLines : Value → Value
  | tree t => tree t
  | closure c => closure c.withoutLines
  | native n => native n

@[simp]
theorem isTruthy_withoutLines (v : Value) : v.withoutLines.isTruthy = v.isTruthy := by
  cases v <;> rfl

@[simp]
theorem number?_withoutLines (v : Value) : v.withoutLines.number? = v.number? := by
  cases v <;> rfl

@[simp]
theorem text?_withoutLines (v : Value) : v.withoutLines.text? = v.text? := by
  cases v <;> rfl

@[simp]
theorem typeName_withoutLines (v : Value) : v.withoutLines.typeName = v.typeName := by
  cases v <;> rfl

/-- The text of a function is made of its name, which has no line in it. -/
@[simp]
theorem display_withoutLines (v : Value) : v.withoutLines.display = v.display := by
  cases v <;> rfl

@[simp]
theorem isEqual_withoutLines (a b : Value) :
    a.withoutLines.isEqual b.withoutLines = a.isEqual b := by
  have hsame : a.withoutLines.isSame b.withoutLines = a.isSame b := by
    cases a <;> cases b <;> rfl
  simp only [isEqual, number?_withoutLines, hsame]

end Value

/-- A return signal without lines. -/
def Signal.withoutLines (s : Signal) : Signal where
  keyword := s.keyword.withoutLine
  value := s.value.withoutLines

/-- An error whose place has forgotten its line. -/
def RuntimeError.withoutLine (e : RuntimeError) : RuntimeError :=
  { e with token := e.token.map Token.withoutLine }

/-- The reason for an early end, without the line of its place. -/
def Abort.withoutLines : Abort → Abort
  | error e => error e.withoutLine
  | a => a

/-- A hook whose errors have forgotten their lines. -/
def Hook.withoutLines : Hook → Hook
  | absent => absent
  | answers failure? => answers fun call => (failure? call).map RuntimeError.withoutLine

/-- The settings with a hook without lines. -/
def Settings.withoutLines (settings : Settings) : Settings :=
  { settings with hook := settings.hook.withoutLines }

/-- The state without lines, on top of an earlier output and trace. -/
def Machine.erased (output trace : List String) (m : Machine) : Machine :=
  { m with
    heap := m.heap.map Value.withoutLines
    output := m.output ++ output
    trace := m.trace ++ trace }

namespace Eval

/-- The step `step'` does without lines, on top of an earlier output and trace, what `step` does. -/
abbrev IgnoresLines {α β : Type} (output trace : List String) (g : α → β) (step : Eval α)
    (step' : Eval β) : Prop :=
  Commutes Abort.withoutLines (Machine.erased output trace) g step step'

variable {output trace : List String} {settings : Settings} {α β : Type} {g : α → β}

/-! ### Basic steps -/

theorem ignoresLines_failAt (t : Token) (cause : RuntimeCause) :
    IgnoresLines output trace g (failAt t cause : Eval α) (failAt t.withoutLine cause) :=
  .throw _

theorem ignoresLines_printLine (line : String) :
    IgnoresLines output trace id (printLine line) (printLine line) :=
  .modify fun _ => rfl

theorem ignoresLines_traceLine (level : Nat) {line line' : Unit → String}
    (h : line' () = line ()) :
    IgnoresLines output trace id (traceLine settings level line)
      (traceLine settings.withoutLines level line') := by
  refine .ite (.modify fun m => ?_) (.pure ())
  simp only [Machine.erased, h]
  split <;> rfl

theorem ignoresLines_newScope (parent : Nat) :
    IgnoresLines output trace id (newScope parent) (newScope parent) := by
  refine .modifyGet fun m => ?_
  simp only [Machine.erased, Heap.size_map, Heap.map_create]

theorem ignoresLines_newClosureId : IgnoresLines output trace id newClosureId newClosureId :=
  .modifyGet fun _ => rfl

theorem ignoresLines_define (scope : Nat) (name : Token) (v : Value) :
    IgnoresLines output trace id (define scope name v)
      (define scope name.withoutLine v.withoutLines) := by
  have hname : name.withoutLine.name? = name.name? := rfl
  simp only [define, hname]
  cases name.name? with
  | none => exact .throw _
  | some x =>
    refine .modify fun m => ?_
    simp only [Machine.erased, Heap.map_define]

theorem ignoresLines_read (scope : Nat) (name : Token) :
    IgnoresLines output trace Value.withoutLines (read scope name)
      (read scope name.withoutLine) := by
  intro m
  have hname : name.withoutLine.name? = name.name? := rfl
  simp only [read_apply, hname]
  cases name.name? with
  | none => rfl
  | some x =>
    simp only [Machine.erased, Heap.get?_map]
    cases m.heap.get? scope x <;> rfl

theorem ignoresLines_assign (scope : Nat) (name : Token) (v : Value) :
    IgnoresLines output trace id (assign scope name v)
      (assign scope name.withoutLine v.withoutLines) := by
  intro m
  have hname : name.withoutLine.name? = name.name? := rfl
  simp only [assign_apply, hname]
  cases name.name? with
  | none => rfl
  | some x =>
    simp only [Machine.erased, Heap.resolve?_map]
    cases m.heap.resolve? x scope with
    | none => rfl
    | some target => simp only [Heap.map_define, id]

theorem ignoresLines_located {result : Except RuntimeCause α} {result' : Except RuntimeCause β}
    (t : Token) (h : result' = result.map g) :
    IgnoresLines output trace g (located t result) (located t.withoutLine result') := by
  subst h
  cases result with
  | ok a => exact .pure a
  | error cause => exact ignoresLines_failAt t cause

theorem locate_withoutLine (e : RuntimeError) (t : Token) :
    (e.locate t).withoutLine = e.withoutLine.locate t.withoutLine := by
  obtain ⟨token, cause⟩ := e
  cases token <;> rfl

theorem IgnoresLines.locating {step : Eval α} {step' : Eval β} (t : Token)
    (h : IgnoresLines output trace g step step') :
    IgnoresLines output trace g (locating t step) (locating t.withoutLine step') := by
  intro m
  simp only [Eval.locating, h m]
  cases step m with
  | ok a m' => rfl
  | error abort m' =>
    cases abort with
    | error e => simp only [Abort.withoutLines, locate_withoutLine]
    | tooDeep | unfinished | fault | arguments => rfl

theorem IgnoresLines.overflowAt {step : Eval α} {step' : Eval β} (t : Token)
    (h : IgnoresLines output trace g step step') :
    IgnoresLines output trace g (overflowAt t step) (overflowAt t.withoutLine step') := by
  intro m
  simp only [Eval.overflowAt, h m]
  cases step m with
  | ok a m' => rfl
  | error abort m' => cases abort <;> rfl

theorem ignoresLines_checkArity (paren : Token) (expected got : Nat) :
    IgnoresLines output trace id (checkArity paren expected got)
      (checkArity paren.withoutLine expected got) :=
  .ite (ignoresLines_failAt paren _) (.pure ())

/-! ### Operators and native functions -/

theorem unaryResult_withoutLines (op : Token) (v : Value) :
    unaryResult op.withoutLine v.withoutLines = (unaryResult op v).map Value.withoutLines := by
  simp only [unaryResult, Token.kind_withoutLine, Token.text_withoutLine,
    Value.isTruthy_withoutLines, Value.number?_withoutLines]
  split
  · rfl
  · split <;> rfl
  · rfl

theorem binaryResult_withoutLines (op : Token) (a b : Value) :
    binaryResult op.withoutLine a.withoutLines b.withoutLines =
      (binaryResult op a b).map Value.withoutLines := by
  -- the results of operators are atoms, in which there are no lines
  have hadd : add a.withoutLines b.withoutLines = (add a b).map Value.withoutLines := by
    simp only [add, Value.number?_withoutLines, Value.text?_withoutLines,
      Value.display_withoutLines]
    split
    · rfl
    · split <;> rfl
  have harithmetic (x y : Float) :
      arithmetic op.withoutLine x y = (arithmetic op x y).map Value.withoutLines := by
    simp only [arithmetic, Token.kind_withoutLine, Token.text_withoutLine]
    split
    · rfl
    · rfl
    · split <;> rfl
    all_goals rfl
  simp only [binaryResult, Token.kind_withoutLine, Value.isEqual_withoutLines,
    Value.number?_withoutLines, hadd, harithmetic]
  split
  · rfl
  · rfl
  · rfl
  · split <;> rfl

theorem indexPosition_withoutLines (target index : Value) :
    indexPosition target.withoutLines index.withoutLines = indexPosition target index := by
  simp only [indexPosition, Value.text?_withoutLines, Value.typeName_withoutLines,
    Value.number?_withoutLines]

theorem ignoresLines_callHook :
    IgnoresLines output trace id (callHook settings) (callHook settings.withoutLines) := by
  have hnext : IgnoresLines output trace id nextHookCall nextHookCall := .modifyGet fun _ => rfl
  simp only [callHook, Settings.withoutLines]
  cases settings.hook with
  | absent => exact .pure ()
  | answers failure? =>
    refine hnext.bind fun call => ?_
    simp only [id]
    cases failure? call with
    | some e => exact .throw _
    | none => exact .pure ()

theorem ignoresLines_settled {result result' : Except Abort Value}
    (h : result' = (result.mapError Abort.withoutLines).map Value.withoutLines) :
    IgnoresLines output trace Value.withoutLines (settled result) (settled result') := by
  subst h
  cases result with
  | ok v => exact .pure v
  | error abort => exact .throw abort

theorem ignoresLines_applyNative (n : Native) (args : List Value) :
    IgnoresLines output trace Value.withoutLines (applyNative settings n args)
      (applyNative settings.withoutLines n (args.map Value.withoutLines)) := by
  cases n with
  | clock =>
    have hread : IgnoresLines output trace id (readClock settings)
        (readClock settings.withoutLines) := .modifyGet fun _ => rfl
    exact hread.bind fun _ => .pure _
  | stepBattle => exact ignoresLines_callHook.map fun _ => rfl
  | length =>
    refine ignoresLines_settled ?_
    cases args with
    | nil => rfl
    | cons v rest =>
      simp only [List.map_cons, lengthResult, Value.text?_withoutLines,
        Value.typeName_withoutLines]
      cases v.text? <;> rfl
  | concat =>
    refine ignoresLines_settled ?_
    match args with
    | [a, b] =>
      simp only [List.map_cons, List.map_nil, concatResult, Value.text?_withoutLines,
        Value.typeName_withoutLines]
      split <;> rfl
    | [] | [_] => rfl
    | _ :: _ :: _ :: rest =>
      simp only [List.map_cons, concatResult, List.length_cons, List.length_map]
      rfl

theorem ignoresLines_itemsOf (t : Tree) :
    IgnoresLines output trace (List.map Tree.withoutLines) (itemsOf t)
      (itemsOf t.withoutLines) := by
  simp only [itemsOf, Tree.items?_withoutLines]
  cases t.items? with
  | none => exact .throw _
  | some items => exact .pure items

theorem ignoresLines_bindParams (scope : Nat) (params : List Tree) (args : List Value) :
    IgnoresLines output trace id (bindParams scope params args)
      (bindParams scope (params.map Tree.withoutLines) (args.map Value.withoutLines)) := by
  induction params generalizing args with
  | nil => exact .pure ()
  | cons p params ih =>
    cases args with
    | nil => cases p <;> exact .pure ()
    | cons v args =>
      cases p with
      | token t => exact (ignoresLines_define scope t v).bind fun _ => ih args
      -- whatever else a parameter is, it is no token without its lines either
      | _ => exact .throw _

/-! ### Loops -/

theorem IgnoresLines.runEach {run run' : Tree → Eval (Option Signal)}
    (h : ∀ s, IgnoresLines output trace (Option.map Signal.withoutLines) (run s)
      (run' s.withoutLines)) (statements : List Tree) :
    IgnoresLines output trace (Option.map Signal.withoutLines) (runEach run statements)
      (runEach run' (statements.map Tree.withoutLines)) := by
  induction statements with
  | nil => exact .pure none
  | cons s rest ih =>
    refine (h s).bind fun signal => ?_
    cases signal with
    | some signal => exact .pure (some signal)
    | none => exact ih

theorem IgnoresLines.evalEach {evaluate evaluate' : Tree → Eval Value}
    (h : ∀ e, IgnoresLines output trace Value.withoutLines (evaluate e)
      (evaluate' e.withoutLines)) (expressions : List Tree) :
    IgnoresLines output trace (List.map Value.withoutLines) (evalEach evaluate expressions)
      (evalEach evaluate' (expressions.map Tree.withoutLines)) := by
  induction expressions with
  | nil => exact .pure []
  | cons e rest ih => exact (h e).bind fun v => ih.map fun _ => rfl

theorem IgnoresLines.untilSome {turn turn' : Eval (Option α)} {g : α → α}
    (h : IgnoresLines output trace (Option.map g) turn turn') (n : Nat) :
    IgnoresLines output trace g (untilSome turn n) (untilSome turn' n) := by
  induction n with
  | zero => exact .throw _
  | succ n ih =>
    refine h.bind fun result => ?_
    cases result with
    | some a => exact .pure a
    | none => exact ih

theorem IgnoresLines.whileTurn {condition condition' : Eval Value}
    {body body' : Eval (Option Signal)}
    (hcondition : IgnoresLines output trace Value.withoutLines condition condition')
    (hbody : IgnoresLines output trace (Option.map Signal.withoutLines) body body') :
    IgnoresLines output trace (Option.map (Option.map Signal.withoutLines))
      (whileTurn condition body) (whileTurn condition' body') := by
  refine hcondition.bind fun v => ?_
  rw [Value.isTruthy_withoutLines]
  refine .ite (hbody.bind fun signal => ?_) (.pure (some none))
  cases signal with
  | some signal => exact .pure (some (some signal))
  | none => exact .pure none

/-! ### Statements, expressions and calls -/

/-- Nothing that runs with `d` units of stack left looks at lines. -/
structure IgnoresLinesAt (output trace : List String) (settings : Settings) (d : Nat) : Prop where
  exec (t : Tree) (scope : Nat) :
    IgnoresLines output trace (Option.map Signal.withoutLines) (exec settings d t scope)
      (exec settings.withoutLines d t.withoutLines scope)
  execBlock (t : Tree) (scope : Nat) :
    IgnoresLines output trace (Option.map Signal.withoutLines) (execBlock settings d t scope)
      (execBlock settings.withoutLines d t.withoutLines scope)
  eval (t : Tree) (scope : Nat) :
    IgnoresLines output trace Value.withoutLines (eval settings d t scope)
      (eval settings.withoutLines d t.withoutLines scope)
  evalArgs (t : Tree) (scope : Nat) :
    IgnoresLines output trace (List.map Value.withoutLines) (evalArgs settings d t scope)
      (evalArgs settings.withoutLines d t.withoutLines scope)
  call (f : Value) (args : List Value) (paren : Token) :
    IgnoresLines output trace Value.withoutLines (call settings d f args paren)
      (call settings.withoutLines d f.withoutLines (args.map Value.withoutLines)
        paren.withoutLine)

namespace IgnoresLinesAt

variable {d : Nat}

/-- An optional expression is missing without lines if it is missing. -/
theorem optional {next next' : Value → Eval (Option Signal)}
    (h : IgnoresLinesAt output trace settings d) (t : Tree) (scope : Nat)
    (hnext : ∀ v, IgnoresLines output trace (Option.map Signal.withoutLines) (next v)
      (next' v.withoutLines)) :
    IgnoresLines output trace (Option.map Signal.withoutLines)
      (if t.isNull then pure .nil >>= next else Eval.eval settings d t scope >>= next)
      (if t.withoutLines.isNull then pure .nil >>= next'
        else Eval.eval settings.withoutLines d t.withoutLines scope >>= next') := by
  rw [Tree.isNull_withoutLines]
  exact .ite (hnext .nil) ((h.eval t scope).bind hnext)

theorem exec_succ (h : IgnoresLinesAt output trace settings d) (t : Tree) (scope : Nat) :
    IgnoresLines output trace (Option.map Signal.withoutLines)
      (Eval.exec settings (d + 1) t scope)
      (Eval.exec settings.withoutLines (d + 1) t.withoutLines scope) := by
  cases t with
  | exprStmt e =>
    simp only [Tree.withoutLines, Eval.exec]
    exact (h.eval e scope).bind fun _ => .pure none
  | printStmt e =>
    simp only [Tree.withoutLines, Eval.exec]
    refine (h.eval e scope).bind fun v => ?_
    rw [Value.display_withoutLines]
    exact (ignoresLines_printLine _).bind fun _ => .pure none
  | varDecl name e =>
    simp only [Tree.withoutLines, Eval.exec]
    refine h.optional e scope fun v => (ignoresLines_define scope name v).bind fun _ => ?_
    refine (ignoresLines_traceLine 2 ?_).bind fun _ => .pure none
    rw [Token.text_withoutLine, Value.display_withoutLines]
  | block statements =>
    simp only [Tree.withoutLines, Eval.exec]
    exact (ignoresLines_newScope scope).bind fun inner => h.execBlock statements inner
  | ifStmt condition thenBranch elseBranch =>
    simp only [Tree.withoutLines, Eval.exec]
    refine (h.eval condition scope).bind fun v => ?_
    refine (ignoresLines_traceLine 3 ?_).bind fun _ => ?_
    · simp only [conditionTrace, Value.display_withoutLines, Value.isTruthy_withoutLines]
    · rw [Value.isTruthy_withoutLines, Tree.isNull_withoutLines]
      exact .ite (h.exec thenBranch scope) (.ite (.pure none) (h.exec elseBranch scope))
  | whileStmt condition body =>
    simp only [Tree.withoutLines, Eval.exec]
    exact IgnoresLines.untilSome
      (IgnoresLines.whileTurn (h.eval condition scope) (h.exec body scope)) settings.turns
  | forStmt initializer condition increment body =>
    simp only [Tree.withoutLines, Eval.exec]
    rw [← Tree.withoutLines_desugarFor]
    exact h.exec _ scope
  | funDecl name params body =>
    simp only [Tree.withoutLines, Eval.exec]
    refine ignoresLines_newClosureId.bind fun id => ?_
    refine (ignoresLines_define scope name (.closure ⟨id, name, params, body, scope⟩)).bind
      fun _ => ?_
    refine (ignoresLines_traceLine 2 ?_).bind fun _ => .pure none
    rw [Token.text_withoutLine]
  | returnStmt keyword e =>
    simp only [Tree.withoutLines, Eval.exec]
    exact h.optional e scope fun v => .pure (some (Signal.mk keyword v))
  -- what is no statement is none without lines either
  | _ =>
    simp only [Tree.withoutLines, Eval.exec]
    exact .throw _

theorem eval_succ (h : IgnoresLinesAt output trace settings d) (t : Tree) (scope : Nat) :
    IgnoresLines output trace Value.withoutLines (Eval.eval settings (d + 1) t scope)
      (Eval.eval settings.withoutLines (d + 1) t.withoutLines scope) := by
  cases t with
  | literal v =>
    simp only [Tree.withoutLines, Eval.eval]
    exact .pure (Value.tree v)
  | grouping e =>
    simp only [Tree.withoutLines, Eval.eval]
    exact h.eval e scope
  | varRef name =>
    simp only [Tree.withoutLines, Eval.eval]
    exact ignoresLines_read scope name
  | assign name e =>
    simp only [Tree.withoutLines, Eval.eval]
    refine (h.eval e scope).bind fun v => ?_
    exact (ignoresLines_assign scope name v).bind fun _ => .pure v
  | logical left op right =>
    simp only [Tree.withoutLines, Eval.eval]
    refine (h.eval left scope).bind fun v => ?_
    rw [Value.isTruthy_withoutLines, Token.kind_withoutLine]
    exact .ite (.pure v) (h.eval right scope)
  | unary op e =>
    simp only [Tree.withoutLines, Eval.eval]
    exact (h.eval e scope).bind fun v => ignoresLines_located op (unaryResult_withoutLines op v)
  | binary left op right =>
    simp only [Tree.withoutLines, Eval.eval]
    refine (h.eval left scope).bind fun a => (h.eval right scope).bind fun b => ?_
    exact ignoresLines_located op (binaryResult_withoutLines op a b)
  | call callee paren arguments =>
    simp only [Tree.withoutLines, Eval.eval]
    refine (h.eval callee scope).bind fun f => (h.evalArgs arguments scope).bind fun args => ?_
    exact h.call f args paren
  | index target bracket index =>
    simp only [Tree.withoutLines, Eval.eval]
    refine (h.eval target scope).bind fun a => (h.eval index scope).bind fun i => ?_
    rw [indexPosition_withoutLines]
    refine (ignoresLines_located (g := id) bracket ?_).bind fun _ => .pure (charAt _ _)
    rw [Except.map_id, id]
  | assignIndex target bracket index value =>
    cases target with
    | varRef name =>
      simp only [Tree.withoutLines, Eval.eval]
      refine (ignoresLines_read scope name).bind fun a => (h.eval index scope).bind fun i => ?_
      refine (h.eval value scope).bind fun v => ?_
      rw [indexPosition_withoutLines]
      refine (ignoresLines_located (g := id) bracket ?_).bind fun found => ?_
      · rw [Except.map_id, id]
      · have hsingle : singleChar? v.withoutLines = singleChar? v := by
          rw [singleChar?, singleChar?, Value.text?_withoutLines]
        rw [hsingle]
        cases singleChar? v with
        | some c => exact (ignoresLines_assign scope name (replaceAt _ _ c)).bind fun _ => .pure v
        | none => exact ignoresLines_failAt bracket _
    | _ =>
      simp only [Tree.withoutLines, Eval.eval]
      exact ignoresLines_failAt bracket _
  | _ =>
    simp only [Tree.withoutLines, Eval.eval]
    exact .throw _

theorem call_succ (h : IgnoresLinesAt output trace settings d) (f : Value) (args : List Value)
    (paren : Token) :
    IgnoresLines output trace Value.withoutLines (Eval.call settings (d + 1) f args paren)
      (Eval.call settings.withoutLines (d + 1) f.withoutLines (args.map Value.withoutLines)
        paren.withoutLine) := by
  cases f with
  | tree t =>
    simp only [Value.withoutLines, Eval.call]
    exact ignoresLines_failAt paren _
  | native n =>
    simp only [Value.withoutLines, Eval.call, List.length_map]
    refine (ignoresLines_checkArity paren _ _).bind fun _ => ?_
    exact (ignoresLines_applyNative n args).locating paren
  | closure c =>
    simp only [Value.withoutLines, Eval.call, List.length_map]
    refine (ignoresLines_itemsOf c.params).bind fun params => ?_
    rw [List.length_map]
    refine (ignoresLines_checkArity paren _ _).bind fun _ => ?_
    refine (ignoresLines_traceLine 3 ?_).bind fun _ => ?_
    · simp only [callTrace, Closure.withoutLines, Token.text_withoutLine, List.map_map,
        Function.comp_def, Value.display_withoutLines]
    · refine (ignoresLines_newScope c.scope).bind fun inner => ?_
      refine (ignoresLines_bindParams inner params args).bind fun _ => ?_
      refine ((h.execBlock c.body inner).overflowAt paren).map fun result => ?_
      cases result <;> rfl

end IgnoresLinesAt

theorem ignoresLinesAt (output trace : List String) (settings : Settings) (d : Nat) :
    IgnoresLinesAt output trace settings d := by
  induction d with
  | zero =>
    constructor <;> intros
    · simp only [exec]; exact .throw _
    · simp only [execBlock]; exact .throw _
    · simp only [eval]; exact .throw _
    · simp only [evalArgs]; exact .throw _
    · simp only [call]; exact .throw _
  | succ d ih =>
    constructor
    · exact ih.exec_succ
    · intro t scope
      simp only [execBlock]
      exact (ignoresLines_itemsOf t).bind fun items =>
        IgnoresLines.runEach (fun s => ih.exec s scope) items
    · exact ih.eval_succ
    · intro t scope
      simp only [evalArgs]
      exact (ignoresLines_itemsOf t).bind fun items =>
        IgnoresLines.evalEach (fun e => ih.eval e scope) items
    · exact ih.call_succ

/-- Running a program does not look at lines, nor at what was printed or traced before. -/
theorem interpret_withoutLines (output trace : List String) (settings : Settings)
    (statements : List Tree) :
    IgnoresLines output trace id (interpret settings statements)
      (interpret settings.withoutLines (statements.map Tree.withoutLines)) := by
  induction statements with
  | nil => exact .pure ()
  | cons s rest ih =>
    have hone : IgnoresLines output trace id (interpretOne settings s)
        (interpretOne settings.withoutLines s.withoutLines) := by
      refine ((ignoresLinesAt output trace settings settings.depth).exec s _).bind fun result => ?_
      cases result with
      | none => exact .pure ()
      | some signal => exact ignoresLines_failAt signal.keyword _
    exact hone.bind fun _ => ih

end Eval

end Scriptlet
