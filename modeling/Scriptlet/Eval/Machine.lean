import Scriptlet.Eval.Error
import Scriptlet.Eval.Scope
import Scriptlet.Eval.Value

/-!
# The machine

The state of a running program: the heap of scopes, what was printed and traced, and three counters.
Scope 0 is the global scope, in which the native functions are defined from the start. Trace lines
go to the trace file while it is open and to the output afterwards.

What surrounds a program may answer it differently each time. The clock and the battle hook are
therefore given by what they do at each reading and at each call, and the state counts both.

## Main definitions

* `Clock`, `Hook` — what the clock shows and what the battle hook does, each time anew
* `Settings` — what is fixed for a run: trace level, battle hook, clock and limits
* `Machine`, `Machine.fresh` — the state, and the state before anything ran
* `Eval` — running steps
* `Eval.printLine`, `Eval.traceLine`, `Eval.newScope`, `Eval.define`, `Eval.read`, `Eval.assign` —
  the basic steps
-/

namespace Scriptlet

/-- What the clock shows, in seconds, at each of its readings. -/
abbrev Clock := Nat → Float

/-- A number stands for a clock that always shows it. -/
instance : OfScientific Clock where
  ofScientific mantissa negative exponent _ := OfScientific.ofScientific mantissa negative exponent

/-- The battle hook: absent, or what each of its calls does. A call that does not fail returns. -/
inductive Hook
  | absent
  | answers (failure? : Nat → Option RuntimeError)

namespace Hook

/-- A hook that returns from every call. -/
def returns : Hook := .answers fun _ => none

/-- A hook that fails at every call, always in the same way. -/
def fails (e : RuntimeError) : Hook := .answers fun _ => some e

/-- How a call of the hook fails, if it does. -/
def failure? : Hook → Nat → Option RuntimeError
  | absent, _ => none
  | answers failure?, call => failure? call

end Hook

/-- What is fixed for a run. -/
structure Settings where
  /-- From level 2 on declarations are traced, from level 3 on also conditions and calls. -/
  traceLevel : Nat
  hook : Hook
  clock : Clock
  /-- The depth of the stack. -/
  depth : Nat := 10000
  /-- The fuel of each loop, in turns. -/
  turns : Nat := 4611686018427387904

/-- The state of a running program. -/
structure Machine where
  heap : Heap Value
  /-- The number of functions declared so far. -/
  closures : Nat
  /-- The number of times that the clock was read. -/
  clockReadings : Nat
  /-- The number of times that the battle hook was called. -/
  hookCalls : Nat
  /-- What was printed, the newest line first. -/
  output : List String
  /-- What was traced to the file, the newest line first. -/
  trace : List String
  traceOpen : Bool

namespace Machine

/-- The global scope. -/
def globalScope : Nat := 0

/-- The heap with the global scope, in which the native functions are defined. -/
def freshHeap : Heap Value :=
  Native.all.foldl (fun h n => h.define globalScope (.text n.name) (.native n))
    (Heap.empty.create none)

/-- The state before anything ran; the trace file is open if there is something to trace. -/
def fresh (traceLevel : Nat) : Machine where
  heap := freshHeap
  closures := 0
  clockReadings := 0
  hookCalls := 0
  output := []
  trace := []
  traceOpen := 0 < traceLevel

end Machine

/-- Lines put together, given the newest first, each ended by a newline. -/
def linesText (newestFirst : List String) : String :=
  String.join (newestFirst.reverse.map fun line => line ++ "\n")

/-- Running steps. -/
abbrev Eval := EStateM Abort Machine

namespace Eval

/-- Ends the run with an error located at a token. -/
def failAt {α : Type} (t : Token) (cause : RuntimeCause) : Eval α :=
  throw (.error { token := some t, cause })

/-- Prints a line. -/
def printLine (line : String) : Eval Unit :=
  modify fun m => { m with output := line :: m.output }

/-- Traces a line, made only if the trace level is at least `level`. -/
def traceLine (settings : Settings) (level : Nat) (line : Unit → String) : Eval Unit := do
  if level ≤ settings.traceLevel then
    modify fun m =>
      if m.traceOpen then { m with trace := line () :: m.trace }
      else { m with output := line () :: m.output }

/-- Makes a scope inside another and yields its number. -/
def newScope (parent : Nat) : Eval Nat := modifyGet fun m =>
  (m.heap.scopes.size, { m with heap := m.heap.create (some parent) })

/-- Declares the name of a token in a scope. -/
def define (scope : Nat) (name : Token) (v : Value) : Eval Unit :=
  match name.name? with
  | some x => modify fun m => { m with heap := m.heap.define scope x v }
  | none => throw (.fault .notName)

/-- The value of the name of a token as seen from a scope. -/
def read (scope : Nat) (name : Token) : Eval Value := do
  match name.name? with
  | none => throw (.fault .notName)
  | some x =>
    match (← get).heap.get? scope x with
    | some v => return v
    | none => failAt name (.undefinedVariable name.text)

/-- Gives a value to the name of a token as seen from a scope. -/
def assign (scope : Nat) (name : Token) (v : Value) : Eval Unit := do
  match name.name? with
  | none => throw (.fault .notName)
  | some x =>
    match (← get).heap.resolve? x scope with
    | some target => modify fun m => { m with heap := m.heap.define target x v }
    | none => failAt name (.undefinedVariable name.text)

/-- A number for a new function. -/
def newClosureId : Eval Nat := modifyGet fun m =>
  (m.closures, { m with closures := m.closures + 1 })

end Eval

end Scriptlet
