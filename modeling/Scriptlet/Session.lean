import Scriptlet.Eval.Run
import Scriptlet.Json.Reader
import Scriptlet.Json.Writer
import Scriptlet.Parse.Program
import Scriptlet.Strict.Descent
import Scriptlet.Tree.Codec

/-!
# Sessions

A session keeps one machine through several requests, so that what one request declares is there for
the next. A request that fails keeps the effects it had before it failed.

## Main definitions

* `Session`, `Session.start` — settings and machine
* `Failure` — why a request failed
* `Reply` — what a request answers: result, output, messages and trace
* `Session.runSource`, `Session.runTree`, `Session.runStrict`, `Session.runFileForm`,
  `Session.callGlobal`, `Session.close` — the requests
* `Session.globals` — the global names that a program declared
-/

namespace Scriptlet

/-- Why a request failed. -/
inductive Failure
  /-- The text is no program. -/
  | rejected (diagnostics : List Diagnostic)
  /-- The JSON value is not the file form of a tree. -/
  | unreadable (e : DecodeError)
  | stopped (a : Abort)

/-- One machine with its settings. -/
structure Session where
  settings : Settings
  machine : Machine

/-- What a request answers. -/
structure Reply (α : Type) where
  result : Except Failure α
  /-- What was printed, in full lines. -/
  output : String
  /-- The diagnostics that were reported, in full lines. -/
  messages : String
  /-- What was written to the trace file, in full lines. -/
  trace : String

namespace Reply

/-- The reply to a request that failed before anything ran. -/
def refused {α : Type} (failure : Failure) (messages : String) : Reply α where
  result := .error failure
  output := ""
  messages := messages
  trace := ""

end Reply

namespace Session

/-- A session in which nothing ran. -/
def start (settings : Settings) : Session where
  settings := settings
  machine := .fresh settings.traceLevel

/-- Runs a step and collects what it printed and traced. -/
def perform {α : Type} (s : Session) (step : Eval α) : Reply α × Session :=
  let machine := { s.machine with output := [], trace := [] }
  let (result, machine) : Except Failure α × Machine :=
    match step machine with
    | .ok a machine => (.ok a, machine)
    | .error abort machine => (.error (.stopped abort), machine)
  ({ result, output := linesText machine.output, messages := "",
     trace := linesText machine.trace },
   { s with machine })

/-- Runs statements in the global scope. -/
def runStatements (s : Session) (statements : List Tree) : Reply Unit × Session :=
  s.perform (Eval.interpret s.settings statements)

/-- Runs a program text; diagnostics are reported. -/
def runSource (s : Session) (source : String) : Reply Unit × Session :=
  let parsed := parseSource source
  if parsed.diagnostics.isEmpty then s.runStatements parsed.statements
  else (.refused (.rejected parsed.diagnostics) (Diagnostic.echo parsed.diagnostics), s)

/-- Runs the statements in a file form. -/
def runTree (s : Session) (fileForm : Json) : Reply Unit × Session :=
  match Tree.decode fileForm with
  | .error e => (.refused (.unreadable e) "", s)
  | .ok t =>
    s.perform do
      let statements ← Eval.itemsOf t
      Eval.interpret s.settings statements

/-- Runs a program text that the strict front end reads; its diagnostic is not reported. -/
def runStrict (s : Session) (source : String) : Reply Unit × Session :=
  match parseStrict source with
  | .ok statements => s.runStatements statements
  | .error d => (.refused (.rejected [d]) "", s)

/-- Runs a program text by way of the text of its file form. -/
def runFileForm (s : Session) (source : String) : Reply Unit × Session :=
  let parsed := parseSource source
  if parsed.diagnostics.isEmpty then
    match Tree.encode (.list parsed.statements) with
    | .ok fileForm => s.runTree ((Json.parse? fileForm.compact).getD .null)
    | .error _ => s.runStatements parsed.statements
  else (.refused (.rejected parsed.diagnostics) (Diagnostic.echo parsed.diagnostics), s)

/-- Calls the function that a global name is bound to. The name and the closing parenthesis of the
call are given as tokens, where errors are located. -/
def callGlobal (s : Session) (name paren : Token) (args : List Value) : Reply Value × Session :=
  s.perform do
    let f ← Eval.read Machine.globalScope name
    Eval.call s.settings s.settings.depth f args paren

/-- Closes the trace file. -/
def close (s : Session) : Session := { s with machine := { s.machine with traceOpen := false } }

/-- Whether a binding is the one that a native function had from the start. -/
def isBuiltIn : Atom × Value → Bool
  | (.text name, .native n) => name == n.name
  | _ => false

/-- The global names that a program declared, with their values, sorted by name. -/
def globals (s : Session) : List (Atom × Value) :=
  match s.machine.heap.scopes[Machine.globalScope]? with
  | none => []
  | some scope =>
    (scope.bindings.filter fun b => !isBuiltIn b).mergeSort fun a b => a.1.plain ≤ b.1.plain

end Session

end Scriptlet
