import Scriptlet.CommandLine.File
import Scriptlet.CommandLine.Options
import Scriptlet.Session
import Scriptlet.Text.Blank
import Scriptlet.Tree.Prefix

/-!
# Commands

What each command does, as a function of the files and the input lines that it finds. An outcome
lists what was printed, the messages, the files that were written, and how it ended: with an exit
status, or in a crash, for which there is no status.

## Main definitions

* `Message`, `Message.text` — the lines that go to the error stream
* `Ending`, `Crash` — how a command ends
* `Outcome` — everything that a command did
* `Prompt.step` — what one line at the prompt does
* `perform` — what a command does
* `run` — what a command line does
-/

namespace Scriptlet.CommandLine

/-- Why a file does not hold a list of statements. -/
inductive TreeFileError
  | notText
  | notJson
  | unreadable (e : DecodeError)
  | notStatements

/-- The wording of each cause. -/
def TreeFileError.message : TreeFileError → String
  | notText => "the file is not UTF-8 text"
  | notJson => "the file is not JSON text"
  | unreadable e => e.message
  | notStatements => "expected a list of statements"

/-- What goes to the error stream. -/
inductive Message
  | usage
  | diagnostic (d : Diagnostic)
  | runtime (e : RuntimeError)
  | notFound (path : String)
  | invalidTree (path : String) (cause : TreeFileError)

/-- The line of a message. -/
def Message.text : Message → String
  | usage =>
    "usage: scriptlet [-h] [-v] " ++
      "[--tokens FILE | --print-ast FILE | --emit-ast FILE | --ast FILE] [program]"
  | diagnostic d => d.text
  | runtime e => e.message
  | notFound path => "Error: file " ++ path ++ " not found"
  | invalidTree path cause => "Error: invalid AST file " ++ path ++ ": " ++ cause.message

/-- Why a command crashed. -/
inductive Crash
  /-- A directory stands where a file is expected. -/
  | directory
  /-- A program file is not UTF-8. -/
  | notText
  /-- A JSON value that is not refused in good time is no tree. -/
  | unreadable (e : DecodeError)
  /-- A tree has no file form. -/
  | unwritable (e : EncodeError)
  /-- Running ended early, other than by a runtime error. -/
  | stopped (a : Abort)

/-- How a command ends. -/
inductive Ending
  | status (n : Nat)
  | crash (c : Crash)

/-- Everything that a command did. -/
structure Outcome where
  output : String := ""
  messages : List Message := []
  /-- The files that were written, with their new text. -/
  writes : List (String × String) := []
  /-- The number of times that the clock was read. -/
  clockReadings : Nat := 0
  ending : Ending := .status 0

namespace Outcome

/-- An outcome that is nothing but its ending and messages. -/
def failed (ending : Ending) (messages : List Message) : Outcome := { ending, messages }

end Outcome

/-- The exit status of a program with diagnostics. -/
def rejectedStatus : Nat := 65

/-- The exit status of a program that ended with a runtime error. -/
def runtimeErrorStatus : Nat := 70

/-- The file that holds the trace. -/
def traceFile : String := "debug.txt"

/-- What surrounds a command: files by name, the lines of its input, and the clock. -/
structure Surroundings where
  entry : String → Entry
  input : List String
  clock : Clock

/-- The settings of a run with the given verbosity. -/
def settingsFor (verbosity : Nat) (clock : Clock) : Settings where
  traceLevel := verbosity
  hook := .absent
  clock := clock

/-- The outcome of a command on the text of a file. -/
def withSource (world : Surroundings) (name : String) (use : String → Outcome) : Outcome :=
  match (world.entry (normalizePath name)).readText with
  | .ok source => use source
  | .error .missing => .failed (.status 1) [.notFound (normalizePath name)]
  | .error .directory => .failed (.crash .directory) []
  | .error .notText => .failed (.crash .notText) []

/-- The outcome of a command on the statements of a program without diagnostics. -/
def withProgram (world : Surroundings) (name : String) (use : List Tree → Outcome) : Outcome :=
  withSource world name fun source =>
    let parsed := parseSource source
    if parsed.diagnostics.isEmpty then use parsed.statements
    else .failed (.status rejectedStatus) (parsed.diagnostics.map .diagnostic)

/-- Whether there is a trace and a directory takes the place of its file. -/
def traceBlocked (world : Surroundings) (verbosity : Nat) : Bool :=
  0 < verbosity && match world.entry traceFile with
    | .directory => true
    | _ => false

/-- The file that a trace of the given text leaves behind. -/
def traceWrites (verbosity : Nat) (trace : String) : List (String × String) :=
  if 0 < verbosity then [(traceFile, trace)] else []

/-- The messages and the ending that follow from how a run went. -/
def endingOf : Except Failure Unit → List Message × Ending
  | .ok _ => ([], .status 0)
  | .error (.stopped (.error e)) => ([.runtime e], .status runtimeErrorStatus)
  | .error (.stopped a) => ([], .crash (.stopped a))
  | .error (.rejected ds) => (ds.map .diagnostic, .status rejectedStatus)
  | .error (.unreadable e) => ([], .crash (.unreadable e))

/-- Runs statements on a machine of their own. -/
def runStatements (world : Surroundings) (verbosity : Nat) (statements : List Tree) : Outcome :=
  if traceBlocked world verbosity then .failed (.crash .directory) []
  else
    let session := Session.start (settingsFor verbosity world.clock)
    let (reply, session) := session.runStatements statements
    let (messages, ending) := endingOf reply.result
    { output := reply.output, messages, writes := traceWrites verbosity reply.trace,
      clockReadings := session.machine.clockReadings, ending }

/-- Lists the tokens of a program; diagnostics do not stop it. -/
def listTokens (source : String) : Outcome :=
  let scanned := scan source
  { output := String.join (scanned.tokens.map fun t => " " ++ t.describe ++ "\n")
    messages := scanned.diagnostics.map .diagnostic }

/-- Prints the statements of a program in prefix form. -/
def printTrees (statements : List Tree) : Outcome :=
  { output := String.join (statements.map fun s =>
      match s.render with
      | .ok text => text.plain ++ "\n"
      | .error _ => "") }

/-- Writes the file form of a program next to its file and prints the name of the new file. -/
def emitTrees (world : Surroundings) (name : String) (statements : List Tree) : Outcome :=
  let target := normalizePath name ++ ".ast.json"
  match world.entry target, Tree.encode (.list statements) with
  | .directory, _ => .failed (.crash .directory) []
  | _, .error e => .failed (.crash (.unwritable e)) []
  | _, .ok fileForm => { output := target ++ "\n", writes := [(target, fileForm.indented)] }

/-- The statements that the text of a file of trees holds. -/
def readStatements (text : String) : Except TreeFileError (List Tree) :=
  match Json.parse? text with
  | none => .error .notJson
  | some fileForm =>
    match Tree.decode fileForm with
    | .error e => .error (.unreadable e)
    | .ok (.list items) => if items.all Tree.isStatement then .ok items else .error .notStatements
    | .ok _ => .error .notStatements

/-- Runs a file of trees. Whatever is wrong with the file is found before anything runs, save an
integer beyond the range of floats, which crashes. -/
def runTrees (world : Surroundings) (verbosity : Nat) (name : String) : Outcome :=
  let path := normalizePath name
  let invalid (cause : TreeFileError) : Outcome := .failed (.status 1) [.invalidTree path cause]
  match (world.entry path).readText with
  | .error .missing => .failed (.status 1) [.notFound path]
  | .error .directory => .failed (.crash .directory) []
  | .error .notText => invalid .notText
  | .ok text =>
    match readStatements text with
    | .error (.unreadable .literalTooLarge) => .failed (.crash (.unreadable .literalTooLarge)) []
    | .error cause => invalid cause
    | .ok statements => runStatements world verbosity statements

/-! ## The prompt -/

/-- What one line at the prompt leads to. -/
structure PromptReply where
  session : Session
  output : String
  messages : List Message
  trace : String
  /-- How the prompt ends, if it does. -/
  ending : Option Ending

/-- The words that end the prompt, whatever their case. -/
def quitWords : List String := ["exit", "quit"]

/-- Whether a line asks to end the prompt. -/
def isQuit (line : String) : Bool := quitWords.contains (Text.trim line).toLower

namespace Prompt

/-- What is shown before each line. -/
def sign : String := "> "

/-- What a line at the prompt does: nothing if it is blank, the end if it is one of the quit words,
and else it runs as a program of its own on the machine of the session. -/
def step (session : Session) (line : String) : PromptReply :=
  if (Text.trim line).isEmpty then
    { session, output := "", messages := [], trace := "", ending := none }
  else if isQuit line then
    { session, output := "", messages := [], trace := "", ending := some (.status 0) }
  else
    let (reply, session) := session.runSource line
    let (messages, ending) := endingOf reply.result
    let ending := match ending with
      | .crash c => some (.crash c)
      | .status _ => none
    { session, output := reply.output, messages, trace := reply.trace, ending }

/-- What the lines at the prompt do, after what was printed, said and traced before. The end of the
input ends the prompt with a newline. -/
def steps (verbosity : Nat) (session : Session) (output : String) (messages : List Message)
    (trace : String) : List String → Outcome
  | [] =>
    { output := output ++ sign ++ "\n", messages, writes := traceWrites verbosity trace,
      clockReadings := session.machine.clockReadings }
  | line :: rest =>
    let reply := step session line
    let output := output ++ sign ++ reply.output
    let messages := messages ++ reply.messages
    let trace := trace ++ reply.trace
    match reply.ending with
    | some ending =>
      { output, messages, writes := traceWrites verbosity trace,
        clockReadings := reply.session.machine.clockReadings, ending }
    | none => steps verbosity reply.session output messages trace rest

end Prompt

/-- Prompts for lines up to the end of the input. -/
def runPrompt (world : Surroundings) (verbosity : Nat) : Outcome :=
  if traceBlocked world verbosity then .failed (.crash .directory) []
  else
    Prompt.steps verbosity (Session.start (settingsFor verbosity world.clock)) "" [] "" world.input

/-! ## Command lines -/

/-- What a command does. -/
def perform (world : Surroundings) (verbosity : Nat) : Command → Outcome
  | .inMode .listTokens file => withSource world file listTokens
  | .inMode .printTree file => withProgram world file printTrees
  | .inMode .emitTree file => withProgram world file (emitTrees world file)
  | .inMode .runTree file => runTrees world verbosity file
  | .runProgram file => withProgram world file (runStatements world verbosity)
  | .prompt => runPrompt world verbosity

/-- The text that explains the command line. -/
def helpText : String :=
  Message.usage.text ++ "\n\n" ++
    "  -v            increase debug verbosity (can be repeated)\n" ++
    "  --tokens      print the tokens of the given file\n" ++
    "  --print-ast   print the AST of the given file in prefix form\n" ++
    "  --emit-ast    emit AST JSON for the given file\n" ++
    "  --ast         execute AST from a JSON file\n"

/-- The exit status of an error of usage. -/
def usageStatus : Nat := 2

/-- What a command line does. -/
def run (world : Surroundings) (args : List String) : Outcome :=
  match Options.parse args with
  | .error .help => { output := helpText }
  | .error .usage => .failed (.status usageStatus) [.usage]
  | .ok options => perform world options.verbosity options.command

end Scriptlet.CommandLine
