import Mathlib.Tactic.DeprecateTo
import Scriptlet.CommandLine.Command

/-!
# The program

Reads the files that a command line names, does what the command line asks for, and shows the
outcome. Lines at the prompt are answered one by one.

A run is a function of the readings of the clock that it takes, and the clock is read when a run
asks for a reading: the run is then repeated with what was read.
-/

namespace Scriptlet.CommandLine

/-- What the name of a file stands for on this system. -/
def readEntry (name : String) : IO Entry := do
  try
    return .file (← IO.FS.readBinFile name)
  catch e =>
    match e with
    | .noFileOrDirectory .. => return .missing
    | _ => return .directory

/-- The names that a command looks at. -/
def Command.names : Command → List String
  | .inMode _ file => [normalizePath file, normalizePath file ++ ".ast.json", traceFile]
  | .runProgram file => [normalizePath file, traceFile]
  | .prompt => [traceFile]

/-- What the given names stand for; every other name is missing. -/
def readEntries (names : List String) : IO (String → Entry) := do
  let entries ← names.mapM fun name => do
    let entry ← readEntry name
    return (name, entry)
  return fun name => (entries.lookup name).getD .missing

/-- The time in seconds, counted from the start of 1970. -/
def now : IO Float := do
  let time ← Std.Time.Timestamp.now
  return Float.ofInt time.toNanosecondsSinceUnixEpoch.val / 1000000000

/-- A clock whose first readings were taken. The readings that are still to be taken are made up and
run ahead ever faster, so that a program that waits for a time goes on. -/
def clockOf (taken : Array Float) : Clock := fun n =>
  match taken[n]? with
  | some time => time
  | none => taken.back?.getD 0 + Float.exp2 (Float.ofNat (n - taken.size))

/-- Repeats a run, with one more reading of the clock each time, until it asks for no reading that
was not taken. -/
partial def withClock {α : Type} (run : Clock → α) (readings : α → Nat) (taken : Array Float) :
    IO (α × Array Float) := do
  let result := run (clockOf taken)
  if readings result ≤ taken.size then return (result, taken)
  withClock run readings (taken.push (← now))

/-- Shows messages on the error stream. -/
def showMessages (messages : List Message) : IO Unit :=
  messages.forM fun m => IO.eprintln m.text

/-- The exit status of an ending; a crash is explained on the error stream. -/
def showEnding : Ending → IO UInt32
  | .status n => return n.toUInt32
  | .crash c => do
    let reason := match c with
      | .directory => "a directory stands in place of a file"
      | .notText => "the file is not UTF-8 text"
      | .unreadable e => e.message
      | .unwritable _ => "a tree has no file form"
      | .stopped _ => "the program cannot be run"
    IO.eprintln ("Error: " ++ reason)
    return 1

/-- Shows an outcome and yields the exit status. -/
def showOutcome (outcome : Outcome) : IO UInt32 := do
  IO.print outcome.output
  showMessages outcome.messages
  outcome.writes.forM fun (name, text) => IO.FS.writeFile name text
  showEnding outcome.ending

/-- Writes the trace file, if there is one. -/
def saveTrace (verbosity : Nat) (trace : String) : IO Unit :=
  (traceWrites verbosity trace).forM fun (name, text) => IO.FS.writeFile name text

/-- Answers the lines at the prompt one by one; lines that were read and not answered yet are
pending. -/
partial def promptLoop (verbosity : Nat) (session : Session) (taken : Array Float)
    (trace : String) (pending : List String) : IO UInt32 := do
  saveTrace verbosity trace
  IO.print Prompt.sign
  (← IO.getStdout).flush
  let lines ← if pending.isEmpty then do
      let text ← (← IO.getStdin).getLine
      pure (linesOf (universalNewlines text))
    else pure pending
  match lines with
  | [] =>
    IO.println ""
    return 0
  | line :: rest =>
    let step (clock : Clock) : PromptReply :=
      Prompt.step { session with settings := { session.settings with clock } } line
    let (answer, taken) ← withClock step (·.session.machine.clockReadings) taken
    IO.print answer.output
    showMessages answer.messages
    let trace := trace ++ answer.trace
    match answer.ending with
    | some ending =>
      saveTrace verbosity trace
      showEnding ending
    | none => promptLoop verbosity answer.session taken trace rest

/-- Does what a command line asks for and yields the exit status. -/
def runMain (args : List String) : IO UInt32 := do
  match Options.parse args with
  | .ok options =>
    match options.command with
    | .prompt =>
      let session := Session.start (settingsFor options.verbosity (clockOf #[]))
      promptLoop options.verbosity session #[] "" []
    | command =>
      let entry ← readEntries command.names
      let outcome (clock : Clock) : Outcome :=
        perform { entry, input := [], clock } options.verbosity command
      let (outcome, _) ← withClock outcome (·.clockReadings) #[]
      showOutcome outcome
  | .error _ =>
    showOutcome (run { entry := fun _ => .missing, input := [], clock := clockOf #[] } args)

end Scriptlet.CommandLine

/-- The program. -/
def main (args : List String) : IO UInt32 := Scriptlet.CommandLine.runMain args
