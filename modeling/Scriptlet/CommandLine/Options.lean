import Scriptlet.Text.Numeral

/-!
# Options of the command line

Arguments are sorted into words first: options, plain arguments, and the divider `--`, behind
which everything is plain. A long option may be shortened as long as it stays unambiguous and may
carry its value behind an equals sign; short options may be written in one cluster, in which an
equals sign may follow the first of them. The words are then taken in order. The first plain
argument that no option takes as its value is the program; anything left over is an error of usage.

## Main definitions

* `Mode`, `Options` — what the command line asks for
* `Word.ofArgument` — the word that an argument is
* `Options.parse` — the options of an argument list, or the reason to stop
-/

namespace Scriptlet.CommandLine

/-- The modes that work on a file given with them; at most one can be asked for. -/
inductive Mode
  | listTokens
  | printTree
  | emitTree
  | runTree
  deriving DecidableEq

/-- What an option means. -/
inductive Flag
  | help
  | verbose
  | mode (m : Mode)
  deriving DecidableEq

/-- Why parsing the arguments stopped before anything ran. -/
inductive Stop
  | help
  | usage
  deriving DecidableEq

/-- An argument as it reads on its own. -/
inductive Word
  /-- The first `--`. -/
  | divider
  | plain (s : String)
  /-- A cluster of short options. -/
  | short (flags : List Flag)
  /-- A long option with the value that is attached to it. -/
  | long (flag : Flag) (value : Option String)
  /-- A cluster in which something is no short option, or nothing follows the equals sign. -/
  | badCluster
  /-- Something that looks like an option and is none. -/
  | unknown
  deriving DecidableEq

/-- The long options. -/
def longOptions : List (String × Flag) :=
  [("--help", .help), ("--tokens", .mode .listTokens), ("--print-ast", .mode .printTree),
   ("--emit-ast", .mode .emitTree), ("--ast", .mode .runTree)]

/-- The short options. -/
def shortOptions : List (Char × Flag) := [('h', .help), ('v', .verbose)]

/-- Whether the first text begins the second. -/
def begins (start whole : List Char) : Bool := start.isPrefixOf whole

/-- The value that stands behind an equals sign; a divider counts for nothing there. -/
def attachedValue (cs : List Char) : String :=
  if cs == ['-', '-'] then "" else String.ofList cs

/-- Splits a text at its first equals sign; without one nothing is attached. -/
def splitValue (cs : List Char) : List Char × Option String :=
  match cs.dropWhile (· != '=') with
  | [] => (cs, none)
  | _ :: value => (cs.takeWhile (· != '='), some (attachedValue value))

/-- Whether a text is a minus sign and a decimal number without exponent. -/
def isNegativeNumber : List Char → Bool
  | '-' :: cs =>
    let whole := cs.takeWhile Text.isDecimalDigit
    match cs.dropWhile Text.isDecimalDigit with
    | [] => !whole.isEmpty
    | '.' :: fraction => !fraction.isEmpty && fraction.all Text.isDecimalDigit
    | _ => false
  | _ => false

/-- A cluster of short options, where `flags` are those before, the last one first. -/
def cluster (flags : List Flag) : List Char → Word
  | [] => .short flags.reverse
  | c :: rest =>
    match shortOptions.lookup c with
    | some flag => cluster (flag :: flags) rest
    | none => .badCluster

/-- The cluster that starts with a short option; behind an equals sign at least one more follows. -/
def clusterFrom (flag : Flag) : List Char → Word
  | ['='] => .badCluster
  | '=' :: rest => cluster [flag] rest
  | rest => cluster [flag] rest

/-- The word of an argument that looks like an option and is none. -/
def leftover (s : String) : Word :=
  if isNegativeNumber s.toList || s.toList.contains ' ' then .plain s else .unknown

/-- The word of an argument that starts with two dashes; a shortened option has to be
unambiguous. -/
def longWord (s : String) : Except Stop Word :=
  let (name, value) := splitValue s.toList
  match longOptions.find? fun (option, _) => option.toList == name with
  | some (_, flag) => .ok (.long flag value)
  | none =>
    match longOptions.filter fun (option, _) => begins name option.toList with
    | [] => .ok (leftover s)
    | [(_, flag)] => .ok (.long flag value)
    | _ => .error .usage

/-- The word of an argument that starts with one dash and the character `c`. -/
def shortWord (s : String) (c : Char) (rest : List Char) : Word :=
  match shortOptions.lookup c with
  | some flag => clusterFrom flag rest
  | none => leftover s

/-- The word that an argument is. -/
def Word.ofArgument (s : String) : Except Stop Word :=
  match s.toList with
  | '-' :: '-' :: _ => longWord s
  | '-' :: c :: rest => .ok (shortWord s c rest)
  | _ => .ok (.plain s)

/-- The words of an argument list; behind the divider everything is plain. -/
def words : List String → Except Stop (List Word)
  | [] => .ok []
  | s :: rest =>
    if s == "--" then .ok (.divider :: rest.map .plain)
    else do
      let word ← Word.ofArgument s
      let more ← words rest
      return word :: more

/-- What the command line asks for. -/
structure Options where
  verbosity : Nat := 0
  /-- The mode that was asked for, with its file; an empty name of a file counts as none. -/
  mode : Option (Mode × String) := none
  /-- The program, once its place was taken; the place can be taken without one. -/
  program : Option (Option String) := none
  /-- Whether arguments were left over. -/
  leftOver : Bool := false

namespace Options

/-- Asks for a mode; two different ones cannot be asked for. -/
def setMode (o : Options) (m : Mode) (file : String) : Except Stop Options :=
  match o.mode with
  | some (m', _) => if m = m' then .ok { o with mode := some (m, file) } else .error .usage
  | none => .ok { o with mode := some (m, file) }

/-- Takes the short options of a cluster. -/
def takeShort (o : Options) : List Flag → Except Stop Options
  | [] => .ok o
  | .verbose :: rest => takeShort { o with verbosity := o.verbosity + 1 } rest
  | .help :: _ => .error .help
  | .mode _ :: _ => .error .usage

/-- Takes a plain argument as the program, if its place is free. -/
def takePlain (o : Options) (s : Option String) : Options :=
  match o.program with
  | none => { o with program := some s }
  | some _ => { o with leftOver := true }

/-- Takes the words in order. -/
def takeWords (o : Options) : List Word → Except Stop Options
  | [] => if o.leftOver then .error .usage else .ok o
  | .short flags :: rest => do
    let o ← o.takeShort flags
    takeWords o rest
  | .badCluster :: _ => .error .usage
  | .unknown :: rest => takeWords { o with leftOver := true } rest
  | .long .help none :: _ => .error .help
  | .long (.mode m) (some value) :: rest => do
    let o ← o.setMode m value
    takeWords o rest
  | .long (.mode m) none :: .plain value :: rest => do
    let o ← o.setMode m value
    takeWords o rest
  | .long _ _ :: _ => .error .usage
  | .plain s :: .divider :: rest =>
    if o.program.isNone then takeWords (o.takePlain (some s)) rest
    else takeWords { o with leftOver := true } rest
  | .plain s :: rest => takeWords (o.takePlain (some s)) rest
  | .divider :: .plain s :: rest => takeWords (o.takePlain (some s)) rest
  | .divider :: rest => takeWords (o.takePlain none) rest

/-- The options of an argument list, or the reason to stop. -/
def parse (args : List String) : Except Stop Options := do
  let ws ← words args
  takeWords {} ws

end Options

/-- What is to be done: work on a file in a mode, run a program, or prompt for lines. -/
inductive Command
  | inMode (m : Mode) (file : String)
  | runProgram (file : String)
  | prompt
  deriving DecidableEq

/-- The command that options ask for; a mode with a file comes before the program. -/
def Options.command (o : Options) : Command :=
  match o.mode.filter fun (_, file) => !file.isEmpty with
  | some (m, file) => .inMode m file
  | none =>
    match o.program.join.filter fun file => !file.isEmpty with
    | some file => .runProgram file
    | none => .prompt

end Scriptlet.CommandLine
