import Scriptlet.CommandLine.Command
import Scriptlet.Proofs.CommandLine.File
import Scriptlet.Proofs.CommandLine.Path
import Scriptlet.Proofs.Eval.Progress
import Scriptlet.Proofs.Grammar.Readable

/-!
# Running what was emitted

A program can be emitted as a file of trees, and the file can be run in its place. What is run then
has gone through the file form of its trees, the text of that, and the bytes of a file, and back
again; and nothing of it is lost on the way. The new file is none that a run looks at, so running it
and running the program do the same.

## Main definitions

* `CommandLine.request?` — the verbosity and the command that a command line asks for
* `CommandLine.Surroundings.after` — what surrounds a command after another one wrote its files

## Main results

* `CommandLine.readStatements_indented` — statements come back from the text of their file
* `CommandLine.run_emitted` — running an emitted file is running the program
-/

namespace Scriptlet

theorem Tree.IsStmt.isStatement {ops : Operators} {t : Tree} (h : t.IsStmt ops) :
    t.isStatement = true := by
  cases h <;> rfl

namespace CommandLine

/-! ### Requests and files -/

/-- The verbosity and the command that a command line asks for. -/
def request? (args : List String) : Option (Nat × Command) :=
  match Options.parse args with
  | .ok options => some (options.verbosity, options.command)
  | .error _ => none

theorem run_of_request? {args : List String} {verbosity : Nat} {command : Command}
    (h : request? args = some (verbosity, command)) (world : Surroundings) :
    run world args = perform world verbosity command := by
  unfold request? at h
  unfold run
  split at h
  · next options hparse =>
    cases h
    rw [hparse]
  · cases h

namespace Surroundings

/-- The surroundings with a text in a file. -/
def write (world : Surroundings) (name text : String) : Surroundings :=
  { world with entry := fun other => if other = name then .ofText text else world.entry other }

/-- The surroundings with the files that a command wrote. -/
def after (world : Surroundings) (outcome : Outcome) : Surroundings :=
  outcome.writes.foldl (fun world (name, text) => world.write name text) world

end Surroundings

/-- The file of trees of a program. -/
def treeFile (name : String) : String := normalizePath name ++ ".ast.json"

/-- A file of trees does not take the place of the trace. -/
theorem traceFile_ne_treeFile (name : String) : traceFile ≠ treeFile name := by
  intro heq
  have hlast := congrArg (fun s => s.toList.getLast?) heq
  simp [traceFile, treeFile] at hlast

/-- The name of a file of trees is shown as it is. -/
theorem normalizePath_treeFile (name : String) : normalizePath (treeFile name) = treeFile name :=
  (isShown_append name ⟨by decide, by decide, by decide⟩).normalizePath_eq

/-! ### Statements in files -/

/-- Readable statements come back from the text of their file. -/
theorem readStatements_indented {statements : List Tree} (h : (Tree.list statements).Readable)
    (hstatements : ∀ s ∈ statements, s.isStatement = true) :
    ∃ fileForm, Tree.encode (.list statements) = .ok fileForm ∧
      readStatements fileForm.indented = .ok statements := by
  obtain ⟨fileForm, hencode, hparse, hdecode⟩ := h.exists_fileForm
  refine ⟨fileForm, hencode, ?_⟩
  have hall : statements.all Tree.isStatement = true := List.all_eq_true.2 hstatements
  simp [readStatements, hparse, hdecode, hall]

/-- The statements of a program text come back from the text of their file. -/
theorem readStatements_parseSource {source : String}
    (hclean : (parseSource source).diagnostics = [])
    (hnumbers : ∀ x ∈ numbers source, Number.read? (Number.inspect x) = some x)
    (hlines : lastLine source.toList < 10 ^ Json.longestInteger) :
    ∃ fileForm, Tree.encode (.list (parseSource source).statements) = .ok fileForm ∧
      readStatements fileForm.indented = .ok (parseSource source).statements :=
  readStatements_indented ((program_of_parseSource hclean).2.2.readable hnumbers hlines)
    fun s hs => (Eval.isStmt_of_parseSource hclean s hs).isStatement

/-! ### Commands on a program -/

section Program

variable {world : Surroundings} {name source : String}
  (hsource : (world.entry (normalizePath name)).readText = .ok source)
  (hclean : (parseSource source).diagnostics = [])

include hsource hclean in
/-- A command on a program without diagnostics goes to its statements. -/
theorem withProgram_eq (use : List Tree → Outcome) :
    withProgram world name use = use (parseSource source).statements := by
  simp [withProgram, withSource, hsource, hclean]

/-- Statements with a file form are emitted where no directory stands in the way. -/
theorem emitTrees_eq {statements : List Tree} {fileForm : Json}
    (hfree : world.entry (treeFile name) ≠ .directory)
    (hencode : Tree.encode (.list statements) = .ok fileForm) :
    emitTrees world name statements =
      { output := treeFile name ++ "\n", writes := [(treeFile name, fileForm.indented)] } := by
  unfold treeFile at hfree ⊢
  cases hentry : world.entry (normalizePath name ++ ".ast.json") with
  | directory => exact absurd hentry hfree
  | missing | file => simp only [emitTrees, hentry, hencode]

/-- A run looks at no file but that of the trace. -/
theorem runStatements_write (target text : String) (htrace : traceFile ≠ target) (verbosity : Nat)
    (statements : List Tree) :
    runStatements (world.write target text) verbosity statements =
      runStatements world verbosity statements := by
  have hentry : (world.write target text).entry traceFile = world.entry traceFile := if_neg htrace
  have hblocked :
      traceBlocked (world.write target text) verbosity = traceBlocked world verbosity := by
    simp only [traceBlocked, hentry]
  have hclock : (world.write target text).clock = world.clock := rfl
  simp only [runStatements, hblocked, hclock]

/-- A file of trees that was written runs as its statements do. -/
theorem runTrees_write {target text other : String} {statements : List Tree}
    (hread : (Entry.ofText text).readText = .ok text)
    (hstatements : readStatements text = .ok statements) (hother : normalizePath other = target)
    (verbosity : Nat) :
    runTrees (world.write target text) verbosity other =
      runStatements (world.write target text) verbosity statements := by
  have hentry : (world.write target text).entry target = .ofText text := if_pos rfl
  simp only [runTrees, hother, hentry, hread, hstatements]

end Program

/-- Running an emitted file is running the program. For every program file whose text has no
diagnostics, emitting it succeeds and tells a name of the new file, and running the new file, by any
of its names, prints the same, reports the same, traces the same and ends in the same way as running
the program. The numbers of the program have to be the ones that their shortest digits stand for,
its lines no more than an integer in a file can count, and no directory may stand in the place of
the new file. -/
theorem run_emitted {world : Surroundings} {name other source : String}
    {emitArgs treeArgs args : List String} {emitVerbosity verbosity : Nat}
    (hsource : (world.entry (normalizePath name)).readText = .ok source)
    (hclean : (parseSource source).diagnostics = [])
    (hnumbers : ∀ x ∈ numbers source, Number.read? (Number.inspect x) = some x)
    (hlines : lastLine source.toList < 10 ^ Json.longestInteger)
    (hfree : world.entry (treeFile name) ≠ .directory)
    (hemit : request? emitArgs = some (emitVerbosity, .inMode .emitTree name))
    (hother : normalizePath other = treeFile name)
    (htree : request? treeArgs = some (verbosity, .inMode .runTree other))
    (hdirect : request? args = some (verbosity, .runProgram name)) :
    (run world emitArgs).ending = .status 0 ∧ (run world emitArgs).messages = [] ∧
      (run world emitArgs).output = treeFile name ++ "\n" ∧
      normalizePath (treeFile name) = treeFile name ∧
      run (world.after (run world emitArgs)) treeArgs = run world args := by
  obtain ⟨fileForm, hencode, hread⟩ := readStatements_parseSource hclean hnumbers hlines
  have hemitted : run world emitArgs =
      { output := treeFile name ++ "\n", writes := [(treeFile name, fileForm.indented)] } := by
    rw [run_of_request? hemit, perform, withProgram_eq hsource hclean, emitTrees_eq hfree hencode]
  have hafter : world.after (run world emitArgs) =
      world.write (treeFile name) fileForm.indented := by
    rw [hemitted]
    rfl
  have hrun : run (world.after (run world emitArgs)) treeArgs = run world args := by
    have htext := readText_ofText_indented fileForm
    rw [hafter, run_of_request? htree, run_of_request? hdirect, perform, perform,
      withProgram_eq hsource hclean, runTrees_write htext hread hother,
      runStatements_write _ _ (traceFile_ne_treeFile name)]
  refine ⟨?_, ?_, ?_, normalizePath_treeFile name, hrun⟩
  all_goals rw [hemitted]

/-- A program with a text that is escaped in a file, a number that is written with other digits
there, and an error at its end. -/
def oddProgram : String :=
  "fun f(x) { return 2 * x; }\nprint \"caf\u00e9 \\\n\t\";\nprint f(0.10);\nprint -nil;\n"

/-- The program stands in a file, and nothing else does. -/
def oddWorld : Surroundings where
  entry name := if name = "odd.script" then .ofText oddProgram else .missing
  input := []
  clock := fun _ => 0

/-- It is emitted by one name and run by another, and its output is the same. -/
theorem run_emitted_oddProgram :
    (run oddWorld ["-vv", "./odd.script"]).output = "caf\u00e9 \\\n\t\n0.2\n" ∧
      run (oddWorld.after (run oddWorld ["--emit-ast", "./odd.script"]))
        ["--ast=odd.script.ast.json", "-vv"] = run oddWorld ["-vv", "./odd.script"] := by
  have hname : normalizePath "./odd.script" = "odd.script" := by decide +kernel
  have hsource : (oddWorld.entry (normalizePath "./odd.script")).readText = .ok oddProgram := by
    have hnone : NoReturn oddProgram := by decide +kernel
    rw [hname, ← universalNewlines_eq hnone]
    exact readText_ofText _
  have hclean : (parseSource oddProgram).diagnostics = [] := List.isEmpty_iff.1 (by decide +kernel)
  have hfree : oddWorld.entry (treeFile "./odd.script") ≠ .directory := by
    have htree : treeFile "./odd.script" = "odd.script.ast.json" := by decide +kernel
    rw [htree]
    exact nofun
  have hemit : request? ["--emit-ast", "./odd.script"] =
      some (0, .inMode .emitTree "./odd.script") := by decide +kernel
  have htree : request? ["--ast=odd.script.ast.json", "-vv"] =
      some (2, .inMode .runTree "odd.script.ast.json") := by decide +kernel
  have hdirect : request? ["-vv", "./odd.script"] = some (2, .runProgram "./odd.script") := by
    decide +kernel
  obtain ⟨-, -, -, -, hrun⟩ := run_emitted hsource hclean (by decide +kernel) (by decide +kernel)
    hfree hemit (by decide +kernel) htree hdirect
  exact ⟨by decide +kernel, hrun⟩

end CommandLine

end Scriptlet
