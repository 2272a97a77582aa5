import Mathlib.Algebra.Group.Int.Defs
import Scriptlet.Proofs.CommandLine.Emitted

/-!
# Files of trees that anyone wrote

A file of trees need not come from a program. If it holds no list of statements, the command that
runs it says why and ends with status 1, before anything ran. If it holds one, and every field of
every node is what the field is for, running it ends as a program does: normally, or with a runtime
error and its status.

The file is read with two gaps. An integer in a literal that no float can hold is found while
reading, and the command crashes on it instead of refusing the file. And the reader looks at the
names of fields, not at what stands in them: a missing expression is found by the evaluator, which
crashes.

## Main definitions

* `CommandLine.EndsAsProgram` — how the run of a program may end

## Main results

* `CommandLine.endsAsProgram_runStatements` — well-formed statements end as a program does
* `CommandLine.run_treeFile` — a file of trees is refused, or ends as a program does
* `CommandLine.run_treeFile_crashes` — the two gaps
-/

namespace Scriptlet.CommandLine

/-! ### How a run ends -/

/-- How the run of a program may end: normally, with a runtime error that is told, or not at all for
want of stack or fuel. -/
inductive EndsAsProgram : List Message × Ending → Prop
  | normally : EndsAsProgram ([], .status 0)
  | error (e : RuntimeError) : EndsAsProgram ([.runtime e], .status runtimeErrorStatus)
  | tooDeep : EndsAsProgram ([], .crash (.stopped .tooDeep))
  | unfinished : EndsAsProgram ([], .crash (.stopped .unfinished))

/-- An abort that well-formed trees may lead to ends the run of a program. -/
theorem endsAsProgram_endingOf_stopped {settings : Settings} {abort : Abort}
    (h : abort.Allowed .any settings) : EndsAsProgram (endingOf (.error (.stopped abort))) := by
  cases abort with
  | error e => exact .error e
  | tooDeep => exact .tooDeep
  | unfinished => exact .unfinished
  | fault | arguments => exact h.elim

/-- Well-formed statements end as a program does. -/
theorem endsAsProgram_runStatements {world : Surroundings} {verbosity : Nat}
    {statements : List Tree} (htrace : traceBlocked world verbosity = false)
    (hstatements : ∀ s ∈ statements, s.IsStmt .any) :
    EndsAsProgram ((runStatements world verbosity statements).messages,
      (runStatements world verbosity statements).ending) := by
  set session := Session.start (settingsFor verbosity world.clock)
  have hending : EndsAsProgram (endingOf (session.runStatements statements).1.result) := by
    have hsafe := (Eval.safe_interpret hstatements : Eval.Safe .any session.settings _ _)
      { session.machine with output := [], trace := [] } (Machine.typed_freshHeap .any)
    unfold Session.runStatements Session.perform
    split at hsafe <;> rename_i hrun
    · simp only [hrun]
      exact .normally
    · simp only [hrun]
      exact endsAsProgram_endingOf_stopped hsafe.2
  simpa [runStatements, htrace] using hending

/-! ### Running a file -/

/-- A file of trees is refused, or ends as a program does. If it does not hold a list of statements,
the command tells why and ends with status 1, and nothing ran. If it does, and the statements are
well-formed, they end normally, with status 0, or with a runtime error, with status 70, unless the
stack or the fuel for loops is exhausted. No integer in a literal may be beyond the range of
floats. -/
theorem run_treeFile {world : Surroundings} {args : List String} {verbosity : Nat}
    {name text : String} (hargs : request? args = some (verbosity, .inMode .runTree name))
    (htext : (world.entry (normalizePath name)).readText = .ok text)
    (htrace : traceBlocked world verbosity = false)
    (hliterals : readStatements text ≠ .error (.unreadable .literalTooLarge))
    (hstatements :
      ∀ statements, readStatements text = .ok statements → ∀ s ∈ statements, s.IsStmt .any) :
    (∃ cause, readStatements text = .error cause ∧
      run world args = .failed (.status 1) [.invalidTree (normalizePath name) cause]) ∨
    ∃ statements, readStatements text = .ok statements ∧
      run world args = runStatements world verbosity statements ∧
      EndsAsProgram ((run world args).messages, (run world args).ending) := by
  have hrun : run world args = runTrees world verbosity name := run_of_request? hargs world
  cases hread : readStatements text with
  | error cause =>
    refine .inl ⟨cause, rfl, ?_⟩
    rw [hread] at hliterals
    simp only [hrun, runTrees, htext, hread]
    split
    · next heq => exact absurd heq hliterals
    · next heq => cases heq; rfl
    · next heq => cases heq
  | ok statements =>
    have hsame : run world args = runStatements world verbosity statements := by
      simp only [hrun, runTrees, htext, hread]
    refine .inr ⟨statements, rfl, hsame, ?_⟩
    rw [hsame]
    exact endsAsProgram_runStatements htrace (hstatements statements hread)

/-! ### Files with one statement -/

/-- The file form of a list with one statement, which prints. -/
def printing (expression : Json) : Json :=
  .arr [.obj [("type", .text "Print"), ("expression", expression)]]

/-- The file form of a literal. -/
def literalForm (value : Json) : Json := .obj [("type", .text "Literal"), ("value", value)]

/-- A file of trees, and nothing else. -/
def treeWorld (fileForm : Json) : Surroundings where
  entry name := if name = "a.json" then .ofText fileForm.indented else .missing
  input := []
  clock := fun _ => 0

theorem request?_tree : request? ["--ast", "a.json"] = some (0, .inMode .runTree "a.json") := by
  decide +kernel

theorem readText_treeWorld (fileForm : Json) :
    ((treeWorld fileForm).entry (normalizePath "a.json")).readText = .ok fileForm.indented := by
  have hname : normalizePath "a.json" = "a.json" := by decide +kernel
  rw [hname]
  exact readText_ofText_indented fileForm

/-- What is in the file is read from it. -/
theorem readStatements_of_readable {fileForm : Json} (h : fileForm.Readable) :
    readStatements fileForm.indented =
      match Tree.decode fileForm with
      | .error e => .error (.unreadable e)
      | .ok (.list items) => if items.all Tree.isStatement then .ok items else .error .notStatements
      | .ok _ => .error .notStatements := by
  have hparse := Json.parse?_indented h
  unfold readStatements
  generalize Json.parse? fileForm.indented = parsed at hparse
  subst hparse
  rfl

theorem readable_printing {expression : Json} (h : expression.Readable) :
    (printing expression).Readable := by
  refine .arr (List.forall_mem_singleton.2 (.obj (by simp) ?_))
  simp only [List.forall_mem_cons]
  exact ⟨.atom trivial, h, nofun⟩

theorem readable_literalForm {value : Json} (h : value.Readable) :
    (literalForm value).Readable := by
  refine .obj (by simp) ?_
  simp only [List.forall_mem_cons]
  exact ⟨.atom trivial, h, nofun⟩

/-- A minus sign on the third line. -/
def minus : Token := .make .minus "-" .null 3

/-- The file form of the negation of nil. -/
def negatedNil : Json :=
  .obj [("type", .text "Unary"), ("operator", minus.encode), ("right", literalForm .null)]

theorem readable_negatedNil : negatedNil.Readable := by
  have hline : (Nat.toDigits 10 3).length ≤ Json.longestInteger := by decide
  have hminus : minus.Readable := ⟨.atom trivial, .atom trivial, .atom hline⟩
  refine .obj (by simp) ?_
  simp only [List.forall_mem_cons]
  exact ⟨.atom trivial, hminus.encode, readable_literalForm (.atom trivial), nofun⟩

/-- A file that prints the negation of nil runs, and ends with the error that a program would end
with. -/
theorem run_treeFile_negatedNil :
    let outcome := run (treeWorld (printing negatedNil)) ["--ast", "a.json"]
    EndsAsProgram (outcome.messages, outcome.ending) ∧
      outcome.messages.map Message.text =
        ["[line 3] Runtime error: Operand must be a number."] := by
  have hdecode : Tree.decode (printing negatedNil) =
      .ok (.list [.printStmt (.unary minus (.literal .null))]) := rfl
  have hread : readStatements (printing negatedNil).indented =
      .ok [.printStmt (.unary minus (.literal .null))] := by
    rw [readStatements_of_readable (readable_printing readable_negatedNil), hdecode]
    rfl
  obtain ⟨cause, hrefused, -⟩ | ⟨statements, hstatements, hrun, hends⟩ :=
    run_treeFile request?_tree (readText_treeWorld (printing negatedNil)) rfl
      (by simp [hread]) (by
        rintro statements hstatements
        cases hread.symm.trans hstatements
        exact List.forall_mem_singleton.2 (.printStmt (.unary nofun (.literal nofun))))
  · cases hread.symm.trans hrefused
  · cases hread.symm.trans hstatements
    refine ⟨hends, ?_⟩
    rw [hrun]
    decide +kernel

/-! ### The two gaps -/

/-- Whether a command crashed on what stood in its file. -/
def Ending.isTreeCrash : Ending → Bool
  | .crash (.unreadable _) => true
  | .crash (.stopped (.fault _)) => true
  | _ => false

/-- Running a file that prints an expression ends neither with a status nor as a program does. -/
def CrashesOn (expression : Json) : Prop :=
  let outcome := run (treeWorld (printing expression)) ["--ast", "a.json"]
  (∀ n, outcome.ending ≠ .status n) ∧ ¬ EndsAsProgram (outcome.messages, outcome.ending)

theorem crashesOn_of_isTreeCrash {expression : Json}
    (h : (run (treeWorld (printing expression)) ["--ast", "a.json"]).ending.isTreeCrash = true) :
    CrashesOn expression := by
  unfold CrashesOn
  generalize run (treeWorld (printing expression)) ["--ast", "a.json"] = outcome at h
  constructor
  · intro n hstatus
    rw [hstatus] at h
    cases h
  · intro hends
    generalize outcome.messages = messages at hends
    generalize outcome.ending = ending at h hends
    cases hends <;> cases h

theorem run_treeWorld {fileForm : Json} (h : fileForm.Readable) :
    run (treeWorld fileForm) ["--ast", "a.json"] =
      match Tree.decode fileForm with
      | .error .literalTooLarge => .failed (.crash (.unreadable .literalTooLarge)) []
      | .error e => .failed (.status 1) [.invalidTree (normalizePath "a.json") (.unreadable e)]
      | .ok (.list items) =>
        if items.all Tree.isStatement then runStatements (treeWorld fileForm) 0 items
        else .failed (.status 1) [.invalidTree (normalizePath "a.json") .notStatements]
      | .ok _ => .failed (.status 1) [.invalidTree (normalizePath "a.json") .notStatements] := by
  simp only [run_of_request? request?_tree, perform, runTrees, readText_treeWorld,
    readStatements_of_readable h]
  cases Tree.decode fileForm with
  | error e => cases e <;> rfl
  | ok t =>
    cases t with
    | list items => cases hall : items.all Tree.isStatement <;> simp [hall]
    | _ => rfl

/-- Two files on which the command that runs them crashes: one prints a literal with an integer that
no float can hold, and one prints an expression that is missing. -/
theorem run_treeFile_crashes :
    CrashesOn (literalForm (.int (2 ^ 1024))) ∧ CrashesOn .null := by
  have hdigits : (Nat.toDigits 10 (2 ^ 1024 : Int).natAbs).length ≤ Json.longestInteger := by
    decide +kernel
  have hlarge : (Json.int (2 ^ 1024)).Readable := .atom hdigits
  have hmissing : Json.null.Readable := .atom trivial
  refine ⟨crashesOn_of_isTreeCrash ?_, crashesOn_of_isTreeCrash ?_⟩
  · rw [run_treeWorld (readable_printing (readable_literalForm hlarge))]
    decide +kernel
  · rw [run_treeWorld (readable_printing hmissing)]
    decide +kernel

end Scriptlet.CommandLine
