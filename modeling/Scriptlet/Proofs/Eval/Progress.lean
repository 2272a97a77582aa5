import Scriptlet.Proofs.Eval.Fuel
import Scriptlet.Proofs.Eval.Safety
import Scriptlet.Proofs.Grammar.WellFormed
import Scriptlet.Proofs.Strict.Simulation

/-!
# Programs never get stuck

A well-formed program that is run in a state that well-formed programs led to runs forever, ends
normally or ends with a runtime error. Nothing else can happen as long as the stack is not exhausted
outside of calls. When everything that was run has only operators that program texts can hold, no
error is about an unknown operator.

The last condition is about the state as well: a function that was declared with another operator
in its body can be called from a program text.

## Main definitions

* `Eval.Reached` — the states that well-formed programs lead to
* `Eval.StaysInStack` — the stack is never exhausted outside of calls

## Main results

* `Eval.Reached.typed` — the states reached have well-formed heaps
* `Eval.isStmt_of_parseSource` — program texts have well-formed statements
* `Eval.interpret_never_stuck` — programs never get stuck
-/

namespace Scriptlet.Eval

/-- The state in which a run ends, however it ends. -/
def stateAfter : EStateM.Result Abort Machine Unit → Machine
  | .ok _ m => m
  | .error _ m => m

/-- The cause of the error with which a run ends, if it ends with one. -/
def cause? : EStateM.Result Abort Machine Unit → Option RuntimeCause
  | .error (.error e) _ => some e.cause
  | _ => none

/-- The stack is never exhausted outside of calls; inside of them that is an error. -/
def StaysInStack (settings : Settings) (statements : List Tree) (m : Machine) : Prop :=
  ∀ n m', interpret (settings.withTurns n) statements m ≠ .error .tooDeep m'

/-- The states that well-formed programs lead to, whatever the settings of each and however each
ended. Between two runs the output and the trace are taken away and the trace file may be closed. -/
inductive Reached (ops : Operators) : Machine → Prop
  | fresh (traceLevel : Nat) : Reached ops (.fresh traceLevel)
  | run {m : Machine} {statements : List Tree} (settings : Settings) :
      Reached ops m → (∀ s ∈ statements, s.IsStmt ops) →
      Reached ops (stateAfter (interpret settings statements m))
  | flush {m : Machine} (output trace : List String) (traceOpen : Bool) :
      Reached ops m → Reached ops { m with output, trace, traceOpen }

variable {ops : Operators} {settings : Settings} {statements : List Tree} {m : Machine}

/-- Every value in a state that was reached is well-formed. -/
theorem Reached.typed (h : Reached ops m) : m.heap.Typed ops := by
  induction h with
  | fresh => exact Machine.typed_freshHeap ops
  | @run m statements settings _ hstatements ih =>
    -- the heap is kept well-formed however the run ends
    have hsafe := (safe_interpret hstatements : Safe ops settings _ _) m ih
    cases hrun : interpret settings statements m with
    | ok _ m' =>
      rw [hrun] at hsafe
      exact hsafe.1
    | error abort m' =>
      rw [hrun] at hsafe
      exact hsafe.1
  | flush _ _ _ _ ih => exact ih

/-- The statements of a program text are well-formed, with known operators. -/
theorem isStmt_of_parseSource {source : String} (h : (parseSource source).diagnostics = []) :
    ∀ s ∈ (parseSource source).statements, s.IsStmt .known :=
  (program_of_parseSource h).2.2.isStmt

/-- A well-formed program runs forever, ends normally or ends with a runtime error. -/
theorem ends_of_isStmt (hm : m.heap.Typed ops) (hstatements : ∀ s ∈ statements, s.IsStmt ops)
    (hstack : StaysInStack settings statements m) :
    RunsForever settings statements m ∨
      (∃ m', EndsWith settings statements m (.ok () m')) ∨
        ∃ e m', EndsWith settings statements m (.error (.error e) m') := by
  obtain hforever | ⟨n, hends, hfinished⟩ := runsForever_or_endsWith settings statements m
  · exact .inl hforever
  · have hsafe := (safe_interpret hstatements : Safe ops (settings.withTurns n) _ _) m hm
    cases hrun : interpret (settings.withTurns n) statements m with
    | ok _ m' =>
      rw [hrun] at hends
      exact .inr (.inl ⟨m', hends⟩)
    | error abort m' =>
      rw [hrun] at hends hsafe
      cases abort with
      | error e => exact .inr (.inr ⟨e, m', hends⟩)
      | tooDeep => exact absurd hrun (hstack n m')
      | unfinished => exact absurd hrun (hfinished m')
      -- what only malformed trees lead to
      | fault | arguments => exact hsafe.2.elim

/-- An error of a program with known operators is about none that is not, unless the hook says
so. -/
theorem permits_of_endsWith {e : RuntimeError} {m' : Machine} (hm : m.heap.Typed .known)
    (hstatements : ∀ s ∈ statements, s.IsStmt .known)
    (h : EndsWith settings statements m (.error (.error e) m')) : settings.Permits e.cause := by
  obtain ⟨n, hn⟩ := h
  have hsafe := (safe_interpret hstatements : Safe .known (settings.withTurns n) _ _) m hm
  rw [hn n (Nat.le_refl n)] at hsafe
  exact hsafe.2 rfl

/-- Programs never get stuck. A well-formed program that is run in a state that well-formed programs
led to runs forever, ends normally or ends with a runtime error. If it comes from a program text and
only operators that program texts can hold were run before, the error is not about an unknown
operator, unless the hook says so. What the evaluator computes is defined: a position that it looks
up exists and comes from a finite number, and nothing is divided by zero. -/
theorem interpret_never_stuck (hm : Reached .any m) (hstatements : ∀ s ∈ statements, s.IsStmt .any)
    (hstack : StaysInStack settings statements m) :
    (RunsForever settings statements m ∨
      (∃ m', EndsWith settings statements m (.ok () m')) ∨
        ∃ e m', EndsWith settings statements m (.error (.error e) m')) ∧
    (∀ source, (parseSource source).diagnostics = [] →
      statements = (parseSource source).statements → Reached .known m →
      ∀ e m', EndsWith settings statements m (.error (.error e) m') → settings.Permits e.cause) ∧
    (∀ target index cs position, indexPosition target index = .ok (cs, position) →
      position < cs.length ∧ ∃ x, index.number? = some x ∧ x.isFinite = true) ∧
    ∀ (op : Token) x y v, op.kind = .slash → arithmetic op x y = .ok v → (y == 0) = false := by
  refine ⟨ends_of_isStmt hm.typed hstatements hstack, ?_, ?_, ?_⟩
  · rintro source hsource rfl hknown e m' hends
    exact permits_of_endsWith hknown.typed (isStmt_of_parseSource hsource) hends
  · exact fun target index cs position hposition => position_lt_length hposition
  · exact fun op x y v hop hresult => divisor_ne_zero hop hresult

/-! ### Functions with other operators -/

/-- An error that no fuel was needed for is the end of the program with any amount of it. -/
theorem endsWith_of_cause? {cause : RuntimeCause}
    (h : cause? (interpret (settings.withTurns 0) statements m) = some cause) :
    StaysInStack settings statements m ∧
      ∃ e m', EndsWith settings statements m (.error (.error e) m') ∧ e.cause = cause := by
  cases hrun : interpret (settings.withTurns 0) statements m with
  | ok _ m' =>
    rw [hrun] at h
    cases h
  | error abort m' =>
    rw [hrun] at h
    cases abort with
    | error e =>
      -- an error that needed no fuel is not for the lack of it
      have hall (n : Nat) :
          interpret (settings.withTurns n) statements m = .error (.error e) m' := by
        have hagree := approximates_interpret settings (Nat.zero_le n) statements m
        rw [hrun] at hagree
        exact (hagree.resolve_left nofun).symm
      refine ⟨fun n m'' hdeep => ?_, e, m', ⟨0, fun n _ => hall n⟩, Option.some.inj h⟩
      rw [hall n] at hdeep
      cases hdeep
    | _ => cases h

/-- Without trace, hook and time. -/
def plainSettings : Settings := { traceLevel := 0, hook := .absent, clock := fun _ => 0 }

/-- A function `f` that applies an operator of some kind to `true`. -/
def operatorFunction (kind : Kind) (lexeme : String) : Tree :=
  .funDecl (.make .identifier "f" .null 1) (.list [])
    (.list [.returnStmt (.make .returnKey "return" .null 1)
      (.unary (.make kind lexeme .null 1) (.literal (.atom (.bool true))))])

theorem isStmt_operatorFunction {kind : Kind} {lexeme : String}
    (h : ops = .known → kind ∈ unaryOperators) : (operatorFunction kind lexeme).IsStmt ops := by
  refine @Tree.IsStmt.funDecl ops _ [] _ ⟨_, rfl⟩ nofun (List.forall_mem_singleton.2 ?_)
  exact .returnStmt fun _ => .unary h (.literal nofun)

/-- The state in which that function is declared. -/
def afterOperatorFunction (kind : Kind) (lexeme : String) : Machine :=
  stateAfter (interpret plainSettings [operatorFunction kind lexeme] (.fresh 0))

theorem reached_afterOperatorFunction {kind : Kind} {lexeme : String}
    (h : ops = .known → kind ∈ unaryOperators) :
    Reached ops (afterOperatorFunction kind lexeme) :=
  .run _ (.fresh 0) (List.forall_mem_singleton.2 (isStmt_operatorFunction h))

theorem diagnostics_call : (parseSource "f();").diagnostics = [] :=
  List.isEmpty_iff.1 (by decide +kernel)

/-- Calling a function that negates a boolean. -/
theorem interpret_negated_boolean :
    ∃ e m', EndsWith plainSettings (parseSource "f();").statements
        (afterOperatorFunction .minus "-") (.error (.error e) m') ∧
      e.cause = .operandNotNumber ∧ plainSettings.Permits e.cause := by
  have hrun : cause? (interpret (plainSettings.withTurns 0) (parseSource "f();").statements
      (afterOperatorFunction .minus "-")) = some .operandNotNumber := by decide +kernel
  obtain ⟨hstack, e, m', hends, hcause⟩ := endsWith_of_cause? hrun
  have hnever := interpret_never_stuck (reached_afterOperatorFunction nofun)
    (fun s hs => (isStmt_of_parseSource diagnostics_call s hs).any) hstack
  have hknown : Reached .known (afterOperatorFunction .minus "-") :=
    reached_afterOperatorFunction fun _ => by decide
  exact ⟨e, m', hends, hcause, hnever.2.1 _ diagnostics_call rfl hknown e m' hends⟩

/-- A program text alone does not decide which operators are run: the call of a function that was
declared with another operator ends with an error about it. -/
theorem interpret_unknown_operator :
    ¬ ∀ (settings : Settings) (m : Machine) (source : String), Reached .any m →
      (parseSource source).diagnostics = [] →
      StaysInStack settings (parseSource source).statements m →
      ∀ e m', EndsWith settings (parseSource source).statements m (.error (.error e) m') →
        settings.Permits e.cause := by
  intro hall
  have hrun : cause? (interpret (plainSettings.withTurns 0) (parseSource "f();").statements
      (afterOperatorFunction .plus "+")) = some (.unknownUnary "+") := by decide +kernel
  obtain ⟨hstack, e, m', hends, hcause⟩ := endsWith_of_cause? hrun
  have hpermits :=
    hall _ _ _ (reached_afterOperatorFunction nofun) diagnostics_call hstack e m' hends
  obtain ⟨call, e', hfails, -⟩ := hpermits (by rw [hcause]; rfl)
  cases hfails

end Scriptlet.Eval
