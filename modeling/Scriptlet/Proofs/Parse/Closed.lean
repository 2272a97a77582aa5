import Scriptlet.Proofs.Parse.Reading

/-!
# Properties that all parsing steps share

The parser is put together from a few basic steps in a few ways: one step after another, a choice, a
repetition, the recovery of a declaration, and the one look back, to the equals sign of an
assignment. A property that the basic steps have and that these ways keep is one of every step of
the parser. The recursion of the parser is gone through once, here, for all such properties.

Some properties hold only of parts that are handed enough nesting depth, or only of parts that take
a token. For them there are the rules without the recursion, and for the steps that may begin with a
token, what has to hold behind it is kept apart from what has to hold of the step. And some hold of
expressions only, as these take no semicolon and give up nothing: for them there are the rules, with
the recursion, that an expression needs.

## Main definitions

* `Parse.assignmentTail` — what follows the left side of what may become an assignment
* `Parse.ExpressionRules`, `Parse.ExpressionClosed` — properties that the ways to combine the steps
  of an expression keep
* `Parse.Rules` — properties that all ways to combine steps keep
* `Parse.Closed` — such properties that hold when the nesting depth is exhausted, too
* `Parse.TakingOf`, `Parse.Taking` — what has to hold behind a token that was taken

## Main results

* `Parse.ExpressionClosed.expression` — every expression has such a property
* `Parse.Rules.ifStatement`, `Parse.Rules.statementWith`, … — a step put together from parts with
  such a property has it
* `Parse.Closed.expression`, `Parse.Closed.statement`, `Parse.Closed.declaration`,
  `Parse.Closed.program` — every step of the parser has such a property
-/

namespace Scriptlet.Parse

/-- What follows the left side of what may become an assignment. -/
def assignmentTail (value : Parse Tree) (left : Tree) : Parse Tree := do
  let equals := (← get).rest
  match ← accept? [.equal] with
  | some _ => do
    let value ← value
    assignTo left value equals
  | none => return left

theorem assignment_succ (d : Nat) :
    assignment (d + 1) = binary d levels >>= assignmentTail (assignment d) := rfl

/-- Without an equals sign the left side stays as it is; behind one, the value follows. -/
theorem assignmentTail_cases (value : Parse Tree) (left : Tree) (s : State) :
    NextNot [.equal] s.rest ∧ assignmentTail value left s = .ok left s ∨
      ∃ equals rest, s.rest = equals :: rest ∧ equals.kind = .equal ∧
        assignmentTail value left s =
          (value >>= fun v => assignTo left v (equals :: rest)) { s with rest } := by
  change _ ∧ (accept? [.equal] >>= _ : Parse Tree) _ = _ ∨ ∃ equals rest, _ ∧ _ ∧
    (accept? [.equal] >>= _ : Parse Tree) _ = _
  rw [bind_apply]
  rcases accept?_cases [.equal] s with ⟨hnext, hrun⟩ | ⟨t, rest, hrest, hk, hrun⟩
  · rw [hrun]
    exact .inl ⟨hnext, rfl⟩
  · rw [hrun]
    exact .inr ⟨t, rest, hrest, List.mem_singleton.1 hk, by rw [hrest]⟩

/-- A step that complains for such a cause aborts. A target is complained about without an abort,
and the nesting where an abort is caught. -/
def Cause.aborts : Cause → Bool
  | .assignmentTarget | .nesting => false
  | _ => true

/-- The property `C` of steps is kept by the ways in which the parser combines the steps of an
expression. None of these takes a semicolon, so that a step that does need not have the property
unless `P` holds. -/
structure ExpressionRules (P : Prop) (C : ∀ α : Type, Parse α → Prop) : Prop where
  pure {α : Type} (a : α) : C α (Pure.pure a)
  bind {α β : Type} {p : Parse α} {f : α → Parse β} :
    C α p → (∀ a, C β (f a)) → C β (p >>= f)
  fail {α : Type} {cause : Cause} : cause.aborts → C α (Parse.fail cause)
  nextKind? : C (Option Kind) Parse.nextKind?
  accept? {kinds : List Kind} : .semicolon ∉ kinds ∨ P → C (Option Token) (Parse.accept? kinds)
  repeated {α : Type} {step : α → Parse (Option α)} :
    (∀ a, C (Option α) (step a)) → ∀ a, C α (Parse.repeated step a)

/-- The property `C` is kept by the steps of an expression whatever the nesting depth is, and by an
assignment, which looks back. -/
structure ExpressionClosed (P : Prop) (C : ∀ α : Type, Parse α → Prop) : Prop
    extends ExpressionRules P C where
  tooDeep {α : Type} : C α (throw .tooDeep)
  assignmentTail {value : Parse Tree} :
    C Tree value → ∀ left, C Tree (Parse.assignmentTail value left)

/-- The property `C` of steps is kept by the ways in which the parser combines steps. -/
structure Rules (C : ∀ α : Type, Parse α → Prop) : Prop where
  pure {α : Type} (a : α) : C α (Pure.pure a)
  bind {α β : Type} {p : Parse α} {f : α → Parse β} :
    C α p → (∀ a, C β (f a)) → C β (p >>= f)
  fail {α : Type} {cause : Cause} : cause.aborts → C α (Parse.fail cause)
  nextKind? : C (Option Kind) Parse.nextKind?
  accept? (kinds : List Kind) : C (Option Token) (Parse.accept? kinds)
  repeated {α : Type} {step : α → Parse (Option α)} :
    (∀ a, C (Option α) (step a)) → ∀ a, C α (Parse.repeated step a)
  recover {α : Type} {p : Parse α} : C α p → C (Option α) (Parse.recover p)

/-- The property `C` is kept whatever the nesting depth is, and by an assignment, which looks
back. -/
structure Closed (C : ∀ α : Type, Parse α → Prop) : Prop extends Rules C where
  tooDeep {α : Type} : C α (throw .tooDeep)
  assignmentTail {value : Parse Tree} :
    C Tree value → ∀ left, C Tree (Parse.assignmentTail value left)

/-- A step that may begin with a token of the given kinds has the property `D` if what follows the
token has `C` and what is done without one has `D`. -/
def TakingOf (C : ∀ α : Type, Parse α → Prop) (kinds : List Kind) {α : Type}
    (D : Parse α → Prop) : Prop :=
  ∀ f : Option Token → Parse α, (∀ t, C α (f (some t))) → D (f none) → D (accept? kinds >>= f)

/-- A step that may begin with a token has the property `D` if what follows the token has `C` and
what is done without one has `D`. -/
def Taking (C : ∀ α : Type, Parse α → Prop) {α : Type} (D : Parse α → Prop) : Prop :=
  ∀ (kinds : List Kind) (f : Option Token → Parse α), (∀ t, C α (f (some t))) → D (f none) →
    D (accept? kinds >>= f)

variable {C : ∀ α : Type, Parse α → Prop} {α β : Type}

/-! ### Expressions -/

namespace ExpressionRules

variable {P : Prop} (hC : ExpressionRules P C)

include hC

theorem takingOf {kinds : List Kind} (h : .semicolon ∉ kinds ∨ P) : TakingOf C kinds (C α) := by
  intro f htook hleft
  refine hC.bind (hC.accept? h) fun o => ?_
  cases o with
  | none => exact hleft
  | some t => exact htook t

theorem nextIs (kind : Kind) : C Bool (Parse.nextIs kind) :=
  hC.bind hC.nextKind? fun _ => hC.pure _

theorem expect {kind : Kind} (h : .semicolon ∉ [kind] ∨ P) {cause : Cause}
    (hcause : cause.aborts) : C Token (Parse.expect kind cause) :=
  hC.takingOf h _ (fun t => hC.pure t) (hC.fail hcause)

theorem separatedStep {item : Parse β} (h : C β item) {kinds : List Kind}
    (hkinds : .semicolon ∉ kinds ∨ P) (f : α → Token → β → α) (a : α) :
    C (Option α) (Parse.separatedStep kinds f item a) :=
  hC.takingOf hkinds _ (fun _ => hC.bind h fun _ => hC.pure _) (hC.pure none)

theorem commaSeparated {item : Parse α} (h : C α item) :
    C (List α) (Parse.commaSeparated item) := by
  rw [commaSeparated_eq]
  exact hC.bind h fun first =>
    hC.bind (hC.repeated (hC.separatedStep h (.inl (by decide)) _) [first]) fun _ => hC.pure _

theorem listBefore {items : Parse (List α)} (h : C (List α) items) (kind : Kind) :
    C (List α) (Parse.listBefore kind items) := by
  refine hC.bind (hC.nextIs kind) fun b => ?_
  cases b with
  | true => exact hC.pure []
  | false => exact h

theorem foldLevel {operand : Parse Tree} (h : C Tree operand) {level : Level}
    (hlevel : .semicolon ∉ level.operators ∨ P) : C Tree (Parse.foldLevel level operand) := by
  rw [foldLevel_eq]
  exact hC.bind h fun first => hC.repeated (hC.separatedStep h hlevel _) first

theorem callArguments {e : Parse Tree} (he : C Tree e) :
    C (Token × List Tree) (Parse.callArguments e) := by
  rw [callArguments_eq]
  exact hC.bind (hC.listBefore (hC.commaSeparated he) _) fun _ =>
    hC.bind (hC.expect (.inl (by decide)) rfl) fun _ => hC.pure _

end ExpressionRules

namespace TakingOf

variable {P : Prop} {e : Parse Tree} (hC : ExpressionRules P C)

include hC

theorem trailer? {D : Parse (Option Tree) → Prop}
    (htaking : TakingOf C [.leftParen, .leftBracket] D) (he : C Tree e)
    (hnone : D (Pure.pure none)) (callee : Tree) : D (Parse.trailer? e callee) := by
  refine htaking _ (fun t => ?_) hnone
  dsimp only
  split
  · exact hC.bind (hC.callArguments he) fun _ => hC.pure _
  · exact hC.bind he fun _ => hC.bind (hC.expect (.inl (by decide)) rfl) fun _ => hC.pure _

theorem primaryWith {D : Parse Tree → Prop} (htaking : TakingOf C primaryKinds D)
    (he : C Tree e) (hfail : D (fail .expression)) : D (Parse.primaryWith e) := by
  refine htaking _ (fun t => ?_) hfail
  dsimp only
  split
  case h_5 =>
    exact hC.bind he fun _ => hC.bind (hC.expect (.inl (by decide)) rfl) fun _ => hC.pure _
  all_goals exact hC.pure _

end TakingOf

namespace ExpressionClosed

variable {P : Prop} (hC : ExpressionClosed P C)

include hC

mutual

theorem expression : ∀ d, C Tree (Parse.expression d)
  | 0 => hC.tooDeep
  | d + 1 => assignment d

theorem assignment : ∀ d, C Tree (Parse.assignment d)
  | 0 => hC.tooDeep
  | d + 1 => by
    rw [assignment_succ]
    have hlevels : ∀ level ∈ levels, .semicolon ∉ level.operators := by decide
    exact hC.bind (binary d levels fun level h => .inl (hlevels level h))
      (hC.assignmentTail (assignment d))

theorem binary : ∀ d levels, (∀ level ∈ levels, .semicolon ∉ level.operators ∨ P) →
    C Tree (Parse.binary d levels)
  | 0, _, _ => hC.tooDeep
  | d + 1, _ :: tighter, h =>
    hC.foldLevel (binary d tighter (List.forall_mem_cons.1 h).2) (List.forall_mem_cons.1 h).1
  | d + 1, [], _ => unary d

theorem unary : ∀ d, C Tree (Parse.unary d)
  | 0 => hC.tooDeep
  | d + 1 => hC.takingOf (.inl (by decide)) _ (fun _ => hC.bind (unary d) fun _ => hC.pure _)
      (call d)

theorem call : ∀ d, C Tree (Parse.call d)
  | 0 => hC.tooDeep
  | d + 1 => hC.bind (primary d) (hC.repeated fun e =>
      (hC.takingOf (.inl (by decide))).trailer? hC.toExpressionRules (expression d)
        (hC.pure none) e)

theorem primary : ∀ d, C Tree (Parse.primary d)
  | 0 => hC.tooDeep
  | d + 1 => (hC.takingOf (.inl (by decide))).primaryWith hC.toExpressionRules (expression d)
      (hC.fail rfl)

end

end ExpressionClosed

/-! ### Steps for lists and options -/

namespace Rules

theorem ite (_ : Rules C) {c : Prop} [Decidable c] {p q : Parse α} (hp : C α p) (hq : C α q) :
    C α (if c then p else q) := by
  split
  · exact hp
  · exact hq

variable (hC : Rules C)

include hC

/-- A semicolon may be taken like any other token. -/
theorem expressionRules : ExpressionRules True C where
  pure := hC.pure
  bind := hC.bind
  fail := hC.fail
  nextKind? := hC.nextKind?
  accept? _ := hC.accept? _
  repeated := hC.repeated

/-- What follows an optional token, if there is one and if there is none. -/
theorem taking : Taking C (C α) := fun _ => hC.expressionRules.takingOf (.inr trivial)

theorem nextIs (kind : Kind) : C Bool (Parse.nextIs kind) := hC.expressionRules.nextIs kind

theorem expect (kind : Kind) {cause : Cause} (hcause : cause.aborts) :
    C Token (Parse.expect kind cause) :=
  hC.expressionRules.expect (.inr trivial) hcause

theorem separatedStep {item : Parse β} (h : C β item) (kinds : List Kind) (f : α → Token → β → α)
    (a : α) : C (Option α) (Parse.separatedStep kinds f item a) :=
  hC.expressionRules.separatedStep h (.inr trivial) f a

theorem optionalAfter {item : Parse α} (h : C α item) (kind : Kind) (absent : α) :
    C α (Parse.optionalAfter kind absent item) :=
  hC.taking _ _ (fun _ => h) (hC.pure absent)

theorem foldLevel {operand : Parse Tree} (h : C Tree operand) (level : Level) :
    C Tree (Parse.foldLevel level operand) :=
  hC.expressionRules.foldLevel h (.inr trivial)

/-! ### Statements -/

section Statements

variable {e s : Parse Tree} {b : Parse (List Tree)} (he : C Tree e) (hs : C Tree s)

section

include he

theorem optionalBefore (kind : Kind) : C Tree (Parse.optionalBefore kind e) :=
  hC.bind (hC.nextIs kind) fun _ => hC.ite (hC.pure _) he

theorem varDeclaration : C Tree (Parse.varDeclaration e) := by
  rw [varDeclaration_eq]
  exact hC.bind (hC.expect _ rfl) fun _ => hC.bind (hC.optionalAfter he _ _) fun _ =>
    hC.bind (hC.expect _ rfl) fun _ => hC.pure _

theorem expressionStatement : C Tree (Parse.expressionStatement e) :=
  hC.bind he fun _ => hC.bind (hC.expect _ rfl) fun _ => hC.pure _

theorem printStatement : C Tree (Parse.printStatement e) :=
  hC.bind he fun _ => hC.bind (hC.expect _ rfl) fun _ => hC.pure _

theorem returnStatement (keyword : Token) : C Tree (Parse.returnStatement keyword e) :=
  hC.bind (hC.optionalBefore he _) fun _ => hC.bind (hC.expect _ rfl) fun _ => hC.pure _

theorem forInitializer : C Tree (Parse.forInitializer e) :=
  hC.taking _ _ (fun _ => hC.ite (hC.pure _) (hC.varDeclaration he)) (hC.expressionStatement he)

end

theorem parameters : C (List Token) Parse.parameters := by
  have hname : C Token (Parse.expect .identifier .parameterName) := hC.expect _ rfl
  have hnames := hC.expressionRules.commaSeparated hname
  rw [parameters_eq]
  exact hC.bind (hC.expressionRules.listBefore hnames _) fun _ =>
    hC.bind (hC.expect _ rfl) fun _ => hC.pure _

theorem funDeclaration (hb : C (List Tree) b) : C Tree (Parse.funDeclaration b) :=
  hC.bind (hC.expect _ rfl) fun _ => hC.bind (hC.expect _ rfl) fun _ =>
    hC.bind hC.parameters fun _ => hC.bind (hC.expect _ rfl) fun _ =>
      hC.bind hb fun _ => hC.pure _

include he hs

theorem ifStatement : C Tree (Parse.ifStatement e s) := by
  rw [ifStatement_eq]
  exact hC.bind (hC.expect _ rfl) fun _ => hC.bind he fun _ =>
    hC.bind (hC.expect _ rfl) fun _ => hC.bind hs fun _ =>
      hC.bind (hC.optionalAfter hs _ _) fun _ => hC.pure _

theorem whileStatement : C Tree (Parse.whileStatement e s) :=
  hC.bind (hC.expect _ rfl) fun _ => hC.bind he fun _ =>
    hC.bind (hC.expect _ rfl) fun _ => hC.bind hs fun _ => hC.pure _

theorem forStatement : C Tree (Parse.forStatement e s) :=
  hC.bind (hC.expect _ rfl) fun _ => hC.bind (hC.forInitializer he) fun _ =>
    hC.bind (hC.optionalBefore he _) fun _ => hC.bind (hC.expect _ rfl) fun _ =>
      hC.bind (hC.optionalBefore he _) fun _ => hC.bind (hC.expect _ rfl) fun _ =>
        hC.bind hs fun _ => hC.pure _

end Statements

theorem declarationStep {declaration : Parse (Option Tree)} (h : C (Option Tree) declaration)
    (stop : Kind → Bool) (ss : List Tree) :
    C (Option (List Tree)) (Parse.declarationStep stop declaration ss) := by
  refine hC.bind hC.nextKind? fun o => ?_
  cases o with
  | none => exact hC.pure none
  | some kind =>
    refine hC.ite (hC.pure none) (hC.bind h fun o => ?_)
    cases o <;> exact hC.pure _

theorem declarationsUntil {declaration : Parse (Option Tree)} (h : C (Option Tree) declaration)
    (stop : Kind → Bool) : C (List Tree) (Parse.declarationsUntil stop declaration) := by
  rw [declarationsUntil_eq]
  exact hC.bind (hC.repeated (hC.declarationStep h stop) []) fun _ => hC.pure _

end Rules

/-! ### Steps that may begin with a token -/

section Taking

variable {e s : Parse Tree} {b : Parse (List Tree)} (hC : Rules C)

include hC

namespace Taking

theorem trailer? {D : Parse (Option Tree) → Prop} (htaking : Taking C D) (he : C Tree e)
    (hnone : D (Pure.pure none)) (callee : Tree) : D (Parse.trailer? e callee) :=
  TakingOf.trailer? hC.expressionRules (htaking _) he hnone callee

variable {D : Parse Tree → Prop} (htaking : Taking C D)

include htaking

theorem primaryWith (he : C Tree e) (hfail : D (fail .expression)) : D (Parse.primaryWith e) :=
  TakingOf.primaryWith hC.expressionRules (htaking _) he hfail

theorem statementWith (he : C Tree e) (hs : C Tree s) (hb : C (List Tree) b)
    (hexpression : D (expressionStatement e)) : D (Parse.statementWith e s b) := by
  refine htaking _ _ (fun t => ?_) hexpression
  dsimp only
  split
  · exact hC.printStatement he
  · exact hC.ifStatement he hs
  · exact hC.whileStatement he hs
  · exact hC.forStatement he hs
  · exact hC.returnStatement he t
  · exact hC.bind hb fun _ => hC.pure _

theorem declarationWith (he : C Tree e) (hb : C (List Tree) b) (hs : D s) :
    D (Parse.declarationWith e s b) :=
  htaking _ _ (fun _ => hC.ite (hC.funDeclaration hb) (hC.varDeclaration he)) hs

end Taking

namespace Rules

theorem trailer? (he : C Tree e) (callee : Tree) : C (Option Tree) (Parse.trailer? e callee) :=
  hC.taking.trailer? hC he (hC.pure none) callee

theorem primaryWith (he : C Tree e) : C Tree (Parse.primaryWith e) :=
  hC.taking.primaryWith hC he (hC.fail rfl)

theorem statementWith (he : C Tree e) (hs : C Tree s) (hb : C (List Tree) b) :
    C Tree (Parse.statementWith e s b) :=
  hC.taking.statementWith hC he hs hb (hC.expressionStatement he)

theorem declarationWith (he : C Tree e) (hs : C Tree s) (hb : C (List Tree) b) :
    C Tree (Parse.declarationWith e s b) :=
  hC.taking.declarationWith hC he hb hs

end Rules

end Taking

/-! ### The recursion -/

namespace Closed

variable (hC : Closed C)

include hC

theorem expressionClosed : ExpressionClosed True C where
  toExpressionRules := hC.expressionRules
  tooDeep := hC.tooDeep
  assignmentTail := hC.assignmentTail

theorem expression (d : Nat) : C Tree (Parse.expression d) := hC.expressionClosed.expression d

theorem assignment (d : Nat) : C Tree (Parse.assignment d) := hC.expressionClosed.assignment d

theorem binary (d : Nat) (levels : List Level) : C Tree (Parse.binary d levels) :=
  hC.expressionClosed.binary d levels fun _ _ => .inr trivial

theorem unary (d : Nat) : C Tree (Parse.unary d) := hC.expressionClosed.unary d

mutual

theorem declaration : ∀ d, C (Option Tree) (Parse.declaration d)
  | 0 => hC.tooDeep
  | d + 1 => hC.recover
      (hC.declarationWith (hC.expression d) (statement d) (block d))

theorem statement : ∀ d, C Tree (Parse.statement d)
  | 0 => hC.tooDeep
  | d + 1 => hC.statementWith (hC.expression d) (statement d) (block d)

theorem block : ∀ d, C (List Tree) (Parse.block d)
  | 0 => hC.tooDeep
  | d + 1 => hC.bind (hC.declarationsUntil (declaration d) _) fun _ =>
      hC.bind (hC.expect _ rfl) fun _ => hC.pure _

end

theorem program (d : Nat) : C (List Tree) (Parse.program d) :=
  hC.declarationsUntil (hC.declaration d) _

end Closed

end Scriptlet.Parse
