import Scriptlet.Proofs.Lines.Layout

/-!
# Tracing changes nothing but the trace

The trace level decides which lines go to the trace file, and nothing else looks at it or at the
trace. So a run at some level does step by step what the run at the highest level does, and its
trace is that of the highest level without the lines that the level leaves out.

## Main definitions

* `Trace.isDeclaration`, `Trace.keeps` — the lines about declarations, and the lines of a level
* `Machine.sift` — the state with only the lines of a level in its trace
* `Eval.Untraced` — a step that has nothing to do with the trace
* `Eval.Sifts` — a step at some level does what another does at the highest

## Main results

* `Eval.siftsAt`, `Eval.sifts_interpret` — statements, expressions, calls and programs
* `tracing_is_transparent` — programs run alike at all levels, and which lines each level traces
-/

namespace Scriptlet

/-- The settings with another trace level. -/
def Settings.withTraceLevel (settings : Settings) (traceLevel : Nat) : Settings :=
  { settings with traceLevel }

namespace Settings

@[simp]
theorem depth_withTraceLevel (settings : Settings) (level : Nat) :
    (settings.withTraceLevel level).depth = settings.depth := rfl

@[simp]
theorem turns_withTraceLevel (settings : Settings) (level : Nat) :
    (settings.withTraceLevel level).turns = settings.turns := rfl

end Settings

/-! ### Lines of the trace -/

namespace Trace

/-- Whether a line tells of a declaration: of a variable or of a function. -/
def isDeclaration (line : String) : Bool :=
  "declare ".toList.isPrefixOf line.toList || "define function ".toList.isPrefixOf line.toList

/-- The lines that are traced at a level: those of declarations from level 2 on, the others from
level 3 on. -/
def keeps (level : Nat) (line : String) : Bool :=
  decide (3 ≤ level) || (decide (2 ≤ level) && isDeclaration line)

theorem isDeclaration_declare (line : String) : isDeclaration ("declare " ++ line) = true := by
  simp [isDeclaration]

theorem isDeclaration_function (line : String) :
    isDeclaration ("define function " ++ line) = true := by
  simp [isDeclaration]

theorem isDeclaration_callTrace (name : Token) (args : List Value) :
    isDeclaration (Eval.callTrace name args) = false := by
  simp [isDeclaration, Eval.callTrace, String.toList_append, List.isPrefixOf]

theorem isDeclaration_conditionTrace (v : Value) :
    isDeclaration (Eval.conditionTrace v) = false := by
  simp [isDeclaration, Eval.conditionTrace, String.toList_append, List.isPrefixOf]

theorem keeps_eq_true {level : Nat} (h : 3 ≤ level) (line : String) : keeps level line = true := by
  simp [keeps, h]

theorem keeps_two (line : String) : keeps 2 line = isDeclaration line := rfl

end Trace

/-- The state with only the lines of a level in its trace, and the trace file open or closed. -/
def Machine.sift (level : Nat) (opened : Bool) (m : Machine) : Machine :=
  { m with trace := m.trace.filter (Trace.keeps level), traceOpen := opened }

/-- The state with another trace. -/
def Machine.retraced (trace : List String) (opened : Bool) (m : Machine) : Machine :=
  { m with trace, traceOpen := opened }

namespace Eval

/-! ### Steps that have nothing to do with the trace -/

/-- With another trace the step does the same, and leaves that trace alone. -/
def Untraced {α : Type} (step : Eval α) : Prop :=
  ∀ trace opened, Commutes id (Machine.retraced trace opened) id step step

variable {settings : Settings} {α β : Type}

theorem untraced_failAt (t : Token) (cause : RuntimeCause) : Untraced (failAt t cause : Eval α) :=
  fun _ _ => .throw _

theorem untraced_printLine (line : String) : Untraced (printLine line) :=
  fun _ _ => .modify fun _ => rfl

theorem untraced_newScope (parent : Nat) : Untraced (newScope parent) :=
  fun _ _ => .modifyGet fun _ => rfl

theorem untraced_newClosureId : Untraced newClosureId :=
  fun _ _ => .modifyGet fun _ => rfl

theorem untraced_define (scope : Nat) (name : Token) (v : Value) :
    Untraced (define scope name v) := by
  intro trace opened
  rw [define]
  cases name.name? with
  | none => exact .throw _
  | some x => exact .modify fun _ => rfl

theorem untraced_read (scope : Nat) (name : Token) : Untraced (read scope name) := by
  intro trace opened m
  simp only [read_apply]
  cases name.name? with
  | none => rfl
  | some x =>
    simp only [Machine.retraced]
    cases m.heap.get? scope x <;> rfl

theorem untraced_assign (scope : Nat) (name : Token) (v : Value) :
    Untraced (assign scope name v) := by
  intro trace opened m
  simp only [assign_apply]
  cases name.name? with
  | none => rfl
  | some x =>
    simp only [Machine.retraced]
    cases m.heap.resolve? x scope <;> rfl

theorem untraced_located (t : Token) (result : Except RuntimeCause α) :
    Untraced (located t result) := by
  cases result with
  | ok a => exact fun _ _ => .pure a
  | error cause => exact untraced_failAt t cause

theorem untraced_checkArity (paren : Token) (expected got : Nat) :
    Untraced (checkArity paren expected got) :=
  fun trace opened => .ite (untraced_failAt paren _ trace opened) (.pure ())

theorem untraced_itemsOf (t : Tree) : Untraced (itemsOf t) := by
  intro trace opened
  rw [itemsOf]
  cases t.items? with
  | none => exact .throw _
  | some items => exact .pure items

theorem untraced_bindParams (scope : Nat) (params : List Tree) (args : List Value) :
    Untraced (bindParams scope params args) := by
  intro trace opened
  induction params generalizing args with
  | nil => exact .pure ()
  | cons p params ih =>
    cases args with
    | nil => cases p <;> exact .pure ()
    | cons v args =>
      cases p with
      | token t => exact (untraced_define scope t v trace opened).bind fun _ => ih args
      | _ => exact .throw _

theorem untraced_readClock : Untraced (readClock settings) :=
  fun _ _ => .modifyGet fun _ => rfl

theorem untraced_callHook : Untraced (callHook settings) := by
  intro trace opened
  have hnext : Commutes id (Machine.retraced trace opened) id nextHookCall nextHookCall :=
    .modifyGet fun _ => rfl
  rw [callHook]
  cases settings.hook with
  | absent => exact .pure ()
  | answers failure? =>
    refine hnext.bind fun call => ?_
    simp only [id]
    cases failure? call with
    | some e => exact .throw _
    | none => exact .pure ()

theorem untraced_applyNative (n : Native) (args : List Value) :
    Untraced (applyNative settings n args) := by
  intro trace opened
  have hsettled (result : Except Abort Value) :
      Commutes id (Machine.retraced trace opened) id (settled result) (settled result) := by
    cases result with
    | ok v => exact .pure v
    | error abort => exact .throw abort
  cases n with
  | clock => exact (untraced_readClock trace opened).bind fun _ => .pure _
  | stepBattle => exact (untraced_callHook trace opened).map fun _ => rfl
  | length => exact hsettled _
  | concat => exact hsettled _

theorem Untraced.locating {step : Eval α} (h : Untraced step) (t : Token) :
    Untraced (locating t step) := by
  intro trace opened m
  simp only [Eval.locating, h trace opened m]
  cases step m with
  | ok a m' => rfl
  | error abort m' => cases abort <;> rfl

/-! ### Steps at two levels -/

/-- From a state with an open trace file, `full` ends in such a state, and `step` ends alike in the
sifted state if it starts from the sifted state. -/
def Sifts (level : Nat) (opened : Bool) (step full : Eval α) : Prop :=
  ∀ m, m.traceOpen = true → match full m with
    | .ok a m' => m'.traceOpen = true ∧
      step (m.sift level opened) = .ok a (m'.sift level opened)
    | .error abort m' => m'.traceOpen = true ∧
      step (m.sift level opened) = .error abort (m'.sift level opened)

variable {level : Nat} {opened : Bool} {step full : Eval α}

/-- A step that has nothing to do with the trace does the same at all levels. -/
theorem Untraced.sifts (h : Untraced step) : Sifts level opened step step := by
  intro m hm
  have hkept {m' : Machine} (hm' : m' = m'.retraced m.trace true) :
      m'.traceOpen = true ∧
        m'.retraced (m.trace.filter (Trace.keeps level)) opened = m'.sift level opened := by
    rw [hm']
    exact ⟨rfl, rfl⟩
  -- the state has its own trace, so that the step leaves it that one
  have hsame := h m.trace true m
  rw [show m.retraced m.trace true = m by rw [← hm]; rfl] at hsame
  have hother := h (m.trace.filter (Trace.keeps level)) opened m
  cases hrun : step m with
  | ok a m' | error a m' =>
    rw [hrun] at hsame hother
    injection hsame with _ hm'
    obtain ⟨hopen, hsift⟩ := hkept hm'
    exact ⟨hopen, hsift ▸ hother⟩

namespace Sifts

theorem bind {f f' : α → Eval β} (h : Sifts level opened step full)
    (hf : ∀ a, Sifts level opened (f a) (f' a)) :
    Sifts level opened (step >>= f) (full >>= f') := by
  intro m hm
  have hstep := h m hm
  change match EStateM.bind full f' m with
    | .ok b m' => m'.traceOpen = true ∧
      EStateM.bind step f (m.sift level opened) = .ok b (m'.sift level opened)
    | .error abort m' => m'.traceOpen = true ∧
      EStateM.bind step f (m.sift level opened) = .error abort (m'.sift level opened)
  simp only [EStateM.bind]
  split at hstep <;> rename_i hrun <;> simp only [hrun, hstep.2]
  · exact hf _ _ hstep.1
  · exact ⟨hstep.1, trivial⟩

theorem ite {p : Prop} [Decidable p] {step' full' : Eval α} (h : Sifts level opened step full)
    (h' : Sifts level opened step' full') :
    Sifts level opened (if p then step else step') (if p then full else full') := by
  split
  · exact h
  · exact h'

theorem overflowAt (h : Sifts level opened step full) (t : Token) :
    Sifts level opened (overflowAt t step) (overflowAt t full) := by
  intro m hm
  have hstep := h m hm
  simp only [Eval.overflowAt]
  split at hstep <;> rename_i hrun <;> simp only [hrun, hstep.2]
  · exact ⟨hstep.1, trivial⟩
  · rename_i abort m'
    cases abort <;> exact ⟨hstep.1, rfl⟩

end Sifts

theorem sifts_pure (a : α) : Sifts level opened (pure a) (pure a) :=
  Untraced.sifts fun _ _ => .pure a

theorem sifts_throw (abort : Abort) : Sifts level opened (throw abort : Eval α) (throw abort) :=
  Untraced.sifts fun _ _ => .throw abort

/-- What is traced goes to the trace while the trace file is open. -/
theorem traceLine_of_le {threshold : Nat} (line : Unit → String) {m : Machine}
    (h : threshold ≤ settings.traceLevel) (hm : m.traceOpen = true) :
    traceLine settings threshold line m = .ok () { m with trace := line () :: m.trace } := by
  have hmodify : traceLine settings threshold line = _ := if_pos h
  rw [hmodify]
  change EStateM.Result.ok () (if m.traceOpen then _ else _) = _
  rw [if_pos hm]

theorem traceLine_of_lt {threshold : Nat} (line : Unit → String) (m : Machine)
    (h : settings.traceLevel < threshold) : traceLine settings threshold line m = .ok () m := by
  have hnothing : traceLine settings threshold line = _ := if_neg (Nat.not_le_of_lt h)
  rw [hnothing]
  rfl

/-- The one step that looks at the level. -/
theorem sifts_traceLine {threshold : Nat} {line : String}
    (hopened : 2 ≤ level → opened = true) (hlower : 2 ≤ threshold) (hupper : threshold ≤ 3)
    (hline : Trace.keeps level line = decide (threshold ≤ level)) :
    Sifts level opened (traceLine (settings.withTraceLevel level) threshold fun _ => line)
      (traceLine (settings.withTraceLevel 3) threshold fun _ => line) := by
  intro m hm
  rw [traceLine_of_le _ (show threshold ≤ 3 from hupper) hm]
  refine ⟨hm, ?_⟩
  by_cases hlevel : threshold ≤ level
  · obtain rfl := hopened (Nat.le_trans hlower hlevel)
    rw [traceLine_of_le _ (show threshold ≤ level from hlevel) rfl]
    simp only [Machine.sift, List.filter_cons, hline, hlevel, decide_true, if_true]
  · rw [traceLine_of_lt _ _ (show level < threshold from Nat.lt_of_not_le hlevel)]
    simp only [Machine.sift, List.filter_cons, hline, hlevel, decide_false, Bool.false_eq_true,
      if_false]

/-- A line about a declaration is traced from level 2 on. -/
theorem sifts_declaration (hopened : 2 ≤ level → opened = true) {line : String}
    (hline : Trace.isDeclaration line = true) :
    Sifts level opened (traceLine (settings.withTraceLevel level) 2 fun _ => line)
      (traceLine (settings.withTraceLevel 3) 2 fun _ => line) := by
  refine sifts_traceLine hopened (Nat.le_refl 2) (by decide) ?_
  rw [Trace.keeps, hline, Bool.and_true, ← Bool.decide_or]
  exact decide_eq_decide.2 (or_iff_right_of_imp Nat.le_of_succ_le)

/-- Any other line is traced from level 3 on. -/
theorem sifts_other (hopened : 2 ≤ level → opened = true) {line : String}
    (hline : Trace.isDeclaration line = false) :
    Sifts level opened (traceLine (settings.withTraceLevel level) 3 fun _ => line)
      (traceLine (settings.withTraceLevel 3) 3 fun _ => line) := by
  refine sifts_traceLine hopened (by decide) (Nat.le_refl 3) ?_
  rw [Trace.keeps, hline, Bool.and_false, Bool.or_false]

/-! ### Loops -/

namespace Sifts

theorem runEach {run run' : Tree → Eval (Option Signal)}
    (h : ∀ s, Sifts level opened (run s) (run' s)) (statements : List Tree) :
    Sifts level opened (runEach run statements) (runEach run' statements) := by
  induction statements with
  | nil => exact sifts_pure none
  | cons s rest ih =>
    refine (h s).bind fun signal => ?_
    cases signal with
    | some signal => exact sifts_pure (some signal)
    | none => exact ih

theorem evalEach {evaluate evaluate' : Tree → Eval Value}
    (h : ∀ e, Sifts level opened (evaluate e) (evaluate' e)) (expressions : List Tree) :
    Sifts level opened (evalEach evaluate expressions) (evalEach evaluate' expressions) := by
  induction expressions with
  | nil => exact sifts_pure []
  | cons e rest ih => exact (h e).bind fun v => ih.bind fun vs => sifts_pure (v :: vs)

theorem untilSome {turn turn' : Eval (Option α)} (h : Sifts level opened turn turn') (n : Nat) :
    Sifts level opened (untilSome turn n) (untilSome turn' n) := by
  induction n with
  | zero => exact sifts_throw _
  | succ n ih =>
    refine h.bind fun result => ?_
    cases result with
    | some a => exact sifts_pure a
    | none => exact ih

theorem whileTurn {condition condition' : Eval Value} {body body' : Eval (Option Signal)}
    (hcondition : Sifts level opened condition condition')
    (hbody : Sifts level opened body body') :
    Sifts level opened (whileTurn condition body) (whileTurn condition' body') := by
  refine hcondition.bind fun v => .ite (hbody.bind fun signal => ?_) (sifts_pure (some none))
  cases signal with
  | some signal => exact sifts_pure (some (some signal))
  | none => exact sifts_pure none

end Sifts

/-! ### Statements, expressions and calls -/

variable {d : Nat}

/-- Everything that runs with `d` units of stack left does at some level what it does at the
highest. -/
structure SiftsAt (settings : Settings) (level : Nat) (opened : Bool) (d : Nat) : Prop where
  exec (t : Tree) (scope : Nat) :
    Sifts level opened (exec (settings.withTraceLevel level) d t scope)
      (exec (settings.withTraceLevel 3) d t scope)
  execBlock (t : Tree) (scope : Nat) :
    Sifts level opened (execBlock (settings.withTraceLevel level) d t scope)
      (execBlock (settings.withTraceLevel 3) d t scope)
  eval (t : Tree) (scope : Nat) :
    Sifts level opened (eval (settings.withTraceLevel level) d t scope)
      (eval (settings.withTraceLevel 3) d t scope)
  evalArgs (t : Tree) (scope : Nat) :
    Sifts level opened (evalArgs (settings.withTraceLevel level) d t scope)
      (evalArgs (settings.withTraceLevel 3) d t scope)
  call (f : Value) (args : List Value) (paren : Token) :
    Sifts level opened (call (settings.withTraceLevel level) d f args paren)
      (call (settings.withTraceLevel 3) d f args paren)

namespace SiftsAt

theorem exec_succ (h : SiftsAt settings level opened d) (hopened : 2 ≤ level → opened = true)
    (t : Tree) (scope : Nat) :
    Sifts level opened (Eval.exec (settings.withTraceLevel level) (d + 1) t scope)
      (Eval.exec (settings.withTraceLevel 3) (d + 1) t scope) := by
  cases t with
  | exprStmt e =>
    simp only [Eval.exec]
    exact (h.eval e scope).bind fun _ => sifts_pure none
  | printStmt e =>
    simp only [Eval.exec]
    refine (h.eval e scope).bind fun v => (untraced_printLine _).sifts.bind fun _ => ?_
    exact sifts_pure none
  | varDecl name e =>
    have hdeclared (v : Value) : Sifts level opened
        (do
          define scope name v
          traceLine (settings.withTraceLevel level) 2 fun _ =>
            "declare " ++ name.text ++ " = " ++ v.display
          return none)
        (do
          define scope name v
          traceLine (settings.withTraceLevel 3) 2 fun _ =>
            "declare " ++ name.text ++ " = " ++ v.display
          return (none : Option Signal)) := by
      refine (untraced_define scope name v).sifts.bind fun _ => ?_
      refine (sifts_declaration hopened ?_).bind fun _ => sifts_pure none
      rw [String.append_assoc, String.append_assoc]
      exact Trace.isDeclaration_declare _
    simp only [Eval.exec]
    exact .ite (hdeclared .nil) ((h.eval e scope).bind hdeclared)
  | block statements =>
    simp only [Eval.exec]
    exact (untraced_newScope scope).sifts.bind fun inner => h.execBlock statements inner
  | ifStmt condition thenBranch elseBranch =>
    simp only [Eval.exec]
    refine (h.eval condition scope).bind fun v => ?_
    refine (sifts_other hopened (Trace.isDeclaration_conditionTrace v)).bind fun _ => ?_
    exact .ite (h.exec thenBranch scope) (.ite (sifts_pure none) (h.exec elseBranch scope))
  | whileStmt condition body =>
    simp only [Eval.exec, Settings.turns_withTraceLevel]
    exact .untilSome (.whileTurn (h.eval condition scope) (h.exec body scope)) settings.turns
  | forStmt initializer condition increment body =>
    simp only [Eval.exec]
    exact h.exec _ scope
  | funDecl name params body =>
    simp only [Eval.exec]
    refine untraced_newClosureId.sifts.bind fun id => ?_
    refine (untraced_define scope name _).sifts.bind fun _ => ?_
    exact (sifts_declaration hopened (Trace.isDeclaration_function _)).bind fun _ => sifts_pure none
  | returnStmt keyword e =>
    simp only [Eval.exec]
    exact .ite (sifts_pure _) ((h.eval e scope).bind fun v => sifts_pure _)
  | _ =>
    simp only [Eval.exec]
    exact sifts_throw _

theorem eval_succ (h : SiftsAt settings level opened d) (t : Tree) (scope : Nat) :
    Sifts level opened (Eval.eval (settings.withTraceLevel level) (d + 1) t scope)
      (Eval.eval (settings.withTraceLevel 3) (d + 1) t scope) := by
  cases t with
  | literal v =>
    simp only [Eval.eval]
    exact sifts_pure _
  | grouping e =>
    simp only [Eval.eval]
    exact h.eval e scope
  | varRef name =>
    simp only [Eval.eval]
    exact (untraced_read scope name).sifts
  | assign name e =>
    simp only [Eval.eval]
    refine (h.eval e scope).bind fun v => (untraced_assign scope name v).sifts.bind fun _ => ?_
    exact sifts_pure v
  | logical left op right =>
    simp only [Eval.eval]
    exact (h.eval left scope).bind fun v => .ite (sifts_pure v) (h.eval right scope)
  | unary op e =>
    simp only [Eval.eval]
    exact (h.eval e scope).bind fun v => (untraced_located op _).sifts
  | binary left op right =>
    simp only [Eval.eval]
    exact (h.eval left scope).bind fun a => (h.eval right scope).bind fun b =>
      (untraced_located op _).sifts
  | call callee paren arguments =>
    simp only [Eval.eval]
    exact (h.eval callee scope).bind fun f => (h.evalArgs arguments scope).bind fun args =>
      h.call f args paren
  | index target bracket index =>
    simp only [Eval.eval]
    refine (h.eval target scope).bind fun a => (h.eval index scope).bind fun i => ?_
    exact (untraced_located bracket _).sifts.bind fun _ => sifts_pure _
  | assignIndex target bracket index value =>
    cases target with
    | varRef name =>
      simp only [Eval.eval]
      refine (untraced_read scope name).sifts.bind fun a => (h.eval index scope).bind fun i => ?_
      refine (h.eval value scope).bind fun v => ?_
      refine (untraced_located bracket _).sifts.bind fun found => ?_
      cases singleChar? v with
      | some c => exact (untraced_assign scope name _).sifts.bind fun _ => sifts_pure v
      | none => exact (untraced_failAt bracket _).sifts
    | _ =>
      simp only [Eval.eval]
      exact (untraced_failAt bracket _).sifts
  | _ =>
    simp only [Eval.eval]
    exact sifts_throw _

theorem call_succ (h : SiftsAt settings level opened d) (hopened : 2 ≤ level → opened = true)
    (f : Value) (args : List Value) (paren : Token) :
    Sifts level opened (Eval.call (settings.withTraceLevel level) (d + 1) f args paren)
      (Eval.call (settings.withTraceLevel 3) (d + 1) f args paren) := by
  cases f with
  | tree t =>
    simp only [Eval.call]
    exact (untraced_failAt paren _).sifts
  -- a native function sees the hook and the clock, which are the same at both levels
  | native n =>
    have hnative : applyNative (settings.withTraceLevel level) n args =
        applyNative (settings.withTraceLevel 3) n args := by cases n <;> rfl
    simp only [Eval.call, hnative]
    refine (untraced_checkArity paren _ _).sifts.bind fun _ => ?_
    exact ((untraced_applyNative n args).locating paren).sifts
  | closure c =>
    simp only [Eval.call]
    refine (untraced_itemsOf c.params).sifts.bind fun params => ?_
    refine (untraced_checkArity paren _ _).sifts.bind fun _ => ?_
    refine (sifts_other hopened (Trace.isDeclaration_callTrace c.name args)).bind fun _ => ?_
    refine (untraced_newScope c.scope).sifts.bind fun inner => ?_
    refine (untraced_bindParams inner params args).sifts.bind fun _ => ?_
    exact ((h.execBlock c.body inner).overflowAt paren).bind fun result => sifts_pure _

end SiftsAt

theorem siftsAt (settings : Settings) (hopened : 2 ≤ level → opened = true) (d : Nat) :
    SiftsAt settings level opened d := by
  induction d with
  | zero =>
    constructor <;> intros
    · simp only [exec]; exact sifts_throw _
    · simp only [execBlock]; exact sifts_throw _
    · simp only [eval]; exact sifts_throw _
    · simp only [evalArgs]; exact sifts_throw _
    · simp only [call]; exact sifts_throw _
  | succ d ih =>
    constructor
    · exact ih.exec_succ hopened
    · intro t scope
      simp only [execBlock]
      exact (untraced_itemsOf t).sifts.bind fun items => .runEach (fun s => ih.exec s scope) items
    · exact ih.eval_succ
    · intro t scope
      simp only [evalArgs]
      exact (untraced_itemsOf t).sifts.bind fun items => .evalEach (fun e => ih.eval e scope) items
    · exact ih.call_succ hopened

/-- Programs do at some level what they do at the highest. -/
theorem sifts_interpret (settings : Settings) (hopened : 2 ≤ level → opened = true)
    (statements : List Tree) :
    Sifts level opened (interpret (settings.withTraceLevel level) statements)
      (interpret (settings.withTraceLevel 3) statements) := by
  induction statements with
  | nil => exact sifts_pure ()
  | cons s rest ih =>
    have hone : Sifts level opened (interpretOne (settings.withTraceLevel level) s)
        (interpretOne (settings.withTraceLevel 3) s) := by
      simp only [interpretOne, Settings.depth_withTraceLevel]
      refine ((siftsAt settings hopened settings.depth).exec s Machine.globalScope).bind fun r => ?_
      cases r with
      | none => exact sifts_pure ()
      | some signal => exact (untraced_failAt signal.keyword _).sifts
    exact hone.bind fun _ => ih

end Eval

/-! ### Programs -/

namespace Session

/-- The session with another trace level, and with the trace file open or closed. -/
def withTrace (s : Session) (level : Nat) (opened : Bool) : Session where
  settings := s.settings.withTraceLevel level
  machine := { s.machine with traceOpen := opened }

/-- All levels have one run in common: there are a result and a state such that running a program
text at any level gives this result, and this state with the lines of the level in its trace. -/
theorem runSource_withTrace (s : Session) {source : String}
    (hclean : (parseSource source).diagnostics = []) :
    ∃ (result : Except Failure Unit) (m : Machine), ∀ level opened,
      (2 ≤ level → opened = true) →
        (s.withTrace level opened).runSource source =
          (⟨result, linesText m.output, "", linesText (m.sift level opened).trace⟩,
            ⟨s.settings.withTraceLevel level, m.sift level opened⟩) := by
  obtain ⟨start, hstart, hrun⟩ : ∃ start : Machine, start.traceOpen = true ∧
      ∀ level opened, (s.withTrace level opened).runSource source =
        (s.withTrace level opened).ended
          (Eval.interpret (s.settings.withTraceLevel level) (parseSource source).statements
            (start.sift level opened)) := by
    refine ⟨{ s.machine.quiet with traceOpen := true }, rfl, fun level opened => ?_⟩
    simp only [runSource, hclean, List.isEmpty_nil, if_true]
    rw [runStatements_eq]
    rfl
  cases hfull : Eval.interpret (s.settings.withTraceLevel 3) (parseSource source).statements
      start with
  | ok _ m =>
    refine ⟨.ok (), m, fun level opened hopened => ?_⟩
    have hsifts := Eval.sifts_interpret s.settings hopened (parseSource source).statements _ hstart
    rw [hfull] at hsifts
    rw [hrun, hsifts.2]
    rfl
  | error abort m =>
    refine ⟨.error (.stopped abort), m, fun level opened hopened => ?_⟩
    have hsifts := Eval.sifts_interpret s.settings hopened (parseSource source).statements _ hstart
    rw [hfull] at hsifts
    rw [hrun, hsifts.2]
    rfl

end Session

/-- Tracing is transparent. A program text without diagnostics that is run from any state at any
level, with an open trace file, gives the same result, the same output and the same state but for
the trace as at level 0. Nothing is traced at level 1; from level 3 on the trace is always the same;
and at level 2 it consists of those lines of it that tell of declarations. -/
theorem tracing_is_transparent (s : Session) {source : String} (opened : Bool)
    (hclean : (parseSource source).diagnostics = []) :
    let run := fun level opened => (s.withTrace level opened).runSource source
    (∀ level,
      (run level true).1.result = (run 0 opened).1.result ∧
      (run level true).1.output = (run 0 opened).1.output ∧
      (run level true).2.machine.retraced [] true = (run 0 opened).2.machine.retraced [] true ∧
      (run level true).1.trace = linesText (run level true).2.machine.trace) ∧
    (run 1 true).2.machine.trace = [] ∧
    (∀ level, 3 ≤ level → (run level true).2.machine.trace = (run 3 true).2.machine.trace) ∧
    (run 2 true).2.machine.trace =
      (run 3 true).2.machine.trace.filter Trace.isDeclaration := by
  intro run
  obtain ⟨result, m, hrun⟩ := s.runSource_withTrace hclean
  have htraced (level : Nat) : run level true = _ := hrun level true fun _ => rfl
  have huntraced : run 0 opened = _ := hrun 0 opened nofun
  have hall (level : Nat) (hlevel : 3 ≤ level) : m.trace.filter (Trace.keeps level) = m.trace :=
    List.filter_eq_self.2 fun line _ => Trace.keeps_eq_true hlevel line
  refine ⟨fun level => ?_, ?_, fun level hlevel => ?_, ?_⟩
  · rw [htraced, huntraced]
    exact ⟨rfl, rfl, rfl, rfl⟩
  · rw [htraced]
    exact List.filter_eq_nil_iff.2 fun _ _ => Bool.false_ne_true
  · rw [htraced, htraced]
    exact (hall level hlevel).trans (hall 3 (Nat.le_refl 3)).symm
  · rw [htraced, htraced]
    change m.trace.filter (Trace.keeps 2) = (m.trace.filter (Trace.keeps 3)).filter _
    rw [hall 3 (Nat.le_refl 3)]
    exact List.filter_congr fun line _ => Trace.keeps_two line

-- of the two lines at level 3, one tells of a declaration
example : (((Session.start ⟨0, .absent, fun _ => 0, 100, 100⟩).withTrace 2 true).runSource
    "var x = \"a\"; if (x) print x;").2.machine.trace = ["declare x = a"] := by decide +kernel

end Scriptlet
