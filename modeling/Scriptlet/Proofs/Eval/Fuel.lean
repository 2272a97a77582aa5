import Scriptlet.Eval.Run

/-!
# More fuel changes nothing but what fuel cut short

The fuel of a loop bounds its turns, and a run in which a loop spends it ends unfinished. A run that
does not end so is the same with more fuel. A program therefore either stays unfinished with any
amount of fuel, which is to say that it runs forever, or has one result that every large enough
amount of fuel leads to.

## Main definitions

* `Settings.withTurns` — the settings with another amount of fuel
* `Eval.Approximates` — one step agrees with another unless its fuel is spent
* `Eval.RunsForever`, `Eval.EndsWith` — what a program does when fuel plays no part

## Main results

* `Eval.approximates_interpret` — programs with less fuel approximate themselves with more
* `Eval.runsForever_or_endsWith` — every program runs forever or ends
-/

namespace Scriptlet

/-- The settings with another amount of fuel. -/
def Settings.withTurns (settings : Settings) (turns : Nat) : Settings := { settings with turns }

namespace Eval

/-- The first step spends its fuel, or does what the second does. -/
def Approximates {α : Type} (step step' : Eval α) : Prop :=
  ∀ m, (∃ m', step m = .error .unfinished m') ∨ step m = step' m

variable {α β : Type} {step step' : Eval α}

namespace Approximates

theorem refl (step : Eval α) : Approximates step step := fun _ => .inr rfl

theorem bind {f f' : α → Eval β} (h : Approximates step step')
    (hf : ∀ a, Approximates (f a) (f' a)) : Approximates (step >>= f) (step' >>= f') := by
  intro m
  change (∃ m', EStateM.bind step f m = .error .unfinished m') ∨
    EStateM.bind step f m = EStateM.bind step' f' m
  simp only [EStateM.bind]
  -- once the fuel is spent nothing more happens
  obtain ⟨m', hspent⟩ | hsame := h m
  · exact .inl ⟨m', by rw [hspent]⟩
  · rw [← hsame]
    cases step m with
    | ok a m' => exact hf a m'
    | error abort m' => exact .inr rfl

theorem ite {p : Prop} [Decidable p] {other other' : Eval α} (h : Approximates step step')
    (hother : Approximates other other') :
    Approximates (if p then step else other) (if p then step' else other') := by
  split
  · exact h
  · exact hother

theorem overflowAt (h : Approximates step step') (t : Token) :
    Approximates (overflowAt t step) (overflowAt t step') := by
  intro m
  simp only [Eval.overflowAt]
  obtain ⟨m', hspent⟩ | hsame := h m
  · exact .inl ⟨m', by rw [hspent]⟩
  · exact .inr (by rw [hsame])

/-! ### Loops -/

theorem runEach {run run' : Tree → Eval (Option Signal)} (h : ∀ s, Approximates (run s) (run' s))
    (statements : List Tree) : Approximates (runEach run statements) (runEach run' statements) := by
  induction statements with
  | nil => exact refl _
  | cons s rest ih =>
    refine (h s).bind fun signal => ?_
    cases signal with
    | some signal => exact refl _
    | none => exact ih

theorem evalEach {evaluate evaluate' : Tree → Eval Value}
    (h : ∀ e, Approximates (evaluate e) (evaluate' e)) (expressions : List Tree) :
    Approximates (evalEach evaluate expressions) (evalEach evaluate' expressions) := by
  induction expressions with
  | nil => exact refl _
  | cons e rest ih => exact (h e).bind fun v => ih.bind fun vs => refl _

/-- The one place where fuel is spent: a loop that ends within `n` turns ends the same way with
more. -/
theorem untilSome {turn turn' : Eval (Option α)} (h : Approximates turn turn') {n n' : Nat}
    (hn : n ≤ n') : Approximates (untilSome turn n) (untilSome turn' n') := by
  induction n generalizing n' with
  -- no turn is granted, so the fuel is spent
  | zero => exact fun m => .inl ⟨m, rfl⟩
  | succ n ih =>
    obtain ⟨n', rfl⟩ := Nat.exists_eq_add_of_le' (Nat.one_le_of_lt hn)
    refine h.bind fun result => ?_
    cases result with
    | some a => exact refl _
    | none => exact ih (Nat.le_of_succ_le_succ hn)

theorem whileTurn {condition condition' : Eval Value} {body body' : Eval (Option Signal)}
    (hcondition : Approximates condition condition') (hbody : Approximates body body') :
    Approximates (whileTurn condition body) (whileTurn condition' body') :=
  hcondition.bind fun _ => (hbody.bind fun _ => refl _).ite (refl _)

end Approximates

/-! ### Statements, expressions and calls -/

variable {settings : Settings} {n n' d : Nat}

/-- Everything that runs with `d` units of stack left approximates itself with more fuel. -/
structure ApproximatesAt (settings : Settings) (n n' d : Nat) : Prop where
  exec (t : Tree) (scope : Nat) :
    Approximates (exec (settings.withTurns n) d t scope) (exec (settings.withTurns n') d t scope)
  execBlock (t : Tree) (scope : Nat) :
    Approximates (execBlock (settings.withTurns n) d t scope)
      (execBlock (settings.withTurns n') d t scope)
  eval (t : Tree) (scope : Nat) :
    Approximates (eval (settings.withTurns n) d t scope) (eval (settings.withTurns n') d t scope)
  evalArgs (t : Tree) (scope : Nat) :
    Approximates (evalArgs (settings.withTurns n) d t scope)
      (evalArgs (settings.withTurns n') d t scope)
  call (f : Value) (args : List Value) (paren : Token) :
    Approximates (call (settings.withTurns n) d f args paren)
      (call (settings.withTurns n') d f args paren)

namespace ApproximatesAt

theorem exec_succ (h : ApproximatesAt settings n n' d) (hn : n ≤ n') (t : Tree) (scope : Nat) :
    Approximates (Eval.exec (settings.withTurns n) (d + 1) t scope)
      (Eval.exec (settings.withTurns n') (d + 1) t scope) := by
  cases t with
  | exprStmt e =>
    simp only [Eval.exec]
    exact (h.eval e scope).bind fun _ => .refl _
  | printStmt e =>
    simp only [Eval.exec]
    exact (h.eval e scope).bind fun _ => .refl _
  | varDecl name e =>
    simp only [Eval.exec]
    exact .ite (.refl _) ((h.eval e scope).bind fun _ => .refl _)
  | block statements =>
    simp only [Eval.exec]
    exact (Approximates.refl _).bind fun inner => h.execBlock statements inner
  | ifStmt condition thenBranch elseBranch =>
    simp only [Eval.exec]
    refine (h.eval condition scope).bind fun v => (Approximates.refl _).bind fun _ => ?_
    exact (h.exec thenBranch scope).ite (.ite (.refl _) (h.exec elseBranch scope))
  -- the only statement that looks at the fuel itself
  | whileStmt condition body =>
    simp only [Eval.exec]
    exact .untilSome (.whileTurn (h.eval condition scope) (h.exec body scope)) hn
  | forStmt =>
    simp only [Eval.exec]
    exact h.exec _ scope
  | returnStmt keyword e =>
    simp only [Eval.exec]
    exact .ite (.refl _) ((h.eval e scope).bind fun _ => .refl _)
  | _ =>
    simp only [Eval.exec]
    exact .refl _

theorem eval_succ (h : ApproximatesAt settings n n' d) (t : Tree) (scope : Nat) :
    Approximates (Eval.eval (settings.withTurns n) (d + 1) t scope)
      (Eval.eval (settings.withTurns n') (d + 1) t scope) := by
  cases t with
  | grouping e =>
    simp only [Eval.eval]
    exact h.eval e scope
  | assign name e =>
    simp only [Eval.eval]
    exact (h.eval e scope).bind fun _ => .refl _
  | logical left op right =>
    simp only [Eval.eval]
    exact (h.eval left scope).bind fun _ => .ite (.refl _) (h.eval right scope)
  | unary op e =>
    simp only [Eval.eval]
    exact (h.eval e scope).bind fun _ => .refl _
  | binary left op right =>
    simp only [Eval.eval]
    exact (h.eval left scope).bind fun _ => (h.eval right scope).bind fun _ => .refl _
  | call callee paren arguments =>
    simp only [Eval.eval]
    refine (h.eval callee scope).bind fun f => (h.evalArgs arguments scope).bind fun args => ?_
    exact h.call f args paren
  | index target bracket index =>
    simp only [Eval.eval]
    exact (h.eval target scope).bind fun _ => (h.eval index scope).bind fun _ => .refl _
  | assignIndex target bracket index value =>
    cases target with
    | varRef name =>
      simp only [Eval.eval]
      refine (Approximates.refl _).bind fun _ => (h.eval index scope).bind fun _ => ?_
      exact (h.eval value scope).bind fun _ => .refl _
    | _ =>
      simp only [Eval.eval]
      exact .refl _
  | _ =>
    simp only [Eval.eval]
    exact .refl _

theorem call_succ (h : ApproximatesAt settings n n' d) (f : Value) (args : List Value)
    (paren : Token) :
    Approximates (Eval.call (settings.withTurns n) (d + 1) f args paren)
      (Eval.call (settings.withTurns n') (d + 1) f args paren) := by
  cases f with
  | tree t =>
    simp only [Eval.call]
    exact .refl _
  | native n =>
    simp only [Eval.call]
    exact .refl _
  | closure c =>
    simp only [Eval.call]
    refine (Approximates.refl _).bind fun params => (Approximates.refl _).bind fun _ => ?_
    refine (Approximates.refl _).bind fun _ => (Approximates.refl _).bind fun scope => ?_
    refine (Approximates.refl _).bind fun _ => ?_
    exact ((h.execBlock c.body scope).overflowAt paren).bind fun _ => .refl _

end ApproximatesAt

theorem approximatesAt (settings : Settings) (hn : n ≤ n') (d : Nat) :
    ApproximatesAt settings n n' d := by
  induction d with
  -- without stack all of them end at once, in the same way
  | zero =>
    constructor <;> intros
    · simp only [exec]; exact .refl _
    · simp only [execBlock]; exact .refl _
    · simp only [eval]; exact .refl _
    · simp only [evalArgs]; exact .refl _
    · simp only [call]; exact .refl _
  | succ d ih =>
    constructor
    · exact ih.exec_succ hn
    · intro t scope
      simp only [execBlock]
      exact (Approximates.refl _).bind fun items => .runEach (fun s => ih.exec s scope) items
    · exact ih.eval_succ
    · intro t scope
      simp only [evalArgs]
      exact (Approximates.refl _).bind fun items => .evalEach (fun e => ih.eval e scope) items
    · exact ih.call_succ

/-- A program that does not spend its fuel does the same with more. -/
theorem approximates_interpret (settings : Settings) (hn : n ≤ n') (statements : List Tree) :
    Approximates (interpret (settings.withTurns n) statements)
      (interpret (settings.withTurns n') statements) := by
  induction statements with
  | nil => exact .refl _
  | cons s rest ih =>
    have hone : Approximates (interpretOne (settings.withTurns n) s)
        (interpretOne (settings.withTurns n') s) :=
      ((approximatesAt settings hn settings.depth).exec s Machine.globalScope).bind fun _ => .refl _
    exact hone.bind fun _ => ih

/-! ### Runs without regard to fuel -/

/-- The program is unfinished however many turns its loops may take. -/
def RunsForever (settings : Settings) (statements : List Tree) (m : Machine) : Prop :=
  ∀ n, ∃ m', interpret (settings.withTurns n) statements m = .error .unfinished m'

/-- The program comes to this result as soon as there is enough fuel. -/
def EndsWith (settings : Settings) (statements : List Tree) (m : Machine)
    (result : EStateM.Result Abort Machine Unit) : Prop :=
  ∃ n, ∀ n', n ≤ n' → interpret (settings.withTurns n') statements m = result

/-- A result that was come to without spending the fuel is the one that more fuel leads to. -/
theorem endsWith_of_ne_unfinished {statements : List Tree} {m : Machine}
    (h : ∀ m', interpret (settings.withTurns n) statements m ≠ .error .unfinished m') :
    EndsWith settings statements m (interpret (settings.withTurns n) statements m) := by
  refine ⟨n, fun n' hle => ?_⟩
  have hagree := approximates_interpret settings hle statements m
  exact (hagree.resolve_left fun ⟨m', hspent⟩ => h m' hspent).symm

/-- A program runs forever or ends, for another reason than that of spent fuel. -/
theorem runsForever_or_endsWith (settings : Settings) (statements : List Tree) (m : Machine) :
    RunsForever settings statements m ∨
      ∃ n, EndsWith settings statements m (interpret (settings.withTurns n) statements m) ∧
        ∀ m', interpret (settings.withTurns n) statements m ≠ .error .unfinished m' := by
  by_cases hforever : RunsForever settings statements m
  · exact .inl hforever
  -- some amount of fuel is not spent, and more leads to the same result
  · obtain ⟨n, hn⟩ := Classical.not_forall.1 hforever
    have hne : ∀ m', interpret (settings.withTurns n) statements m ≠ .error .unfinished m' :=
      fun m' heq => hn ⟨m', heq⟩
    exact .inr ⟨n, endsWith_of_ne_unfinished hne, hne⟩

end Eval

end Scriptlet
