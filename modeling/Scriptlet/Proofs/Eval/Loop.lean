import Scriptlet.Proofs.Eval.Frame
import Scriptlet.Proofs.Eval.Lockstep
import Scriptlet.Proofs.Eval.Progress

/-!
# What a `for` loop means

A `for` loop is run as the block that stands for it: the initializer, and a `while` loop whose body
is a block again, of the body and the increment. This inner block makes a scope of its own in each
turn, of which the loop that was written knows nothing. It means the same nevertheless: the scope is
hollow, as the body declares nothing in it, and folding it away leaves the loop as one reads it,
with one scope for all turns.

The body must not declare anything in the scope it runs in, or the increment would see it. No loop
that the parser builds has such a body.

## Main definitions

* `Eval.execFor` — a `for` loop, run directly

## Main results

* `Parse.yields_forStatement` — the bodies of loops that the parser builds declare nothing
* `Eval.Reached.closed` — the states that programs lead to have closed heaps
* `Eval.exec_desugarFor` — the block that stands for a `for` loop does what the loop does
-/

namespace Scriptlet

/-! ### Loops that the parser builds -/

namespace Parse

variable {α β : Type} {p : Parse α} {P : α → Prop} {Q : β → Prop}

/-- Whatever the step returns satisfies `P`. -/
def Yields (p : Parse α) (P : α → Prop) : Prop := ∀ s a s', p s = .ok a s' → P a

theorem yields_any (p : Parse α) : Yields p fun _ => True := fun _ _ _ _ => trivial

theorem yields_pure {a : α} (h : P a) : Yields (pure a) P := by
  intro s b s' hb
  cases hb
  exact h

theorem Yields.bind {f : α → Parse β} (h : Yields p P) (hf : ∀ a, P a → Yields (f a) Q) :
    Yields (p >>= f) Q := by
  intro s b s' hb
  rw [bind_apply] at hb
  cases hp : p s with
  | ok a mid =>
    rw [hp] at hb
    exact hf a (h s a mid hp) mid b s' hb
  | error e mid =>
    rw [hp] at hb
    cases hb

theorem Yields.seq {f : α → Parse β} (p : Parse α) (hf : ∀ a, Yields (f a) Q) :
    Yields (p >>= f) Q :=
  (yields_any p).bind fun a _ => hf a

section Statement

variable {expression statement : Parse Tree} {block : Parse (List Tree)}

theorem yields_ifStatement (h : Yields statement fun t => t.declaresNothing = true) :
    Yields (ifStatement expression statement) fun t => t.declaresNothing = true := by
  refine .seq _ fun _ => .seq _ fun condition => .seq _ fun _ => h.bind fun thenBranch hthen => ?_
  refine .seq _ fun other => ?_
  have hboth {elseBranch : Tree} (helse : elseBranch.declaresNothing = true) :
      Yields (pure (Tree.ifStmt condition thenBranch elseBranch) : Parse Tree) fun t =>
        t.declaresNothing = true :=
    yields_pure (Bool.and_eq_true_iff.2 ⟨hthen, helse⟩)
  cases other with
  | none => exact hboth rfl
  | some _ => exact h.bind fun elseBranch helse => hboth helse

theorem yields_forStatement (h : Yields statement fun t => t.declaresNothing = true) :
    Yields (forStatement expression statement) fun t =>
      ∃ initializer condition increment body,
        t = .desugarFor initializer condition increment body ∧ body.declaresNothing = true := by
  refine .seq _ fun _ => .seq _ fun _ => .seq _ fun _ => .seq _ fun _ => .seq _ fun _ => ?_
  exact .seq _ fun _ => h.bind fun body hbody => yields_pure ⟨_, _, _, _, rfl, hbody⟩

theorem yields_statementWith (h : Yields statement fun t => t.declaresNothing = true) :
    Yields (statementWith expression statement block) fun t => t.declaresNothing = true := by
  refine .seq _ fun key => ?_
  cases key with
  | none => exact .seq _ fun _ => .seq _ fun _ => yields_pure rfl
  | some key =>
    dsimp only
    split
    · exact .seq _ fun _ => .seq _ fun _ => yields_pure rfl
    · exact yields_ifStatement h
    · exact .seq _ fun _ => .seq _ fun _ => .seq _ fun _ => h.bind fun _ hbody => yields_pure hbody
    · intro s t s' ht
      obtain ⟨_, _, _, _, rfl, -⟩ := yields_forStatement h s t s' ht
      rfl
    · exact .seq _ fun _ => .seq _ fun _ => yields_pure rfl
    · exact .seq _ fun _ => yields_pure rfl

end Statement

/-- Statements that the parser returns declare nothing in the scope they run in. -/
theorem yields_statement (d : Nat) : Yields (statement d) fun t => t.declaresNothing = true := by
  induction d with
  | zero =>
    intro s t s' ht
    cases ht
  | succ d ih => exact yields_statementWith ih

end Parse

namespace Eval

/-! ### Closed heaps -/

variable {places : List Nat} {settings : Settings}

/-- What two runs that end alike leave behind. -/
theorem EndsAlike.finalState {α β : Type} {Q : List Nat → α → β → Prop}
    {r : EStateM.Result Abort Machine α} {r' : EStateM.Result Abort Machine β}
    (h : EndsAlike places Q r r') :
    ∃ later, places <+: later ∧ (finalState r).Folds later (finalState r') := by
  cases h with
  | ok hlater hm _ => exact ⟨_, hlater, hm⟩
  | error hlater hm => exact ⟨_, hlater, hm⟩

/-- Programs follow, as the global scope is never hollow. -/
theorem follows_interpret (hglobal : places[Machine.globalScope]? = some Machine.globalScope)
    (statements : List Tree) :
    Follows places (interpret settings statements) (interpret settings statements)
      fun _ _ _ => True := by
  have hleads : Leads places Machine.globalScope Machine.globalScope := ⟨hglobal, nofun⟩
  induction statements with
  | nil => exact follows_pure fun _ _ => trivial
  | cons s rest ih =>
    refine Follows.seq (Q := fun _ _ _ => True) ?_ ih
    rw [interpretOne]
    refine ((followsAt settings _).exec s hglobal (.inl hleads)).bind fun later r r' _ hr => ?_
    cases hr with
    | none => exact follows_pure fun _ _ => trivial
    | @some signal signal' hsignal =>
      dsimp only
      rw [hsignal.1]
      exact follows_failAt _ _

/-- The heap that every program starts with is closed. -/
theorem closed_freshHeap : Machine.freshHeap.Closed := by
  have hscopes : Machine.freshHeap.scopes =
      #[{ parent := none, bindings := Native.all.map fun n => (.text n.name, .native n) }] := rfl
  constructor
  · intro i p s hs hp
    rw [hscopes] at hs
    cases i with
    | zero =>
      cases hs
      cases hp
    | succ i => cases hs
  · intro i s x c hs hc
    rw [hscopes] at hs
    cases i with
    | zero =>
      cases hs
      obtain ⟨n, -, hn⟩ := List.mem_map.1 hc
      cases hn
    | succ i => cases hs

/-- The states that programs lead to have closed heaps, with at least the global scope. -/
theorem Reached.closed {ops : Operators} {m : Machine} (h : Reached ops m) :
    m.heap.Closed ∧ 0 < m.heap.scopes.size := by
  induction h with
  | fresh => exact ⟨closed_freshHeap, (by decide : 0 < Machine.freshHeap.scopes.size)⟩
  | @run m statements settings _ _ ih =>
    obtain ⟨hclosed, hsize⟩ := ih
    -- a run follows itself, and what is left behind is folded into itself
    have hglobal : (List.range m.heap.scopes.size)[Machine.globalScope]? =
        some Machine.globalScope := List.getElem?_range hsize
    have hrun := (follows_interpret hglobal statements : Follows _ (interpret settings _) _ _)
      _ List.prefix_rfl m m (.intro hclosed.folds)
    obtain ⟨later, hlater, hfinal⟩ := hrun.finalState
    rw [show stateAfter (interpret settings statements m) =
      finalState (interpret settings statements m) by cases interpret settings statements m <;> rfl]
    refine ⟨hfinal.heap.closed, Nat.lt_of_lt_of_le hsize ?_⟩
    rw [hfinal.heap.size]
    simpa using hlater.length_le
  | flush _ _ _ _ ih => exact ih

/-! ### The loop that was written -/

/-- A statement and, unless it ends with a return signal, an expression behind it. -/
def andThen (body : Eval (Option Signal)) (increment : Eval Value) : Eval (Option Signal) := do
  match ← body with
  | some signal => return some signal
  | none => do
    let _ ← increment
    return none

/-- The condition of a `for` loop; if it is missing, it always holds. -/
def forCondition (settings : Settings) (d : Nat) (condition : Tree) (scope : Nat) : Eval Value :=
  if condition.isNull then return .bool true else eval settings d condition scope

/-- The body of a `for` loop and its increment, if it has one. -/
def forBody (settings : Settings) (d : Nat) (increment body : Tree) (scope : Nat) :
    Eval (Option Signal) :=
  if increment.isNull then exec settings d body scope
  else andThen (exec settings (d - 2) body scope) (eval settings (d - 3) increment scope)

/-- A `for` loop, run directly. A scope is made for all its turns, and the initializer is run in it.
Then, as long as the condition holds, the body is run and the increment evaluated, all in that
scope. A return in the body skips the increment and ends the loop.

The parts are granted the stack that they have in the block that stands for the loop: the condition
has `d` units, and the body has two less if there is an increment. -/
def execFor (settings : Settings) (d : Nat) (initializer condition increment body : Tree)
    (scope : Nat) : Eval (Option Signal) := do
  let inner ← newScope scope
  let begun ← if initializer.isNull then pure none else exec settings (d + 1) initializer inner
  match begun with
  | some signal => return some signal
  | none =>
    untilSome (whileTurn (forCondition settings d condition inner)
      (forBody settings d increment body inner)) settings.turns

/-! ### The block that stands for it -/

section Loop

variable {i j d : Nat} {initializer condition increment body : Tree}

theorem execBlock_list (d : Nat) (items : List Tree) (scope : Nat) :
    execBlock settings (d + 1) (.list items) scope =
      runEach (fun s => exec settings d s scope) items := by
  rw [execBlock]
  rfl

theorem runEach_singleton (run : Tree → Eval (Option Signal)) (s : Tree) :
    runEach run [s] = run s := by
  conv_rhs => rw [← bind_pure (run s)]
  refine bind_congr fun r => ?_
  cases r <;> rfl

/-- Without stack for its body, a loop gets no further. -/
theorem andThen_tooDeep (step : Eval Value) (t : Tree) (scope : Nat) :
    andThen (exec settings 0 t scope) step = throw .tooDeep := by
  rw [exec]
  rfl

/-- The block of body and increment makes a scope in each turn, which is hollow. -/
theorem follows_forBody (hi : Leads places i j) (hbody : body.declaresNothing = true) (d : Nat) :
    Follows places
      (exec settings d
        (if increment.isNull then body else .block (.list [body, .exprStmt increment])) i)
      (forBody settings d increment body j) SignalMoved := by
  rw [forBody]
  split
  · exact (followsAt settings d).exec body hi.place (.inl hi)
  · match d with
    | 0 =>
      rw [Nat.zero_sub, andThen_tooDeep, exec]
      exact follows_throw _
    | 1 =>
      rw [Nat.sub_eq_zero_of_le (Nat.le_succ 1), andThen_tooDeep, exec]
      refine follows_hollow hi.place fun later inner _ hinner => ?_
      rw [execBlock]
      exact follows_throw _
    | d + 2 =>
      rw [exec]
      refine follows_hollow hi.place fun later inner _ hinner => ?_
      rw [execBlock_list]
      have hrun := (followsAt settings d).exec body hinner (.inr hbody)
      refine hrun.bind fun next r r' hnext hr => ?_
      have hplace := place_later hnext hinner
      cases hr with
      | some hsignal => exact follows_some hsignal.1 hsignal.2
      | none =>
        dsimp only
        rw [runEach_singleton]
        cases d with
        | zero =>
          rw [exec, eval]
          exact follows_throw _
        | succ d =>
          rw [exec]
          exact ((followsAt settings d).eval increment hplace).seq follows_none

/-- The turns of the two loops follow each other. -/
theorem follows_forTurn (hi : Leads places i j) (hbody : body.declaresNothing = true) (d : Nat) :
    Follows places
      (whileTurn
        (eval settings d
          (if condition.isNull then .literal (.atom (.bool true)) else condition) i)
        (exec settings d
          (if increment.isNull then body else .block (.list [body, .exprStmt increment])) i))
      (whileTurn (forCondition settings d condition j) (forBody settings d increment body j))
      fun later => Option.Rel (SignalMoved later) := by
  have hturn : Follows places _ (forBody settings d increment body j) SignalMoved :=
    follows_forBody hi hbody d
  rw [forCondition]
  split
  · match d with
    -- there is no stack for the condition, and so there is none for the body
    | 0 =>
      have hnone : forBody settings 0 increment body j = throw .tooDeep := by
        rw [forBody, Nat.zero_sub, andThen_tooDeep, exec, ite_self]
      rw [hnone, eval]
      exact follows_throw _
    | d + 1 =>
      rw [eval]
      exact .whileTurn (follows_value (.tree _)) hturn
  · exact .whileTurn ((followsAt settings d).eval condition hi.place) hturn

/-- The block that stands for a `for` loop follows the loop. -/
theorem follows_desugarFor (hi : places[i]? = some j) (hbody : body.declaresNothing = true) :
    Follows places (exec settings (d + 3) (.desugarFor initializer condition increment body) i)
      (execFor settings d initializer condition increment body j) SignalMoved := by
  simp only [Tree.desugarFor]
  rw [exec, execFor]
  refine (follows_newScope hi).bind fun later inner inner' _ hinner => ?_
  have hloop {next : List Nat} (hnext : later <+: next) :
      Follows next
        (exec settings (d + 1) (.whileStmt
          (if condition.isNull then .literal (.atom (.bool true)) else condition)
          (if increment.isNull then body else .block (.list [body, .exprStmt increment]))) inner)
        (untilSome (whileTurn (forCondition settings d condition inner')
          (forBody settings d increment body inner')) settings.turns) SignalMoved := by
    rw [exec]
    exact .untilSome (follows_forTurn (hinner.mono hnext) hbody d) settings.turns
  rw [execBlock_list]
  split
  · rw [runEach_singleton]
    exact hloop List.prefix_rfl
  · have hbegun := (followsAt settings (d + 1)).exec initializer hinner.place (.inl hinner)
    refine hbegun.bind fun next r r' hnext hr => ?_
    cases hr with
    | some hsignal => exact follows_some hsignal.1 hsignal.2
    | none =>
      dsimp only
      rw [runEach_singleton]
      exact hloop hnext

/-- The block that stands for a `for` loop does what the loop does. Let the body of the loop declare
nothing in the scope it runs in; no loop that the parser builds has another body. Run from any state
with a closed heap and in any of its scopes, the block and the loop both end normally, both with the
same return signal or both early for the same reason. They print and trace the same, and every scope
that was there before is left with the same bindings, but for the numbers of the scopes that were
made since. -/
theorem exec_desugarFor (settings : Settings) (d : Nat)
    (initializer condition increment body : Tree) {scope : Nat} {m : Machine}
    (hbody : body.declaresNothing = true) (hm : m.heap.Closed)
    (hscope : scope < m.heap.scopes.size) :
    let block := exec settings (d + 3) (.desugarFor initializer condition increment body) scope m
    let loop := execFor settings d initializer condition increment body scope m
    EndsAlike (List.range m.heap.scopes.size) SignalMoved block loop ∧
    (∃ places, List.range m.heap.scopes.size <+: places ∧
      finalState loop = { finalState block with heap := (finalState loop).heap } ∧
      ∀ i < m.heap.scopes.size, ∃ s s', (finalState block).heap.scopes[i]? = some s ∧
        (finalState loop).heap.scopes[i]? = some s' ∧
        BindingsMoved places s.bindings s'.bindings) ∧
    ∀ (expression : Parse Tree) (d : Nat),
      (Parse.forStatement expression (Parse.statement d)).Yields fun t =>
        ∃ initializer condition increment body,
          t = .desugarFor initializer condition increment body ∧ body.declaresNothing = true := by
  intro block loop
  have hstart : (List.range m.heap.scopes.size)[scope]? = some scope := List.getElem?_range hscope
  have halike : EndsAlike (List.range m.heap.scopes.size) SignalMoved block loop :=
    follows_desugarFor hstart hbody _ List.prefix_rfl m m (.intro hm.folds)
  obtain ⟨places, hplaces, hfinal⟩ := halike.finalState
  refine ⟨halike, ⟨places, hplaces, hfinal.rest, fun i hi => hfinal.heap.kept hplaces hi⟩, ?_⟩
  exact fun expression d => Parse.yields_forStatement (Parse.yields_statement d)

/-- A loop of one turn, whose body declares a function that prints the variable of the loop. -/
theorem exec_desugarFor_closure :
    let name (s : String) : Token := .make .identifier s .null 1
    let flag (b : Bool) : Tree := .literal (.atom (.bool b))
    let settings : Settings := { traceLevel := 0, hook := .absent, clock := fun _ => 0, turns := 5 }
    let body : Tree := .block (.list
      [.funDecl (name "f") (.list []) (.list [.printStmt (.varRef (name "i"))]),
        .exprStmt (.call (.varRef (name "f")) (name ")") (.list []))])
    let loop := execFor settings 20 (.varDecl (name "i") (flag true)) (.varRef (name "i"))
      (.assign (name "i") (flag false)) body Machine.globalScope (.fresh 0)
    body.declaresNothing = true ∧ (finalState loop).output = ["true"] := by
  intro name flag settings body loop
  obtain ⟨hclosed, hsize⟩ := (Reached.fresh 0 : Reached .any _).closed
  obtain ⟨-, ⟨_, -, hfinal, -⟩, -⟩ := exec_desugarFor settings 20 (.varDecl (name "i") (flag true))
    (.varRef (name "i")) (.assign (name "i") (flag false)) body rfl hclosed hsize
  have houtput := congrArg Machine.output hfinal
  exact ⟨rfl, houtput.trans (by decide +kernel)⟩

end Loop

end Eval

end Scriptlet
