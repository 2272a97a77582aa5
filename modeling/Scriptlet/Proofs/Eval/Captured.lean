import Scriptlet.Proofs.Eval.Discipline

/-!
# Captured variables are private

What runs in a scope gets to the scopes in reach of it: itself, the parents of scopes in reach, and
the scopes of the functions that scopes in reach bind. The variables of all other scopes are out of
its hands. A counter that a function keeps in its captured scope is an example: only who can get
hold of the function can change it.

To say this of all moments of an execution, and not only of its end, the execution is taken apart
into the tasks that it consists of. A value is stored by the last step of a task or, if it is an
argument, by the steps before a task, so that the states in which tasks start and end show all that
is ever stored.

## Main definitions

* `Heap.Reach` — the scopes in reach of a scope
* `Eval.Task`, `Eval.Task.parts`, `Eval.Task.During` — the tasks that an execution consists of
* `Machine.Accessible` — a scope was in reach, or was made since
* `Machine.reaching` — the discipline of what runs in a scope

## Main results

* `Eval.Task.During.obeys` — disciplines are obeyed all along an execution
* `Eval.captured_variables_are_private` — scopes out of reach stay as they are, and functions of
  such scopes are neither stored nor returned
-/

namespace Scriptlet

/-- The scopes in reach of scope `e`: itself, the parents of scopes in reach, and the scopes of the
declared functions that scopes in reach bind. -/
inductive Heap.Reach (h : Heap Value) (e : Nat) : Nat → Prop
  | self : Reach h e e
  | parent {i p : Nat} {s : Scope Value} : Reach h e i → h.scopes[i]? = some s →
      s.parent = some p → Reach h e p
  | captured {i : Nat} {s : Scope Value} {x : Atom} {c : Closure} : Reach h e i →
      h.scopes[i]? = some s → (x, .closure c) ∈ s.bindings → Reach h e c.scope

namespace Eval

/-! ### The parts of an execution -/

/-- What the evaluator runs, with the units of stack that are left for it. -/
inductive Task
  | exec (d : Nat) (t : Tree) (scope : Nat)
  | execBlock (d : Nat) (t : Tree) (scope : Nat)
  /-- The statements of a block that are still to run. -/
  | statements (d : Nat) (items : List Tree) (scope : Nat)
  /-- A `while` loop that may still take some turns. -/
  | loop (turns d : Nat) (condition body : Tree) (scope : Nat)
  | eval (d : Nat) (t : Tree) (scope : Nat)
  | evalArgs (d : Nat) (t : Tree) (scope : Nat)
  /-- The arguments of a call that are still to be evaluated. -/
  | arguments (d : Nat) (items : List Tree) (scope : Nat)
  | call (d : Nat) (f : Value) (args : List Value) (paren : Token)

namespace Task

/-- The value that a statement returns, if it returns one. -/
def signalled (result : Option Signal) : List Value := result.toList.map (·.value)

/-- Runs a task and yields the values that come out of it. -/
def run (settings : Settings) : Task → Eval (List Value)
  | exec d t scope => return signalled (← Eval.exec settings d t scope)
  | execBlock d t scope => return signalled (← Eval.execBlock settings d t scope)
  | statements d items scope => return signalled (← runEach (Eval.exec settings d · scope) items)
  | loop turns d condition body scope => do
    let turn :=
      whileTurn (Eval.eval settings d condition scope) (Eval.exec settings d body scope)
    return signalled (← untilSome turn turns)
  | eval d t scope => return [← Eval.eval settings d t scope]
  | evalArgs d t scope => Eval.evalArgs settings d t scope
  | arguments d items scope => evalEach (Eval.eval settings d · scope) items
  | call d f args paren => return [← Eval.call settings d f args paren]

/-- The tasks that a statement consists of, each behind the steps that are taken before it. There is
no task where these steps leave nothing to do. -/
def execParts (settings : Settings) (d scope : Nat) : Tree → List (Eval (Option Task))
  | .exprStmt e => [return eval d e scope]
  | .printStmt e => [return eval d e scope]
  | .varDecl _ e => [return if e.isNull then none else eval d e scope]
  | .block ss => [return execBlock d ss (← newScope scope)]
  | .ifStmt condition thenBranch elseBranch =>
    [return eval d condition scope,
      do
        let v ← Eval.eval settings d condition scope
        traceLine settings 3 fun _ => conditionTrace v
        if v.isTruthy then return exec d thenBranch scope
        else if elseBranch.isNull then return none
        else return exec d elseBranch scope]
  | .whileStmt condition body => [return loop settings.turns d condition body scope]
  | .forStmt initializer condition increment body =>
    [return exec d (.desugarFor initializer condition increment body) scope]
  | .returnStmt _ e => [return if e.isNull then none else eval d e scope]
  | _ => []

/-- The tasks that an expression consists of. -/
def evalParts (settings : Settings) (d scope : Nat) : Tree → List (Eval (Option Task))
  | .grouping e => [return eval d e scope]
  | .assign _ e => [return eval d e scope]
  | .unary _ e => [return eval d e scope]
  | .logical left op right =>
    [return eval d left scope,
      do
        let v ← Eval.eval settings d left scope
        if v.isTruthy == (op.kind == .orKey) then return none else return eval d right scope]
  | .binary left _ right =>
    [return eval d left scope,
      do
        let _ ← Eval.eval settings d left scope
        return eval d right scope]
  | .call callee paren args =>
    [return eval d callee scope,
      do
        let _ ← Eval.eval settings d callee scope
        return evalArgs d args scope,
      do
        let f ← Eval.eval settings d callee scope
        let vs ← Eval.evalArgs settings d args scope
        return call d f vs paren]
  | .index target _ index =>
    [return eval d target scope,
      do
        let _ ← Eval.eval settings d target scope
        return eval d index scope]
  | .assignIndex (.varRef name) _ index value =>
    [do
        let _ ← read scope name
        return eval d index scope,
      do
        let _ ← read scope name
        let _ ← Eval.eval settings d index scope
        return eval d value scope]
  | _ => []

/-- The tasks that a task consists of. -/
def parts (settings : Settings) : Task → List (Eval (Option Task))
  | exec (d + 1) t scope => execParts settings d scope t
  | eval (d + 1) t scope => evalParts settings d scope t
  | execBlock (d + 1) t scope => [return statements d (← itemsOf t) scope]
  | statements d (s :: rest) scope =>
    [return exec d s scope,
      do
        match ← Eval.exec settings d s scope with
        | some _ => return none
        | none => return statements d rest scope]
  | loop (turns + 1) d condition body scope =>
    [return eval d condition scope,
      do
        let v ← Eval.eval settings d condition scope
        if v.isTruthy then return exec d body scope else return none,
      do
        let ended ← whileTurn (Eval.eval settings d condition scope)
          (Eval.exec settings d body scope)
        if ended.isSome then return none else return loop turns d condition body scope]
  | evalArgs (d + 1) t scope => [return arguments d (← itemsOf t) scope]
  | arguments d (e :: rest) scope =>
    [return eval d e scope,
      do
        let _ ← Eval.eval settings d e scope
        return arguments d rest scope]
  | call (d + 1) (.closure c) args paren =>
    [do
        let params ← itemsOf c.params
        checkArity paren params.length args.length
        traceLine settings 3 fun _ => callTrace c.name args
        let scope ← newScope c.scope
        bindParams scope params args
        return execBlock d c.body scope]
  | _ => []

/-- Running `task` from state `m` comes, by way of its parts and theirs, to running another task
from another state. -/
inductive During (settings : Settings) (task : Task) (m : Machine) : Task → Machine → Prop
  | self : During settings task m task m
  | part {task' next : Task} {m' m'' : Machine} {before : Eval (Option Task)} :
      During settings task m task' m' → before ∈ task'.parts settings →
      before m' = .ok (some next) m'' → During settings task m next m''

/-! ### Tasks obey -/

/-- A task starts from a named scope, with trees whose tokens are named and with values that
obey. -/
def Obeys (D : Discipline) (n : Nat) : Task → Prop
  | exec _ t scope | execBlock _ t scope | eval _ t scope | evalArgs _ t scope =>
    t.Within D.token ∧ D.Scope n scope
  | statements _ items scope | arguments _ items scope =>
    (∀ t ∈ items, t.Within D.token) ∧ D.Scope n scope
  | loop _ _ condition body scope =>
    condition.Within D.token ∧ body.Within D.token ∧ D.Scope n scope
  | call _ f args paren => f.Obeys D n ∧ (∀ v ∈ args, v.Obeys D n) ∧ D.token paren

/-- The values that come out of a task obey. -/
def Yields (D : Discipline) (n : Nat) (values : List Value) : Prop := ∀ v ∈ values, v.Obeys D n

/-- The task that comes next, if there is one, obeys. -/
def Next (D : Discipline) (n : Nat) (next : Option Task) : Prop := ∀ task ∈ next, task.Obeys D n

variable {D : Discipline} {settings : Settings} {n k : Nat} {task : Task}

theorem Obeys.mono (h : task.Obeys D n) (hk : n ≤ k) : task.Obeys D k := by
  cases task with
  | exec | execBlock | eval | evalArgs | statements | arguments => exact ⟨h.1, h.2.mono hk⟩
  | loop => exact ⟨h.1, h.2.1, h.2.2.mono hk⟩
  | call => exact ⟨h.1.mono hk, fun v hv => (h.2.1 v hv).mono hk, h.2.2⟩

theorem obeys_signalled {step : Eval (Option Signal)} (h : Eval.Obeys D n step (Signal.Obeys D)) :
    Eval.Obeys D n (do return signalled (← step)) (Yields D) := by
  refine h.bind fun k result _ hresult => obeys_pure fun j hj => ?_
  cases result with
  | none => exact nofun
  | some signal => exact fun v hv => List.mem_singleton.1 hv ▸ hresult.2.mono hj

theorem obeys_single {step : Eval Value} (h : Eval.Obeys D n step (Value.Obeys D)) :
    Eval.Obeys D n (do return [← step]) (Yields D) := by
  refine h.bind fun k v _ hv => obeys_pure fun j hj => ?_
  exact fun w hw => List.mem_singleton.1 hw ▸ hv.mono hj

/-- Tasks obey. -/
theorem obeys_run (hhook : settings.LocatedAt D.token) (h : task.Obeys D n) :
    Eval.Obeys D n (task.run settings) (Yields D) := by
  cases task with
  | exec d t scope => exact obeys_signalled ((obeysAt hhook d).exec h.1 h.2)
  | execBlock d t scope => exact obeys_signalled ((obeysAt hhook d).execBlock h.1 h.2)
  | statements d items scope =>
    exact obeys_signalled (.runEach fun s hs => (obeysAt hhook d).exec (h.1 s hs) h.2)
  | loop turns d condition body scope =>
    obtain ⟨hcondition, hbody, hscope⟩ := h
    have hd := obeysAt hhook d
    exact obeys_signalled (.whileLoop (hd.eval hcondition hscope) (hd.exec hbody hscope) turns)
  | eval d t scope => exact obeys_single ((obeysAt hhook d).eval h.1 h.2)
  | evalArgs d t scope => exact (obeysAt hhook d).evalArgs h.1 h.2
  | arguments d items scope => exact .evalEach fun e he => (obeysAt hhook d).eval (h.1 e he) h.2
  | call d f args paren => exact obeys_single ((obeysAt hhook d).call h.1 h.2.1 h.2.2)

theorem obeys_next (h : task.Obeys D n) : Eval.Obeys D n (pure (some task)) (Next D) :=
  obeys_pure fun _ hk _ hmem => Option.some.inj hmem ▸ h.mono hk

theorem obeys_nothing : Eval.Obeys D n (pure none) (Next D) := by
  refine obeys_pure fun _ _ task hmem => ?_
  cases hmem

/-- A list of steps obeys if each of them does. -/
def AllObey (D : Discipline) (n : Nat) (steps : List (Eval (Option Task))) : Prop :=
  ∀ step ∈ steps, Eval.Obeys D n step (Next D)

theorem allObey_nil : AllObey D n [] := List.forall_mem_nil _

theorem allObey_cons {step : Eval (Option Task)} {steps : List (Eval (Option Task))}
    (h : Eval.Obeys D n step (Next D)) (hs : AllObey D n steps) : AllObey D n (step :: steps) :=
  List.forall_mem_cons.2 ⟨h, hs⟩

theorem allObey_singleton {step : Eval (Option Task)} (h : Eval.Obeys D n step (Next D)) :
    AllObey D n [step] :=
  allObey_cons h allObey_nil

section Parts

variable {d scope : Nat} {t : Tree}

theorem allObey_execParts (hhook : settings.LocatedAt D.token) (ht : t.Within D.token)
    (hscope : D.Scope n scope) : AllObey D n (execParts settings d scope t) := by
  cases t with
  | exprStmt e | printStmt e =>
    have he : e.Within D.token := ht
    exact allObey_singleton (obeys_next ⟨he, hscope⟩)
  | varDecl name e | returnStmt keyword e =>
    refine allObey_singleton ?_
    split
    · exact obeys_nothing
    · exact obeys_next ⟨ht.2, hscope⟩
  | block ss =>
    refine allObey_singleton ?_
    exact (obeys_newScope hscope).bind fun k inner _ hinner => obeys_next ⟨ht, hinner⟩
  | ifStmt condition thenBranch elseBranch =>
    obtain ⟨hcondition, hthen, helse⟩ := ht
    refine allObey_cons (obeys_next ⟨hcondition, hscope⟩) (allObey_singleton ?_)
    refine ((obeysAt hhook d).eval hcondition hscope).bind fun k v hk _ => ?_
    refine (obeys_traceLine _ _).seq ?_
    split
    · exact obeys_next ⟨hthen, hscope.mono hk⟩
    · split
      · exact obeys_nothing
      · exact obeys_next ⟨helse, hscope.mono hk⟩
  | whileStmt condition body =>
    exact allObey_singleton (obeys_next ⟨ht.1, ht.2, hscope⟩)
  | forStmt initializer condition increment body =>
    exact allObey_singleton (obeys_next ⟨Tree.within_desugarFor ht, hscope⟩)
  -- a declaration of a function runs nothing, nor does what is no statement
  | _ => exact allObey_nil

theorem allObey_evalParts (hhook : settings.LocatedAt D.token) (ht : t.Within D.token)
    (hscope : D.Scope n scope) : AllObey D n (evalParts settings d scope t) := by
  have heval {t : Tree} (ht : t.Within D.token) := (obeysAt hhook d).eval ht hscope
  cases t with
  | grouping e =>
    have he : e.Within D.token := ht
    exact allObey_singleton (obeys_next ⟨he, hscope⟩)
  | assign name e | unary op e => exact allObey_singleton (obeys_next ⟨ht.2, hscope⟩)
  | logical left op right =>
    obtain ⟨hleft, -, hright⟩ := ht
    refine allObey_cons (obeys_next ⟨hleft, hscope⟩) (allObey_singleton ?_)
    refine (heval hleft).bind fun k v hk _ => ?_
    split
    · exact obeys_nothing
    · exact obeys_next ⟨hright, hscope.mono hk⟩
  | binary left op right | index left op right =>
    obtain ⟨hleft, -, hright⟩ := ht
    refine allObey_cons (obeys_next ⟨hleft, hscope⟩) (allObey_singleton ?_)
    exact (heval hleft).seq (obeys_next ⟨hright, hscope⟩)
  | call callee paren args =>
    obtain ⟨hcallee, hparen, hargs⟩ := ht
    refine allObey_cons (obeys_next ⟨hcallee, hscope⟩) (allObey_cons ?_ (allObey_singleton ?_))
    · exact (heval hcallee).seq (obeys_next ⟨hargs, hscope⟩)
    · refine (heval hcallee).bind fun k f hk hf => ?_
      refine ((obeysAt hhook d).evalArgs hargs (hscope.mono hk)).bind fun j vs hj hvs => ?_
      exact obeys_next ⟨hf.mono hj, hvs, hparen⟩
  | assignIndex target bracket index value =>
    obtain ⟨htarget, -, hindex, hvalue⟩ := ht
    cases target with
    | varRef name =>
      have hname := obeys_read hscope htarget
      refine allObey_cons ?_ (allObey_singleton ?_)
      · exact hname.seq (obeys_next ⟨hindex, hscope⟩)
      · exact hname.seq ((heval hindex).seq (obeys_next ⟨hvalue, hscope⟩))
    | _ => exact allObey_nil
  | _ => exact allObey_nil

end Parts

/-- The steps that are taken before a part of a task obey, and so does the part. -/
theorem allObey_parts (hhook : settings.LocatedAt D.token) (h : task.Obeys D n) :
    AllObey D n (task.parts settings) := by
  fun_cases parts settings task with
  | case1 d t scope => exact allObey_execParts hhook h.1 h.2
  | case2 d t scope => exact allObey_evalParts hhook h.1 h.2
  -- a block, the statements of one and a loop
  | case3 d t scope =>
    refine allObey_singleton ((obeys_itemsOf h.1).bind fun k items hk hitems => ?_)
    exact obeys_next ⟨hitems, h.2.mono hk⟩
  | case4 d s rest scope =>
    obtain ⟨hitems, hscope⟩ := h
    rw [List.forall_mem_cons] at hitems
    refine allObey_cons (obeys_next ⟨hitems.1, hscope⟩) (allObey_singleton ?_)
    refine ((obeysAt hhook d).exec hitems.1 hscope).bind fun k result hk _ => ?_
    cases result with
    | some => exact obeys_nothing
    | none => exact obeys_next ⟨hitems.2, hscope.mono hk⟩
  | case5 turns d condition body scope =>
    obtain ⟨hcondition, hbody, hscope⟩ := h
    have heval := (obeysAt hhook d).eval hcondition hscope
    refine allObey_cons (obeys_next ⟨hcondition, hscope⟩)
      (allObey_cons (heval.bind fun k v hk _ => ?_) (allObey_singleton ?_))
    · split
      · exact obeys_next ⟨hbody, hscope.mono hk⟩
      · exact obeys_nothing
    · refine (Obeys.whileTurn heval ((obeysAt hhook d).exec hbody hscope)).bind fun k _ hk _ => ?_
      split
      · exact obeys_nothing
      · exact obeys_next ⟨hcondition, hbody, hscope.mono hk⟩
  -- the arguments of a call, and the call itself
  | case6 d t scope =>
    refine allObey_singleton ((obeys_itemsOf h.1).bind fun k items hk hitems => ?_)
    exact obeys_next ⟨hitems, h.2.mono hk⟩
  | case7 d e rest scope =>
    obtain ⟨hitems, hscope⟩ := h
    rw [List.forall_mem_cons] at hitems
    refine allObey_cons (obeys_next ⟨hitems.1, hscope⟩) (allObey_singleton ?_)
    exact ((obeysAt hhook d).eval hitems.1 hscope).seq (obeys_next ⟨hitems.2, hscope⟩)
  | case8 d c args paren =>
    obtain ⟨hc, hargs, hparen⟩ := h
    refine allObey_singleton ((obeys_itemsOf hc.2.1).bind fun _ params hk _ => ?_)
    refine (obeys_checkArity hparen _ _).seq ((obeys_traceLine _ _).seq ?_)
    refine (obeys_newScope (hc.1.mono hk)).bind fun j inner hj hinner => ?_
    have hargs : ∀ v ∈ args, v.Obeys D j := fun v hv => (hargs v hv).mono (Nat.le_trans hk hj)
    exact (obeys_bindParams hinner params hargs).seq (obeys_next ⟨hc.2.2, hinner⟩)
  | case9 => exact allObey_nil

/-- Whatever a task comes to obeys, in a state that obeys. -/
theorem During.obeys {m m' : Machine} {task' : Task} (hduring : task.During settings m task' m')
    (hhook : settings.LocatedAt D.token) (hm : m.Obeys D) (h : task.Obeys D m.scopeCount) :
    m'.Obeys D ∧ task'.Obeys D m'.scopeCount := by
  induction hduring with
  | self => exact ⟨hm, h⟩
  | @part task' next m' m'' before _ hpart hbefore ih =>
    obtain ⟨hm', htask'⟩ := ih
    have hstep := allObey_parts hhook htask' before hpart m' (Nat.le_refl _) hm'
    rw [hbefore] at hstep
    exact ⟨hstep.1, hstep.2.2 next rfl⟩

end Task

end Eval

/-! ### What is in reach -/

namespace Machine

/-- Scope `i` was in reach of scope `e` in the first state, or was made before the second. -/
def Accessible (m m' : Machine) (e i : Nat) : Prop :=
  m.heap.Reach e i ∨ (m.scopeCount ≤ i ∧ i < m'.scopeCount)

/-- The discipline of what runs in scope `e` from the state on: it gets to the scopes in reach, and
leaves the others as they are. -/
def reaching (m : Machine) (e : Nat) : Discipline where
  token _ := True
  root := m.heap.Reach e
  start := m.scopeCount
  heap h := m.scopeCount ≤ h.scopes.size ∧
    ∀ (i : Nat) (s : Scope Value), m.heap.scopes[i]? = some s → ¬ m.heap.Reach e i →
      h.scopes[i]? = some s
  start_le hh := hh.1
  heap_create := by
    intro h parent hh
    refine ⟨by simpa using Nat.le_succ_of_le hh.1, fun i s hs hnot => ?_⟩
    have hkept := hh.2 i s hs hnot
    have hlt := (Array.getElem?_eq_some_iff.1 hkept).1
    rw [Heap.create, Array.getElem?_push, if_neg (Nat.ne_of_lt hlt)]
    exact hkept
  heap_define := by
    intro h i x v hh hi
    refine ⟨by simpa using hh.1, fun j s hs hnot => ?_⟩
    have hne : i ≠ j := by
      rintro rfl
      exact hi.elim hnot (Nat.not_le_of_lt (Array.getElem?_eq_some_iff.1 hs).1)
    rw [Heap.define, Array.getElem?_modify, if_neg hne]
    exact hh.2 j s hs hnot

/-- A state obeys the discipline of what starts from it. -/
theorem obeys_reaching (m : Machine) (e : Nat) : m.Obeys (m.reaching e) where
  heap := ⟨Nat.le_refl _, fun _ _ hs _ => hs⟩
  parent := by
    intro i p s hi hs hp
    refine .inl (.parent (i := i) ?_ hs hp)
    exact hi.resolve_right fun hnew => Nat.not_lt_of_le hnew.1 hnew.2
  value := by
    intro i s hi hs b hb
    obtain ⟨x, v⟩ := b
    have hreach : m.heap.Reach e i := hi.resolve_right fun hnew => Nat.not_lt_of_le hnew.1 hnew.2
    cases v with
    | tree | native => trivial
    | closure c =>
      exact ⟨.inl (.captured hreach hs hb), Tree.within_true _, Tree.within_true _⟩

end Machine

namespace Eval

theorem Obeys.finalState {D : Discipline} {n : Nat} {α : Type} {step : Eval α}
    {Q : Nat → α → Prop} {m : Machine} (h : Obeys D n step Q) (hn : n ≤ m.scopeCount)
    (hm : m.Obeys D) : (finalState (step m)).Obeys D := by
  have hstep := h m hn hm
  split at hstep <;> rename_i hrun <;> rw [hrun]
  · exact hstep.1
  · exact hstep.1

/-- In a state that what runs in scope `e` leads to, the scopes out of reach are as they were, and
those that are not bind only functions of accessible scopes. -/
theorem accessible_of_obeys {m m' : Machine} {e : Nat} (hm' : m'.Obeys (m.reaching e)) :
    (∀ (i : Nat) (s : Scope Value), m.heap.scopes[i]? = some s → ¬ m.heap.Reach e i →
      m'.heap.scopes[i]? = some s) ∧
    ∀ (i : Nat) (s : Scope Value), m'.heap.scopes[i]? = some s →
      m.heap.scopes[i]? = some s ∨
        ∀ (x : Atom) (c : Closure), (x, .closure c) ∈ s.bindings → m.Accessible m' e c.scope := by
  refine ⟨hm'.heap.2, fun i s hs => ?_⟩
  by_cases hi : m.Accessible m' e i
  · exact .inr fun x c hc => (hm'.value hi hs _ hc).1
  -- a scope that is not accessible was there before, out of reach
  · have hlt : i < m'.scopeCount := (Array.getElem?_eq_some_iff.1 hs).1
    have hold : i < m.scopeCount := Nat.lt_of_not_le fun hle => hi (.inr ⟨hle, hlt⟩)
    have hkept := hm'.heap.2 i _ (Array.getElem?_eq_getElem hold) fun hreach => hi (.inl hreach)
    exact .inl (hs ▸ hkept ▸ Array.getElem?_eq_getElem hold)

/-- A task returned one value, and that is a function. -/
def returnsFunction : EStateM.Result Abort Machine (List Value) → Bool
  | .ok [.closure _] _ => true
  | _ => false

theorem exists_of_returnsFunction {out : EStateM.Result Abort Machine (List Value)}
    (h : returnsFunction out = true) : ∃ c m', out = .ok [.closure c] m' := by
  unfold returnsFunction at h
  split at h
  · exact ⟨_, _, rfl⟩
  · cases h

/-- Captured variables are private. Let a statement or an expression be executed in scope `e` from
state `m`, and let a task be part of that execution, be it the whole. In the state in which the task
starts and in the one in which it ends, normally or early, every scope that was there before and was
out of reach of `e` is exactly as it was, and every scope that is not as it was binds only functions
whose scope was in reach of `e` or was made since. Every function that the task returns is such a
one as well. -/
theorem captured_variables_are_private (settings : Settings) (m : Machine) (e d : Nat) (t : Tree)
    {task part : Task} {start : Machine} (htask : task = .exec d t e ∨ task = .eval d t e)
    (hpart : task.During settings m part start) :
    (∀ m', m' = start ∨ m' = finalState (part.run settings start) →
      (∀ (i : Nat) (s : Scope Value), m.heap.scopes[i]? = some s → ¬ m.heap.Reach e i →
        m'.heap.scopes[i]? = some s) ∧
      ∀ (i : Nat) (s : Scope Value), m'.heap.scopes[i]? = some s →
        m.heap.scopes[i]? = some s ∨
          ∀ (x : Atom) (c : Closure), (x, .closure c) ∈ s.bindings → m.Accessible m' e c.scope) ∧
    ∀ (vs : List Value) (m' : Machine), part.run settings start = .ok vs m' →
      ∀ c : Closure, .closure c ∈ vs → m.Accessible m' e c.scope := by
  have hhook : settings.LocatedAt (m.reaching e).token := fun _ _ _ _ _ => trivial
  have hstart : task.Obeys (m.reaching e) m.scopeCount := by
    rcases htask with rfl | rfl
    · exact ⟨Tree.within_true t, .inl .self⟩
    · exact ⟨Tree.within_true t, .inl .self⟩
  obtain ⟨hobeys, hpartObeys⟩ := hpart.obeys hhook (m.obeys_reaching e) hstart
  have hrun := Task.obeys_run hhook hpartObeys
  constructor
  · rintro m' (rfl | rfl)
    · exact accessible_of_obeys hobeys
    · exact accessible_of_obeys (hrun.finalState (Nat.le_refl _) hobeys)
  · intro vs m' hresult c hc
    have hends := hrun start (Nat.le_refl _) hobeys
    rw [hresult] at hends
    exact (hends.2.2 _ hc).1

/-- Two functions that each captured a switch of their own. The one that the global scope binds is
called: it turns its switch off and returns itself. The switch of the other one, which only a scope
out of reach binds, stays as it was. -/
theorem captured_variables_are_private_switch :
    let toggle : Token := .make .identifier "toggle" .null 1
    let switch : Token := .make .identifier "on" .null 2
    let body : Tree := .list [.exprStmt (.assign switch (.literal (.atom (.bool false)))),
      .returnStmt (.make .returnKey "return" .null 2) (.varRef toggle)]
    let toggleIn (scope : Nat) : Atom × Value :=
      (.text "toggle", .closure { id := scope, name := toggle, params := .list [], body, scope })
    let switchedOn : Scope Value := { parent := some 0, bindings := [(.text "on", .bool true)] }
    let m : Machine :=
      { Machine.fresh 0 with
        heap := ⟨#[{ parent := none, bindings := [toggleIn 1] }, switchedOn, switchedOn,
          { parent := some 0, bindings := [toggleIn 2] }]⟩ }
    let call : Task := .eval 9 (.call (.varRef toggle) (.make .rightParen ")" .null 3) (.list [])) 0
    let settings : Settings := { traceLevel := 0, hook := .absent, clock := fun _ => 0 }
    let m' := finalState (call.run settings m)
    m.heap.Reach 0 1 ∧ ¬ m.heap.Reach 0 2 ∧
      (m'.heap.get? 1 (.text "on")).map Value.isTruthy = some false ∧
      m'.heap.scopes[2]? = some switchedOn ∧
      ∃ c m', call.run settings m = .ok [.closure c] m' ∧ m.Accessible m' 0 c.scope := by
  intro toggle switch body toggleIn switchedOn m call settings m'
  have hreach : ∀ i, m.heap.Reach 0 i → i = 0 ∨ i = 1 := by
    intro i hi
    induction hi with
    | self => exact .inl rfl
    | parent _ hs hp ih =>
      obtain rfl | rfl := ih <;> cases hs <;> cases hp
      exact .inl rfl
    | captured _ hs hc ih =>
      obtain rfl | rfl := ih <;> cases hs <;> cases List.mem_singleton.1 hc
      exact .inr rfl
  have hnot : ¬ m.heap.Reach 0 2 := fun h => absurd (hreach 2 h) (by decide)
  have hwhole : call.During settings m call m := .self
  have hprivate := captured_variables_are_private settings m 0 9 _ (.inr rfl) hwhole
  have hcaptured : m.heap.Reach 0 1 :=
    .captured (x := .text "toggle") (c := ⟨1, toggle, .list [], body, 1⟩) .self rfl
      (List.mem_singleton.2 rfl)
  have hreturns : returnsFunction (call.run settings m) = true := by decide +kernel
  refine ⟨hcaptured, hnot, ?_, ?_, ?_⟩
  · decide +kernel
  · exact (hprivate.1 _ (.inr rfl)).1 2 _ rfl hnot
  · obtain ⟨c, m', hrun⟩ := exists_of_returnsFunction hreturns
    exact ⟨c, m', hrun, hprivate.2 _ m' hrun c (List.mem_singleton.2 rfl)⟩

end Eval

end Scriptlet
