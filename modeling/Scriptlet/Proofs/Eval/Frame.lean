import Scriptlet.Proofs.Eval.Contract
import Scriptlet.Proofs.Eval.Lookup

/-!
# Declarations stay in their own scope

A scope that exists keeps its parent and its names, whatever is run: an assignment writes to a scope
that binds the name already, a block and a call declare in scopes that they made themselves, and a
declaration lands in the scope in which its statement runs. So evaluating an expression adds no name
to any scope there was before, and executing a statement adds names to the scope it runs in alone.

## Main definitions

* `Scope.names` — the names that a scope binds
* `Heap.Frame` — what may happen to the scopes of a heap when only some of them may be declared in
* `Eval.finalState` — the state in which a step ends, however it ends

## Main results

* `Eval.frameAt` — statements, expressions and calls keep every frame
* `Eval.declarations_stay_in_scope` — the same for a single expression and a single statement
-/

namespace Scriptlet

/-! ### Names of a scope -/

namespace Scope

variable {V : Type}

/-- The names that a scope binds, in the order of their declaration. -/
def names (s : Scope V) : List Atom := s.bindings.map (·.1)

theorem map_fst_put (x : Atom) (v : V) (bindings : List (Atom × V)) :
    (put x v bindings).map (·.1) =
      if (find? x bindings).isSome then bindings.map (·.1) else bindings.map (·.1) ++ [x] := by
  induction bindings with
  | nil => rfl
  | cons b rest ih =>
    obtain ⟨y, w⟩ := b
    by_cases hsame : y.same x
    · simp [put, find?, hsame]
    · simp only [put, find?, hsame, Bool.false_eq_true, if_false, List.map_cons, ih]
      split <;> rfl

/-- Binding a name puts it behind the others, unless it is bound already. -/
theorem names_define (s : Scope V) (x : Atom) (v : V) :
    (s.define x v).names = if s.binds x then s.names else s.names ++ [x] :=
  map_fst_put x v s.bindings

theorem names_isPrefix_define (s : Scope V) (x : Atom) (v : V) :
    s.names <+: (s.define x v).names := by
  rw [names_define]
  split
  · exact List.prefix_rfl
  · exact List.prefix_append _ _

end Scope

namespace Heap

variable {V : Type} {h h' : Heap V} {allowed : Nat → Prop}

/-! ### Frames of a heap -/

/-- Every scope of the first heap is in the second, with its parent and its names; only the scopes
that are allowed to may have got more names. -/
def Frame (allowed : Nat → Prop) (h h' : Heap V) : Prop :=
  ∀ (i : Nat) (s : Scope V), h.scopes[i]? = some s →
    ∃ s', h'.scopes[i]? = some s' ∧ s'.parent = s.parent ∧ s.names <+: s'.names ∧
      (¬ allowed i → s'.names = s.names)

namespace Frame

theorem refl (allowed : Nat → Prop) (h : Heap V) : Frame allowed h h :=
  fun _ s hs => ⟨s, hs, rfl, List.prefix_rfl, fun _ => rfl⟩

/-- No scope goes away. -/
theorem size_le (hframe : Frame allowed h h') : h.scopes.size ≤ h'.scopes.size := by
  refine Nat.le_of_not_lt fun hlt => ?_
  obtain ⟨s', hs', -⟩ := hframe _ _ (Array.getElem?_eq_getElem hlt)
  exact Nat.lt_irrefl _ (Array.getElem?_eq_some_iff.1 hs').1

/-- Making a scope leaves the others alone. -/
theorem create (hframe : Frame allowed h h') (parent : Option Nat) :
    Frame allowed h (h'.create parent) := by
  intro i s hs
  obtain ⟨s', hs', hkept⟩ := hframe i s hs
  have hi := (Array.getElem?_eq_some_iff.1 hs').1
  refine ⟨s', ?_, hkept⟩
  rw [Heap.create, Array.getElem?_push, if_neg (Nat.ne_of_lt hi)]
  exact hs'

/-- Binding a name in a scope is fine if the scope may get names, was not there before, or binds the
name already. -/
theorem define (hframe : Frame allowed h h') {i : Nat} {x : Atom} (v : V)
    (hi : ∀ s', h'.scopes[i]? = some s' → allowed i ∨ h.scopes.size ≤ i ∨ s'.binds x = true) :
    Frame allowed h (h'.define i x v) := by
  intro j s hs
  obtain ⟨s', hs', hparent, hnames, hsame⟩ := hframe j s hs
  rw [Heap.define, Array.getElem?_modify]
  by_cases hij : i = j
  · subst hij
    refine ⟨s'.define x v, by simp [hs'], hparent,
      hnames.trans (s'.names_isPrefix_define x v), fun hnot => ?_⟩
    have hlt : i < h.scopes.size := (Array.getElem?_eq_some_iff.1 hs).1
    have hbinds : s'.binds x = true :=
      ((hi s' hs').resolve_left hnot).resolve_left (Nat.not_le_of_lt hlt)
    rw [Scope.names_define, if_pos hbinds]
    exact hsame hnot
  · exact ⟨s', by simp [hij, hs'], hparent, hnames, hsame⟩

end Frame

end Heap

/-! ### Steps -/

namespace Eval

/-- The state in which a step ends, with a result or early. -/
def finalState {α : Type} : EStateM.Result Abort Machine α → Machine
  | .ok _ m => m
  | .error _ m => m

variable {allowed : Nat → Prop} {h : Heap Value} {settings : Settings} {α : Type}

/-- The step keeps the scopes that were in `h`; only the allowed ones may get names. -/
abbrev KeepsScopes (allowed : Nat → Prop) (h : Heap Value) (step : Eval α) (Q : α → Prop) : Prop :=
  Keeps (fun m => h.Frame allowed m.heap) (fun _ => True) step Q

/-- The scopes that may be declared in: those allowed, and those that `h` does not have. -/
def Open (allowed : Nat → Prop) (h : Heap Value) (scope : Nat) : Prop :=
  allowed scope ∨ h.scopes.size ≤ scope

/-! ### Basic steps -/

theorem keepsScopes_printLine (line : String) :
    KeepsScopes allowed h (printLine line) fun _ => True :=
  keeps_modify fun _ hm => hm

theorem keepsScopes_traceLine (level : Nat) (line : Unit → String) :
    KeepsScopes allowed h (traceLine settings level line) fun _ => True := by
  rw [traceLine]
  split
  · refine keeps_modify fun m hm => ?_
    split <;> exact hm
  · exact keeps_pure trivial

theorem keepsScopes_newClosureId : KeepsScopes allowed h newClosureId fun _ => True :=
  keeps_modifyGet fun _ hm => hm

/-- A new scope was not there before. -/
theorem keepsScopes_newScope (parent : Nat) :
    KeepsScopes allowed h (newScope parent) (Open allowed h) :=
  fun _ hm => ⟨hm.create (some parent), .inr hm.size_le⟩

theorem keepsScopes_define {scope : Nat} (hscope : Open allowed h scope) (name : Token)
    (v : Value) : KeepsScopes allowed h (define scope name v) fun _ => True := by
  rw [define]
  split
  · exact keeps_modify fun m hm => hm.define v fun _ _ => hscope.imp_right .inl
  · exact keeps_throw trivial

theorem keepsScopes_read (scope : Nat) (name : Token) :
    KeepsScopes allowed h (read scope name) fun _ => True := by
  intro m hm
  rw [read_apply]
  cases name.name? with
  | none => exact ⟨hm, trivial⟩
  | some x =>
    dsimp only
    cases m.heap.get? scope x <;> exact ⟨hm, trivial⟩

/-- An assignment adds no name: the scope that it writes to binds the name already. -/
theorem keepsScopes_assign (scope : Nat) (name : Token) (v : Value) :
    KeepsScopes allowed h (assign scope name v) fun _ => True := by
  intro m hm
  rw [assign_apply]
  cases name.name? with
  | none => exact ⟨hm, trivial⟩
  | some x =>
    cases hresolve : m.heap.resolve? x scope with
    | none =>
      simp only [hresolve]
      exact ⟨hm, trivial⟩
    | some target =>
      simp only [hresolve]
      obtain ⟨s, hs, hbinds⟩ := Heap.binds_of_resolve? hresolve
      refine ⟨hm.define v fun s' hs' => .inr (.inr ?_), trivial⟩
      cases hs.symm.trans hs'
      exact hbinds

theorem keepsScopes_located (t : Token) (result : Except RuntimeCause α) :
    KeepsScopes allowed h (located t result) fun _ => True := by
  cases result with
  | ok a => exact keeps_pure trivial
  | error cause => exact keeps_failAt trivial

theorem keepsScopes_itemsOf (t : Tree) : KeepsScopes allowed h (itemsOf t) fun _ => True := by
  rw [itemsOf]
  split
  · exact keeps_pure trivial
  · exact keeps_throw trivial

theorem keepsScopes_callHook : KeepsScopes allowed h (callHook settings) fun _ => True := by
  have hnext : KeepsScopes allowed h nextHookCall fun _ => True := keeps_modifyGet fun _ hm => hm
  rw [callHook]
  cases settings.hook with
  | absent => exact keeps_pure trivial
  | answers failure? =>
    refine hnext.bind fun call _ => ?_
    cases failure? call with
    | some e => exact keeps_throw trivial
    | none => exact keeps_pure trivial

theorem keepsScopes_applyNative (n : Native) (args : List Value) :
    KeepsScopes allowed h (applyNative settings n args) fun _ => True := by
  have hsettled (result : Except Abort Value) :
      KeepsScopes allowed h (settled result) fun _ => True := by
    cases result with
    | ok a => exact keeps_pure trivial
    | error abort => exact keeps_throw trivial
  cases n with
  | clock =>
    have hread : KeepsScopes allowed h (readClock settings) fun _ => True :=
      keeps_modifyGet fun _ hm => hm
    exact hread.bind fun _ _ => keeps_pure trivial
  | stepBattle => exact keepsScopes_callHook.seq (keeps_pure trivial)
  | length => exact hsettled _
  | concat => exact hsettled _

theorem keepsScopes_bindParams {scope : Nat} (hscope : Open allowed h scope) (params : List Tree)
    (args : List Value) : KeepsScopes allowed h (bindParams scope params args) fun _ => True := by
  fun_induction bindParams scope params args with
  | case1 t params v args ih => exact (keepsScopes_define hscope t v).seq ih
  | case2 => exact keeps_throw trivial
  | case3 => exact keeps_pure trivial

/-! ### Statements, expressions and calls -/

/-- Everything that runs with `d` units of stack left keeps the scopes of every heap: statements and
blocks where the scope that they run in may get names, expressions and calls everywhere. -/
structure FrameAt (settings : Settings) (d : Nat) : Prop where
  exec {allowed : Nat → Prop} {h : Heap Value} {scope : Nat} (t : Tree) : Open allowed h scope →
    KeepsScopes allowed h (exec settings d t scope) fun _ => True
  execBlock {allowed : Nat → Prop} {h : Heap Value} {scope : Nat} (t : Tree) :
    Open allowed h scope → KeepsScopes allowed h (execBlock settings d t scope) fun _ => True
  eval {allowed : Nat → Prop} {h : Heap Value} (t : Tree) (scope : Nat) :
    KeepsScopes allowed h (eval settings d t scope) fun _ => True
  evalArgs {allowed : Nat → Prop} {h : Heap Value} (t : Tree) (scope : Nat) :
    KeepsScopes allowed h (evalArgs settings d t scope) fun _ => True
  call {allowed : Nat → Prop} {h : Heap Value} (f : Value) (args : List Value) (paren : Token) :
    KeepsScopes allowed h (call settings d f args paren) fun _ => True

namespace FrameAt

variable {d : Nat} {scope : Nat}

/-- An optional expression counts as nil if it is missing. -/
theorem optional {next : Value → Eval (Option Signal)} (hd : FrameAt settings d) (t : Tree)
    (hnext : ∀ v, KeepsScopes allowed h (next v) fun _ => True) :
    KeepsScopes allowed h
      (if t.isNull then pure .nil >>= next else Eval.eval settings d t scope >>= next)
      fun _ => True := by
  split
  · exact hnext .nil
  · exact (hd.eval t scope).bind fun v _ => hnext v

theorem exec_succ (hd : FrameAt settings d) (t : Tree) (hscope : Open allowed h scope) :
    KeepsScopes allowed h (Eval.exec settings (d + 1) t scope) fun _ => True := by
  cases t with
  | exprStmt e =>
    simp only [Eval.exec]
    exact (hd.eval e scope).seq (keeps_pure trivial)
  | printStmt e =>
    simp only [Eval.exec]
    exact (hd.eval e scope).bind fun v _ => (keepsScopes_printLine _).seq (keeps_pure trivial)
  | varDecl name e =>
    simp only [Eval.exec]
    refine hd.optional e fun v => (keepsScopes_define hscope name v).seq ?_
    exact (keepsScopes_traceLine _ _).seq (keeps_pure trivial)
  -- the statements of a block run in a scope that was made for them
  | block statements =>
    simp only [Eval.exec]
    exact (keepsScopes_newScope scope).bind fun inner hinner => hd.execBlock statements hinner
  | ifStmt condition thenBranch elseBranch =>
    simp only [Eval.exec]
    refine (hd.eval condition scope).bind fun v _ => (keepsScopes_traceLine _ _).seq ?_
    split
    · exact hd.exec thenBranch hscope
    · split
      · exact keeps_pure trivial
      · exact hd.exec elseBranch hscope
  | whileStmt condition body =>
    simp only [Eval.exec]
    refine Keeps.untilSome trivial ?_ _
    exact Keeps.whileTurn trivial (hd.eval condition scope) (hd.exec body hscope)
  | forStmt initializer condition increment body =>
    simp only [Eval.exec]
    exact hd.exec _ hscope
  | funDecl name params body =>
    simp only [Eval.exec]
    refine keepsScopes_newClosureId.bind fun id _ => ?_
    refine (keepsScopes_define hscope name _).seq ?_
    exact (keepsScopes_traceLine _ _).seq (keeps_pure trivial)
  | returnStmt keyword e =>
    simp only [Eval.exec]
    exact hd.optional e fun v => keeps_pure trivial
  -- what is no statement ends the run
  | _ =>
    simp only [Eval.exec]
    exact keeps_throw trivial

theorem eval_succ (hd : FrameAt settings d) (t : Tree) (scope : Nat) :
    KeepsScopes allowed h (Eval.eval settings (d + 1) t scope) fun _ => True := by
  cases t with
  | literal v =>
    simp only [Eval.eval]
    exact keeps_pure trivial
  | grouping e =>
    simp only [Eval.eval]
    exact hd.eval e scope
  | varRef name =>
    simp only [Eval.eval]
    exact keepsScopes_read scope name
  | assign name e =>
    simp only [Eval.eval]
    exact (hd.eval e scope).bind fun v _ =>
      (keepsScopes_assign scope name v).seq (keeps_pure trivial)
  | logical left op right =>
    simp only [Eval.eval]
    refine (hd.eval left scope).bind fun v _ => ?_
    split
    · exact keeps_pure trivial
    · exact hd.eval right scope
  | unary op e =>
    simp only [Eval.eval]
    exact (hd.eval e scope).bind fun v _ => keepsScopes_located op _
  | binary left op right =>
    simp only [Eval.eval]
    exact (hd.eval left scope).bind fun a _ => (hd.eval right scope).bind fun b _ =>
      keepsScopes_located op _
  | call callee paren arguments =>
    simp only [Eval.eval]
    exact (hd.eval callee scope).bind fun f _ => (hd.evalArgs arguments scope).bind fun args _ =>
      hd.call f args paren
  | index target bracket index =>
    simp only [Eval.eval]
    refine (hd.eval target scope).bind fun a _ => (hd.eval index scope).bind fun i _ => ?_
    exact (keepsScopes_located bracket _).bind fun _ _ => keeps_pure trivial
  | assignIndex target bracket index value =>
    cases target with
    | varRef name =>
      simp only [Eval.eval]
      refine (keepsScopes_read scope name).bind fun a _ => ?_
      refine (hd.eval index scope).bind fun i _ => (hd.eval value scope).bind fun v _ => ?_
      refine (keepsScopes_located bracket _).bind fun _ _ => ?_
      split
      · exact (keepsScopes_assign scope name _).seq (keeps_pure trivial)
      · exact keeps_failAt trivial
    | _ =>
      simp only [Eval.eval]
      exact keeps_failAt trivial
  | _ =>
    simp only [Eval.eval]
    exact keeps_throw trivial

theorem call_succ (hd : FrameAt settings d) (f : Value) (args : List Value) (paren : Token) :
    KeepsScopes allowed h (Eval.call settings (d + 1) f args paren) fun _ => True := by
  have harity (expected got : Nat) :
      KeepsScopes allowed h (checkArity paren expected got) fun _ => True :=
    (keeps_checkArity trivial).mono fun _ _ => trivial
  cases f with
  | tree t =>
    simp only [Eval.call]
    exact keeps_failAt trivial
  | native n =>
    simp only [Eval.call]
    exact (harity _ _).seq ((keepsScopes_applyNative n args).locating fun _ _ => trivial)
  -- whatever scope the function was declared in, its body runs in a new one
  | closure c =>
    simp only [Eval.call]
    refine (keepsScopes_itemsOf c.params).bind fun params _ => (harity _ _).seq ?_
    refine (keepsScopes_traceLine _ _).seq ?_
    refine (keepsScopes_newScope c.scope).bind fun inner hinner => ?_
    refine (keepsScopes_bindParams hinner params args).seq ?_
    exact ((hd.execBlock c.body hinner).overflowAt trivial).bind fun _ _ => keeps_pure trivial

end FrameAt

/-- Everything keeps the scopes there were, however much of the stack is left. -/
theorem frameAt (settings : Settings) (d : Nat) : FrameAt settings d := by
  -- the induction is on the stack: a call runs the body of a function from anywhere
  induction d with
  | zero =>
    constructor <;> intros
    · rw [exec]; exact keeps_throw trivial
    · rw [execBlock]; exact keeps_throw trivial
    · rw [eval]; exact keeps_throw trivial
    · rw [evalArgs]; exact keeps_throw trivial
    · rw [call]; exact keeps_throw trivial
  | succ d ih =>
    constructor
    · exact fun t hscope => ih.exec_succ t hscope
    · intro _ _ _ t hscope
      rw [execBlock]
      refine (keepsScopes_itemsOf t).bind fun items _ => ?_
      exact Keeps.runEach trivial fun s _ => ih.exec s hscope
    · exact fun t scope => ih.eval_succ t scope
    · intro _ _ t scope
      rw [evalArgs]
      refine (keepsScopes_itemsOf t).bind fun items _ => ?_
      exact (Keeps.evalEach fun e _ => ih.eval e scope).mono fun _ _ => trivial
    · exact fun f args paren => ih.call_succ f args paren

/-- What a step that keeps scopes leaves behind. -/
theorem KeepsScopes.frame {step : Eval α} {m : Machine}
    (hstep : KeepsScopes allowed m.heap step fun _ => True) :
    m.heap.Frame allowed (finalState (step m)).heap := by
  have hrun := hstep m (.refl allowed m.heap)
  cases hresult : step m with
  | ok a m' =>
    rw [hresult] at hrun
    exact hrun.1
  | error abort m' =>
    rw [hresult] at hrun
    exact hrun.1

/-- Declarations stay in their own scope. In every state and every scope, evaluating an expression
leaves the parents and the names of all scopes there were as they are, and executing a statement
leaves the parents of all of them and the names of all but the scope it is executed in, which only
gets more. Both hold whether the step ends normally, with a return signal or early. -/
theorem declarations_stay_in_scope (settings : Settings) (d : Nat) (t : Tree) (scope : Nat)
    (m : Machine) :
    (∀ (i : Nat) (s : Scope Value), m.heap.scopes[i]? = some s →
      ∃ s', (finalState (eval settings d t scope m)).heap.scopes[i]? = some s' ∧
        s'.parent = s.parent ∧ s'.names = s.names) ∧
    (∀ (i : Nat) (s : Scope Value), m.heap.scopes[i]? = some s →
      ∃ s', (finalState (exec settings d t scope m)).heap.scopes[i]? = some s' ∧
        s'.parent = s.parent ∧ (i ≠ scope → s'.names = s.names) ∧ s.names <+: s'.names) := by
  constructor
  · intro i s hs
    have heval : KeepsScopes (fun _ => False) m.heap (eval settings d t scope) fun _ => True :=
      (frameAt settings d).eval t scope
    obtain ⟨s', hs', hparent, -, hnames⟩ := heval.frame i s hs
    exact ⟨s', hs', hparent, hnames id⟩
  · intro i s hs
    have hexec : KeepsScopes (· = scope) m.heap (exec settings d t scope) fun _ => True :=
      (frameAt settings d).exec t (.inl rfl)
    obtain ⟨s', hs', hparent, hgrown, hnames⟩ := hexec.frame i s hs
    exact ⟨s', hs', hparent, hnames, hgrown⟩

end Eval

end Scriptlet
