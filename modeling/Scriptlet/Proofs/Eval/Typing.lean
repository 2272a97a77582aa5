import Scriptlet.Eval.Run

/-!
# Well-formed trees, values and heaps

A tree from a file can hold anything anywhere. Here are the trees that hold expressions where
expressions belong, statements where statements belong and named tokens where names belong, and the
values and heaps that running such trees leads to. Whether an operator is one that a program text
can hold is a parameter, so that everything is proved for both readings at once.

## Main definitions

* `Operators` — whether all kinds of operators are let through
* `Tree.IsExpr`, `Tree.IsStmt` — well-formed expressions and statements
* `Value.Typed`, `Heap.Typed` — values and heaps without anything else in them

## Main results

* `Heap.Typed.create`, `Heap.Typed.define`, `Heap.Typed.get?` — what the heap operations preserve
-/

namespace Scriptlet

/-- Which operators a well-formed tree may hold. -/
inductive Operators
  /-- Tokens of any kind. -/
  | any
  /-- The operators that a program text can hold. -/
  | known
  deriving DecidableEq

/-- The kinds of unary operators. -/
def unaryOperators : List Kind := [.bang, .minus]

/-- The kinds of binary operators. -/
def binaryOperators : List Kind :=
  [.bangEqual, .equalEqual, .greater, .greaterEqual, .less, .lessEqual, .minus, .plus, .slash,
    .star]

/-- The lexeme is a text, so that it can serve as a name. -/
def Token.IsNamed (t : Token) : Prop := ∃ s, t.lexeme = .text s

/-- Nil, booleans, numbers and texts. -/
def Atom.IsScalar (a : Atom) : Prop := ∀ n, a ≠ .int n

namespace Tree

/-- Well-formed expressions. -/
inductive IsExpr (ops : Operators) : Tree → Prop
  | literal {a : Atom} : a.IsScalar → IsExpr ops (.literal (.atom a))
  | grouping {e : Tree} : IsExpr ops e → IsExpr ops (.grouping e)
  | unary {op : Token} {e : Tree} : (ops = .known → op.kind ∈ unaryOperators) → IsExpr ops e →
      IsExpr ops (.unary op e)
  | binary {op : Token} {l r : Tree} : (ops = .known → op.kind ∈ binaryOperators) →
      IsExpr ops l → IsExpr ops r → IsExpr ops (.binary l op r)
  | logical {op : Token} {l r : Tree} : IsExpr ops l → IsExpr ops r → IsExpr ops (.logical l op r)
  | varRef {name : Token} : name.IsNamed → IsExpr ops (.varRef name)
  | assign {name : Token} {e : Tree} : name.IsNamed → IsExpr ops e → IsExpr ops (.assign name e)
  | call {paren : Token} {f : Tree} {args : List Tree} : IsExpr ops f →
      (∀ a ∈ args, IsExpr ops a) → IsExpr ops (.call f paren (.list args))
  | index {bracket : Token} {t i : Tree} : IsExpr ops t → IsExpr ops i →
      IsExpr ops (.index t bracket i)
  | assignIndex {bracket : Token} {t i v : Tree} : IsExpr ops t → IsExpr ops i → IsExpr ops v →
      IsExpr ops (.assignIndex t bracket i v)

/-- Well-formed statements; optional parts may be missing. -/
inductive IsStmt (ops : Operators) : Tree → Prop
  | exprStmt {e : Tree} : IsExpr ops e → IsStmt ops (.exprStmt e)
  | printStmt {e : Tree} : IsExpr ops e → IsStmt ops (.printStmt e)
  | varDecl {name : Token} {e : Tree} : name.IsNamed → (e.isNull = false → IsExpr ops e) →
      IsStmt ops (.varDecl name e)
  | block {ss : List Tree} : (∀ s ∈ ss, IsStmt ops s) → IsStmt ops (.block (.list ss))
  | ifStmt {c s s' : Tree} : IsExpr ops c → IsStmt ops s → (s'.isNull = false → IsStmt ops s') →
      IsStmt ops (.ifStmt c s s')
  | whileStmt {c s : Tree} : IsExpr ops c → IsStmt ops s → IsStmt ops (.whileStmt c s)
  | forStmt {i c n s : Tree} : (i.isNull = false → IsStmt ops i) →
      (c.isNull = false → IsExpr ops c) → (n.isNull = false → IsExpr ops n) → IsStmt ops s →
      IsStmt ops (.forStmt i c n s)
  | funDecl {name : Token} {params : List Token} {body : List Tree} : name.IsNamed →
      (∀ p ∈ params, p.IsNamed) → (∀ s ∈ body, IsStmt ops s) →
      IsStmt ops (.funDecl name (.list (params.map .token)) (.list body))
  | returnStmt {keyword : Token} {e : Tree} : (e.isNull = false → IsExpr ops e) →
      IsStmt ops (.returnStmt keyword e)

/-- Whoever holds only some operators holds only some of all. -/
theorem IsExpr.any {ops : Operators} {t : Tree} (h : IsExpr ops t) : IsExpr .any t := by
  induction h with
  | literal ha => exact .literal ha
  | grouping _ ih => exact .grouping ih
  | unary _ _ ih => exact .unary nofun ih
  | binary _ _ _ ihl ihr => exact .binary nofun ihl ihr
  | logical _ _ ihl ihr => exact .logical ihl ihr
  | varRef hname => exact .varRef hname
  | assign hname _ ih => exact .assign hname ih
  | call _ _ ihf ihargs => exact .call ihf ihargs
  | index _ _ iht ihi => exact .index iht ihi
  | assignIndex _ _ _ iht ihi ihv => exact .assignIndex iht ihi ihv

theorem IsStmt.any {ops : Operators} {t : Tree} (h : IsStmt ops t) : IsStmt .any t := by
  induction h with
  | exprStmt he => exact .exprStmt he.any
  | printStmt he => exact .printStmt he.any
  | varDecl hname he => exact .varDecl hname fun hnull => (he hnull).any
  | block _ ih => exact .block ih
  | ifStmt hc _ _ ih ih' => exact .ifStmt hc.any ih ih'
  | whileStmt hc _ ih => exact .whileStmt hc.any ih
  | forStmt _ hc hn _ ihi ih =>
    exact .forStmt ihi (fun hnull => (hc hnull).any) (fun hnull => (hn hnull).any) ih
  | funDecl hname hparams _ ih => exact .funDecl hname hparams ih
  | returnStmt he => exact .returnStmt fun hnull => (he hnull).any

/-- The block that a `for` loop stands for is well-formed if its parts are. -/
theorem isStmt_desugarFor {ops : Operators} {i c n s : Tree} (hi : i.isNull = false → IsStmt ops i)
    (hc : c.isNull = false → IsExpr ops c) (hn : n.isNull = false → IsExpr ops n)
    (hs : IsStmt ops s) : IsStmt ops (.desugarFor i c n s) := by
  -- the increment, the condition and the initializer are wrapped around the body in turn
  have hbody : IsStmt ops (if n.isNull then s else .block (.list [s, .exprStmt n])) := by
    split
    · exact hs
    · next hnull =>
      refine .block ?_
      simpa using ⟨hs, .exprStmt (hn (by simpa using hnull))⟩
  have hcondition : IsExpr ops (if c.isNull then .literal (.atom (.bool true)) else c) := by
    split
    · exact .literal nofun
    · next hnull => exact hc (by simpa using hnull)
  refine .block ?_
  split
  · simpa using .whileStmt hcondition hbody
  · next hnull => simpa using ⟨hi (by simpa using hnull), .whileStmt hcondition hbody⟩

end Tree

/-- Nil, booleans, numbers, texts, native functions, and declared functions with a well-formed
body. -/
inductive Value.Typed (ops : Operators) : Value → Prop
  | atom {a : Atom} : a.IsScalar → Typed ops (.tree (.atom a))
  | closure {c : Closure} {params : List Token} {body : List Tree} :
      c.params = .list (params.map .token) → (∀ p ∈ params, p.IsNamed) → c.body = .list body →
      (∀ s ∈ body, s.IsStmt ops) → Typed ops (.closure c)
  | native (n : Native) : Typed ops (.native n)

namespace Value.Typed

variable {ops : Operators}

theorem nil : Value.nil.Typed ops := .atom nofun

theorem bool (b : Bool) : (Value.bool b).Typed ops := .atom nofun

theorem number (x : Float) : (Value.number x).Typed ops := .atom nofun

theorem text (s : String) : (Value.text s).Typed ops := .atom nofun

end Value.Typed

/-- Every value that a scope of the heap holds is well-formed. -/
def Heap.Typed (ops : Operators) (h : Heap Value) : Prop :=
  ∀ (i : Nat) (scope : Scope Value), h.scopes[i]? = some scope → ∀ b ∈ scope.bindings, b.2.Typed ops

namespace Heap.Typed

variable {ops : Operators} {h : Heap Value}

theorem empty : (Heap.empty : Heap Value).Typed ops := by
  intro i scope hscope
  simp [Heap.empty] at hscope

theorem create (hh : h.Typed ops) (parent : Option Nat) : (h.create parent).Typed ops := by
  intro i scope hscope
  rw [Heap.create, Array.getElem?_push] at hscope
  split at hscope
  -- the new scope is empty
  · cases hscope
    exact fun _ hb => absurd hb List.not_mem_nil
  · exact hh i scope hscope

theorem forall_put {P : Value → Prop} {x : Atom} {v : Value} {bindings : List (Atom × Value)}
    (hv : P v) (hb : ∀ b ∈ bindings, P b.2) : ∀ b ∈ Scope.put x v bindings, P b.2 := by
  induction bindings with
  | nil => simpa [Scope.put] using hv
  | cons b rest ih =>
    rw [List.forall_mem_cons] at hb
    rw [Scope.put]
    split
    · exact List.forall_mem_cons.2 ⟨hv, hb.2⟩
    · exact List.forall_mem_cons.2 ⟨hb.1, ih hb.2⟩

theorem define (hh : h.Typed ops) {v : Value} (hv : v.Typed ops) (i : Nat) (x : Atom) :
    (h.define i x v).Typed ops := by
  intro j scope hscope
  rw [Heap.define, Array.getElem?_modify] at hscope
  split at hscope
  · obtain ⟨scope', hscope', rfl⟩ := Option.map_eq_some_iff.1 hscope
    -- only the scope that is written to changes
    exact forall_put hv (hh j scope' hscope')
  · exact hh j scope hscope

theorem mem_of_find? {x : Atom} {v : Value} {bindings : List (Atom × Value)}
    (hfind : Scope.find? x bindings = some v) : ∃ b ∈ bindings, b.2 = v := by
  induction bindings with
  | nil => cases hfind
  | cons b rest ih =>
    rw [Scope.find?] at hfind
    split at hfind
    · cases hfind
      exact ⟨b, List.mem_cons_self, rfl⟩
    · obtain ⟨b', hb', rfl⟩ := ih hfind
      exact ⟨b', List.mem_cons_of_mem _ hb', rfl⟩

/-- What is read from the heap is well-formed. -/
theorem get? (hh : h.Typed ops) {i : Nat} {x : Atom} {v : Value} (hget : h.get? i x = some v) :
    v.Typed ops := by
  obtain ⟨j, -, hget⟩ := Option.bind_eq_some_iff.1 hget
  obtain ⟨scope, hscope, hfind⟩ := Option.bind_eq_some_iff.1 hget
  obtain ⟨b, hb, rfl⟩ := mem_of_find? hfind
  exact hh j scope hscope b hb

end Heap.Typed

/-- The native functions are all that is there before anything ran. -/
theorem Machine.typed_freshHeap (ops : Operators) : Machine.freshHeap.Typed ops := by
  -- the functions are defined one after the other, so the induction is over any heap
  suffices hall : ∀ (ns : List Native) (h : Heap Value), h.Typed ops →
      (ns.foldl (fun h n => h.define Machine.globalScope (.text n.name) (.native n)) h).Typed ops
    from hall Native.all _ (Heap.Typed.empty.create none)
  intro ns
  induction ns with
  | nil => exact fun h hh => hh
  | cons n ns ih => exact fun h hh => ih _ (hh.define (.native n) _ _)

end Scriptlet
