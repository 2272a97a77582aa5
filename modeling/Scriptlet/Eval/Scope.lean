import Scriptlet.Tree.Inspect

/-!
# Scopes

Scopes are numbered in the order in which they are made and live in a heap. A scope binds names to
values and may have a parent, which was made before it, so that every chain of parents ends. A
declaration lands in its own scope; reading and assigning use the nearest scope of the chain that
binds the name.

Names are atoms, and numbers of equal value are one name; the names of a program text are texts. A
scope keeps a name in the form in which it was bound first.

## Main definitions

* `Scope`, `Heap` — scopes and the heap that holds them
* `Heap.create`, `Heap.define`, `Heap.resolve?`, `Heap.get?` — the operations
-/

namespace Scriptlet

/-- The name that a token stands for: its lexeme, unless that is an array or an object. -/
def Token.name? (t : Token) : Option Atom :=
  match t.lexeme with
  | .atom a => some a
  | _ => none

/-- Names with their values, in the order of their declaration, and the number of the parent. -/
structure Scope (V : Type) where
  parent : Option Nat
  bindings : List (Atom × V)

/-- Scopes by their number. -/
structure Heap (V : Type) where
  scopes : Array (Scope V)

namespace Scope

variable {V : Type}

/-- The value of a name among bindings. -/
def find? (x : Atom) : List (Atom × V) → Option V
  | [] => none
  | (y, v) :: rest => if y.same x then some v else find? x rest

/-- The bindings with a name set; a name that is bound keeps its place and its form. -/
def put (x : Atom) (v : V) : List (Atom × V) → List (Atom × V)
  | [] => [(x, v)]
  | (y, w) :: rest => if y.same x then (y, v) :: rest else (y, w) :: put x v rest

/-- Names that are the same have the same value. -/
theorem find?_congr {x y : Atom} (h : x.same y) (bindings : List (Atom × V)) :
    find? x bindings = find? y bindings := by
  induction bindings with
  | nil => rfl
  | cons b rest ih => simp [find?, Atom.same, Atom.same_iff.1 h, ih]

theorem find?_put (x y : Atom) (v : V) (bindings : List (Atom × V)) :
    find? y (put x v bindings) = if x.same y then some v else find? y bindings := by
  induction bindings with
  | nil => rfl
  | cons b rest ih =>
    obtain ⟨z, w⟩ := b
    by_cases hx : z.key = x.key
    · by_cases hy : x.key = y.key <;> simp [put, find?, Atom.same, hx, hy]
    · by_cases hy : z.key = y.key
      · rw [hy] at hx
        simp [put, find?, Atom.same, hx, hy, Ne.symm hx]
      · simp only [Atom.same, beq_iff_eq] at ih
        simp [put, find?, Atom.same, hx, hy, ih]

/-- The value of a name in this scope alone. -/
def get? (s : Scope V) (x : Atom) : Option V := find? x s.bindings

/-- Whether this scope binds a name. -/
def binds (s : Scope V) (x : Atom) : Bool := (s.get? x).isSome

/-- Binds a name, over an earlier binding if there is one. -/
def define (s : Scope V) (x : Atom) (v : V) : Scope V := { s with bindings := put x v s.bindings }

/-- After a name is bound, it has its new value and every other name the value it had. -/
theorem get?_define (s : Scope V) (x y : Atom) (v : V) :
    (s.define x v).get? y = if x.same y then some v else s.get? y :=
  find?_put x y v s.bindings

end Scope

namespace Heap

variable {V : Type}

/-- The heap without scopes. -/
def empty : Heap V := ⟨#[]⟩

/-- Makes a scope without bindings; its number is the size of the heap before. -/
def create (h : Heap V) (parent : Option Nat) : Heap V :=
  ⟨h.scopes.push { parent, bindings := [] }⟩

/-- Binds a name in the scope with number `i`. -/
def define (h : Heap V) (i : Nat) (x : Atom) (v : V) : Heap V :=
  ⟨h.scopes.modify i (·.define x v)⟩

@[simp]
theorem size_create (h : Heap V) (parent : Option Nat) :
    (h.create parent).scopes.size = h.scopes.size + 1 := by
  simp [create]

@[simp]
theorem size_define (h : Heap V) (i : Nat) (x : Atom) (v : V) :
    (h.define i x v).scopes.size = h.scopes.size := by
  simp [define]

/-- Whether the scope with number `i` binds a name. -/
def binds (h : Heap V) (i : Nat) (x : Atom) : Bool := (h.scopes[i]?).any (·.binds x)

/-- The number of the nearest scope of the chain from `i` that binds a name. -/
def resolve? (h : Heap V) (x : Atom) (i : Nat) : Option Nat :=
  match h.scopes[i]? with
  | none => none
  | some s =>
    if s.binds x then some i
    else
      match s.parent with
      | none => none
      | some p => if p < i then resolve? h x p else none
termination_by i

/-- The value of a name as seen from the scope with number `i`. -/
def get? (h : Heap V) (i : Nat) (x : Atom) : Option V :=
  (h.resolve? x i).bind fun j => (h.scopes[j]?).bind (·.get? x)

end Heap

end Scriptlet
