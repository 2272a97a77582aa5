import Scriptlet.Proofs.Eval.Frame

/-!
# Scopes implement lexical lookup

What reading a name should yield is told here by the history of the operations on scopes alone: the
parent of a scope is the one it was created with, a scope binds the names that were declared in it,
and a binding holds what was last written to it. A name stands for the binding in the nearest scope
of the chain of parents that binds it. The heap, which keeps none of the history, answers
accordingly after every history.

## Main definitions

* `Operation`, `Operation.perform` — what can be done with scopes
* `History`, `History.after` — operations, and the state that they lead to
* `History.Chain`, `History.Binds`, `History.Resolves` — scopes and names as a history tells them
* `History.Last` — what was last written to a binding

## Main results

* `History.Legal.exists_chain` — every chain of parents ends
* `History.Legal.recorded` — the heap holds what the history tells
* `History.Recorded.resolve?_eq_some_iff` — the heap finds names where the history says
* `History.implements_lexical_lookup` — reading and assigning after any history
-/

namespace Scriptlet

/-! ### Operations and histories -/

/-- What can be done with scopes, which are numbered in the order of their creation. -/
inductive Operation
  | create (parent : Option Nat)
  | define (scope : Nat) (name : Token) (v : Value)
  | assign (scope : Nat) (name : Token) (v : Value)
  | read (scope : Nat) (name : Token)

namespace Operation

/-- Carries out an operation. -/
def perform : Operation → Eval Unit
  | create parent => modify fun m => { m with heap := m.heap.create parent }
  | define scope name v => Eval.define scope name v
  | assign scope name v => Eval.assign scope name v
  | read scope name => do
    let _ ← Eval.read scope name

/-- An operation on the first `n` scopes, with names that are names. -/
def Allowed (n : Nat) : Operation → Prop
  | create parent => ∀ p ∈ parent, p < n
  | define scope name _ | assign scope name _ | read scope name =>
    scope < n ∧ ∃ x, name.name? = some x

end Operation

/-- Operations that were carried out, the latest first. -/
abbrev History := List Operation

namespace History

open Eval (finalState)

/-- The state after a history, from one without scopes. What an operation that fails leaves behind
is gone on with. -/
def after : History → Machine
  | [] => { Machine.fresh 0 with heap := .empty }
  | op :: past => finalState (op.perform (after past))

/-- The parents of the scopes, in the order of their creation. -/
def parents : History → List (Option Nat)
  | [] => []
  | .create parent :: past => parents past ++ [parent]
  | _ :: past => parents past

/-- Every operation was on scopes that had been created before. -/
def Legal : History → Prop
  | [] => True
  | op :: past => Legal past ∧ op.Allowed (parents past).length

/-- The scopes from `i` outward to one without a parent. -/
inductive Chain (past : History) : Nat → List Nat → Prop
  | outermost {i : Nat} : past.parents[i]? = some none → Chain past i [i]
  | inside {i p : Nat} {outer : List Nat} : past.parents[i]? = some (some p) →
      Chain past p outer → Chain past i (i :: outer)

/-- The name was declared in the scope. -/
def Binds (past : History) (j : Nat) (x : Atom) : Prop :=
  ∃ name y v, .define j name v ∈ past ∧ name.name? = some y ∧ y.same x

/-- Scope `j` is the nearest in the chain from `i` that binds the name. -/
def Resolves (past : History) (i : Nat) (x : Atom) (j : Nat) : Prop :=
  ∃ inner outer, past.Chain i (inner ++ j :: outer) ∧ past.Binds j x ∧
    ∀ k ∈ inner, ¬ past.Binds k x

/-- The operation writes the value to the name in scope `j`. An assignment writes to the nearest
scope that binds the name. -/
inductive Writes (past : History) : Operation → Nat → Atom → Value → Prop
  | define {j : Nat} {name : Token} {x : Atom} {v : Value} : name.name? = some x →
      Writes past (.define j name v) j x v
  | assign {i j : Nat} {name : Token} {x : Atom} {v : Value} : name.name? = some x →
      past.Resolves i x j → Writes past (.assign i name v) j x v

/-- The value is the last one that was written to the name in scope `j`. -/
inductive Last : History → Nat → Atom → Value → Prop
  | written {past : History} {op : Operation} {j : Nat} {x y : Atom} {v : Value} :
      Writes past op j y v → y.same x → Last (op :: past) j x v
  | kept {past : History} {op : Operation} {j : Nat} {x : Atom} {v : Value} :
      Last past j x v → (∀ y w, Writes past op j y w → ¬ y.same x) → Last (op :: past) j x v

/-! ### Chains -/

variable {past : History} {op : Operation} {i j : Nat} {x : Atom} {v : Value}

/-- The parent of a scope was created before it. -/
theorem Legal.parent_lt (h : past.Legal) {p : Nat} (hp : past.parents[i]? = some (some p)) :
    p < i := by
  induction past with
  | nil => cases hp
  | cons op past ih =>
    cases op with
    | create parent =>
      rw [parents, List.getElem?_append] at hp
      split at hp
      · exact ih h.1 hp
      · rw [List.getElem?_singleton] at hp
        split at hp
        · obtain rfl : parent = some p := Option.some.inj hp
          have hlt : p < (parents past).length := h.2 p rfl
          omega
        · cases hp
    | define | assign | read => exact ih h.1 hp

theorem Chain.lt_length {chain : List Nat} (h : past.Chain i chain) : i < past.parents.length := by
  cases h with
  | outermost hparent | inside hparent => exact (List.getElem?_eq_some_iff.1 hparent).1

/-- Every chain of parents ends. -/
theorem Legal.exists_chain (h : past.Legal) (hi : i < past.parents.length) :
    ∃ chain, past.Chain i chain := by
  induction i using Nat.strongRecOn with
  | _ i ih =>
    cases hparent : past.parents[i] with
    | none =>
      exact ⟨[i], .outermost (by rw [List.getElem?_eq_getElem hi, hparent])⟩
    | some p =>
      have hp : past.parents[i]? = some (some p) := by rw [List.getElem?_eq_getElem hi, hparent]
      have hlt := h.parent_lt hp
      obtain ⟨outer, houter⟩ := ih p hlt (Nat.lt_trans hlt hi)
      exact ⟨i :: outer, .inside hp houter⟩

/-! ### Declared names are written -/

theorem last_cons_iff : Last (op :: past) j x v ↔
    (∃ y, Writes past op j y v ∧ y.same x) ∨
      (Last past j x v ∧ ∀ y w, Writes past op j y w → ¬ y.same x) := by
  constructor
  · intro h
    cases h with
    | written hwrites hsame => exact .inl ⟨_, hwrites, hsame⟩
    | kept hlast hkept => exact .inr ⟨hlast, hkept⟩
  · rintro (⟨y, hwrites, hsame⟩ | ⟨hlast, hkept⟩)
    · exact .written hwrites hsame
    · exact .kept hlast hkept

theorem same_trans {x y z : Atom} (hxy : x.same y) (hyz : y.same z) : x.same z :=
  Atom.same_iff.2 ((Atom.same_iff.1 hxy).trans (Atom.same_iff.1 hyz))

theorem Binds.cons (h : past.Binds j x) : Binds (op :: past) j x := by
  obtain ⟨name, y, v, hmem, hname, hsame⟩ := h
  exact ⟨name, y, v, List.mem_cons_of_mem _ hmem, hname, hsame⟩

/-- Exactly the names that were declared in a scope have been written to there. -/
theorem binds_iff_exists_last : past.Binds j x ↔ ∃ v, past.Last j x v := by
  constructor
  · intro h
    induction past with
    | nil =>
      obtain ⟨_, _, _, hmem, -⟩ := h
      cases hmem
    | cons op past ih =>
      by_cases hwrites : ∃ y w, Writes past op j y w ∧ y.same x
      · obtain ⟨y, w, hwrites, hsame⟩ := hwrites
        exact ⟨w, .written hwrites hsame⟩
      · obtain ⟨name, y, v, hmem, hname, hsame⟩ := h
        rcases List.mem_cons.1 hmem with rfl | hmem
        · exact absurd ⟨y, v, .define hname, hsame⟩ hwrites
        · obtain ⟨w, hlast⟩ := ih ⟨name, y, v, hmem, hname, hsame⟩
          exact ⟨w, .kept hlast fun y w hw hsame => hwrites ⟨y, w, hw, hsame⟩⟩
  · rintro ⟨v, h⟩
    induction h with
    | written hwrites hsame =>
      cases hwrites with
      | define hname => exact ⟨_, _, _, List.mem_cons_self, hname, hsame⟩
      -- an assignment writes where the name was declared before
      | assign _ hresolves =>
        obtain ⟨_, _, -, ⟨name, z, w, hmem, hname, hz⟩, -⟩ := hresolves
        exact ⟨name, z, w, List.mem_cons_of_mem _ hmem, hname, same_trans hz hsame⟩
    | kept _ _ ih => exact ih.cons

/-! ### The heap after a history -/

/-- The scopes of a heap have the parents and hold the values that the history tells. -/
structure Recorded (past : History) (h : Heap Value) : Prop where
  parent : ∀ i : Nat, (h.scopes[i]?).map Scope.parent = past.parents[i]?
  own : ∀ i x v, h.own? i x = some v ↔ past.Last i x v

namespace Recorded

variable {h : Heap Value}

theorem size_eq (hrecorded : past.Recorded h) : h.scopes.size = past.parents.length := by
  have hbeyond (i : Nat) : h.scopes.size ≤ i ↔ past.parents.length ≤ i := by
    rw [← Array.getElem?_eq_none_iff, ← List.getElem?_eq_none_iff, ← hrecorded.parent i,
      Option.map_eq_none_iff]
  exact Nat.le_antisymm ((hbeyond _).2 (Nat.le_refl _)) ((hbeyond _).1 (Nat.le_refl _))

theorem binds_iff (hrecorded : past.Recorded h) : h.binds j x = true ↔ past.Binds j x := by
  rw [Heap.binds_eq_isSome_own?, Option.isSome_iff_exists, binds_iff_exists_last]
  exact exists_congr fun v => hrecorded.own j x v

/-- Looking a name up goes along the chain to the first scope that binds it. -/
theorem resolve?_eq_find? (hrecorded : past.Recorded h) (hlegal : past.Legal) {chain : List Nat}
    (hchain : past.Chain i chain) : h.resolve? x i = chain.find? (h.binds · x) := by
  have hscope {i : Nat} {parent : Option Nat} (hparent : past.parents[i]? = some parent) :
      ∃ s, h.scopes[i]? = some s ∧ s.parent = parent ∧ h.binds i x = s.binds x := by
    rw [← hrecorded.parent i] at hparent
    obtain ⟨s, hs, hparent⟩ := Option.map_eq_some_iff.1 hparent
    exact ⟨s, hs, hparent, by rw [Heap.binds, hs, Option.any_some]⟩
  induction hchain with
  | outermost hparent =>
    obtain ⟨s, hs, hparent, hbinds⟩ := hscope hparent
    rw [Heap.resolve?, hs, List.find?_cons, hbinds]
    cases hx : s.binds x <;> simp [hx, hparent]
  | inside hparent _ ih =>
    have hlt := hlegal.parent_lt hparent
    obtain ⟨s, hs, hparent, hbinds⟩ := hscope hparent
    rw [Heap.resolve?, hs, List.find?_cons, hbinds]
    cases hx : s.binds x <;> simp [hx, hparent, hlt, ih]

/-- The heap finds a name where the history says. -/
theorem resolve?_eq_some_iff (hrecorded : past.Recorded h) (hlegal : past.Legal)
    (hi : i < past.parents.length) : h.resolve? x i = some j ↔ past.Resolves i x j := by
  constructor
  · intro hresolve
    obtain ⟨chain, hchain⟩ := hlegal.exists_chain hi
    rw [hrecorded.resolve?_eq_find? hlegal hchain, List.find?_eq_some_iff_append] at hresolve
    obtain ⟨hbinds, inner, outer, rfl, hinner⟩ := hresolve
    refine ⟨inner, outer, hchain, hrecorded.binds_iff.1 hbinds, fun k hk hbinds => ?_⟩
    simpa [hrecorded.binds_iff.2 hbinds] using hinner k hk
  · rintro ⟨inner, outer, hchain, hbinds, hinner⟩
    rw [hrecorded.resolve?_eq_find? hlegal hchain, List.find?_eq_some_iff_append]
    refine ⟨hrecorded.binds_iff.2 hbinds, inner, outer, rfl, fun k hk => ?_⟩
    simpa [← hrecorded.binds_iff] using hinner k hk

/-- The heap does not find a name exactly if no scope of the chain binds it. -/
theorem resolve?_eq_none_iff (hrecorded : past.Recorded h) (hlegal : past.Legal)
    (hi : i < past.parents.length) :
    h.resolve? x i = none ↔ ∃ chain, past.Chain i chain ∧ ∀ j ∈ chain, ¬ past.Binds j x := by
  have hfind {chain : List Nat} (hchain : past.Chain i chain) :
      h.resolve? x i = none ↔ ∀ j ∈ chain, ¬ past.Binds j x := by
    rw [hrecorded.resolve?_eq_find? hlegal hchain, List.find?_eq_none]
    simp only [hrecorded.binds_iff]
  constructor
  · intro hnone
    obtain ⟨chain, hchain⟩ := hlegal.exists_chain hi
    exact ⟨chain, hchain, (hfind hchain).1 hnone⟩
  · rintro ⟨chain, hchain, hfree⟩
    exact (hfind hchain).2 hfree

/-- An operation that writes nothing and makes no scope is recorded by a heap left as it is. -/
theorem of_silent (hrecorded : past.Recorded h) (hparents : parents (op :: past) = past.parents)
    (hsilent : ∀ j y w, ¬ Writes past op j y w) : Recorded (op :: past) h := by
  refine ⟨fun i => by rw [hrecorded.parent, hparents], fun i x v => ?_⟩
  rw [hrecorded.own, last_cons_iff]
  constructor
  · exact fun hlast => .inr ⟨hlast, fun y w hwrites => absurd hwrites (hsilent i y w)⟩
  · rintro (⟨y, hwrites, -⟩ | ⟨hlast, -⟩)
    · exact absurd hwrites (hsilent i y v)
    · exact hlast

/-- An operation that writes once is recorded by setting the binding that it writes to. -/
theorem of_writes (hrecorded : past.Recorded h) (hparents : parents (op :: past) = past.parents)
    (hj : j < h.scopes.size)
    (hwrites : ∀ k y w, Writes past op k y w ↔ k = j ∧ y = x ∧ w = v) :
    Recorded (op :: past) (h.define j x v) := by
  have hsets := Heap.sets_define hj x v
  refine ⟨fun i => by rw [hsets.parent, hrecorded.parent, hparents], fun i y w => ?_⟩
  rw [hsets.own, last_cons_iff, ← hrecorded.own]
  by_cases hwritten : i = j ∧ x.same y
  · obtain ⟨rfl, hsame⟩ := hwritten
    rw [if_pos ⟨rfl, hsame⟩, Option.some_inj]
    constructor
    · rintro rfl
      exact .inl ⟨x, (hwrites _ _ _).2 ⟨rfl, rfl, rfl⟩, hsame⟩
    · rintro (⟨z, hz, -⟩ | ⟨-, hkept⟩)
      · exact ((hwrites _ _ _).1 hz).2.2.symm
      · exact absurd hsame (hkept x v ((hwrites _ _ _).2 ⟨rfl, rfl, rfl⟩))
  · have hkept : ∀ z u, Writes past op i z u → ¬ z.same y := by
      intro z u hz hsame
      obtain ⟨rfl, rfl, -⟩ := (hwrites _ _ _).1 hz
      exact hwritten ⟨rfl, hsame⟩
    rw [if_neg hwritten]
    constructor
    · exact fun hown => .inr ⟨hown, hkept⟩
    · rintro (⟨z, hz, hsame⟩ | ⟨hown, -⟩)
      · exact absurd hsame (hkept z w hz)
      · exact hown

/-- Making a scope is recorded by making it. -/
theorem create (hrecorded : past.Recorded h) (parent : Option Nat) :
    Recorded (.create parent :: past) (h.create parent) := by
  constructor
  · intro i
    rw [Heap.parent_create, hrecorded.parent, parents, List.getElem?_append,
      List.getElem?_singleton, hrecorded.size_eq]
    by_cases hi : i < past.parents.length
    · rw [if_pos hi, if_neg (Nat.ne_of_lt hi)]
    · rw [if_neg hi]
      by_cases heq : i = past.parents.length
      · rw [if_pos heq, if_pos (by omega)]
      · rw [if_neg heq, if_neg (by omega), List.getElem?_eq_none (Nat.le_of_not_lt hi)]
  · intro i x v
    rw [Heap.own?_create, hrecorded.own, last_cons_iff]
    constructor
    · exact fun hlast => .inr ⟨hlast, fun y w hwrites => by cases hwrites⟩
    · rintro (⟨y, hwrites, -⟩ | ⟨hlast, -⟩)
      · cases hwrites
      · exact hlast

end Recorded

/-! ### Carrying operations out -/

theorem heap_perform_define {name : Token} (hname : name.name? = some x) (m : Machine) :
    (finalState ((Operation.define i name v).perform m)).heap = m.heap.define i x v := by
  rw [Operation.perform, Eval.define, hname]
  rfl

theorem heap_perform_assign {name : Token} (hname : name.name? = some x) (m : Machine) :
    (finalState ((Operation.assign i name v).perform m)).heap =
      match m.heap.resolve? x i with
      | some j => m.heap.define j x v
      | none => m.heap := by
  rw [Operation.perform, Eval.assign_apply, hname]
  dsimp only
  cases m.heap.resolve? x i <;> rfl

theorem heap_perform_read {name : Token} (hname : name.name? = some x) (m : Machine) :
    (finalState ((Operation.read i name).perform m)).heap = m.heap := by
  change (finalState (EStateM.bind (Eval.read i name) _ m)).heap = m.heap
  rw [EStateM.bind, Eval.read_apply, hname]
  dsimp only
  cases m.heap.get? i x <;> rfl

/-- The heap after a history is the one that the history tells. -/
theorem Legal.recorded (hlegal : past.Legal) : past.Recorded past.after.heap := by
  induction past with
  | nil => exact ⟨fun i => rfl, fun i x v => iff_of_false nofun nofun⟩
  | cons op past ih =>
    obtain ⟨hpast, hop⟩ := hlegal
    have hrecorded := ih hpast
    cases op with
    | create parent => exact hrecorded.create parent
    | define j name v =>
      obtain ⟨hj, x, hname⟩ := hop
      rw [after, heap_perform_define hname]
      refine hrecorded.of_writes rfl (hrecorded.size_eq ▸ hj) fun k y w => ⟨fun hwrites => ?_, ?_⟩
      · cases hwrites with
        | define hname' => exact ⟨rfl, Option.some.inj (hname'.symm.trans hname), rfl⟩
      · rintro ⟨rfl, rfl, rfl⟩
        exact .define hname
    | assign i name v =>
      obtain ⟨hi, x, hname⟩ := hop
      have hresolve (j : Nat) := hrecorded.resolve?_eq_some_iff hpast hi (x := x) (j := j)
      rw [after, heap_perform_assign hname]
      cases htarget : (after past).heap.resolve? x i with
      | none =>
        refine hrecorded.of_silent rfl fun k y w hwrites => ?_
        cases hwrites with
        | assign hname' hresolves =>
          obtain rfl := Option.some.inj (hname'.symm.trans hname)
          rw [(hresolve k).2 hresolves] at htarget
          cases htarget
      | some j =>
        obtain ⟨s, hs, -⟩ := Heap.binds_of_resolve? htarget
        have hj : j < (after past).heap.scopes.size := (Array.getElem?_eq_some_iff.1 hs).1
        refine hrecorded.of_writes rfl hj fun k y w => ⟨fun hwrites => ?_, ?_⟩
        · cases hwrites with
          | assign hname' hresolves =>
            obtain rfl := Option.some.inj (hname'.symm.trans hname)
            rw [(hresolve k).2 hresolves] at htarget
            exact ⟨Option.some.inj htarget, rfl, rfl⟩
        · rintro ⟨rfl, rfl, rfl⟩
          exact .assign hname ((hresolve _).1 htarget)
    | read i name =>
      obtain ⟨-, x, hname⟩ := hop
      rw [after, heap_perform_read hname]
      exact hrecorded.of_silent rfl fun j y w hwrites => by cases hwrites

/-- A name is bound in the scope that it is found in. -/
theorem Resolves.binds (h : past.Resolves i x j) : past.Binds j x := by
  obtain ⟨-, -, -, hbinds, -⟩ := h
  exact hbinds

/-- Names that are the same are found in the same scope. -/
theorem Resolves.of_same {y : Atom} (h : past.Resolves i x j) (hsame : x.same y) :
    past.Resolves i y j := by
  have hbinds {k : Nat} {x y : Atom} (hsame : x.same y) (h : past.Binds k x) :
      past.Binds k y := by
    obtain ⟨name, z, v, hmem, hname, hz⟩ := h
    exact ⟨name, z, v, hmem, hname, same_trans hz hsame⟩
  have hsame' : y.same x := Atom.same_iff.2 (Atom.same_iff.1 hsame).symm
  obtain ⟨inner, outer, hchain, hj, hinner⟩ := h
  exact ⟨inner, outer, hchain, hbinds hsame hj, fun k hk hy => hinner k hk (hbinds hsame' hy)⟩

/-- A name stands for one binding. -/
theorem Resolves.unique {k : Nat} (hlegal : past.Legal) (h : past.Resolves i x j)
    (h' : past.Resolves i x k) : j = k := by
  have hi : i < past.parents.length := by
    obtain ⟨inner, outer, hchain, -⟩ := h
    exact hchain.lt_length
  have hj := (hlegal.recorded.resolve?_eq_some_iff hlegal hi).2 h
  have hk := (hlegal.recorded.resolve?_eq_some_iff hlegal hi).2 h'
  exact Option.some.inj (hj.symm.trans hk)

/-! ### Reading and assigning -/

/-- How a name that no scope binds ends a run. -/
def undefined (name : Token) : Abort :=
  .error { token := some name, cause := .undefinedVariable name.text }

open Eval (read assign)

theorem read_eq {name : Token} (hname : name.name? = some x) (m : Machine) (i : Nat) :
    read i name m = match m.heap.get? i x with
      | some v => .ok v m
      | none => .error (undefined name) m := by
  rw [Eval.read_apply, hname]
  rfl

/-- What reading yields, if the state is left aside. -/
theorem run'_read {name : Token} (hname : name.name? = some x) (m : Machine) (i : Nat) :
    (read i name).run' m = m.heap.get? i x := by
  delta EStateM.run' EStateM.run
  rw [read_eq hname]
  cases m.heap.get? i x <;> rfl

/-- The heap yields what was last written where the history finds the name. -/
theorem Recorded.get?_eq_some_iff {h : Heap Value} (hrecorded : past.Recorded h)
    (hlegal : past.Legal) (hi : i < past.parents.length) :
    h.get? i x = some v ↔ ∃ j, past.Resolves i x j ∧ past.Last j x v := by
  rw [Heap.get?_eq, Option.bind_eq_some_iff]
  simp only [hrecorded.resolve?_eq_some_iff hlegal hi, hrecorded.own]

/-- The scope that a name is found in binds it, so there is something to read. -/
theorem Recorded.get?_eq_none_iff {h : Heap Value} (hrecorded : past.Recorded h)
    (hlegal : past.Legal) (hi : i < past.parents.length) :
    h.get? i x = none ↔ ∃ chain, past.Chain i chain ∧ ∀ j ∈ chain, ¬ past.Binds j x := by
  rw [← hrecorded.resolve?_eq_none_iff hlegal hi, Heap.get?_eq]
  cases hresolve : h.resolve? x i with
  | none => simp
  | some j =>
    have hresolves := (hrecorded.resolve?_eq_some_iff hlegal hi).1 hresolve
    obtain ⟨v, hlast⟩ := binds_iff_exists_last.1 hresolves.binds
    simp [(hrecorded.own j x v).2 hlast]

/-- Scopes implement lexical lookup. After every history every chain of parents ends. Reading a name
yields what was last written to it in the nearest scope of the chain that binds it, and fails
exactly if no scope of the chain does. Assigning fails exactly where reading does, and changes
nothing then. Otherwise it sets the binding that reading reads and no other one: from wherever the
name stands for that binding it has its new value, and every other lookup yields what it did
before. -/
theorem implements_lexical_lookup (hlegal : past.Legal) :
    (∀ i : Nat, (past.after.heap.scopes[i]?).map Scope.parent = past.parents[i]?) ∧
    (∀ i < past.parents.length, ∃ chain, past.Chain i chain) ∧
    ∀ (i : Nat) (name : Token) (x : Atom), i < past.parents.length → name.name? = some x →
      (∀ v, read i name past.after = .ok v past.after ↔
        ∃ j, past.Resolves i x j ∧ past.Last j x v) ∧
      (read i name past.after = .error (undefined name) past.after ↔
        ∃ chain, past.Chain i chain ∧ ∀ j ∈ chain, ¬ past.Binds j x) ∧
      ∀ v,
        (read i name past.after = .error (undefined name) past.after ∧
          assign i name v past.after = .error (undefined name) past.after) ∨
        ∃ j w m', past.Resolves i x j ∧ read i name past.after = .ok w past.after ∧
          assign i name v past.after = .ok () m' ∧ past.after.heap.Sets m'.heap j x v ∧
          ∀ (i' : Nat) (name' : Token) (y : Atom), i' < past.parents.length →
            name'.name? = some y →
            (x.same y → past.Resolves i' x j → read i' name' m' = .ok v m') ∧
            (¬ (x.same y ∧ past.Resolves i' x j) →
              (read i' name').run' m' = (read i' name').run' past.after) := by
  have hrecorded := hlegal.recorded
  refine ⟨hrecorded.parent, fun i => hlegal.exists_chain, fun i name x hi hname => ?_⟩
  have hread := read_eq hname past.after i
  have hsome {v : Value} := hrecorded.get?_eq_some_iff (x := x) (v := v) hlegal hi
  have hnone := hrecorded.get?_eq_none_iff (x := x) hlegal hi
  refine ⟨fun v => ?_, ?_, fun v => ?_⟩
  · rw [← hsome, hread]
    cases past.after.heap.get? i x <;> simp
  · rw [← hnone, hread]
    cases past.after.heap.get? i x <;> simp
  · have hassign := Eval.assign_apply i name v past.after
    rw [hname] at hassign
    dsimp only at hassign
    cases hresolve : past.after.heap.resolve? x i with
    | none =>
      rw [Heap.get?_eq, hresolve] at hread
      rw [hresolve] at hassign
      exact .inl ⟨hread, hassign⟩
    | some j =>
      rw [hresolve] at hassign
      have hresolves := (hrecorded.resolve?_eq_some_iff hlegal hi).1 hresolve
      obtain ⟨w, hlast⟩ := binds_iff_exists_last.1 hresolves.binds
      rw [hsome.2 ⟨j, hresolves, hlast⟩] at hread
      obtain ⟨s, hs, hbound⟩ := Heap.binds_of_resolve? hresolve
      have hsets := Heap.sets_define (Array.getElem?_eq_some_iff.1 hs).1 x v
      refine .inr ⟨j, w, _, hresolves, hread, hassign, hsets, fun i' name' y hi' hname' => ?_⟩
      have hfound := hrecorded.resolve?_eq_some_iff (x := y) (j := j) hlegal hi'
      constructor
      · intro hsame hthere
        rw [read_eq hname', Heap.get?_define hs hbound,
          if_pos ⟨hsame, hfound.2 (hthere.of_same hsame)⟩]
      · intro hother
        have hnot : ¬ (x.same y ∧ past.after.heap.resolve? y i' = some j) := fun hboth =>
          hother ⟨hboth.1, (hfound.1 hboth.2).of_same
            (Atom.same_iff.2 (Atom.same_iff.1 hboth.1).symm)⟩
        rw [run'_read hname', run'_read hname', Heap.get?_define hs hbound, if_neg hnot]

/-- A token with the name `x`. -/
def tokenX : Token := .make .identifier "x" .null 1

/-- A scope inside another declares the name of the outer one again, without a value. -/
def shadowing : History :=
  [.define 1 tokenX .nil, .create (some 0), .define 0 tokenX (.text "outer"), .create none]

/-- The inner binding counts although it holds nil, and assigning to it leaves the outer one as it
was. -/
theorem implements_lexical_lookup_shadowing :
    shadowing.Legal ∧ read 1 tokenX shadowing.after = .ok .nil shadowing.after ∧
      ∃ m', assign 1 tokenX (.text "inner") shadowing.after = .ok () m' ∧
        read 1 tokenX m' = .ok (.text "inner") m' ∧
        (read 0 tokenX).run' m' = some (.text "outer") := by
  have hname : tokenX.name? = some (.text "x") := rfl
  have hsame : (Atom.text "x").same (.text "x") := Atom.same_iff.2 rfl
  have hlegal : shadowing.Legal :=
    ⟨⟨⟨⟨trivial, nofun⟩, by decide, _, hname⟩, by simp [parents, Operation.Allowed]⟩,
      by decide, _, hname⟩
  have hbinds (j : Nat) (v : Value) (hmem : .define j tokenX v ∈ shadowing) :
      shadowing.Binds j (.text "x") := ⟨_, _, v, hmem, hname, hsame⟩
  have houtermost : shadowing.Chain 0 [0] := .outermost rfl
  have hinner : shadowing.Resolves 1 (.text "x") 1 :=
    ⟨[], [0], .inside rfl houtermost, hbinds 1 .nil (by simp [shadowing]), nofun⟩
  have houter : shadowing.Resolves 0 (.text "x") 0 :=
    ⟨[], [], houtermost, hbinds 0 (.text "outer") (by simp [shadowing]), nofun⟩
  have hlastInner : shadowing.Last 1 (.text "x") .nil := .written (.define hname) hsame
  have hlastOuter : shadowing.Last 0 (.text "x") (.text "outer") := by
    refine .kept (.kept (.written (.define hname) hsame) ?_) ?_
    · intro y w hwrites
      cases hwrites
    · intro y w hwrites
      cases hwrites
  obtain ⟨-, -, hlookup⟩ := implements_lexical_lookup hlegal
  obtain ⟨hread, -, hassign⟩ := hlookup 1 tokenX _ (by decide) hname
  have hnil := (hread .nil).2 ⟨1, hinner, hlastInner⟩
  refine ⟨hlegal, hnil, ?_⟩
  rcases hassign (.text "inner") with ⟨hfails, -⟩ | ⟨j, w, m', hresolves, -, hdone, -, hothers⟩
  · rw [hnil] at hfails
    cases hfails
  · obtain rfl := hinner.unique hlegal hresolves
    refine ⟨m', hdone, (hothers 1 tokenX _ (by decide) hname).1 hsame hresolves, ?_⟩
    have hkept := (hothers 0 tokenX _ (by decide) hname).2 fun hboth => ?_
    · rw [hkept, run'_read hname]
      exact (hlegal.recorded.get?_eq_some_iff hlegal (by decide)).2 ⟨0, houter, hlastOuter⟩
    · cases houter.unique hlegal hboth.2

end History

end Scriptlet
