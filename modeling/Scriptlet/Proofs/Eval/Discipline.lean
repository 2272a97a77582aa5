import Scriptlet.Proofs.Eval.Frame
import Scriptlet.Proofs.Eval.Typing
import Scriptlet.Proofs.Tree.Within

/-!
# What a run can get hold of

A run starts with a tree and a scope. From the tree it takes the tokens at which it locates its
errors; from the scope it gets to the parents of scopes, to the functions that they bind and, by
calling these, to the scopes and the trees of their declarations. Nothing else ever comes into its
hands, but for the scopes that it makes itself. A discipline names tokens and scopes such that the
ones the run starts with are among them, and everything that the named scopes bind stays within
them: then so does all that the run reads, writes, returns and reports.

The evaluator is gone through once, for every discipline. What a discipline says of the heap beyond
this is up to it, as long as making a scope and writing to a named scope keep it.

Scopes that are made during the run are named only once they are there, so that the named scopes
grow with the heap. A contract therefore says from which number of scopes on it holds, and what its
result satisfies depends on the number of scopes there are at the end.

## Main definitions

* `Discipline` — named tokens and scopes, and a property of heaps
* `Value.Obeys`, `Machine.Obeys` — values and states that lead to nothing else
* `Abort.LocatedAt` — an error is located at a named token
* `Eval.Obeys` — the contract of a step

## Main results

* `Eval.obeysAt` — statements, expressions and calls obey every discipline
* `Eval.obeys_interpret` — so do programs
-/

namespace Scriptlet

/-! ### Disciplines -/

/-- The number of scopes there are. -/
abbrev Machine.scopeCount (m : Machine) : Nat := m.heap.scopes.size

/-- Named tokens, named scopes, and a property of heaps that making scopes and writing to named
scopes keep. The scopes from number `start` on are named as soon as they are made. -/
structure Discipline where
  token : Token → Prop
  root : Nat → Prop
  start : Nat
  heap : Heap Value → Prop
  start_le {h : Heap Value} : heap h → start ≤ h.scopes.size
  heap_create {h : Heap Value} (parent : Option Nat) : heap h → heap (h.create parent)
  heap_define {h : Heap Value} {i : Nat} (x : Atom) (v : Value) :
    heap h → root i ∨ start ≤ i → heap (h.define i x v)

namespace Discipline

variable {D : Discipline} {n n' i : Nat}

/-- The scopes that are named once there are `n` scopes. -/
def Scope (D : Discipline) (n i : Nat) : Prop := D.root i ∨ (D.start ≤ i ∧ i < n)

theorem Scope.mono (hi : D.Scope n i) (hn : n ≤ n') : D.Scope n' i :=
  hi.imp_right fun h => ⟨h.1, Nat.lt_of_lt_of_le h.2 hn⟩

/-- A scope that is there was named when it was made. -/
theorem Scope.of_lt (hi : D.Scope n' i) (hlt : i < n) : D.Scope n i :=
  hi.imp_right fun h => ⟨h.1, hlt⟩

end Discipline

/-- A function is declared in a named scope, by a tree whose tokens are named. -/
def Value.Obeys (D : Discipline) (n : Nat) : Value → Prop
  | tree _ => True
  | closure c => D.Scope n c.scope ∧ c.params.Within D.token ∧ c.body.Within D.token
  | native _ => True

/-- A statement ends normally, or with a return at a named token and with a value that obeys. -/
def Signal.Obeys (D : Discipline) (n : Nat) : Option Signal → Prop
  | some signal => D.token signal.keyword ∧ signal.value.Obeys D n
  | none => True

/-- From named scopes one gets only to named scopes and to functions that obey. -/
structure Machine.Obeys (D : Discipline) (m : Machine) : Prop where
  heap : D.heap m.heap
  parent {i p : Nat} {s : Scope Value} : D.Scope m.scopeCount i → m.heap.scopes[i]? = some s →
    s.parent = some p → D.Scope m.scopeCount p
  value {i : Nat} {s : Scope Value} : D.Scope m.scopeCount i → m.heap.scopes[i]? = some s →
    ∀ b ∈ s.bindings, b.2.Obeys D m.scopeCount

/-- An error is located at a token that satisfies `P`; other early ends are not located. -/
def Abort.LocatedAt (P : Token → Prop) : Abort → Prop
  | error e => ∃ t, e.token = some t ∧ P t
  | _ => True

/-- Where the battle hook locates its error itself, it does so at a named token. -/
def Settings.LocatedAt (P : Token → Prop) (settings : Settings) : Prop :=
  ∀ call e t, settings.hook.failure? call = some e → e.token = some t → P t

theorem Value.Obeys.mono {D : Discipline} {n n' : Nat} {v : Value} (hv : v.Obeys D n)
    (hn : n ≤ n') : v.Obeys D n' := by
  cases v with
  | tree | native => trivial
  | closure c => exact ⟨hv.1.mono hn, hv.2⟩

theorem Signal.Obeys.mono {D : Discipline} {n n' : Nat} {result : Option Signal}
    (hresult : Signal.Obeys D n result) (hn : n ≤ n') : Signal.Obeys D n' result := by
  cases result with
  | none => trivial
  | some signal => exact ⟨hresult.1, hresult.2.mono hn⟩

namespace Machine.Obeys

variable {D : Discipline} {m : Machine} {i : Nat}

/-- The state obeys as long as its heap is the same. -/
theorem of_heap_eq {m' : Machine} (hm : m.Obeys D) (h : m'.heap = m.heap) : m'.Obeys D where
  heap := h ▸ hm.heap
  parent := by
    rw [scopeCount, h]
    exact hm.parent
  value := by
    rw [scopeCount, h]
    exact hm.value

theorem create (hm : m.Obeys D) {parent : Nat} (hparent : D.Scope m.scopeCount parent) :
    Machine.Obeys D { m with heap := m.heap.create (some parent) } where
  heap := D.heap_create _ hm.heap
  parent := by
    intro i p s hi hs hp
    rw [scopeCount, Heap.size_create] at hi ⊢
    rw [Heap.create, Array.getElem?_push] at hs
    split at hs
    · cases hs
      cases hp
      exact hparent.mono (Nat.le_succ _)
    · have hlt := (Array.getElem?_eq_some_iff.1 hs).1
      exact (hm.parent (hi.of_lt hlt) hs hp).mono (Nat.le_succ _)
  value := by
    intro i s hi hs b hb
    rw [scopeCount, Heap.size_create] at hi ⊢
    rw [Heap.create, Array.getElem?_push] at hs
    split at hs
    -- the new scope is empty
    · cases hs
      cases hb
    · have hlt := (Array.getElem?_eq_some_iff.1 hs).1
      exact (hm.value (hi.of_lt hlt) hs b hb).mono (Nat.le_succ _)

theorem define (hm : m.Obeys D) (hi : D.Scope m.scopeCount i) (x : Atom) {v : Value}
    (hv : v.Obeys D m.scopeCount) :
    Machine.Obeys D { m with heap := m.heap.define i x v } where
  heap := D.heap_define x v hm.heap (hi.imp_right And.left)
  parent := by
    intro j p s hj hs hp
    rw [scopeCount, Heap.size_define] at hj ⊢
    rw [Heap.define, Array.getElem?_modify] at hs
    split at hs
    · obtain ⟨s', hs', rfl⟩ := Option.map_eq_some_iff.1 hs
      exact hm.parent hj hs' hp
    · exact hm.parent hj hs hp
  value := by
    intro j s hj hs
    rw [scopeCount, Heap.size_define] at hj ⊢
    rw [Heap.define, Array.getElem?_modify] at hs
    split at hs
    · obtain ⟨s', hs', rfl⟩ := Option.map_eq_some_iff.1 hs
      exact Heap.Typed.forall_put hv (hm.value hj hs')
    · exact hm.value hj hs

/-- A name seen from a named scope is bound in one. -/
theorem resolve? (hm : m.Obeys D) {x : Atom} {j : Nat} (hi : D.Scope m.scopeCount i)
    (hresolve : m.heap.resolve? x i = some j) : D.Scope m.scopeCount j := by
  fun_induction Heap.resolve? m.heap x i with
  | case1 => cases hresolve
  | case2 =>
    cases hresolve
    exact hi
  | case3 => cases hresolve
  | case4 i s hs _ p hp _ ih => exact ih (hm.parent hi hs hp) hresolve
  | case5 => cases hresolve

theorem get? (hm : m.Obeys D) {x : Atom} {v : Value} (hi : D.Scope m.scopeCount i)
    (hget : m.heap.get? i x = some v) : v.Obeys D m.scopeCount := by
  obtain ⟨j, hresolve, hget⟩ := Option.bind_eq_some_iff.1 hget
  obtain ⟨s, hs, hfind⟩ := Option.bind_eq_some_iff.1 hget
  obtain ⟨b, hb, rfl⟩ := Heap.Typed.mem_of_find? hfind
  exact hm.value (hm.resolve? hi hresolve) hs b hb

end Machine.Obeys

/-! ### Contracts -/

namespace Eval

/-- From every state that obeys and has at least `n` scopes, the step ends in a state that obeys and
has no fewer: with a result that satisfies `Q` for the number of scopes there are then, or with an
error that is located at a named token. -/
def Obeys {α : Type} (D : Discipline) (n : Nat) (step : Eval α) (Q : Nat → α → Prop) : Prop :=
  ∀ m, n ≤ m.scopeCount → m.Obeys D → match step m with
    | .ok a m' => m'.Obeys D ∧ m.scopeCount ≤ m'.scopeCount ∧ Q m'.scopeCount a
    | .error abort m' => m'.Obeys D ∧ m.scopeCount ≤ m'.scopeCount ∧ abort.LocatedAt D.token

variable {D : Discipline} {settings : Settings} {α β : Type} {n : Nat} {scope : Nat}

theorem obeys_pure {Q : Nat → α → Prop} {a : α} (ha : ∀ k, n ≤ k → Q k a) :
    Obeys D n (pure a) Q :=
  fun m hn hm => ⟨hm, Nat.le_refl _, ha m.scopeCount hn⟩

theorem obeys_throw {Q : Nat → α → Prop} {abort : Abort} (habort : abort.LocatedAt D.token) :
    Obeys D n (throw abort) Q :=
  fun _ _ hm => ⟨hm, Nat.le_refl _, habort⟩

/-- A step that leaves the heap alone obeys if its errors are located at named tokens. -/
theorem obeys_of_keeps {Q : α → Prop} {step : Eval α}
    (h : ∀ heap, Keeps (·.heap = heap) (Abort.LocatedAt D.token) step Q) :
    Obeys D n step fun _ => Q := by
  intro m _ hm
  have hsame {m' : Machine} (hheap : m'.heap = m.heap) :
      m'.Obeys D ∧ m.scopeCount ≤ m'.scopeCount :=
    ⟨hm.of_heap_eq hheap, Nat.le_of_eq (congrArg (·.scopes.size) hheap.symm)⟩
  have hstep := h m.heap m rfl
  cases hrun : step m with
  | ok a m' =>
    rw [hrun] at hstep
    exact ⟨(hsame hstep.1).1, (hsame hstep.1).2, hstep.2⟩
  | error abort m' =>
    rw [hrun] at hstep
    exact ⟨(hsame hstep.1).1, (hsame hstep.1).2, hstep.2⟩

namespace Obeys

variable {Q : Nat → α → Prop} {R : Nat → β → Prop} {step : Eval α}

/-- What holds from some number of scopes on holds from every greater number on. -/
theorem later {k : Nat} (h : Obeys D n step Q) (hk : n ≤ k) : Obeys D k step Q :=
  fun m hm => h m (Nat.le_trans hk hm)

theorem bind {f : α → Eval β} (h : Obeys D n step Q)
    (hf : ∀ k a, n ≤ k → Q k a → Obeys D k (f a) R) : Obeys D n (step >>= f) R := by
  intro m hn hm
  have hstep := h m hn hm
  change match EStateM.bind step f m with
    | .ok b m' => m'.Obeys D ∧ m.scopeCount ≤ m'.scopeCount ∧ R m'.scopeCount b
    | .error abort m' => m'.Obeys D ∧ m.scopeCount ≤ m'.scopeCount ∧ abort.LocatedAt D.token
  rw [EStateM.bind]
  split at hstep <;> rename_i hrun <;> simp only [hrun]
  -- the second step starts from the scopes that the first has left
  · rename_i a m'
    obtain ⟨hm', hgrown, ha⟩ := hstep
    have hnext := hf m'.scopeCount a (Nat.le_trans hn hgrown) ha m' (Nat.le_refl _) hm'
    split at hnext
    · exact ⟨hnext.1, Nat.le_trans hgrown hnext.2.1, hnext.2.2⟩
    · exact ⟨hnext.1, Nat.le_trans hgrown hnext.2.1, hnext.2.2⟩
  · exact hstep

/-- A step whose result does not matter, followed by another. -/
theorem seq {next : Eval β} (h : Obeys D n step Q) (hnext : Obeys D n next R) :
    Obeys D n (step >>= fun _ => next) R :=
  h.bind fun _ _ hk _ => hnext.later hk

theorem mono {Q' : Nat → α → Prop} (h : Obeys D n step Q) (hQ : ∀ k a, n ≤ k → Q k a → Q' k a) :
    Obeys D n step Q' := by
  intro m hn hm
  have hstep := h m hn hm
  split at hstep
  · exact ⟨hstep.1, hstep.2.1, hQ _ _ (Nat.le_trans hn hstep.2.1) hstep.2.2⟩
  · exact hstep

theorem overflowAt {t : Token} (h : Obeys D n step Q) (ht : D.token t) :
    Obeys D n (overflowAt t step) Q := by
  intro m hn hm
  have hstep := h m hn hm
  rw [Eval.overflowAt]
  split at hstep <;> rename_i hrun
  · simpa only [hrun] using hstep
  · rename_i abort m'
    cases abort with
    | tooDeep => simpa only [hrun] using ⟨hstep.1, hstep.2.1, t, rfl, ht⟩
    | error | unfinished | fault | arguments => simpa only [hrun] using hstep

/-! ### Loops -/

theorem runEach {run : Tree → Eval (Option Signal)} {statements : List Tree}
    (h : ∀ s ∈ statements, Obeys D n (run s) (Signal.Obeys D)) :
    Obeys D n (runEach run statements) (Signal.Obeys D) := by
  induction statements generalizing n with
  | nil => exact obeys_pure fun _ _ => trivial
  | cons s rest ih =>
    rw [List.forall_mem_cons] at h
    refine h.1.bind fun k result hk hresult => ?_
    cases result with
    | some signal => exact obeys_pure fun j hj => hresult.mono hj
    | none => exact ih fun s hs => (h.2 s hs).later hk

theorem evalEach {evaluate : Tree → Eval Value} {expressions : List Tree}
    (h : ∀ e ∈ expressions, Obeys D n (evaluate e) (Value.Obeys D)) :
    Obeys D n (evalEach evaluate expressions) fun k vs => ∀ v ∈ vs, v.Obeys D k := by
  induction expressions generalizing n with
  | nil => exact obeys_pure fun _ _ => nofun
  | cons e rest ih =>
    rw [List.forall_mem_cons] at h
    refine h.1.bind fun k v hk hv => ?_
    refine (ih fun e he => (h.2 e he).later hk).bind fun j vs hj hvs => obeys_pure fun i hi => ?_
    exact List.forall_mem_cons.2
      ⟨hv.mono (Nat.le_trans hj hi), fun w hw => (hvs w hw).mono hi⟩

theorem whileTurn {condition : Eval Value} {body : Eval (Option Signal)}
    (hcondition : Obeys D n condition (Value.Obeys D))
    (hbody : Obeys D n body (Signal.Obeys D)) :
    Obeys D n (whileTurn condition body) fun k ended =>
      ∀ a, ended = some a → Signal.Obeys D k a := by
  refine hcondition.bind fun k v hk _ => ?_
  split
  · refine (hbody.later hk).bind fun j result _ hresult => ?_
    cases result with
    | some signal =>
      refine obeys_pure fun i hi a ha => ?_
      cases ha
      exact hresult.mono hi
    | none =>
      refine obeys_pure fun _ _ a ha => ?_
      cases ha
  · refine obeys_pure fun _ _ a ha => ?_
    cases ha
    trivial

theorem whileLoop {condition : Eval Value} {body : Eval (Option Signal)}
    (hcondition : Obeys D n condition (Value.Obeys D))
    (hbody : Obeys D n body (Signal.Obeys D)) (turns : Nat) :
    Obeys D n (untilSome (Eval.whileTurn condition body) turns) (Signal.Obeys D) := by
  -- the turns start from more and more scopes, which does not matter
  induction turns with
  | zero => exact obeys_throw trivial
  | succ turns ih =>
    refine (hcondition.whileTurn hbody).bind fun k ended hk hended => ?_
    cases ended with
    | some a => exact obeys_pure fun j hj => (hended a rfl).mono hj
    | none => exact ih.later hk

end Obeys

/-! ### Basic steps -/

theorem obeys_failAt {Q : Nat → α → Prop} {t : Token} {cause : RuntimeCause} (ht : D.token t) :
    Obeys D n (failAt t cause : Eval α) Q :=
  obeys_throw ⟨t, rfl, ht⟩

theorem obeys_printLine (line : String) : Obeys D n (printLine line) fun _ _ => True :=
  obeys_of_keeps fun _ => keeps_modify fun _ hm => hm

theorem obeys_traceLine (level : Nat) (line : Unit → String) :
    Obeys D n (traceLine settings level line) fun _ _ => True := by
  refine obeys_of_keeps fun heap => ?_
  rw [traceLine]
  split
  · refine keeps_modify fun m hm => ?_
    split <;> exact hm
  · exact keeps_pure trivial

theorem obeys_newClosureId : Obeys D n newClosureId fun _ _ => True :=
  obeys_of_keeps fun _ => keeps_modifyGet fun _ hm => hm

theorem obeys_newScope {parent : Nat} (hparent : D.Scope n parent) :
    Obeys D n (newScope parent) D.Scope := by
  intro m hn hm
  have hgrown : m.scopeCount < (m.heap.create (some parent)).scopes.size := by simp
  exact ⟨hm.create (hparent.mono hn), Nat.le_of_lt hgrown, .inr ⟨D.start_le hm.heap, hgrown⟩⟩

theorem obeys_store (hscope : D.Scope n scope) (x : Atom) {v : Value} (hv : v.Obeys D n) :
    Obeys D n (modify fun m => { m with heap := m.heap.define scope x v }) fun _ _ => True := by
  intro m hn hm
  have hsize : m.scopeCount = (m.heap.define scope x v).scopes.size := by simp
  exact ⟨hm.define (hscope.mono hn) x (hv.mono hn), Nat.le_of_eq hsize, trivial⟩

theorem obeys_define (hscope : D.Scope n scope) (name : Token) {v : Value} (hv : v.Obeys D n) :
    Obeys D n (define scope name v) fun _ _ => True := by
  rw [define]
  split
  · next x _ => exact obeys_store hscope x hv
  · exact obeys_throw trivial

theorem obeys_read (hscope : D.Scope n scope) {name : Token} (hname : D.token name) :
    Obeys D n (read scope name) (Value.Obeys D) := by
  intro m hn hm
  rw [read_apply]
  cases name.name? with
  | none => exact ⟨hm, Nat.le_refl _, trivial⟩
  | some x =>
    cases hget : m.heap.get? scope x with
    | none =>
      simp only [hget]
      exact ⟨hm, Nat.le_refl _, name, rfl, hname⟩
    | some v =>
      simp only [hget]
      exact ⟨hm, Nat.le_refl _, hm.get? (hscope.mono hn) hget⟩

/-- An assignment writes to a named scope, since it resolves the name from one. -/
theorem obeys_assign (hscope : D.Scope n scope) {name : Token} (hname : D.token name) {v : Value}
    (hv : v.Obeys D n) : Obeys D n (assign scope name v) fun _ _ => True := by
  intro m hn hm
  rw [assign_apply]
  cases name.name? with
  | none => exact ⟨hm, Nat.le_refl _, trivial⟩
  | some x =>
    cases hresolve : m.heap.resolve? x scope with
    | none =>
      simp only [hresolve]
      exact ⟨hm, Nat.le_refl _, name, rfl, hname⟩
    | some target =>
      simp only [hresolve]
      have htarget := hm.resolve? (hscope.mono hn) hresolve
      exact obeys_store htarget x (hv.mono hn) m (Nat.le_refl _) hm

theorem obeys_located {Q : Nat → α → Prop} {t : Token} (ht : D.token t)
    {result : Except RuntimeCause α} (hresult : ∀ k a, result = .ok a → Q k a) :
    Obeys D n (located t result) Q := by
  cases result with
  | ok a => exact obeys_pure fun k _ => hresult k a rfl
  | error cause => exact obeys_failAt ht

theorem obeys_checkArity {paren : Token} (hparen : D.token paren) (expected got : Nat) :
    Obeys D n (checkArity paren expected got) fun _ _ => expected = got :=
  obeys_of_keeps fun _ => keeps_checkArity ⟨paren, rfl, hparen⟩

theorem obeys_itemsOf {t : Tree} (ht : t.Within D.token) :
    Obeys D n (itemsOf t) fun _ items => ∀ i ∈ items, i.Within D.token := by
  rw [itemsOf]
  split
  · next items hitems => exact obeys_pure fun _ _ => ht.items hitems
  · exact obeys_throw trivial

theorem obeys_bindParams (hscope : D.Scope n scope) (params : List Tree) {args : List Value}
    (hargs : ∀ v ∈ args, v.Obeys D n) :
    Obeys D n (bindParams scope params args) fun _ _ => True := by
  fun_induction bindParams scope params args with
  | case1 t params v args ih =>
    rw [List.forall_mem_cons] at hargs
    exact (obeys_define hscope t hargs.1).seq (ih hargs.2)
  | case2 => exact obeys_throw trivial
  | case3 => exact obeys_pure fun _ _ => trivial

/-! ### Operators and native functions yield no declared function -/

theorem obeys_unaryResult {op : Token} {v w : Value} (h : unaryResult op v = .ok w) :
    w.Obeys D n := by
  rw [unaryResult] at h
  split at h
  · cases h
    trivial
  · split at h <;> cases h
    trivial
  · cases h

theorem obeys_binaryResult {op : Token} {a b w : Value} (h : binaryResult op a b = .ok w) :
    w.Obeys D n := by
  simp only [binaryResult, add, arithmetic] at h
  repeat' split at h
  all_goals cases h
  all_goals trivial

/-- An error of a native function has no place, or a named one. -/
def Abort.Placeable (P : Token → Prop) : Abort → Prop
  | .error e => ∀ t, e.token = some t → P t
  | _ => True

theorem keeps_callHook (hhook : settings.LocatedAt D.token) (heap : Heap Value) :
    Keeps (·.heap = heap) (Abort.Placeable D.token) (callHook settings) fun _ => True := by
  have hnext : Keeps (·.heap = heap) (Abort.Placeable D.token) nextHookCall fun _ => True :=
    keeps_modifyGet fun _ hm => hm
  rw [callHook]
  split
  · exact keeps_pure trivial
  · next failure? hanswers =>
    refine hnext.bind fun call _ => ?_
    split
    · next e hfails =>
      refine keeps_throw fun t ht => hhook call e t ?_ ht
      rw [hanswers, Hook.failure?, hfails]
    · exact keeps_pure trivial

theorem keeps_applyNative (hhook : settings.LocatedAt D.token) (native : Native)
    (args : List Value) (heap : Heap Value) :
    Keeps (·.heap = heap) (Abort.Placeable D.token) (applyNative settings native args)
      fun v => ∀ k, v.Obeys D k := by
  cases native with
  | clock =>
    have hread : Keeps (·.heap = heap) (Abort.Placeable D.token) (readClock settings)
        fun _ => True := keeps_modifyGet fun _ hm => hm
    exact hread.bind fun _ _ => keeps_pure fun _ => trivial
  | stepBattle => exact (keeps_callHook hhook heap).seq (keeps_pure fun _ => trivial)
  | length =>
    rw [applyNative, lengthResult.eq_def]
    split
    · exact keeps_throw trivial
    · split
      · exact keeps_pure fun _ => trivial
      · exact keeps_throw fun _ ht => by cases ht
  | concat =>
    rw [applyNative, concatResult.eq_def]
    split
    · split
      · exact keeps_pure fun _ => trivial
      · exact keeps_throw fun _ ht => by cases ht
    · exact keeps_throw trivial

/-- The errors that leave a call of a native function are located. -/
theorem obeys_native (hhook : settings.LocatedAt D.token) {paren : Token} (hparen : D.token paren)
    (native : Native) (args : List Value) :
    Obeys D n (locating paren (applyNative settings native args)) (Value.Obeys D) := by
  have hlocated (heap : Heap Value) : Keeps (·.heap = heap) (Abort.LocatedAt D.token)
      (locating paren (applyNative settings native args)) fun v => ∀ k, v.Obeys D k := by
    intro m hm
    have hstep := keeps_applyNative hhook native args heap m hm
    rw [locating]
    split at hstep <;> rename_i hrun
    · simpa only [hrun] using hstep
    · rename_i abort m'
      cases abort with
      | error e =>
        simp only [hrun]
        refine ⟨hstep.1, e.token.getD paren, rfl, ?_⟩
        cases htoken : e.token with
        | none => exact hparen
        | some t => exact hstep.2 t htoken
      | tooDeep | unfinished | fault | arguments =>
        simp only [hrun]
        exact ⟨hstep.1, trivial⟩
  exact (obeys_of_keeps hlocated).mono fun k v _ hv => hv k

/-! ### Statements, expressions and calls -/

/-- Everything that runs with `d` units of stack left obeys every discipline, from named scopes and
with trees whose tokens are named. -/
structure ObeysAt (settings : Settings) (D : Discipline) (d : Nat) : Prop where
  exec {n : Nat} {t : Tree} {scope : Nat} : t.Within D.token → D.Scope n scope →
    Obeys D n (exec settings d t scope) (Signal.Obeys D)
  execBlock {n : Nat} {t : Tree} {scope : Nat} : t.Within D.token → D.Scope n scope →
    Obeys D n (execBlock settings d t scope) (Signal.Obeys D)
  eval {n : Nat} {t : Tree} {scope : Nat} : t.Within D.token → D.Scope n scope →
    Obeys D n (eval settings d t scope) (Value.Obeys D)
  evalArgs {n : Nat} {t : Tree} {scope : Nat} : t.Within D.token → D.Scope n scope →
    Obeys D n (evalArgs settings d t scope) fun k vs => ∀ v ∈ vs, v.Obeys D k
  call {n : Nat} {f : Value} {args : List Value} {paren : Token} : f.Obeys D n →
    (∀ v ∈ args, v.Obeys D n) → D.token paren →
    Obeys D n (call settings d f args paren) (Value.Obeys D)

namespace ObeysAt

variable {d : Nat} {t : Tree}

/-- An optional expression counts as nil if it is missing. -/
theorem optional {next : Value → Eval (Option Signal)} (hd : ObeysAt settings D d)
    (ht : t.Within D.token) (hscope : D.Scope n scope)
    (hnext : ∀ k v, n ≤ k → v.Obeys D k → Obeys D k (next v) (Signal.Obeys D)) :
    Obeys D n (if t.isNull then pure .nil >>= next else Eval.eval settings d t scope >>= next)
      (Signal.Obeys D) := by
  split
  · exact hnext n .nil (Nat.le_refl n) trivial
  · exact (hd.eval ht hscope).bind hnext

theorem exec_succ (hd : ObeysAt settings D d) (ht : t.Within D.token) (hscope : D.Scope n scope) :
    Obeys D n (Eval.exec settings (d + 1) t scope) (Signal.Obeys D) := by
  have hnormal {k : Nat} : Obeys D k (pure none) (Signal.Obeys D) := obeys_pure fun _ _ => trivial
  cases t with
  | exprStmt e =>
    have he : e.Within D.token := ht
    simp only [Eval.exec]
    exact (hd.eval he hscope).seq hnormal
  | printStmt e =>
    have he : e.Within D.token := ht
    simp only [Eval.exec]
    exact (hd.eval he hscope).bind fun k v _ _ => (obeys_printLine _).seq hnormal
  | varDecl name e =>
    simp only [Eval.exec]
    refine hd.optional ht.2 hscope fun k v hk hv => ?_
    exact (obeys_define (hscope.mono hk) name hv).seq ((obeys_traceLine _ _).seq hnormal)
  | block statements =>
    simp only [Eval.exec]
    exact (obeys_newScope hscope).bind fun k inner _ hinner => hd.execBlock ht hinner
  | ifStmt condition thenBranch elseBranch =>
    obtain ⟨hcondition, hthen, helse⟩ := ht
    simp only [Eval.exec]
    refine (hd.eval hcondition hscope).bind fun k v hk _ => (obeys_traceLine _ _).seq ?_
    split
    · exact hd.exec hthen (hscope.mono hk)
    · split
      · exact hnormal
      · exact hd.exec helse (hscope.mono hk)
  | whileStmt condition body =>
    simp only [Eval.exec]
    exact .whileLoop (hd.eval ht.1 hscope) (hd.exec ht.2 hscope) _
  | forStmt initializer condition increment body =>
    simp only [Eval.exec]
    exact hd.exec (Tree.within_desugarFor ht) hscope
  -- the function belongs to the scope in which its declaration runs
  | funDecl name params body =>
    simp only [Eval.exec]
    refine obeys_newClosureId.bind fun k id hk _ => ?_
    have hdeclared : (Value.closure { id, name, params, body, scope }).Obeys D k :=
      ⟨hscope.mono hk, ht.2⟩
    refine (obeys_define (hscope.mono hk) name hdeclared).seq ?_
    exact (obeys_traceLine _ _).seq hnormal
  | returnStmt keyword e =>
    simp only [Eval.exec]
    exact hd.optional ht.2 hscope fun k v _ hv => obeys_pure fun j hj => ⟨ht.1, hv.mono hj⟩
  -- what is no statement ends the run
  | _ =>
    simp only [Eval.exec]
    exact obeys_throw trivial

theorem eval_succ (hd : ObeysAt settings D d) (ht : t.Within D.token) (hscope : D.Scope n scope) :
    Obeys D n (Eval.eval settings (d + 1) t scope) (Value.Obeys D) := by
  cases t with
  | literal v =>
    simp only [Eval.eval]
    exact obeys_pure fun _ _ => trivial
  | grouping e =>
    simp only [Eval.eval]
    exact hd.eval ht hscope
  | varRef name =>
    simp only [Eval.eval]
    exact obeys_read hscope ht
  | assign name e =>
    simp only [Eval.eval]
    refine (hd.eval ht.2 hscope).bind fun k v hk hv => ?_
    exact (obeys_assign (hscope.mono hk) ht.1 hv).seq (obeys_pure fun j hj => hv.mono hj)
  | logical left op right =>
    simp only [Eval.eval]
    refine (hd.eval ht.1 hscope).bind fun k v hk hv => ?_
    split
    · exact obeys_pure fun j hj => hv.mono hj
    · exact hd.eval ht.2.2 (hscope.mono hk)
  | unary op e =>
    simp only [Eval.eval]
    refine (hd.eval ht.2 hscope).bind fun k v hk _ => ?_
    exact obeys_located ht.1 fun _ _ => obeys_unaryResult
  | binary left op right =>
    obtain ⟨hleft, hop, hright⟩ := ht
    simp only [Eval.eval]
    refine (hd.eval hleft hscope).bind fun k a hk _ => ?_
    refine (hd.eval hright (hscope.mono hk)).bind fun k b hk _ => ?_
    exact obeys_located hop fun _ _ => obeys_binaryResult
  | call callee paren arguments =>
    obtain ⟨hcallee, hparen, harguments⟩ := ht
    simp only [Eval.eval]
    refine (hd.eval hcallee hscope).bind fun k f hk hf => ?_
    refine (hd.evalArgs harguments (hscope.mono hk)).bind fun j args hj hargs => ?_
    exact hd.call (hf.mono hj) hargs hparen
  | index target bracket index =>
    obtain ⟨htarget, hbracket, hindex⟩ := ht
    simp only [Eval.eval]
    refine (hd.eval htarget hscope).bind fun k a hk _ => ?_
    refine (hd.eval hindex (hscope.mono hk)).bind fun k i hk _ => ?_
    refine (obeys_located (Q := fun _ _ => True) hbracket fun _ _ _ => trivial).bind ?_
    exact fun _ _ _ _ => obeys_pure fun _ _ => trivial
  | assignIndex target bracket index value =>
    obtain ⟨htarget, hbracket, hindex, hvalue⟩ := ht
    cases target with
    | varRef name =>
      simp only [Eval.eval]
      refine (obeys_read hscope htarget).bind fun _ a hr _ => ?_
      refine (hd.eval hindex (hscope.mono hr)).bind fun k i hi _ => ?_
      have hk := Nat.le_trans hr hi
      refine (hd.eval hvalue (hscope.mono hk)).bind fun j v hj hv => ?_
      refine (obeys_located (Q := fun _ _ => True) hbracket fun _ _ _ => trivial).bind ?_
      intro l _ hl _
      have hscope := hscope.mono (Nat.le_trans hk (Nat.le_trans hj hl))
      split
      · next c _ =>
        refine (obeys_assign (v := replaceAt _ _ c) hscope htarget trivial).seq ?_
        exact obeys_pure fun _ hk => hv.mono (Nat.le_trans hl hk)
      · exact obeys_failAt hbracket
    | _ =>
      simp only [Eval.eval]
      exact obeys_failAt hbracket
  | _ =>
    simp only [Eval.eval]
    exact obeys_throw trivial

theorem call_succ (hd : ObeysAt settings D d) (hhook : settings.LocatedAt D.token) {f : Value}
    {args : List Value} {paren : Token} (hf : f.Obeys D n) (hargs : ∀ v ∈ args, v.Obeys D n)
    (hparen : D.token paren) :
    Obeys D n (Eval.call settings (d + 1) f args paren) (Value.Obeys D) := by
  cases f with
  | tree t =>
    simp only [Eval.call]
    exact obeys_failAt hparen
  | native native =>
    simp only [Eval.call]
    exact (obeys_checkArity hparen _ _).seq (obeys_native hhook hparen native args)
  -- a function takes the run to the scope and to the tree of its declaration
  | closure c =>
    obtain ⟨hscope, hparams, hbody⟩ := hf
    simp only [Eval.call]
    refine (obeys_itemsOf hparams).bind fun _ params hk _ => ?_
    refine (obeys_checkArity hparen _ _).seq ((obeys_traceLine _ _).seq ?_)
    refine (obeys_newScope (hscope.mono hk)).bind fun j inner hj hinner => ?_
    have hargs : ∀ v ∈ args, v.Obeys D j := fun v hv => (hargs v hv).mono (Nat.le_trans hk hj)
    refine (obeys_bindParams hinner params hargs).seq ?_
    refine ((hd.execBlock hbody hinner).overflowAt hparen).bind fun k result _ hresult => ?_
    refine obeys_pure fun j hj => ?_
    cases result with
    | none => trivial
    | some signal => exact hresult.2.mono hj

end ObeysAt

/-- Everything obeys every discipline, however much of the stack is left. -/
theorem obeysAt (hhook : settings.LocatedAt D.token) (d : Nat) : ObeysAt settings D d := by
  -- the induction is on the stack: a call runs the body of a function from anywhere
  induction d with
  | zero =>
    constructor <;> intros
    · rw [exec]; exact obeys_throw trivial
    · rw [execBlock]; exact obeys_throw trivial
    · rw [eval]; exact obeys_throw trivial
    · rw [evalArgs]; exact obeys_throw trivial
    · rw [call]; exact obeys_throw trivial
  | succ d ih =>
    constructor
    · exact ih.exec_succ
    · intro n t scope ht hscope
      rw [execBlock]
      refine (obeys_itemsOf ht).bind fun k items hk hitems => ?_
      exact .runEach fun s hs => ih.exec (hitems s hs) (hscope.mono hk)
    · exact ih.eval_succ
    · intro n t scope ht hscope
      rw [evalArgs]
      refine (obeys_itemsOf ht).bind fun k items hk hitems => ?_
      exact .evalEach fun e he => ih.eval (hitems e he) (hscope.mono hk)
    · exact ih.call_succ hhook

/-- Programs obey every discipline that names the global scope. -/
theorem obeys_interpret (hhook : settings.LocatedAt D.token)
    (hglobal : D.Scope n Machine.globalScope) {statements : List Tree}
    (hstatements : ∀ s ∈ statements, s.Within D.token) :
    Obeys D n (interpret settings statements) fun _ _ => True := by
  induction statements with
  | nil => exact obeys_pure fun _ _ => trivial
  | cons s rest ih =>
    rw [List.forall_mem_cons] at hstatements
    have hone : Obeys D n (interpretOne settings s) fun _ _ => True := by
      have hexec := (obeysAt hhook settings.depth).exec hstatements.1 hglobal
      refine hexec.bind fun k result _ hresult => ?_
      cases result with
      | none => exact obeys_pure fun _ _ => trivial
      | some signal => exact obeys_failAt hresult.1
    exact hone.seq (ih hstatements.2)

end Eval

end Scriptlet
