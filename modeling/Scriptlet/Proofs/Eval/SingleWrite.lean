import Scriptlet.Proofs.Eval.IndexAssignment

/-!
# An assignment to a position writes one binding or none

An assignment to a position of a text looks its variable up twice: it reads the variable before the
index and the value are evaluated and writes it afterwards. In between anything may run. Still both
lookups find the same scope, since evaluating an expression takes no scope away and adds no name to
one. All checks come before the write, so an assignment that fails has written nothing.

## Main results

* `Heap.Frame.resolve?` — a name is found where it was found before
* `Eval.eval_assignIndex_eq_error` — an assignment to a position that fails
* `Eval.assignIndex_writes_once` — what an assignment to a position leaves behind
-/

namespace Scriptlet

/-! ### Frames and lookup -/

theorem Scope.binds_eq_any_names {V : Type} (s : Scope V) (x : Atom) :
    s.binds x = s.names.any (·.same x) := by
  rw [Scope.binds, Scope.get?, Scope.names]
  induction s.bindings with
  | nil => rfl
  | cons b rest ih =>
    rw [Scope.find?, List.map_cons, List.any_cons, ← ih]
    split
    · next hsame => simp [hsame]
    · next hsame => simp [hsame]

/-- A name is found where it was found before if no scope that was there got names. -/
theorem Heap.Frame.resolve? {V : Type} {h h' : Heap V} (hframe : Frame (fun _ => False) h h')
    {x : Atom} {i j : Nat} (hresolve : h.resolve? x i = some j) : h'.resolve? x i = some j := by
  have hscope {i : Nat} {s : Scope V} (hs : h.scopes[i]? = some s) :
      ∃ s', h'.scopes[i]? = some s' ∧ s'.parent = s.parent ∧ s'.binds x = s.binds x := by
    obtain ⟨s', hs', hparent, -, hnames⟩ := hframe i s hs
    refine ⟨s', hs', hparent, ?_⟩
    rw [Scope.binds_eq_any_names, Scope.binds_eq_any_names, hnames id]
  fun_induction Heap.resolve? h x i with
  | case1 => cases hresolve
  | case2 i s hs hbinds =>
    obtain ⟨s', hs', -, hbinds'⟩ := hscope hs
    rw [Heap.resolve?, hs']
    exact (if_pos (hbinds'.trans hbinds)).trans hresolve
  | case3 => cases hresolve
  | case4 i s hs hbinds p hparent hlt ih =>
    obtain ⟨s', hs', hparent', hbinds'⟩ := hscope hs
    rw [Heap.resolve?, hs']
    simp [hparent', hbinds', hparent, hbinds, hlt, ih hresolve]
  | case5 => cases hresolve

namespace Eval

/-! ### Steps that fail -/

section Steps

variable {α β : Type} {step : Eval α} {f : α → Eval β} {m m' m₁ : Machine} {a : α} {abort : Abort}

theorem bind_of_ok (h : step m = .ok a m₁) : (step >>= f) m = f a m₁ := by
  change EStateM.bind step f m = _
  rw [EStateM.bind, h]

theorem bind_of_error (h : step m = .error abort m') : (step >>= f) m = .error abort m' := by
  change EStateM.bind step f m = _
  rw [EStateM.bind, h]

/-- Steps one after the other fail in the first or in the second. -/
theorem error_or_exists_of_bind_eq_error (h : (step >>= f) m = .error abort m') :
    step m = .error abort m' ∨ ∃ a m₁, step m = .ok a m₁ ∧ f a m₁ = .error abort m' := by
  cases hstep : step m with
  | ok a m₁ => exact .inr ⟨a, m₁, rfl, (bind_of_ok hstep).symm.trans h⟩
  | error abort' m₁ =>
    obtain ⟨rfl, rfl⟩ := EStateM.Result.error.inj ((bind_of_error hstep).symm.trans h)
    exact .inl rfl

theorem eq_of_read_eq_ok {scope : Nat} {name : Token} {v : Value}
    (h : read scope name m = .ok v m') : m' = m := by
  rw [read_apply] at h
  split at h
  · cases h
  · split at h <;> cases h
    rfl

theorem eq_of_read_eq_error {scope : Nat} {name : Token} (h : read scope name m = .error abort m') :
    m' = m := by
  rw [read_apply] at h
  split at h
  · cases h
    rfl
  · split at h <;> cases h
    rfl

theorem eq_of_assign_eq_error {scope : Nat} {name : Token} {v : Value}
    (h : assign scope name v m = .error abort m') : m' = m := by
  rw [assign_apply] at h
  split at h
  · cases h
    rfl
  · split at h <;> cases h
    rfl

theorem eq_of_located_eq_error {t : Token} {result : Except RuntimeCause α}
    (h : located t result m = .error abort m') : m' = m := by
  cases result <;> cases h
  rfl

end Steps

/-! ### Assignments to a position -/

variable {settings : Settings} {d scope : Nat} {name bracket : Token} {index value : Tree}
  {m m' : Machine} {abort : Abort}

/-- What is put into a text once the text, the index and the value are there. -/
def putChar (scope : Nat) (name bracket : Token) (a i v : Value) : Eval Value := do
  let (cs, position) ← located bracket (indexPosition a i)
  match singleChar? v with
  | some c => do
    assign scope name (replaceAt cs position c)
    return v
  | none => failAt bracket .notSingleCharacter

theorem eval_assignIndex_eq : eval settings (d + 1)
    (.assignIndex (.varRef name) bracket index value) scope = (do
      let a ← read scope name
      let i ← eval settings d index scope
      let v ← eval settings d value scope
      putChar scope name bracket a i v) := by
  rw [eval]
  rfl

/-- Putting a character into a text writes last, so if it fails it has written nothing. -/
theorem eq_of_putChar_eq_error {a i v : Value}
    (h : putChar scope name bracket a i v m = .error abort m') : m' = m := by
  rw [putChar] at h
  obtain hposition | ⟨⟨cs, position⟩, m₁, hposition, hput⟩ := error_or_exists_of_bind_eq_error h
  · exact eq_of_located_eq_error hposition
  rw [← (eq_ok_of_located hposition).2]
  cases hc : singleChar? v with
  | none =>
    simp only [hc] at hput
    cases hput
    rfl
  | some c =>
    simp only [hc] at hput
    obtain hassign | ⟨_, m₂, -, hreturn⟩ := error_or_exists_of_bind_eq_error hput
    · exact eq_of_assign_eq_error hassign
    · cases hreturn

/-- The operands of an assignment to a position, with the name in front. -/
def operands (settings : Settings) (d scope : Nat) (name : Token) (index value : Tree) :
    Eval (List Value) :=
  evalEach (fun e => eval settings d e scope) [.varRef name, index, value]

theorem eval_zero (settings : Settings) (t : Tree) (scope : Nat) (m : Machine) :
    eval settings 0 t scope m = .error .tooDeep m := by
  rw [eval]
  rfl

/-- Without any stack left nothing is evaluated. -/
theorem finalState_operands_zero :
    finalState (operands settings 0 scope name index value m) = m := by
  rw [operands, evalEach, bind_of_error (eval_zero settings _ scope m), finalState]

/-- An assignment to a position that fails leaves the state as its operands left it. -/
theorem eval_assignIndex_eq_error
    (h : eval settings (d + 1) (.assignIndex (.varRef name) bracket index value) scope m =
      .error abort m') :
    m' = finalState (operands settings d scope name index value m) := by
  rw [eval_assignIndex_eq] at h
  cases d with
  | zero =>
    rw [finalState_operands_zero]
    obtain hread | ⟨a, m₁, hread, hrest⟩ := error_or_exists_of_bind_eq_error h
    · exact eq_of_read_eq_error hread
    · rw [bind_of_error (eval_zero settings index scope m₁)] at hrest
      cases hrest
      exact eq_of_read_eq_ok hread
  | succ d =>
    -- the operands run one after the other, up to the first that fails
    have hname : eval settings (d + 1) (.varRef name) scope = read scope name := by rw [eval]
    simp only [operands, evalEach, hname, bind_assoc]
    obtain hread | ⟨a, m₁, hread, hrest⟩ := error_or_exists_of_bind_eq_error h
    · rw [bind_of_error hread, finalState]
    rw [bind_of_ok hread]
    obtain hindex | ⟨i, m₂, hindex, hrest⟩ := error_or_exists_of_bind_eq_error hrest
    · rw [bind_of_error hindex, finalState]
    rw [bind_of_ok hindex]
    obtain hvalue | ⟨v, m₃, hvalue, hput⟩ := error_or_exists_of_bind_eq_error hrest
    · rw [bind_of_error hvalue, finalState]
    rw [bind_of_ok hvalue, eq_of_putChar_eq_error hput]
    rfl

/-- Evaluating an expression leaves a name where it is found. -/
theorem resolve?_of_eval_eq_ok {t : Tree} {v : Value} {x : Atom} {i j : Nat}
    (h : eval settings d t scope m = .ok v m') (hresolve : m.heap.resolve? x i = some j) :
    m'.heap.resolve? x i = some j := by
  have heval : KeepsScopes (fun _ => False) m.heap (eval settings d t scope) fun _ => True :=
    (frameAt settings d).eval t scope
  have hframe := heval.frame
  rw [h] at hframe
  exact hframe.resolve? hresolve

/-- A text with the character at a position replaced. -/
theorem sameExcept_ofList_set {position : Nat} {s : String} (c : Char) :
    SameExcept position (String.ofList (s.toList.set position c)) s := by
  constructor
  · rw [String.length_ofList, List.length_set, String.length_toList]
  · intro k hk
    rw [String.toList_ofList, List.getElem?_set_ne (Ne.symm hk)]

/-- An assignment to a position writes the binding that it read, or nothing. If it fails, the state
is the one that its operands left, evaluated in order. If it succeeds, the state is the one that the
index and the value left, with a single binding set: that of the name in the scope in which it was
found before they were evaluated. It holds a text as long as the one that was read, with the same
characters but for the one at the index, which is the value. -/
theorem assignIndex_writes_once (settings : Settings) (d scope : Nat) (name bracket : Token)
    (index value : Tree) (m : Machine) :
    match eval settings d (.assignIndex (.varRef name) bracket index value) scope m with
    | .error _ m' => m' = finalState (operands settings (d - 1) scope name index value m)
    | .ok result m' => ∃ (x : Atom) (target : Nat) (before after : String) (i : Value)
          (m₁ m₂ : Machine) (position : Nat) (c : Char),
        name.name? = some x ∧ m.heap.resolve? x scope = some target ∧
        m.heap.own? target x = some (.text before) ∧
        eval settings (d - 1) index scope m = .ok i m₁ ∧
        eval settings (d - 1) value scope m₁ = .ok result m₂ ∧
        i.number?.bind Number.whole? = some (position : Int) ∧ position < before.length ∧
        result = .text (String.singleton c) ∧
        SameExcept position after before ∧ after.toList[position]? = some c ∧
        m₂.heap.Sets m'.heap target x (.text after) ∧ m' = { m₂ with heap := m'.heap } := by
  cases d with
  | zero =>
    rw [eval_zero]
    exact finalState_operands_zero.symm
  | succ d =>
    rw [Nat.add_sub_cancel]
    split
    · next hrun => exact eval_assignIndex_eq_error hrun
    · next result m' hrun =>
      obtain ⟨x, before, i, m₁, m₂, position, target, c, hx, hget, hindex, hvalue, hwhole, hlt, hc,
        htarget, rfl⟩ := eval_assignIndex_eq_ok hrun
      rw [Heap.get?_eq] at hget
      obtain ⟨first, hfirst, hown⟩ := Option.bind_eq_some_iff.1 hget
      -- both lookups find the name in the same scope
      have hsecond := resolve?_of_eval_eq_ok hvalue (resolve?_of_eval_eq_ok hindex hfirst)
      obtain rfl := Option.some.inj (hsecond.symm.trans htarget)
      obtain ⟨s, hs, -⟩ := Heap.binds_of_resolve? htarget
      have hsets := m₂.heap.sets_define (Array.getElem?_eq_some_iff.1 hs).1 x
        (replaceAt before.toList position c)
      refine ⟨x, first, before, _, i, m₁, m₂, position, c, hx, hfirst, hown, hindex, hvalue, hwhole,
        hlt, hc, sameExcept_ofList_set c, ?_, hsets, rfl⟩
      rw [String.toList_ofList, List.getElem?_set_self (by rwa [String.length_toList])]

end Eval

end Scriptlet
