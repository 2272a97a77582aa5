import Scriptlet.Proofs.Eval.Folding

/-!
# Runs in folded states

Two runs that start in states of which the first is folded into the second take the same steps: they
print and trace the same, and they end in the same way, in states that are folded again. What is run
in a hollow scope of the first state must not declare anything in it, or the scope would not stay
hollow.

As a run goes on, scopes are made and get places. What was at a place stays there, so the contract
of a step is about all lists of places that extend a given one, and what it says of the results
depends on the list at the end.

## Main definitions

* `Machine.Folds` — states that differ in nothing but their heaps
* `Eval.Follows` — the contract of two steps
* `Tree.declaresNothing` — statements that declare nothing in the scope they run in

## Main results

* `Eval.Follows.bind`, `Eval.follows_hollow` — steps in sequence, and a scope made by the first run
  alone
* `Eval.followsAt` — statements, expressions and calls follow
-/

namespace Scriptlet

/-- States that differ in nothing but their heaps, of which the first is folded into the second. -/
inductive Machine.Folds (places : List Nat) (m : Machine) : Machine → Prop
  | intro {h : Heap Value} : m.heap.Folds places h → Folds places m { m with heap := h }

theorem Machine.Folds.heap {places : List Nat} {m m' : Machine} (h : m.Folds places m') :
    m.heap.Folds places m'.heap := by
  cases h with
  | intro hh => exact hh

theorem Machine.Folds.rest {places : List Nat} {m m' : Machine} (h : m.Folds places m') :
    m' = { m with heap := m'.heap } := by
  cases h with
  | intro _ => rfl

/-- Both end normally, or both with a return at the same token and with values that are the same but
for the numbers of scopes. -/
def SignalMoved (places : List Nat) : Option Signal → Option Signal → Prop :=
  Option.Rel fun signal signal' =>
    signal.keyword = signal'.keyword ∧ signal.value.Moved places signal'.value

theorem SignalMoved.mono {places later : List Nat} {r r' : Option Signal}
    (h : SignalMoved places r r') (hlater : places <+: later) : SignalMoved later r r' := by
  cases h with
  | none => exact .none
  | some hsignal => exact .some ⟨hsignal.1, hsignal.2.mono hlater⟩

/-- Values in order that are the same but for the numbers of scopes. -/
abbrev ValuesMoved (places : List Nat) : List Value → List Value → Prop :=
  List.Forall₂ (Value.Moved places)

namespace Eval

variable {places later : List Nat} {i j : Nat} {α β γ δ : Type} {Q : List Nat → α → β → Prop}
  {R : List Nat → γ → δ → Prop} {step : Eval α} {step' : Eval β}

/-! ### Contracts -/

/-- Both runs end with results that satisfy `Q`, or both early for the same reason, in states of
which the first is folded into the second. The places so far are kept. -/
inductive EndsAlike (places : List Nat) (Q : List Nat → α → β → Prop) :
    EStateM.Result Abort Machine α → EStateM.Result Abort Machine β → Prop
  | ok {later : List Nat} {a : α} {b : β} {m m' : Machine} : places <+: later →
      m.Folds later m' → Q later a b → EndsAlike places Q (.ok a m) (.ok b m')
  | error {later : List Nat} {abort : Abort} {m m' : Machine} : places <+: later →
      m.Folds later m' → EndsAlike places Q (.error abort m) (.error abort m')

/-- From states of which the first is folded into the second, with at least the given places, the
two steps end alike. -/
def Follows (places : List Nat) (step : Eval α) (step' : Eval β) (Q : List Nat → α → β → Prop) :
    Prop :=
  ∀ later, places <+: later → ∀ m m', m.Folds later m' → EndsAlike later Q (step m) (step' m')

theorem EndsAlike.earlier {r : EStateM.Result Abort Machine α}
    {r' : EStateM.Result Abort Machine β} (h : EndsAlike later Q r r') (hlater : places <+: later) :
    EndsAlike places Q r r' := by
  cases h with
  | ok hnext hm hQ => exact .ok (hlater.trans hnext) hm hQ
  | error hnext hm => exact .error (hlater.trans hnext) hm

theorem follows_pure {a : α} {b : β} (h : ∀ later, places <+: later → Q later a b) :
    Follows places (pure a) (pure b) Q :=
  fun later hlater _ _ hm => .ok List.prefix_rfl hm (h later hlater)

theorem follows_throw (abort : Abort) :
    Follows places (throw abort : Eval α) (throw abort : Eval β) Q :=
  fun _ _ _ _ hm => .error List.prefix_rfl hm

theorem follows_failAt (t : Token) (cause : RuntimeCause) :
    Follows places (failAt t cause : Eval α) (failAt t cause : Eval β) Q :=
  follows_throw _

/-- A step that does the same to both states, whatever their heaps. -/
theorem follows_modify {f : Machine → Machine}
    (hf : ∀ m h, f { m with heap := h } = { f m with heap := h } ∧ (f m).heap = m.heap) :
    Follows places (modify f) (modify f) fun _ _ _ => True := by
  rintro later - m _ @⟨h, hh⟩
  obtain ⟨hsame, hheap⟩ := hf m h
  have hfolds : (f m).Folds later { f m with heap := h } := .intro (hheap.symm ▸ hh)
  exact .ok List.prefix_rfl (hsame ▸ hfolds) trivial

namespace Follows

theorem mono (h : Follows places step step' Q) (hlater : places <+: later) :
    Follows later step step' Q :=
  fun next hnext => h next (hlater.trans hnext)

theorem bind {f : α → Eval γ} {f' : β → Eval δ} (h : Follows places step step' Q)
    (hf : ∀ later a b, places <+: later → Q later a b → Follows later (f a) (f' b) R) :
    Follows places (step >>= f) (step' >>= f') R := by
  intro later hlater m m' hm
  have hstep := h later hlater m m' hm
  change EndsAlike later R (EStateM.bind step f m) (EStateM.bind step' f' m')
  simp only [EStateM.bind]
  generalize step m = r at hstep
  generalize step' m' = r' at hstep
  cases hstep with
  | ok hnext hm hQ =>
    exact (hf _ _ _ (hlater.trans hnext) hQ _ List.prefix_rfl _ _ hm).earlier hnext
  | error hnext hm => exact .error hnext hm

/-- Steps whose results do not matter, followed by others. -/
theorem seq {next : Eval γ} {next' : Eval δ} (h : Follows places step step' Q)
    (hnext : Follows places next next' R) :
    Follows places (step >>= fun _ => next) (step' >>= fun _ => next') R :=
  h.bind fun _ _ _ hlater _ => hnext.mono hlater

theorem ite {p : Prop} [Decidable p] {other : Eval α} {other' : Eval β}
    (h : Follows places step step' Q) (hother : Follows places other other' Q) :
    Follows places (if p then step else other) (if p then step' else other') Q := by
  split
  · exact h
  · exact hother

theorem locating (h : Follows places step step' Q) (t : Token) :
    Follows places (locating t step) (locating t step') Q := by
  intro later hlater m m' hm
  have hstep := h later hlater m m' hm
  simp only [Eval.locating]
  generalize step m = r at hstep
  generalize step' m' = r' at hstep
  cases hstep with
  | ok hnext hm hQ => exact .ok hnext hm hQ
  | @error _ abort _ _ hnext hm => cases abort <;> exact .error hnext hm

theorem overflowAt (h : Follows places step step' Q) (t : Token) :
    Follows places (overflowAt t step) (overflowAt t step') Q := by
  intro later hlater m m' hm
  have hstep := h later hlater m m' hm
  simp only [Eval.overflowAt]
  generalize step m = r at hstep
  generalize step' m' = r' at hstep
  cases hstep with
  | ok hnext hm hQ => exact .ok hnext hm hQ
  | @error _ abort _ _ hnext hm => cases abort <;> exact .error hnext hm

end Follows

theorem follows_none : Follows places (pure none) (pure none) SignalMoved :=
  follows_pure fun _ _ => .none

theorem follows_some {signal signal' : Signal} (hkeyword : signal.keyword = signal'.keyword)
    (hvalue : signal.value.Moved places signal'.value) :
    Follows places (pure (some signal)) (pure (some signal')) SignalMoved :=
  follows_pure fun _ hlater => .some ⟨hkeyword, hvalue.mono hlater⟩

theorem follows_value {v v' : Value} (hv : v.Moved places v') :
    Follows places (pure v) (pure v') Value.Moved :=
  follows_pure fun _ hlater => hv.mono hlater

/-! ### Steps on the state -/

theorem follows_printLine (line : String) :
    Follows places (printLine line) (printLine line) fun _ _ _ => True :=
  follows_modify fun _ _ => ⟨rfl, rfl⟩

theorem follows_traceLine (settings : Settings) (level : Nat) (line : Unit → String) :
    Follows places (traceLine settings level line) (traceLine settings level line)
      fun _ _ _ => True := by
  refine .ite (follows_modify fun m h => ?_) (follows_pure fun _ _ => trivial)
  cases m.traceOpen <;> exact ⟨rfl, rfl⟩

theorem follows_newClosureId :
    Follows places newClosureId newClosureId fun _ id id' => id = id' := by
  rintro later - m _ ⟨hh⟩
  exact .ok List.prefix_rfl (.intro hh) rfl

theorem follows_newScope {p q : Nat} (hp : places[p]? = some q) :
    Follows places (newScope p) (newScope q) Leads := by
  rintro later hlater m _ ⟨hh⟩
  obtain ⟨hcreated, hleads⟩ := hh.create (place_later hlater hp)
  exact .ok (List.prefix_append _ _) (.intro hcreated) hleads

/-- A scope that only the first run makes is hollow, and stands where its parent does. -/
theorem follows_hollow {p q : Nat} {f : Nat → Eval α} (hp : places[p]? = some q)
    (hf : ∀ later inner, places <+: later → later[inner]? = some q →
      Follows later (f inner) step' Q) :
    Follows places (newScope p >>= f) step' Q := by
  rintro later hlater m _ ⟨hh⟩
  have hfolded := hh.hollow (place_later hlater hp)
  have hlonger : later <+: later ++ [q] := List.prefix_append _ _
  have hinner : (later ++ [q])[m.heap.scopes.size]? = some q := by
    rw [hh.size, List.getElem?_concat_length]
  have hrun := hf _ _ (hlater.trans hlonger) hinner _ List.prefix_rfl
    { m with heap := m.heap.create (some p) } _ (.intro hfolded)
  exact hrun.earlier hlonger

theorem follows_define (hi : Leads places i j) (name : Token) {v v' : Value}
    (hv : v.Moved places v') :
    Follows places (define i name v) (define j name v') fun _ _ _ => True := by
  rw [define, define]
  cases name.name? with
  | none => exact follows_throw _
  | some x =>
    rintro later hlater m _ ⟨hh⟩
    exact .ok List.prefix_rfl (.intro (hh.define (hi.mono hlater) x (hv.mono hlater))) trivial

theorem follows_read (hi : places[i]? = some j) (name : Token) :
    Follows places (read i name) (read j name) Value.Moved := by
  rintro later hlater m _ ⟨hh⟩
  simp only [read_apply]
  cases name.name? with
  | none => exact .error List.prefix_rfl (.intro hh)
  | some x =>
    have hfound := hh.get x (place_later hlater hi)
    simp only
    generalize m.heap.get? i x = found at hfound
    generalize Heap.get? _ j x = found' at hfound
    cases hfound with
    | none => exact .error List.prefix_rfl (.intro hh)
    | some hv => exact .ok List.prefix_rfl (.intro hh) hv

theorem follows_assign (hi : places[i]? = some j) (name : Token) {v v' : Value}
    (hv : v.Moved places v') :
    Follows places (assign i name v) (assign j name v') fun _ _ _ => True := by
  rintro later hlater m _ ⟨hh⟩
  simp only [assign_apply]
  cases name.name? with
  | none => exact .error List.prefix_rfl (.intro hh)
  | some x =>
    have htarget := hh.resolve x (place_later hlater hi)
    simp only
    generalize m.heap.resolve? x i = target at htarget
    generalize Heap.resolve? _ x j = target' at htarget
    cases htarget with
    | none => exact .error List.prefix_rfl (.intro hh)
    | some hleads =>
      exact .ok List.prefix_rfl (.intro (hh.define hleads x (hv.mono hlater))) trivial

/-! ### Operators and native functions -/

section Results

variable {op : Token} {v v' w w' : Value}

theorem binaryResult_moved (op : Token) (hv : v.Moved places v') (hw : w.Moved places w') :
    binaryResult op v' w' = binaryResult op v w := by
  simp only [binaryResult, add, hv.number?_eq, hw.number?_eq, hv.text?_eq, hw.text?_eq,
    hv.display_eq, hw.display_eq, hv.isEqual_eq hw]

theorem unaryResult_moved (op : Token) (hv : v.Moved places v') :
    unaryResult op v' = unaryResult op v := by
  simp only [unaryResult, hv.isTruthy_eq, hv.number?_eq]

theorem indexPosition_moved (hv : v.Moved places v') (hw : w.Moved places w') :
    indexPosition v' w' = indexPosition v w := by
  simp only [indexPosition, hv.text?_eq, hv.typeName_eq, hw.number?_eq]

theorem singleChar?_moved (hv : v.Moved places v') : singleChar? v' = singleChar? v := by
  simp only [singleChar?, hv.text?_eq]

/-- A result that is no function, if there is one. -/
def IsTree {ε : Type} : Except ε Value → Prop
  | .ok v => ∃ t, v = .tree t
  | .error _ => True

theorem isTree_arithmetic (op : Token) (x y : Float) : IsTree (arithmetic op x y) := by
  unfold arithmetic
  split
  case h_3 => split <;> simp [IsTree]
  all_goals simp [IsTree]

theorem isTree_binaryResult (op : Token) (v w : Value) : IsTree (binaryResult op v w) := by
  unfold binaryResult
  split
  · unfold add
    split
    · simp [IsTree]
    · split <;> simp [IsTree]
  · simp [IsTree]
  · simp [IsTree]
  · split
    · exact isTree_arithmetic _ _ _
    · trivial

theorem isTree_unaryResult (op : Token) (v : Value) : IsTree (unaryResult op v) := by
  unfold unaryResult
  split
  · simp [IsTree]
  · split <;> simp [IsTree]
  · trivial

theorem follows_located (t : Token) {result : Except RuntimeCause Value} (h : IsTree result) :
    Follows places (located t result) (located t result) Value.Moved := by
  cases result with
  | ok v =>
    obtain ⟨t, rfl⟩ := h
    exact follows_value (.tree t)
  | error cause => exact follows_failAt _ _

theorem follows_settled {result : Except Abort Value} (h : IsTree result) :
    Follows places (settled result) (settled result) Value.Moved := by
  cases result with
  | ok v =>
    obtain ⟨t, rfl⟩ := h
    exact follows_value (.tree t)
  | error abort => exact follows_throw _

end Results

/-- Both runs read the clock equally often, so the readings are the same. -/
theorem follows_readClock (settings : Settings) :
    Follows places (readClock settings) (readClock settings) fun _ x x' => x = x' := by
  rintro later - m _ ⟨hh⟩
  exact .ok List.prefix_rfl (.intro hh) rfl

/-- Both runs call the battle hook equally often, so the calls do the same. -/
theorem follows_callHook (settings : Settings) :
    Follows places (callHook settings) (callHook settings) fun _ _ _ => True := by
  have hnext : Follows places nextHookCall nextHookCall fun _ call call' => call = call' := by
    rintro later - m _ ⟨hh⟩
    exact .ok List.prefix_rfl (.intro hh) rfl
  rw [callHook]
  cases settings.hook with
  | absent => exact follows_pure fun _ _ => trivial
  | answers failure? =>
    refine hnext.bind fun later call call' _ hcall => ?_
    subst hcall
    cases failure? call with
    | some e => exact follows_throw _
    | none => exact follows_pure fun _ _ => trivial

theorem lengthResult_moved {args args' : List Value} (h : ValuesMoved places args args') :
    lengthResult args' = lengthResult args ∧ IsTree (lengthResult args) := by
  cases h with
  | nil => exact ⟨rfl, trivial⟩
  | @cons v v' _ _ hv _ =>
    simp only [lengthResult, hv.text?_eq, hv.typeName_eq, true_and]
    cases v.text? <;> simp [IsTree]

theorem concatResult_moved {args args' : List Value} (h : ValuesMoved places args args') :
    concatResult args' = concatResult args ∧ IsTree (concatResult args) := by
  cases h with
  | nil => exact ⟨rfl, trivial⟩
  | cons hv hrest =>
    cases hrest with
    | nil => exact ⟨rfl, trivial⟩
    | cons hw hmore =>
      cases hmore with
      | nil =>
        simp only [concatResult, hv.text?_eq, hw.text?_eq, hv.typeName_eq, hw.typeName_eq, true_and]
        split <;> simp [IsTree]
      | cons _ hmore =>
        simp only [concatResult, List.length_cons, hmore.length_eq, true_and]
        trivial

theorem follows_applyNative (settings : Settings) (n : Native) {args args' : List Value}
    (hargs : ValuesMoved places args args') :
    Follows places (applyNative settings n args) (applyNative settings n args') Value.Moved := by
  cases n with
  | clock =>
    refine (follows_readClock settings).bind fun later x x' _ hx => ?_
    subst hx
    exact follows_value (.tree _)
  | stepBattle => exact (follows_callHook settings).seq (follows_value (.tree _))
  | length =>
    obtain ⟨hsame, htree⟩ := lengthResult_moved hargs
    rw [applyNative, applyNative, hsame]
    exact follows_settled htree
  | concat =>
    obtain ⟨hsame, htree⟩ := concatResult_moved hargs
    rw [applyNative, applyNative, hsame]
    exact follows_settled htree

/-! ### Lists and loops -/

theorem follows_itemsOf (t : Tree) :
    Follows places (itemsOf t) (itemsOf t) fun _ items items' => items = items' := by
  rw [itemsOf]
  cases t.items? with
  | none => exact follows_throw _
  | some items => exact follows_pure fun _ _ => rfl

theorem follows_checkArity (paren : Token) (expected got : Nat) :
    Follows places (checkArity paren expected got) (checkArity paren expected got)
      fun _ _ _ => True :=
  .ite (follows_failAt _ _) (follows_pure fun _ _ => trivial)

theorem follows_bindParams (hi : Leads places i j) (params : List Tree) {args args' : List Value}
    (hargs : ValuesMoved places args args') :
    Follows places (bindParams i params args) (bindParams j params args')
      fun _ _ _ => True := by
  induction params generalizing args args' with
  | nil => cases hargs <;> exact follows_pure fun _ _ => trivial
  | cons p params ih =>
    cases hargs with
    | nil => cases p <;> exact follows_pure fun _ _ => trivial
    | cons hv hrest =>
      cases p with
      | token t => exact (follows_define hi t hv).seq (ih hrest)
      | _ => exact follows_throw _

namespace Follows

theorem runEach {run run' : Tree → Eval (Option Signal)}
    (h : ∀ s, Follows places (run s) (run' s) SignalMoved) (statements : List Tree) :
    Follows places (runEach run statements) (runEach run' statements) SignalMoved := by
  induction statements with
  | nil => exact follows_none
  | cons s rest ih =>
    refine (h s).bind fun later r r' hlater hr => ?_
    cases hr with
    | none => exact ih.mono hlater
    | some hsignal => exact follows_some hsignal.1 hsignal.2

theorem evalEach {evaluate evaluate' : Tree → Eval Value}
    (h : ∀ e, Follows places (evaluate e) (evaluate' e) Value.Moved) (expressions : List Tree) :
    Follows places (evalEach evaluate expressions) (evalEach evaluate' expressions)
      ValuesMoved := by
  induction expressions with
  | nil => exact follows_pure fun _ _ => .nil
  | cons e rest ih =>
    refine (h e).bind fun later v v' hlater hv => ?_
    refine (ih.mono hlater).bind fun next vs vs' hnext hvs => follows_pure fun last hlast => ?_
    exact .cons (hv.mono (hnext.trans hlast)) (hvs.imp fun _ _ hw => hw.mono hlast)

/-- One turn after the other, as long as neither loop ends. -/
theorem untilSome {turn turn' : Eval (Option (Option Signal))}
    (h : Follows places turn turn' fun later => Option.Rel (SignalMoved later)) (n : Nat) :
    Follows places (untilSome turn n) (untilSome turn' n) SignalMoved := by
  induction n with
  | zero => exact follows_throw _
  | succ n ih =>
    refine h.bind fun later r r' hlater hr => ?_
    cases hr with
    | none => exact ih.mono hlater
    | some hended => exact follows_pure fun _ hnext => hended.mono hnext

theorem whileTurn {condition condition' : Eval Value} {body body' : Eval (Option Signal)}
    (hcondition : Follows places condition condition' Value.Moved)
    (hbody : Follows places body body' SignalMoved) :
    Follows places (whileTurn condition body) (whileTurn condition' body')
      fun later => Option.Rel (SignalMoved later) := by
  refine hcondition.bind fun later v v' hlater hv => ?_
  rw [hv.isTruthy_eq]
  refine .ite ((hbody.mono hlater).bind fun next r r' hnext hr => ?_) ?_
  · cases hr with
    | none => exact follows_pure fun _ _ => .none
    | some hsignal =>
      exact follows_pure fun _ hlast => .some (.some ⟨hsignal.1, hsignal.2.mono hlast⟩)
  · exact follows_pure fun _ _ => .some .none

end Follows

end Eval

/-! ### Statements, expressions and calls -/

/-- Whether a statement declares nothing in the scope it runs in: it is no declaration, and neither
are the branches of a conditional or the body of a `while` loop. -/
def Tree.declaresNothing : Tree → Bool
  | varDecl .. => false
  | funDecl .. => false
  | ifStmt _ thenBranch elseBranch => thenBranch.declaresNothing && elseBranch.declaresNothing
  | whileStmt _ body => body.declaresNothing
  | _ => true

namespace Eval

variable {places : List Nat} {i j d : Nat} {settings : Settings} {t : Tree}

/-- Everything that runs with `d` units of stack left follows. -/
structure FollowsAt (settings : Settings) (d : Nat) : Prop where
  exec {places : List Nat} {i j : Nat} (t : Tree) (hi : places[i]? = some j)
    (ht : Leads places i j ∨ t.declaresNothing = true) :
    Follows places (exec settings d t i) (exec settings d t j) SignalMoved
  execBlock {places : List Nat} {i j : Nat} (t : Tree) (hi : Leads places i j) :
    Follows places (execBlock settings d t i) (execBlock settings d t j) SignalMoved
  eval {places : List Nat} {i j : Nat} (t : Tree) (hi : places[i]? = some j) :
    Follows places (eval settings d t i) (eval settings d t j) Value.Moved
  evalArgs {places : List Nat} {i j : Nat} (t : Tree) (hi : places[i]? = some j) :
    Follows places (evalArgs settings d t i) (evalArgs settings d t j) ValuesMoved
  call {places : List Nat} {f f' : Value} {args args' : List Value} (hf : f.Moved places f')
    (hargs : ValuesMoved places args args') (paren : Token) :
    Follows places (call settings d f args paren) (call settings d f' args' paren) Value.Moved

theorem conditionTrace_moved {v v' : Value} (hv : v.Moved places v') :
    conditionTrace v' = conditionTrace v := by
  cases hv <;> rfl

theorem map_display_moved {args args' : List Value} (h : ValuesMoved places args args') :
    args'.map Value.display = args.map Value.display := by
  induction h with
  | nil => rfl
  | cons hv _ ih => rw [List.map_cons, List.map_cons, hv.display_eq, ih]

namespace FollowsAt

theorem exec_succ (h : FollowsAt settings d) (t : Tree) (hi : places[i]? = some j)
    (ht : Leads places i j ∨ t.declaresNothing = true) :
    Follows places (Eval.exec settings (d + 1) t i) (Eval.exec settings (d + 1) t j)
      SignalMoved := by
  cases t with
  | exprStmt e =>
    simp only [Eval.exec]
    exact (h.eval e hi).seq follows_none
  | printStmt e =>
    simp only [Eval.exec]
    refine (h.eval e hi).bind fun later v v' _ hv => ?_
    rw [hv.display_eq]
    exact (follows_printLine _).seq follows_none
  | varDecl name e =>
    have hleads := ht.resolve_right Bool.false_ne_true
    have hdeclared {later : List Nat} {v v' : Value} (hlater : places <+: later)
        (hv : v.Moved later v') :
        Follows later
          (do
            define i name v
            traceLine settings 2 fun _ => "declare " ++ name.text ++ " = " ++ v.display
            return none)
          (do
            define j name v'
            traceLine settings 2 fun _ => "declare " ++ name.text ++ " = " ++ v'.display
            return none) SignalMoved := by
      rw [hv.display_eq]
      refine (follows_define (hleads.mono hlater) name hv).seq ?_
      exact (follows_traceLine settings 2 _).seq follows_none
    simp only [Eval.exec]
    refine .ite (hdeclared List.prefix_rfl (.tree _)) ?_
    exact (h.eval e hi).bind fun later v v' hlater hv => hdeclared hlater hv
  | block statements =>
    simp only [Eval.exec]
    exact (follows_newScope hi).bind fun later inner inner' _ hinner => h.execBlock _ hinner
  | ifStmt condition thenBranch elseBranch =>
    have hbranches : ∀ {later : List Nat}, places <+: later →
        Follows later (Eval.exec settings d thenBranch i) (Eval.exec settings d thenBranch j)
          SignalMoved ∧
        Follows later (Eval.exec settings d elseBranch i) (Eval.exec settings d elseBranch j)
          SignalMoved := by
      intro later hlater
      have hplace := place_later hlater hi
      rcases ht with hleads | hnothing
      · exact ⟨h.exec _ hplace (.inl (hleads.mono hlater)),
          h.exec _ hplace (.inl (hleads.mono hlater))⟩
      · obtain ⟨hthen, helse⟩ := Bool.and_eq_true_iff.1 hnothing
        exact ⟨h.exec _ hplace (.inr hthen), h.exec _ hplace (.inr helse)⟩
    simp only [Eval.exec]
    refine (h.eval condition hi).bind fun later v v' hlater hv => ?_
    obtain ⟨hthen, helse⟩ := hbranches hlater
    rw [conditionTrace_moved hv, hv.isTruthy_eq]
    exact (follows_traceLine settings 3 _).seq (.ite hthen (.ite follows_none helse))
  | whileStmt condition body =>
    simp only [Eval.exec]
    exact .untilSome (.whileTurn (h.eval condition hi) (h.exec body hi ht)) settings.turns
  | forStmt initializer condition increment body =>
    simp only [Eval.exec]
    exact h.exec _ hi (.inr rfl)
  | funDecl name params body =>
    have hleads := ht.resolve_right Bool.false_ne_true
    simp only [Eval.exec]
    refine follows_newClosureId.bind fun later id id' hlater hid => ?_
    subst hid
    have hplace := place_later hlater hi
    refine (follows_define (hleads.mono hlater) name (.closure hplace)).seq ?_
    exact (follows_traceLine settings 2 _).seq follows_none
  | returnStmt keyword e =>
    simp only [Eval.exec]
    refine .ite (follows_some rfl (.tree _)) ?_
    exact (h.eval e hi).bind fun later v v' _ hv => follows_some rfl hv
  | _ =>
    simp only [Eval.exec]
    exact follows_throw _

theorem eval_succ (h : FollowsAt settings d) (t : Tree) (hi : places[i]? = some j) :
    Follows places (Eval.eval settings (d + 1) t i) (Eval.eval settings (d + 1) t j)
      Value.Moved := by
  have heval {later : List Nat} (t : Tree) (hlater : places <+: later) :
      Follows later (Eval.eval settings d t i) (Eval.eval settings d t j) Value.Moved :=
    h.eval t (place_later hlater hi)
  cases t with
  | literal v =>
    simp only [Eval.eval]
    exact follows_value (.tree v)
  | grouping e =>
    simp only [Eval.eval]
    exact h.eval e hi
  | varRef name =>
    simp only [Eval.eval]
    exact follows_read hi name
  | assign name e =>
    simp only [Eval.eval]
    refine (h.eval e hi).bind fun later v v' hlater hv => ?_
    exact (follows_assign (place_later hlater hi) name hv).seq (follows_value hv)
  | logical left op right =>
    simp only [Eval.eval]
    refine (h.eval left hi).bind fun later v v' hlater hv => ?_
    rw [hv.isTruthy_eq]
    exact .ite (follows_value hv) (heval right hlater)
  | unary op e =>
    simp only [Eval.eval, applyUnary]
    refine (h.eval e hi).bind fun later v v' _ hv => ?_
    rw [unaryResult_moved op hv]
    exact follows_located op (isTree_unaryResult op v)
  | binary left op right =>
    simp only [Eval.eval, applyBinary]
    refine (h.eval left hi).bind fun later v v' hlater hv => ?_
    refine (heval right hlater).bind fun next w w' hnext hw => ?_
    rw [binaryResult_moved op (hv.mono hnext) hw]
    exact follows_located op (isTree_binaryResult op v w)
  | call callee paren arguments =>
    simp only [Eval.eval]
    refine (h.eval callee hi).bind fun later f f' hlater hf => ?_
    refine (h.evalArgs arguments (place_later hlater hi)).bind fun next args args' hnext
      hargs => ?_
    exact h.call (hf.mono hnext) hargs paren
  | index target bracket index =>
    simp only [Eval.eval]
    refine (h.eval target hi).bind fun later v v' hlater hv => ?_
    refine (heval index hlater).bind fun next w w' hnext hw => ?_
    rw [indexPosition_moved (hv.mono hnext) hw]
    cases indexPosition v w with
    | ok found => exact follows_value (.tree _)
    | error cause => exact follows_failAt _ _
  | assignIndex target bracket index value =>
    cases target with
    | varRef name =>
      simp only [Eval.eval]
      refine (follows_read hi name).bind fun later v v' hlater hv => ?_
      refine (heval index hlater).bind fun next w w' hnext hw => ?_
      refine (heval value (hlater.trans hnext)).bind fun last u u' hlast hu => ?_
      rw [indexPosition_moved (hv.mono (hnext.trans hlast)) (hw.mono hlast), singleChar?_moved hu]
      have hplace := place_later ((hlater.trans hnext).trans hlast) hi
      cases indexPosition v w with
      | error cause => exact follows_failAt _ _
      | ok found =>
        cases singleChar? u with
        | none => exact follows_failAt _ _
        | some c => exact (follows_assign hplace name (.tree _)).seq (follows_value hu)
    | _ =>
      simp only [Eval.eval]
      exact follows_failAt _ _
  | _ =>
    simp only [Eval.eval]
    exact follows_throw _

theorem call_succ {f f' : Value} {args args' : List Value} (h : FollowsAt settings d)
    (hf : f.Moved places f') (hargs : ValuesMoved places args args') (paren : Token) :
    Follows places (Eval.call settings (d + 1) f args paren)
      (Eval.call settings (d + 1) f' args' paren) Value.Moved := by
  cases hf with
  | tree t =>
    simp only [Eval.call]
    exact follows_failAt _ _
  | native n =>
    simp only [Eval.call, ← hargs.length_eq]
    refine (follows_checkArity paren _ _).seq ?_
    exact (follows_applyNative settings n hargs).locating paren
  | @closure c scope hscope =>
    have htrace : callTrace c.name args' = callTrace c.name args := by
      simp only [callTrace, map_display_moved hargs]
    simp only [Eval.call, ← hargs.length_eq, htrace]
    refine (follows_itemsOf c.params).bind fun later params params' hlater hparams => ?_
    subst hparams
    refine (follows_checkArity paren _ _).seq ((follows_traceLine settings 3 _).seq ?_)
    refine (follows_newScope (place_later hlater hscope)).bind fun next inner inner' hnext
      hinner => ?_
    have hargs := hargs.imp fun _ _ hv => hv.mono (hlater.trans hnext)
    refine (follows_bindParams hinner params hargs).seq ?_
    refine ((h.execBlock c.body hinner).overflowAt paren).bind fun last r r' _ hr => ?_
    cases hr with
    | none => exact follows_value (.tree _)
    | some hsignal => exact follows_value hsignal.2

end FollowsAt

/-- Statements, expressions and calls follow, whatever is left of the stack. -/
theorem followsAt (settings : Settings) (d : Nat) : FollowsAt settings d := by
  induction d with
  | zero =>
    constructor <;> intros
    · simp only [exec]; exact follows_throw _
    · simp only [execBlock]; exact follows_throw _
    · simp only [eval]; exact follows_throw _
    · simp only [evalArgs]; exact follows_throw _
    · simp only [call]; exact follows_throw _
  | succ d ih =>
    constructor
    · exact ih.exec_succ
    · intro places i j t hi
      simp only [execBlock]
      refine (follows_itemsOf t).bind fun later items items' hlater hitems => ?_
      subst hitems
      have hleads := hi.mono hlater
      exact .runEach (fun s => ih.exec s hleads.place (.inl hleads)) items
    · exact ih.eval_succ
    · intro places i j t hi
      simp only [evalArgs]
      refine (follows_itemsOf t).bind fun later items items' hlater hitems => ?_
      subst hitems
      exact .evalEach (fun e => ih.eval e (place_later hlater hi)) items
    · exact ih.call_succ

end Eval

end Scriptlet
