import Scriptlet.Proofs.Eval.Contract
import Scriptlet.Proofs.Eval.Typing

/-!
# Well-formed programs do not go wrong

Running well-formed statements on a heap of well-formed values never finds a malformed tree and
never applies a native function to the wrong number of arguments: what ends a run early is a runtime
error, an exhausted stack or spent fuel. If the operators are those that program texts hold, no
error is about an unknown operator, except for one that the battle hook makes up. The heap stays
well-formed in every case.

## Main definitions

* `RuntimeCause.isUnknownOperator` — the causes that name an operator as unknown
* `Abort.Allowed` — the reasons for which a well-formed program may end early
* `Eval.Safe` — the contract of all steps of such a program

## Main results

* `Eval.safe_exec`, `Eval.safe_eval`, `Eval.safe_call` — statements, expressions and calls
* `Eval.safe_interpret` — programs
* `Eval.position_lt_length`, `Eval.divisor_ne_zero` — what the checks before an index and a division
  ensure
-/

namespace Scriptlet

/-- Whether a cause names an operator as unknown. -/
def RuntimeCause.isUnknownOperator : RuntimeCause → Bool
  | unknownUnary _ => true
  | unknownBinary _ => true
  | _ => false

/-- An error names an operator as unknown only in the words of the battle hook. -/
def Settings.Permits (settings : Settings) (cause : RuntimeCause) : Prop :=
  cause.isUnknownOperator = true →
    ∃ call e, settings.hook.failure? call = some e ∧ e.cause = cause

/-- The reasons for which a well-formed program may end early. -/
def Abort.Allowed (ops : Operators) (settings : Settings) : Abort → Prop
  | error e => ops = .known → settings.Permits e.cause
  | tooDeep => True
  | unfinished => True
  | fault _ => False
  | arguments _ => False

namespace Eval

/-- The step keeps the heap well-formed and ends early only for allowed reasons. -/
abbrev Safe {α : Type} (ops : Operators) (settings : Settings) (step : Eval α) (Q : α → Prop) :
    Prop :=
  Keeps (fun m => m.heap.Typed ops) (Abort.Allowed ops settings) step Q

variable {ops : Operators} {settings : Settings} {α : Type} {Q : α → Prop}

/-- A cause that names no operator is allowed wherever it is located. -/
theorem allowed_of_cause {e : RuntimeError} (h : e.cause.isUnknownOperator = false) :
    Abort.Allowed ops settings (.error e) := by
  intro _ hunknown
  rw [h] at hunknown
  cases hunknown

theorem safe_failAt {t : Token} {cause : RuntimeCause} (h : cause.isUnknownOperator = false) :
    Safe ops settings (failAt t cause : Eval α) Q :=
  keeps_failAt (allowed_of_cause h)

/-! ### Steps on the state -/

theorem safe_printLine (line : String) : Safe ops settings (printLine line) fun _ => True :=
  keeps_modify fun _ hm => hm

theorem safe_traceLine (level : Nat) (line : Unit → String) :
    Safe ops settings (traceLine settings level line) fun _ => True := by
  rw [traceLine]
  split
  · refine keeps_modify fun m hm => ?_
    split <;> exact hm
  · exact keeps_pure trivial

theorem safe_newScope (parent : Nat) : Safe ops settings (newScope parent) fun _ => True :=
  keeps_modifyGet fun _ hm => hm.create (some parent)

theorem safe_newClosureId : Safe ops settings newClosureId fun _ => True :=
  keeps_modifyGet fun _ hm => hm

/-- The name of a named token. -/
theorem name?_of_isNamed {t : Token} (h : t.IsNamed) : ∃ x, t.name? = some x := by
  obtain ⟨s, hs⟩ := h
  exact ⟨.text s, by rw [Token.name?, hs]⟩

theorem safe_define {scope : Nat} {name : Token} {v : Value} (hname : name.IsNamed)
    (hv : v.Typed ops) : Safe ops settings (define scope name v) fun _ => True := by
  obtain ⟨x, hx⟩ := name?_of_isNamed hname
  rw [define, hx]
  exact keeps_modify fun _ hm => hm.define hv scope x

theorem safe_read {scope : Nat} {name : Token} (hname : name.IsNamed) :
    Safe ops settings (read scope name) fun v => v.Typed ops := by
  obtain ⟨x, hx⟩ := name?_of_isNamed hname
  simp only [read, hx]
  refine keeps_get.bind fun m hm => ?_
  split
  · next v hget => exact keeps_pure (hm.get? hget)
  · exact safe_failAt rfl

theorem safe_assign {scope : Nat} {name : Token} {v : Value} (hname : name.IsNamed)
    (hv : v.Typed ops) : Safe ops settings (assign scope name v) fun _ => True := by
  obtain ⟨x, hx⟩ := name?_of_isNamed hname
  simp only [assign, hx]
  refine keeps_get.bind fun m _ => ?_
  split
  · next target _ => exact keeps_modify fun _ hm => hm.define hv target x
  · exact safe_failAt rfl

/-! ### Operators and indexing -/

/-- A result with `Q`, or a cause that names no operator as unknown unless all are let through. -/
def Sound (ops : Operators) (Q : α → Prop) : Except RuntimeCause α → Prop
  | .ok a => Q a
  | .error cause => ops = .known → cause.isUnknownOperator = false

theorem safe_located {t : Token} {result : Except RuntimeCause α} (h : Sound ops Q result) :
    Safe ops settings (located t result) Q := by
  cases result with
  | ok a => exact keeps_pure h
  | error cause =>
    refine keeps_failAt fun hops hunknown => ?_
    rw [h hops] at hunknown
    cases hunknown

theorem sound_add (a b : Value) : Sound ops (Value.Typed ops) (add a b) := by
  rw [add]
  split
  · exact .number _
  · split
    · exact .text _
    · exact fun _ => rfl

/-- The kinds that `binaryResult` leaves to `arithmetic` are all known to it. -/
theorem sound_arithmetic {op : Token} (x y : Float)
    (hop : ops = .known → op.kind ∈ binaryOperators) (hplus : op.kind ≠ .plus)
    (hequal : op.kind ≠ .equalEqual) (hdiffer : op.kind ≠ .bangEqual) :
    Sound ops (Value.Typed ops) (arithmetic op x y) := by
  rw [arithmetic]
  split
  · exact .number _
  · exact .number _
  · split
    · exact fun _ => rfl
    · exact .number _
  · exact .bool _
  · exact .bool _
  · exact .bool _
  · exact .bool _
  -- no known operator is left for the last case
  · intro hops
    have hkind := hop hops
    simp_all [binaryOperators]

theorem sound_binaryResult {op : Token} (a b : Value)
    (hop : ops = .known → op.kind ∈ binaryOperators) :
    Sound ops (Value.Typed ops) (binaryResult op a b) := by
  rw [binaryResult]
  split
  · exact sound_add a b
  · exact .bool _
  · exact .bool _
  · next hplus hequal hdiffer =>
    split
    · exact sound_arithmetic _ _ hop hplus hequal hdiffer
    · exact fun _ => rfl

theorem sound_unaryResult {op : Token} (v : Value)
    (hop : ops = .known → op.kind ∈ unaryOperators) :
    Sound ops (Value.Typed ops) (unaryResult op v) := by
  rw [unaryResult]
  split
  · exact .bool _
  · split
    · exact .number _
    · exact fun _ => rfl
  -- no known operator is left for the last case
  · intro hops
    have hkind := hop hops
    simp_all [unaryOperators]

theorem sound_indexPosition (target index : Value) :
    Sound ops (fun _ => True) (indexPosition target index) := by
  rw [indexPosition]
  split
  · exact fun _ => rfl
  · split
    · exact fun _ => rfl
    · split
      · trivial
      · exact fun _ => rfl

/-- The checks on an index let only finite numbers through, and only positions that exist. -/
theorem position_lt_length {target index : Value} {cs : List Char} {position : Nat}
    (h : indexPosition target index = .ok (cs, position)) :
    position < cs.length ∧ ∃ x, index.number? = some x ∧ x.isFinite = true := by
  rw [indexPosition] at h
  split at h
  · cases h
  · split at h
    · cases h
    · next i hwhole =>
      split at h
      · next hbounds =>
        cases h
        obtain ⟨x, hx, hwhole⟩ := Option.bind_eq_some_iff.1 hwhole
        refine ⟨?_, x, hx, ?_⟩
        · rw [String.length_toList]
          omega
        -- a number that is not finite is not whole
        · rw [Number.whole?] at hwhole
          split at hwhole
          · assumption
          · cases hwhole
      · cases h

/-- The check before a division lets no zero through. -/
theorem divisor_ne_zero {op : Token} {x y : Float} {v : Value} (hop : op.kind = .slash)
    (h : arithmetic op x y = .ok v) : (y == 0) = false := by
  simp only [arithmetic, hop] at h
  split at h
  · cases h
  · next hzero => simpa using hzero

/-! ### Native functions -/

theorem safe_callHook : Safe ops settings (callHook settings) fun _ => True := by
  rw [callHook]
  split
  · exact keeps_pure trivial
  · next failure? hanswers =>
    have hnext : Safe ops settings nextHookCall fun _ => True := keeps_modifyGet fun _ hm => hm
    refine hnext.bind fun call _ => ?_
    split
    · next e hfails =>
      refine keeps_throw fun _ _ => ⟨call, e, ?_, rfl⟩
      rw [hanswers, Hook.failure?, hfails]
    · exact keeps_pure trivial

/-- A native function that gets as many arguments as it has takes them apart. -/
theorem safe_applyNative {n : Native} {args : List Value} (hlength : n.arity = args.length) :
    Safe ops settings (applyNative settings n args) fun v => v.Typed ops := by
  cases n with
  | clock =>
    have hread : Safe ops settings (readClock settings) fun _ => True :=
      keeps_modifyGet fun _ hm => hm
    exact hread.bind fun _ _ => keeps_pure (.number _)
  | stepBattle => exact safe_callHook.seq (keeps_pure .nil)
  | length =>
    obtain ⟨v, rfl⟩ := List.length_eq_one_iff.1 hlength.symm
    rw [applyNative, lengthResult]
    split
    · exact keeps_pure (.number _)
    · exact keeps_throw (allowed_of_cause rfl)
  | concat =>
    -- every other number of arguments was turned away
    obtain _ | ⟨v, _ | ⟨w, _ | _⟩⟩ := args <;> cases hlength
    rw [applyNative, concatResult]
    split
    · exact keeps_pure (.text _)
    · exact keeps_throw (allowed_of_cause rfl)

/-! ### Calls -/

theorem safe_itemsOf {items : List Tree} :
    Safe ops settings (itemsOf (.list items)) fun result => result = items :=
  keeps_pure rfl

theorem safe_bindParams {scope : Nat} {params : List Token} {args : List Value}
    (hparams : ∀ p ∈ params, p.IsNamed) (hargs : ∀ v ∈ args, v.Typed ops) :
    Safe ops settings (bindParams scope (params.map .token) args) fun _ => True := by
  induction params generalizing args with
  | nil => exact keeps_pure trivial
  | cons p params ih =>
    cases args with
    | nil => exact keeps_pure trivial
    | cons v args =>
      rw [List.forall_mem_cons] at hparams hargs
      exact (safe_define hparams.1 hargs.1).seq (ih hparams.2 hargs.2)

/-! ### Statements, expressions and calls -/

/-- The value of a return signal is well-formed. -/
def SignalTyped (ops : Operators) (result : Option Signal) : Prop :=
  ∀ signal, result = some signal → signal.value.Typed ops

theorem signalTyped_none : SignalTyped ops none := fun _ heq => by cases heq

theorem signalTyped_some {signal : Signal} (h : signal.value.Typed ops) :
    SignalTyped ops (some signal) :=
  fun _ heq => Option.some.inj heq ▸ h

theorem typed_returned {result : Option Signal} (h : SignalTyped ops result) :
    (returned result).Typed ops := by
  cases result with
  | none => exact .nil
  | some signal => exact h signal rfl

/-- Everything that runs with `d` units of stack left is safe. -/
structure SafeAt (ops : Operators) (settings : Settings) (d : Nat) : Prop where
  exec {t : Tree} (scope : Nat) : t.IsStmt ops →
    Safe ops settings (exec settings d t scope) (SignalTyped ops)
  execBlock {statements : List Tree} (scope : Nat) : (∀ s ∈ statements, s.IsStmt ops) →
    Safe ops settings (execBlock settings d (.list statements) scope) (SignalTyped ops)
  eval {t : Tree} (scope : Nat) : t.IsExpr ops →
    Safe ops settings (eval settings d t scope) (Value.Typed ops)
  evalArgs {arguments : List Tree} (scope : Nat) : (∀ e ∈ arguments, e.IsExpr ops) →
    Safe ops settings (evalArgs settings d (.list arguments) scope)
      fun vs => ∀ v ∈ vs, v.Typed ops
  call {f : Value} {args : List Value} (paren : Token) : f.Typed ops → (∀ v ∈ args, v.Typed ops) →
    Safe ops settings (call settings d f args paren) (Value.Typed ops)

theorem safeAt_zero : SafeAt ops settings 0 where
  exec _ _ := by rw [Eval.exec]; exact keeps_throw trivial
  execBlock _ _ := by rw [Eval.execBlock]; exact keeps_throw trivial
  eval _ _ := by rw [Eval.eval]; exact keeps_throw trivial
  evalArgs _ _ := by rw [Eval.evalArgs]; exact keeps_throw trivial
  call _ _ _ := by rw [Eval.call]; exact keeps_throw trivial

namespace SafeAt

variable {d : Nat} {t : Tree} {scope : Nat}

/-- An optional expression counts as nil if it is missing. -/
theorem optional {R : Option Signal → Prop} {next : Value → Eval (Option Signal)}
    (h : SafeAt ops settings d) (ht : t.isNull = false → t.IsExpr ops)
    (hnext : ∀ v, v.Typed ops → Safe ops settings (next v) R) :
    Safe ops settings
      (if t.isNull then pure .nil >>= next else Eval.eval settings d t scope >>= next) R := by
  split
  · exact (keeps_pure .nil).bind hnext
  · next hnull => exact (h.eval scope (ht (by simpa using hnull))).bind hnext

theorem exec_succ (h : SafeAt ops settings d) (ht : t.IsStmt ops) :
    Safe ops settings (Eval.exec settings (d + 1) t scope) (SignalTyped ops) := by
  cases ht with
  | exprStmt he =>
    simp only [Eval.exec]
    exact (h.eval scope he).seq (keeps_pure signalTyped_none)
  | printStmt he =>
    simp only [Eval.exec]
    exact (h.eval scope he).bind fun v _ => (safe_printLine _).seq (keeps_pure signalTyped_none)
  | varDecl hname he =>
    simp only [Eval.exec]
    refine h.optional he fun v hv => (safe_define hname hv).seq ?_
    exact (safe_traceLine _ _).seq (keeps_pure signalTyped_none)
  | block hss =>
    simp only [Eval.exec]
    exact (safe_newScope scope).bind fun inner _ => h.execBlock inner hss
  | ifStmt hc hs hs' =>
    simp only [Eval.exec]
    refine (h.eval scope hc).bind fun v _ => (safe_traceLine _ _).seq ?_
    split
    · exact h.exec scope hs
    · split
      · exact keeps_pure signalTyped_none
      · next hnull => exact h.exec scope (hs' (by simpa using hnull))
  | whileStmt hc hs =>
    simp only [Eval.exec]
    refine Keeps.untilSome trivial ?_ _
    exact Keeps.whileTurn signalTyped_none (h.eval scope hc) (h.exec scope hs)
  -- the loop is run in its desugared form, which is well-formed as well
  | forStmt hi hc hn hs =>
    simp only [Eval.exec]
    exact h.exec scope (Tree.isStmt_desugarFor hi hc hn hs)
  -- the closure takes over what is known of the declaration
  | funDecl hname hparams hbody =>
    simp only [Eval.exec]
    refine safe_newClosureId.bind fun id _ => ?_
    refine (safe_define hname (.closure rfl hparams rfl hbody)).seq ?_
    exact (safe_traceLine _ _).seq (keeps_pure signalTyped_none)
  | returnStmt he =>
    simp only [Eval.exec]
    refine h.optional he fun v hv => keeps_pure ?_
    exact signalTyped_some hv

theorem execBlock_succ {statements : List Tree} (h : SafeAt ops settings d)
    (hss : ∀ s ∈ statements, s.IsStmt ops) :
    Safe ops settings (Eval.execBlock settings (d + 1) (.list statements) scope)
      (SignalTyped ops) := by
  simp only [Eval.execBlock]
  refine safe_itemsOf.bind fun items hitems => ?_
  rw [hitems]
  exact Keeps.runEach signalTyped_none fun s hs => h.exec scope (hss s hs)

theorem eval_succ (h : SafeAt ops settings d) (ht : t.IsExpr ops) :
    Safe ops settings (Eval.eval settings (d + 1) t scope) (Value.Typed ops) := by
  cases ht with
  | literal ha =>
    simp only [Eval.eval]
    exact keeps_pure (.atom ha)
  | grouping he =>
    simp only [Eval.eval]
    exact h.eval scope he
  | unary hop he =>
    simp only [Eval.eval]
    exact (h.eval scope he).bind fun v _ => safe_located (sound_unaryResult v hop)
  | binary hop hl hr =>
    simp only [Eval.eval]
    refine (h.eval scope hl).bind fun a _ => (h.eval scope hr).bind fun b _ => ?_
    exact safe_located (sound_binaryResult a b hop)
  | logical hl hr =>
    simp only [Eval.eval]
    refine (h.eval scope hl).bind fun v hv => ?_
    split
    · exact keeps_pure hv
    · exact h.eval scope hr
  | varRef hname =>
    simp only [Eval.eval]
    exact safe_read hname
  | assign hname he =>
    simp only [Eval.eval]
    exact (h.eval scope he).bind fun v hv => (safe_assign hname hv).seq (keeps_pure hv)
  | call hf hargs =>
    simp only [Eval.eval]
    refine (h.eval scope hf).bind fun f hf => (h.evalArgs scope hargs).bind fun args hargs => ?_
    exact h.call _ hf hargs
  | index ht hi =>
    simp only [Eval.eval]
    refine (h.eval scope ht).bind fun a _ => (h.eval scope hi).bind fun i _ => ?_
    exact (safe_located (sound_indexPosition a i)).bind fun _ _ => keeps_pure (.text _)
  | assignIndex ht hi hv =>
    -- Only a variable can be assigned to; every other target fails before anything is evaluated.
    cases ht with
    | varRef hname =>
      simp only [Eval.eval]
      refine (safe_read hname).bind fun a _ => (h.eval scope hi).bind fun i _ => ?_
      refine (h.eval scope hv).bind fun v hv => ?_
      refine (safe_located (sound_indexPosition a i)).bind fun _ _ => ?_
      split
      · exact (safe_assign hname (.text _)).seq (keeps_pure hv)
      · exact safe_failAt rfl
    | _ =>
      simp only [Eval.eval]
      exact safe_failAt rfl

theorem evalArgs_succ {arguments : List Tree} (h : SafeAt ops settings d)
    (hargs : ∀ e ∈ arguments, e.IsExpr ops) :
    Safe ops settings (Eval.evalArgs settings (d + 1) (.list arguments) scope)
      fun vs => ∀ v ∈ vs, v.Typed ops := by
  simp only [Eval.evalArgs]
  refine safe_itemsOf.bind fun items hitems => ?_
  rw [hitems]
  exact Keeps.evalEach fun e he => h.eval scope (hargs e he)

theorem call_succ {f : Value} {args : List Value} (h : SafeAt ops settings d) (paren : Token)
    (hf : f.Typed ops) (hargs : ∀ v ∈ args, v.Typed ops) :
    Safe ops settings (Eval.call settings (d + 1) f args paren) (Value.Typed ops) := by
  cases hf with
  | atom =>
    simp only [Eval.call]
    exact safe_failAt rfl
  -- the number of arguments is checked first, so the function can take them apart
  | native n =>
    simp only [Eval.call]
    refine (keeps_checkArity (allowed_of_cause rfl)).bind fun _ harity => ?_
    exact (safe_applyNative harity).locating fun e he => he
  | @closure c params body hparams hnamed hbody hss =>
    simp only [Eval.call, hparams, hbody]
    refine safe_itemsOf.bind fun items hitems => ?_
    refine (keeps_checkArity (allowed_of_cause rfl)).seq ?_
    refine (safe_traceLine _ _).seq ?_
    refine (safe_newScope c.scope).bind fun inner _ => ?_
    rw [hitems]
    refine (safe_bindParams hnamed hargs).seq ?_
    -- an exhausted stack inside of the body becomes an error at the call
    refine ((h.execBlock inner hss).overflowAt (allowed_of_cause rfl)).bind fun result hresult => ?_
    exact keeps_pure (typed_returned hresult)

end SafeAt

/-- Everything is safe, however much of the stack is left. -/
theorem safeAt (ops : Operators) (settings : Settings) (d : Nat) : SafeAt ops settings d := by
  -- the induction is on the stack, not on trees: a call runs the body of a value from the heap
  induction d with
  | zero => exact safeAt_zero
  | succ d ih =>
    exact
      { exec := fun _ ht => ih.exec_succ ht
        execBlock := fun _ hss => ih.execBlock_succ hss
        eval := fun _ ht => ih.eval_succ ht
        evalArgs := fun _ hargs => ih.evalArgs_succ hargs
        call := fun paren hf hargs => ih.call_succ paren hf hargs }

/-- A well-formed program is safe. -/
theorem safe_interpret {statements : List Tree} (h : ∀ s ∈ statements, s.IsStmt ops) :
    Safe ops settings (interpret settings statements) fun _ => True := by
  induction statements with
  | nil => exact keeps_pure trivial
  | cons s rest ih =>
    rw [List.forall_mem_cons] at h
    have hone : Safe ops settings (interpretOne settings s) fun _ => True := by
      refine ((safeAt ops settings settings.depth).exec _ h.1).bind fun result _ => ?_
      cases result with
      | none => exact keeps_pure trivial
      -- a return outside of functions is an error
      | some signal => exact safe_failAt rfl
    exact hone.seq (ih h.2)

end Eval

end Scriptlet
