import Scriptlet.Eval.Run

/-!
# Contracts of evaluation steps

A contract says what a step keeps true of the state, what its result satisfies and for which reasons
it may end early. The state is kept also when the step ends early, since what ran before stays. The
rules follow the steps that the evaluator is put together from, so that a property of the evaluator
needs only the steps that touch the property itself.

## Main definitions

* `Keeps` — the contract of a step

## Main results

* `Keeps.bind`, `Keeps.mono` — sequencing and weakening
* `Keeps.runEach`, `Keeps.evalEach`, `Keeps.untilSome` — the loops
* `Keeps.locating`, `Keeps.overflowAt` — what happens to errors on their way out
-/

namespace Scriptlet.Eval

/-! ### Reading and assigning as functions of the state -/

theorem read_apply (scope : Nat) (name : Token) (m : Machine) :
    read scope name m = match name.name? with
      | none => .error (.fault .notName) m
      | some x => match m.heap.get? scope x with
        | some v => .ok v m
        | none =>
          .error (.error { token := some name, cause := .undefinedVariable name.text }) m := by
  unfold read
  cases name.name? with
  | none => rfl
  | some x =>
    change (match m.heap.get? scope x with
      | some v => pure v
      | none => failAt name (.undefinedVariable name.text) : Eval Value) m = _
    dsimp only
    cases m.heap.get? scope x <;> rfl

theorem assign_apply (scope : Nat) (name : Token) (v : Value) (m : Machine) :
    assign scope name v m = match name.name? with
      | none => .error (.fault .notName) m
      | some x => match m.heap.resolve? x scope with
        | some target => .ok () { m with heap := m.heap.define target x v }
        | none =>
          .error (.error { token := some name, cause := .undefinedVariable name.text }) m := by
  unfold assign
  cases name.name? with
  | none => rfl
  | some x =>
    change (match m.heap.resolve? x scope with
      | some target => modify fun m => { m with heap := m.heap.define target x v }
      | none => failAt name (.undefinedVariable name.text) : Eval Unit) m = _
    dsimp only
    cases m.heap.resolve? x scope <;> rfl

/-! ### Contracts -/

/-- From a state with `I` the step ends in a state with `I`: with a result that satisfies `Q`, or
early for a reason that satisfies `E`. -/
def Keeps {α : Type} (I : Machine → Prop) (E : Abort → Prop) (step : Eval α) (Q : α → Prop) :
    Prop :=
  ∀ m, I m → match step m with
    | .ok a m' => I m' ∧ Q a
    | .error abort m' => I m' ∧ E abort

section Rules

variable {I : Machine → Prop} {E : Abort → Prop} {α β : Type} {Q : α → Prop} {R : β → Prop}
  {step : Eval α}

/-! ### Basic steps -/

theorem keeps_pure {a : α} (ha : Q a) : Keeps I E (pure a) Q := fun _ hm => ⟨hm, ha⟩

theorem keeps_throw {abort : Abort} (habort : E abort) : Keeps I E (throw abort : Eval α) Q :=
  fun _ hm => ⟨hm, habort⟩

theorem keeps_get : Keeps I E get I := fun _ hm => ⟨hm, hm⟩

theorem keeps_modify {f : Machine → Machine} (hf : ∀ m, I m → I (f m)) :
    Keeps I E (modify f) fun _ => True :=
  fun m hm => ⟨hf m hm, trivial⟩

theorem keeps_modifyGet {f : Machine → α × Machine} (hf : ∀ m, I m → I (f m).2) :
    Keeps I E (modifyGet f) fun _ => True :=
  fun m hm => ⟨hf m hm, trivial⟩

namespace Keeps

theorem mono {Q' : α → Prop} (h : Keeps I E step Q) (hQ : ∀ a, Q a → Q' a) : Keeps I E step Q' := by
  intro m hm
  have hstep := h m hm
  split at hstep
  · exact ⟨hstep.1, hQ _ hstep.2⟩
  · exact hstep

theorem bind {f : α → Eval β} (h : Keeps I E step Q) (hf : ∀ a, Q a → Keeps I E (f a) R) :
    Keeps I E (step >>= f) R := by
  intro m hm
  have hstep := h m hm
  change match EStateM.bind step f m with
    | .ok b m' => I m' ∧ R b
    | .error abort m' => I m' ∧ E abort
  -- what a step that ended early left behind is the state of the whole
  rw [EStateM.bind]
  split at hstep <;> rename_i hrun <;> simp only [hrun]
  · exact hf _ hstep.2 _ hstep.1
  · exact hstep

/-- A step whose result does not matter, followed by another. -/
theorem seq {next : Eval β} (h : Keeps I E step Q) (hnext : Keeps I E next R) :
    Keeps I E (step >>= fun _ => next) R :=
  h.bind fun _ _ => hnext

end Keeps

/-! ### Errors on their way out -/

theorem keeps_failAt {t : Token} {cause : RuntimeCause}
    (hE : E (.error { token := some t, cause })) : Keeps I E (failAt t cause : Eval α) Q :=
  keeps_throw hE

theorem Keeps.locating {t : Token} (h : Keeps I E step Q)
    (hE : ∀ e, E (.error e) → E (.error (e.locate t))) : Keeps I E (locating t step) Q := by
  intro m hm
  have hstep := h m hm
  rw [Eval.locating]
  split at hstep <;> rename_i hrun
  · simpa only [hrun] using hstep
  · rename_i abort m'
    cases abort with
    | error e => simpa only [hrun] using ⟨hstep.1, hE e hstep.2⟩
    | tooDeep | unfinished | fault | arguments => simpa only [hrun] using hstep

theorem Keeps.overflowAt {t : Token} (h : Keeps I E step Q)
    (hE : E (.error { token := some t, cause := .stackOverflow })) :
    Keeps I E (overflowAt t step) Q := by
  intro m hm
  have hstep := h m hm
  rw [Eval.overflowAt]
  split at hstep <;> rename_i hrun
  · simpa only [hrun] using hstep
  · rename_i abort m'
    cases abort with
    | tooDeep => simpa only [hrun] using ⟨hstep.1, hE⟩
    | error | unfinished | fault | arguments => simpa only [hrun] using hstep

theorem keeps_checkArity {paren : Token} {expected got : Nat}
    (hE : E (.error { token := some paren, cause := .wrongArity expected got })) :
    Keeps I E (checkArity paren expected got) fun _ => expected = got := by
  rw [checkArity]
  split
  · exact keeps_failAt hE
  · next heq => exact keeps_pure (Decidable.not_not.1 heq)

/-! ### Loops -/

/-- Statements in order keep what each of them keeps. -/
theorem Keeps.runEach {Q : Option Signal → Prop} {run : Tree → Eval (Option Signal)}
    {statements : List Tree} (hnone : Q none) (h : ∀ s ∈ statements, Keeps I E (run s) Q) :
    Keeps I E (runEach run statements) Q := by
  induction statements with
  | nil => exact keeps_pure hnone
  | cons s rest ih =>
    rw [List.forall_mem_cons] at h
    refine h.1.bind fun signal hsignal => ?_
    cases signal with
    | some signal => exact keeps_pure hsignal
    | none => exact ih h.2

/-- The values of expressions in order satisfy what the value of each of them satisfies. -/
theorem Keeps.evalEach {P : Value → Prop} {evaluate : Tree → Eval Value} {expressions : List Tree}
    (h : ∀ e ∈ expressions, Keeps I E (evaluate e) P) :
    Keeps I E (evalEach evaluate expressions) fun vs => ∀ v ∈ vs, P v := by
  induction expressions with
  | nil => exact keeps_pure nofun
  | cons e rest ih =>
    rw [List.forall_mem_cons] at h
    refine h.1.bind fun v hv => (ih h.2).bind fun vs hvs => ?_
    exact keeps_pure (List.forall_mem_cons.2 ⟨hv, hvs⟩)

/-- A loop keeps what each of its turns keeps, however many there are. -/
theorem Keeps.untilSome {turn : Eval (Option α)} (hE : E .unfinished)
    (h : Keeps I E turn fun result => ∀ a, result = some a → Q a) (n : Nat) :
    Keeps I E (untilSome turn n) Q := by
  -- the bound on the turns plays no part but for the turn that is not granted
  induction n with
  | zero => exact keeps_throw hE
  | succ n ih =>
    refine h.bind fun result hresult => ?_
    cases result with
    | some a => exact keeps_pure (hresult a rfl)
    | none => exact ih

theorem Keeps.whileTurn {P : Value → Prop} {Q : Option Signal → Prop} {condition : Eval Value}
    {body : Eval (Option Signal)} (hnone : Q none) (hcondition : Keeps I E condition P)
    (hbody : Keeps I E body Q) :
    Keeps I E (whileTurn condition body) fun result => ∀ a, result = some a → Q a := by
  refine hcondition.bind fun v _ => ?_
  split
  · refine hbody.bind fun signal hsignal => ?_
    cases signal with
    | some signal => exact keeps_pure fun a ha => Option.some.inj ha ▸ hsignal
    | none => exact keeps_pure fun _ hnone => by cases hnone
  · exact keeps_pure fun a ha => Option.some.inj ha ▸ hnone

end Rules

end Scriptlet.Eval
