import Scriptlet.Proofs.Parse.Blame

/-!
# Steps that take a token

An expression or a statement that is read takes a token at least: whatever it begins with is taken
or complained about. A declaration that is given up has perhaps taken none, but then recovery skips
one. So every round of every loop of the parser takes a token, and the loop over a program goes on
until none is left.

## Main definitions

* `Parse.Advances` — a step takes a token at least

## Main results

* `Parse.length_declaration_lt` — a declaration, read or given up, takes a token
* `Parse.rest_eq_nil_of_program` — a program takes all tokens
-/

namespace Scriptlet.Parse

variable {α β : Type}

/-- The step takes a token at least whenever it yields something with property `P`. -/
def Advances (P : α → Prop) (p : Parse α) : Prop :=
  ∀ s a s', p s = .ok a s' → P a → s'.rest.length < s.rest.length

namespace Advances

variable {P : α → Prop} {p : Parse α} {f : α → Parse β}

theorem pure_of_not {a : α} (h : ¬ P a) : Advances P (pure a) := by
  intro s b s' hs hb
  cases hs
  exact absurd hb h

theorem fail {cause : Cause} : Advances P (fail cause) := nofun

theorem tooDeep : Advances P (throw .tooDeep) := nofun

/-- A token that was taken is not given back. -/
theorem bind {Q : β → Prop} (h : Advances (fun _ => True) p) (hf : ∀ a, Onward (f a)) :
    Advances Q (p >>= f) := by
  intro s b s' hs _
  rw [bind_apply] at hs
  cases hp : p s with
  | error e t =>
    rw [hp] at hs
    cases hs
  | ok a t =>
    rw [hp] at hs
    dsimp only at hs
    have hle := (hf a t).rest
    rw [hs] at hle
    exact Nat.lt_of_le_of_lt hle.length_le (h s a t hp trivial)

theorem taking : Taking @Onward (Advances P) := by
  intro kinds f htook hleft s b s' hs hb
  rw [bind_apply] at hs
  rcases accept?_cases kinds s with ⟨-, hrun⟩ | ⟨t, rest, hrest, -, hrun⟩
  · rw [hrun] at hs
    exact hleft _ _ _ hs hb
  · rw [hrun] at hs
    dsimp only at hs
    have hle := (htook t { s with rest }).rest
    rw [hs] at hle
    rw [hrest]
    exact Nat.lt_succ_of_le hle.length_le

theorem separatedStep {item : Parse β} (h : Onward item) (kinds : List Kind)
    (f : α → Token → β → α) (a : α) :
    Advances (fun o => o.isSome) (separatedStep kinds f item a) :=
  taking _ _ (fun _ => h.bind fun _ => .pure _) (pure_of_not nofun)

theorem trailer? {e : Parse Tree} (h : Onward e) (callee : Tree) :
    Advances (fun o => o.isSome) (trailer? e callee) :=
  taking.trailer? onward.toRules h (pure_of_not nofun) callee

/-- A repetition takes what the first step takes. -/
theorem foldLevel {P : Tree → Prop} {operand : Parse Tree} (h : Advances (fun _ => True) operand)
    (honward : Onward operand) (level : Level) : Advances P (foldLevel level operand) := by
  rw [foldLevel_eq]
  exact h.bind fun first => .repeated (onward.separatedStep honward _ _) first

end Advances

/-! ### Expressions and statements -/

mutual

theorem advances_expression {P : Tree → Prop} : ∀ d, Advances P (expression d)
  | 0 => .tooDeep
  | d + 1 => advances_assignment d

theorem advances_assignment {P : Tree → Prop} : ∀ d, Advances P (assignment d)
  | 0 => .tooDeep
  | d + 1 => by
    rw [assignment_succ]
    exact (advances_binary d levels).bind (onward.assignmentTail (onward.assignment d))

theorem advances_binary {P : Tree → Prop} : ∀ d levels, Advances P (binary d levels)
  | 0, _ => .tooDeep
  | d + 1, level :: tighter => (advances_binary d tighter).foldLevel (onward.binary d tighter) level
  | d + 1, [] => advances_unary d

theorem advances_unary {P : Tree → Prop} : ∀ d, Advances P (unary d)
  | 0 => .tooDeep
  | d + 1 => .taking _ _ (fun _ => (onward.unary d).bind fun _ => .pure _) (advances_call d)

theorem advances_call {P : Tree → Prop} : ∀ d, Advances P (call d)
  | 0 => .tooDeep
  | d + 1 => (advances_primary d).bind (onward.repeated (onward.trailer? (onward.expression d)))

theorem advances_primary {P : Tree → Prop} : ∀ d, Advances P (primary d)
  | 0 => .tooDeep
  | d + 1 => Advances.taking.primaryWith onward.toRules (onward.expression d) .fail

end

theorem advances_statement {P : Tree → Prop} : ∀ d, Advances P (statement d)
  | 0 => .tooDeep
  | d + 1 => by
    refine Advances.taking.statementWith onward.toRules (onward.expression d) (onward.statement d)
      (onward.block d) ?_
    exact (advances_expression d).bind fun _ => (onward.expect _ rfl).bind fun _ => .pure _

theorem advances_declarationWith {P : Tree → Prop} (d : Nat) :
    Advances P (declarationWith (expression d) (statement d) (block d)) :=
  Advances.taking.declarationWith onward.toRules (onward.expression d) (onward.block d)
    (advances_statement d)

/-! ### Declarations -/

/-- What is read takes a token, and what is given up is followed by the skipping of one. -/
theorem length_recover_lt {p : Parse α} (h : Advances (fun _ => True) p) (honward : Onward p)
    {s s' : State} {o : Option α} (hs : s.rest ≠ []) (hrun : recover p s = .ok o s') :
    s'.rest.length < s.rest.length := by
  have hle := (honward s).rest
  have hskips (t : State) (ht : t.rest <:+ s.rest) :
      (synchronize t.rest).length < s.rest.length := by
    by_cases hend : t.rest = []
    · rw [hend]
      exact List.length_pos_iff.2 hs
    · exact Nat.lt_of_lt_of_le (length_synchronize_lt hend) ht.length_le
  rw [recover] at hrun
  cases hp : p s with
  | ok a t =>
    rw [hp] at hrun
    cases hrun
    exact h s a _ hp trivial
  | error e t =>
    rw [hp] at hrun hle
    have hlt := hskips t hle
    cases e <;> cases hrun <;> exact hlt

/-- A declaration, read or given up, takes a token if there is one. -/
theorem length_declaration_lt {d : Nat} {s s' : State} {o : Option Tree} (hs : s.rest ≠ [])
    (hrun : declaration d s = .ok o s') : s'.rest.length < s.rest.length := by
  cases d with
  | zero => cases hrun
  | succ d =>
    have honward := onward.declarationWith (onward.expression d) (onward.statement d)
      (onward.block d)
    exact length_recover_lt (advances_declarationWith d) honward hs hrun

theorem advances_declarationStep (stop : Kind → Bool) (d : Nat) (ss : List Tree) :
    Advances (fun o => o.isSome) (declarationStep stop (declaration d) ss) := by
  rintro ⟨ts, cs, n⟩ o s' hrun ho
  cases ts with
  | nil =>
    rw [declarationStep_nil _ _ _ rfl] at hrun
    cases hrun
    cases ho
  | cons t rest =>
    rw [declarationStep_cons] at hrun
    split at hrun
    · cases hrun
      cases ho
    · rw [bind_apply] at hrun
      cases hd : declaration d ⟨t :: rest, cs, n⟩ with
      | error e u =>
        rw [hd] at hrun
        cases hrun
      | ok o u =>
        rw [hd] at hrun
        cases hrun
        exact length_declaration_lt nofun hd

/-- A repetition whose rounds take tokens, and which ends only where none is left, takes all. -/
theorem rest_eq_nil_of_iterate {step : α → Parse (Option α)}
    (hadvances : ∀ a, Advances (fun o => o.isSome) (step a))
    (hnone : ∀ a s s', step a s = .ok none s' → s'.rest = []) {n : Nat} {a b : α} {s s' : State}
    (hn : s.rest.length ≤ n) (hrun : iterate step n a s = .ok b s') : s'.rest = [] := by
  induction n generalizing a s with
  | zero =>
    cases hrun
    exact List.length_eq_zero_iff.1 (Nat.le_zero.1 hn)
  | succ n ih =>
    rw [iterate, bind_apply] at hrun
    cases hstep : step a s with
    | error e t =>
      rw [hstep] at hrun
      cases hrun
    | ok o t =>
      rw [hstep] at hrun
      cases o with
      | none =>
        cases hrun
        exact hnone _ _ _ hstep
      | some c =>
        have hlt := hadvances a s _ t hstep rfl
        exact ih (by omega) hrun

/-- A program takes all tokens. -/
theorem rest_eq_nil_of_program {d : Nat} {s s' : State} {statements : List Tree}
    (hrun : program d s = .ok statements s') : s'.rest = [] := by
  rw [program, declarationsUntil_eq, bind_apply] at hrun
  cases hall : repeated (declarationStep (fun _ => false) (declaration d)) [] s with
  | error e t =>
    rw [hall] at hrun
    cases hrun
  | ok all t =>
    rw [hall] at hrun
    cases hrun
    refine rest_eq_nil_of_iterate (advances_declarationStep _ d) ?_ (Nat.le_refl _) hall
    rintro ss ⟨ts, cs, n⟩ u hu
    cases ts with
    | nil =>
      rw [declarationStep_nil _ _ _ rfl] at hu
      cases hu
      rfl
    | cons t rest =>
      rw [declarationStep_cons, if_neg Bool.false_ne_true, bind_apply] at hu
      cases hd : declaration d ⟨t :: rest, cs, n⟩ <;> rw [hd] at hu <;> cases hu

end Scriptlet.Parse
