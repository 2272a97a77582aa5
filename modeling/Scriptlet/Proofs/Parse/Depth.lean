import Scriptlet.Proofs.Parse.Progress

/-!
# How much nesting depth a program takes

From an expression, the parser goes down twelve calls to a primary expression, and comes back to an
expression only behind a token that it has taken; between a declaration and its expressions there
are three calls at most. So twelve for every token that is left, and a few more, is all the depth
that is ever used, and only a program of some length comes to the limit.

## Main definitions

* `Parse.Fits` — from so many tokens the step does not run out of depth
* `Parse.FitsBehind` — nor does it behind the first of so many tokens

## Main results

* `Parse.fits_expression`, `Parse.fits_statement` — the depth that suffices for so many tokens
* `Parse.clear_of_program` — the depth that suffices for a program
-/

namespace Scriptlet.Parse

variable {α β : Type}

/-- At most `n` tokens are left, and nothing was complained about the nesting. -/
def Clear (n : Nat) (s : State) : Prop :=
  s.rest.length ≤ n ∧ ∀ c ∈ s.complaints, c.cause ≠ .nesting

theorem Clear.of_suffix {n : Nat} {s : State} {rest : List Token} {g : Nat} (h : Clear n s)
    (hrest : rest <:+ s.rest) : Clear n ⟨rest, s.complaints, g⟩ :=
  ⟨Nat.le_trans hrest.length_le h.1, h.2⟩

theorem Clear.complain {n : Nat} {s : State} (h : Clear n s) (cause : Cause)
    (hcause : cause ≠ .nesting) (ts : List Token) :
    Clear n { s with complaints := ⟨cause, ts⟩ :: s.complaints } :=
  ⟨h.1, List.forall_mem_cons.2 ⟨hcause, h.2⟩⟩

/-- From at most `n` tokens the step does not run out of depth. -/
def Fits (n : Nat) {α : Type} (p : Parse α) : Prop :=
  ∀ s, Clear n s → Clear n (finalState (p s)) ∧ ∀ t, p s ≠ .error .tooDeep t

/-- If there are at most `n` tokens, the step does not run out of depth behind the first. -/
def FitsBehind (n : Nat) {α : Type} (p : Parse α) : Prop := ∀ m < n, Fits m p

namespace Fits

variable {n : Nat} {p : Parse α} {f : α → Parse β}

theorem pure (a : α) : Fits n (Pure.pure a) := fun _ hs => ⟨hs, nofun⟩

theorem bind (h : Fits n p) (hf : ∀ a, Fits n (f a)) : Fits n (p >>= f) := by
  intro s hs
  have hp := h s hs
  rw [bind_apply]
  cases hr : p s with
  | ok a t =>
    rw [hr] at hp
    exact hf a t hp.1
  | error e t =>
    rw [hr] at hp
    refine ⟨hp.1, fun u hu => hp.2 t ?_⟩
    cases hu
    rfl

theorem fail {cause : Cause} (h : cause.aborts) : Fits n (fail cause : Parse α) := by
  refine fun s hs => ⟨hs.complain cause ?_ s.rest, nofun⟩
  rintro rfl
  cases h

/-- A token that is taken is one token less to fit. -/
theorem taking : Taking (@FitsBehind n) (α := α) (Fits n) := by
  intro kinds f htook hleft s hs
  rw [bind_apply]
  rcases accept?_cases kinds s with ⟨-, hrun⟩ | ⟨t, rest, hrest, -, hrun⟩
  · rw [hrun]
    exact hleft _ hs
  · have hlt : rest.length < n := by
      have hle := hs.1
      rwa [hrest] at hle
    obtain ⟨⟨hle, hcs⟩, hdeep⟩ :=
      htook t rest.length hlt { s with rest } ⟨Nat.le_refl _, hs.2⟩
    rw [hrun]
    exact ⟨⟨Nat.le_trans hle (Nat.le_of_lt hlt), hcs⟩, hdeep⟩

theorem accept? (kinds : List Kind) : Fits n (Parse.accept? kinds) := by
  have h := taking (n := n) kinds (Pure.pure (f := Parse)) (fun t _ _ => .pure (some t))
    (.pure none)
  rwa [bind_pure] at h

theorem recover (h : Fits n p) : Fits n (recover p) := by
  intro s hs
  obtain ⟨hclear, hdeep⟩ := h s hs
  rw [Parse.recover]
  cases hp : p s with
  | ok a t =>
    rw [hp] at hclear
    exact ⟨hclear, fun _ htoo => by cases htoo⟩
  | error e t =>
    cases e with
    | panic =>
      rw [hp] at hclear
      exact ⟨hclear.of_suffix (synchronize_suffix t.rest), fun _ htoo => by cases htoo⟩
    | tooDeep => exact absurd hp (hdeep t)

end Fits

/-- The rules, from at most `n` tokens. -/
theorem rules_fits (n : Nat) : Rules (@Fits n) where
  pure := .pure
  bind := .bind
  fail := .fail
  nextKind? := fun _ hs => ⟨hs, nofun⟩
  accept? := .accept?
  repeated h a := fun s => iterate_of_bind (C := @Fits n) .pure .bind h s.rest.length a s
  recover := .recover

/-- The rules, behind the first of at most `n` tokens. -/
theorem rules_fitsBehind (n : Nat) : Rules (@FitsBehind n) where
  pure a _ _ := .pure a
  bind h hf m hm := (h m hm).bind fun a => hf a m hm
  fail h _ _ := .fail h
  nextKind? m _ := (rules_fits m).nextKind?
  accept? kinds _ _ := .accept? kinds
  repeated h a m hm := (rules_fits m).repeated (fun a => h a m hm) a
  recover h m hm := (h m hm).recover

/-- The value of an assignment stands behind its equals sign. -/
theorem Fits.assignmentTail {n : Nat} {value : Parse Tree} (h : FitsBehind n value) (left : Tree) :
    Fits n (assignmentTail value left) := by
  intro s hs
  refine Fits.taking [.equal] _ (fun _ m hm => ?_) (.pure left) s hs
  refine (h m hm).bind fun v t ht => ?_
  unfold assignTo
  split
  · exact Fits.pure _ t ht
  · exact Fits.pure _ t ht
  · exact ⟨ht.complain .assignmentTarget (by decide) s.rest, fun _ htoo => by cases htoo⟩

/-! ### Expressions -/

mutual

theorem fits_expression : ∀ d n, 12 * n + 12 ≤ d → Fits n (expression d)
  | 0, n, h => by omega
  | d + 1, n, h => fits_assignment d n (by omega)

theorem fits_assignment : ∀ d n, 12 * n + 11 ≤ d → Fits n (assignment d)
  | 0, n, h => by omega
  | d + 1, n, h => by
    rw [assignment_succ]
    have hbinary : Fits n (binary d levels) := fits_binary d n levels (by simp [levels]; omega)
    exact hbinary.bind (Fits.assignmentTail fun m hm => fits_assignment d m (by omega))

theorem fits_binary : ∀ d n levels, 12 * n + levels.length + 4 ≤ d → Fits n (binary d levels)
  | 0, n, levels, h => by omega
  | d + 1, n, level :: tighter, h => by
    rw [List.length_cons] at h
    exact (rules_fits n).foldLevel (fits_binary d n tighter (by omega)) level
  | d + 1, n, [], h => by
    rw [List.length_nil] at h
    exact fits_unary d n (by omega)

theorem fits_unary : ∀ d n, 12 * n + 3 ≤ d → Fits n (unary d)
  | 0, n, h => by omega
  | d + 1, n, h => by
    refine Fits.taking _ _ (fun _ m hm => ?_) (fits_call d n (by omega))
    exact (fits_unary d m (by omega)).bind fun _ => .pure _

theorem fits_call : ∀ d n, 12 * n + 2 ≤ d → Fits n (call d)
  | 0, n, h => by omega
  | d + 1, n, h => by
    have hindex : FitsBehind n (expression d) := fun m hm => fits_expression d m (by omega)
    exact (fits_primary d n (by omega)).bind ((rules_fits n).repeated
      (Fits.taking.trailer? (rules_fitsBehind n) hindex (.pure none)))

theorem fits_primary : ∀ d n, 12 * n + 1 ≤ d → Fits n (primary d)
  | 0, n, h => by omega
  | d + 1, n, h => by
    have hinner : FitsBehind n (expression d) := fun m hm => fits_expression d m (by omega)
    exact Fits.taking.primaryWith (rules_fitsBehind n) hinner (.fail rfl)

end

/-! ### Statements and declarations -/

mutual

theorem fits_declaration : ∀ d n, 12 * n + 14 ≤ d → Fits n (declaration d)
  | 0, n, h => by omega
  | d + 1, n, h => by
    have hvalue : FitsBehind n (expression d) := fun m hm => fits_expression d m (by omega)
    have hbody : FitsBehind n (block d) := fun m hm => fits_block d m (by omega)
    exact (Fits.taking.declarationWith (rules_fitsBehind n) hvalue hbody
      (fits_statement d n (by omega))).recover

theorem fits_statement : ∀ d n, 12 * n + 13 ≤ d → Fits n (statement d)
  | 0, n, h => by omega
  | d + 1, n, h => by
    have hvalue : FitsBehind n (expression d) := fun m hm => fits_expression d m (by omega)
    have hinner : FitsBehind n (statement d) := fun m hm => fits_statement d m (by omega)
    have hblock : FitsBehind n (block d) := fun m hm => fits_block d m (by omega)
    exact Fits.taking.statementWith (rules_fitsBehind n) hvalue hinner hblock
      ((rules_fits n).expressionStatement (fits_expression d n (by omega)))

theorem fits_block : ∀ d n, 12 * n + 15 ≤ d → Fits n (block d)
  | 0, n, h => by omega
  | d + 1, n, h => by
    have hbody := (rules_fits n).declarationsUntil (fits_declaration d n (by omega))
    exact (hbody _).bind fun _ => ((rules_fits n).expect _ rfl).bind fun _ => .pure _

end

/-- In a program of at most `n` tokens nothing is complained about the nesting, if the depth is
twelve times as much. -/
theorem clear_of_program {d n : Nat} (h : 12 * n + 14 ≤ d) {s s' : State} {statements : List Tree}
    (hs : Clear n s) (hrun : program d s = .ok statements s') : Clear n s' := by
  have hprogram := (rules_fits n).declarationsUntil (fits_declaration d n h) (fun _ => false) s hs
  change Clear n (finalState (program d s)) ∧ _ at hprogram
  rw [hrun] at hprogram
  exact hprogram.1

end Scriptlet.Parse
