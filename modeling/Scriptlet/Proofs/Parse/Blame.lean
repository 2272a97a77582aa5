import Scriptlet.Proofs.Parse.Closed
import Scriptlet.Proofs.Parse.Reading

/-!
# Which tokens the parser blames

A parsing step never looks back: what it leaves and what it blames is among the tokens that were
left when it began. Recovery does not change this, as it only skips. The one step that remembers
tokens is an assignment, which blames the equals sign in front of the value that it has read
meanwhile; the equals sign was left when the assignment began, but not when the value did.

## Main definitions

* `Parse.finalState` — the state in which a step ends, however it ends
* `Parse.Blames` — only some tokens were blamed since
* `Parse.Onward` — the contract of a step

## Main results

* `Parse.Onward.bind`, `Parse.Onward.repeated`, `Parse.Onward.recover` — rules for combined steps
* `Parse.onward` — every step of the parser goes onward
-/

namespace Scriptlet.Parse

variable {α β : Type}

/-- The state in which a step ends, however it ends. -/
def finalState : EStateM.Result Abort State α → State
  | .ok _ s => s
  | .error _ s => s

/-- What is left is among the tokens `ts`, and so is what was blamed since the complaints `cs`. -/
structure Blames (cs : List Complaint) (ts : List Token) (s : State) : Prop where
  rest : s.rest <:+ ts
  complaints : ∃ new, s.complaints = new ++ cs ∧ ∀ c ∈ new, c.rest <:+ ts

namespace Blames

variable {cs : List Complaint} {ts us : List Token} {s t : State}

/-- No complaint. -/
theorem none {rest : List Token} {n : Nat} (h : rest <:+ ts) : Blames cs ts ⟨rest, cs, n⟩ :=
  ⟨h, [], rfl, nofun⟩

theorem mono (h : Blames cs ts s) (hsub : ts <:+ us) : Blames cs us s := by
  obtain ⟨new, hnew, hall⟩ := h.complaints
  exact ⟨h.rest.trans hsub, new, hnew, fun c hc => (hall c hc).trans hsub⟩

theorem trans (h : Blames cs ts s) (h' : Blames s.complaints ts t) : Blames cs ts t := by
  obtain ⟨new, hnew, hall⟩ := h.complaints
  obtain ⟨new', hnew', hall'⟩ := h'.complaints
  refine ⟨h'.rest, new' ++ new, by rw [hnew', hnew, List.append_assoc], ?_⟩
  exact List.forall_mem_append.2 ⟨hall', hall⟩

/-- What is blamed among the tokens that were left is blamed among those that were left before. -/
theorem next (h : Blames cs ts s) (h' : Blames s.complaints s.rest t) : Blames cs ts t :=
  h.trans (h'.mono h.rest)

/-- One more complaint. -/
theorem one (cause : Cause) {rest : List Token} (n : Nat) (h : rest <:+ ts) (h' : us <:+ ts) :
    Blames cs ts ⟨rest, ⟨cause, us⟩ :: cs, n⟩ :=
  ⟨h, [⟨cause, us⟩], rfl, List.forall_mem_singleton.2 h'⟩

theorem subset (h : Blames cs ts s) : cs ⊆ s.complaints := by
  obtain ⟨new, hnew, -⟩ := h.complaints
  rw [hnew]
  exact List.subset_append_right _ _

/-- A complaint about the nesting stays. -/
theorem runsOut {result : EStateM.Result Abort State α} (h : Blames cs ts (finalState result))
    (hcs : ∃ c ∈ cs, c.cause = .nesting) : RunsOut result := by
  obtain ⟨c, hc, hcause⟩ := hcs
  have hmem := h.subset hc
  cases result with
  | ok a s' => exact ⟨c, hmem, hcause⟩
  | error e s' =>
    cases e with
    | panic => exact ⟨c, hmem, hcause⟩
    | tooDeep => trivial

end Blames

/-- The step leaves and blames only tokens that were left when it began. -/
def Onward (p : Parse α) : Prop := ∀ s, Blames s.complaints s.rest (finalState (p s))

namespace Onward

variable {p q : Parse α} {f : α → Parse β}

theorem pure (a : α) : Onward (Pure.pure a) := fun _ => .none List.suffix_rfl

theorem throw : Onward (throw .tooDeep : Parse α) := fun _ => .none List.suffix_rfl

/-- What follows a step that blamed some tokens blames none but these. -/
theorem blames_bind {cs : List Complaint} {ts : List Token} {s : State}
    (h : Blames cs ts (finalState (p s))) (hf : ∀ a, Onward (f a)) :
    Blames cs ts (finalState ((p >>= f) s)) := by
  rw [bind_apply]
  cases hp : p s with
  | ok a t =>
    rw [hp] at h
    exact h.next (hf a t)
  | error e t =>
    rw [hp] at h
    exact h

theorem bind (h : Onward p) (hf : ∀ a, Onward (f a)) : Onward (p >>= f) :=
  fun s => blames_bind (h s) hf

theorem ite {c : Prop} [Decidable c] (hp : Onward p) (hq : Onward q) :
    Onward (if c then p else q) := by
  split
  · exact hp
  · exact hq

/-! ### The basic steps -/

theorem nextKind? : Onward nextKind? := fun _ => .none List.suffix_rfl

theorem nextIs (kind : Kind) : Onward (nextIs kind) := fun _ => .none List.suffix_rfl

theorem fail (cause : Cause) : Onward (fail cause : Parse α) := fun _ =>
  .one cause _ List.suffix_rfl List.suffix_rfl

theorem accept? (kinds : List Kind) : Onward (accept? kinds) := by
  intro s
  rcases accept?_cases kinds s with ⟨-, hrun⟩ | ⟨t, rest, hrest, -, hrun⟩
  · rw [hrun]
    exact .none List.suffix_rfl
  · rw [hrun, hrest]
    exact .none (List.suffix_cons t rest)

/-- What follows an optional token, if there is one and if there is none. -/
theorem accept?_bind {kinds : List Kind} {f : Option Token → Parse α}
    (htook : ∀ t, Onward (f (some t))) (hleft : Onward (f none)) :
    Onward (Parse.accept? kinds >>= f) := by
  refine (accept? kinds).bind fun o => ?_
  cases o with
  | none => exact hleft
  | some t => exact htook t

theorem expect (kind : Kind) (cause : Cause) : Onward (expect kind cause) :=
  accept?_bind (fun t => .pure t) (.fail cause)

/-! ### Repetition and recovery -/

theorem iterate {step : α → Parse (Option α)} (h : ∀ a, Onward (step a)) (n : Nat) (a : α) :
    Onward (Parse.iterate step n a) := iterate_of_bind (C := @Onward) .pure .bind h n a

theorem repeated {step : α → Parse (Option α)} (h : ∀ a, Onward (step a)) (a : α) :
    Onward (repeated step a) :=
  fun s => iterate h s.rest.length a s

/-- Recovery blames the token at which the depth was exhausted, and skips tokens. -/
theorem blames_recover {cs : List Complaint} {ts : List Token} {s : State}
    (h : Blames cs ts (finalState (p s))) : Blames cs ts (finalState (Parse.recover p s)) := by
  rw [Parse.recover]
  cases hp : p s with
  | ok a t =>
    rw [hp] at h
    exact h
  | error e t =>
    rw [hp] at h
    have hskip : synchronize t.rest <:+ t.rest := synchronize_suffix t.rest
    cases e with
    | panic => exact h.trans (.none (hskip.trans h.rest))
    | tooDeep => exact h.next (.one .nesting _ hskip List.suffix_rfl)

theorem recover (h : Onward p) : Onward (recover p) := fun s => blames_recover (h s)

end Onward

/-! ### Assignments -/

/-- A target is assigned to; anything else is complained about at the equals sign. -/
theorem blames_assignTo (left value : Tree) {ts : List Token} (equals : List Token) {s : State}
    (hequals : equals <:+ ts) (hs : s.rest <:+ ts) :
    Blames s.complaints ts (finalState (assignTo left value equals s)) := by
  unfold assignTo
  split
  · exact .none hs
  · exact .none hs
  · exact .one .assignmentTarget _ hs hequals

/-- The equals sign that is remembered was left when the left side had been read. -/
theorem onward_assignmentTail {value : Parse Tree} (h : Onward value) (left : Tree) :
    Onward (assignmentTail value left) := by
  rintro ⟨ts, cs, n⟩
  rcases assignmentTail_cases value left ⟨ts, cs, n⟩ with ⟨-, hrun⟩ | ⟨t, rest, rfl, -, hrun⟩
  · rw [hrun]
    exact .none List.suffix_rfl
  · have hvalue := (h ⟨rest, cs, n⟩).mono (List.suffix_cons t rest)
    rw [hrun, bind_apply]
    cases hv : value ⟨rest, cs, n⟩ with
    | error e u =>
      rw [hv] at hvalue
      exact hvalue
    | ok v u =>
      rw [hv] at hvalue
      exact hvalue.trans (blames_assignTo left v (t :: rest) List.suffix_rfl hvalue.rest)

/-- Every step of the parser goes onward. -/
theorem onward : Closed @Onward where
  pure := .pure
  bind := .bind
  tooDeep := .throw
  fail _ := .fail _
  nextKind? := .nextKind?
  accept? := .accept?
  repeated := .repeated
  recover := .recover
  assignmentTail := onward_assignmentTail

end Scriptlet.Parse
