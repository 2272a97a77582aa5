import Scriptlet.Proofs.Lines.Erasure
import Scriptlet.Proofs.Parse.Locality
import Scriptlet.Proofs.Parse.Position
import Scriptlet.Proofs.Parse.Progress

/-!
# Programs one behind the other

A program is read declaration by declaration, and every declaration is read as if the program began
with it: what was read before, what was complained about and how much was given up make no
difference. So behind tokens that are a program without a complaint, another program is read as it
is read alone, with all of its complaints; the one thing that could join the two is an `else`, which
a conditional at the end of the first would take.

## Main definitions

* `Parse.Runs` — a program, declaration by declaration
* `Parse.State.withPast`, `Parse.IgnoresPast` — a step does the same whatever happened before

## Main results

* `Parse.program_eq_ok_iff` — what a program yields, declaration by declaration
* `Parse.ignoresPast` — no step of the parser looks at what happened before
* `Parse.parseBody_of_declaration` — what is parsed behind the first declaration
* `parseTokens?_behind_program` — the statements and diagnostics of tokens behind a program
-/

namespace Scriptlet

namespace Parse

/-! ### Declaration by declaration -/

/-- From the first state the declarations are read until no token is left, which yields the
statements of those that were not given up and leaves the second state. -/
inductive Runs (d : Nat) : State → List Tree → State → Prop
  | done {s : State} : s.rest = [] → Runs d s [] s
  | next {s t u : State} {o : Option Tree} {ss : List Tree} : s.rest ≠ [] →
      declaration d s = .ok o t → Runs d t ss u → Runs d s (o.toList ++ ss) u

variable {d : Nat} {s t u : State} {ss ss' : List Tree}

/-- A round of the loop over the declarations of a program. -/
theorem declarationStep_of_declaration {o : Option Tree} (hs : s.rest ≠ [])
    (h : declaration d s = .ok o t) (acc : List Tree) :
    declarationStep (fun _ => false) (declaration d) acc s = .ok (some (o.toList ++ acc)) t := by
  obtain ⟨ts, cs, n⟩ := s
  obtain ⟨first, ts, rfl⟩ := List.exists_cons_of_ne_nil hs
  rw [declarationStep_cons, if_neg Bool.false_ne_true, bind_apply, h]
  rfl

/-- The loop has a unit of fuel for each token, and each round takes one. -/
theorem Runs.iterate (h : Runs d s ss u) {n : Nat} (hn : s.rest.length ≤ n) (acc : List Tree) :
    Parse.iterate (declarationStep (fun _ => false) (declaration d)) n acc s =
      .ok (ss.reverse ++ acc) u := by
  induction h generalizing n acc with
  | @done s hs =>
    cases n with
    | zero => rfl
    | succ n =>
      rw [Parse.iterate, bind_apply, declarationStep_nil _ _ _ hs]
      rfl
  | @next s t u o ss hs hdecl _ ih =>
    have hlt := length_declaration_lt hs hdecl
    cases n with
    | zero => omega
    | succ n =>
      rw [Parse.iterate, bind_apply, declarationStep_of_declaration hs hdecl]
      dsimp only
      rw [ih (by omega), List.reverse_append, List.append_assoc]
      cases o <;> rfl

theorem Runs.program (h : Runs d s ss u) : Parse.program d s = .ok ss u := by
  have hloop : repeated (declarationStep (fun _ => false) (declaration d)) [] s =
      .ok (ss.reverse ++ []) u := h.iterate (Nat.le_refl _) []
  rw [Parse.program, declarationsUntil_eq, bind_apply, hloop, List.append_nil]
  change EStateM.Result.ok ss.reverse.reverse u = _
  rw [List.reverse_reverse]

/-- A program is read declaration by declaration, from every state. -/
theorem exists_runs (d : Nat) (s : State) : ∃ ss u, Runs (d + 1) s ss u := by
  by_cases hs : s.rest = []
  · exact ⟨[], s, .done hs⟩
  · obtain ⟨o, t, hdecl⟩ : ∃ o t, declaration (d + 1) s = .ok o t := NeverAborts.recover _ s
    obtain ⟨ss, u, hruns⟩ := exists_runs d t
    exact ⟨o.toList ++ ss, u, .next hs hdecl hruns⟩
termination_by s.rest.length
decreasing_by exact length_declaration_lt hs hdecl

/-- What a program yields, declaration by declaration. -/
theorem program_eq_ok_iff : program (d + 1) s = .ok ss u ↔ Runs (d + 1) s ss u := by
  refine ⟨fun h => ?_, Runs.program⟩
  obtain ⟨ss', u', hruns⟩ := exists_runs d s
  cases h.symm.trans hruns.program
  exact hruns

/-! ### What happened before -/

/-- The state with complaints and given-up declarations from before. -/
def State.withPast (past : List Complaint) (n : Nat) (s : State) : State :=
  { s with complaints := s.complaints ++ past, givenUp := s.givenUp + n }

/-- The step does the same whatever was complained about and given up before. -/
def IgnoresPast {α : Type} (p : Parse α) : Prop :=
  ∀ past n, Commutes id (State.withPast past n) id p p

namespace IgnoresPast

variable {α β : Type} {p : Parse α} {f : α → Parse β}

theorem pure (a : α) : IgnoresPast (Pure.pure a) := fun _ _ => .pure a

theorem bind (h : IgnoresPast p) (hf : ∀ a, IgnoresPast (f a)) : IgnoresPast (p >>= f) :=
  fun past n => (h past n).bind fun a => hf a past n

theorem accept? (kinds : List Kind) : IgnoresPast (accept? kinds) := by
  rintro past n ⟨ts, cs, k⟩
  change Parse.accept? kinds ⟨ts, cs ++ past, k + n⟩ = _
  by_cases hnext : NextNot kinds ts
  · rw [accept?_of_notMem hnext, accept?_of_notMem hnext]
    rfl
  · obtain ⟨t, rest, rfl, hk⟩ := exists_cons_of_not_nextNot hnext
    rw [accept?_cons hk, accept?_cons hk]
    rfl

theorem recover (h : IgnoresPast p) : IgnoresPast (recover p) := by
  intro past n s
  have hresume (t : State) : (t.withPast past n).resume = t.resume.withPast past n := by
    simp only [State.resume, State.withPast, Nat.add_right_comm]
  simp only [Parse.recover, h past n s]
  cases p s with
  | ok a t => rfl
  | error e t =>
    cases e with
    | panic => exact congrArg _ (hresume t)
    | tooDeep =>
      exact congrArg _ (hresume { t with complaints := ⟨.nesting, t.rest⟩ :: t.complaints })

theorem complain (cause : Cause) (rest : List Token) : IgnoresPast (complain cause rest) :=
  fun _ _ => .modify fun _ => rfl

theorem assignTo (left value : Tree) (equals : List Token) :
    IgnoresPast (assignTo left value equals) := by
  unfold Parse.assignTo
  split
  · exact .pure _
  · exact .pure _
  · exact (complain _ equals).bind fun _ => .pure left

/-- The tokens that an assignment looks back to are the same, too. -/
theorem assignmentTail {value : Parse Tree} (h : IgnoresPast value) (left : Tree) :
    IgnoresPast (assignmentTail value left) := by
  intro past n s
  rcases assignmentTail_cases value left s with ⟨hnext, hrun⟩ | ⟨equals, rest, hrest, hkind, hrun⟩
  all_goals
    rcases assignmentTail_cases value left (s.withPast past n) with
      ⟨hnext', hrun'⟩ | ⟨equals', rest', hrest', hkind', hrun'⟩
  · rw [hrun, hrun']
    rfl
  · exact absurd (List.mem_singleton.2 hkind') (hnext equals' (congrArg List.head? hrest'))
  · exact absurd (List.mem_singleton.2 hkind) (hnext' equals (congrArg List.head? hrest))
  · cases hrest.symm.trans hrest'
    rw [hrun, hrun']
    exact (h.bind fun v => .assignTo left v (equals :: rest)) past n { s with rest }

end IgnoresPast

/-- No step of the parser looks at what happened before. -/
theorem ignoresPast : Closed @IgnoresPast where
  pure := .pure
  bind := .bind
  tooDeep := fun _ _ => .throw _
  fail _ := fun _ _ _ => rfl
  nextKind? := fun _ _ _ => rfl
  accept? := .accept?
  repeated h a := fun past n s =>
    iterate_of_bind (C := @IgnoresPast) .pure .bind h s.rest.length a past n s
  recover := .recover
  assignmentTail := .assignmentTail

/-- A program is its first declaration, and then what is left is parsed as it is alone. -/
theorem parseBody_of_declaration {ts us : List Token} {o : Option Tree} {cs : List Complaint}
    {n : Nat} (hts : ts ≠ []) (h : declaration (d + 1) (.start ts) = .ok o ⟨us, cs, n⟩) :
    parseBody (d + 1) ts =
      (o.toList ++ (parseBody (d + 1) us).1, cs.reverse ++ (parseBody (d + 1) us).2) := by
  obtain ⟨ss, u, hruns⟩ := exists_runs d (.start us)
  -- the complaints of the declaration are the past of what follows
  have hstart : (State.start us).withPast cs n = ⟨us, cs, n⟩ :=
    congrArg (State.mk us cs) (Nat.zero_add n)
  have hbehind : program (d + 1) ⟨us, cs, n⟩ = .ok ss (u.withPast cs n) := by
    have hpast := ignoresPast.program (d + 1) cs n (.start us)
    rwa [hruns.program, hstart] at hpast
  have hall : Runs (d + 1) (.start ts) (o.toList ++ ss) (u.withPast cs n) :=
    .next hts h (program_eq_ok_iff.1 hbehind)
  rw [parseBody, parseBody, hall.program, hruns.program]
  exact congrArg _ List.reverse_append

/-! ### Behind a program -/

/-- Declarations that are read one after the other, each whatever is put behind it that does not
begin with `else`. -/
inductive Rounds (d : Nat) : List Token → List Tree → Prop
  | done : Rounds d [] []
  | next {ts rest : List Token} {t : Tree} {more : List Tree} : rest.length < ts.length →
      (∀ behind, NextNot [.elseKey] behind → Carries (declaration d) behind ts (some t) rest) →
      Rounds d rest more → Rounds d ts (t :: more)

theorem extends_of_declaration {o : Option Tree} (h : declaration d s = .ok o t) :
    s.Extends t := by
  have hsteady := (ensures_declaration d).steady s
  rw [h] at hsteady
  exact hsteady.1

theorem Runs.extends (h : Runs d s ss u) : s.Extends u := by
  induction h with
  | done => exact .refl _
  | next _ hdecl _ ih => exact (extends_of_declaration hdecl).trans ih

/-- The declarations of a program that is read without a complaint are read whatever is put
behind. -/
theorem Runs.rounds (h : Runs d s ss u) (hclean : u.complaints = s.complaints) :
    Rounds d s.rest ss := by
  induction h with
  | done hs =>
    rw [hs]
    exact .done
  | @next s t u o ss hs hdecl hruns ih =>
    -- no complaint is withdrawn, so there was none in the first declaration either
    obtain ⟨hfirst, hlater⟩ :=
      (extends_of_declaration hdecl).complaints_eq hruns.extends hclean
    obtain ⟨tree, rfl, -⟩ := (ensures_declaration d).ok hdecl hfirst
    refine .next (length_declaration_lt hs hdecl) (fun behind helse => ?_) (ih hlater)
    exact ((takes_declaration helse d).ok hdecl hfirst).2

/-- Behind declarations that are read whatever is put behind them, a program is read as it is read
alone. -/
theorem Rounds.runs {ts us : List Token} {cs : List Complaint} {n : Nat} (h : Rounds d ts ss)
    (helse : NextNot [.elseKey] us) (h' : Runs d ⟨us, cs, n⟩ ss' u) :
    Runs d ⟨ts ++ us, cs, n⟩ (ss ++ ss') u := by
  induction h with
  | done => exact h'
  | @next ts rest t more hlt hcarries _ ih =>
    have hne : ts ≠ [] := List.ne_nil_of_length_pos (Nat.lt_of_le_of_lt (Nat.zero_le _) hlt)
    exact .next (List.append_ne_nil_of_left_ne_nil hne us) (hcarries us helse cs n) ih

end Parse

open Parse Grammar

/-- A program does not begin with `else`. -/
theorem nextNot_else_of_program {ts : List Token} {ss : List Tree} (h : Program .nearest ts ss) :
    NextNot [.elseKey] ts := by
  cases h with
  | noDeclaration => exact nofun
  | declarations hdecl _ =>
    obtain ⟨t, us, rfl, ht⟩ := hdecl.starts rfl
    refine NextNot.cons ?_
    revert ht
    cases t.kind <;> decide

/-- The declarations of tokens that are parsed without a complaint. -/
theorem rounds_of_parseBody {d : Nat} {ts : List Token} {ss : List Tree}
    (h : parseBody (d + 1) ts = (ss, [])) : Rounds (d + 1) ts ss := by
  obtain ⟨ss', u, hruns⟩ := exists_runs d (.start ts)
  rw [parseBody, hruns.program] at h
  obtain ⟨rfl, hnone⟩ := Prod.mk.inj h
  exact hruns.rounds (List.reverse_eq_nil_iff.1 hnone)

/-- What is parsed behind tokens that are parsed without a complaint is parsed as it is alone. -/
theorem parseBody_behind {d : Nat} {ts us : List Token} {ss : List Tree}
    (h : parseBody (d + 1) ts = (ss, [])) (helse : NextNot [.elseKey] us) :
    parseBody (d + 1) (ts ++ us) = (ss ++ (parseBody (d + 1) us).1, (parseBody (d + 1) us).2) := by
  obtain ⟨ss', u, hruns⟩ := exists_runs d (.start us)
  have hboth : Runs (d + 1) (.start (ts ++ us)) (ss ++ ss') u :=
    (rounds_of_parseBody h).runs helse hruns
  rw [parseBody, parseBody, hruns.program, hboth.program]

/-- Two programs one behind the other, if each is parsed without a complaint. -/
theorem parseBody_append {d : Nat} {ts us : List Token} {ss ss' : List Tree}
    (h : parseBody (d + 1) ts = (ss, [])) (h' : parseBody (d + 1) us = (ss', [])) :
    parseBody (d + 1) (ts ++ us) = (ss ++ ss', []) := by
  rw [parseBody_behind h (nextNot_else_of_program (program_of_parseBody h')), h']

theorem nextNot_beforeEnd {kinds : List Kind} {ts : List Token} (h : NextNot kinds ts) :
    NextNot kinds (beforeEnd ts) := by
  cases ts with
  | nil => exact h
  | cons t ts =>
    rw [beforeEnd, List.takeWhile_cons]
    split
    · exact .cons (h t rfl)
    · exact nofun

/-- Behind tokens that are parsed without a diagnostic, a token list is parsed as it is alone, with
all of its diagnostics, unless it begins with `else`. -/
theorem parseTokens?_behind_program {ts us : List Token} {eof : Token} {ss : List Tree}
    (hts : ∀ t ∈ ts, t.kind ≠ .eof) (heof : eof.kind = .eof)
    (h : parseTokens? (ts ++ [eof]) = some ⟨ss, []⟩) (hus : EndsInEof us)
    (helse : NextNot [.elseKey] us) :
    ∃ parsed, parseTokens? us = some parsed ∧
      parseTokens? (ts ++ us) = some ⟨ss ++ parsed.statements, parsed.diagnostics⟩ := by
  obtain ⟨last, hlast⟩ := exists_parseTokens?_append hus
  have hbody : parseBody depthLimit ts = (ss, []) := by
    rw [parseTokens?_append hts heof] at h
    obtain ⟨hss, hnone⟩ := Parsed.mk.inj (Option.some.inj h)
    exact Prod.ext hss (List.map_eq_nil_iff.1 hnone)
  have hboth : parseBody depthLimit (ts ++ beforeEnd us) =
      (ss ++ (parseBody depthLimit (beforeEnd us)).1, (parseBody depthLimit (beforeEnd us)).2) :=
    parseBody_behind hbody (nextNot_beforeEnd helse)
  refine ⟨_, hlast [] nofun, ?_⟩
  rw [hlast ts hts, hboth, List.nil_append]

/-- `if (a) print b;` -/
def lonelyIf : List Token :=
  [(.ifKey, "if"), (.leftParen, "("), (.identifier, "a"), (.rightParen, ")"), (.printKey, "print"),
    (.identifier, "b"), (.semicolon, ";")].map fun (kind, lexeme) => .make kind lexeme .null 1

/-- `) ; print 1` -/
def strayClosing : List Token :=
  [(.rightParen, ")"), (.semicolon, ";"), (.printKey, "print"), (.number, "1"),
    (.eof, "")].map fun (kind, lexeme) => .make kind lexeme .null 1

/-- Behind a conditional without an `else`, both complaints are as they are without it. -/
theorem parseTokens?_behind_lonelyIf :
    (∀ t ∈ lonelyIf, t.kind ≠ .eof) ∧ EndsInEof strayClosing ∧ NextNot [.elseKey] strayClosing ∧
      ∃ ss parsed, parseTokens? (lonelyIf ++ [endToken 1]) = some ⟨ss, []⟩ ∧
        parseTokens? strayClosing = some parsed ∧ parsed.diagnostics.length = 2 ∧
        parseTokens? (lonelyIf ++ strayClosing) =
          some ⟨ss ++ parsed.statements, parsed.diagnostics⟩ := by
  have hif : ∀ t ∈ lonelyIf, t.kind ≠ .eof := by decide
  have hends : EndsInEof strayClosing := ⟨.make .eof "" .null 1, rfl, rfl⟩
  have helse : NextNot [.elseKey] strayClosing := .cons (by decide)
  have hclean : (parseBody depthLimit lonelyIf).2.isEmpty = true := by decide +kernel
  have hparse : parseTokens? (lonelyIf ++ [endToken 1]) =
      some ⟨(parseBody depthLimit lonelyIf).1, []⟩ := by
    rw [parseTokens?_append hif rfl, List.isEmpty_iff.1 hclean, List.map_nil]
  obtain ⟨parsed, halone, hbehind⟩ := parseTokens?_behind_program hif rfl hparse hends helse
  have htwo : (parseTokens? strayClosing).map (·.diagnostics.length) = some 2 := by decide +kernel
  rw [halone] at htwo
  exact ⟨hif, hends, helse, _, parsed, hparse, halone, Option.some.inj htwo, hbehind⟩

end Scriptlet
