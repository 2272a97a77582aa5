import Scriptlet.Proofs.Strict.FirstFault

/-!
# What the strict front end does not look at

A step of the strict front end looks at no lexeme behind the one at which it stops, but for the
second lexeme of an expression. So if it accepts some lexemes in front of others, it goes through
these lexemes whatever stands behind them: with the same result, or until it has come to what stands
behind. In particular it never faults within the beginning of a program.

## Main definitions

* `Strict.left` — the lexemes that are left, however a step ends
* `Strict.Local`, `Strict.Takes` — what is accepted in front of some lexemes is gone through in
  front of others

## Main results

* `Strict.takes_expression`, `Strict.takes_declaration` — the steps of the strict front end
* `Strict.left_program` — the strict front end does not fault within the beginning of a program
-/

namespace Scriptlet.Strict

open Grammar

variable {α β : Type} {known behind : List Token}

/-- The lexemes that are left, however a step ends. -/
def left : Except Fault (α × List Token) → List Token
  | .ok (_, rest) => rest
  | .error fault => fault.rest

/-- If the step accepts the lexemes in front of `known`, then in front of `behind` it does the same,
or goes through all of them. -/
def GoesThrough (known behind : List Token) (q : Step α) (us : List Token) : Prop :=
  ∀ a rest, q (us ++ known) = .ok (a, rest) →
    (∃ vs, rest = vs ++ known ∧ q (us ++ behind) = .ok (a, vs ++ behind)) ∨
      left (q (us ++ behind)) <:+ behind

/-- The step takes lexemes from the front, and goes through what it accepts. -/
structure Local (known behind : List Token) (q : Step α) : Prop where
  onward : ∀ ts, left (q ts) <:+ ts
  goes : ∀ us, GoesThrough known behind q us

/-- What follows a step leaves lexemes that the step left. -/
theorem left_bind {q : Step α} {f : α → Step β} (hf : ∀ a ts, left (f a ts) <:+ ts)
    (ts : List Token) : left ((q >>= f) ts) <:+ left (q ts) := by
  rw [step_bind_apply]
  cases q ts with
  | error fault => exact List.suffix_rfl
  | ok out => exact hf out.1 out.2

namespace Local

variable {q : Step α} {f : α → Step β}

/-- Where no lexemes are in front, there is nothing to go through. -/
theorem of_cons (honward : ∀ ts, left (q ts) <:+ ts)
    (h : ∀ t us, GoesThrough known behind q (t :: us)) : Local known behind q where
  onward := honward
  goes us := by
    cases us with
    | nil => exact fun _ _ _ => .inr (honward behind)
    | cons t us => exact h t us

theorem pure (a : α) : Local known behind (Pure.pure a : Step α) where
  onward _ := List.suffix_rfl
  goes us := by
    rintro _ _ ⟨⟩
    exact .inl ⟨us, rfl, rfl⟩

theorem stop : Local known behind (stop : Step α) where
  onward _ := List.suffix_rfl
  goes _ := nofun

theorem stopNesting : Local known behind (stopNesting : Step α) where
  onward _ := List.suffix_rfl
  goes _ := nofun

theorem bind (h : Local known behind q) (hf : ∀ a, Local known behind (f a)) :
    Local known behind (q >>= f) where
  onward ts := (left_bind (fun a => (hf a).onward) ts).trans (h.onward ts)
  goes us := by
    intro b rest hrun
    rw [step_bind_apply] at hrun
    cases hq : q (us ++ known) with
    | error fault =>
      rw [hq] at hrun
      cases hrun
    | ok out =>
      obtain ⟨a, mid⟩ := out
      rw [hq] at hrun
      rcases h.goes us a mid hq with ⟨vs, rfl, hsame⟩ | hthrough
      · rw [step_bind_apply, hsame]
        exact (hf a).goes vs b rest hrun
      · exact .inr ((left_bind (fun a => (hf a).onward) _).trans hthrough)

theorem take (kind : Kind) : Local known behind (take kind) := by
  refine of_cons (fun ts => ?_) fun t us a rest hrun => ?_
  · cases ts with
    | nil => exact List.suffix_rfl
    | cons t ts =>
      rw [Strict.take]
      split
      · exact List.suffix_cons t ts
      · exact List.suffix_rfl
  · rw [List.cons_append, Strict.take] at hrun ⊢
    split at hrun
    · next ht =>
      cases hrun
      rw [if_pos ht]
      exact .inl ⟨us, rfl, rfl⟩
    · cases hrun

theorem takeIf? (test : Kind → Bool) : Local known behind (takeIf? test) := by
  refine of_cons (fun ts => ?_) fun t us a rest hrun => ?_
  · cases ts with
    | nil => exact List.suffix_rfl
    | cons t ts =>
      rw [Strict.takeIf?]
      split
      · exact List.suffix_cons t ts
      · exact List.suffix_rfl
  · rw [List.cons_append, Strict.takeIf?] at hrun ⊢
    split at hrun
    · next ht =>
      cases hrun
      rw [if_pos ht]
      exact .inl ⟨us, rfl, rfl⟩
    · next ht =>
      cases hrun
      rw [if_neg ht]
      exact .inl ⟨t :: us, rfl, rfl⟩

theorem peek? : Local known behind peek? := by
  refine of_cons (fun ts => List.suffix_rfl) fun t us a rest hrun => ?_
  cases hrun
  exact .inl ⟨t :: us, rfl, rfl⟩

end Local

/-- The step takes a lexeme whenever it yields something with property `P`. -/
def Progresses (P : α → Prop) (q : Step α) : Prop :=
  ∀ ts a rest, q ts = .ok (a, rest) → P a → rest.length < ts.length

namespace Progresses

variable {P : β → Prop} {q : Step α} {f : α → Step β}

theorem pure_of_not {P : α → Prop} {a : α} (h : ¬ P a) : Progresses P (pure a : Step α) := by
  rintro ts _ _ ⟨⟩ ha
  exact absurd ha h

theorem take {P : Token → Prop} (kind : Kind) : Progresses P (take kind) := by
  intro ts t rest hrun _
  cases ts with
  | nil => cases hrun
  | cons t ts =>
    rw [Strict.take] at hrun
    split at hrun
    · cases hrun
      exact Nat.lt_succ_self _
    · cases hrun

/-- A lexeme that was taken is not given back. -/
theorem bind (h : Progresses (fun _ => True) q) (hf : ∀ a ts, left (f a ts) <:+ ts) :
    Progresses P (q >>= f) := by
  intro ts b rest hrun _
  rw [step_bind_apply] at hrun
  cases hq : q ts with
  | error fault =>
    rw [hq] at hrun
    cases hrun
  | ok out =>
    rw [hq] at hrun
    have hle := hf out.1 out.2
    dsimp only at hrun
    rw [hrun] at hle
    exact Nat.lt_of_le_of_lt hle.length_le (h ts out.1 out.2 hq trivial)

theorem bind_right (h : ∀ ts, left (q ts) <:+ ts) (hf : ∀ a, Progresses P (f a)) :
    Progresses P (q >>= f) := by
  intro ts b rest hrun hb
  rw [step_bind_apply] at hrun
  cases hq : q ts with
  | error fault =>
    rw [hq] at hrun
    cases hrun
  | ok out =>
    have hle := h ts
    rw [hq] at hrun hle
    exact Nat.lt_of_lt_of_le (hf out.1 out.2 b rest hrun hb) hle.length_le

theorem takeIf? {test : Kind → Bool} {f : Option Token → Step β}
    (htook : ∀ t ts, left (f (some t) ts) <:+ ts) (hleft : Progresses P (f none)) :
    Progresses P (takeIf? test >>= f) := by
  intro ts b rest hrun hb
  rw [step_bind_apply] at hrun
  cases ts with
  | nil => exact hleft [] b rest hrun hb
  | cons t ts =>
    rw [Strict.takeIf?] at hrun
    split at hrun
    · next heq =>
      split at heq
      · cases heq
        have hle := htook t ts
        rw [hrun] at hle
        exact Nat.lt_succ_of_le hle.length_le
      · cases heq
        exact hleft _ b rest hrun hb
    · cases hrun

end Progresses

/-- A local step that takes a lexeme whenever it accepts. -/
structure Takes (known behind : List Token) (q : Step α) : Prop extends Local known behind q where
  progresses : Progresses (fun _ => True) q

namespace Takes

variable {q : Step α} {f : α → Step β}

theorem stop : Takes known behind (stop : Step α) := ⟨.stop, nofun⟩

theorem stopNesting : Takes known behind (stopNesting : Step α) := ⟨.stopNesting, nofun⟩

theorem take (kind : Kind) : Takes known behind (take kind) := ⟨.take kind, .take kind⟩

theorem bind (h : Takes known behind q) (hf : ∀ a, Local known behind (f a)) :
    Takes known behind (q >>= f) :=
  ⟨h.toLocal.bind hf, h.progresses.bind fun a => (hf a).onward⟩

theorem takeIf? {test : Kind → Bool} {f : Option Token → Step α}
    (htook : ∀ t, Local known behind (f (some t))) (hleft : Takes known behind (f none)) :
    Takes known behind (takeIf? test >>= f) where
  toLocal := (Local.takeIf? test).bind fun o => by
    cases o with
    | none => exact hleft.toLocal
    | some t => exact htook t
  progresses := .takeIf? (fun t => (htook t).onward) hleft.progresses

end Takes

theorem Local.bind_takes {q : Step α} {f : α → Step β} (h : Local known behind q)
    (hf : ∀ a, Takes known behind (f a)) : Takes known behind (q >>= f) :=
  ⟨h.bind fun a => (hf a).toLocal, .bind_right h.onward fun a => (hf a).progresses⟩

/-! ### Repetition -/

section Repetition

variable {more : α → Step (Option α)}

theorem left_extend (h : ∀ a ts, left (more a ts) <:+ ts) (n : Nat) (a : α) (ts : List Token) :
    left (extend more n a ts) <:+ ts := by
  induction n generalizing a ts with
  | zero => exact List.suffix_rfl
  | succ n ih =>
    refine (left_bind (fun o ts => ?_) ts).trans (h a ts)
    cases o with
    | none => exact List.suffix_rfl
    | some b => exact ih b ts

/-- There may be more fuel in one run than in the other, as long as there is enough in both. -/
theorem goesThrough_extend (h : ∀ a, Local known behind (more a))
    (hprogress : ∀ a, Progresses (fun o => o.isSome) (more a)) {us rest : List Token} {m n : Nat}
    (hm : (us ++ known).length ≤ m) (hn : (us ++ behind).length ≤ n) {a b : α}
    (hrun : extend more m a (us ++ known) = .ok (b, rest)) :
    (∃ vs, rest = vs ++ known ∧ extend more n a (us ++ behind) = .ok (b, vs ++ behind)) ∨
      left (extend more n a (us ++ behind)) <:+ behind := by
  have honward := left_extend fun a => (h a).onward
  induction m generalizing us n a with
  | zero =>
    obtain ⟨rfl, -⟩ := List.append_eq_nil_iff.1 (List.length_eq_zero_iff.1 (Nat.le_zero.1 hm))
    exact .inr (honward n a behind)
  | succ m ih =>
    cases us with
    | nil => exact .inr (honward n a behind)
    | cons t us =>
      obtain ⟨n, rfl⟩ := Nat.exists_eq_succ_of_ne_zero (Nat.pos_iff_ne_zero.1 (Nat.lt_of_lt_of_le
        (Nat.succ_pos _) hn))
      have hround : left (extend more (n + 1) a (t :: us ++ behind)) <:+
          left (more a (t :: us ++ behind)) := by
        refine left_bind (fun o ts => ?_) _
        cases o with
        | none => exact List.suffix_rfl
        | some b => exact honward n b ts
      rw [extend, step_bind_apply] at hrun
      cases hmore : more a (t :: us ++ known) with
      | error fault =>
        rw [hmore] at hrun
        cases hrun
      | ok out =>
        obtain ⟨o, mid⟩ := out
        rw [hmore] at hrun
        rcases (h a).goes _ o mid hmore with ⟨vs, rfl, hsame⟩ | hthrough
        · rw [extend, step_bind_apply, hsame]
          cases o with
          | none =>
            cases hrun
            exact .inl ⟨vs, rfl, rfl⟩
          | some c =>
            -- a round takes a lexeme of those in front, so the fuel lasts in both runs
            have hlt := hprogress a _ _ _ hmore rfl
            simp only [List.length_append, List.length_cons] at hm hn hlt
            refine ih ?_ ?_ hrun
            · rw [List.length_append]
              omega
            · rw [List.length_append]
              omega
        · exact .inr (hround.trans hthrough)

theorem Local.extendAll (h : ∀ a, Local known behind (more a))
    (hprogress : ∀ a, Progresses (fun o => o.isSome) (more a)) (a : α) :
    Local known behind (extendAll more a) where
  onward ts := left_extend (fun a => (h a).onward) ts.length a ts
  goes _ _ _ hrun := goesThrough_extend h hprogress (Nat.le_refl _) (Nat.le_refl _) hrun

end Repetition

/-! ### Lists and options -/

namespace Local

variable {q : Step α} {item : Step β}

theorem folded (h : Local known behind item) (test : Kind → Bool) (f : α → Token → β → α) (a : α) :
    Local known behind (Strict.extendAll (foldStep test f item) a) := by
  have htook (a : α) (t : Token) :
      Local known behind (item >>= fun x => Pure.pure (some (f a t x))) := h.bind fun _ => .pure _
  refine .extendAll (fun a => ?_) (fun a => ?_) a
  · refine (takeIf? test).bind fun o => ?_
    cases o with
    | none => exact .pure none
    | some t => exact htook a t
  · exact .takeIf? (fun t => (htook a t).onward) (.pure_of_not nofun)

theorem commaList (h : Local known behind q) : Local known behind (commaList q) := by
  rw [commaList_eq]
  exact h.bind fun a => (h.folded _ _ [a]).bind fun _ => .pure _

theorem listUnless {items : Step (List α)} (h : Local known behind items) (kind : Kind) :
    Local known behind (listUnless kind items) := by
  refine peek?.bind fun o => ?_
  split
  · exact .pure []
  · exact h

theorem optionalIf (h : Local known behind q) (kind : Kind) (absent : α) :
    Local known behind (optionalIf kind absent q) := by
  refine (takeIf? _).bind fun o => ?_
  cases o with
  | none => exact .pure absent
  | some _ => exact h

end Local

/-! ### Expressions -/

section Parts

variable {q : Step Tree} (h : Local known behind q)
include h

theorem local_arguments : Local known behind (arguments q) := by
  rw [arguments_eq]
  exact (h.commaList.listUnless _).bind fun _ => (Local.take _).bind fun _ => .pure _

theorem local_suffix? (callee : Tree) : Local known behind (suffix? q callee) := by
  refine (Local.takeIf? _).bind fun o => ?_
  split
  · exact (local_arguments h).bind fun _ => .pure _
  · refine (Local.takeIf? _).bind fun o => ?_
    split
    · exact h.bind fun _ => (Local.take _).bind fun _ => .pure _
    · exact .pure none

theorem local_suffixes (callee : Tree) : Local known behind (extendAll (suffix? q) callee) := by
  refine .extendAll (local_suffix? h) (fun callee => ?_) callee
  refine .takeIf? (fun t ts => ?_) (.takeIf? (fun t ts => ?_) (.pure_of_not nofun))
  · exact ((local_arguments h).bind fun _ => .pure _).onward ts
  · exact (h.bind fun _ => (Local.take _).bind fun _ => .pure _).onward ts

theorem takes_primary : Takes known behind (primary q) := by
  refine Local.peek?.bind_takes fun o => ?_
  split
  case h_7 =>
    exact (Takes.take _).bind fun _ => h.bind fun _ => (Local.take _).bind fun _ => .pure _
  case h_8 => exact .stop
  all_goals exact (Takes.take _).bind fun _ => .pure _

theorem local_targetTail (e : Tree) : Local known behind (targetTail q e) := by
  refine Local.peek?.bind fun o => ?_
  split
  · exact (Local.take _).bind fun _ => h.bind fun _ => .pure _
  · exact .stop
  · exact .pure e

end Parts

theorem takes_levelOf {unary : Step Tree} (h : Takes known behind unary) (rank : Rank) :
    Takes known behind (levelOf rank unary) := by
  refine levelOf_induction (C := fun _ level => Takes known behind (level unary)) h
    (fun rank hoperand => ?_) rank
  obtain ⟨test, -, heq⟩ := levelOf_eq rank unary
  rw [heq]
  exact hoperand.bind fun a => hoperand.toLocal.folded _ _ a

/-- Every level reads a name at the end as that name. -/
theorem disjunction_name {name : Token} (hname : name.kind = .identifier) (e : Nat) :
    disjunction (unary (e + 1)) [name] = .ok (.varRef name, []) := by
  have hunary : unary (e + 1) [name] = .ok (.varRef name, []) := by
    have hnext : Parse.NextNot [.bang, .minus] [name] := .cons (by simp [hname])
    rw [unary_of_notMem e hnext, callOf, step_bind_apply]
    have hprimary : primary (expression e) [name] = .ok (.varRef name, []) := by
      rw [primary, peek?_bind_apply, List.head?_cons, Option.map_some, hname]
      change (take .identifier >>= _) [name] = _
      rw [step_bind_apply, take, if_pos hname]
      rfl
    rw [hprimary]
    rfl
  refine levelOf_induction
    (C := fun _ level => level (unary (e + 1)) [name] = .ok (.varRef name, [])) hunary
    (fun rank hoperand => ?_) .disjunction
  obtain ⟨test, -, heq⟩ := levelOf_eq rank (unary (e + 1))
  rw [heq, step_bind_apply, hoperand]
  rfl

/-- A step that accepts in front of some lexemes does not fault at its first lexeme. -/
theorem Takes.left_of_ok {q : Step α} (h : Takes known behind q) {t : Token} {a : α}
    {rest : List Token} (hrun : q (t :: known) = .ok (a, rest)) :
    left (q (t :: behind)) <:+ behind := by
  rcases h.goes [t] a rest hrun with ⟨vs, rfl, hsame⟩ | hthrough
  · have hlt := h.progresses _ _ _ hrun trivial
    obtain rfl : vs = [] := by
      rw [List.length_append, List.length_cons] at hlt
      exact List.length_eq_zero_iff.1 (by omega)
    rw [List.singleton_append] at hsame
    rw [hsame]
    exact List.suffix_rfl
  · exact hthrough

section Expression

variable {e : Nat} (hleft : ∀ known, Takes known behind (disjunction (unary e)))
  (hvalue : Local known behind (expression e))

include hvalue in
/-- The value that is assigned to a name. -/
theorem local_assign (name : Token) :
    Local known behind (expression e >>= fun value => pure (Tree.assign name value)) :=
  hvalue.bind fun _ => .pure _

include hleft hvalue

/-- An expression that does not begin with a name and an equals sign. -/
theorem takes_targetTail :
    Takes known behind (disjunction (unary e) >>= targetTail (expression e)) :=
  (hleft known).bind fun left => local_targetTail hvalue left

theorem onward_expressionWith (ts : List Token) : left (expression (e + 1) ts) <:+ ts := by
  by_cases hassigns : AssignsName ts
  · obtain ⟨name, equals, rest, rfl, hname, hequals⟩ := hassigns
    rw [expression_of_assigns hname hequals]
    exact ((local_assign hvalue name).onward rest).trans
      ((List.suffix_cons equals rest).trans (List.suffix_cons name _))
  · rw [expression_of_not hassigns]
    exact (takes_targetTail hleft hvalue).onward ts

theorem progresses_expressionWith : Progresses (fun _ : Tree => True) (expression (e + 1)) := by
  intro ts a rest hrun _
  by_cases hassigns : AssignsName ts
  · obtain ⟨name, equals, us, rfl, hname, hequals⟩ := hassigns
    rw [expression_of_assigns hname hequals] at hrun
    have hle := (local_assign hvalue name).onward us
    rw [hrun] at hle
    exact Nat.lt_succ_of_le (Nat.le_succ_of_le hle.length_le)
  · rw [expression_of_not hassigns] at hrun
    exact (takes_targetTail hleft hvalue).progresses _ _ _ hrun trivial

/-- The second lexeme of an expression is looked at, too. If it is one of those behind, the first is
the start of an expression anyway, and is taken. -/
theorem left_expressionWith {t : Token} {a : Tree} {rest : List Token}
    (hrun : expression (e + 1) (t :: known) = .ok (a, rest)) :
    left (expression (e + 1) (t :: behind)) <:+ behind := by
  by_cases hassigns : AssignsName (t :: behind)
  · obtain ⟨_, equals, us, heq, hname, hequals⟩ := hassigns
    cases heq
    rw [expression_of_assigns hname hequals]
    exact ((local_assign hvalue t).onward us).trans (List.suffix_cons equals us)
  rw [expression_of_not hassigns]
  refine (left_bind (fun left => (local_targetTail hvalue left).onward) _).trans ?_
  by_cases hassigns' : AssignsName (t :: known)
  · obtain ⟨_, equals, us, heq, hname, hequals⟩ := hassigns'
    cases heq
    rw [expression_of_assigns hname hequals] at hrun
    -- there was depth left for the value, so there is for the name
    cases e with
    | zero => cases hrun
    | succ e => exact (hleft []).left_of_ok (disjunction_name hname e)
  · rw [expression_of_not hassigns', step_bind_apply] at hrun
    cases hout : disjunction (unary e) (t :: known) with
    | error fault =>
      rw [hout] at hrun
      cases hrun
    | ok out => exact (hleft known).left_of_ok hout

theorem takes_expressionWith : Takes known behind (expression (e + 1)) := by
  refine ⟨.of_cons (onward_expressionWith hleft hvalue) fun t us a rest hrun => ?_,
    progresses_expressionWith hleft hvalue⟩
  cases us with
  | nil => exact .inr (left_expressionWith hleft hvalue hrun)
  | cons u us =>
    -- both runs see the same two lexemes
    by_cases hassigns : t.kind = .identifier ∧ u.kind = .equal
    · rw [List.cons_append, List.cons_append, expression_of_assigns hassigns.1 hassigns.2] at hrun ⊢
      exact (local_assign hvalue t).goes us a rest hrun
    · have hnot (ts : List Token) : ¬ AssignsName (t :: u :: ts) := by
        rintro ⟨_, _, _, heq, hname, hequals⟩
        cases heq
        exact hassigns ⟨hname, hequals⟩
      rw [List.cons_append, List.cons_append, expression_of_not (hnot _)] at hrun ⊢
      exact (takes_targetTail hleft hvalue).goes (t :: u :: us) a rest hrun

end Expression

mutual

theorem takes_expression (behind : List Token) :
    ∀ e known, Takes known behind (expression e)
  | 0, _ => .stopNesting
  | e + 1, known => takes_expressionWith
      (fun known => takes_levelOf (takes_unary behind e known) .disjunction)
      (takes_expression behind e known).toLocal

theorem takes_unary (behind : List Token) : ∀ e known, Takes known behind (unary e)
  | 0, _ => .stopNesting
  | e + 1, known => by
    have hvalue := (takes_expression behind e known).toLocal
    have hcall : Takes known behind (callOf e) :=
      (takes_primary hvalue).bind (local_suffixes hvalue)
    have hoperand := (takes_unary behind e known).toLocal
    rw [unary]
    exact .takeIf? (fun op => hoperand.bind fun _ => .pure _) hcall

end

/-! ### Statements -/

theorem local_params : Local known behind params := by
  rw [params_eq]
  exact (Local.take _).bind fun _ => ((Local.take _).commaList.listUnless _).bind fun _ =>
    (Local.take _).bind fun _ => .pure _

section Statements

variable {e : Nat} (he : Takes known behind (expression e))
include he

theorem local_expressionUnless (kind : Kind) : Local known behind (expressionUnless kind e) := by
  refine Local.peek?.bind fun o => ?_
  split
  · exact .pure _
  · exact he.toLocal

theorem takes_varDecl : Takes known behind (varDecl e) := by
  rw [varDecl_eq]
  exact (Takes.take _).bind fun _ => (Local.take _).bind fun _ =>
    (he.toLocal.optionalIf _ _).bind fun _ => (Local.take _).bind fun _ => .pure _

theorem takes_exprStmt : Takes known behind (exprStmt e) :=
  he.bind fun _ => (Local.take _).bind fun _ => .pure _

theorem takes_printStmt : Takes known behind (printStmt e) :=
  (Takes.take _).bind fun _ => he.toLocal.bind fun _ => (Local.take _).bind fun _ => .pure _

theorem takes_returnStmt : Takes known behind (returnStmt e) :=
  (Takes.take _).bind fun _ => (local_expressionUnless he _).bind fun _ =>
    (Local.take _).bind fun _ => .pure _

theorem local_forInit : Local known behind (forInit e) := by
  refine Local.peek?.bind fun o => ?_
  split
  · exact (takes_varDecl he).toLocal
  · exact (Local.take _).bind fun _ => .pure _
  · exact (takes_exprStmt he).toLocal

variable (hs : Local known behind (statement e)) (hb : Takes known behind (block e))

include hb in
theorem takes_declarationWith (hs : Takes known behind (statement e)) :
    Takes known behind (declaration (e + 1)) := by
  rw [declaration]
  refine Local.peek?.bind_takes fun o => ?_
  split
  · exact takes_varDecl he
  · exact (Takes.take _).bind fun _ => (Local.take _).bind fun _ => local_params.bind fun _ =>
      hb.toLocal.bind fun _ => .pure _
  · exact hs

include hs hb in
theorem takes_statementWith : Takes known behind (statement (e + 1)) := by
  have helse (c t : Tree) :=
    (hs.optionalIf .elseKey .null).bind fun t' => Local.pure (Tree.ifStmt c t t')
  simp only [optionalIf_bind] at helse
  rw [statement]
  refine Local.peek?.bind_takes fun o => ?_
  split
  · exact takes_printStmt he
  · exact (Takes.take _).bind fun _ => (Local.take _).bind fun _ => he.toLocal.bind fun _ =>
      (Local.take _).bind fun _ => hs.bind fun _ => helse _ _
  · exact (Takes.take _).bind fun _ => (Local.take _).bind fun _ => he.toLocal.bind fun _ =>
      (Local.take _).bind fun _ => hs.bind fun _ => .pure _
  · exact (Takes.take _).bind fun _ => (Local.take _).bind fun _ => (local_forInit he).bind fun _ =>
      (local_expressionUnless he _).bind fun _ => (Local.take _).bind fun _ =>
        (local_expressionUnless he _).bind fun _ => (Local.take _).bind fun _ =>
          hs.bind fun _ => .pure _
  · exact takes_returnStmt he
  · exact hb.bind fun _ => .pure _
  · exact takes_exprStmt he

end Statements

/-! ### Declarations and programs -/

theorem local_declarationOr {atBrace : Step (Option (List Tree))} {q : Step Tree}
    (hbrace : Local known behind atBrace) (h : Local known behind q) (statements : List Tree) :
    Local known behind (declarationOr atBrace q statements) := by
  refine Local.peek?.bind fun o => ?_
  split
  · exact .pure none
  · exact hbrace
  · exact h.bind fun _ => .pure _

/-- The loop over declarations, whether it ends at a closing brace or faults there. -/
theorem local_declarations {atBrace : Step (Option (List Tree))} {q : Step Tree}
    (hbrace : atBrace = pure none ∨ atBrace = stop) (h : Takes known behind q)
    (statements : List Tree) :
    Local known behind (extendAll (declarationOr atBrace q) statements) := by
  refine .extendAll (fun ss => ?_) (fun ss => ?_) statements
  · refine local_declarationOr ?_ h.toLocal ss
    rcases hbrace with rfl | rfl
    · exact .pure none
    · exact .stop
  · refine .bind_right (fun _ => List.suffix_rfl) fun o => ?_
    split
    · exact .pure_of_not nofun
    · rcases hbrace with rfl | rfl
      · exact .pure_of_not nofun
      · exact nofun
    · exact h.progresses.bind fun _ _ => List.suffix_rfl

mutual

theorem takes_declaration (known behind : List Token) : ∀ e, Takes known behind (declaration e)
  | 0 => .stopNesting
  | e + 1 => takes_declarationWith (takes_expression behind e known)
      (takes_block known behind e) (takes_statement known behind e)

theorem takes_statement (known behind : List Token) : ∀ e, Takes known behind (statement e)
  | 0 => .stopNesting
  | e + 1 => takes_statementWith (takes_expression behind e known)
      (takes_statement known behind e).toLocal (takes_block known behind e)

theorem takes_block (known behind : List Token) : ∀ e, Takes known behind (block e)
  | 0 => .stopNesting
  | e + 1 => by
    have hall : Local known behind (declarations (declaration e)) := by
      rw [declarations_eq]
      exact (local_declarations (.inl rfl) (takes_declaration known behind e) []).bind fun _ =>
        .pure _
    exact (Takes.take _).bind fun _ => hall.bind fun _ => (Local.take _).bind fun _ => .pure _

end

theorem onward_atFinish (ending : Ending) (ss : List Tree) (ts : List Token) :
    left (atFinish ending ss ts) <:+ ts := by
  rcases atFinish_apply ending ss ts with hok | ⟨fault, hfault, hrest⟩
  · rw [hok]
    exact List.suffix_rfl
  · rw [hfault]
    exact hrest ▸ List.suffix_rfl

/-- Within the beginning of a program the strict front end does not fault. -/
theorem left_program {e : Nat} {us known behind : List Token} {out : List Tree × List Token}
    {ending ending' : Ending} (h : program ending e (us ++ known) = .ok out) :
    left (program ending' e (us ++ behind)) <:+ behind := by
  have hall := local_declarations (.inr rfl) (takes_declaration known behind e) []
  rw [program_eq] at h ⊢
  rw [step_bind_apply] at h
  cases hrun : extendAll (declarationOr stop (declaration e)) [] (us ++ known) with
  | error fault =>
    rw [hrun] at h
    cases h
  | ok out' =>
    obtain ⟨ss, rest⟩ := out'
    rw [hrun] at h
    refine (left_bind (fun all : List Tree => onward_atFinish _ all.reverse) _).trans ?_
    rcases hall.goes us ss rest hrun with ⟨vs, rfl, hsame⟩ | hthrough
    · -- a program is accepted only if nothing is left
      cases vs with
      | cons v vs => cases h
      | nil =>
        rw [hsame]
        exact List.suffix_rfl
    · exact hthrough

end Scriptlet.Strict
