import Scriptlet.Proofs.Strict.FirstFault

/-!
# The nesting depth of the strict front end

More nesting depth makes no difference to the strict front end, but where the depth did not suffice.
If it ran out of depth at the end of the text, it would have faulted there anyway, as whatever goes
deeper is not empty.

## Main definitions

* `Strict.Deepens` — a step does what another does with less depth

## Main results

* `Strict.deepens_program` — the strict front end with more depth
* `Strict.parseStrict_of_deeper` — its result, as long as it does not complain about the nesting
-/

namespace Scriptlet.Strict

open Grammar

variable {α β : Type}

/-- The second step does what the first does, unless that one nests too deeply. If nothing was left
there, the second one faults as well, and at the end. -/
def Deepens (q q' : Step α) : Prop :=
  ∀ ts, q' ts = q ts ∨ ∃ rest, q ts = .error (.tooDeep rest) ∧
    (rest = [] → ∃ fault, q' ts = .error fault ∧ fault.rest = [])

namespace Deepens

variable {q q' : Step α} {f f' : α → Step β}

theorem refl (q : Step α) : Deepens q q := fun _ => .inl rfl

theorem stopNesting {q : Step α} (h : Refuses q []) : Deepens stopNesting q :=
  fun ts => .inr ⟨ts, rfl, fun hts => hts ▸ h⟩

theorem bind (h : Deepens q q') (hf : ∀ a, Deepens (f a) (f' a)) :
    Deepens (q >>= f) (q' >>= f') := by
  intro ts
  rw [step_bind_apply, step_bind_apply]
  rcases h ts with heq | ⟨rest, hdeep, hend⟩
  · rw [heq]
    cases q ts with
    | error fault => exact .inl rfl
    | ok out => exact hf out.1 out.2
  · rw [hdeep]
    refine .inr ⟨rest, rfl, fun hrest => ?_⟩
    obtain ⟨fault, hfault, hnone⟩ := hend hrest
    exact ⟨fault, by rw [hfault], hnone⟩

/-- What follows a step goes deeper. -/
theorem after (q : Step α) (hf : ∀ a, Deepens (f a) (f' a)) : Deepens (q >>= f) (q >>= f') :=
  (refl q).bind hf

/-- A step goes deeper, and what follows it is the same. -/
theorem map (h : Deepens q q') (f : α → Step β) : Deepens (q >>= f) (q' >>= f) :=
  h.bind fun a => refl (f a)

theorem extendAll {more more' : α → Step (Option α)} (h : ∀ a, Deepens (more a) (more' a)) (a : α) :
    Deepens (extendAll more a) (extendAll more' a) := by
  have hextend (n : Nat) (a : α) : Deepens (extend more n a) (extend more' n a) := by
    induction n generalizing a with
    | zero => exact refl _
    | succ n ih =>
      refine (h a).bind fun o => ?_
      cases o with
      | none => exact refl _
      | some b => exact ih b
  exact fun ts => hextend ts.length a ts

theorem folded {item item' : Step β} (h : Deepens item item') (test : Kind → Bool)
    (f : α → Token → β → α) (a : α) :
    Deepens (Strict.extendAll (foldStep test f item) a)
      (Strict.extendAll (foldStep test f item') a) := by
  refine .extendAll (fun a => .after _ fun o => ?_) a
  cases o with
  | none => exact refl _
  | some t => exact h.map _

theorem commaList (h : Deepens q q') : Deepens (commaList q) (commaList q') := by
  rw [commaList_eq, commaList_eq]
  exact h.bind fun a => (h.folded _ _ [a]).map _

theorem listUnless {items items' : Step (List α)} (h : Deepens items items') (kind : Kind) :
    Deepens (listUnless kind items) (listUnless kind items') := by
  refine .after _ fun o => ?_
  split
  · exact refl _
  · exact h

theorem optionalIf (h : Deepens q q') (kind : Kind) (absent : α) :
    Deepens (optionalIf kind absent q) (optionalIf kind absent q') := by
  refine .after _ fun o => ?_
  cases o with
  | none => exact refl _
  | some t => exact h

end Deepens

/-! ### Expressions -/

section Parts

variable {q q' : Step Tree} (h : Deepens q q')
include h

theorem deepens_arguments : Deepens (arguments q) (arguments q') := by
  rw [arguments_eq, arguments_eq]
  exact (h.commaList.listUnless _).map _

theorem deepens_suffixes (callee : Tree) :
    Deepens (extendAll (suffix? q) callee) (extendAll (suffix? q') callee) := by
  refine .extendAll (fun callee => .after _ fun o => ?_) callee
  split
  · exact (deepens_arguments h).map _
  · refine .after _ fun o => ?_
    split
    · exact h.map _
    · exact .refl _

theorem deepens_primary : Deepens (primary q) (primary q') := by
  refine .after _ fun o => ?_
  split
  case h_7 => exact .after _ fun _ => h.map _
  all_goals exact .refl _

theorem deepens_targetTail (left : Tree) : Deepens (targetTail q left) (targetTail q' left) := by
  refine .after _ fun o => ?_
  split
  · exact .after _ fun _ => h.map _
  all_goals exact .refl _

end Parts

theorem deepens_levelOf {unary unary' : Step Tree} (h : Deepens unary unary') (rank : Rank) :
    Deepens (levelOf rank unary) (levelOf rank unary') := by
  refine levelOf_induction (C := fun _ level => Deepens (level unary) (level unary')) h
    (fun rank hoperand => ?_) rank
  cases rank
  all_goals exact hoperand.bind fun a => hoperand.folded _ _ a

theorem deepens_expressionWith {d e : Nat} (hunary : Deepens (unary d) (unary e))
    (hvalue : Deepens (expression d) (expression e)) :
    Deepens (expression (d + 1)) (expression (e + 1)) := by
  intro ts
  by_cases hassigns : AssignsName ts
  · obtain ⟨name, equals, rest, rfl, hname, hequals⟩ := hassigns
    rw [expression_of_assigns hname hequals, expression_of_assigns hname hequals]
    exact hvalue.map _ rest
  · rw [expression_of_not hassigns, expression_of_not hassigns]
    exact (deepens_levelOf hunary .disjunction).bind (deepens_targetTail hvalue) ts

theorem atFactor_nil : AtFactor [] := by
  intro t ht
  cases ht

mutual

theorem deepens_expression : ∀ d e, d ≤ e → Deepens (expression d) (expression e)
  -- with no depth left it stops in front of an expression, and none is empty
  | 0, e, _ => .stopNesting (refuses_expression atFactor_nil e)
  | d + 1, 0, h => by omega
  | d + 1, e + 1, h => deepens_expressionWith (deepens_unary d e (by omega))
      (deepens_expression d e (by omega))

theorem deepens_unary : ∀ d e, d ≤ e → Deepens (unary d) (unary e)
  | 0, e, _ => .stopNesting (refuses_unary atFactor_nil e)
  | d + 1, 0, h => by omega
  | d + 1, e + 1, h => by
    have hvalue := deepens_expression d e (by omega)
    have hoperand := deepens_unary d e (by omega)
    rw [unary, unary]
    refine .after _ fun o => ?_
    cases o with
    | none => exact (deepens_primary hvalue).bind (deepens_suffixes hvalue)
    | some op => exact hoperand.map _

end

/-! ### Statements -/

section Statements

variable {d e : Nat} (h : Deepens (expression d) (expression e))
include h

theorem deepens_expressionUnless (kind : Kind) :
    Deepens (expressionUnless kind d) (expressionUnless kind e) := by
  refine .after _ fun o => ?_
  split
  · exact .refl _
  · exact h

theorem deepens_varDecl : Deepens (varDecl d) (varDecl e) := by
  rw [varDecl_eq, varDecl_eq]
  exact .after _ fun _ => .after _ fun _ => (h.optionalIf _ _).map _

theorem deepens_forInit : Deepens (forInit d) (forInit e) := by
  refine .after _ fun o => ?_
  split
  · exact deepens_varDecl h
  · exact .refl _
  · exact h.map _

theorem deepens_declarationWith (hs : Deepens (statement d) (statement e))
    (hb : Deepens (block d) (block e)) : Deepens (declaration (d + 1)) (declaration (e + 1)) := by
  rw [declaration, declaration]
  refine .after _ fun o => ?_
  split
  · exact deepens_varDecl h
  · exact .after _ fun _ => .after _ fun _ => .after _ fun _ => hb.map _
  · exact hs

theorem deepens_statementWith (hs : Deepens (statement d) (statement e))
    (hb : Deepens (block d) (block e)) : Deepens (statement (d + 1)) (statement (e + 1)) := by
  have helse (c t : Tree) :=
    (hs.optionalIf .elseKey .null).map fun t' => pure (Tree.ifStmt c t t')
  simp only [optionalIf_bind] at helse
  rw [statement, statement]
  refine .after _ fun o => ?_
  split
  · exact .after _ fun _ => h.map _
  · exact .after _ fun _ => .after _ fun _ => h.bind fun c => .after _ fun _ => hs.bind fun t =>
      helse c t
  · exact .after _ fun _ => .after _ fun _ => h.bind fun _ => .after _ fun _ => hs.map _
  · exact .after _ fun _ => .after _ fun _ => (deepens_forInit h).bind fun _ =>
      (deepens_expressionUnless h _).bind fun _ => .after _ fun _ =>
        (deepens_expressionUnless h _).bind fun _ => .after _ fun _ => hs.map _
  · exact .after _ fun _ => (deepens_expressionUnless h _).map _
  · exact hb.map _
  · exact h.map _

end Statements

/-! ### Declarations and programs -/

theorem deepens_declarations {q q' : Step Tree} (h : Deepens q q') :
    Deepens (declarations q) (declarations q') := by
  refine Deepens.map (.extendAll (fun ss => .after _ fun o => ?_) []) _
  split
  · exact .refl _
  · exact .refl _
  · exact h.map _

theorem refuses_block_nil (e : Nat) : Refuses (block e) [] := by
  cases e with
  | zero => exact .stopNesting []
  | succ e => exact ⟨_, rfl, rfl⟩

mutual

theorem deepens_declaration : ∀ d e, d ≤ e → Deepens (declaration d) (declaration e)
  | 0, e, _ => .stopNesting (refuses_declaration atFactor_nil e)
  | d + 1, 0, h => by omega
  | d + 1, e + 1, h => deepens_declarationWith (deepens_expression d e (by omega))
      (deepens_statement d e (by omega)) (deepens_block d e (by omega))

theorem deepens_statement : ∀ d e, d ≤ e → Deepens (statement d) (statement e)
  | 0, e, _ => .stopNesting (refuses_statement atFactor_nil e)
  | d + 1, 0, h => by omega
  | d + 1, e + 1, h => deepens_statementWith (deepens_expression d e (by omega))
      (deepens_statement d e (by omega)) (deepens_block d e (by omega))

theorem deepens_block : ∀ d e, d ≤ e → Deepens (block d) (block e)
  | 0, e, _ => .stopNesting (refuses_block_nil e)
  | d + 1, 0, h => by omega
  | d + 1, e + 1, h => by
    have hall := deepens_declarations (deepens_declaration d e (by omega))
    rw [block, block]
    exact .after _ fun _ => hall.map _

end

/-- More depth changes nothing but where there was too little. -/
theorem deepens_program (ending : Ending) {d e : Nat} (h : d ≤ e) :
    Deepens (program ending d) (program ending e) :=
  (deepens_declarations (deepens_declaration d e h)).map _

/-- A fault is told by what is left, unless it complains about the nesting. -/
theorem Fault.diagnostic_eq {fault : Fault} {ending : Ending}
    (h : (fault.diagnostic ending).message ≠ "Too much nesting.") :
    fault.diagnostic ending = (Fault.unexpected fault.rest).diagnostic ending := by
  cases fault with
  | unexpected rest => rfl
  | tooDeep rest =>
    cases rest with
    | nil => rfl
    | cons t ts => exact absurd rfl h

/-- As long as the strict front end does not complain about the nesting, its result is the one with
more depth. -/
theorem parseStrict_of_deeper {source : String} {e : Nat} (he : depthLimit ≤ e)
    (hnesting : ∀ d, parseStrict source = .error d → d.message ≠ "Too much nesting.") :
    parseStrict source = match program (cut source).2 e (cut source).1 with
      | .ok (ss, _) => .ok ss
      | .error fault => .error ((Fault.unexpected fault.rest).diagnostic (cut source).2) := by
  rw [parseStrict] at hnesting ⊢
  dsimp only at hnesting ⊢
  rcases deepens_program (cut source).2 he (cut source).1 with heq | ⟨rest, hdeep, hend⟩
  · rw [heq]
    cases hrun : program (cut source).2 depthLimit (cut source).1 with
    | ok out => rfl
    | error fault =>
      rw [hrun] at hnesting
      exact congrArg Except.error (Fault.diagnostic_eq (hnesting _ rfl))
  · rw [hdeep] at hnesting ⊢
    cases rest with
    | nil =>
      -- at the end a lack of depth is told like a lack of lexemes
      obtain ⟨fault, hfault, hnone⟩ := hend rfl
      rw [hfault]
      dsimp only
      rw [hnone]
      rfl
    | cons t ts => exact absurd rfl (hnesting _ rfl)

end Scriptlet.Strict
