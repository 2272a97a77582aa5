import Scriptlet.Proofs.Parse.Completeness
import Scriptlet.Proofs.Strict.Terminal

/-!
# What the trees of the grammar mean

Every rule of the grammar has a meaning: the actions make something of its trees, and that is what
the independent grammar of programs gives to the tokens of the lexemes. The meaning of a rule is
shown from the meanings of the parts of its productions, so that all rules together have theirs by
one induction over derivations.

Two places need more than this. The rules for calls lean to the left, and the phrases of the grammar
of programs carry what was read so far. And a part that is not left out in front of a token which it
begins with makes every `else` belong to the nearest conditional.

## Main definitions

* `Strict.Matches` — the lexemes of parts, given the meanings of rules
* `Strict.rankRule`, `Strict.operandRule` — the rules of the levels of operators
* `Strict.Rule.Means` — the meanings of the rules

## Main results

* `Strict.Derives.matches` — the parts of a production match, if the rules have their meanings
* `Strict.means_chain`, `Strict.means_assignment`, `Strict.means_call` — the rules for expressions
-/

namespace Scriptlet.Strict

open Grammar

/-! ### Parts -/

/-- What rules mean: a relation between lexemes, those that follow, and trees. -/
abbrev Meanings := Rule → List Lexeme → List Lexeme → ParseTree → Prop

/-- The lexemes of parts, what follows them, and the children, given what rules mean. -/
inductive Matches (ρ : Meanings) : List Part → List Lexeme → List Lexeme → List ParseTree → Prop
  | nil {rest : List Lexeme} : Matches ρ [] [] rest []
  | token {kinds : List Kind} {kept : Bool} {parts : List Part} {l : Lexeme}
      {ls rest : List Lexeme} {children : List ParseTree} :
      l.kind ∈ kinds → l.IsSpelled → Matches ρ parts ls rest children →
      Matches ρ (.token kinds kept :: parts) (l :: ls) rest
        (if kept then .token l :: children else children)
  | rule {r : Rule} {parts : List Part} {ls ms rest : List Lexeme} {t : ParseTree}
      {children : List ParseTree} :
      ρ r ls (ms ++ rest) t → Matches ρ parts ms rest children →
      Matches ρ (.rule r :: parts) (ls ++ ms) rest (t :: children)
  | absent {optional parts : List Part} {ls rest : List Lexeme} {children : List ParseTree} :
      (∀ l ∈ (ls ++ rest).head?, l.kind ∉ firstKinds optional) → Matches ρ parts ls rest children →
      Matches ρ (.optional optional :: parts) ls rest (.absent :: children)
  | present {optional parts : List Part} {ls ms rest : List Lexeme}
      {own children : List ParseTree} :
      Matches ρ optional ls (ms ++ rest) own → Matches ρ parts ms rest children →
      Matches ρ (.optional optional :: parts) (ls ++ ms) rest (own ++ children)
  | done {repeated parts : List Part} {ls rest : List Lexeme} {children : List ParseTree} :
      Matches ρ parts ls rest children → Matches ρ (.many repeated :: parts) ls rest children
  | again {repeated parts : List Part} {ls ms rest : List Lexeme}
      {own children : List ParseTree} :
      Matches ρ repeated ls (ms ++ rest) own →
      Matches ρ (.many repeated :: parts) ms rest children →
      Matches ρ (.many repeated :: parts) (ls ++ ms) rest (own ++ children)

/-- If the productions of each rule give it its meaning, derivations do. -/
theorem Derives.matches {ρ : Meanings}
    (hρ : ∀ (r : Rule) (p : Production) (ls rest : List Lexeme) (own : List ParseTree),
      p ∈ r.productions → Matches ρ p.parts ls rest own → ρ r ls rest (r.node p ls own))
    {parts : List Part} {ls rest : List Lexeme} {children : List ParseTree}
    (h : Derives parts ls rest children) (hspelled : ∀ l ∈ ls, l.IsSpelled) :
    Matches ρ parts ls rest children := by
  induction h with
  | nil => exact .nil
  | token hkind _ ih =>
    rw [List.forall_mem_cons] at hspelled
    exact .token hkind hspelled.1 (ih hspelled.2)
  | rule hp _ _ ihOwn ih =>
    rw [List.forall_mem_append] at hspelled
    exact .rule (hρ _ _ _ _ _ hp (ihOwn hspelled.1)) (ih hspelled.2)
  | absent hnext _ ih => exact .absent hnext (ih hspelled)
  | present _ _ ihOwn ih =>
    rw [List.forall_mem_append] at hspelled
    exact .present (ihOwn hspelled.1) (ih hspelled.2)
  | done _ ih => exact .done (ih hspelled)
  | again _ _ ihOwn ih =>
    rw [List.forall_mem_append] at hspelled
    exact .again (ihOwn hspelled.1) (ih hspelled.2)

namespace Matches

variable {ρ : Meanings} {parts optional repeated : List Part} {ls rest : List Lexeme}
  {children : List ParseTree} {kinds : List Kind} {kind : Kind} {r : Rule}

theorem eq_nil (h : Matches ρ [] ls rest children) : ls = [] ∧ children = [] := by
  cases h
  exact ⟨rfl, rfl⟩

/-- A token that leaves nothing. -/
theorem mark (h : Matches ρ (.mark kind :: parts) ls rest children) :
    ∃ l ms, l.kind = kind ∧ l.IsSpelled ∧ ls = l :: ms ∧ Matches ρ parts ms rest children := by
  generalize hparts : Part.mark kind :: parts = all at h
  cases h with
  | token hkind hspelled h =>
    cases hparts
    exact ⟨_, _, List.mem_singleton.1 hkind, hspelled, rfl, h⟩
  | _ => cases hparts

/-- A token that is kept. -/
theorem kept (h : Matches ρ (.token kinds true :: parts) ls rest children) :
    ∃ l ms own, l.kind ∈ kinds ∧ ls = l :: ms ∧ children = .token l :: own ∧
      Matches ρ parts ms rest own := by
  generalize hparts : Part.token kinds true :: parts = all at h
  cases h with
  | token hkind _ h =>
    cases hparts
    exact ⟨_, _, _, hkind, rfl, rfl, h⟩
  | _ => cases hparts

theorem keep (h : Matches ρ (.keep kind :: parts) ls rest children) :
    ∃ l ms own, l.kind = kind ∧ ls = l :: ms ∧ children = .token l :: own ∧
      Matches ρ parts ms rest own := by
  obtain ⟨l, ms, own, hkind, hls, hchildren, h⟩ := h.kept
  exact ⟨l, ms, own, List.mem_singleton.1 hkind, hls, hchildren, h⟩

theorem of_rule (h : Matches ρ (.rule r :: parts) ls rest children) :
    ∃ us ms t own, ρ r us (ms ++ rest) t ∧ ls = us ++ ms ∧ children = t :: own ∧
      Matches ρ parts ms rest own := by
  generalize hparts : Part.rule r :: parts = all at h
  cases h with
  | rule ht h =>
    cases hparts
    exact ⟨_, _, _, _, ht, rfl, rfl, h⟩
  | _ => cases hparts

/-- A rule as the only part. -/
theorem of_single (h : Matches ρ [.rule r] ls rest children) :
    ∃ t, ρ r ls rest t ∧ children = [t] := by
  obtain ⟨us, ms, t, own, ht, rfl, rfl, hnone⟩ := h.of_rule
  obtain ⟨rfl, rfl⟩ := hnone.eq_nil
  rw [List.append_nil]
  exact ⟨t, ht, rfl⟩

theorem of_optional (h : Matches ρ (.optional optional :: parts) ls rest children) :
    (∃ own, (∀ l ∈ (ls ++ rest).head?, l.kind ∉ firstKinds optional) ∧
        children = .absent :: own ∧ Matches ρ parts ls rest own) ∨
      ∃ us ms these own, Matches ρ optional us (ms ++ rest) these ∧ ls = us ++ ms ∧
        children = these ++ own ∧ Matches ρ parts ms rest own := by
  generalize hparts : Part.optional optional :: parts = all at h
  cases h with
  | absent hnext h =>
    cases hparts
    exact .inl ⟨_, hnext, rfl, h⟩
  | present hthese h =>
    cases hparts
    exact .inr ⟨_, _, _, _, hthese, rfl, rfl, h⟩
  | _ => cases hparts

/-- The first part, and the other parts behind it. -/
theorem of_cons {part : Part} (h : Matches ρ (part :: parts) ls rest children) :
    ∃ us ms these own, Matches ρ [part] us (ms ++ rest) these ∧ ls = us ++ ms ∧
      children = these ++ own ∧ Matches ρ parts ms rest own := by
  generalize hparts : part :: parts = all at h
  induction h with
  | nil => cases hparts
  | @token _ kept _ l ms _ own hkind hspelled h =>
    cases hparts
    refine ⟨[l], ms, _, own, .token hkind hspelled .nil, rfl, ?_, h⟩
    cases kept <;> rfl
  | @rule r _ us ms rest t own ht h =>
    cases hparts
    have hsingle : Matches ρ [.rule r] (us ++ []) (ms ++ rest) [t] := .rule ht .nil
    rw [List.append_nil] at hsingle
    exact ⟨us, ms, [t], own, hsingle, rfl, rfl, h⟩
  | @absent _ _ ms _ own hnext h =>
    cases hparts
    exact ⟨[], ms, [.absent], own, .absent hnext .nil, rfl, rfl, h⟩
  | @present optional _ us ms rest these own hthese h =>
    cases hparts
    have hsingle : Matches ρ [.optional optional] (us ++ []) (ms ++ rest) (these ++ []) :=
      .present hthese .nil
    rw [List.append_nil, List.append_nil] at hsingle
    exact ⟨us, ms, these, own, hsingle, rfl, rfl, h⟩
  | done h =>
    cases hparts
    exact ⟨[], _, [], _, .done .nil, rfl, rfl, h⟩
  | @again _ _ us _ rest these _ hthese _ _ ih =>
    cases hparts
    obtain ⟨vs, ms, others, own, hothers, rfl, rfl, h⟩ := ih rfl
    rw [List.append_assoc] at hthese
    exact ⟨us ++ vs, ms, these ++ others, own, .again hthese hothers, by simp, by simp, h⟩

/-- Induction over what is repeated. -/
theorem many_induction {P : List Lexeme → List ParseTree → Prop} (hnil : P [] [])
    (hcons : ∀ us ms these own, Matches ρ repeated us (ms ++ rest) these → P ms own →
      P (us ++ ms) (these ++ own))
    (h : Matches ρ [.many repeated] ls rest children) : P ls children := by
  generalize hparts : [Part.many repeated] = all at h
  induction h with
  | done h =>
    cases hparts
    obtain ⟨rfl, rfl⟩ := h.eq_nil
    exact hnil
  | again hthese _ _ ih =>
    cases hparts
    exact hcons _ _ _ _ hthese (ih hcons rfl)
  | _ => cases hparts

end Matches

/-! ### Rules and phrases -/

/-- The rule of a level of operators. -/
def rankRule : Rank → Rule
  | .disjunction => .logicOr
  | .conjunction => .logicAnd
  | .equality => .equality
  | .comparison => .comparison
  | .term => .term
  | .factor => .factor

/-- The rule of the operands of a level. -/
def operandRule : Rank → Rule
  | .disjunction => .logicAnd
  | .conjunction => .equality
  | .equality => .comparison
  | .comparison => .term
  | .term => .factor
  | .factor => .unary

theorem productions_rankRule (rank : Rank) :
    (rankRule rank).productions = [⟨Part.chain rank.operators (operandRule rank), none⟩] := by
  cases rank <;> rfl

/-- A tree is made into an expression of the given phrase. -/
def IsExpr (phrase : ExprPhrase) (ls : List Lexeme) (t : ParseTree) : Prop :=
  ∃ e, t.build = some (.tree e) ∧ phrase.Derives (ls.map Lexeme.token) e

/-- A tree is made into a statement; one that could take an `else` is not in front of one. -/
def IsStatement (ls rest : List Lexeme) (t : ParseTree) : Prop :=
  ∃ dangling s, t.build = some (.tree s) ∧
    (StmtPhrase.statement dangling).Derives .nearest (ls.map Lexeme.token) s ∧
    (dangling = true → ∀ l ∈ rest.head?, l.kind ≠ .elseKey)

/-- A statement that takes no `else` may be in front of one. -/
theorem IsStatement.closed {ls rest : List Lexeme} {t : ParseTree} {s : Tree}
    (hbuild : t.build = some (.tree s))
    (hs : (StmtPhrase.statement false).Derives .nearest (ls.map Lexeme.token) s) :
    IsStatement ls rest t :=
  ⟨false, s, hbuild, hs, fun h => absurd h Bool.false_ne_true⟩

/-- A tree is made into an indexing. -/
def IsIndex (ls : List Lexeme) (t : ParseTree) : Prop :=
  ∃ us opening vs closing target index,
    t.build = some (.tree (.index target closing index)) ∧
    ls.map Lexeme.token = us ++ opening :: (vs ++ [closing]) ∧
    ExprPhrase.call.Derives us target ∧ opening.kind = .leftBracket ∧
    ExprPhrase.expression.Derives vs index ∧ closing.kind = .rightBracket

/-- The meanings of the rules. -/
def Rule.Means (r : Rule) (ls rest : List Lexeme) (t : ParseTree) : Prop :=
  match r with
  | .start => ∃ ss, t.build = some (.trees ss) ∧ Program .nearest (ls.map Lexeme.token) ss
  | .declaration | .funDecl => ∃ s, t.build = some (.tree s) ∧
      StmtPhrase.declaration.Derives .nearest (ls.map Lexeme.token) s
  | .varDecl => ∃ s, t.build = some (.tree s) ∧ VarDecl (ls.map Lexeme.token) s
  | .parameters => ∃ names, t.build = some (.names names) ∧
      CommaList Name (ls.map Lexeme.token) names
  | .statement | .printStmt | .ifStmt | .whileStmt | .forStmt | .returnStmt =>
      IsStatement ls rest t
  | .forInit => ∃ i, t.build = some (.tree i) ∧ Initializer (ls.map Lexeme.token) i
  | .block => ∃ ss, t.build = some (.tree (.block (.list ss))) ∧
      StmtPhrase.block.Derives .nearest (ls.map Lexeme.token) (.list ss)
  | .exprStmt => ∃ us semicolon e, t.build = some (.tree (.exprStmt e)) ∧
      ls.map Lexeme.token = us ++ [semicolon] ∧ ExprPhrase.expression.Derives us e ∧
      semicolon.kind = .semicolon
  | .expression | .assignment => IsExpr .expression ls t
  | .indexTarget => IsIndex ls t
  | .logicOr => IsExpr (.level .disjunction) ls t
  | .logicAnd => IsExpr (.level .conjunction) ls t
  | .equality => IsExpr (.level .equality) ls t
  | .comparison => IsExpr (.level .comparison) ls t
  | .term => IsExpr (.level .term) ls t
  | .factor => IsExpr (.level .factor) ls t
  | .unary => IsExpr .unary ls t
  | .call => IsExpr .call ls t
  | .arguments => ∃ args, t.build = some (.trees args) ∧
      CommaList ExprPhrase.expression.Derives (ls.map Lexeme.token) args
  | .primary => IsExpr .primary ls t

theorem means_rankRule (rank : Rank) (ls rest : List Lexeme) (t : ParseTree) :
    (rankRule rank).Means ls rest t ↔ IsExpr (.level rank) ls t := by
  cases rank <;> rfl

theorem means_operandRule (rank : Rank) (ls rest : List Lexeme) (t : ParseTree) :
    (operandRule rank).Means ls rest t ↔ IsExpr rank.operand ls t := by
  cases rank <;> rfl

/-! ### What trees are made into -/

@[simp]
theorem build_token (l : Lexeme) : (ParseTree.token l).build = some (.token l) := by
  rw [ParseTree.build]

@[simp]
theorem build_absent : ParseTree.absent.build = some (.tree .null) := by
  rw [ParseTree.build]
  rfl

theorem build_node {name : NodeName} {children : List ParseTree} {items : List Item}
    (h : ParseTree.buildAll children = some items) (endLine : Option Nat) :
    (ParseTree.node name children endLine).build = name.act items endLine := by
  rw [ParseTree.build, h]
  rfl

@[simp]
theorem buildAll_nil : ParseTree.buildAll [] = some [] := by rw [ParseTree.buildAll]

theorem buildAll_cons {t : ParseTree} {ts : List ParseTree} {item : Item} {items : List Item}
    (h : t.build = some item) (hs : ParseTree.buildAll ts = some items) :
    ParseTree.buildAll (t :: ts) = some (item :: items) := by
  rw [ParseTree.buildAll, h, hs]
  rfl

/-- A rule that is not inlined makes a node of its own. -/
theorem node_of_not_isInlined {r : Rule} {p : Production} (hr : r.isInlined = false)
    (hp : p.name = none) (ls : List Lexeme) (children : List ParseTree) :
    r.node p ls children = .node (.rule r) children (ls.getLast?.map Lexeme.endLine) := by
  obtain ⟨parts, name⟩ := p
  obtain rfl : name = none := hp
  match children with
  | [] => rfl
  | [child] => exact if_neg (by simp [hr])
  | _ :: _ :: _ => rfl

/-- A production with a name of its own makes a node with that name. -/
theorem node_named (r : Rule) (parts : List Part) (name : NodeName) (ls : List Lexeme)
    (children : List ParseTree) :
    r.node ⟨parts, some name⟩ ls children =
      .node name children (ls.getLast?.map Lexeme.endLine) := rfl

theorem getLast?_closing (us vs : List Lexeme) (opening closing : Lexeme) :
    (us ++ opening :: (vs ++ [closing])).getLast? = some closing := by
  rw [← List.cons_append, ← List.append_assoc, List.getLast?_concat]

/-! ### Tokens -/

@[simp]
theorem kind_token (l : Lexeme) : l.token.kind = l.kind := rfl

section

variable {l : Lexeme}

theorem nameToken_eq (h : l.kind = .identifier) : l.nameToken = l.token := by
  rw [Lexeme.nameToken, Lexeme.token, h]
  rfl

/-- Only numerals and texts have a literal value. -/
theorem operatorToken_eq (hnumber : l.kind ≠ .number) (hstring : l.kind ≠ .string) :
    l.operatorToken = l.token := by
  have hnull : Segment.literal l.kind l.text.toList = .null := by
    unfold Segment.literal
    split <;> first | contradiction | rfl
  rw [Lexeme.operatorToken, Lexeme.token, hnull]

/-- The token that is made for a closing parenthesis is the one that stands there. -/
theorem closingParen_eq (h : l.kind = .rightParen) (hspelled : l.IsSpelled) :
    closingParen l.endLine = l.token := by
  rw [closingParen, Lexeme.endLine, Lexeme.token, hspelled.1 h, h]
  rfl

theorem closingBracket_eq (h : l.kind = .rightBracket) (hspelled : l.IsSpelled) :
    closingBracket l.endLine = l.token := by
  rw [closingBracket, Lexeme.endLine, Lexeme.token, hspelled.2 h, h]
  rfl

end

/-! ### Operators -/

theorem foldItems_many (rank : Rank) {ls rest : List Lexeme} {children : List ParseTree}
    (h : Matches Rule.Means [.many [.token rank.operators true, .rule (operandRule rank)]] ls rest
      children) (left : Tree) :
    ∃ items e, ParseTree.buildAll children = some items ∧
      foldItems rank.build left items = some e ∧
      (ExprPhrase.operands rank left).Derives (ls.map Lexeme.token) e := by
  have hoperators : .number ∉ rank.operators ∧ .string ∉ rank.operators := by
    cases rank <;> decide
  revert left
  refine h.many_induction (P := fun ls children => ∀ left, ∃ items e,
    ParseTree.buildAll children = some items ∧ foldItems rank.build left items = some e ∧
      (ExprPhrase.operands rank left).Derives (ls.map Lexeme.token) e) ?_ ?_
  · exact fun left => ⟨[], left, buildAll_nil, rfl, .noOperand⟩
  · intro us ms these own hthese ih left
    obtain ⟨op, _, _, hop, rfl, rfl, hoperand⟩ := hthese.kept
    obtain ⟨t, ht, rfl⟩ := hoperand.of_single
    obtain ⟨right, hbuild, hright⟩ := (means_operandRule rank _ _ t).1 ht
    obtain ⟨items, e, hitems, hfold, he⟩ := ih (rank.build left op.token right)
    have htoken : op.operatorToken = op.token :=
      operatorToken_eq (fun heq => hoperators.1 (heq ▸ hop)) fun heq => hoperators.2 (heq ▸ hop)
    refine ⟨.token op :: .tree right :: items, e, ?_, ?_, ?_⟩
    · exact buildAll_cons (build_token op) (buildAll_cons hbuild hitems)
    · rw [foldItems, htoken, hfold]
    · rw [List.cons_append, List.map_cons, List.map_append]
      exact .operand hop hright he

theorem act_rankRule (rank : Rank) (items : List Item) (endLine : Option Nat) :
    (rankRule rank).act items endLine = foldNode rank.build items := by
  cases rank <;> rfl

theorem means_chain (rank : Rank) {p : Production} {ls rest : List Lexeme} {own : List ParseTree}
    (hp : p ∈ (rankRule rank).productions) (h : Matches Rule.Means p.parts ls rest own) :
    (rankRule rank).Means ls rest ((rankRule rank).node p ls own) := by
  rw [productions_rankRule, List.mem_singleton] at hp
  subst hp
  obtain ⟨us, ms, t, more, ht, rfl, rfl, hmore⟩ := h.of_rule
  obtain ⟨first, hbuild, hfirst⟩ := (means_operandRule rank _ _ t).1 ht
  obtain ⟨items, e, hitems, hfold, he⟩ := foldItems_many rank hmore first
  rw [means_rankRule, IsExpr, List.map_append]
  refine ⟨e, ?_, .level hfirst he⟩
  cases more with
  | nil =>
    -- a single operand makes no node
    have hnode : (rankRule rank).node ⟨Part.chain rank.operators (operandRule rank), none⟩
        (us ++ ms) [t] = t := by cases rank <;> rfl
    rw [buildAll_nil] at hitems
    cases hitems
    cases hfold
    rw [hnode, hbuild]
  | cons t' more =>
    have hnode : (rankRule rank).node ⟨Part.chain rank.operators (operandRule rank), none⟩
        (us ++ ms) (t :: t' :: more) = .node (.rule (rankRule rank)) (t :: t' :: more)
          ((us ++ ms).getLast?.map Lexeme.endLine) := rfl
    rw [hnode, build_node (buildAll_cons hbuild hitems), NodeName.act, act_rankRule, foldNode,
      hfold]
    rfl

/-! ### Commas -/

/-- Items with commas between them, each made of one child. -/
theorem commaList_of_matches {α : Type} (item : List Token → α → Prop) (get? : Item → Option α)
    {part : Part}
    (hitem : ∀ us rest own, Matches Rule.Means [part] us rest own →
      ∃ t i a, own = [t] ∧ t.build = some i ∧ get? i = some a ∧ item (us.map Lexeme.token) a)
    {ls rest : List Lexeme} {own : List ParseTree}
    (h : Matches Rule.Means [part, .many [.mark .comma, part]] ls rest own) :
    ∃ items as, ParseTree.buildAll own = some items ∧ items.mapM get? = some as ∧
      CommaList item (ls.map Lexeme.token) as := by
  obtain ⟨us, ms, these, more, hthese, rfl, rfl, hmore⟩ := h.of_cons
  obtain ⟨t, i, a, rfl, hbuild, hget, ha⟩ := hitem _ _ _ hthese
  obtain ⟨items, as, hitems, hgets, has⟩ := hmore.many_induction
    (P := fun ls children => ∃ items as, ParseTree.buildAll children = some items ∧
      items.mapM get? = some as ∧ CommaTail item (ls.map Lexeme.token) as)
    ⟨[], [], buildAll_nil, rfl, .nil⟩ <| by
      rintro us ms these own hthese ⟨items, as, hitems, hgets, has⟩
      obtain ⟨comma, us, hcomma, -, rfl, hnext⟩ := hthese.mark
      obtain ⟨t, i, a, rfl, hbuild, hget, ha⟩ := hitem _ _ _ hnext
      refine ⟨i :: items, a :: as, buildAll_cons hbuild hitems, ?_, ?_⟩
      · rw [List.mapM_cons, hget, hgets]
        rfl
      · rw [List.cons_append, List.map_cons, List.map_append]
        exact .cons hcomma ha has
  refine ⟨i :: items, a :: as, buildAll_cons hbuild hitems, ?_, ?_⟩
  · rw [List.mapM_cons, hget, hgets]
    rfl
  · rw [List.map_append]
    exact ⟨_, _, a, as, rfl, rfl, ha, has⟩

/-! ### Expressions -/

section Expressions

variable {p : Production} {ls rest : List Lexeme} {own : List ParseTree}

theorem means_expression (hp : p ∈ Rule.expression.productions)
    (h : Matches Rule.Means p.parts ls rest own) :
    Rule.expression.Means ls rest (Rule.expression.node p ls own) := by
  obtain rfl := List.mem_singleton.1 hp
  obtain ⟨t, ht, rfl⟩ := h.of_single
  exact ht

theorem means_assignment (hp : p ∈ Rule.assignment.productions)
    (h : Matches Rule.Means p.parts ls rest own) :
    Rule.assignment.Means ls rest (Rule.assignment.node p ls own) := by
  simp only [Rule.productions, List.mem_cons, List.not_mem_nil, or_false] at hp
  rcases hp with rfl | rfl | rfl
  · obtain ⟨name, _, _, hname, rfl, rfl, h₁⟩ := h.keep
    obtain ⟨equals, _, hequals, -, rfl, h₂⟩ := h₁.mark
    obtain ⟨t, ⟨value, hbuild, hvalue⟩, rfl⟩ := h₂.of_single
    refine ⟨.assign name.token value, ?_, .assign hname hequals hvalue⟩
    rw [node_named, ← nameToken_eq hname]
    exact build_node (buildAll_cons (build_token name) (buildAll_cons hbuild buildAll_nil)) _
  · obtain ⟨us, _, t, _, ht, rfl, rfl, h₁⟩ := h.of_rule
    obtain ⟨us, opening, vs, closing, target, index, hbuild, htokens, htarget, hopening, hindex,
      hclosing⟩ := ht
    obtain ⟨equals, _, hequals, -, rfl, h₂⟩ := h₁.mark
    obtain ⟨t', ⟨value, hbuild', hvalue⟩, rfl⟩ := h₂.of_single
    refine ⟨.assignIndex target closing index value, ?_, ?_⟩
    · exact build_node (buildAll_cons hbuild (buildAll_cons hbuild' buildAll_nil)) _
    · rw [List.map_append, htokens]
      have hequals : equals.token.kind = .equal := hequals
      simpa using ExprPhrase.Derives.assignIndex htarget hopening hindex hclosing hequals hvalue
  · obtain ⟨t, ⟨e, hbuild, he⟩, rfl⟩ := h.of_single
    exact ⟨e, hbuild, .plain he⟩

/-- An indexing, as an expression or as a target. -/
theorem isIndex_of_matches (name : NodeName)
    (h : Matches Rule.Means [.rule .call, .mark .leftBracket, .rule .expression,
      .mark .rightBracket] ls rest own)
    (hact : ∀ target index line, name.act [.tree target, .tree index] (some line) =
      some (.tree (.index target (closingBracket line) index))) :
    IsIndex ls (.node name own (ls.getLast?.map Lexeme.endLine)) := by
  obtain ⟨us, _, t, _, ⟨target, hbuild, htarget⟩, rfl, rfl, h₁⟩ := h.of_rule
  obtain ⟨opening, _, hopening, -, rfl, h₂⟩ := h₁.mark
  obtain ⟨vs, _, t', _, ⟨index, hbuild', hindex⟩, rfl, rfl, h₃⟩ := h₂.of_rule
  obtain ⟨closing, _, hclosing, hspelled, rfl, h₄⟩ := h₃.mark
  obtain ⟨rfl, rfl⟩ := h₄.eq_nil
  refine ⟨us.map Lexeme.token, opening.token, vs.map Lexeme.token, closing.token, target, index,
    ?_, by simp, htarget, hopening, hindex, hclosing⟩
  rw [build_node (buildAll_cons hbuild (buildAll_cons hbuild' buildAll_nil)), getLast?_closing,
    Option.map_some, hact, closingBracket_eq hclosing hspelled]

theorem means_indexTarget (hp : p ∈ Rule.indexTarget.productions)
    (h : Matches Rule.Means p.parts ls rest own) :
    Rule.indexTarget.Means ls rest (Rule.indexTarget.node p ls own) := by
  obtain rfl := List.mem_singleton.1 hp
  rw [node_of_not_isInlined rfl rfl]
  exact isIndex_of_matches _ h fun _ _ _ => rfl

theorem means_unary (hp : p ∈ Rule.unary.productions)
    (h : Matches Rule.Means p.parts ls rest own) :
    Rule.unary.Means ls rest (Rule.unary.node p ls own) := by
  simp only [Rule.productions, List.mem_cons, List.not_mem_nil, or_false] at hp
  rcases hp with rfl | rfl
  · obtain ⟨op, _, _, hop, rfl, rfl, h₁⟩ := h.kept
    obtain ⟨t, ⟨e, hbuild, he⟩, rfl⟩ := h₁.of_single
    have htoken : op.operatorToken = op.token := by
      refine operatorToken_eq ?_ ?_
      all_goals
        intro hkind
        rw [hkind] at hop
        exact absurd hop (by decide)
    refine ⟨.unary op.token e, ?_, .unaryOperator hop he⟩
    rw [node_named, ← htoken]
    exact build_node (buildAll_cons (build_token op) (buildAll_cons hbuild buildAll_nil)) _
  · obtain ⟨t, ⟨e, hbuild, he⟩, rfl⟩ := h.of_single
    exact ⟨e, hbuild, .unaryCall he⟩

/-- More suffixes behind suffixes. -/
theorem suffixes_append {callee e e' : Tree} {us vs : List Token}
    (h : (ExprPhrase.suffixes callee).Derives us e) (h' : (ExprPhrase.suffixes e).Derives vs e') :
    (ExprPhrase.suffixes callee).Derives (us ++ vs) e' := by
  generalize hphrase : ExprPhrase.suffixes callee = phrase at h
  induction h generalizing callee with
  | noSuffix =>
    cases hphrase
    exact h'
  | callSuffix hopening hargs hclosing _ _ ih =>
    cases hphrase
    simpa using ExprPhrase.Derives.callSuffix hopening hargs hclosing (ih h' rfl)
  | indexSuffix hopening hindex hclosing _ _ ih =>
    cases hphrase
    simpa using ExprPhrase.Derives.indexSuffix hopening hindex hclosing (ih h' rfl)
  | _ => cases hphrase

theorem call_append {callee e : Tree} {us vs : List Token} (h : ExprPhrase.call.Derives us callee)
    (h' : (ExprPhrase.suffixes callee).Derives vs e) : ExprPhrase.call.Derives (us ++ vs) e := by
  cases h with
  | call hprimary hsuffixes =>
    rw [List.append_assoc]
    exact .call hprimary (suffixes_append hsuffixes h')

/-- The arguments of a call, or none. -/
theorem arguments_of_matches
    (h : Matches Rule.Means [.optional [.rule .arguments]] ls rest own) :
    ∃ item args, ParseTree.buildAll own = some [item] ∧ item.trees? = some args ∧
      ExprPhrase.arguments.Derives (ls.map Lexeme.token) (.list args) := by
  rcases h.of_optional with ⟨_, -, rfl, h₁⟩ | ⟨us, _, these, _, h₁, rfl, rfl, h₂⟩
  · obtain ⟨rfl, rfl⟩ := h₁.eq_nil
    exact ⟨.absent, [], buildAll_cons build_absent buildAll_nil, rfl, .noArguments⟩
  · obtain ⟨rfl, rfl⟩ := h₂.eq_nil
    obtain ⟨t, ⟨args, hbuild, hargs⟩, rfl⟩ := h₁.of_single
    refine ⟨.trees args, args, buildAll_cons hbuild buildAll_nil, rfl, ?_⟩
    rw [List.append_nil]
    exact ExprPhrase.Derives.arguments_of_commaList hargs

theorem means_call (hp : p ∈ Rule.call.productions)
    (h : Matches Rule.Means p.parts ls rest own) :
    Rule.call.Means ls rest (Rule.call.node p ls own) := by
  simp only [Rule.productions, List.mem_cons, List.not_mem_nil, or_false] at hp
  rcases hp with rfl | rfl | rfl
  · obtain ⟨t, ⟨e, hbuild, he⟩, rfl⟩ := h.of_single
    refine ⟨e, hbuild, ?_⟩
    have hcall := ExprPhrase.Derives.call he .noSuffix
    rwa [List.append_nil] at hcall
  · obtain ⟨us, _, t, _, ⟨callee, hbuild, hcallee⟩, rfl, rfl, h₁⟩ := h.of_rule
    obtain ⟨opening, _, hopening, -, rfl, h₂⟩ := h₁.mark
    obtain ⟨vs, _, these, _, h₃, rfl, rfl, h₄⟩ := h₂.of_cons
    obtain ⟨closing, _, hclosing, hspelled, rfl, h₅⟩ := h₄.mark
    obtain ⟨rfl, rfl⟩ := h₅.eq_nil
    obtain ⟨item, args, hitem, htrees, hargs⟩ := arguments_of_matches h₃
    refine ⟨.call callee closing.token (.list args), ?_, ?_⟩
    · rw [node_named, List.append_nil, build_node (buildAll_cons hbuild hitem), getLast?_closing,
        ← closingParen_eq hclosing hspelled]
      change (item.trees?.map _ : Option Item) = _
      rw [htrees]
      rfl
    · rw [List.map_append, List.map_cons, List.map_append]
      exact call_append hcallee (.callSuffix hopening hargs hclosing .noSuffix)
  · obtain ⟨us, opening, vs, closing, target, index, hbuild, htokens, htarget, hopening, hindex,
      hclosing⟩ := isIndex_of_matches .indexExpr h fun _ _ _ => rfl
    refine ⟨_, hbuild, ?_⟩
    rw [htokens]
    exact call_append htarget (.indexSuffix hopening hindex hclosing .noSuffix)

theorem means_arguments (hp : p ∈ Rule.arguments.productions)
    (h : Matches Rule.Means p.parts ls rest own) :
    Rule.arguments.Means ls rest (Rule.arguments.node p ls own) := by
  obtain rfl := List.mem_singleton.1 hp
  have hitem (us rest : List Lexeme) (own : List ParseTree)
      (h : Matches Rule.Means [.rule .expression] us rest own) :
      ∃ t i e, own = [t] ∧ t.build = some i ∧ i.tree? = some e ∧
        ExprPhrase.expression.Derives (us.map Lexeme.token) e := by
    obtain ⟨t, ⟨e, hbuild, he⟩, rfl⟩ := h.of_single
    exact ⟨t, .tree e, e, rfl, hbuild, rfl, he⟩
  obtain ⟨items, args, hitems, hgets, hargs⟩ := commaList_of_matches _ Item.tree? hitem h
  rw [node_of_not_isInlined rfl rfl]
  refine ⟨args, ?_, hargs⟩
  rw [build_node hitems]
  change (items.mapM Item.tree?).map _ = _
  rw [hgets]
  rfl

/-- A literal or a name that keeps its token. -/
theorem isExpr_of_keep {kind : Kind} {name : NodeName} (e : Lexeme → Tree)
    (h : Matches Rule.Means [.keep kind] ls rest own)
    (hact : ∀ l endLine, name.act [.token l] endLine = some (.tree (e l)))
    (he : ∀ l : Lexeme, l.kind = kind → ExprPhrase.primary.Derives [l.token] (e l)) :
    IsExpr .primary ls (.node name own (ls.getLast?.map Lexeme.endLine)) := by
  obtain ⟨l, _, _, hkind, rfl, rfl, h₁⟩ := h.keep
  obtain ⟨rfl, rfl⟩ := h₁.eq_nil
  refine ⟨e l, ?_, he l hkind⟩
  rw [build_node (buildAll_cons (build_token l) buildAll_nil), hact]

/-- A literal that is known by the kind of its token. -/
theorem isExpr_of_mark {kind : Kind} {name : NodeName} {e : Tree}
    (h : Matches Rule.Means [.mark kind] ls rest own)
    (hact : ∀ endLine, name.act [] endLine = some (.tree e))
    (he : ∀ l : Lexeme, l.kind = kind → ExprPhrase.primary.Derives [l.token] e) :
    IsExpr .primary ls (.node name own (ls.getLast?.map Lexeme.endLine)) := by
  obtain ⟨l, _, hkind, -, rfl, h₁⟩ := h.mark
  obtain ⟨rfl, rfl⟩ := h₁.eq_nil
  refine ⟨e, ?_, he l hkind⟩
  rw [build_node buildAll_nil, hact]

/-- The value of a numeral or a text is its literal. -/
theorem ofJson_literal (l : Lexeme) : Tree.ofJson l.token.literal = l.value := by
  rw [Lexeme.token, Token.make, Tree.ofJson, Lexeme.value]

theorem means_primary (hp : p ∈ Rule.primary.productions)
    (h : Matches Rule.Means p.parts ls rest own) :
    Rule.primary.Means ls rest (Rule.primary.node p ls own) := by
  have literal (l : Lexeme) (hl : l.kind ∈ [Kind.number, .string]) :
      ExprPhrase.primary.Derives [l.token] (.literal l.value) :=
    ofJson_literal l ▸ .literal hl
  simp only [Rule.productions, List.mem_cons, List.not_mem_nil, or_false] at hp
  rcases hp with rfl | rfl | rfl | rfl | rfl | rfl | rfl
  · exact isExpr_of_keep _ h (fun _ _ => rfl) fun l hl => literal l (by simp [hl])
  · exact isExpr_of_keep _ h (fun _ _ => rfl) fun l hl => literal l (by simp [hl])
  · exact isExpr_of_mark h (fun _ => rfl) fun l hl => .trueLiteral hl
  · exact isExpr_of_mark h (fun _ => rfl) fun l hl => .falseLiteral hl
  · exact isExpr_of_mark h (fun _ => rfl) fun l hl => .nilLiteral hl
  · refine isExpr_of_keep _ h (fun _ _ => rfl) fun l hl => ?_
    rw [nameToken_eq hl]
    exact .name hl
  · obtain ⟨opening, _, hopening, -, rfl, h₁⟩ := h.mark
    obtain ⟨us, _, t, _, ⟨e, hbuild, he⟩, rfl, rfl, h₂⟩ := h₁.of_rule
    obtain ⟨closing, _, hclosing, -, rfl, h₃⟩ := h₂.mark
    obtain ⟨rfl, rfl⟩ := h₃.eq_nil
    refine ⟨.grouping e, ?_, ?_⟩
    · exact build_node (buildAll_cons hbuild buildAll_nil) _
    · rw [List.map_cons, List.map_append]
      exact .grouping hopening he hclosing

end Expressions

end Scriptlet.Strict
