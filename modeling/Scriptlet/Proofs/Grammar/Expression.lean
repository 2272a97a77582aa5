import Scriptlet.Tree.Basic

/-!
# The grammar of expressions

Which token lists are expressions, and the tree of each: an inductive relation with one constructor
per production, independent of any parser. A repetition of the grammar is a phrase of its own that
carries the tree built so far, so that chains of operands, calls and indexings lean to the left by
definition.

    expression  -> ( IDENT | call "[" expression "]" ) "=" expression | disjunction
    disjunction -> conjunction ( "or" conjunction )*
    conjunction -> equality ( "and" equality )*
    equality    -> comparison ( ( "==" | "!=" ) comparison )*
    comparison  -> term ( ( ">" | ">=" | "<" | "<=" ) term )*
    term        -> factor ( ( "+" | "-" ) factor )*
    factor      -> unary ( ( "*" | "/" ) unary )*
    unary       -> ( "!" | "-" ) unary | call
    call        -> primary ( "(" arguments? ")" | "[" expression "]" )*
    arguments   -> expression ( "," expression )*
    primary     -> NUMBER | STRING | "true" | "false" | "nil" | IDENT | "(" expression ")"

## Main definitions

* `Grammar.Rank` — the levels of left-associative binary operators
* `Grammar.ExprPhrase`, `Grammar.ExprPhrase.Derives` — phrases, and the trees of their token lists
* `Grammar.CommaTail` — items with a comma in front of each

## Main results

* `ExprPhrase.Derives.starts` — every expression starts with a token that starts expressions
* `ExprPhrase.Derives.eq_name`, `ExprPhrase.Derives.eq_index` — an operand chain whose tree is a
  name or an indexing is that name, or that indexing of a call, and nothing more
* `ExprPhrase.Derives.dotless` — the dot has no place in an expression
-/

namespace Scriptlet.Grammar

/-- The levels of left-associative binary operators, the loosest first. -/
inductive Rank
  | disjunction | conjunction | equality | comparison | term | factor
  deriving DecidableEq

namespace Rank

/-- The operators of a level. -/
def operators : Rank → List Kind
  | disjunction => [.orKey]
  | conjunction => [.andKey]
  | equality => [.bangEqual, .equalEqual]
  | comparison => [.greater, .greaterEqual, .less, .lessEqual]
  | term => [.minus, .plus]
  | factor => [.slash, .star]

/-- The node that an operator of a level builds: the loosest two are decided by their left side. -/
def build (rank : Rank) (left : Tree) (op : Token) (right : Tree) : Tree :=
  match rank with
  | disjunction | conjunction => .logical left op right
  | _ => .binary left op right

end Rank

/-- What expressions are made of. -/
inductive ExprPhrase
  | expression
  | level (rank : Rank)
  /-- The operators and operands that follow `left` on a level. -/
  | operands (rank : Rank) (left : Tree)
  | unary
  | call
  /-- The calls and indexings that follow `callee`. -/
  | suffixes (callee : Tree)
  | arguments
  /-- The arguments behind the first, each with a comma in front. -/
  | moreArguments
  | primary

/-- The phrase that the operands of a level are. -/
def Rank.operand : Rank → ExprPhrase
  | disjunction => .level .conjunction
  | conjunction => .level .equality
  | equality => .level .comparison
  | comparison => .level .term
  | term => .level .factor
  | factor => .unary

/-- The token lists of a phrase with their trees; those of arguments are lists. -/
inductive ExprPhrase.Derives : ExprPhrase → List Token → Tree → Prop
  | assign {name equals : Token} {us : List Token} {value : Tree} :
      name.kind = .identifier → equals.kind = .equal → Derives .expression us value →
      Derives .expression (name :: equals :: us) (.assign name value)
  | assignIndex {opening closing equals : Token} {us vs ws : List Token}
      {target index value : Tree} :
      Derives .call us target → opening.kind = .leftBracket → Derives .expression vs index →
      closing.kind = .rightBracket → equals.kind = .equal → Derives .expression ws value →
      Derives .expression (us ++ opening :: (vs ++ closing :: equals :: ws))
        (.assignIndex target closing index value)
  | plain {us : List Token} {e : Tree} :
      Derives (.level .disjunction) us e → Derives .expression us e
  | level {rank : Rank} {us vs : List Token} {left e : Tree} :
      Derives rank.operand us left → Derives (.operands rank left) vs e →
      Derives (.level rank) (us ++ vs) e
  | noOperand {rank : Rank} {left : Tree} : Derives (.operands rank left) [] left
  | operand {rank : Rank} {op : Token} {us vs : List Token} {left right e : Tree} :
      op.kind ∈ rank.operators → Derives rank.operand us right →
      Derives (.operands rank (rank.build left op right)) vs e →
      Derives (.operands rank left) (op :: (us ++ vs)) e
  | unaryOperator {op : Token} {us : List Token} {e : Tree} :
      op.kind ∈ [Kind.bang, .minus] → Derives .unary us e → Derives .unary (op :: us) (.unary op e)
  | unaryCall {us : List Token} {e : Tree} : Derives .call us e → Derives .unary us e
  | call {us vs : List Token} {callee e : Tree} :
      Derives .primary us callee → Derives (.suffixes callee) vs e → Derives .call (us ++ vs) e
  | noSuffix {callee : Tree} : Derives (.suffixes callee) [] callee
  | callSuffix {opening closing : Token} {us vs : List Token} {callee e : Tree}
      {args : List Tree} :
      opening.kind = .leftParen → Derives .arguments us (.list args) →
      closing.kind = .rightParen →
      Derives (.suffixes (.call callee closing (.list args))) vs e →
      Derives (.suffixes callee) (opening :: (us ++ closing :: vs)) e
  | indexSuffix {opening closing : Token} {us vs : List Token} {callee index e : Tree} :
      opening.kind = .leftBracket → Derives .expression us index →
      closing.kind = .rightBracket → Derives (.suffixes (.index callee closing index)) vs e →
      Derives (.suffixes callee) (opening :: (us ++ closing :: vs)) e
  | noArguments : Derives .arguments [] (.list [])
  | arguments {us vs : List Token} {arg : Tree} {args : List Tree} :
      Derives .expression us arg → Derives .moreArguments vs (.list args) →
      Derives .arguments (us ++ vs) (.list (arg :: args))
  | lastArgument : Derives .moreArguments [] (.list [])
  | moreArguments {comma : Token} {us vs : List Token} {arg : Tree} {args : List Tree} :
      comma.kind = .comma → Derives .expression us arg → Derives .moreArguments vs (.list args) →
      Derives .moreArguments (comma :: (us ++ vs)) (.list (arg :: args))
  | falseLiteral {t : Token} :
      t.kind = .falseKey → Derives .primary [t] (.literal (.atom (.bool false)))
  | trueLiteral {t : Token} :
      t.kind = .trueKey → Derives .primary [t] (.literal (.atom (.bool true)))
  | nilLiteral {t : Token} : t.kind = .nilKey → Derives .primary [t] (.literal .null)
  | literal {t : Token} :
      t.kind ∈ [Kind.number, .string] → Derives .primary [t] (.literal (.ofJson t.literal))
  | name {t : Token} : t.kind = .identifier → Derives .primary [t] (.varRef t)
  | grouping {opening closing : Token} {us : List Token} {e : Tree} :
      opening.kind = .leftParen → Derives .expression us e → closing.kind = .rightParen →
      Derives .primary (opening :: (us ++ [closing])) (.grouping e)

/-- `("," item)*` -/
inductive CommaTail {α : Type} (item : List Token → α → Prop) : List Token → List α → Prop
  | nil : CommaTail item [] []
  | cons {comma : Token} {us vs : List Token} {a : α} {as : List α} :
      comma.kind = .comma → item us a → CommaTail item vs as →
      CommaTail item (comma :: (us ++ vs)) (a :: as)

/-- `item ("," item)*` -/
def CommaList {α : Type} (item : List Token → α → Prop) (ts : List Token) (as : List α) : Prop :=
  ∃ us vs a rest, ts = us ++ vs ∧ as = a :: rest ∧ item us a ∧ CommaTail item vs rest

/-! ### How expressions start -/

/-- The kinds of tokens that start expressions. -/
def expressionStarts : List Kind :=
  [.bang, .minus, .falseKey, .trueKey, .nilKey, .number, .string, .identifier, .leftParen]

/-- The phrases that are expressions of one level or another. -/
def ExprPhrase.IsExpression : ExprPhrase → Prop
  | expression | level _ | unary | call | primary => True
  | _ => False

theorem Rank.isExpression_operand (rank : Rank) : rank.operand.IsExpression := by
  cases rank <;> trivial

namespace ExprPhrase.Derives

/-- Every expression starts with a token that starts expressions. -/
theorem starts {phrase : ExprPhrase} {us : List Token} {e : Tree} (h : phrase.Derives us e)
    (hphrase : phrase.IsExpression) : ∃ t vs, us = t :: vs ∧ t.kind ∈ expressionStarts := by
  induction h with
  | assign hname => exact ⟨_, _, rfl, by simp [hname, expressionStarts]⟩
  | assignIndex _ _ _ _ _ _ ih =>
    obtain ⟨t, vs, rfl, ht⟩ := ih trivial
    exact ⟨t, _, rfl, ht⟩
  | plain _ ih => exact ih trivial
  | @level rank _ _ _ _ _ _ ih =>
    obtain ⟨t, vs, rfl, ht⟩ := ih rank.isExpression_operand
    exact ⟨t, _, rfl, ht⟩
  | unaryOperator hop =>
    refine ⟨_, _, rfl, ?_⟩
    simp only [List.mem_cons, List.not_mem_nil, or_false] at hop
    rcases hop with hop | hop <;> simp [hop, expressionStarts]
  | unaryCall _ ih => exact ih trivial
  | call _ _ ih =>
    obtain ⟨t, vs, rfl, ht⟩ := ih trivial
    exact ⟨t, _, rfl, ht⟩
  | falseLiteral ht | trueLiteral ht | nilLiteral ht | name ht | grouping ht =>
    exact ⟨_, _, rfl, by simp [ht, expressionStarts]⟩
  | literal ht =>
    refine ⟨_, _, rfl, ?_⟩
    simp only [List.mem_cons, List.not_mem_nil, or_false] at ht
    rcases ht with ht | ht <;> simp [ht, expressionStarts]
  | _ => exact hphrase.elim

end ExprPhrase.Derives

/-! ### Assignment targets

A parser that reads the left side of an assignment as a chain of operands finds out afterwards
whether it was a target. These lemmas say that the tree tells. -/

/-- Names and indexings: the trees that stand to the left of an equals sign. -/
inductive IsTarget : Tree → Prop
  | name (t : Token) : IsTarget (.varRef t)
  | index (target : Tree) (bracket : Token) (i : Tree) : IsTarget (.index target bracket i)

theorem Rank.not_isTarget_build (rank : Rank) (left : Tree) (op : Token) (right : Tree) :
    ¬ IsTarget (rank.build left op right) := by
  cases rank <;> exact nofun

namespace ExprPhrase.Derives

/-- A chain of operands that is a target has one operand. -/
theorem eq_nil_of_operands {rank : Rank} {left e : Tree} {us : List Token}
    (h : (ExprPhrase.operands rank left).Derives us e) (he : IsTarget e) : us = [] ∧ e = left := by
  generalize hphrase : ExprPhrase.operands rank left = phrase at h
  induction h generalizing rank left with
  | noOperand =>
    cases hphrase
    exact ⟨rfl, rfl⟩
  | operand _ _ _ _ ih =>
    cases hphrase
    obtain ⟨-, rfl⟩ := ih he rfl
    -- an operator builds a node that is no target, and the rest of the chain did not change it
    exact absurd he (Rank.not_isTarget_build _ _ _ _)
  | _ => cases hphrase

theorem operand_of_isTarget {rank : Rank} {e : Tree} {us : List Token}
    (h : (ExprPhrase.level rank).Derives us e) (he : IsTarget e) : rank.operand.Derives us e := by
  cases h with
  | level hleft hrest =>
    obtain ⟨rfl, rfl⟩ := eq_nil_of_operands hrest he
    simpa using hleft

/-- A chain of operands that is a target is a call, at whatever level it was read. -/
theorem call_of_isTarget {us : List Token} {e : Tree}
    (h : (ExprPhrase.level .disjunction).Derives us e) (he : IsTarget e) :
    ExprPhrase.call.Derives us e := by
  -- each level passes the target on to the next tighter one
  have h : (ExprPhrase.level .conjunction).Derives us e := operand_of_isTarget h he
  have h : (ExprPhrase.level .equality).Derives us e := operand_of_isTarget h he
  have h : (ExprPhrase.level .comparison).Derives us e := operand_of_isTarget h he
  have h : (ExprPhrase.level .term).Derives us e := operand_of_isTarget h he
  have h : (ExprPhrase.level .factor).Derives us e := operand_of_isTarget h he
  have h : ExprPhrase.unary.Derives us e := operand_of_isTarget h he
  cases h with
  | unaryOperator => cases he
  | unaryCall h => exact h

/-- Behind a callee there is either nothing, or the tree is a call or an indexing. -/
theorem suffixes_varRef {callee : Tree} {us : List Token} {t : Token}
    (h : (ExprPhrase.suffixes callee).Derives us (.varRef t)) : us = [] ∧ callee = .varRef t := by
  generalize hphrase : ExprPhrase.suffixes callee = phrase at h
  generalize htree : Tree.varRef t = e at h
  induction h generalizing callee with
  | noSuffix =>
    cases hphrase
    exact ⟨rfl, rfl⟩
  | callSuffix _ _ _ _ _ ih | indexSuffix _ _ _ _ _ ih =>
    -- the suffix built a node that is no name
    exact nomatch htree.trans (ih rfl htree).2.symm
  | _ => cases hphrase

/-- A chain of operands whose tree is a name is that name. -/
theorem eq_name {us : List Token} {t : Token}
    (h : (ExprPhrase.level .disjunction).Derives us (.varRef t)) :
    us = [t] ∧ t.kind = .identifier := by
  cases call_of_isTarget h (.name t) with
  | call hcallee hsuffixes =>
    obtain ⟨rfl, rfl⟩ := suffixes_varRef hsuffixes
    cases hcallee with
    | name ht => exact ⟨rfl, ht⟩

/-- Suffixes whose tree is an indexing are none, or end with that indexing. -/
theorem suffixes_index {callee target index : Tree} {us : List Token} {bracket : Token}
    (h : (ExprPhrase.suffixes callee).Derives us (.index target bracket index)) :
    (us = [] ∧ callee = .index target bracket index) ∨
      ∃ vs opening ws, us = vs ++ opening :: (ws ++ [bracket]) ∧
        (ExprPhrase.suffixes callee).Derives vs target ∧ opening.kind = .leftBracket ∧
        ExprPhrase.expression.Derives ws index ∧ bracket.kind = .rightBracket := by
  generalize hphrase : ExprPhrase.suffixes callee = phrase at h
  generalize htree : Tree.index target bracket index = e at h
  induction h generalizing callee with
  | noSuffix =>
    cases hphrase
    exact .inl ⟨rfl, rfl⟩
  | callSuffix hopening hargs hclosing _ _ ih =>
    cases hphrase
    rcases ih rfl htree with ⟨-, heq⟩ | ⟨vs, opening, ws, rfl, htarget, hrest⟩
    · cases htree.trans heq.symm
    · refine .inr ⟨_, opening, ws, ?_, .callSuffix hopening hargs hclosing htarget, hrest⟩
      simp
  -- either this indexing is the last suffix, or the last one is found further on
  | indexSuffix hopening hindex hclosing _ _ ih =>
    cases hphrase
    rcases ih rfl htree with ⟨rfl, heq⟩ | ⟨vs, opening, ws, rfl, htarget, hrest⟩
    · cases htree.trans heq.symm
      exact .inr ⟨[], _, _, rfl, .noSuffix, hopening, hindex, hclosing⟩
    · refine .inr ⟨_, opening, ws, ?_, .indexSuffix hopening hindex hclosing htarget, hrest⟩
      simp
  | _ => cases hphrase

/-- A chain of operands whose tree is an indexing is that indexing of a call. -/
theorem eq_index {us : List Token} {target index : Tree} {bracket : Token}
    (h : (ExprPhrase.level .disjunction).Derives us (.index target bracket index)) :
    ∃ vs opening ws, us = vs ++ opening :: (ws ++ [bracket]) ∧
      ExprPhrase.call.Derives vs target ∧ opening.kind = .leftBracket ∧
      ExprPhrase.expression.Derives ws index ∧ bracket.kind = .rightBracket := by
  cases call_of_isTarget h (.index target bracket index) with
  | call hcallee hsuffixes =>
    rcases suffixes_index hsuffixes with ⟨-, rfl⟩ | ⟨vs, opening, ws, rfl, htarget, hrest⟩
    -- no primary expression is an indexing
    · cases hcallee
    · exact ⟨_ ++ vs, opening, ws, by simp, .call hcallee htarget, hrest⟩

/-- The arguments behind the first are expressions with a comma in front of each. -/
theorem moreArguments_of_commaTail {us : List Token} {args : List Tree}
    (h : CommaTail ExprPhrase.expression.Derives us args) :
    ExprPhrase.moreArguments.Derives us (.list args) := by
  induction h with
  | nil => exact .lastArgument
  | cons hcomma harg _ ih => exact .moreArguments hcomma harg ih

theorem arguments_of_commaList {us : List Token} {args : List Tree}
    (h : CommaList ExprPhrase.expression.Derives us args) :
    ExprPhrase.arguments.Derives us (.list args) := by
  obtain ⟨us, vs, arg, rest, rfl, rfl, harg, hrest⟩ := h
  exact .arguments harg (moreArguments_of_commaTail hrest)

end ExprPhrase.Derives

/-! ### Tokens without a place in the grammar -/

/-- No token is a dot. -/
def Dotless (ts : List Token) : Prop := ∀ t ∈ ts, t.kind ≠ .dot

@[simp]
theorem dotless_nil : Dotless [] := nofun

@[simp]
theorem dotless_cons {t : Token} {ts : List Token} :
    Dotless (t :: ts) ↔ t.kind ≠ .dot ∧ Dotless ts := List.forall_mem_cons

@[simp]
theorem dotless_append {us vs : List Token} : Dotless (us ++ vs) ↔ Dotless us ∧ Dotless vs :=
  List.forall_mem_append

theorem Rank.dot_notMem (rank : Rank) : Kind.dot ∉ rank.operators := by cases rank <;> decide

theorem ExprPhrase.Derives.dotless {phrase : ExprPhrase} {us : List Token} {e : Tree}
    (h : phrase.Derives us e) : Dotless us := by
  induction h with
  -- operators and literals are given by lists of kinds, all other tokens by their kind
  | @operand rank op _ _ _ _ _ hop _ _ ih ihs =>
    have hne : op.kind ≠ .dot := by
      intro heq
      exact rank.dot_notMem (heq ▸ hop)
    simp [hne, ih, ihs]
  | unaryOperator hop _ ih =>
    simp only [dotless_cons, ih, and_true]
    intro heq
    simp [heq] at hop
  | literal ht =>
    simp only [dotless_cons, dotless_nil, and_true]
    intro heq
    simp [heq] at ht
  | _ => simp_all

end Scriptlet.Grammar
