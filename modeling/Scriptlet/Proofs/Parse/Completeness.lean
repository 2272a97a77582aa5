import Scriptlet.Proofs.Parse.Reading
import Scriptlet.Proofs.Parse.Soundness
import Scriptlet.Scan.Basic

/-!
# The parser finds every tree of the grammar

Every phrase that the grammar derives is read by the parsing function of the phrase, with the tree
of the derivation, unless the nesting depth runs out. A parsing function is greedy, so what follows
a phrase must not be a token with which the phrase could go on. Together with the converse, the
parser accepts the grammar exactly, and no token list has two trees.

## Main definitions

* `Parse.continuing` — the kinds of tokens with which an operand chain goes on
* `Parse.Completes` — what it means for the parser to find a phrase

## Main results

* `Parse.completes` — every expression is found
* `Parse.completesStmt` — so is every statement
* `parseTokens?_program` — programs are accepted exactly, with the one tree that they have
-/

namespace Scriptlet.Parse

open Grammar

/-! ### Items behind separators -/

section Separated

variable {α β : Type} {kinds : List Kind} {f : α → Token → β → α} {item : Parse β} {a c : α}

theorem Loops.separated_stop {ts : List Token} (h : NextNot kinds ts) :
    Loops (separatedStep kinds f item) a ts a ts :=
  .stop (.bind (.left h) (.pure _ _))

theorem Loops.separated_go {sep : Token} {us rest after : List Token} {x : β}
    (hsep : sep.kind ∈ kinds) (hitem : Reads item (us ++ rest) x rest)
    (hrest : Loops (separatedStep kinds f item) (f a sep x) rest c after) :
    Loops (separatedStep kinds f item) a (sep :: (us ++ rest)) c after := by
  refine .go (.bind (.took hsep) (.bind hitem (.pure _ _))) ?_ hrest
  simp only [List.length_cons, List.length_append]
  omega

end Separated

section CommaSeparated

variable {α : Type} {item : Parse α} {I : List Token → α → Prop}
  (hitem : ∀ us a t rest, I us a → t.kind ∈ [Kind.comma, .rightParen] →
    Reads item (us ++ t :: rest) a (t :: rest))
include hitem

theorem loops_commaTail {us : List Token} {as items : List α} {closing : Token}
    {rest : List Token} (h : CommaTail I us as) (hclosing : closing.kind = .rightParen) :
    Loops (separatedStep [.comma] (fun items _ x => x :: items) item) items
      (us ++ closing :: rest) (as.reverse ++ items) (closing :: rest) := by
  induction h generalizing items with
  | nil => exact .separated_stop (.cons (by simp [hclosing]))
  | @cons comma us vs a as hcomma ha htail ih =>
    -- behind an item stands the next comma or the closing parenthesis
    have hread : Reads item (us ++ (vs ++ closing :: rest)) a (vs ++ closing :: rest) := by
      cases htail with
      | nil => exact hitem us a closing rest ha (by simp [hclosing])
      | cons hcomma' => exact hitem us a _ _ ha (by simp [hcomma'])
    have hloop := Loops.separated_go (List.mem_singleton.2 hcomma) hread (@ih (a :: items))
    simpa using hloop

theorem reads_commaSeparated {us : List Token} {as : List α} {closing : Token}
    {rest : List Token} (h : CommaList I us as) (hclosing : closing.kind = .rightParen) :
    Reads (commaSeparated item) (us ++ closing :: rest) as (closing :: rest) := by
  obtain ⟨us, vs, a, as, rfl, rfl, ha, htail⟩ := h
  have hread : Reads item (us ++ (vs ++ closing :: rest)) a (vs ++ closing :: rest) := by
    cases htail with
    | nil => exact hitem us a closing rest ha (by simp [hclosing])
    | cons hcomma => exact hitem us a _ _ ha (by simp [hcomma])
  rw [commaSeparated_eq, List.append_assoc]
  refine .bind hread (.bind (.repeated (loops_commaTail hitem htail hclosing)) ?_)
  simpa using Reads.pure (a :: as) (closing :: rest)

end CommaSeparated

theorem reads_listBefore_nil {α : Type} {items : Parse (List α)} {kind : Kind} {t : Token}
    {rest : List Token} (ht : t.kind = kind) :
    Reads (listBefore kind items) (t :: rest) [] (t :: rest) := by
  refine .bind (.nextIs kind _) ?_
  simpa [ht] using Reads.pure [] (t :: rest)

theorem reads_listBefore {α : Type} {items : Parse (List α)} {kind : Kind} {t : Token}
    {ts rest : List Token} {as : List α} (ht : t.kind ≠ kind) (h : Reads items (t :: ts) as rest) :
    Reads (listBefore kind items) (t :: ts) as rest := by
  refine .bind (.nextIs kind _) ?_
  simpa [ht] using h

/-! ### Expressions -/

/-- The kinds of tokens with which an operand chain of the given levels goes on. -/
def continuing (levels : List Level) : List Kind :=
  levels.flatMap (·.operators) ++ [.leftParen, .leftBracket]

/-- The kinds of tokens with which an expression goes on. -/
def expressionContinuing : List Kind := .equal :: continuing levels

theorem continuing_rankLevels (rank : Rank) :
    continuing (rankLevels rank) = rank.operators ++ continuing (tighterLevels rank) := by
  cases rank <;> rfl

theorem notMem_continuing_of_operator {rank : Rank} {kind : Kind} (h : kind ∈ rank.operators) :
    kind ∉ continuing (tighterLevels rank) := by
  revert kind
  cases rank <;> decide

/-- The parser reads an expression in front of anything that does not continue it. -/
def ReadsExpression (us : List Token) (e : Tree) : Prop :=
  ∀ d rest, NextNot expressionContinuing rest → Reads (assignment d) (us ++ rest) e rest

/-- The parser finds a phrase: a repetition is found together with what its loop goes on to do. -/
def Completes : ExprPhrase → List Token → Tree → Prop
  | .expression, us, e => ReadsExpression us e
  | .level rank, us, e => ∀ d rest, NextNot (continuing (rankLevels rank)) rest →
      Reads (binary d (rankLevels rank)) (us ++ rest) e rest
  | .operands rank left, us, e => ∀ d rest e' after,
      NextNot (continuing (tighterLevels rank)) rest →
      Loops (separatedStep rank.operators rank.build (binary d (tighterLevels rank)))
        e rest e' after →
      Loops (separatedStep rank.operators rank.build (binary d (tighterLevels rank)))
        left (us ++ rest) e' after
  | .unary, us, e => ∀ d rest, NextNot (continuing []) rest → Reads (unary d) (us ++ rest) e rest
  | .call, us, e => ∀ d rest e' after, Loops (trailer? (expression d)) e rest e' after →
      Reads (call (d + 1)) (us ++ rest) e' after
  | .suffixes callee, us, e => ∀ d rest e' after, Loops (trailer? (expression d)) e rest e' after →
      Loops (trailer? (expression d)) callee (us ++ rest) e' after
  | .arguments, us, t => ∃ args, t = .list args ∧ ((us = [] ∧ args = []) ∨
      CommaList (fun us e => ExprPhrase.expression.Derives us e ∧ ReadsExpression us e) us args)
  | .moreArguments, us, t => ∃ args, t = .list args ∧
      CommaTail (fun us e => ExprPhrase.expression.Derives us e ∧ ReadsExpression us e) us args
  | .primary, us, e => ∀ d rest, Reads (primary d) (us ++ rest) e rest

theorem ReadsExpression.reads {us : List Token} {e : Tree} (h : ReadsExpression us e) (d : Nat)
    {rest : List Token} (hrest : NextNot expressionContinuing rest) :
    Reads (expression d) (us ++ rest) e rest := by
  cases d with
  | zero => exact .throw
  | succ d => exact h d rest hrest

/-- An expression in front of a token that closes it. -/
theorem ReadsExpression.reads_cons {us : List Token} {e : Tree} (h : ReadsExpression us e) (d : Nat)
    {t : Token} {rest : List Token}
    (ht : t.kind ∈ [Kind.comma, .rightParen, .rightBracket, .semicolon]) :
    Reads (expression d) (us ++ t :: rest) e (t :: rest) := by
  refine h.reads d (.cons ?_)
  -- none of these kinds continues an expression
  revert ht
  cases t.kind <;> decide

theorem Completes.reads_operand {rank : Rank} {us rest : List Token} {e : Tree}
    (h : Completes rank.operand us e) (d : Nat)
    (hrest : NextNot (continuing (tighterLevels rank)) rest) :
    Reads (binary d (tighterLevels rank)) (us ++ rest) e rest := by
  cases rank with
  -- below the last level stands a unary expression, one step deeper
  | factor =>
    cases d with
    | zero => exact .throw
    | succ d => exact h d rest hrest
  | _ => exact h d rest hrest

theorem loops_trailer_stop {d : Nat} {e : Tree} {rest : List Token}
    (h : NextNot (continuing []) rest) : Loops (trailer? (expression d)) e rest e rest :=
  .stop (.bind (.left h) (.pure _ _))

theorem Completes.reads_call {us rest : List Token} {e : Tree} (h : Completes .call us e) (d : Nat)
    (hrest : NextNot (continuing []) rest) : Reads (call d) (us ++ rest) e rest := by
  cases d with
  | zero => exact .throw
  | succ d => exact h d rest e rest (loops_trailer_stop hrest)

/-- Primary expressions start with a token that decides what they are. -/
theorem primary_starts {us : List Token} {e : Tree} (h : ExprPhrase.primary.Derives us e) :
    ∃ t vs, us = t :: vs ∧ t.kind ∈ primaryKinds := by
  cases h with
  | falseLiteral ht | trueLiteral ht | nilLiteral ht | name ht | grouping ht =>
    exact ⟨_, _, rfl, by simp [ht, primaryKinds]⟩
  | literal ht =>
    refine ⟨_, _, rfl, ?_⟩
    simp only [List.mem_cons, List.not_mem_nil, or_false] at ht
    rcases ht with ht | ht <;> simp [ht, primaryKinds]

/-- No call starts with a unary operator. -/
theorem nextNot_of_call {us : List Token} {e : Tree} (h : ExprPhrase.call.Derives us e)
    (rest : List Token) : NextNot [.bang, .minus] (us ++ rest) := by
  cases h with
  | call hprimary _ =>
    obtain ⟨t, vs, rfl, ht⟩ := primary_starts hprimary
    refine .cons ?_
    revert ht
    cases t.kind <;> decide

/-- Behind the first operand of a level stands an operator of the level, or nothing. -/
theorem nextNot_of_operands {rank : Rank} {left e : Tree} {us rest : List Token}
    (h : (ExprPhrase.operands rank left).Derives us e)
    (hrest : NextNot (continuing (tighterLevels rank)) rest) :
    NextNot (continuing (tighterLevels rank)) (us ++ rest) := by
  cases h with
  | noOperand => exact hrest
  | operand hop => exact .cons (notMem_continuing_of_operator hop)

theorem completes_single {t : Token} {e : Tree} (ht : t.kind ∈ primaryKinds)
    (h : ∀ p ts, Reads (match t.kind with
      | .falseKey => return .literal (.atom (.bool false))
      | .trueKey => return .literal (.atom (.bool true))
      | .nilKey => return .literal .null
      | .identifier => return .varRef t
      | .leftParen => do
        let e ← p
        let _ ← expect .rightParen .parenAfterExpression
        return .grouping e
      | _ => return .literal (.ofJson t.literal)) ts e ts) : Completes .primary [t] e := by
  intro d rest
  cases d with
  | zero => exact .throw
  | succ d => exact .bind (.took ht) (h (expression d) rest)

theorem completes_name {t : Token} (ht : t.kind = .identifier) :
    Completes .primary [t] (.varRef t) := by
  refine completes_single (by simp [ht, primaryKinds]) fun p ts => ?_
  simpa only [ht] using Reads.pure (Tree.varRef t) ts

theorem completes_call {us vs : List Token} {callee e : Tree} (h : Completes .primary us callee)
    (hrest : Completes (.suffixes callee) vs e) : Completes .call (us ++ vs) e := by
  intro d rest e' after hloop
  rw [List.append_assoc]
  exact .bind (h d _) (.repeated (hrest d rest e' after hloop))

/-- One operand alone is a chain of every level. -/
theorem reads_binary_of_call {us rest : List Token} {e : Tree} (h : Completes .call us e)
    (hstart : NextNot [.bang, .minus] (us ++ rest)) (hrest : NextNot (continuing levels) rest)
    (d : Nat) : Reads (binary d levels) (us ++ rest) e rest := by
  have hunary (d : Nat) : Reads (unary d) (us ++ rest) e rest := by
    cases d with
    | zero => exact .throw
    | succ d => exact .bind (.left hstart) (h.reads_call d (hrest.mono (by decide)))
  -- the levels are gone through from the outermost one; at each, no operator follows
  suffices hall : ∀ ls : List Level, continuing ls ⊆ continuing levels →
      ∀ d, Reads (binary d ls) (us ++ rest) e rest from hall levels (fun _ h => h) d
  intro ls
  induction ls with
  | nil =>
    rintro - (_ | d)
    · exact .throw
    · exact hunary d
  | cons level tighter ih =>
    rintro hsub (_ | d)
    · exact .throw
    · have hops : level.operators ⊆ continuing levels := fun k hk => hsub (by simp [continuing, hk])
      have htighter : continuing tighter ⊆ continuing levels := fun k hk => hsub (by
        simp only [continuing, List.flatMap_cons, List.append_assoc] at hk ⊢
        exact List.mem_append_right _ hk)
      exact .bind (ih htighter d) (.repeated (.separated_stop (hrest.mono hops)))

theorem reads_assignTo {left value e : Tree} (h : Assigned value left e)
    (equalsOn ts : List Token) : Reads (assignTo left value equalsOn) ts e ts := by
  cases h <;> exact .pure _ ts

/-- A left side that turns out to be a target, and a value behind the equals sign. -/
theorem reads_assignment {before mid after : List Token} {equals : Token} {left value e : Tree}
    (hleft : ∀ d, Reads (binary d levels) before left (equals :: mid))
    (hequals : equals.kind = .equal) (hvalue : ∀ d, Reads (assignment d) mid value after)
    (h : Assigned value left e) (d : Nat) : Reads (assignment d) before e after := by
  cases d with
  | zero => exact .throw
  | succ d =>
    refine .bind (hleft d) (.get_bind fun cs n => ?_)
    refine .bind (.took (List.mem_singleton.2 hequals)) ?_
    exact .bind (hvalue d) (reads_assignTo h _ after)

theorem reads_callArguments {us rest : List Token} {args : List Tree} {closing : Token} (d : Nat)
    (h : Completes .arguments us (.list args)) (hclosing : closing.kind = .rightParen) :
    Reads (callArguments (expression d)) (us ++ closing :: rest) (closing, args) rest := by
  rw [callArguments_eq]
  -- without the closing parenthesis, which follows in both cases
  suffices hargs : Reads (listBefore .rightParen (commaSeparated (expression d)))
      (us ++ closing :: rest) args (closing :: rest) from
    .bind hargs (.bind (.expect _ hclosing) (.pure _ _))
  obtain ⟨args', heq, hargs⟩ := h
  cases heq
  rcases hargs with ⟨rfl, rfl⟩ | hargs
  · exact reads_listBefore_nil hclosing
  · have hread : Reads (commaSeparated (expression d)) (us ++ closing :: rest) args
        (closing :: rest) :=
      reads_commaSeparated (fun us e t rest he ht => he.2.reads_cons d (by grind)) hargs hclosing
    -- arguments start with an expression, so the closing parenthesis is not next
    obtain ⟨us, vs, arg, rest', rfl, rfl, ⟨harg, -⟩, -⟩ := hargs
    obtain ⟨t, ws, rfl, ht⟩ := harg.starts trivial
    refine reads_listBefore ?_ hread
    intro hk
    rw [hk] at ht
    exact absurd ht (by decide)

/-- The parser finds every expression of the grammar. -/
theorem completes {phrase : ExprPhrase} {us : List Token} {e : Tree} (h : phrase.Derives us e) :
    Completes phrase us e := by
  -- The induction is on the derivation; depth and following tokens stay general, since the phrases
  -- inside are read at other depths and in front of other tokens.
  induction h with
  | @assign name equals us value hname hequals _ ih =>
    intro d rest hrest
    have hcall : Completes .call [name] (.varRef name) :=
      completes_call (completes_name hname) fun _ _ _ _ h => h
    refine reads_assignment (fun d => ?_) hequals (fun d => ih d rest hrest) (.name name) d
    -- the name is read as an operand chain of its own
    refine reads_binary_of_call hcall (.cons ?_) (.cons ?_) d
    · rw [hname]
      decide
    · rw [hequals]
      decide
  | @assignIndex opening closing equals us vs ws target index value htarget hopening hindex hclosing
      hequals _ ih ihindex ihvalue =>
    intro d rest hrest
    -- the indexing is one more round of the loop that reads the target
    have hcall : Completes .call (us ++ opening :: (vs ++ [closing]))
        (.index target closing index) := by
      intro d rest e' after hloop
      have hindex : Reads (expression d) (vs ++ closing :: rest) index (closing :: rest) :=
        ihindex.reads_cons d (by simp [hclosing])
      have hround : Reads (trailer? (expression d) target) (opening :: (vs ++ closing :: rest))
          (some (.index target closing index)) rest := by
        refine .bind (.took (by simp [hopening])) ?_
        simp only [hopening, reduceCtorEq, if_false]
        exact .bind hindex (.bind (.expect _ hclosing) (.pure _ _))
      have hshorter : rest.length < (opening :: (vs ++ closing :: rest)).length := by
        simp only [List.length_cons, List.length_append]
        omega
      have hread := ih d _ e' after (.go hround hshorter hloop)
      simpa using hread
    have hleft (d : Nat) : Reads (binary d levels)
        ((us ++ opening :: (vs ++ [closing])) ++ equals :: (ws ++ rest))
        (.index target closing index) (equals :: (ws ++ rest)) := by
      refine reads_binary_of_call hcall ?_ (.cons ?_) d
      · rw [List.append_assoc]
        exact nextNot_of_call htarget _
      · rw [hequals]
        decide
    have := reads_assignment hleft hequals (fun d => ihvalue d rest hrest)
      (.index target closing index) d
    simpa using this
  | plain _ ih =>
    rintro (_ | d) rest hrest
    · exact .throw
    · refine .bind (ih d rest (hrest.mono (List.subset_cons_self _ _))) (.get_bind fun cs n => ?_)
      refine .bind (.left (hrest.mono ?_)) (.pure _ _)
      exact fun k hk => List.mem_singleton.1 hk ▸ List.mem_cons_self
  -- behind the first operand its loop goes on with the others, and ends in front of what follows
  | @level rank us vs left e _ hoperands ih ihs =>
    rintro (_ | d) rest hrest
    · exact .throw
    · rw [continuing_rankLevels] at hrest
      have htighter : NextNot (continuing (tighterLevels rank)) rest :=
        hrest.mono (List.subset_append_right _ _)
      rw [List.append_assoc]
      refine .bind (ih.reads_operand d (nextNot_of_operands hoperands htighter)) ?_
      refine .repeated (ihs d rest e rest htighter (.separated_stop (hrest.mono ?_)))
      exact List.subset_append_left _ _
  | noOperand => exact fun _ _ _ _ _ h => h
  | operand hop _ hoperands ih ihs =>
    intro d rest e' after hrest hloop
    rw [List.cons_append, List.append_assoc]
    refine .separated_go hop (ih.reads_operand d (nextNot_of_operands hoperands hrest)) ?_
    exact ihs d rest e' after hrest hloop
  | unaryOperator hop _ ih =>
    rintro (_ | d) rest hrest
    · exact .throw
    · exact .bind (.took hop) (.bind (ih d rest hrest) (.pure _ _))
  | unaryCall h ih =>
    rintro (_ | d) rest hrest
    · exact .throw
    · exact .bind (.left (nextNot_of_call h rest)) (ih.reads_call d hrest)
  | call _ _ ih ihs => exact completes_call ih ihs
  | noSuffix => exact fun _ _ _ _ h => h
  | @callSuffix opening closing us vs callee e args hopening _ hclosing _ ih ihs =>
    intro d rest e' after hloop
    rw [List.cons_append, List.append_assoc, List.cons_append]
    refine .go (.bind (.took (by simp [hopening])) ?_) ?_ (ihs d rest e' after hloop)
    · simp only [hopening, if_true]
      exact .bind (reads_callArguments d ih hclosing) (.pure _ _)
    · simp only [List.length_cons, List.length_append]
      omega
  | @indexSuffix opening closing us vs callee index e hopening _ hclosing _ ih ihs =>
    intro d rest e' after hloop
    rw [List.cons_append, List.append_assoc, List.cons_append]
    refine .go (.bind (.took (by simp [hopening])) ?_) ?_ (ihs d rest e' after hloop)
    · simp only [hopening, reduceCtorEq, if_false]
      exact .bind (ih.reads_cons d (by simp [hclosing])) (.bind (.expect _ hclosing) (.pure _ _))
    · simp only [List.length_cons, List.length_append]
      omega
  | noArguments => exact ⟨[], rfl, .inl ⟨rfl, rfl⟩⟩
  | arguments h _ ih ihs =>
    obtain ⟨args, heq, htail⟩ := ihs
    cases heq
    exact ⟨_, rfl, .inr ⟨_, _, _, _, rfl, rfl, ⟨h, ih⟩, htail⟩⟩
  | lastArgument => exact ⟨[], rfl, .nil⟩
  | moreArguments hcomma h _ ih ihs =>
    obtain ⟨args, heq, htail⟩ := ihs
    cases heq
    exact ⟨_, rfl, .cons hcomma ⟨h, ih⟩ htail⟩
  | falseLiteral ht | trueLiteral ht | nilLiteral ht =>
    refine completes_single (by simp [ht, primaryKinds]) fun p ts => ?_
    simpa only [ht] using Reads.pure _ ts
  -- the kinds of numbers and strings take the same branch
  | literal ht =>
    simp only [List.mem_cons, List.not_mem_nil, or_false] at ht
    refine completes_single (by rcases ht with ht | ht <;> simp [ht, primaryKinds]) fun p ts => ?_
    rcases ht with ht | ht <;> simpa only [ht] using Reads.pure _ ts
  | name ht => exact completes_name ht
  | grouping hopening _ hclosing ih =>
    rintro (_ | d) rest
    · exact .throw
    · rw [List.cons_append, List.append_assoc]
      refine .bind (.took (by simp [hopening, primaryKinds])) ?_
      simp only [hopening]
      exact .bind (ih.reads_cons d (by simp [hclosing])) (.bind (.expect _ hclosing) (.pure _ _))

theorem reads_expression {us : List Token} {e : Tree} (h : ExprPhrase.expression.Derives us e)
    (d : Nat) {t : Token} {rest : List Token}
    (ht : t.kind ∈ [Kind.comma, .rightParen, .rightBracket, .semicolon]) :
    Reads (expression d) (us ++ t :: rest) e (t :: rest) :=
  ReadsExpression.reads_cons (completes h) d ht

/-! ### Statements -/

theorem reads_optionalAfter_none {α : Type} {item : Parse α} {kind : Kind} {absent : α}
    {ts : List Token} (h : NextNot [kind] ts) :
    Reads (optionalAfter kind absent item) ts absent ts :=
  .bind (.left h) (.pure _ _)

theorem reads_optionalAfter_some {α : Type} {item : Parse α} {kind : Kind} {absent a : α}
    {t : Token} {mid after : List Token} (ht : t.kind = kind) (h : Reads item mid a after) :
    Reads (optionalAfter kind absent item) (t :: mid) a after :=
  .bind (.took (List.mem_singleton.2 ht)) h

theorem reads_optionalBefore {us : List Token} {e : Tree} {kind : Kind} {t : Token}
    {rest : List Token} (d : Nat) (h : OptionalExpr us e) (ht : t.kind = kind)
    (hkind : kind ∈ [Kind.rightParen, .semicolon]) :
    Reads (optionalBefore kind (expression d)) (us ++ t :: rest) e (t :: rest) := by
  subst ht
  refine .bind (.nextIs t.kind _) ?_
  cases h with
  | absent => simpa using Reads.pure Tree.null (t :: rest)
  | present he =>
    have hread : Reads (expression d) (us ++ t :: rest) e (t :: rest) :=
      reads_expression he d (by grind)
    obtain ⟨t', vs, rfl, ht'⟩ := he.starts trivial
    -- an expression does not start with the token that may stand in its place
    have hne : t'.kind ≠ t.kind := by
      intro heq
      rw [heq] at ht'
      revert hkind ht'
      cases t.kind <;> decide
    simpa [hne] using hread

theorem reads_varDeclaration {key : Token} {us : List Token} {t : Tree} (h : VarDecl (key :: us) t)
    (d : Nat) (rest : List Token) :
    Reads (varDeclaration (expression d)) (us ++ rest) t rest := by
  rw [varDeclaration_eq]
  cases h with
  | bare _ hname hsemicolon =>
    refine .bind (.expect _ hname) (.bind (reads_optionalAfter_none (.cons ?_)) ?_)
    · simp [hsemicolon]
    · exact .bind (.expect _ hsemicolon) (.pure _ _)
  | initialized _ hname hequals he hsemicolon =>
    rw [List.cons_append, List.cons_append, List.append_assoc]
    refine .bind (.expect _ hname) (.bind (reads_optionalAfter_some hequals
      (reads_expression he d (by simp [hsemicolon]))) ?_)
    exact .bind (.expect _ hsemicolon) (.pure _ _)

theorem reads_expressionStatement {us : List Token} {e : Tree} {semicolon : Token} (d : Nat)
    (h : ExprPhrase.expression.Derives us e) (hsemicolon : semicolon.kind = .semicolon)
    (rest : List Token) :
    Reads (expressionStatement (expression d)) (us ++ semicolon :: rest) (.exprStmt e) rest :=
  .bind (reads_expression h d (by simp [hsemicolon]))
    (.bind (.expect _ hsemicolon) (.pure _ _))

theorem reads_forInitializer {us : List Token} {t : Tree} (h : Initializer us t) (d : Nat)
    (rest : List Token) : Reads (forInitializer (expression d)) (us ++ rest) t rest := by
  cases h with
  | declaration h =>
    obtain ⟨key, vs, rfl, hkey⟩ := h.starts
    refine .bind (.took (by simp [hkey])) ?_
    simp only [hkey, reduceCtorEq, if_false]
    exact reads_varDeclaration h d rest
  | expression he hsemicolon =>
    have hread := reads_expressionStatement d he hsemicolon rest
    obtain ⟨t', vs, rfl, ht'⟩ := he.starts trivial
    rw [List.append_assoc]
    -- an expression starts neither with `var` nor with a semicolon
    refine .bind (.left (.cons ?_)) hread
    revert ht'
    cases t'.kind <;> decide
  | empty hsemicolon =>
    refine .bind (.took (by simp [hsemicolon])) ?_
    simp only [hsemicolon, if_true]
    exact .pure _ _

theorem reads_parameters {us names rest : List Token} {closing : Token} (h : Parameters us names)
    (hclosing : closing.kind = .rightParen) :
    Reads parameters (us ++ closing :: rest) names rest := by
  rw [parameters_eq]
  suffices hnames : Reads (listBefore .rightParen
      (commaSeparated (expect .identifier .parameterName))) (us ++ closing :: rest) names
      (closing :: rest) from .bind hnames (.bind (.expect _ hclosing) (.pure _ _))
  cases h with
  | none => exact reads_listBefore_nil hclosing
  | some h =>
    have hname (us : List Token) (name t : Token) (rest : List Token) (h : Name us name)
        (_ : t.kind ∈ [Kind.comma, .rightParen]) :
        Reads (expect .identifier .parameterName) (us ++ t :: rest) name (t :: rest) := by
      rw [h.1]
      exact .expect _ h.2
    have hread : Reads (commaSeparated (expect .identifier .parameterName)) (us ++ closing :: rest)
        names (closing :: rest) :=
      reads_commaSeparated hname h hclosing
    obtain ⟨us, vs, name, names, rfl, rfl, ⟨rfl, hname⟩, -⟩ := h
    exact reads_listBefore (by simp [hname]) hread

/-- The parser finds a phrase: a statement that ends in a conditional without `else` only where
none follows, declarations as rounds of the loop that collects them. -/
def CompletesStmt : StmtPhrase → List Token → Tree → Prop
  | .declarations, us, t => ∃ ss, t = .list ss ∧ ∀ d stop rest acc n, (us ++ rest).length ≤ n →
      (∀ kind ∈ declarationStarts, stop kind = false) →
      (∀ t ∈ rest.head?, stop t.kind ∧ t.kind ≠ .elseKey) →
      Gets (iterate (declarationStep stop (declaration d)) n acc) (us ++ rest)
        (ss.reverse ++ acc) rest
  | .declaration, us, t => ∀ d rest, NextNot [.elseKey] rest →
      Gets (declaration d) (us ++ rest) (some t) rest
  | .statement dangling, us, t => ∀ d rest, (dangling = true → NextNot [.elseKey] rest) →
      Gets (statement d) (us ++ rest) t rest
  | .block, us, t => ∃ opening vs ss, us = opening :: vs ∧ opening.kind = .leftBrace ∧
      t = .list ss ∧ ∀ d rest, Gets (block d) (vs ++ rest) ss rest

theorem steady_declarationStep (stop : Kind → Bool) (d : Nat) (acc : List Tree) :
    Steady (declarationStep stop (declaration d) acc) := by
  refine .bind Ensures.nextKind?.steady ?_
  rintro (_ | kind)
  · exact .pure _
  · refine Ensures.ite (fun _ => Steady.pure _) fun _ => ?_
    refine Steady.bind (ensures_declaration d).steady ?_
    rintro (_ | s) <;> exact .pure _

/-- The continuation behind the first branch of a conditional. -/
theorem steady_elseBranch (d : Nat) (c s : Tree) :
    Steady (do
      let other ← optionalAfter .elseKey .null (statement d)
      return Tree.ifStmt c s other) :=
  .bind (ensures_optionalAfter .elseKey .null (ensures_statement d)).steady fun _ => .pure _

/-- Keys of statements decide which statement follows. -/
theorem gets_statement {key : Token} {ts after : List Token} {t : Tree} (d : Nat)
    (hkey : key.kind ∈ statementKinds)
    (h : ∀ d, Gets (match key.kind with
      | .printKey => printStatement (expression d)
      | .ifKey => ifStatement (expression d) (statement d)
      | .whileKey => whileStatement (expression d) (statement d)
      | .forKey => forStatement (expression d) (statement d)
      | .returnKey => returnStatement key (expression d)
      | _ => do return .block (.list (← block d))) ts t after) :
    Gets (statement d) (key :: ts) t after := by
  cases d with
  | zero => exact Reads.throw.gets
  | succ d => exact .bind_reads (.took hkey) (h d)

theorem CompletesStmt.gets_declarationsUntil {us rest : List Token} {ss : List Tree}
    {stop : Kind → Bool} (h : CompletesStmt .declarations us (.list ss)) (d : Nat)
    (hstarts : ∀ kind ∈ declarationStarts, stop kind = false)
    (hstop : ∀ t ∈ rest.head?, stop t.kind ∧ t.kind ≠ .elseKey) :
    Gets (declarationsUntil stop (declaration d)) (us ++ rest) ss rest := by
  obtain ⟨ss', heq, hloop⟩ := h
  cases heq
  rw [declarationsUntil_eq]
  have hall := hloop d stop rest [] _ (Nat.le_refl _) hstarts hstop
  refine Gets.bind (.repeated hall) (fun _ => .pure _) ?_
  simpa using (Reads.pure ss rest).gets

/-- The parser finds every statement of the grammar. -/
theorem completesStmt {phrase : StmtPhrase} {us : List Token} {t : Tree}
    (h : phrase.Derives .nearest us t) : CompletesStmt phrase us t := by
  induction h with
  | noDeclaration =>
    refine ⟨[], rfl, fun d stop rest acc n _ _ hstop => ?_⟩
    cases n with
    | zero => exact (Reads.pure _ _).gets
    | succ n =>
      refine .bind_reads (a := none) (.bind (.nextKind? _) ?_) (Reads.pure _ _).gets
      cases rest with
      | nil => exact .pure _ _
      | cons t rest => simpa [(hstop t rfl).1] using Reads.pure none (t :: rest)
  -- the loop takes the first declaration and does with the others what it does with them alone
  | @declarations us vs s ss hdecl hdecls ih ihs =>
    obtain ⟨ss', heq, ihs⟩ := ihs
    cases heq
    refine ⟨s :: ss, rfl, fun d stop rest acc n hn hstarts hstop => ?_⟩
    obtain ⟨t, us, rfl, ht⟩ := hdecl.starts rfl
    -- a declaration never starts with `else`
    have hnext : NextNot [.elseKey] (vs ++ rest) := by
      cases hdecls with
      | noDeclaration => exact fun t ht hmem => (hstop t ht).2 (List.mem_singleton.1 hmem)
      | declarations hdecl' _ =>
        obtain ⟨t', us', rfl, ht'⟩ := hdecl'.starts rfl
        refine .cons ?_
        revert ht'
        cases t'.kind <;> decide
    cases n with
    | zero => simp at hn
    | succ n =>
      have hstep : Gets (declarationStep stop (declaration d) acc) (t :: us ++ vs ++ rest)
          (some (s :: acc)) (vs ++ rest) := by
        refine .bind_reads (.nextKind? _) ?_
        simp only [List.cons_append, List.head?_cons, Option.map_some, hstarts t.kind ht,
          Bool.false_eq_true, if_false]
        refine Gets.bind (a := some s) (by simpa using ih d _ hnext) ?_ (Reads.pure _ _).gets
        rintro (_ | _) <;> exact .pure _
      refine .bind hstep ?_ ?_
      · rintro (_ | b)
        · exact .pure _
        · exact .iterate (steady_declarationStep stop d) n b
      · have := ihs d stop rest (s :: acc) n (by simp at hn ⊢; omega) hstarts hstop
        simpa using this
  | variableDeclaration h =>
    rintro (_ | d) rest -
    · exact Reads.throw.gets
    · obtain ⟨key, vs, rfl, hkey⟩ := h.starts
      refine .recover (.bind_reads (.took (by simp [hkey])) ?_)
      simp only [hkey, reduceCtorEq, if_false]
      exact (reads_varDeclaration h d rest).gets
  | function hkey hname hopening hparams hclosing _ ih =>
    obtain ⟨brace, ws, body, rfl, hbrace, heq, ih⟩ := ih
    cases heq
    rintro (_ | d) rest -
    · exact Reads.throw.gets
    · simp only [List.cons_append, List.append_assoc]
      refine .recover (.bind_reads (.took (by simp [hkey])) ?_)
      simp only [hkey, if_true]
      refine .bind_reads (.expect _ hname) (.bind_reads (.expect _ hopening) ?_)
      refine .bind_reads (reads_parameters hparams hclosing) ?_
      exact .bind_reads (.expect _ hbrace) (ih d rest).map
  | @statement dangling us s h ih =>
    rintro (_ | d) rest hrest
    · exact Reads.throw.gets
    · obtain ⟨t, vs, rfl, ht⟩ := h.starts rfl
      refine .recover (.bind_reads (.left (.cons ?_)) (ih d rest fun _ => hrest))
      revert ht
      cases t.kind <;> decide
  | print hkey he hsemicolon =>
    intro d rest _
    simp only [List.cons_append, List.append_assoc]
    refine gets_statement d (by simp [hkey, statementKinds]) fun d => ?_
    simp only [hkey]
    refine Reads.gets (.bind (reads_expression he d (by simp [hsemicolon])) ?_)
    exact .bind (.expect _ hsemicolon) (.pure _ _)
  -- the statement dangles, so that no `else` follows its branch either
  | ifThen hkey hopening hc hclosing _ ih =>
    intro d rest hrest
    simp only [List.cons_append, List.append_assoc]
    refine gets_statement d (by simp [hkey, statementKinds]) fun d => ?_
    simp only [hkey, ifStatement_eq]
    refine .bind_reads (.expect _ hopening) (.bind_reads (reads_expression hc d ?_) ?_)
    · simp [hclosing]
    · refine .bind_reads (.expect _ hclosing) ?_
      refine .bind (ih d rest fun _ => hrest rfl) (steady_elseBranch d _) ?_
      exact Gets.map (reads_optionalAfter_none (hrest rfl)).gets
  | ifElse hkey hopening hc hclosing _ hnear hother _ ih ih' =>
    intro d rest hrest
    simp only [List.cons_append, List.append_assoc]
    refine gets_statement d (by simp [hkey, statementKinds]) fun d => ?_
    simp only [hkey, ifStatement_eq]
    refine .bind_reads (.expect _ hopening) (.bind_reads (reads_expression hc d ?_) ?_)
    · simp [hclosing]
    · refine .bind_reads (.expect _ hclosing) ?_
      refine .bind (ih d _ ?_) (steady_elseBranch d _) ?_
      -- the branch in front of the `else` does not dangle, so it may be followed by one
      · rw [hnear rfl]
        exact fun hfalse => by cases hfalse
      · refine Gets.map (.bind_reads (.took (List.mem_singleton.2 hother)) ?_)
        exact ih' d rest hrest
  | whileLoop hkey hopening hc hclosing _ ih =>
    intro d rest hrest
    simp only [List.cons_append, List.append_assoc]
    refine gets_statement d (by simp [hkey, statementKinds]) fun d => ?_
    simp only [hkey]
    refine .bind_reads (.expect _ hopening) (.bind_reads (reads_expression hc d ?_) ?_)
    · simp [hclosing]
    · exact .bind_reads (.expect _ hclosing) (ih d rest hrest).map
  | forLoop hkey hopening hi hc hsemicolon hn hclosing _ ih =>
    intro d rest hrest
    simp only [List.cons_append, List.append_assoc]
    refine gets_statement d (by simp [hkey, statementKinds]) fun d => ?_
    simp only [hkey]
    refine .bind_reads (.expect _ hopening) (.bind_reads (reads_forInitializer hi d _) ?_)
    refine .bind_reads (reads_optionalBefore d hc hsemicolon (by decide)) ?_
    refine .bind_reads (.expect _ hsemicolon) ?_
    refine .bind_reads (reads_optionalBefore d hn hclosing (by decide)) ?_
    exact .bind_reads (.expect _ hclosing) (ih d rest hrest).map
  | returnValue hkey he hsemicolon =>
    intro d rest _
    simp only [List.cons_append, List.append_assoc]
    refine gets_statement d (by simp [hkey, statementKinds]) fun d => ?_
    simp only [hkey]
    refine Reads.gets (.bind (reads_optionalBefore d he hsemicolon (by decide)) ?_)
    exact .bind (.expect _ hsemicolon) (.pure _ _)
  | blockStatement _ ih =>
    obtain ⟨brace, ws, body, rfl, hbrace, rfl, ih⟩ := ih
    intro d rest _
    refine gets_statement d (by simp [hbrace, statementKinds]) fun d => ?_
    simp only [hbrace]
    exact (ih d rest).map
  | expression he hsemicolon =>
    rintro (_ | d) rest -
    · exact Reads.throw.gets
    · rw [List.append_assoc]
      have hread := reads_expressionStatement d he hsemicolon rest
      obtain ⟨t, vs, rfl, ht⟩ := he.starts trivial
      refine .bind_reads (.left (.cons ?_)) hread.gets
      revert ht
      cases t.kind <;> decide
  | block hopening _ hclosing ih =>
    obtain ⟨ss, rfl, -⟩ := id ih
    refine ⟨_, _, ss, rfl, hopening, rfl, ?_⟩
    rintro (_ | d) rest
    · exact Reads.throw.gets
    · rw [List.append_assoc]
      refine Gets.bind (ih.gets_declarationsUntil d (by decide) (by simp [hclosing])) ?_ ?_
      · exact fun _ => .bind (Ensures.expect _ _).steady fun _ => .pure _
      · exact Reads.gets (.bind (.expect _ hclosing) (.pure _ _))

theorem gets_program {ts : List Token} {ss : List Tree} (h : Program .nearest ts ss) (d : Nat) :
    Gets (program d) ts ss [] := by
  -- a program is followed by nothing, where no `else` can stand
  have hgets : Gets (program d) (ts ++ []) ss [] :=
    (completesStmt h).gets_declarationsUntil d (fun _ _ => rfl) nofun
  rwa [List.append_nil] at hgets

/-! ### Programs -/

/-- A program as a whole never aborts. -/
theorem neverAborts_program (d : Nat) : NeverAborts (program (d + 1)) := by
  have hstep (acc : List Tree) :
      NeverAborts (declarationStep (fun _ => false) (declaration (d + 1)) acc) := by
    refine .bind .nextKind? ?_
    rintro (_ | kind)
    · exact .pure _
    · refine .bind (.recover _) ?_
      rintro (_ | s) <;> exact .pure _
  exact .bind (.repeated hstep []) fun _ => .pure _

end Parse

open Grammar Parse

/-- What is parsed without a complaint is a program in which every `else` belongs to the nearest
conditional, and the statements are those of the program. -/
theorem program_of_parseBody {d : Nat} {ts : List Token} {ss : List Tree}
    (h : parseBody (d + 1) ts = (ss, [])) : Program .nearest ts ss := by
  obtain ⟨ss', s', hrun⟩ := neverAborts_program d (.start ts)
  rw [parseBody, hrun] at h
  obtain ⟨rfl, hnone⟩ := Prod.mk.inj h
  exact ((ensures_program (d + 1)).ok hrun (List.reverse_eq_nil_iff.1 hnone)).1

/-- A program is parsed without a complaint, unless there is one about the nesting. -/
theorem parseBody_of_program {d : Nat} {ts : List Token} {ss : List Tree}
    (h : Program .nearest ts ss)
    (hdepth : ∀ c ∈ (parseBody (d + 1) ts).2, c.cause ≠ .nesting) :
    parseBody (d + 1) ts = (ss, []) := by
  obtain ⟨ss', s', hrun⟩ := neverAborts_program d (.start ts)
  rw [parseBody, hrun] at hdepth ⊢
  rcases gets_program h (d + 1) [] 0 with hgets | hout
  · cases hrun.symm.trans hgets
    rfl
  · change RunsOut (program (d + 1) (.start ts)) at hout
    rw [hrun] at hout
    obtain ⟨c, hc, hcause⟩ := hout
    exact absurd hcause (hdepth c (List.mem_reverse.2 hc))

theorem parseTokens?_append {ts : List Token} {eof : Token} (hts : ∀ t ∈ ts, t.kind ≠ .eof)
    (heof : eof.kind = .eof) :
    parseTokens? (ts ++ [eof]) = some
      { statements := (parseBody depthLimit ts).1
        diagnostics := (parseBody depthLimit ts).2.map (·.diagnostic eof) } := by
  have hbody : (ts ++ [eof]).takeWhile (·.kind ≠ .eof) = ts := by
    rw [List.takeWhile_append_of_pos (by simpa using hts)]
    simp [heof]
  simp only [parseTokens?, hbody]
  simp [heof]

/-- The parser accepts its grammar exactly, and builds the trees that the grammar prescribes: as
long as there is no complaint about the nesting, there is none at all if and only if the tokens are
a program, and then the statements are the only ones that the program has when every `else` belongs
to the nearest conditional. -/
theorem parseTokens?_program (ts : List Token) (eof : Token) (hts : ∀ t ∈ ts, t.kind ≠ .eof)
    (heof : eof.kind = .eof) :
    ∃ parsed, parseTokens? (ts ++ [eof]) = some parsed ∧
      ((∀ d ∈ parsed.diagnostics, d.message ≠ Cause.nesting.message) →
        (parsed.diagnostics = [] ↔ ∃ statements, Program .any ts statements) ∧
        (parsed.diagnostics = [] →
          ∀ statements, Program .nearest ts statements ↔ statements = parsed.statements)) := by
  refine ⟨_, parseTokens?_append hts heof, fun hdepth => ?_⟩
  -- a complaint about the nesting would show up as a diagnostic with its message
  have hnesting : ∀ c ∈ (parseBody (9999 + 1) ts).2, c.cause ≠ .nesting := by
    intro c hc hcause
    exact hdepth _ (List.mem_map_of_mem hc) (congrArg Cause.message hcause)
  have hfound {ss : List Tree} (h : Program .nearest ts ss) :
      parseBody depthLimit ts = (ss, []) := parseBody_of_program h hnesting
  have hsound (h : (parseBody depthLimit ts).2 = []) :
      Program .nearest ts (parseBody depthLimit ts).1 := program_of_parseBody (Prod.ext rfl h)
  simp only [List.map_eq_nil_iff]
  refine ⟨⟨fun h => ?_, ?_⟩, fun h ss => ⟨fun hss => ?_, ?_⟩⟩
  · exact ⟨_, (hsound h).any⟩
  · rintro ⟨ss, hss⟩
    -- every program has a tree in which each `else` belongs to the nearest conditional
    obtain ⟨ss', hss'⟩ := hss.exists_nearest
    rw [hfound hss']
  · rw [hfound hss]
  · rintro rfl
    exact hsound h

/-- `if (a) if (b) print nil; else c;` -/
def danglingElse : List Token :=
  [(.ifKey, "if"), (.leftParen, "("), (.identifier, "a"), (.rightParen, ")"), (.ifKey, "if"),
    (.leftParen, "("), (.identifier, "b"), (.rightParen, ")"), (.printKey, "print"),
    (.nilKey, "nil"), (.semicolon, ";"), (.elseKey, "else"), (.identifier, "c"),
    (.semicolon, ";")].map fun (kind, lexeme) => .make kind lexeme .null 1

/-- The `else` has one place, though the bare grammar leaves it two. -/
theorem parseTokens?_danglingElse :
    (∀ t ∈ danglingElse, t.kind ≠ .eof) ∧ ∃ parsed,
      parseTokens? (danglingElse ++ [endToken 1]) = some parsed ∧ parsed.diagnostics = [] ∧
        ∀ statements, Program .nearest danglingElse statements ↔
          statements = parsed.statements := by
  have hts : ∀ t ∈ danglingElse, t.kind ≠ .eof := by decide
  obtain ⟨parsed, hparsed, hprogram⟩ := parseTokens?_program danglingElse (endToken 1) hts rfl
  have hempty : (parseTokens? (danglingElse ++ [endToken 1])).map (·.diagnostics.isEmpty) =
      some true := by decide +kernel
  rw [hparsed] at hempty
  have hnone : parsed.diagnostics = [] := List.isEmpty_iff.1 (Option.some.inj hempty)
  refine ⟨hts, parsed, hparsed, hnone, (hprogram ?_).2 hnone⟩
  rw [hnone]
  exact nofun

end Scriptlet
