import Scriptlet.Proofs.Eval.Typing
import Scriptlet.Proofs.Grammar.Statement
import Scriptlet.Proofs.Scan.Front

/-!
# Programs have well-formed trees

The trees that the grammar gives to the tokens of a program text are well-formed, and the operators
in them are the ones that the evaluator knows: the levels of binary operators are made of those, and
the two levels that decide by their left side have nodes of their own.

## Main definitions

* `Token.IsScanned` — what the tokens of a program text have in common
* `Grammar.ExprPhrase.WellFormed`, `Grammar.StmtPhrase.WellFormed` — what well-formed trees of a
  phrase are

## Main results

* `isScanned_of_mem_bodyTokens` — the tokens of a program text
* `Grammar.ExprPhrase.Derives.wellFormed`, `Grammar.StmtPhrase.Derives.wellFormed` — phrases
* `Grammar.Program.isStmt` — programs
-/

namespace Scriptlet

/-- The lexeme is a text, and the literal a scalar. -/
def Token.IsScanned (t : Token) : Prop :=
  t.IsNamed ∧ ∃ a : Atom, t.literal = .atom a ∧ a.IsScalar

theorem Segment.isScalar_literal (kind : Kind) (text : List Char) :
    (Segment.literal kind text).IsScalar := by
  unfold Segment.literal
  split <;> exact nofun

theorem isScanned_of_mem_bodyTokens {source : String} {t : Token} (h : t ∈ bodyTokens source) :
    t.IsScanned := by
  obtain ⟨c, cs, kind, text, line, -, rfl⟩ := exists_of_mem_bodyTokens h
  exact ⟨⟨_, rfl⟩, _, rfl, Segment.isScalar_literal kind text⟩

namespace Grammar

/-! ### Expressions -/

namespace ExprPhrase

/-- The tree of an expression is a well-formed one, that of a repetition if the tree built so far
is, and arguments are a list of well-formed ones. -/
def WellFormed : ExprPhrase → Tree → Prop
  | operands _ left, e => left.IsExpr .known → e.IsExpr .known
  | suffixes callee, e => callee.IsExpr .known → e.IsExpr .known
  | arguments, e => ∃ args, e = .list args ∧ ∀ a ∈ args, a.IsExpr .known
  | moreArguments, e => ∃ args, e = .list args ∧ ∀ a ∈ args, a.IsExpr .known
  | _, e => e.IsExpr .known

end ExprPhrase

theorem Rank.wellFormed_operand (rank : Rank) (e : Tree) :
    rank.operand.WellFormed e ↔ e.IsExpr .known := by
  cases rank <;> rfl

/-- The operators of every level are ones that the evaluator knows. -/
theorem Rank.isExpr_build {rank : Rank} {left right : Tree} {op : Token}
    (hop : op.kind ∈ rank.operators) (hleft : left.IsExpr .known) (hright : right.IsExpr .known) :
    (rank.build left op right).IsExpr .known := by
  have hknown (hsub : rank.operators ⊆ binaryOperators) :
      (Tree.binary left op right).IsExpr .known :=
    .binary (fun _ => hsub hop) hleft hright
  -- the two loosest levels build nodes whose operator is not looked up
  cases rank with
  | disjunction | conjunction => exact .logical hleft hright
  | equality | comparison | term | factor => exact hknown (by decide)

/-- The tree of an expression over scanned tokens is well-formed. -/
theorem ExprPhrase.Derives.wellFormed {phrase : ExprPhrase} {us : List Token} {e : Tree}
    (h : phrase.Derives us e) (hus : ∀ t ∈ us, t.IsScanned) : phrase.WellFormed e := by
  induction h with
  | assign _ _ _ ih =>
    rw [List.forall_mem_cons, List.forall_mem_cons] at hus
    exact .assign hus.1.1 (ih hus.2.2)
  | assignIndex _ _ _ _ _ _ ihtarget ihindex ihvalue =>
    simp only [List.forall_mem_append, List.forall_mem_cons] at hus
    obtain ⟨hus, -, hvs, -, -, hws⟩ := hus
    exact .assignIndex (ihtarget hus) (ihindex hvs) (ihvalue hws)
  | plain _ ih | unaryCall _ ih => exact ih hus
  | level _ _ ih ihs =>
    rw [List.forall_mem_append] at hus
    exact ihs hus.2 ((Rank.wellFormed_operand _ _).1 (ih hus.1))
  | noOperand | noSuffix => exact id
  | operand hop _ _ ih ihs =>
    rw [List.forall_mem_cons, List.forall_mem_append] at hus
    intro hleft
    have hright := (Rank.wellFormed_operand _ _).1 (ih hus.2.1)
    exact ihs hus.2.2 (Rank.isExpr_build hop hleft hright)
  | unaryOperator hop _ ih =>
    rw [List.forall_mem_cons] at hus
    exact .unary (fun _ => hop) (ih hus.2)
  | call _ _ ih ihs =>
    rw [List.forall_mem_append] at hus
    exact ihs hus.2 (ih hus.1)
  | callSuffix _ _ _ _ ihargs ih =>
    simp only [List.forall_mem_append, List.forall_mem_cons] at hus
    obtain ⟨-, hus, -, hvs⟩ := hus
    obtain ⟨args, heq, hargs⟩ := ihargs hus
    cases heq
    exact fun hcallee => ih hvs (.call hcallee hargs)
  | indexSuffix _ _ _ _ ihindex ih =>
    simp only [List.forall_mem_append, List.forall_mem_cons] at hus
    obtain ⟨-, hus, -, hvs⟩ := hus
    exact fun hcallee => ih hvs (.index hcallee (ihindex hus))
  | noArguments | lastArgument => exact ⟨[], rfl, nofun⟩
  | arguments _ _ ih ihs =>
    rw [List.forall_mem_append] at hus
    obtain ⟨args, heq, hargs⟩ := ihs hus.2
    cases heq
    exact ⟨_, rfl, List.forall_mem_cons.2 ⟨ih hus.1, hargs⟩⟩
  | moreArguments _ _ _ ih ihs =>
    rw [List.forall_mem_cons, List.forall_mem_append] at hus
    obtain ⟨args, heq, hargs⟩ := ihs hus.2.2
    cases heq
    exact ⟨_, rfl, List.forall_mem_cons.2 ⟨ih hus.2.1, hargs⟩⟩
  | falseLiteral | trueLiteral | nilLiteral => exact .literal nofun
  -- numbers and strings have a scalar as literal
  | literal =>
    obtain ⟨a, ha, hscalar⟩ := (hus _ List.mem_cons_self).2
    rw [ha, Tree.ofJson]
    exact .literal hscalar
  | name => exact .varRef (hus _ List.mem_cons_self).1
  | grouping _ _ _ ih =>
    rw [List.forall_mem_cons, List.forall_mem_append] at hus
    exact .grouping (ih hus.2.1)

/-! ### Statements -/

theorem VarDecl.isStmt {us : List Token} {t : Tree} (h : VarDecl us t)
    (hus : ∀ t ∈ us, t.IsScanned) : t.IsStmt .known := by
  cases h with
  | bare => exact .varDecl (hus _ (by simp)).1 nofun
  | initialized _ _ _ he =>
    simp only [List.forall_mem_append, List.forall_mem_cons] at hus
    exact .varDecl hus.2.1.1 fun _ => he.wellFormed hus.2.2.2.1

theorem Initializer.isStmt {us : List Token} {t : Tree} (h : Initializer us t)
    (hus : ∀ t ∈ us, t.IsScanned) : t.isNull = false → t.IsStmt .known := by
  cases h with
  | declaration h => exact fun _ => h.isStmt hus
  | expression he => exact fun _ => .exprStmt (he.wellFormed (List.forall_mem_append.1 hus).1)
  | empty => exact nofun

theorem OptionalExpr.isExpr {us : List Token} {e : Tree} (h : OptionalExpr us e)
    (hus : ∀ t ∈ us, t.IsScanned) : e.isNull = false → e.IsExpr .known := by
  cases h with
  | absent => exact nofun
  | present he => exact fun _ => he.wellFormed hus

theorem CommaTail.subset {us names : List Token} (h : CommaTail Name us names) : names ⊆ us := by
  induction h with
  | nil => exact List.Subset.refl _
  | cons _ hname _ ih =>
    rw [hname.1]
    intro t ht
    rcases List.mem_cons.1 ht with rfl | ht
    · simp
    · simp [ih ht]

/-- Parameters are among the tokens that declare them. -/
theorem Parameters.subset {us names : List Token} (h : Parameters us names) : names ⊆ us := by
  cases h with
  | none => exact List.Subset.refl _
  | some h =>
    obtain ⟨us, vs, name, rest, rfl, rfl, ⟨rfl, -⟩, hrest⟩ := h
    exact List.cons_subset_cons name hrest.subset

/-- The tree of a statement is a well-formed one, and those of blocks are lists of such. -/
def StmtPhrase.WellFormed : StmtPhrase → Tree → Prop
  | declarations, t => ∃ ss, t = .list ss ∧ ∀ s ∈ ss, s.IsStmt .known
  | block, t => ∃ ss, t = .list ss ∧ ∀ s ∈ ss, s.IsStmt .known
  | _, t => t.IsStmt .known

/-- The tree of a statement over scanned tokens is well-formed. -/
theorem StmtPhrase.Derives.wellFormed {rule : Attachment} {phrase : StmtPhrase} {us : List Token}
    {t : Tree} (h : phrase.Derives rule us t) (hus : ∀ t ∈ us, t.IsScanned) :
    phrase.WellFormed t := by
  induction h with
  | noDeclaration => exact ⟨[], rfl, nofun⟩
  | declarations _ _ ih ihs =>
    rw [List.forall_mem_append] at hus
    obtain ⟨ss, heq, hss⟩ := ihs hus.2
    cases heq
    exact ⟨_, rfl, List.forall_mem_cons.2 ⟨ih hus.1, hss⟩⟩
  | variableDeclaration h => exact h.isStmt hus
  | function _ _ _ hparams _ _ ih =>
    simp only [List.forall_mem_append, List.forall_mem_cons] at hus
    obtain ⟨-, hname, -, hus, -, hvs⟩ := hus
    obtain ⟨ss, heq, hss⟩ := ih hvs
    cases heq
    exact .funDecl hname.1 (fun p hp => (hus p (hparams.subset hp)).1) hss
  | statement _ ih => exact ih hus
  | print _ he =>
    rw [List.forall_mem_cons, List.forall_mem_append] at hus
    exact .printStmt (he.wellFormed hus.2.1)
  | ifThen _ _ hc _ _ ih =>
    simp only [List.forall_mem_append, List.forall_mem_cons] at hus
    obtain ⟨-, -, hus, -, hvs⟩ := hus
    exact .ifStmt (hc.wellFormed hus) (ih hvs) nofun
  | ifElse _ _ hc _ _ _ _ _ ih ih' =>
    simp only [List.forall_mem_append, List.forall_mem_cons] at hus
    obtain ⟨-, -, hus, -, hvs, -, hws⟩ := hus
    exact .ifStmt (hc.wellFormed hus) (ih hvs) fun _ => ih' hws
  | whileLoop _ _ hc _ _ ih =>
    simp only [List.forall_mem_append, List.forall_mem_cons] at hus
    obtain ⟨-, -, hus, -, hvs⟩ := hus
    exact .whileStmt (hc.wellFormed hus) (ih hvs)
  -- the tree is the desugared one
  | forLoop _ _ hi hc _ hn _ _ ih =>
    simp only [List.forall_mem_append, List.forall_mem_cons] at hus
    obtain ⟨-, -, hus, hvs, -, hws, -, hxs⟩ := hus
    exact Tree.isStmt_desugarFor (hi.isStmt hus) (hc.isExpr hvs) (hn.isExpr hws) (ih hxs)
  | returnValue _ he =>
    rw [List.forall_mem_cons, List.forall_mem_append] at hus
    exact .returnStmt (he.isExpr hus.2.1)
  | blockStatement _ ih =>
    obtain ⟨ss, rfl, hss⟩ := ih hus
    exact .block hss
  | expression he => exact .exprStmt (he.wellFormed (List.forall_mem_append.1 hus).1)
  | block _ _ _ ih =>
    rw [List.forall_mem_cons, List.forall_mem_append] at hus
    exact ih hus.2.1

/-- The statements of a program text are well-formed. -/
theorem Program.isStmt {rule : Attachment} {source : String} {statements : List Tree}
    (h : Program rule (bodyTokens source) statements) : ∀ s ∈ statements, s.IsStmt .known := by
  obtain ⟨ss, heq, hss⟩ :=
    StmtPhrase.Derives.wellFormed h fun t ht => isScanned_of_mem_bodyTokens ht
  cases heq
  exact hss

end Grammar

end Scriptlet
