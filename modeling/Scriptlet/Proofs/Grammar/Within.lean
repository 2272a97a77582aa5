import Scriptlet.Proofs.Grammar.WellFormed
import Scriptlet.Proofs.Tree.Within

/-!
# The tokens in the tree of a program are its own

Every production puts tokens of its own token list into the tree, be it as operators, as names or as
the brackets and keywords at which errors are located. Reading the left side of an assignment as an
operand first, and desugaring a loop, move tokens around and make none.

## Main definitions

* `Grammar.ExprPhrase.Within` — the tokens of the tree of a phrase satisfy a property

## Main results

* `Grammar.ExprPhrase.Derives.within`, `Grammar.StmtPhrase.Derives.within` — phrases
* `Grammar.Program.within` — programs
-/

namespace Scriptlet.Grammar

variable {P : Token → Prop}

/-! ### Expressions -/

/-- The tokens of the tree of a phrase satisfy `P`; those of a repetition do if those of the tree
built so far do. -/
def ExprPhrase.Within (P : Token → Prop) : ExprPhrase → Tree → Prop
  | operands _ left, e => left.Within P → e.Within P
  | suffixes callee, e => callee.Within P → e.Within P
  | _, e => e.Within P

theorem Rank.within_operand (rank : Rank) (e : Tree) :
    rank.operand.Within P e ↔ e.Within P := by
  cases rank <;> rfl

theorem Rank.within_build (rank : Rank) {left right : Tree} {op : Token} (hleft : left.Within P)
    (hop : P op) (hright : right.Within P) : (rank.build left op right).Within P := by
  cases rank <;> exact ⟨hleft, hop, hright⟩

/-- The tree of an expression holds tokens of the expression. -/
theorem ExprPhrase.Derives.within {phrase : ExprPhrase} {us : List Token} {e : Tree}
    (h : phrase.Derives us e) (hus : ∀ t ∈ us, P t) : phrase.Within P e := by
  induction h with
  | assign _ _ _ ih =>
    rw [List.forall_mem_cons, List.forall_mem_cons] at hus
    exact ⟨hus.1, ih hus.2.2⟩
  | assignIndex _ _ _ _ _ _ ihtarget ihindex ihvalue =>
    simp only [List.forall_mem_append, List.forall_mem_cons] at hus
    obtain ⟨hus, -, hvs, hclosing, -, hws⟩ := hus
    exact ⟨ihtarget hus, hclosing, ihindex hvs, ihvalue hws⟩
  | plain _ ih | unaryCall _ ih => exact ih hus
  | level _ _ ih ihs =>
    rw [List.forall_mem_append] at hus
    exact ihs hus.2 ((Rank.within_operand _ _).1 (ih hus.1))
  | noOperand | noSuffix => exact id
  | @operand rank _ _ _ _ _ _ _ _ _ ih ihs =>
    rw [List.forall_mem_cons, List.forall_mem_append] at hus
    intro hleft
    have hright := (Rank.within_operand _ _).1 (ih hus.2.1)
    exact ihs hus.2.2 (rank.within_build hleft hus.1 hright)
  | unaryOperator _ _ ih =>
    rw [List.forall_mem_cons] at hus
    exact ⟨hus.1, ih hus.2⟩
  | call _ _ ih ihs =>
    rw [List.forall_mem_append] at hus
    exact ihs hus.2 (ih hus.1)
  -- calls and indexings keep the bracket that closes them
  | callSuffix _ _ _ _ ihs ih | indexSuffix _ _ _ _ ihs ih =>
    simp only [List.forall_mem_append, List.forall_mem_cons] at hus
    obtain ⟨-, hus, hclosing, hvs⟩ := hus
    exact fun hcallee => ih hvs ⟨hcallee, hclosing, ihs hus⟩
  | noArguments | lastArgument => trivial
  | arguments _ _ ih ihs =>
    rw [List.forall_mem_append] at hus
    exact ⟨ih hus.1, ihs hus.2⟩
  | moreArguments _ _ _ ih ihs =>
    rw [List.forall_mem_cons, List.forall_mem_append] at hus
    exact ⟨ih hus.2.1, ihs hus.2.2⟩
  | falseLiteral | trueLiteral | nilLiteral | literal => trivial
  | name => exact hus _ List.mem_cons_self
  | grouping _ _ _ ih =>
    rw [List.forall_mem_cons, List.forall_mem_append] at hus
    exact ih hus.2.1

/-! ### Statements -/

theorem VarDecl.within {us : List Token} {t : Tree} (h : VarDecl us t) (hus : ∀ t ∈ us, P t) :
    t.Within P := by
  cases h with
  | bare => exact ⟨hus _ (by simp), trivial⟩
  | initialized _ _ _ he =>
    simp only [List.forall_mem_append, List.forall_mem_cons] at hus
    obtain ⟨-, hname, -, hus, -⟩ := hus
    exact ⟨hname, he.within hus⟩

theorem OptionalExpr.within {us : List Token} {e : Tree} (h : OptionalExpr us e)
    (hus : ∀ t ∈ us, P t) : e.Within P := by
  cases h with
  | absent => trivial
  | present he => exact he.within hus

theorem Initializer.within {us : List Token} {t : Tree} (h : Initializer us t)
    (hus : ∀ t ∈ us, P t) : t.Within P := by
  cases h with
  | declaration h => exact h.within hus
  | expression he => exact he.within (List.forall_mem_append.1 hus).1
  | empty => trivial

/-- The tree of a statement holds tokens of the statement. -/
theorem StmtPhrase.Derives.within {rule : Attachment} {phrase : StmtPhrase} {us : List Token}
    {t : Tree} (h : phrase.Derives rule us t) (hus : ∀ t ∈ us, P t) : t.Within P := by
  induction h with
  | noDeclaration => trivial
  | declarations _ _ ih ihs =>
    rw [List.forall_mem_append] at hus
    exact ⟨ih hus.1, ihs hus.2⟩
  | variableDeclaration h => exact h.within hus
  | function _ _ _ hparams _ _ ih =>
    simp only [List.forall_mem_append, List.forall_mem_cons] at hus
    obtain ⟨-, hname, -, hus, -, hvs⟩ := hus
    refine ⟨hname, Tree.within_list.2 fun t ht => ?_, ih hvs⟩
    obtain ⟨name, hmem, rfl⟩ := List.mem_map.1 ht
    exact hus name (hparams.subset hmem)
  | statement _ ih | blockStatement _ ih => exact ih hus
  | print _ he =>
    rw [List.forall_mem_cons, List.forall_mem_append] at hus
    exact he.within hus.2.1
  | ifThen _ _ hc _ _ ih =>
    simp only [List.forall_mem_append, List.forall_mem_cons] at hus
    obtain ⟨-, -, hus, -, hvs⟩ := hus
    exact ⟨hc.within hus, ih hvs, trivial⟩
  | ifElse _ _ hc _ _ _ _ _ ih ih' =>
    simp only [List.forall_mem_append, List.forall_mem_cons] at hus
    obtain ⟨-, -, hus, -, hvs, -, hws⟩ := hus
    exact ⟨hc.within hus, ih hvs, ih' hws⟩
  | whileLoop _ _ hc _ _ ih =>
    simp only [List.forall_mem_append, List.forall_mem_cons] at hus
    obtain ⟨-, -, hus, -, hvs⟩ := hus
    exact ⟨hc.within hus, ih hvs⟩
  -- the tree is the desugared one
  | forLoop _ _ hi hc _ hn _ _ ih =>
    simp only [List.forall_mem_append, List.forall_mem_cons] at hus
    obtain ⟨-, -, hus, hvs, -, hws, -, hxs⟩ := hus
    exact Tree.within_desugarFor ⟨hi.within hus, hc.within hvs, hn.within hws, ih hxs⟩
  | returnValue _ he =>
    rw [List.forall_mem_cons, List.forall_mem_append] at hus
    exact ⟨hus.1, he.within hus.2.1⟩
  | expression he => exact he.within (List.forall_mem_append.1 hus).1
  | block _ _ _ ih =>
    rw [List.forall_mem_cons, List.forall_mem_append] at hus
    exact ih hus.2.1

/-- The statements of a program hold tokens of the program. -/
theorem Program.within {rule : Attachment} {us : List Token} {statements : List Tree}
    (h : Program rule us statements) : ∀ s ∈ statements, s.Within (· ∈ us) :=
  Tree.within_list.1 (StmtPhrase.Derives.within h fun _ ht => ht)

end Scriptlet.Grammar
