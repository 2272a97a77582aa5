import Mathlib.Algebra.Group.Nat.Defs
import Scriptlet.Proofs.Decimal.NotNan
import Scriptlet.Proofs.Grammar.WellFormed
import Scriptlet.Proofs.Tree.Readable

/-!
# Programs have readable trees

The trees that the grammar builds hold tokens of the program text, the literals of some of them, and
what the productions put in themselves: truth values and missing children. So they are read back
from files as soon as the tokens are. Those of a program text are, if its numbers are the ones that
their shortest digits stand for and its lines can be counted with the digits that an integer in a
file may have.

## Main definitions

* `numbers` — the numbers in a program text
* `Grammar.ExprPhrase.Readable` — what readable trees of a phrase are

## Main results

* `readable_of_mem_bodyTokens` — the tokens of a program text
* `Grammar.ExprPhrase.Derives.readable`, `Grammar.StmtPhrase.Derives.readable` — phrases
* `Grammar.Program.readable` — programs
-/

namespace Scriptlet

/-! ### Tokens -/

namespace Segment

/-- No segment ends behind the last line. -/
theorem le_of_mem_located {line l : Nat} {s : Segment} {ss : List Segment}
    (h : (l, s) ∈ located line ss) : l ≤ line + (ss.flatMap text).count '\n' := by
  induction ss generalizing line with
  | nil => cases h
  | cons s' ss ih =>
    rw [List.flatMap_cons, List.count_append]
    have hnewlines : s'.newlines = s'.text.count '\n' := rfl
    rcases List.mem_cons.1 h with heq | h
    · cases heq
      omega
    · have hle := ih h
      omega

end Segment

/-- The numbers in a program text. -/
def numbers (source : String) : List Float :=
  (bodyTokens source).filterMap fun t =>
    match t.literal with
    | .atom (.float x) => some x
    | _ => none

open Segment

/-- The tokens of a program text are read back. -/
theorem readable_of_mem_bodyTokens {source : String}
    (hnumbers : ∀ x ∈ numbers source, Number.read? (Number.inspect x) = some x)
    (hlines : lastLine source.toList < 10 ^ Json.longestInteger) {t : Token}
    (h : t ∈ bodyTokens source) : t.Readable := by
  obtain ⟨⟨line, s⟩, hmem, htoken⟩ := List.mem_filterMap.1 h
  have hline : line ≤ lastLine source.toList := by
    have hle := le_of_mem_located hmem
    rwa [flatMap_text_split] at hle
  cases s with
  | lexeme kind text =>
    cases htoken
    refine ⟨.atom trivial, .atom ?_, .atom ?_⟩
    · unfold literal
      split
      · exact ⟨Number.isNaN_ofDigits text, hnumbers _ (List.mem_filterMap.2 ⟨_, h, rfl⟩)⟩
      · trivial
      · trivial
    · exact (Nat.length_toDigits_le_iff (by decide) (by decide)).2 (by simpa using by omega)
  | _ => cases htoken

namespace Grammar

/-! ### Expressions -/

/-- The tree of a phrase is readable, that of a repetition if the tree built so far is. -/
def ExprPhrase.Readable : ExprPhrase → Tree → Prop
  | operands _ left, e => left.Readable → e.Readable
  | suffixes callee, e => callee.Readable → e.Readable
  | _, e => e.Readable

theorem Rank.readable_operand (rank : Rank) (e : Tree) :
    rank.operand.Readable e ↔ e.Readable := by
  cases rank <;> rfl

open Scriptlet.Tree

/-- A node that is no literal is readable if its parts are. -/
theorem readable_of_ne_literal {t : Tree} {type : NodeType} (htype : t.nodeType? = some type)
    (hne : type ≠ .literal) (h : PartsReadable t.parts) : t.Readable := by
  refine readable_of_parts htype ?_ h
  rintro n rfl
  cases htype
  exact hne rfl

theorem readable_list_nil : (Tree.list []).Readable := .list (by simp)

theorem Rank.readable_build (rank : Rank) {left right : Tree} {op : Token} (hleft : left.Readable)
    (hop : op.Readable) (hright : right.Readable) : (rank.build left op right).Readable := by
  cases rank with
  | disjunction | conjunction | equality | comparison | term | factor =>
    exact readable_of_ne_literal rfl (by decide) ⟨hleft, hop, hright, trivial⟩

theorem readable_list_cons {t : Tree} {ts : List Tree} (ht : t.Readable)
    (hts : (Tree.list ts).Readable) : (Tree.list (t :: ts)).Readable := by
  cases hts with
  | list hts => exact .list (List.forall_mem_cons.2 ⟨ht, hts⟩)
  | node htype => cases htype

theorem readable_literal {a : Atom} (hscalar : a.IsScalar) (ha : a.Readable) :
    (Tree.literal (.atom a)).Readable := by
  refine readable_of_parts rfl ?_ ⟨.atom ha, trivial⟩
  rintro n heq
  cases heq
  exact hscalar n rfl

/-- The tree of an expression over readable tokens is readable. -/
theorem ExprPhrase.Derives.readable {phrase : ExprPhrase} {us : List Token} {e : Tree}
    (h : phrase.Derives us e) (hus : ∀ t ∈ us, t.IsScanned ∧ t.Readable) : phrase.Readable e := by
  induction h with
  | assign _ _ _ ih =>
    rw [List.forall_mem_cons, List.forall_mem_cons] at hus
    exact readable_of_ne_literal rfl (by decide) ⟨hus.1.2, ih hus.2.2, trivial⟩
  | assignIndex _ _ _ _ _ _ ihtarget ihindex ihvalue =>
    simp only [List.forall_mem_append, List.forall_mem_cons] at hus
    obtain ⟨hus, -, hvs, hclosing, -, hws⟩ := hus
    exact readable_of_ne_literal rfl (by decide)
      ⟨ihtarget hus, hclosing.2, ihindex hvs, ihvalue hws, trivial⟩
  | plain _ ih | unaryCall _ ih => exact ih hus
  | level _ _ ih ihs =>
    rw [List.forall_mem_append] at hus
    exact ihs hus.2 ((Rank.readable_operand _ _).1 (ih hus.1))
  | noOperand | noSuffix => exact id
  | @operand rank _ _ _ _ _ _ _ _ _ ih ihs =>
    rw [List.forall_mem_cons, List.forall_mem_append] at hus
    intro hleft
    have hright := (Rank.readable_operand _ _).1 (ih hus.2.1)
    exact ihs hus.2.2 (rank.readable_build hleft hus.1.2 hright)
  | unaryOperator _ _ ih =>
    rw [List.forall_mem_cons] at hus
    exact readable_of_ne_literal rfl (by decide) ⟨hus.1.2, ih hus.2, trivial⟩
  | call _ _ ih ihs =>
    rw [List.forall_mem_append] at hus
    exact ihs hus.2 (ih hus.1)
  | callSuffix _ _ _ _ ihargs ih =>
    simp only [List.forall_mem_append, List.forall_mem_cons] at hus
    obtain ⟨-, hus, hclosing, hvs⟩ := hus
    exact fun hcallee =>
      ih hvs (readable_of_ne_literal rfl (by decide) ⟨hcallee, hclosing.2, ihargs hus, trivial⟩)
  | indexSuffix _ _ _ _ ihindex ih =>
    simp only [List.forall_mem_append, List.forall_mem_cons] at hus
    obtain ⟨-, hus, hclosing, hvs⟩ := hus
    exact fun hcallee =>
      ih hvs (readable_of_ne_literal rfl (by decide) ⟨hcallee, hclosing.2, ihindex hus, trivial⟩)
  | noArguments | lastArgument => exact readable_list_nil
  | arguments _ _ ih ihs =>
    rw [List.forall_mem_append] at hus
    exact readable_list_cons (ih hus.1) (ihs hus.2)
  | moreArguments _ _ _ ih ihs =>
    rw [List.forall_mem_cons, List.forall_mem_append] at hus
    exact readable_list_cons (ih hus.2.1) (ihs hus.2.2)
  | falseLiteral | trueLiteral | nilLiteral =>
    exact readable_literal (fun _ heq => by cases heq) trivial
  -- numbers and strings are the literals of tokens
  | literal =>
    obtain ⟨⟨-, a, ha, hscalar⟩, hreadable⟩ := hus _ List.mem_cons_self
    have hatom := hreadable.literal
    rw [ha] at hatom ⊢
    cases hatom with
    | atom hatom => exact readable_literal hscalar hatom
  | name => exact readable_of_ne_literal rfl (by decide) ⟨(hus _ List.mem_cons_self).2, trivial⟩
  | grouping _ _ _ ih =>
    rw [List.forall_mem_cons, List.forall_mem_append] at hus
    exact readable_of_ne_literal rfl (by decide) ⟨ih hus.2.1, trivial⟩

/-! ### Statements -/

theorem readable_exprStmt {e : Tree} (h : e.Readable) : (Tree.exprStmt e).Readable :=
  readable_of_ne_literal rfl (by decide) ⟨h, trivial⟩

theorem VarDecl.readable {us : List Token} {t : Tree} (h : VarDecl us t)
    (hus : ∀ t ∈ us, t.IsScanned ∧ t.Readable) : t.Readable := by
  cases h with
  | bare => exact readable_of_ne_literal rfl (by decide) ⟨(hus _ (by simp)).2, .null, trivial⟩
  | initialized _ _ _ he =>
    simp only [List.forall_mem_append, List.forall_mem_cons] at hus
    obtain ⟨-, hname, -, hus, -⟩ := hus
    exact readable_of_ne_literal rfl (by decide) ⟨hname.2, he.readable hus, trivial⟩

theorem Initializer.readable {us : List Token} {t : Tree} (h : Initializer us t)
    (hus : ∀ t ∈ us, t.IsScanned ∧ t.Readable) : t.Readable := by
  cases h with
  | declaration h => exact h.readable hus
  | expression he => exact readable_exprStmt (he.readable (List.forall_mem_append.1 hus).1)
  | empty => exact .null

theorem OptionalExpr.readable {us : List Token} {e : Tree} (h : OptionalExpr us e)
    (hus : ∀ t ∈ us, t.IsScanned ∧ t.Readable) : e.Readable := by
  cases h with
  | absent => exact .null
  | present he => exact he.readable hus

theorem readable_desugarFor {i c n s : Tree} (hi : i.Readable) (hc : c.Readable) (hn : n.Readable)
    (hs : s.Readable) : (Tree.desugarFor i c n s).Readable := by
  have hbody : (if n.isNull then s else .block (.list [s, .exprStmt n])).Readable := by
    split
    · exact hs
    · have hlist : (Tree.list [s, .exprStmt n]).Readable :=
        readable_list_cons hs (readable_list_cons (readable_exprStmt hn) readable_list_nil)
      exact readable_of_ne_literal rfl (by decide) ⟨hlist, trivial⟩
  have hcondition : (if c.isNull then .literal (.atom (.bool true)) else c).Readable := by
    split
    · exact readable_literal (fun _ heq => by cases heq) trivial
    · exact hc
  have hloop := readable_of_ne_literal (t := .whileStmt _ _) rfl (by decide)
    ⟨hcondition, hbody, trivial⟩
  have hlist : (Tree.list [_]).Readable := readable_list_cons hloop readable_list_nil
  refine readable_of_ne_literal rfl (by decide) ⟨?_, trivial⟩
  split
  · exact hlist
  · exact readable_list_cons hi hlist

/-- The tree of a statement over readable tokens is readable. -/
theorem StmtPhrase.Derives.readable {rule : Attachment} {phrase : StmtPhrase} {us : List Token}
    {t : Tree} (h : phrase.Derives rule us t) (hus : ∀ t ∈ us, t.IsScanned ∧ t.Readable) :
    t.Readable := by
  induction h with
  | noDeclaration => exact readable_list_nil
  | declarations _ _ ih ihs =>
    rw [List.forall_mem_append] at hus
    exact readable_list_cons (ih hus.1) (ihs hus.2)
  | variableDeclaration h => exact h.readable hus
  | function _ _ _ hparams _ _ ih =>
    simp only [List.forall_mem_append, List.forall_mem_cons] at hus
    obtain ⟨-, hname, -, hus, -, hvs⟩ := hus
    refine readable_of_ne_literal rfl (by decide) ⟨hname.2, .list ?_, ih hvs, trivial⟩
    intro t ht
    obtain ⟨name, hmem, rfl⟩ := List.mem_map.1 ht
    exact .token (hus name (hparams.subset hmem)).2
  | statement _ ih => exact ih hus
  | print _ he =>
    rw [List.forall_mem_cons, List.forall_mem_append] at hus
    exact readable_of_ne_literal rfl (by decide) ⟨he.readable hus.2.1, trivial⟩
  | ifThen _ _ hc _ _ ih =>
    simp only [List.forall_mem_append, List.forall_mem_cons] at hus
    obtain ⟨-, -, hus, -, hvs⟩ := hus
    exact readable_of_ne_literal rfl (by decide) ⟨hc.readable hus, ih hvs, .null, trivial⟩
  | ifElse _ _ hc _ _ _ _ _ ih ih' =>
    simp only [List.forall_mem_append, List.forall_mem_cons] at hus
    obtain ⟨-, -, hus, -, hvs, -, hws⟩ := hus
    exact readable_of_ne_literal rfl (by decide) ⟨hc.readable hus, ih hvs, ih' hws, trivial⟩
  | whileLoop _ _ hc _ _ ih =>
    simp only [List.forall_mem_append, List.forall_mem_cons] at hus
    obtain ⟨-, -, hus, -, hvs⟩ := hus
    exact readable_of_ne_literal rfl (by decide) ⟨hc.readable hus, ih hvs, trivial⟩
  -- the tree is the desugared one
  | forLoop _ _ hi hc _ hn _ _ ih =>
    simp only [List.forall_mem_append, List.forall_mem_cons] at hus
    obtain ⟨-, -, hus, hvs, -, hws, -, hxs⟩ := hus
    exact readable_desugarFor (hi.readable hus) (hc.readable hvs) (hn.readable hws) (ih hxs)
  | returnValue _ he =>
    rw [List.forall_mem_cons, List.forall_mem_append] at hus
    exact readable_of_ne_literal rfl (by decide) ⟨hus.1.2, he.readable hus.2.1, trivial⟩
  | blockStatement _ ih => exact readable_of_ne_literal rfl (by decide) ⟨ih hus, trivial⟩
  | expression he => exact readable_exprStmt (he.readable (List.forall_mem_append.1 hus).1)
  | block _ _ _ ih =>
    rw [List.forall_mem_cons, List.forall_mem_append] at hus
    exact ih hus.2.1

/-- The statements of a program text are readable. -/
theorem Program.readable {rule : Attachment} {source : String} {statements : List Tree}
    (h : Program rule (bodyTokens source) statements)
    (hnumbers : ∀ x ∈ numbers source, Number.read? (Number.inspect x) = some x)
    (hlines : lastLine source.toList < 10 ^ Json.longestInteger) :
    (Tree.list statements).Readable :=
  StmtPhrase.Derives.readable h fun _ ht =>
    ⟨isScanned_of_mem_bodyTokens ht, readable_of_mem_bodyTokens hnumbers hlines ht⟩

end Grammar

end Scriptlet
