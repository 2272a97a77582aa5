import Scriptlet.Proofs.Grammar.Readable
import Scriptlet.Proofs.Strict.Simulation
import Scriptlet.Proofs.Tree.Legible

/-!
# Programs are told apart by their prefix texts

The trees that the grammar builds are made of what a program text can hold: names that are no
keywords, texts without quotes, operators with one token for each kind. Such trees are legible. So
two programs that are written alike have the same statements, up to lines.

## Main definitions

* `Grammar.ExprPhrase.Legible`, `Grammar.StmtPhrase.Legible` — what legible trees of a phrase are

## Main results

* `Grammar.ExprPhrase.Derives.legible`, `Grammar.StmtPhrase.Derives.legible` — phrases
* `map_withoutLines_eq_of_map_render_eq` — programs that are written alike
-/

namespace Scriptlet

namespace Grammar

open Scriptlet.Tree

/-! ### Expressions -/

/-- The tree of a phrase is legible, that of a repetition if the tree built so far is, and arguments
are a list of legible ones. -/
def ExprPhrase.Legible : ExprPhrase → Tree → Prop
  | operands _ left, e => left.Legible → e.Legible
  | suffixes callee, e => callee.Legible → e.Legible
  | arguments, e => ∃ args, e = .list args ∧ ∀ a ∈ args, a.Legible
  | moreArguments, e => ∃ args, e = .list args ∧ ∀ a ∈ args, a.Legible
  | _, e => e.Legible

theorem Rank.legible_operand (rank : Rank) (e : Tree) :
    rank.operand.Legible e ↔ e.Legible := by
  cases rank <;> rfl

/-- A token of a kind that has only one, if the kind is known. -/
theorem eq_ofKind {t : Token} {kind : Kind} (h : t.Spelled) (hkind : t.kind = kind)
    (hfixed : kind ∉ [Kind.identifier, .string, .number]) : t.withoutLine = .ofKind kind := by
  rw [h.eq_ofKind (hkind ▸ hfixed), hkind]

/-- What an operator of a level builds is read from its lexeme and both sides. -/
theorem Rank.node?_spelling {rank : Rank} {kind : Kind} (hkind : kind ∈ rank.operators)
    (left right : Tree) : Form.IsHead kind.spelling ∧
      Form.node? kind.spelling [left, right] = some (rank.build left (.ofKind kind) right) := by
  cases rank with
  | disjunction | conjunction =>
    obtain rfl := List.mem_singleton.1 hkind
    exact ⟨by decide, rfl⟩
  | equality | term | factor =>
    simp only [operators, List.mem_cons, List.not_mem_nil, or_false] at hkind
    rcases hkind with rfl | rfl <;> exact ⟨by decide, rfl⟩
  | comparison =>
    simp only [operators, List.mem_cons, List.not_mem_nil, or_false] at hkind
    rcases hkind with rfl | rfl | rfl | rfl <;> exact ⟨by decide, rfl⟩

theorem Rank.render_build (rank : Rank) (left : Tree) (op : Token) (right : Tree) :
    (rank.build left op right).render = (do
      let l ← left.render
      let r ← right.render
      parenthesized [op.lexeme, l, r]) := by
  cases rank <;> rfl

theorem Rank.withoutLines_build (rank : Rank) (left : Tree) (op : Token) (right : Tree) :
    (rank.build left op right).withoutLines =
      rank.build left.withoutLines op.withoutLine right.withoutLines := by
  cases rank <;> rfl

/-- Binary operators are read back with their node. -/
theorem Rank.legible_build {rank : Rank} {left right : Tree} {op : Token} {kind : Kind}
    (hkind : kind ∈ rank.operators) (hop : op.withoutLine = .ofKind kind)
    (hleft : left.Legible) (hright : right.Legible) :
    (rank.build left op right).Legible := by
  obtain ⟨hhead, hnode⟩ := Rank.node?_spelling hkind left.withoutLines right.withoutLines
  refine legible_of_parts kind.spelling [left, right] hhead (by simp [hleft, hright]) ?_ ?_
  · rintro _ (_ | ⟨hleft, _ | ⟨hright, _ | _⟩⟩)
    rw [Writes, rank.render_build, hleft, hright, lexeme_of_ofKind hop]
    exact parenthesized_map [.word kind.spelling, _, _]
  · rw [rank.withoutLines_build, hop]
    exact hnode

theorem Rank.fixed_of_mem {rank : Rank} {kind : Kind} (hkind : kind ∈ rank.operators) :
    kind ∉ [Kind.identifier, .string, .number] := by
  revert kind
  cases rank <;> decide

/-- The tree of an expression over the tokens of a program text is legible. -/
theorem ExprPhrase.Derives.legible {phrase : ExprPhrase} {us : List Token} {e : Tree}
    (h : phrase.Derives us e) (hus : ∀ t ∈ us, t.Spelled) :
    phrase.Legible e := by
  induction h with
  | assign hname _ _ ih =>
    rw [List.forall_mem_cons, List.forall_mem_cons] at hus
    exact legible_assign (legible_varRef (hus.1.isVariable hname)) (ih hus.2.2)
  | assignIndex _ _ _ hclosing _ _ ihtarget ihindex ihvalue =>
    simp only [List.forall_mem_append, List.forall_mem_cons] at hus
    obtain ⟨hus, -, hvs, hbracket, -, hws⟩ := hus
    have hbracket := eq_ofKind hbracket hclosing (by decide)
    exact legible_assignIndex hbracket (ihtarget hus) (ihindex hvs) (ihvalue hws)
  | plain _ ih | unaryCall _ ih => exact ih hus
  | level _ _ ih ihs =>
    rw [List.forall_mem_append] at hus
    exact ihs hus.2 ((Rank.legible_operand _ _).1 (ih hus.1))
  | noOperand | noSuffix => exact id
  | operand hop _ _ ih ihs =>
    rw [List.forall_mem_cons, List.forall_mem_append] at hus
    have hright := (Rank.legible_operand _ _).1 (ih hus.2.1)
    have hop' := eq_ofKind hus.1 rfl (Rank.fixed_of_mem hop)
    exact fun hleft => ihs hus.2.2 (Rank.legible_build hop hop' hleft hright)
  | unaryOperator hop _ ih =>
    rw [List.forall_mem_cons] at hus
    have hfixed : ∀ kind ∈ [Kind.bang, .minus], kind ∉ [Kind.identifier, .string, .number] := by
      decide
    exact legible_unary (eq_ofKind hus.1 rfl (hfixed _ hop)) hop (ih hus.2)
  | call _ _ ih ihs =>
    rw [List.forall_mem_append] at hus
    exact ihs hus.2 (ih hus.1)
  | callSuffix _ _ hclosing _ ihargs ih =>
    simp only [List.forall_mem_append, List.forall_mem_cons] at hus
    obtain ⟨-, hus, hparen, hvs⟩ := hus
    obtain ⟨args, heq, hargs⟩ := ihargs hus
    cases heq
    have hparen := eq_ofKind hparen hclosing (by decide)
    exact fun hcallee => ih hvs (legible_call hparen hcallee hargs)
  | indexSuffix _ _ hclosing _ ihindex ih =>
    simp only [List.forall_mem_append, List.forall_mem_cons] at hus
    obtain ⟨-, hus, hbracket, hvs⟩ := hus
    have hbracket := eq_ofKind hbracket hclosing (by decide)
    exact fun hcallee => ih hvs (legible_index hbracket hcallee (ihindex hus))
  | noArguments | lastArgument => exact ⟨[], rfl, List.forall_mem_nil _⟩
  | arguments _ _ ih ihs =>
    rw [List.forall_mem_append] at hus
    obtain ⟨args, heq, hargs⟩ := ihs hus.2
    cases heq
    exact ⟨_, rfl, List.forall_mem_cons.2 ⟨ih hus.1, hargs⟩⟩
  | moreArguments _ _ _ ih ihs =>
    rw [List.forall_mem_cons, List.forall_mem_append] at hus
    obtain ⟨args, heq, hargs⟩ := ihs hus.2.2
    cases heq
    exact ⟨_, rfl, List.forall_mem_cons.2 ⟨ih hus.2.1, hargs⟩⟩
  | falseLiteral | trueLiteral => exact legible_bool _
  | nilLiteral => exact legible_null
  | literal ht => exact legible_literal (hus _ List.mem_cons_self) ht
  | name ht => exact legible_varRef ((hus _ List.mem_cons_self).isVariable ht)
  | grouping _ _ _ ih =>
    rw [List.forall_mem_cons, List.forall_mem_append] at hus
    exact legible_grouping (ih hus.2.1)

/-! ### Statements -/

theorem VarDecl.legible {us : List Token} {t : Tree} (h : VarDecl us t)
    (hus : ∀ t ∈ us, t.Spelled) : t.Legible := by
  cases h with
  | bare _ hname =>
    exact legible_varDecl (legible_varRef ((hus _ (by simp)).isVariable hname)) (.inl rfl)
  | initialized _ hname _ he =>
    simp only [List.forall_mem_append, List.forall_mem_cons] at hus
    obtain ⟨-, hspelled, -, hus, -⟩ := hus
    exact legible_varDecl (legible_varRef (hspelled.isVariable hname)) (.inr (he.legible hus))

theorem Initializer.legible {us : List Token} {t : Tree} (h : Initializer us t)
    (hus : ∀ t ∈ us, t.Spelled) : t = .null ∨ t.Legible := by
  cases h with
  | declaration h => exact .inr (h.legible hus)
  | expression he =>
    exact .inr (legible_exprStmt (he.legible (List.forall_mem_append.1 hus).1))
  | empty => exact .inl rfl

theorem OptionalExpr.legible {us : List Token} {e : Tree} (h : OptionalExpr us e)
    (hus : ∀ t ∈ us, t.Spelled) : e = .null ∨ e.Legible := by
  cases h with
  | absent => exact .inl rfl
  | present he => exact .inr (he.legible hus)

/-- The names among parameters are identifiers of the tokens that declare them. -/
theorem CommaTail.isVariable {us names : List Token} (h : CommaTail Name us names)
    (hus : ∀ t ∈ us, t.Spelled) : ∀ name ∈ names, name.IsVariable := by
  induction h with
  | nil => exact nofun
  | cons _ hname _ ih =>
    obtain ⟨rfl, hkind⟩ := hname
    simp only [List.forall_mem_append, List.forall_mem_cons] at hus
    exact List.forall_mem_cons.2 ⟨hus.2.1.1.isVariable hkind, ih hus.2.2⟩

theorem Parameters.isVariable {us names : List Token} (h : Parameters us names)
    (hus : ∀ t ∈ us, t.Spelled) : ∀ name ∈ names, name.IsVariable := by
  cases h with
  | none => exact nofun
  | some h =>
    obtain ⟨us, vs, name, rest, rfl, rfl, ⟨rfl, hkind⟩, hrest⟩ := h
    simp only [List.forall_mem_append, List.forall_mem_cons] at hus
    exact List.forall_mem_cons.2 ⟨hus.1.1.isVariable hkind, hrest.isVariable hus.2⟩

/-- The tree of a statement is legible, and those of blocks are lists of such. -/
def StmtPhrase.Legible : StmtPhrase → Tree → Prop
  | declarations, t => ∃ ss, t = .list ss ∧ ∀ s ∈ ss, s.Legible
  | block, t => ∃ ss, t = .list ss ∧ ∀ s ∈ ss, s.Legible
  | _, t => t.Legible

/-- The tree of a statement over the tokens of a program text is legible. -/
theorem StmtPhrase.Derives.legible {rule : Attachment} {phrase : StmtPhrase} {us : List Token}
    {t : Tree} (h : phrase.Derives rule us t)
    (hus : ∀ t ∈ us, t.Spelled) : phrase.Legible t := by
  induction h with
  | noDeclaration => exact ⟨[], rfl, List.forall_mem_nil _⟩
  | declarations _ _ ih ihs =>
    rw [List.forall_mem_append] at hus
    obtain ⟨ss, heq, hss⟩ := ihs hus.2
    cases heq
    exact ⟨_, rfl, List.forall_mem_cons.2 ⟨ih hus.1, hss⟩⟩
  | variableDeclaration h => exact h.legible hus
  | function _ hname _ hparams _ _ ih =>
    simp only [List.forall_mem_append, List.forall_mem_cons] at hus
    obtain ⟨-, hspelled, -, hus, -, hvs⟩ := hus
    obtain ⟨ss, heq, hss⟩ := ih hvs
    cases heq
    exact legible_funDecl (hspelled.isVariable hname) (hparams.isVariable hus) hss
  | statement _ ih => exact ih hus
  | print _ he =>
    rw [List.forall_mem_cons, List.forall_mem_append] at hus
    exact legible_printStmt (he.legible hus.2.1)
  | ifThen _ _ hc _ _ ih =>
    simp only [List.forall_mem_append, List.forall_mem_cons] at hus
    obtain ⟨-, -, hus, -, hvs⟩ := hus
    exact legible_ifStmt (hc.legible hus) (ih hvs) (.inl rfl)
  | ifElse _ _ hc _ _ _ _ _ ih ih' =>
    simp only [List.forall_mem_append, List.forall_mem_cons] at hus
    obtain ⟨-, -, hus, -, hvs, -, hws⟩ := hus
    exact legible_ifStmt (hc.legible hus) (ih hvs) (.inr (ih' hws))
  | whileLoop _ _ hc _ _ ih =>
    simp only [List.forall_mem_append, List.forall_mem_cons] at hus
    obtain ⟨-, -, hus, -, hvs⟩ := hus
    exact legible_whileStmt (hc.legible hus) (ih hvs)
  -- the tree is the desugared one
  | forLoop _ _ hi hc _ hn _ _ ih =>
    simp only [List.forall_mem_append, List.forall_mem_cons] at hus
    obtain ⟨-, -, hus, hvs, -, hws, -, hbody⟩ := hus
    exact legible_desugarFor (hi.legible hus) (hc.legible hvs) (hn.legible hws)
      (ih hbody)
  | returnValue hkey he =>
    rw [List.forall_mem_cons, List.forall_mem_append] at hus
    exact legible_returnStmt (eq_ofKind hus.1 hkey (by decide)) (he.legible hus.2.1)
  | blockStatement _ ih =>
    obtain ⟨ss, rfl, hss⟩ := ih hus
    exact legible_block hss
  | expression he => exact legible_exprStmt (he.legible (List.forall_mem_append.1 hus).1)
  | block _ _ _ ih =>
    rw [List.forall_mem_cons, List.forall_mem_append] at hus
    exact ih hus.2.1

/-- The statements of a program text are legible. -/
theorem Program.legible {rule : Attachment} {source : String} {statements : List Tree}
    (h : Program rule (bodyTokens source) statements)
    (hfinite : ∀ x ∈ numbers source, x.isFinite = true) : ∀ s ∈ statements, s.Legible := by
  have hus (t : Token) (ht : t ∈ bodyTokens source) : t.Spelled := by
    refine .of_mem_bodyTokens ht fun x hx => hfinite x (List.mem_filterMap.2 ⟨t, ht, ?_⟩)
    rw [hx]
  obtain ⟨ss, heq, hss⟩ := StmtPhrase.Derives.legible h hus
  cases heq
  exact hss

end Grammar

/-! ### Program texts -/

open Grammar

/-- The prefix texts of a program lose nothing but lines: of two program texts without diagnostics
whose numbers are finite, if the statements are written alike, the trees are the same up to the
lines of their tokens. -/
theorem map_withoutLines_eq_of_map_render_eq {source source' : String}
    (hclean : (parseSource source).diagnostics = [])
    (hclean' : (parseSource source').diagnostics = [])
    (hfinite : ∀ x ∈ numbers source, x.isFinite = true)
    (hfinite' : ∀ x ∈ numbers source', x.isFinite = true)
    (hsame : (parseSource source).statements.map Tree.render =
      (parseSource source').statements.map Tree.render) :
    (parseSource source).statements.map Tree.withoutLines =
      (parseSource source').statements.map Tree.withoutLines := by
  obtain ⟨-, -, hprogram⟩ := program_of_parseSource hclean
  obtain ⟨-, -, hprogram'⟩ := program_of_parseSource hclean'
  exact Tree.map_withoutLines_eq (hprogram.legible hfinite) (hprogram'.legible hfinite') hsame

/-- The text that was written for a tree, if there is one. -/
def written? : Except RenderFault Json → Option String
  | .ok (.atom (.text s)) => some s
  | _ => none

theorem eq_of_written? {rs ss : List (Except RenderFault Json)}
    (hsome : ∀ r ∈ rs, (written? r).isSome = true) (h : rs.map written? = ss.map written?) :
    rs = ss := by
  have hunique {r s : Except RenderFault Json} (hsome : (written? r).isSome = true)
      (h : written? r = written? s) : r = s := by
    unfold written? at h hsome
    grind
  induction rs generalizing ss with
  | nil => rw [List.map_eq_nil_iff.1 h.symm]
  | cons r rs ih =>
    cases ss with
    | nil => cases h
    | cons s ss =>
      rw [List.forall_mem_cons] at hsome
      obtain ⟨hhead, htail⟩ := List.cons.inj h
      rw [hunique hsome.1 hhead, ih hsome.2 htail]

/-- A loop that counts. -/
def countingLoop : String := "for (var i = 0; i < 1.50; i = i + 1)\n  print f(i, \"(nil 1)\");"

/-- The same loop, written out on one line. -/
def countingBlock : String :=
  "\x7b var i = 0.0; while (i < 1.5) \x7b print f(i, \"(nil 1)\"); i = i + 1; \x7d \x7d"

/-- The loop and what it stands for are written alike, so their trees differ in lines only. -/
theorem map_withoutLines_countingLoop :
    (parseSource countingLoop).statements.map Tree.render =
        (parseSource countingBlock).statements.map Tree.render ∧
      (parseSource countingLoop).statements.map Tree.withoutLines =
        (parseSource countingBlock).statements.map Tree.withoutLines := by
  have hclean : (parseSource countingLoop).diagnostics = [] :=
    List.isEmpty_iff.1 (by decide +kernel)
  have hclean' : (parseSource countingBlock).diagnostics = [] :=
    List.isEmpty_iff.1 (by decide +kernel)
  have hsame : (parseSource countingLoop).statements.map Tree.render =
      (parseSource countingBlock).statements.map Tree.render :=
    eq_of_written? (by decide +kernel) (by decide +kernel)
  exact ⟨hsame, map_withoutLines_eq_of_map_render_eq hclean hclean' (by decide +kernel)
    (by decide +kernel) hsame⟩

end Scriptlet
