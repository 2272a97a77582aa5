import Scriptlet.Proofs.Grammar.Expression

/-!
# The grammar of programs

Which token lists are programs, and the statements of each, on top of the grammar of expressions.

    program     -> declaration*
    declaration -> varDecl | "fun" IDENT "(" ( IDENT ( "," IDENT )* )? ")" block | statement
    varDecl     -> "var" IDENT ( "=" expression )? ";"
    statement   -> "print" expression ";"
                 | "if" "(" expression ")" statement ( "else" statement )?
                 | "while" "(" expression ")" statement
                 | "for" "(" initializer expression? ";" expression? ")" statement
                 | "return" expression? ";" | block | expression ";"
    initializer -> varDecl | expression ";" | ";"
    block       -> "{" declaration* "}"

These productions are ambiguous: an `else` behind two conditionals can belong to either. The
relation takes the rule that decides this as a parameter. With `Attachment.any` it is the bare
grammar; with `Attachment.nearest` the branch in front of an `else` must not end in a conditional
that could still take it.

## Main definitions

* `Grammar.Attachment` — to which conditional an `else` may belong
* `Grammar.StmtPhrase`, `Grammar.StmtPhrase.Derives` — phrases, and the trees of their token lists
* `Grammar.Program` — programs and their statements

## Main results

* `Program.exists_nearest` — every program of the bare grammar is one in which each `else` belongs
  to the nearest conditional
-/

namespace Scriptlet.Grammar

/-- To which of the conditionals in front of it an `else` may belong. -/
inductive Attachment
  /-- To any that has none yet. -/
  | any
  /-- To the nearest. -/
  | nearest
  deriving DecidableEq

/-- A variable declaration. -/
inductive VarDecl : List Token → Tree → Prop
  | bare {key name semicolon : Token} :
      key.kind = .varKey → name.kind = .identifier → semicolon.kind = .semicolon →
      VarDecl [key, name, semicolon] (.varDecl name .null)
  | initialized {key name equals semicolon : Token} {us : List Token} {e : Tree} :
      key.kind = .varKey → name.kind = .identifier → equals.kind = .equal →
      ExprPhrase.expression.Derives us e → semicolon.kind = .semicolon →
      VarDecl (key :: name :: equals :: (us ++ [semicolon])) (.varDecl name e)

/-- The first clause of a `for` loop. -/
inductive Initializer : List Token → Tree → Prop
  | declaration {us : List Token} {t : Tree} : VarDecl us t → Initializer us t
  | expression {semicolon : Token} {us : List Token} {e : Tree} :
      ExprPhrase.expression.Derives us e → semicolon.kind = .semicolon →
      Initializer (us ++ [semicolon]) (.exprStmt e)
  | empty {semicolon : Token} : semicolon.kind = .semicolon → Initializer [semicolon] .null

/-- `expression?` -/
inductive OptionalExpr : List Token → Tree → Prop
  | absent : OptionalExpr [] .null
  | present {us : List Token} {e : Tree} :
      ExprPhrase.expression.Derives us e → OptionalExpr us e

/-- A single name. -/
def Name (us : List Token) (name : Token) : Prop := us = [name] ∧ name.kind = .identifier

/-- `( IDENT ( "," IDENT )* )?` -/
inductive Parameters : List Token → List Token → Prop
  | none : Parameters [] []
  | some {us names : List Token} : CommaList Name us names → Parameters us names

/-- What programs are made of besides expressions. -/
inductive StmtPhrase
  | declarations
  | declaration
  /-- A statement; `dangling` if it ends in a conditional without `else`. -/
  | statement (dangling : Bool)
  | block

/-- The token lists of a phrase with their trees; those of declarations and blocks are lists. -/
inductive StmtPhrase.Derives (rule : Attachment) : StmtPhrase → List Token → Tree → Prop
  | noDeclaration : Derives rule .declarations [] (.list [])
  | declarations {us vs : List Token} {s : Tree} {ss : List Tree} :
      Derives rule .declaration us s → Derives rule .declarations vs (.list ss) →
      Derives rule .declarations (us ++ vs) (.list (s :: ss))
  | variableDeclaration {us : List Token} {s : Tree} :
      VarDecl us s → Derives rule .declaration us s
  | function {key name opening closing : Token} {us vs names : List Token} {body : List Tree} :
      key.kind = .funKey → name.kind = .identifier → opening.kind = .leftParen →
      Parameters us names → closing.kind = .rightParen → Derives rule .block vs (.list body) →
      Derives rule .declaration (key :: name :: opening :: (us ++ closing :: vs))
        (.funDecl name (.list (names.map .token)) (.list body))
  | statement {dangling : Bool} {us : List Token} {s : Tree} :
      Derives rule (.statement dangling) us s → Derives rule .declaration us s
  | print {key semicolon : Token} {us : List Token} {e : Tree} :
      key.kind = .printKey → ExprPhrase.expression.Derives us e → semicolon.kind = .semicolon →
      Derives rule (.statement false) (key :: (us ++ [semicolon])) (.printStmt e)
  | ifThen {key opening closing : Token} {us vs : List Token} {c s : Tree} {dangling : Bool} :
      key.kind = .ifKey → opening.kind = .leftParen → ExprPhrase.expression.Derives us c →
      closing.kind = .rightParen → Derives rule (.statement dangling) vs s →
      Derives rule (.statement true) (key :: opening :: (us ++ closing :: vs)) (.ifStmt c s .null)
  | ifElse {key opening closing other : Token} {us vs ws : List Token} {c s s' : Tree}
      {dangling dangling' : Bool} :
      key.kind = .ifKey → opening.kind = .leftParen → ExprPhrase.expression.Derives us c →
      closing.kind = .rightParen → Derives rule (.statement dangling) vs s →
      (rule = .nearest → dangling = false) → other.kind = .elseKey →
      Derives rule (.statement dangling') ws s' →
      Derives rule (.statement dangling') (key :: opening :: (us ++ closing :: (vs ++ other :: ws)))
        (.ifStmt c s s')
  | whileLoop {key opening closing : Token} {us vs : List Token} {c s : Tree} {dangling : Bool} :
      key.kind = .whileKey → opening.kind = .leftParen → ExprPhrase.expression.Derives us c →
      closing.kind = .rightParen → Derives rule (.statement dangling) vs s →
      Derives rule (.statement dangling) (key :: opening :: (us ++ closing :: vs)) (.whileStmt c s)
  | forLoop {key opening semicolon closing : Token} {us vs ws xs : List Token}
      {i c n s : Tree} {dangling : Bool} :
      key.kind = .forKey → opening.kind = .leftParen → Initializer us i → OptionalExpr vs c →
      semicolon.kind = .semicolon → OptionalExpr ws n → closing.kind = .rightParen →
      Derives rule (.statement dangling) xs s →
      Derives rule (.statement dangling)
        (key :: opening :: (us ++ (vs ++ semicolon :: (ws ++ closing :: xs))))
        (.desugarFor i c n s)
  | returnValue {key semicolon : Token} {us : List Token} {e : Tree} :
      key.kind = .returnKey → OptionalExpr us e → semicolon.kind = .semicolon →
      Derives rule (.statement false) (key :: (us ++ [semicolon])) (.returnStmt key e)
  | blockStatement {us : List Token} {t : Tree} :
      Derives rule .block us t → Derives rule (.statement false) us (.block t)
  | expression {semicolon : Token} {us : List Token} {e : Tree} :
      ExprPhrase.expression.Derives us e → semicolon.kind = .semicolon →
      Derives rule (.statement false) (us ++ [semicolon]) (.exprStmt e)
  | block {opening closing : Token} {us : List Token} {t : Tree} :
      opening.kind = .leftBrace → Derives rule .declarations us t → closing.kind = .rightBrace →
      Derives rule .block (opening :: (us ++ [closing])) t

/-- The token lists that are programs, with their statements. -/
def Program (rule : Attachment) (ts : List Token) (statements : List Tree) : Prop :=
  StmtPhrase.declarations.Derives rule ts (.list statements)

/-! ### How statements start -/

/-- The kinds of tokens that start statements. -/
def statementStarts : List Kind :=
  [.printKey, .ifKey, .whileKey, .forKey, .returnKey, .leftBrace] ++ expressionStarts

/-- The kinds of tokens that start declarations. -/
def declarationStarts : List Kind := [.varKey, .funKey] ++ statementStarts

theorem VarDecl.starts {us : List Token} {t : Tree} (h : VarDecl us t) :
    ∃ key vs, us = key :: vs ∧ key.kind = .varKey := by
  cases h with
  | bare hkey | initialized hkey => exact ⟨_, _, rfl, hkey⟩

/-- The kinds of tokens with which a phrase starts; none for the phrase that may be empty. -/
def StmtPhrase.starts : StmtPhrase → Option (List Kind)
  | declarations => none
  | declaration => some declarationStarts
  | statement _ => some statementStarts
  | block => some [.leftBrace]

namespace StmtPhrase.Derives

variable {rule : Attachment}

/-- A phrase that is not empty starts with a token that starts such phrases. -/
theorem starts {phrase : StmtPhrase} {us : List Token} {s : Tree} {kinds : List Kind}
    (h : phrase.Derives rule us s) (hkinds : phrase.starts = some kinds) :
    ∃ t vs, us = t :: vs ∧ t.kind ∈ kinds := by
  induction h generalizing kinds with
  | noDeclaration | declarations => cases hkinds
  | variableDeclaration h =>
    cases hkinds
    obtain ⟨key, vs, rfl, hkey⟩ := h.starts
    exact ⟨key, vs, rfl, by simp [hkey, declarationStarts]⟩
  | function hkey =>
    cases hkinds
    exact ⟨_, _, rfl, by simp [hkey, declarationStarts]⟩
  | statement _ ih =>
    cases hkinds
    obtain ⟨t, vs, rfl, ht⟩ := ih rfl
    exact ⟨t, vs, rfl, List.mem_append_right _ ht⟩
  | print hkey | ifThen hkey | ifElse hkey | whileLoop hkey | forLoop hkey | returnValue hkey =>
    cases hkinds
    exact ⟨_, _, rfl, by simp [hkey, statementStarts]⟩
  | blockStatement _ ih =>
    cases hkinds
    obtain ⟨t, vs, rfl, ht⟩ := ih rfl
    exact ⟨t, vs, rfl, by simp [List.mem_singleton.1 ht, statementStarts]⟩
  | expression h =>
    cases hkinds
    obtain ⟨t, vs, rfl, ht⟩ := h.starts trivial
    exact ⟨t, _, rfl, List.mem_append_right _ ht⟩
  | block hopening =>
    cases hkinds
    exact ⟨_, _, rfl, by simp [hopening]⟩

/-! ### Attaching an `else` to the nearest conditional -/

/-- A statement that ends in a conditional without `else` can take one. -/
theorem exists_absorb {us vs : List Token} {s s' : Tree} {other : Token} {dangling : Bool}
    (h : (StmtPhrase.statement true).Derives .nearest us s) (hother : other.kind = .elseKey)
    (h' : (StmtPhrase.statement dangling).Derives .nearest vs s') :
    ∃ d t, (StmtPhrase.statement d).Derives .nearest (us ++ other :: vs) t := by
  -- only the four statements that end in another one can dangle
  generalize hphrase : StmtPhrase.statement true = phrase at h
  induction h with
  | @ifThen _ _ _ _ _ _ _ inner hkey hopening hc hclosing hs ih =>
    -- the conditional at hand is the nearest one unless its branch dangles itself
    cases inner with
    | false =>
      have := StmtPhrase.Derives.ifElse hkey hopening hc hclosing hs (fun _ => rfl) hother h'
      exact ⟨_, _, by simpa using this⟩
    | true =>
      obtain ⟨d, t, ht⟩ := ih rfl
      have := StmtPhrase.Derives.ifThen hkey hopening hc hclosing ht
      exact ⟨_, _, by simpa using this⟩
  -- the `else` goes to whatever ends the last branch
  | ifElse hkey hopening hc hclosing hs hnear hother' _ _ ih =>
    obtain ⟨d, t, ht⟩ := ih hphrase
    have := StmtPhrase.Derives.ifElse hkey hopening hc hclosing hs hnear hother' ht
    exact ⟨_, _, by simpa using this⟩
  | whileLoop hkey hopening hc hclosing _ ih =>
    obtain ⟨d, t, ht⟩ := ih hphrase
    have := StmtPhrase.Derives.whileLoop hkey hopening hc hclosing ht
    exact ⟨_, _, by simpa using this⟩
  | forLoop hkey hopening hi hc hsemicolon hn hclosing _ ih =>
    obtain ⟨d, t, ht⟩ := ih hphrase
    have := StmtPhrase.Derives.forLoop hkey hopening hi hc hsemicolon hn hclosing ht
    exact ⟨_, _, by simpa using this⟩
  | _ => cases hphrase

/-- What a phrase of the bare grammar has in the grammar in which an `else` belongs to the nearest
conditional. Moving an `else` inwards changes the tree, and may leave an outer conditional without
one. -/
def HasNearest (us : List Token) : StmtPhrase → Prop
  | .statement _ => ∃ d t, (StmtPhrase.statement d).Derives .nearest us t
  | .declaration => ∃ t, StmtPhrase.declaration.Derives .nearest us t
  | phrase => ∃ ts, phrase.Derives .nearest us (.list ts)

theorem hasNearest {phrase : StmtPhrase} {us : List Token} {s : Tree}
    (h : phrase.Derives rule us s) : HasNearest us phrase := by
  induction h with
  | noDeclaration => exact ⟨[], .noDeclaration⟩
  | declarations _ _ ih ihs =>
    obtain ⟨t, ht⟩ := ih
    obtain ⟨ts, hts⟩ := ihs
    exact ⟨t :: ts, .declarations ht hts⟩
  | variableDeclaration h => exact ⟨_, .variableDeclaration h⟩
  | function hkey hname hopening hparams hclosing _ ih =>
    obtain ⟨body, hbody⟩ := ih
    exact ⟨_, .function hkey hname hopening hparams hclosing hbody⟩
  | statement _ ih =>
    obtain ⟨d, t, ht⟩ := ih
    exact ⟨t, .statement ht⟩
  | print hkey he hsemicolon => exact ⟨_, _, .print hkey he hsemicolon⟩
  | ifThen hkey hopening hc hclosing _ ih =>
    obtain ⟨d, t, ht⟩ := ih
    exact ⟨_, _, .ifThen hkey hopening hc hclosing ht⟩
  | ifElse hkey hopening hc hclosing _ _ hother _ ih ih' =>
    obtain ⟨d', t', ht'⟩ := ih'
    obtain ⟨d, t, ht⟩ := ih
    -- an `else` behind a branch that dangles moves into the branch
    cases d with
    | false => exact ⟨_, _, .ifElse hkey hopening hc hclosing ht (fun _ => rfl) hother ht'⟩
    | true =>
      obtain ⟨d'', t'', ht''⟩ := exists_absorb ht hother ht'
      exact ⟨_, _, .ifThen hkey hopening hc hclosing ht''⟩
  | whileLoop hkey hopening hc hclosing _ ih =>
    obtain ⟨d, t, ht⟩ := ih
    exact ⟨_, _, .whileLoop hkey hopening hc hclosing ht⟩
  | forLoop hkey hopening hi hc hsemicolon hn hclosing _ ih =>
    obtain ⟨d, t, ht⟩ := ih
    exact ⟨_, _, .forLoop hkey hopening hi hc hsemicolon hn hclosing ht⟩
  | returnValue hkey he hsemicolon => exact ⟨_, _, .returnValue hkey he hsemicolon⟩
  | blockStatement _ ih =>
    obtain ⟨ts, hts⟩ := ih
    exact ⟨_, _, .blockStatement hts⟩
  | expression he hsemicolon => exact ⟨_, _, .expression he hsemicolon⟩
  | block hopening _ hclosing ih =>
    obtain ⟨ts, hts⟩ := ih
    exact ⟨ts, .block hopening hts hclosing⟩

/-- The rule that decides where an `else` belongs only forbids derivations. -/
theorem any {phrase : StmtPhrase} {us : List Token} {s : Tree} (h : phrase.Derives rule us s) :
    phrase.Derives .any us s := by
  induction h with
  | noDeclaration => exact .noDeclaration
  | declarations _ _ ih ihs => exact .declarations ih ihs
  | variableDeclaration h => exact .variableDeclaration h
  | function hkey hname hopening hparams hclosing _ ih =>
    exact .function hkey hname hopening hparams hclosing ih
  | statement _ ih => exact .statement ih
  | print hkey he hsemicolon => exact .print hkey he hsemicolon
  | ifThen hkey hopening hc hclosing _ ih => exact .ifThen hkey hopening hc hclosing ih
  | ifElse hkey hopening hc hclosing _ _ hother _ ih ih' =>
    exact .ifElse hkey hopening hc hclosing ih nofun hother ih'
  | whileLoop hkey hopening hc hclosing _ ih => exact .whileLoop hkey hopening hc hclosing ih
  | forLoop hkey hopening hi hc hsemicolon hn hclosing _ ih =>
    exact .forLoop hkey hopening hi hc hsemicolon hn hclosing ih
  | returnValue hkey he hsemicolon => exact .returnValue hkey he hsemicolon
  | blockStatement _ ih => exact .blockStatement ih
  | expression he hsemicolon => exact .expression he hsemicolon
  | block hopening _ hclosing ih => exact .block hopening ih hclosing

end StmtPhrase.Derives

theorem Program.any {rule : Attachment} {ts : List Token} {statements : List Tree}
    (h : Program rule ts statements) : Program .any ts statements :=
  StmtPhrase.Derives.any h

/-- Every program of the bare grammar is also one in which each `else` belongs to the nearest
conditional. -/
theorem Program.exists_nearest {rule : Attachment} {ts : List Token} {statements : List Tree}
    (h : Program rule ts statements) : ∃ statements', Program .nearest ts statements' :=
  StmtPhrase.Derives.hasNearest h

/-! ### The dot has no place in a program -/

theorem VarDecl.dotless {us : List Token} {t : Tree} (h : VarDecl us t) : Dotless us := by
  cases h with
  | bare hkey hname hsemicolon => simp [hkey, hname, hsemicolon]
  | initialized hkey hname hequals he hsemicolon =>
    simp [hkey, hname, hequals, he.dotless, hsemicolon]

theorem Initializer.dotless {us : List Token} {t : Tree} (h : Initializer us t) : Dotless us := by
  cases h with
  | declaration h => exact h.dotless
  | expression he hsemicolon => simp [he.dotless, hsemicolon]
  | empty hsemicolon => simp [hsemicolon]

theorem OptionalExpr.dotless {us : List Token} {e : Tree} (h : OptionalExpr us e) : Dotless us := by
  cases h with
  | absent => exact dotless_nil
  | present he => exact he.dotless

theorem CommaTail.dotless {α : Type} {item : List Token → α → Prop} {us : List Token} {as : List α}
    (hitem : ∀ us a, item us a → Dotless us) (h : CommaTail item us as) : Dotless us := by
  induction h with
  | nil => exact dotless_nil
  | cons hcomma ha _ ih => simp [hcomma, hitem _ _ ha, ih]

theorem Parameters.dotless {us names : List Token} (h : Parameters us names) : Dotless us := by
  have hname (us : List Token) (name : Token) (h : Name us name) : Dotless us := by
    rw [h.1]
    simp [h.2]
  cases h with
  | none => exact dotless_nil
  | some h =>
    obtain ⟨us, vs, name, names, rfl, rfl, hfirst, htail⟩ := h
    simp [hname _ _ hfirst, htail.dotless hname]

theorem StmtPhrase.Derives.dotless {rule : Attachment} {phrase : StmtPhrase} {us : List Token}
    {s : Tree} (h : phrase.Derives rule us s) : Dotless us := by
  induction h with
  | noDeclaration => exact dotless_nil
  | declarations _ _ ih ihs => simp [ih, ihs]
  | variableDeclaration h => exact h.dotless
  | function hkey hname hopening hparams hclosing _ ih =>
    simp [hkey, hname, hopening, hparams.dotless, hclosing, ih]
  | statement _ ih | blockStatement _ ih => exact ih
  | print hkey he hsemicolon => simp [hkey, he.dotless, hsemicolon]
  | ifThen hkey hopening hc hclosing _ ih => simp [hkey, hopening, hc.dotless, hclosing, ih]
  | ifElse hkey hopening hc hclosing _ _ hother _ ih ih' =>
    simp [hkey, hopening, hc.dotless, hclosing, ih, hother, ih']
  | whileLoop hkey hopening hc hclosing _ ih => simp [hkey, hopening, hc.dotless, hclosing, ih]
  | forLoop hkey hopening hi hc hsemicolon hn hclosing _ ih =>
    simp [hkey, hopening, hi.dotless, hc.dotless, hsemicolon, hn.dotless, hclosing, ih]
  | returnValue hkey he hsemicolon => simp [hkey, he.dotless, hsemicolon]
  | expression he hsemicolon => simp [he.dotless, hsemicolon]
  | block hopening _ hclosing ih => simp [hopening, ih, hclosing]

end Scriptlet.Grammar
