import Scriptlet.Proofs.Grammar.Statement
import Scriptlet.Proofs.Parse.Contract

/-!
# The parser builds trees of the grammar

Every parsing function that ends without adding a complaint has taken a token list that its phrase
derives, and yields the tree of that derivation. An `else` is taken by the innermost conditional
that is being parsed, so the derivations attach it to the nearest one.

## Main definitions

* `Parse.Spans` — the promise that a prefix of the tokens, and no more, was taken

## Main results

* `Parse.ensures_expression`, `Parse.ensures_statement`, `Parse.ensures_declaration`
* `Parse.ensures_program` — a program that is parsed without a complaint is derived by the grammar
-/

namespace Scriptlet.Parse

open Grammar

/-- The tokens taken stand in relation `I` to the result. -/
def Spans {α : Type} (I : List Token → α → Prop) (ts : List Token) (a : α) (rest : List Token) :
    Prop := ∃ us, ts = us ++ rest ∧ I us a

/-! ### Items behind separators -/

/-- A loop that takes a separator and an item at a time and folds the item into its result. -/
theorem ensures_separated {α β : Type} {item : Parse β} {I : List Token → β → Prop}
    {R : α → List Token → α → Prop} (kinds : List Kind) (f : α → Token → β → α)
    (hitem : Ensures item (Spans I)) (hnil : ∀ a, R a [] a)
    (hcons : ∀ a sep us x vs c, sep.kind ∈ kinds → I us x → R (f a sep x) vs c →
      R a (sep :: (us ++ vs)) c) (a : α) :
    Ensures (repeated (separatedStep kinds f item) a) (Spans (R a)) := by
  -- what one round does: nothing, or a separator and an item folded into the result
  let Step (a : α) (ts : List Token) (o : Option α) (rest : List Token) : Prop :=
    o.elim (rest = ts) fun b => ∃ sep us x, ts = sep :: (us ++ rest) ∧ sep.kind ∈ kinds ∧
      I us x ∧ b = f a sep x
  refine Ensures.repeated (S := Step) (R := fun a => Spans (R a)) ?_ ?_ ?_ ?_ ?_ a
  · intro a
    refine Ensures.accept?_bind (fun sep hk => ?_) ?_
    · apply (Ensures.bind hitem fun x => Ensures.pure (some (f a sep x))).mono
      intro ts out rest hpieces
      obtain ⟨x, mid, ⟨us, rfl, hx⟩, rfl, rfl⟩ := hpieces
      exact ⟨sep, us, x, rfl, hk, hx, rfl⟩
    · apply Ensures.pure_of
      intro ts _
      exact rfl
  · intro a b ts mid hpieces
    obtain ⟨sep, us, x, rfl, -⟩ := hpieces
    simp only [List.length_cons, List.length_append]
    omega
  · exact fun a => ⟨[], rfl, hnil a⟩
  · rintro a ts rest rfl
    exact ⟨[], rfl, hnil a⟩
  · intro a b c ts mid rest hpieces hpieces'
    obtain ⟨sep, us, x, rfl, hk, hx, rfl⟩ := hpieces
    obtain ⟨vs, rfl, hrest⟩ := hpieces'
    exact ⟨_, by simp, hcons a sep us x vs c hk hx hrest⟩

theorem ensures_commaSeparated {α : Type} {item : Parse α} {I : List Token → α → Prop}
    (h : Ensures item (Spans I)) : Ensures (commaSeparated item) (Spans (CommaList I)) := by
  -- the loop collects the items in reverse
  let Loop (items : List α) (us : List Token) (all : List α) : Prop :=
    ∃ more, all = more.reverse ++ items ∧ CommaTail I us more
  have hloop (items : List α) := ensures_separated (R := Loop) [.comma]
    (fun items _ x => x :: items) h (fun items => ⟨[], rfl, .nil⟩)
    (fun items comma us x vs all hk hx ⟨more, hall, hmore⟩ =>
      ⟨x :: more, by simp [hall], .cons (List.mem_singleton.1 hk) hx hmore⟩) items
  apply (Ensures.bind h fun a => Ensures.bind (hloop [a]) fun all =>
    Ensures.pure all.reverse).mono
  intro ts as rest hpieces
  obtain ⟨a, _, ⟨us, rfl, ha⟩, all, _, ⟨vs, rfl, more, rfl, hmore⟩, rfl, rfl⟩ := hpieces
  exact ⟨us ++ vs, by simp, us, vs, a, more, rfl, by simp, ha, hmore⟩

theorem ensures_listBefore {α : Type} {items : Parse (List α)} {I : List Token → List α → Prop}
    (kind : Kind) (h : Ensures items (Spans I)) :
    Ensures (listBefore kind items) (Spans fun us as => (us = [] ∧ as = []) ∨ I us as) := by
  refine Ensures.nextIs_bind fun b => Ensures.ite (fun _ => ?_) fun _ => ?_
  · apply Ensures.pure_of
    intro ts _
    exact ⟨[], rfl, .inl ⟨rfl, rfl⟩⟩
  · apply h.mono
    intro ts as rest hpieces _
    obtain ⟨us, rfl, hus⟩ := hpieces
    exact ⟨us, rfl, .inr hus⟩

/-! ### Expressions -/

/-- The row of the operator table that a rank names. -/
def rankLevel (rank : Rank) : Level := ⟨rank.operators, rank.build⟩

/-- The rows of the operator table behind a rank. -/
def tighterLevels : Rank → List Level
  | .disjunction => levels.drop 1
  | .conjunction => levels.drop 2
  | .equality => levels.drop 3
  | .comparison => levels.drop 4
  | .term => levels.drop 5
  | .factor => []

/-- The rows of the operator table from a rank on. -/
def rankLevels (rank : Rank) : List Level := rankLevel rank :: tighterLevels rank

theorem ensures_foldLevel (rank : Rank) {operand : Parse Tree}
    (h : Ensures operand (Spans rank.operand.Derives)) :
    Ensures (foldLevel (rankLevel rank) operand) (Spans (ExprPhrase.level rank).Derives) := by
  have hloop (left : Tree) := ensures_separated
    (R := fun left => (ExprPhrase.operands rank left).Derives) rank.operators rank.build h
    (fun _ => .noOperand) (fun _ _ _ _ _ _ hk hright hrest => .operand hk hright hrest) left
  apply (Ensures.bind h fun left => hloop left).mono
  intro ts e rest hpieces
  obtain ⟨left, _, ⟨us, rfl, hleft⟩, vs, rfl, hrest⟩ := hpieces
  exact ⟨us ++ vs, by simp, .level hleft hrest⟩

/-- The assignment of a value to a target. -/
inductive Assigned (value : Tree) : Tree → Tree → Prop
  | name (t : Token) : Assigned value (.varRef t) (.assign t value)
  | index (target : Tree) (bracket : Token) (i : Tree) :
      Assigned value (.index target bracket i) (.assignIndex target bracket i value)

theorem Assigned.derives {left value e : Tree} {us vs : List Token} {equals : Token}
    (h : Assigned value left e) (hleft : (ExprPhrase.level .disjunction).Derives us left)
    (hequals : equals.kind = .equal) (hvalue : ExprPhrase.expression.Derives vs value) :
    ExprPhrase.expression.Derives (us ++ equals :: vs) e := by
  cases h with
  -- an operand chain whose tree is a bare name consists of that name
  | name t =>
    obtain ⟨rfl, hname⟩ := hleft.eq_name
    exact .assign hname hequals hvalue
  -- one whose tree is an indexing ends with the index
  | index target bracket i =>
    obtain ⟨ws, opening, xs, rfl, htarget, hopening, hindex, hbracket⟩ := hleft.eq_index
    have := ExprPhrase.Derives.assignIndex htarget hopening hindex hbracket hequals hvalue
    simpa using this

theorem ensures_assignTo (left value : Tree) (equalsOn : List Token) :
    Ensures (assignTo left value equalsOn) fun ts e rest =>
      rest = ts ∧ Assigned value left e := by
  unfold assignTo
  split
  · exact Ensures.pure_of fun ts => ⟨rfl, .name _⟩
  · exact Ensures.pure_of fun ts => ⟨rfl, .index _ _ _⟩
  -- any other left side is complained about
  · apply (Ensures.bind (Ensures.complain _ _) fun _ => Ensures.pure left).mono
    intro ts e rest hpieces
    obtain ⟨_, _, hfalse, -⟩ := hpieces
    exact hfalse.elim

theorem ensures_callArguments {expression : Parse Tree}
    (h : Ensures expression (Spans ExprPhrase.expression.Derives)) :
    Ensures (callArguments expression) (Spans fun us (out : Token × List Tree) =>
      ∃ vs, us = vs ++ [out.1] ∧ ExprPhrase.arguments.Derives vs (.list out.2) ∧
        out.1.kind = .rightParen) := by
  rw [callArguments_eq]
  have hargs := ensures_listBefore .rightParen (ensures_commaSeparated h)
  apply (Ensures.bind hargs fun args => Ensures.bind (Ensures.expect .rightParen _) fun paren =>
    Ensures.pure (paren, args)).mono
  intro ts out rest hpieces
  obtain ⟨args, _, ⟨us, rfl, hargs⟩, paren, _, ⟨rfl, hparen⟩, rfl, rfl⟩ := hpieces
  refine ⟨us ++ [paren], by simp, us, rfl, ?_, hparen⟩
  rcases hargs with ⟨rfl, rfl⟩ | hargs
  · exact .noArguments
  · exact .arguments_of_commaList hargs

/-- What one call or indexing behind `e` takes, and what it makes of `e`. -/
inductive Suffix (e : Tree) : List Token → Tree → Prop
  | call {opening closing : Token} {us : List Token} {args : List Tree} :
      opening.kind = .leftParen → ExprPhrase.arguments.Derives us (.list args) →
      closing.kind = .rightParen →
      Suffix e (opening :: (us ++ [closing])) (.call e closing (.list args))
  | index {opening closing : Token} {us : List Token} {i : Tree} :
      opening.kind = .leftBracket → ExprPhrase.expression.Derives us i →
      closing.kind = .rightBracket → Suffix e (opening :: (us ++ [closing])) (.index e closing i)

theorem Suffix.ne_nil {e e' : Tree} {us : List Token} (h : Suffix e us e') : us ≠ [] := by
  cases h <;> exact List.cons_ne_nil _ _

theorem Suffix.derives {e e' e'' : Tree} {us vs : List Token} (h : Suffix e us e')
    (hrest : (ExprPhrase.suffixes e').Derives vs e'') :
    (ExprPhrase.suffixes e).Derives (us ++ vs) e'' := by
  cases h with
  | call hopening hargs hclosing => simpa using .callSuffix hopening hargs hclosing hrest
  | index hopening hindex hclosing => simpa using .indexSuffix hopening hindex hclosing hrest

theorem ensures_trailer? {expression : Parse Tree}
    (h : Ensures expression (Spans ExprPhrase.expression.Derives)) (e : Tree) :
    Ensures (trailer? expression e) fun ts o rest =>
      o.elim (rest = ts) fun e' => Spans (Suffix e) ts e' rest := by
  refine Ensures.accept?_bind (fun t ht => Ensures.ite (fun hk => ?_) fun hk => ?_) ?_
  · apply (Ensures.bind (ensures_callArguments h) fun out => Ensures.pure _).mono
    intro ts out rest hpieces
    obtain ⟨⟨paren, args⟩, _, ⟨_, rfl, us, rfl, hargs, hparen⟩, rfl, rfl⟩ := hpieces
    exact ⟨t :: (us ++ [paren]), rfl, .call hk hargs hparen⟩
  · apply (Ensures.bind h fun index => Ensures.bind (Ensures.expect .rightBracket _)
      fun bracket => Ensures.pure _).mono
    intro ts out rest hpieces
    obtain ⟨index, _, ⟨us, rfl, hindex⟩, bracket, _, ⟨rfl, hbracket⟩, rfl, rfl⟩ := hpieces
    have hopening : t.kind = .leftBracket := by simpa [hk] using ht
    exact ⟨t :: (us ++ [bracket]), by simp, .index hopening hindex hbracket⟩
  · apply Ensures.pure_of
    intro ts _
    exact rfl

theorem ensures_suffixes {expression : Parse Tree}
    (h : Ensures expression (Spans ExprPhrase.expression.Derives)) (e : Tree) :
    Ensures (repeated (trailer? expression) e) (Spans (ExprPhrase.suffixes e).Derives) := by
  -- each round takes a suffix, which is not empty; the suffixes are strung together
  refine Ensures.repeated (R := fun e => Spans (ExprPhrase.suffixes e).Derives)
    (ensures_trailer? h) ?_ ?_ ?_ ?_ e
  · intro e e' ts mid hpieces
    obtain ⟨us, rfl, hsuffix⟩ := hpieces
    have := List.length_pos_iff.2 hsuffix.ne_nil
    simpa using this
  · exact fun e => ⟨[], rfl, .noSuffix⟩
  · rintro e ts rest rfl
    exact ⟨[], rfl, .noSuffix⟩
  · intro e e' e'' ts mid rest hpieces hpieces'
    obtain ⟨us, rfl, hsuffix⟩ := hpieces
    obtain ⟨vs, rfl, hrest⟩ := hpieces'
    exact ⟨us ++ vs, by simp, hsuffix.derives hrest⟩

theorem ensures_primaryWith {expression : Parse Tree}
    (h : Ensures expression (Spans ExprPhrase.expression.Derives)) :
    Ensures (primaryWith expression) (Spans ExprPhrase.primary.Derives) := by
  refine Ensures.accept?_bind (fun t ht => ?_) (Ensures.fail .expression)
  -- every kind but the parenthesis stands for itself
  have single (e : Tree) (he : ExprPhrase.primary.Derives [t] e) :
      Ensures (pure e) fun ts e rest => Spans ExprPhrase.primary.Derives (t :: ts) e rest := by
    apply Ensures.pure_of
    intro ts
    exact ⟨[t], rfl, he⟩
  dsimp only
  split
  · next hk => exact single _ (.falseLiteral hk)
  · next hk => exact single _ (.trueLiteral hk)
  · next hk => exact single _ (.nilLiteral hk)
  · next hk => exact single _ (.name hk)
  · next hk =>
    apply (Ensures.bind h fun e => Ensures.bind (Ensures.expect .rightParen _) fun _ =>
      Ensures.pure (Tree.grouping e)).mono
    intro ts _ rest hpieces
    obtain ⟨e, _, ⟨us, rfl, he⟩, closing, _, ⟨rfl, hclosing⟩, rfl, rfl⟩ := hpieces
    exact ⟨t :: (us ++ [closing]), by simp, .grouping hk he hclosing⟩
  · -- numbers and strings are left
    refine single _ (.literal ?_)
    simp only [primaryKinds, List.mem_cons, List.not_mem_nil, or_false] at ht ⊢
    grind

mutual

theorem ensures_expression : ∀ d, Ensures (expression d) (Spans ExprPhrase.expression.Derives)
  | 0 => .throw
  | d + 1 => ensures_assignment d

theorem ensures_assignment : ∀ d, Ensures (assignment d) (Spans ExprPhrase.expression.Derives)
  | 0 => .throw
  | d + 1 => by
    -- what stands behind the left side: nothing that belongs to it, or an equals sign and a value
    have hrest (left : Tree) (equalsOn : List Token) : Ensures (do
        match ← accept? [.equal] with
        | some _ => do
          let value ← assignment d
          assignTo left value equalsOn
        | none => return left)
        (Spans fun vs e => (vs = [] ∧ e = left) ∨ ∃ equals ws value, vs = equals :: ws ∧
          equals.kind = .equal ∧ ExprPhrase.expression.Derives ws value ∧
          Assigned value left e) := by
      refine Ensures.accept?_bind (fun equals hequals => ?_) ?_
      · apply (Ensures.bind (ensures_assignment d) fun value =>
          ensures_assignTo left value equalsOn).mono
        intro ts e rest hpieces
        obtain ⟨value, _, ⟨ws, rfl, hvalue⟩, rfl, he⟩ := hpieces
        refine ⟨equals :: ws, rfl, .inr ⟨equals, ws, value, rfl, ?_, hvalue, he⟩⟩
        exact List.mem_singleton.1 hequals
      · apply Ensures.pure_of
        intro ts _
        exact ⟨[], rfl, .inl ⟨rfl, rfl⟩⟩
    apply (Ensures.bind (ensures_binary d .disjunction) fun left =>
      Ensures.bind Ensures.get fun s => hrest left s.rest).mono
    intro ts e rest hpieces
    obtain ⟨left, _, ⟨us, rfl, hleft⟩, _, _, ⟨-, rfl⟩, vs, rfl, he⟩ := hpieces
    refine ⟨us ++ vs, by simp, ?_⟩
    rcases he with ⟨rfl, rfl⟩ | ⟨equals, ws, value, rfl, hequals, hvalue, he⟩
    · simpa using .plain hleft
    -- the shape of the left side tells which tokens it was read from
    · exact he.derives hleft hequals hvalue

theorem ensures_binary : ∀ d rank,
    Ensures (binary d (rankLevels rank)) (Spans (ExprPhrase.level rank).Derives)
  | 0, _ => .throw
  | d + 1, .disjunction => ensures_foldLevel .disjunction (ensures_binary d .conjunction)
  | d + 1, .conjunction => ensures_foldLevel .conjunction (ensures_binary d .equality)
  | d + 1, .equality => ensures_foldLevel .equality (ensures_binary d .comparison)
  | d + 1, .comparison => ensures_foldLevel .comparison (ensures_binary d .term)
  | d + 1, .term => ensures_foldLevel .term (ensures_binary d .factor)
  | d + 1, .factor => ensures_foldLevel .factor (ensures_binary_nil d)

theorem ensures_binary_nil : ∀ d, Ensures (binary d []) (Spans ExprPhrase.unary.Derives)
  | 0 => .throw
  | d + 1 => ensures_unary d

theorem ensures_unary : ∀ d, Ensures (unary d) (Spans ExprPhrase.unary.Derives)
  | 0 => .throw
  | d + 1 => by
    refine Ensures.accept?_bind (fun op hop => ?_) ?_
    · apply (Ensures.bind (ensures_unary d) fun right =>
        Ensures.pure (Tree.unary op right)).mono
      intro ts e rest hpieces
      obtain ⟨right, _, ⟨us, rfl, hright⟩, rfl, rfl⟩ := hpieces
      exact ⟨op :: us, rfl, .unaryOperator hop hright⟩
    · apply (ensures_call d).mono
      intro ts e rest hpieces _
      obtain ⟨us, rfl, he⟩ := hpieces
      exact ⟨us, rfl, .unaryCall he⟩

theorem ensures_call : ∀ d, Ensures (call d) (Spans ExprPhrase.call.Derives)
  | 0 => .throw
  | d + 1 => by
    apply (Ensures.bind (ensures_primary d) fun e =>
      ensures_suffixes (ensures_expression d) e).mono
    intro ts e rest hpieces
    obtain ⟨callee, _, ⟨us, rfl, hcallee⟩, vs, rfl, hrest⟩ := hpieces
    exact ⟨us ++ vs, by simp, .call hcallee hrest⟩

theorem ensures_primary : ∀ d, Ensures (primary d) (Spans ExprPhrase.primary.Derives)
  | 0 => .throw
  | d + 1 => ensures_primaryWith (ensures_expression d)

end

/-! ### Statements -/

theorem ensures_optionalAfter {α : Type} {item : Parse α} {D : List Token → α → List Token → Prop}
    (kind : Kind) (absent : α) (h : Ensures item D) :
    Ensures (optionalAfter kind absent item) fun ts a rest =>
      (a = absent ∧ rest = ts ∧ ∀ t ∈ ts.head?, t.kind ≠ kind) ∨
        ∃ t mid, ts = t :: mid ∧ t.kind = kind ∧ D mid a rest := by
  refine Ensures.accept?_bind (fun t ht => ?_) ?_
  · apply h.mono
    intro ts a rest ha
    exact .inr ⟨t, ts, rfl, List.mem_singleton.1 ht, ha⟩
  · apply Ensures.pure_of
    intro ts hnext
    exact .inl ⟨rfl, rfl, fun t ht => by simpa using hnext t ht⟩

theorem ensures_optionalBefore {e : Parse Tree} (kind : Kind)
    (h : Ensures e (Spans ExprPhrase.expression.Derives)) :
    Ensures (optionalBefore kind e) (Spans OptionalExpr) := by
  refine Ensures.nextIs_bind fun b => Ensures.ite (fun _ => ?_) fun _ => ?_
  · apply Ensures.pure_of
    intro ts _
    exact ⟨[], rfl, .absent⟩
  · apply h.mono
    intro ts t rest hpieces _
    obtain ⟨us, rfl, ht⟩ := hpieces
    exact ⟨us, rfl, .present ht⟩

section

variable {e : Parse Tree} (he : Ensures e (Spans ExprPhrase.expression.Derives))
include he

theorem ensures_varDeclaration :
    Ensures (varDeclaration e) (Spans fun us t =>
      ∀ key : Token, key.kind = .varKey → VarDecl (key :: us) t) := by
  rw [varDeclaration_eq]
  apply (Ensures.bind (Ensures.expect .identifier _) fun name =>
    Ensures.bind (ensures_optionalAfter .equal .null he) fun initializer =>
    Ensures.bind (Ensures.expect .semicolon _) fun _ =>
    Ensures.pure (Tree.varDecl name initializer)).mono
  intro ts t rest hpieces
  obtain ⟨name, _, ⟨rfl, hname⟩, initializer, _, hinit, semicolon, _, ⟨rfl, hsemicolon⟩, rfl, rfl⟩
      := hpieces
  rcases hinit with ⟨rfl, rfl, -⟩ | ⟨equals, _, rfl, hequals, us, rfl, hus⟩
  · exact ⟨[name, semicolon], rfl, fun key hkey => .bare hkey hname hsemicolon⟩
  · refine ⟨name :: equals :: (us ++ [semicolon]), by simp, fun key hkey => ?_⟩
    exact .initialized hkey hname hequals hus hsemicolon

theorem ensures_expressionStatement :
    Ensures (expressionStatement e) (Spans fun us t => ∃ vs semicolon e', us = vs ++ [semicolon] ∧
      semicolon.kind = .semicolon ∧ ExprPhrase.expression.Derives vs e' ∧ t = .exprStmt e') := by
  apply (Ensures.bind he fun e' => Ensures.bind (Ensures.expect .semicolon _) fun _ =>
    Ensures.pure (Tree.exprStmt e')).mono
  intro ts t rest hpieces
  obtain ⟨e', _, ⟨us, rfl, hus⟩, semicolon, _, ⟨rfl, hsemicolon⟩, rfl, rfl⟩ := hpieces
  exact ⟨us ++ [semicolon], by simp, us, semicolon, e', rfl, hsemicolon, hus, rfl⟩

theorem ensures_forInitializer : Ensures (forInitializer e) (Spans Initializer) := by
  refine Ensures.accept?_bind (fun key hkey => Ensures.ite (fun hk => ?_) fun hk => ?_) ?_
  · apply Ensures.pure_of
    intro ts
    exact ⟨[key], rfl, .empty hk⟩
  -- the semicolon is handled, so the key is `var`
  · apply (ensures_varDeclaration he).mono
    intro ts t rest hpieces
    obtain ⟨us, rfl, hus⟩ := hpieces
    exact ⟨key :: us, rfl, .declaration (hus key (by simpa [hk] using hkey))⟩
  · apply (ensures_expressionStatement he).mono
    intro ts t rest hpieces _
    obtain ⟨_, rfl, vs, semicolon, e', rfl, hsemicolon, hvs, rfl⟩ := hpieces
    exact ⟨_, rfl, .expression hvs hsemicolon⟩

end

theorem ensures_parameters :
    Ensures parameters (Spans fun us names => ∃ vs closing, us = vs ++ [closing] ∧
      closing.kind = .rightParen ∧ Parameters vs names) := by
  rw [parameters_eq]
  have hname : Ensures (expect .identifier .parameterName) (Spans Name) := by
    apply (Ensures.expect _ _).mono
    intro ts t rest hpieces
    obtain ⟨rfl, ht⟩ := hpieces
    exact ⟨[t], rfl, rfl, ht⟩
  apply (Ensures.bind (ensures_listBefore .rightParen (ensures_commaSeparated hname)) fun names =>
    Ensures.bind (Ensures.expect .rightParen _) fun _ => Ensures.pure names).mono
  intro ts _ rest hpieces
  obtain ⟨names, _, ⟨us, rfl, hus⟩, closing, _, ⟨rfl, hclosing⟩, rfl, rfl⟩ := hpieces
  refine ⟨us ++ [closing], by simp, us, closing, rfl, hclosing, ?_⟩
  rcases hus with ⟨rfl, rfl⟩ | hus
  · exact .none
  · exact .some hus

/-- A statement was taken; if it ends in a conditional without `else`, none follows. -/
def SpansStatement (ts : List Token) (t : Tree) (rest : List Token) : Prop :=
  ∃ dangling, Spans ((StmtPhrase.statement dangling).Derives .nearest) ts t rest ∧
    (dangling = true → ∀ t ∈ rest.head?, t.kind ≠ .elseKey)

/-- The statements of a block were taken, up to the closing brace and with it. -/
def SpansBody : List Token → List Tree → List Token → Prop :=
  Spans fun us ss => ∃ vs closing, us = vs ++ [closing] ∧ closing.kind = .rightBrace ∧
    StmtPhrase.declarations.Derives .nearest vs (.list ss)

section

variable {e s : Parse Tree} {b : Parse (List Tree)}
  (he : Ensures e (Spans ExprPhrase.expression.Derives))
  (hs : Ensures s SpansStatement) (hb : Ensures b SpansBody)

include hb in
theorem ensures_funDeclaration :
    Ensures (funDeclaration b) (Spans fun us t => ∀ key : Token, key.kind = .funKey →
      StmtPhrase.declaration.Derives .nearest (key :: us) t) := by
  apply (Ensures.bind (Ensures.expect .identifier _) fun name =>
    Ensures.bind (Ensures.expect .leftParen _) fun _ =>
    Ensures.bind ensures_parameters fun params =>
    Ensures.bind (Ensures.expect .leftBrace _) fun _ => Ensures.bind hb fun body =>
    Ensures.pure (Tree.funDecl name (.list (params.map .token)) (.list body))).mono
  intro ts t rest hpieces
  obtain ⟨name, _, ⟨rfl, hname⟩, opening, _, ⟨rfl, hopening⟩, params, _, ⟨_, rfl, us, closing, rfl,
      hclosing, hus⟩, brace, _, ⟨rfl, hbrace⟩, body, _, ⟨_, rfl, vs, brace', rfl, hbrace', hbody⟩,
      rfl, rfl⟩ := hpieces
  refine ⟨name :: opening :: (us ++ closing :: brace :: (vs ++ [brace'])), by simp,
    fun key hkey => ?_⟩
  exact .function hkey hname hopening hus hclosing (.block hbrace hbody hbrace')

include he in
theorem ensures_printStatement :
    Ensures (printStatement e) (Spans fun us t => ∀ key : Token, key.kind = .printKey →
      (StmtPhrase.statement false).Derives .nearest (key :: us) t) := by
  apply (Ensures.bind he fun value => Ensures.bind (Ensures.expect .semicolon _) fun _ =>
    Ensures.pure (Tree.printStmt value)).mono
  intro ts t rest hpieces
  obtain ⟨value, _, ⟨us, rfl, hus⟩, semicolon, _, ⟨rfl, hsemicolon⟩, rfl, rfl⟩ := hpieces
  exact ⟨us ++ [semicolon], by simp, fun key hkey => .print hkey hus hsemicolon⟩

include he in
theorem ensures_returnStatement (key : Token) :
    Ensures (returnStatement key e) (Spans fun us t => key.kind = .returnKey →
      (StmtPhrase.statement false).Derives .nearest (key :: us) t) := by
  apply (Ensures.bind (ensures_optionalBefore .semicolon he) fun value =>
    Ensures.bind (Ensures.expect .semicolon _) fun _ =>
    Ensures.pure (Tree.returnStmt key value)).mono
  intro ts t rest hpieces
  obtain ⟨value, _, ⟨us, rfl, hus⟩, semicolon, _, ⟨rfl, hsemicolon⟩, rfl, rfl⟩ := hpieces
  exact ⟨us ++ [semicolon], by simp, fun hkey => .returnValue hkey hus hsemicolon⟩

include he hs in
theorem ensures_ifStatement :
    Ensures (ifStatement e s) fun ts t rest => ∀ key : Token, key.kind = .ifKey →
      SpansStatement (key :: ts) t rest := by
  rw [ifStatement_eq]
  apply (Ensures.bind (Ensures.expect .leftParen _) fun _ => Ensures.bind he fun c =>
    Ensures.bind (Ensures.expect .rightParen _) fun _ => Ensures.bind hs fun t =>
    Ensures.bind (ensures_optionalAfter .elseKey Tree.null hs) fun t' =>
    Ensures.pure (Tree.ifStmt c t t')).mono
  intro ts _ rest hpieces key hkey
  obtain ⟨opening, _, ⟨rfl, hopening⟩, c, _, ⟨us, rfl, hus⟩, closing, _, ⟨rfl, hclosing⟩, t, _,
      ⟨dangling, ⟨vs, rfl, hvs⟩, hnext⟩, t', _, ht', rfl, rfl⟩ := hpieces
  rcases ht' with ⟨rfl, rfl, hno⟩ | ⟨other, _, rfl, hother, dangling', ⟨ws, rfl, hws⟩, hnext'⟩
  · refine ⟨true, ⟨key :: opening :: (us ++ closing :: vs), by simp, ?_⟩, fun _ => hno⟩
    exact .ifThen hkey hopening hus hclosing hvs
  · -- the branch did not stop in front of this `else` with a conditional that could take it
    have hclosed : dangling = false := by
      rcases dangling with _ | _
      · rfl
      · exact absurd hother (hnext rfl other rfl)
    refine ⟨dangling', ⟨key :: opening :: (us ++ closing :: (vs ++ other :: ws)), by simp, ?_⟩,
      hnext'⟩
    exact .ifElse hkey hopening hus hclosing hvs (fun _ => hclosed) hother hws

include he hs in
theorem ensures_whileStatement :
    Ensures (whileStatement e s) fun ts t rest => ∀ key : Token, key.kind = .whileKey →
      SpansStatement (key :: ts) t rest := by
  apply (Ensures.bind (Ensures.expect .leftParen _) fun _ => Ensures.bind he fun c =>
    Ensures.bind (Ensures.expect .rightParen _) fun _ => Ensures.bind hs fun t =>
    Ensures.pure (Tree.whileStmt c t)).mono
  intro ts _ rest hpieces key hkey
  obtain ⟨opening, _, ⟨rfl, hopening⟩, c, _, ⟨us, rfl, hus⟩, closing, _, ⟨rfl, hclosing⟩, t, _,
      ⟨dangling, ⟨vs, rfl, hvs⟩, hnext⟩, rfl, rfl⟩ := hpieces
  refine ⟨dangling, ⟨key :: opening :: (us ++ closing :: vs), by simp, ?_⟩, hnext⟩
  exact .whileLoop hkey hopening hus hclosing hvs

include he hs in
theorem ensures_forStatement :
    Ensures (forStatement e s) fun ts t rest => ∀ key : Token, key.kind = .forKey →
      SpansStatement (key :: ts) t rest := by
  apply (Ensures.bind (Ensures.expect .leftParen _) fun _ =>
    Ensures.bind (ensures_forInitializer he) fun i =>
    Ensures.bind (ensures_optionalBefore .semicolon he) fun c =>
    Ensures.bind (Ensures.expect .semicolon _) fun _ =>
    Ensures.bind (ensures_optionalBefore .rightParen he) fun n =>
    Ensures.bind (Ensures.expect .rightParen _) fun _ => Ensures.bind hs fun t =>
    Ensures.pure (Tree.desugarFor i c n t)).mono
  intro ts _ rest hpieces key hkey
  obtain ⟨opening, _, ⟨rfl, hopening⟩, i, _, ⟨us, rfl, hus⟩, c, _, ⟨vs, rfl, hvs⟩, semicolon, _,
      ⟨rfl, hsemicolon⟩, n, _, ⟨ws, rfl, hws⟩, closing, _, ⟨rfl, hclosing⟩, t, _, ⟨dangling, ⟨xs,
      rfl, hxs⟩, hnext⟩, rfl, rfl⟩ := hpieces
  refine ⟨dangling, ⟨key :: opening :: (us ++ (vs ++ semicolon :: (ws ++ closing :: xs))), by simp,
    ?_⟩, hnext⟩
  exact .forLoop hkey hopening hus hvs hsemicolon hws hclosing hxs

include he hs hb in
theorem ensures_statementWith : Ensures (statementWith e s b) SpansStatement := by
  -- a statement that cannot dangle, behind its key
  have closed {key : Token} {kind : Kind} {p : Parse Tree} (hk : key.kind = kind)
      (h : Ensures p (Spans fun us t => key.kind = kind →
        (StmtPhrase.statement false).Derives .nearest (key :: us) t)) :
      Ensures p fun ts t rest => SpansStatement (key :: ts) t rest := by
    apply h.mono
    intro ts t rest hpieces
    obtain ⟨us, rfl, hus⟩ := hpieces
    exact ⟨false, ⟨key :: us, rfl, hus hk⟩, nofun⟩
  refine Ensures.accept?_bind (fun key hkey => ?_) ?_
  · dsimp only
    split
    · next hk =>
      refine closed hk ?_
      exact (ensures_printStatement he).mono fun _ _ _ ⟨us, hts, h⟩ => ⟨us, hts, h key⟩
    · next hk => exact (ensures_ifStatement he hs).mono fun _ _ _ h => h key hk
    · next hk => exact (ensures_whileStatement he hs).mono fun _ _ _ h => h key hk
    · next hk => exact (ensures_forStatement he hs).mono fun _ _ _ h => h key hk
    · next hk => exact closed hk (ensures_returnStatement he key)
    · apply (Ensures.bind hb fun body => Ensures.pure (Tree.block (.list body))).mono
      intro ts t rest hpieces
      obtain ⟨body, _, ⟨_, rfl, vs, closing, rfl, hclosing, hbody⟩, rfl, rfl⟩ := hpieces
      -- the opening brace is the only kind that is left
      have hbrace : key.kind = .leftBrace := by
        simp only [statementKinds, List.mem_cons, List.not_mem_nil, or_false] at hkey
        grind
      refine ⟨false, ⟨key :: (vs ++ [closing]), rfl, ?_⟩, nofun⟩
      exact .blockStatement (.block hbrace hbody hclosing)
  · apply (ensures_expressionStatement he).mono
    intro ts t rest hpieces _
    obtain ⟨_, rfl, vs, semicolon, e', rfl, hsemicolon, hvs, rfl⟩ := hpieces
    exact ⟨false, ⟨_, rfl, .expression hvs hsemicolon⟩, nofun⟩

include he hs hb in
theorem ensures_declarationWith :
    Ensures (declarationWith e s b) (Spans (StmtPhrase.declaration.Derives .nearest)) := by
  refine Ensures.accept?_bind (fun key hkey => Ensures.ite (fun hk => ?_) fun hk => ?_) ?_
  · apply (ensures_funDeclaration hb).mono
    intro ts t rest hpieces
    obtain ⟨us, rfl, hus⟩ := hpieces
    exact ⟨key :: us, rfl, hus key hk⟩
  · apply (ensures_varDeclaration he).mono
    intro ts t rest hpieces
    obtain ⟨us, rfl, hus⟩ := hpieces
    exact ⟨key :: us, rfl, .variableDeclaration (hus key (by simpa [hk] using hkey))⟩
  · apply hs.mono
    intro ts t rest hpieces _
    obtain ⟨dangling, ⟨us, rfl, hus⟩, -⟩ := hpieces
    exact ⟨us, rfl, .statement hus⟩

end

/-- One round of the loop over declarations: it ends in front of a token that `stop` names, or at
the end, or a declaration was taken. -/
def DeclarationRound (stop : Kind → Bool) (ss : List Tree) (ts : List Token)
    (o : Option (List Tree)) (rest : List Token) : Prop :=
  o.elim (rest = ts ∧ ∀ t ∈ ts.head?, stop t.kind) fun ss' => ∃ t, ss' = t :: ss ∧
    Spans (StmtPhrase.declaration.Derives .nearest) ts t rest

section

variable {stop : Kind → Bool} {declaration : Parse (Option Tree)}
  (h : Ensures declaration fun ts o rest => ∃ t, o = some t ∧
    Spans (StmtPhrase.declaration.Derives .nearest) ts t rest)
include h

/-- Without a complaint, no declaration was given up. -/
theorem ensures_declarationStep (ss : List Tree) :
    Ensures (declarationStep stop declaration ss) (DeclarationRound stop ss) := by
  refine Ensures.declarationStep h (fun ts hstop => ⟨rfl, fun t ht => ?_⟩) fun ts t rest ht => ?_
  · exact hstop t.kind (Option.mem_map_of_mem _ ht)
  · exact ⟨t, rfl, ht⟩

/-- The loop over declarations takes a program, and ends in front of a token that `stop` names, or
at the end. -/
theorem ensures_declarationsUntil :
    Ensures (declarationsUntil stop declaration) fun ts ss rest =>
      Spans (Program .nearest) ts ss rest ∧ ∀ t ∈ rest.head?, stop t.kind := by
  -- the loop collects the statements in reverse, in front of those it started with
  let Loop (ss : List Tree) (ts : List Token) (all : List Tree) (rest : List Token) : Prop :=
    ∃ more, all = more.reverse ++ ss ∧ Spans (Program .nearest) ts more rest ∧
      ∀ t ∈ rest.head?, stop t.kind
  have hloop : Ensures (repeated (declarationStep stop declaration) []) (Loop []) := by
    refine Ensures.repeated (R := Loop) (ensures_declarationStep h) ?_ ?_ ?_ ?_ []
    · intro ss _ ts mid hpieces
      obtain ⟨t, rfl, us, rfl, hus⟩ := hpieces
      obtain ⟨t', us', rfl, -⟩ := hus.starts rfl
      simp only [List.length_cons, List.length_append]
      omega
    · exact fun ss => ⟨[], rfl, ⟨[], rfl, .noDeclaration⟩, nofun⟩
    · intro ss ts rest hpieces
      obtain ⟨rfl, hstop⟩ := hpieces
      exact ⟨[], rfl, ⟨[], rfl, .noDeclaration⟩, hstop⟩
    · intro ss _ all ts mid rest hpieces hpieces'
      obtain ⟨t, rfl, us, rfl, hus⟩ := hpieces
      obtain ⟨more, rfl, ⟨vs, rfl, hvs⟩, hstop⟩ := hpieces'
      exact ⟨t :: more, by simp, ⟨us ++ vs, by simp, .declarations hus hvs⟩, hstop⟩
  rw [declarationsUntil_eq]
  apply (Ensures.bind hloop fun all => Ensures.pure all.reverse).mono
  intro ts ss rest hpieces
  obtain ⟨all, _, ⟨more, rfl, hmore, hstop⟩, rfl, rfl⟩ := hpieces
  exact ⟨by simpa using hmore, hstop⟩

end

mutual

theorem ensures_declaration : ∀ d, Ensures (declaration d) fun ts o rest => ∃ t, o = some t ∧
    Spans (StmtPhrase.declaration.Derives .nearest) ts t rest
  | 0 => .throw
  | d + 1 => Ensures.recover
      (ensures_declarationWith (ensures_expression d) (ensures_statement d) (ensures_block d))

theorem ensures_statement : ∀ d, Ensures (statement d) SpansStatement
  | 0 => .throw
  | d + 1 => ensures_statementWith (ensures_expression d) (ensures_statement d) (ensures_block d)

theorem ensures_block : ∀ d, Ensures (block d) SpansBody
  | 0 => .throw
  | d + 1 => by
    apply (Ensures.bind (ensures_declarationsUntil (ensures_declaration d)) fun ss =>
      Ensures.bind (Ensures.expect .rightBrace _) fun _ => Ensures.pure ss).mono
    intro ts _ rest hpieces
    obtain ⟨ss, _, ⟨⟨us, rfl, hus⟩, -⟩, closing, _, ⟨rfl, hclosing⟩, rfl, rfl⟩ := hpieces
    exact ⟨us ++ [closing], by simp, us, closing, rfl, hclosing, hus⟩

end

/-- What is parsed without a complaint is a program, to its end, and the statements are its
trees. -/
theorem ensures_program (d : Nat) :
    Ensures (program d) fun ts ss rest => Program .nearest ts ss ∧ rest = [] := by
  apply (ensures_declarationsUntil (ensures_declaration d)).mono
  intro ts ss rest hpieces
  obtain ⟨⟨us, rfl, hus⟩, hend⟩ := hpieces
  -- no token stops the outermost loop, so it ends at the end
  obtain rfl : rest = [] := by
    cases rest with
    | nil => rfl
    | cons t _ => exact absurd (hend t rfl) Bool.false_ne_true
  exact ⟨by simpa using hus, rfl⟩

end Scriptlet.Parse
