import Scriptlet.Proofs.Strict.FirstFault

/-!
# What the strict front end takes is the beginning of a program

A step of the strict front end takes a phrase of the grammar, and where it faults, it has taken the
beginning of one: no lexeme is taken with which the phrase cannot go on. The tree does not matter
for that, nor does the conditional to which an `else` belongs.

## Main definitions

* `Strict.Begins` — a step takes a phrase or the beginning of one
* `Strict.IsStmt`, `Strict.IsBlock` — statements and blocks, wherever an `else` belongs

## Main results

* `Strict.begins_expression`, `Strict.begins_declaration` — the steps of the strict front end
* `Strict.begins_program` — what is taken of a program is a program or the beginning of one
-/

namespace Scriptlet.Strict

open Grammar

variable {α β : Type}

/-- Between the lexemes `ts` and those that are left is a phrase, or the beginning of one if the
step faulted. -/
def Begun (F : List Token → α → Prop) (ts : List Token) : Except Fault (α × List Token) → Prop
  | .ok (a, rest) => ∃ us, ts = us ++ rest ∧ F us a
  | .error fault => ∃ us more a, ts = us ++ fault.rest ∧ F (us ++ more) a

/-- The step takes a phrase or the beginning of one. -/
def Begins (F : List Token → α → Prop) (q : Step α) : Prop := ∀ ts, Begun F ts (q ts)

theorem Begun.cons {F : List Token → α → Prop} {t : Token} {ts : List Token}
    {out : Except Fault (α × List Token)} (h : Begun (fun us a => F (t :: us) a) ts out) :
    Begun F (t :: ts) out := by
  cases out with
  | ok out =>
    obtain ⟨us, rfl, hus⟩ := h
    exact ⟨t :: us, rfl, hus⟩
  | error fault =>
    obtain ⟨us, more, a, hts, hus⟩ := h
    exact ⟨t :: us, more, a, by rw [hts, List.cons_append], hus⟩

/-- Some token of a kind. -/
def someToken (kind : Kind) : Token := .make kind "" .null 1

namespace Begins

variable {F F' : List Token → α → Prop} {G : List Token → β → Prop} {q : Step α} {f : α → Step β}

theorem mono (h : Begins F q) (hF : ∀ us a, F us a → F' us a) : Begins F' q := by
  intro ts
  have hq := h ts
  cases hrun : q ts with
  | ok out =>
    rw [hrun] at hq
    obtain ⟨us, hts, hus⟩ := hq
    exact ⟨us, hts, hF us _ hus⟩
  | error fault =>
    rw [hrun] at hq
    obtain ⟨us, more, a, hts, hus⟩ := hq
    exact ⟨us, more, a, hts, hF _ a hus⟩

/-- There is a phrase of the kind that the step takes: the step can be run on no lexemes. -/
theorem nonempty (h : Begins F q) : ∃ us a, F us a := by
  have hq := h []
  cases hrun : q [] with
  | ok out =>
    rw [hrun] at hq
    obtain ⟨us, -, hus⟩ := hq
    exact ⟨us, out.1, hus⟩
  | error fault =>
    rw [hrun] at hq
    obtain ⟨us, more, a, -, hus⟩ := hq
    exact ⟨us ++ more, a, hus⟩

theorem pure {a : α} (h : F [] a) : Begins F (Pure.pure a : Step α) := fun _ => ⟨[], rfl, h⟩

theorem stop (h : ∃ us a, F us a) : Begins F (stop : Step α) := by
  obtain ⟨us, a, hus⟩ := h
  exact fun ts => ⟨[], us, a, rfl, hus⟩

theorem stopNesting (h : ∃ us a, F us a) : Begins F (stopNesting : Step α) := by
  obtain ⟨us, a, hus⟩ := h
  exact fun ts => ⟨[], us, a, rfl, hus⟩

/-- What follows goes on with the phrase that the first step began. -/
theorem bind (h : Begins F q) (hf : ∀ a us, F us a → Begins (fun vs b => G (us ++ vs) b) (f a)) :
    Begins G (q >>= f) := by
  intro ts
  have hq := h ts
  rw [step_bind_apply]
  cases hrun : q ts with
  | error fault =>
    rw [hrun] at hq
    obtain ⟨us, more, a, hts, hus⟩ := hq
    -- what follows is never reached, but some phrase could have followed
    obtain ⟨vs, b, hvs⟩ := (hf a _ hus).nonempty
    exact ⟨us, more ++ vs, b, hts, by rwa [← List.append_assoc]⟩
  | ok out =>
    obtain ⟨a, mid⟩ := out
    rw [hrun] at hq
    obtain ⟨us, rfl, hus⟩ := hq
    have hmid := hf a us hus mid
    dsimp only
    cases hrest : f a mid with
    | ok out =>
      rw [hrest] at hmid
      obtain ⟨vs, rfl, hvs⟩ := hmid
      exact ⟨us ++ vs, (List.append_assoc _ _ _).symm, hvs⟩
    | error fault =>
      rw [hrest] at hmid
      obtain ⟨vs, more, b, hvs, hall⟩ := hmid
      exact ⟨us ++ vs, more, b, by rw [hvs, List.append_assoc], by rwa [List.append_assoc]⟩

theorem take_bind {kind : Kind} {f : Token → Step β}
    (hf : ∀ t, t.kind = kind → Begins (fun us b => G (t :: us) b) (f t)) :
    Begins G (take kind >>= f) := by
  have htake : Begins (fun us t => us = [t] ∧ t.kind = kind) (take kind) := by
    intro ts
    cases ts with
    | nil => exact ⟨[], [someToken kind], _, rfl, rfl, rfl⟩
    | cons t ts =>
      rw [take]
      split
      · next ht => exact ⟨[t], rfl, rfl, ht⟩
      · exact ⟨[], [someToken kind], _, rfl, rfl, rfl⟩
  refine htake.bind fun t us hus => ?_
  obtain ⟨rfl, ht⟩ := hus
  exact hf t ht

theorem takeIf? {test : Kind → Bool} {f : Option Token → Step β}
    (htook : ∀ t, test t.kind = true → Begins (fun us b => G (t :: us) b) (f (some t)))
    (hleft : Begins G (f none)) : Begins G (takeIf? test >>= f) := by
  intro ts
  rw [step_bind_apply]
  cases ts with
  | nil => exact hleft []
  | cons t ts =>
    rw [Strict.takeIf?]
    by_cases ht : test t.kind = true
    · rw [if_pos ht]
      exact (htook t ht ts).cons
    · rw [if_neg ht]
      exact hleft (t :: ts)

theorem peek? {f : Option Kind → Step β} (h : ∀ o, Begins G (f o)) : Begins G (peek? >>= f) :=
  fun ts => h _ ts

/-- Rounds that go on with a phrase until one of them takes nothing. -/
theorem extendAll {more : α → Step (Option α)} {F : α → List Token → α → Prop}
    (hnil : ∀ a, F a [] a)
    (h : ∀ a, Begins (fun us o => o.elim (us = []) fun b => ∀ vs c, F b vs c → F a (us ++ vs) c)
      (more a)) (a : α) : Begins (F a) (extendAll more a) := by
  have hextend (n : Nat) (a : α) : Begins (F a) (extend more n a) := by
    induction n generalizing a with
    | zero => exact .pure (hnil a)
    | succ n ih =>
      refine (h a).bind fun o us hus => ?_
      cases o with
      | none =>
        obtain rfl : us = [] := hus
        exact .pure (hnil a)
      | some b => exact (ih b).mono fun vs c hvs => hus vs c hvs
  exact fun ts => hextend ts.length a ts

end Begins

/-! ### Lists and options -/

section Lists

variable {q : Step α} {item : Step β}

/-- Items with operators in front of them. -/
theorem begins_folded {test : Kind → Bool} {f : α → Token → β → α} {F : α → List Token → α → Prop}
    {D : List Token → β → Prop} (h : Begins D item) (hnil : ∀ a, F a [] a)
    (hcons : ∀ a t us b vs c, test t.kind = true → D us b → F (f a t b) vs c →
      F a (t :: (us ++ vs)) c) (a : α) : Begins (F a) (extendAll (foldStep test f item) a) := by
  refine .extendAll hnil (fun a => .takeIf? (fun t ht => ?_) (.pure ?_)) a
  · refine h.bind fun b us hus => .pure fun vs c hvs => ?_
    rw [List.append_nil]
    exact hcons a t us b vs c ht hus hvs
  · rfl

theorem begins_commaList {D : List Token → α → Prop} (h : Begins D q) :
    Begins (CommaList D) (commaList q) := by
  rw [commaList_eq]
  refine h.bind fun a us hus => ?_
  have hall : Begins (fun vs all => ∃ as, all = as.reverse ++ [a] ∧ CommaTail D vs as)
      (extendAll (foldStep (· == .comma) (fun items _ x => x :: items) q) [a]) := by
    refine begins_folded
      (F := fun items vs all => ∃ as, all = as.reverse ++ items ∧ CommaTail D vs as) h
      (fun _ => ⟨[], rfl, .nil⟩) ?_ [a]
    rintro items t us b vs all ht hus ⟨as, rfl, has⟩
    exact ⟨b :: as, by simp, .cons (beq_iff_eq.1 ht) hus has⟩
  refine hall.bind fun all vs hvs => .pure ?_
  obtain ⟨as, rfl, has⟩ := hvs
  rw [List.append_nil]
  exact ⟨us, vs, a, as, rfl, by simp, hus, has⟩

end Lists

/-! ### Expressions -/

/-- Some name. -/
def someName : Token := someToken .identifier

theorem derives_someName : ExprPhrase.primary.Derives [someName] (.varRef someName) := .name rfl

section Parts

variable {q : Step Tree} (h : Begins ExprPhrase.expression.Derives q)
include h

theorem begins_arguments :
    Begins (fun us (out : Token × List Tree) => ∃ vs, us = vs ++ [out.1] ∧
      ExprPhrase.arguments.Derives vs (.list out.2) ∧ out.1.kind = .rightParen) (arguments q) := by
  have hlist : Begins (fun us args => ExprPhrase.arguments.Derives us (.list args))
      (listUnless .rightParen (commaList q)) := by
    refine .peek? fun o => ?_
    split
    · exact .pure .noArguments
    · exact (begins_commaList h).mono fun _ _ => ExprPhrase.Derives.arguments_of_commaList
  rw [arguments_eq]
  refine hlist.bind fun args us hargs => .take_bind fun paren hparen => .pure ?_
  exact ⟨us, rfl, hargs, hparen⟩

theorem begins_suffixes (callee : Tree) :
    Begins (ExprPhrase.suffixes callee).Derives (extendAll (suffix? q) callee) := by
  refine .extendAll (F := fun callee us e => (ExprPhrase.suffixes callee).Derives us e)
    (fun _ => .noSuffix) (fun callee => .takeIf? (fun opening hopening => ?_) ?_) callee
  · have hopening : opening.kind = .leftParen := beq_iff_eq.1 hopening
    refine (begins_arguments h).bind fun out us hus => .pure fun vs e he => ?_
    obtain ⟨us, rfl, hargs, hclosing⟩ := hus
    simpa using ExprPhrase.Derives.callSuffix hopening hargs hclosing he
  · refine .takeIf? (fun opening hopening => ?_) (.pure ?_)
    · have hopening : opening.kind = .leftBracket := beq_iff_eq.1 hopening
      refine h.bind fun index us hindex => .take_bind fun closing hclosing =>
        .pure fun vs e he => ?_
      simpa using ExprPhrase.Derives.indexSuffix hopening hindex hclosing he
    · rfl

theorem begins_primary : Begins ExprPhrase.primary.Derives (primary q) := by
  refine .peek? fun o => ?_
  split
  · exact .take_bind fun t ht => .pure (.literal (by simp [ht]))
  · exact .take_bind fun t ht => .pure (.literal (by simp [ht]))
  · exact .take_bind fun t ht => .pure (.trueLiteral ht)
  · exact .take_bind fun t ht => .pure (.falseLiteral ht)
  · exact .take_bind fun t ht => .pure (.nilLiteral ht)
  · exact .take_bind fun t ht => .pure (.name ht)
  · refine .take_bind fun opening hopening => h.bind fun e us he =>
      .take_bind fun closing hclosing => .pure ?_
    exact .grouping hopening he hclosing
  · exact .stop ⟨_, _, derives_someName⟩

end Parts

theorem begins_levelOf {unary : Step Tree} (h : Begins ExprPhrase.unary.Derives unary)
    (rank : Rank) : Begins (ExprPhrase.level rank).Derives (levelOf rank unary) := by
  refine levelOf_induction (C := fun phrase level => Begins phrase.Derives (level unary)) h
    (fun rank hoperand => ?_) rank
  obtain ⟨test, htest, heq⟩ := levelOf_eq rank unary
  rw [heq]
  refine hoperand.bind fun left us hus => ?_
  refine (begins_folded (F := fun left vs e => (ExprPhrase.operands rank left).Derives vs e)
    hoperand (fun _ => .noOperand) (fun left op us right vs e hop hright he => ?_) left).mono ?_
  · rw [htest, List.contains_iff_mem] at hop
    exact .operand hop hright he
  · exact fun vs e he => .level hus he

/-- An indexing in front of an equals sign is a target; any other equals sign is left. -/
theorem begins_targetTail {q : Step Tree} (h : Begins ExprPhrase.expression.Derives q)
    {left : Tree} {us : List Token} (hleft : (ExprPhrase.level .disjunction).Derives us left) :
    Begins (fun vs e => ExprPhrase.expression.Derives (us ++ vs) e) (targetTail q left) := by
  have hplain : ExprPhrase.expression.Derives (us ++ []) left := by
    rw [List.append_nil]
    exact .plain hleft
  refine .peek? fun o => ?_
  split
  · obtain ⟨vs, opening, ws, rfl, htarget, hopening, hindex, hclosing⟩ := hleft.eq_index
    refine .take_bind fun equals hequals => h.bind fun value xs hvalue => .pure ?_
    simpa using ExprPhrase.Derives.assignIndex htarget hopening hindex hclosing hequals hvalue
  · exact .stop ⟨[], left, hplain⟩
  · exact .pure hplain

theorem begins_expressionWith {e : Nat}
    (hleft : Begins (ExprPhrase.level .disjunction).Derives (disjunction (unary e)))
    (hvalue : Begins ExprPhrase.expression.Derives (expression e)) :
    Begins ExprPhrase.expression.Derives (expression (e + 1)) := by
  intro ts
  by_cases hassigns : AssignsName ts
  · obtain ⟨name, equals, rest, rfl, hname, hequals⟩ := hassigns
    rw [expression_of_assigns hname hequals]
    have hassign : Begins (fun us e => ExprPhrase.expression.Derives (name :: equals :: us) e)
        (expression e >>= fun value => pure (.assign name value)) := by
      refine hvalue.bind fun value us hus => .pure ?_
      rw [List.append_nil]
      exact .assign hname hequals hus
    exact (hassign rest).cons.cons
  · rw [expression_of_not hassigns]
    exact hleft.bind (fun left us hus => begins_targetTail hvalue hus) ts

theorem derives_call_someName : ExprPhrase.call.Derives [someName] (.varRef someName) :=
  .call derives_someName .noSuffix

theorem derives_expression_someName :
    ExprPhrase.expression.Derives [someName] (.varRef someName) := by
  have hlevel (rank : Rank) (h : rank.operand.Derives [someName] (.varRef someName)) :
      (ExprPhrase.level rank).Derives [someName] (.varRef someName) := .level h .noOperand
  exact .plain (hlevel .disjunction (hlevel .conjunction (hlevel .equality (hlevel .comparison
    (hlevel .term (hlevel .factor (.unaryCall derives_call_someName)))))))

mutual

theorem begins_expression : ∀ e, Begins ExprPhrase.expression.Derives (expression e)
  | 0 => .stopNesting ⟨_, _, derives_expression_someName⟩
  | e + 1 => begins_expressionWith (begins_levelOf (begins_unary e) .disjunction)
      (begins_expression e)

theorem begins_unary : ∀ e, Begins ExprPhrase.unary.Derives (unary e)
  | 0 => .stopNesting ⟨_, _, .unaryCall derives_call_someName⟩
  | e + 1 => by
    have hvalue := begins_expression e
    have hoperand := begins_unary e
    rw [unary]
    refine .takeIf? (fun op hop => ?_) ?_
    · refine hoperand.bind fun operand us hus => .pure ?_
      rw [List.append_nil]
      refine .unaryOperator ?_ hus
      rwa [contains_unaryKinds, List.contains_iff_mem] at hop
    · refine (begins_primary hvalue).bind fun callee us hus => ?_
      exact (begins_suffixes hvalue callee).mono fun vs e he => .unaryCall (.call hus he)

end

/-! ### Statements -/

theorem begins_name : Begins Name (take .identifier) := by
  have hname : Begins Name (take .identifier >>= pure) := .take_bind fun t ht => .pure ⟨rfl, ht⟩
  rwa [bind_pure] at hname

theorem begins_params : Begins (fun us names => ∃ opening vs closing,
    us = opening :: (vs ++ [closing]) ∧ opening.kind = .leftParen ∧ Parameters vs names ∧
      closing.kind = .rightParen) params := by
  have hlist : Begins Parameters (listUnless .rightParen (commaList (take .identifier))) := by
    refine .peek? fun o => ?_
    split
    · exact .pure .none
    · exact (begins_commaList begins_name).mono fun _ _ => .some
  rw [params_eq]
  refine .take_bind fun opening hopening => hlist.bind fun names us hus =>
    .take_bind fun closing hclosing => .pure ?_
  exact ⟨opening, us, closing, rfl, hopening, hus, hclosing⟩

section Statements

variable (e : Nat)

theorem begins_expressionUnless (kind : Kind) : Begins OptionalExpr (expressionUnless kind e) := by
  refine .peek? fun o => ?_
  split
  · exact .pure .absent
  · exact (begins_expression e).mono fun _ _ => .present

theorem begins_varDecl : Begins VarDecl (varDecl e) := by
  refine .take_bind fun key hkey => .take_bind fun name hname =>
    .takeIf? (fun equals hequals => ?_) ?_
  · refine (begins_expression e).bind fun value us hus => .take_bind fun semicolon hsemicolon =>
      .pure ?_
    exact .initialized hkey hname (beq_iff_eq.1 hequals) hus hsemicolon
  · exact .take_bind fun semicolon hsemicolon => .pure (.bare hkey hname hsemicolon)

theorem begins_exprStmt : Begins (fun us s => ∃ vs semicolon value, us = vs ++ [semicolon] ∧
    s = .exprStmt value ∧ ExprPhrase.expression.Derives vs value ∧ semicolon.kind = .semicolon)
    (exprStmt e) := by
  refine (begins_expression e).bind fun value us hus => .take_bind fun semicolon hsemicolon =>
    .pure ?_
  exact ⟨us, semicolon, value, rfl, rfl, hus, hsemicolon⟩

theorem begins_forInit : Begins Initializer (forInit e) := by
  refine .peek? fun o => ?_
  split
  · exact (begins_varDecl e).mono fun _ _ => .declaration
  · exact .take_bind fun semicolon hsemicolon => .pure (.empty hsemicolon)
  · refine (begins_exprStmt e).mono ?_
    rintro _ _ ⟨us, semicolon, value, rfl, rfl, hvalue, hsemicolon⟩
    exact .expression hvalue hsemicolon

/-- The lexemes are a statement, whichever conditionals its `else`s belong to. -/
def IsStmt (us : List Token) (s : Tree) : Prop :=
  ∃ dangling, (StmtPhrase.statement dangling).Derives .any us s

theorem begins_printStmt : Begins IsStmt (printStmt e) := by
  refine .take_bind fun key hkey => (begins_expression e).bind fun value us hus =>
    .take_bind fun semicolon hsemicolon => .pure ?_
  exact ⟨false, .print hkey hus hsemicolon⟩

theorem begins_returnStmt : Begins IsStmt (returnStmt e) := by
  refine .take_bind fun key hkey => (begins_expressionUnless e _).bind fun value us hus =>
    .take_bind fun semicolon hsemicolon => .pure ?_
  exact ⟨false, .returnValue hkey hus hsemicolon⟩

end Statements

/-- A block, with its list of statements. -/
def IsBlock (us : List Token) (body : List Tree) : Prop :=
  StmtPhrase.block.Derives .any us (.list body)

section Nested

variable {e : Nat} (hs : Begins IsStmt (statement e)) (hb : Begins IsBlock (block e))

include hs hb in
theorem begins_declarationWith :
    Begins (StmtPhrase.declaration.Derives .any) (declaration (e + 1)) := by
  rw [declaration]
  refine .peek? fun o => ?_
  split
  · exact (begins_varDecl e).mono fun _ _ => .variableDeclaration
  · refine .take_bind fun key hkey => .take_bind fun name hname =>
      begins_params.bind fun names us hus => hb.bind fun body vs hvs => .pure ?_
    obtain ⟨opening, us, closing, rfl, hopening, hnames, hclosing⟩ := hus
    simpa using StmtPhrase.Derives.function hkey hname hopening hnames hclosing hvs
  · refine hs.mono ?_
    rintro us s ⟨dangling, hus⟩
    exact .statement hus

include hs in
theorem begins_ifStmt : Begins IsStmt (do
    let _ ← take .ifKey
    let _ ← take .leftParen
    let condition ← expression e
    let _ ← take .rightParen
    let thenBranch ← statement e
    let elseBranch ← optionalIf .elseKey .null (statement e)
    return .ifStmt condition thenBranch elseBranch) := by
  refine .take_bind fun key hkey => .take_bind fun opening hopening =>
    (begins_expression e).bind fun condition us hus => .take_bind fun closing hclosing =>
      hs.bind fun thenBranch vs hvs => ?_
  obtain ⟨dangling, hvs⟩ := hvs
  rw [optionalIf, bind_assoc]
  refine .takeIf? (fun other hother => hs.bind fun elseBranch ws hws => .pure ?_) (.pure ?_)
  · obtain ⟨dangling', hws⟩ := hws
    refine ⟨dangling', ?_⟩
    -- the branch in front may be open, as any conditional may take the `else` here
    have hnearest : Attachment.any = .nearest → dangling = false := by
      intro h
      cases h
    simpa using StmtPhrase.Derives.ifElse hkey hopening hus hclosing hvs hnearest
      (beq_iff_eq.1 hother) hws
  · refine ⟨true, ?_⟩
    simpa using StmtPhrase.Derives.ifThen hkey hopening hus hclosing hvs

include hs in
theorem begins_whileStmt : Begins IsStmt (do
    let _ ← take .whileKey
    let _ ← take .leftParen
    let condition ← expression e
    let _ ← take .rightParen
    return .whileStmt condition (← statement e)) := by
  refine .take_bind fun key hkey => .take_bind fun opening hopening =>
    (begins_expression e).bind fun condition us hus => .take_bind fun closing hclosing =>
      hs.bind fun body vs hvs => .pure ?_
  obtain ⟨dangling, hvs⟩ := hvs
  refine ⟨dangling, ?_⟩
  simpa using StmtPhrase.Derives.whileLoop hkey hopening hus hclosing hvs

include hs in
theorem begins_forStmt : Begins IsStmt (do
    let _ ← take .forKey
    let _ ← take .leftParen
    let initializer ← forInit e
    let condition ← expressionUnless .semicolon e
    let _ ← take .semicolon
    let increment ← expressionUnless .rightParen e
    let _ ← take .rightParen
    return .desugarFor initializer condition increment (← statement e)) := by
  refine .take_bind fun key hkey => .take_bind fun opening hopening =>
    (begins_forInit e).bind fun i us hus => (begins_expressionUnless e _).bind fun c vs hvs =>
      .take_bind fun semicolon hsemicolon => (begins_expressionUnless e _).bind fun n ws hws =>
        .take_bind fun closing hclosing => hs.bind fun body xs hxs => .pure ?_
  obtain ⟨dangling, hxs⟩ := hxs
  refine ⟨dangling, ?_⟩
  simpa using StmtPhrase.Derives.forLoop hkey hopening hus hvs hsemicolon hws hclosing hxs

include hs hb in
theorem begins_statementWith : Begins IsStmt (statement (e + 1)) := by
  have helse := begins_ifStmt hs
  simp only [optionalIf_bind] at helse
  rw [statement]
  refine .peek? fun o => ?_
  split
  · exact begins_printStmt e
  · exact helse
  · exact begins_whileStmt hs
  · exact begins_forStmt hs
  · exact begins_returnStmt e
  · refine hb.bind fun body us hus => .pure ?_
    rw [List.append_nil]
    exact ⟨false, .blockStatement hus⟩
  · refine (begins_exprStmt e).mono ?_
    rintro _ _ ⟨us, semicolon, value, rfl, rfl, hvalue, hsemicolon⟩
    exact ⟨false, .expression hvalue hsemicolon⟩

end Nested

/-! ### Declarations and programs -/

/-- Declarations behind those that were read. -/
theorem begins_declarations {atBrace : Step (Option (List Tree))} {q : Step Tree}
    (hbrace : atBrace = pure none ∨ atBrace = stop)
    (h : Begins (StmtPhrase.declaration.Derives .any) q) :
    Begins (fun us all => Program .any us all.reverse)
      (extendAll (declarationOr atBrace q) []) := by
  have hall : Begins (fun us all => ∃ ss, all = ss.reverse ++ [] ∧ Program .any us ss)
      (extendAll (declarationOr atBrace q) []) := by
    refine .extendAll
      (F := fun before us all => ∃ ss, all = ss.reverse ++ before ∧ Program .any us ss)
      (fun _ => ⟨[], rfl, .noDeclaration⟩) (fun before => .peek? fun o => ?_) []
    split
    · exact .pure rfl
    · rcases hbrace with rfl | rfl
      · exact .pure rfl
      · exact .stop ⟨[], none, rfl⟩
    · refine h.bind fun s us hus => .pure ?_
      rintro vs all ⟨ss, rfl, hss⟩
      rw [List.append_nil]
      exact ⟨s :: ss, by simp, .declarations hus hss⟩
  refine hall.mono ?_
  rintro us _ ⟨ss, rfl, hss⟩
  simpa using hss

theorem isStmt_someName :
    IsStmt ([someName] ++ [someToken .semicolon]) (.exprStmt (.varRef someName)) :=
  ⟨false, .expression derives_expression_someName rfl⟩

theorem declaration_someName : StmtPhrase.declaration.Derives .any
    ([someName] ++ [someToken .semicolon]) (.exprStmt (.varRef someName)) :=
  isStmt_someName.elim fun _ => .statement

theorem isBlock_nil : IsBlock (someToken .leftBrace :: ([] ++ [someToken .rightBrace])) [] :=
  .block rfl .noDeclaration rfl

mutual

theorem begins_declaration : ∀ e, Begins (StmtPhrase.declaration.Derives .any) (declaration e)
  | 0 => .stopNesting ⟨_, _, declaration_someName⟩
  | e + 1 => begins_declarationWith (begins_statement e) (begins_block e)

theorem begins_statement : ∀ e, Begins IsStmt (statement e)
  | 0 => .stopNesting ⟨_, _, isStmt_someName⟩
  | e + 1 => begins_statementWith (begins_statement e) (begins_block e)

theorem begins_block : ∀ e, Begins IsBlock (block e)
  | 0 => .stopNesting ⟨_, _, isBlock_nil⟩
  | e + 1 => by
    have hall : Begins (Program .any) (declarations (declaration e)) := by
      rw [declarations_eq]
      refine (begins_declarations (.inl rfl) (begins_declaration e)).bind fun all us hus => .pure ?_
      rwa [List.append_nil]
    rw [block]
    refine .take_bind fun opening hopening => hall.bind fun ss us hus =>
      .take_bind fun closing hclosing => .pure ?_
    exact .block hopening hus hclosing

end

/-- What the strict front end takes of a program is a program or the beginning of one. -/
theorem begins_program (ending : Ending) (e : Nat) : Begins (Program .any) (program ending e) := by
  rw [program_eq]
  refine (begins_declarations (.inr rfl) (begins_declaration e)).bind fun all us hus => ?_
  have hend : Program .any (us ++ []) all.reverse := by rwa [List.append_nil]
  refine .peek? fun o => ?_
  split
  · exact .pure hend
  · exact .stop ⟨[], all.reverse, hend⟩

end Scriptlet.Strict
