import Scriptlet.Proofs.Strict.Soundness

/-!
# Programs have trees

Every program of the grammar of programs has a tree of the grammar of the strict front end. Only the
kinds of the lexemes matter for that, so that the tokens of a program may come from elsewhere. The
calls and indexings behind a callee are put on one after the other, as the rules for calls lean to
the left.

## Main definitions

* `Strict.Derivable` — some parts have children for some lexemes
* `Strict.Reaches`, `Strict.ReachesStmt` — phrases of programs as parts of productions

## Main results

* `Strict.derivable_of_program` — a program has a tree, whatever its lexemes are besides their kinds
-/

namespace Scriptlet.Strict

open Grammar

/-- The parts have children for the lexemes, in front of what follows. -/
def Derivable (parts : List Part) (ls rest : List Lexeme) : Prop :=
  ∃ children, Derives parts ls rest children

/-- Parts behind parts. -/
theorem Derives.append {parts parts' : List Part} {ls ms rest : List Lexeme}
    {own children : List ParseTree} (h : Derives parts ls (ms ++ rest) own)
    (h' : Derives parts' ms rest children) :
    Derives (parts ++ parts') (ls ++ ms) rest (own ++ children) := by
  generalize hrest : ms ++ rest = after at h
  induction h with
  | nil => exact h'
  | @token _ kept _ _ _ _ _ hkind _ ih =>
    cases kept with
    | true => exact @Derives.token _ true _ _ _ _ _ hkind (ih hrest)
    | false => exact @Derives.token _ false _ _ _ _ _ hkind (ih hrest)
  | rule hp hown _ _ ih =>
    subst hrest
    rw [← List.append_assoc] at hown
    rw [List.append_assoc]
    exact .rule hp hown (ih rfl)
  | absent hnext _ ih =>
    subst hrest
    rw [← List.append_assoc] at hnext
    exact .absent hnext (ih rfl)
  | present hthese _ _ ih =>
    subst hrest
    rw [← List.append_assoc] at hthese
    rw [List.append_assoc, List.append_assoc]
    exact .present hthese (ih rfl)
  | done _ ih => exact .done (ih hrest)
  | again hthese _ _ ih =>
    subst hrest
    rw [← List.append_assoc] at hthese
    rw [List.append_assoc, List.append_assoc]
    exact .again hthese (ih rfl)

namespace Derivable

variable {parts parts' : List Part} {ls ms rest : List Lexeme} {l : Lexeme} {kinds : List Kind}
  {kind : Kind} {r : Rule} {p : Production}

theorem nil : Derivable [] [] rest := ⟨[], .nil⟩

theorem append (h : Derivable parts ls (ms ++ rest)) (h' : Derivable parts' ms rest) :
    Derivable (parts ++ parts') (ls ++ ms) rest := by
  obtain ⟨own, hown⟩ := h
  obtain ⟨children, hchildren⟩ := h'
  exact ⟨_, hown.append hchildren⟩

/-- One part in front of others. -/
theorem cons {part : Part} (h : Derivable [part] ls (ms ++ rest)) (h' : Derivable parts ms rest) :
    Derivable (part :: parts) (ls ++ ms) rest := append h h'

theorem token {kept : Bool} (hkind : l.kind ∈ kinds) (h : Derivable parts ls rest) :
    Derivable (.token kinds kept :: parts) (l :: ls) rest := by
  obtain ⟨children, hchildren⟩ := h
  exact ⟨_, .token hkind hchildren⟩

theorem mark (hkind : l.kind = kind) (h : Derivable parts ls rest) :
    Derivable (.mark kind :: parts) (l :: ls) rest := token (List.mem_singleton.2 hkind) h

theorem keep (hkind : l.kind = kind) (h : Derivable parts ls rest) :
    Derivable (.keep kind :: parts) (l :: ls) rest := token (List.mem_singleton.2 hkind) h

theorem rule (hp : p ∈ r.productions) (h : Derivable p.parts ls rest) :
    Derivable [.rule r] ls rest := by
  obtain ⟨own, hown⟩ := h
  have hrule : Strict.Derives [.rule r] (ls ++ []) rest _ := .rule hp hown .nil
  rw [List.append_nil] at hrule
  exact ⟨_, hrule⟩

/-- The production of a rule with a number. -/
theorem production (i : Nat) (hp : r.productions[i]? = some p) (h : Derivable p.parts ls rest) :
    Derivable [.rule r] ls rest := rule (List.mem_of_getElem? hp) h

theorem absent {optional : List Part} (hnext : ∀ l ∈ rest.head?, l.kind ∉ firstKinds optional) :
    Derivable [.optional optional] [] rest := ⟨_, .absent hnext .nil⟩

theorem present {optional : List Part} (h : Derivable optional ls rest) :
    Derivable [.optional optional] ls rest := by
  obtain ⟨own, hown⟩ := h
  have hpresent : Strict.Derives [.optional optional] (ls ++ []) rest _ := .present hown .nil
  rw [List.append_nil] at hpresent
  exact ⟨_, hpresent⟩

theorem done {repeated : List Part} : Derivable [.many repeated] [] rest := ⟨_, .done .nil⟩

theorem again {repeated : List Part} (h : Derivable repeated ls (ms ++ rest))
    (h' : Derivable [.many repeated] ms rest) : Derivable [.many repeated] (ls ++ ms) rest := by
  obtain ⟨own, hown⟩ := h
  obtain ⟨children, hchildren⟩ := h'
  exact ⟨_, .again hown hchildren⟩

end Derivable

/-! ### Expressions -/

/-- What a phrase is for the strict front end. -/
def Reaches (phrase : ExprPhrase) (ls : List Lexeme) : Prop :=
  ∀ rest, match phrase with
    | .expression => Derivable [.rule .assignment] ls rest
    | .level rank => Derivable [.rule (rankRule rank)] ls rest
    | .operands rank _ =>
      Derivable [.many [.token rank.operators true, .rule (operandRule rank)]] ls rest
    | .unary => Derivable [.rule .unary] ls rest
    | .call => Derivable [.rule .call] ls rest
    | .suffixes _ => ∀ us, Derivable [.rule .call] us (ls ++ rest) →
      Derivable [.rule .call] (us ++ ls) rest
    | .arguments => Derivable [.optional [.rule .arguments]] ls rest
    | .moreArguments => Derivable [.many [.mark .comma, .rule .expression]] ls rest
    | .primary => Derivable [.rule .primary] ls rest

theorem reaches_operand {rank : Rank} {ls : List Lexeme} (h : Reaches rank.operand ls)
    (rest : List Lexeme) : Derivable [.rule (operandRule rank)] ls rest := by
  cases rank <;> exact h rest

theorem derivable_expression {ls : List Lexeme} (h : Reaches .expression ls) (rest : List Lexeme) :
    Derivable [.rule .expression] ls rest := .production 0 rfl (h rest)

/-- The lexemes and the tokens are of the same kinds. -/
def SameKinds (ls : List Lexeme) (ts : List Token) : Prop := ls.map (·.kind) = ts.map (·.kind)

namespace SameKinds

variable {ls : List Lexeme} {t : Token} {us vs : List Token}

theorem nil (h : SameKinds ls []) : ls = [] := List.map_eq_nil_iff.1 h

theorem cons (h : SameKinds ls (t :: us)) :
    ∃ l ms, ls = l :: ms ∧ l.kind = t.kind ∧ SameKinds ms us := List.map_eq_cons_iff.1 h

theorem single (h : SameKinds ls [t]) : ∃ l, ls = [l] ∧ l.kind = t.kind := by
  obtain ⟨l, _, rfl, hkind, hnone⟩ := h.cons
  obtain rfl := hnone.nil
  exact ⟨l, rfl, hkind⟩

theorem append (h : SameKinds ls (us ++ vs)) :
    ∃ ks ms, ls = ks ++ ms ∧ SameKinds ks us ∧ SameKinds ms vs := by
  rw [SameKinds, List.map_append] at h
  exact List.map_eq_append_iff.1 h

end SameKinds

/-- The parts of an indexing. -/
theorem derivable_index {us vs rest : List Lexeme} {opening closing : Lexeme}
    (htarget : Derivable [.rule .call] us (opening :: (vs ++ closing :: rest)))
    (hopening : opening.kind = .leftBracket) (hindex : Reaches .expression vs)
    (hclosing : closing.kind = .rightBracket) :
    Derivable [.rule .call, .mark .leftBracket, .rule .expression, .mark .rightBracket]
      (us ++ opening :: (vs ++ [closing])) rest := by
  have hclose : Derivable [.mark .rightBracket] [closing] rest := .mark hclosing .nil
  have hopen := Derivable.mark hopening ((derivable_expression hindex _).cons hclose)
  exact .cons (by simpa using htarget) hopen

/-- The parts of a call. -/
theorem derivable_call {us vs rest : List Lexeme} {opening closing : Lexeme}
    (hcallee : Derivable [.rule .call] us (opening :: (vs ++ closing :: rest)))
    (hopening : opening.kind = .leftParen) (hargs : Reaches .arguments vs)
    (hclosing : closing.kind = .rightParen) :
    Derivable [.rule .call, .mark .leftParen, .optional [.rule .arguments], .mark .rightParen]
      (us ++ opening :: (vs ++ [closing])) rest := by
  have hclose : Derivable [.mark .rightParen] [closing] rest := .mark hclosing .nil
  have hopen := Derivable.mark hopening ((hargs _).cons hclose)
  exact .cons (by simpa using hcallee) hopen

/-- An expression has a tree whatever follows it. -/
theorem reaches_of_derives {phrase : ExprPhrase} {us : List Token} {e : Tree}
    (h : phrase.Derives us e) {ls : List Lexeme} (hls : SameKinds ls us) : Reaches phrase ls := by
  induction h generalizing ls with
  | assign hname hequals _ ih =>
    obtain ⟨name, _, rfl, hname', hls⟩ := hls.cons
    obtain ⟨equals, ms, rfl, hequals', hms⟩ := hls.cons
    intro rest
    refine .production 0 rfl ?_
    exact .keep (hname'.trans hname) (.mark (hequals'.trans hequals) (ih hms rest))
  | assignIndex _ hopening _ hclosing hequals _ ihTarget ihIndex ihValue =>
    obtain ⟨us, _, rfl, hus, hls⟩ := hls.append
    obtain ⟨opening, _, rfl, hopening', hls⟩ := hls.cons
    obtain ⟨vs, _, rfl, hvs, hls⟩ := hls.append
    obtain ⟨closing, _, rfl, hclosing', hls⟩ := hls.cons
    obtain ⟨equals, ws, rfl, hequals', hws⟩ := hls.cons
    intro rest
    refine .production 1 rfl ?_
    have hvalue : Derivable [.mark .equal, .rule .assignment] (equals :: ws) rest :=
      .mark (hequals'.trans hequals) (ihValue hws rest)
    have htarget : Derivable [.rule .indexTarget] (us ++ opening :: (vs ++ [closing]))
        (equals :: ws ++ rest) :=
      .production 0 rfl (derivable_index (ihTarget hus _) (hopening'.trans hopening) (ihIndex hvs)
        (hclosing'.trans hclosing))
    simpa using htarget.cons hvalue
  | plain _ ih => exact fun rest => .production 2 rfl (ih hls rest)
  | @level rank _ _ _ _ _ _ ihLeft ihRest =>
    obtain ⟨us, vs, rfl, hus, hvs⟩ := hls.append
    intro rest
    have hp : ⟨Part.chain rank.operators (operandRule rank), none⟩ ∈
        (rankRule rank).productions := by simp [productions_rankRule]
    exact .rule hp (.cons (reaches_operand (ihLeft hus) _) (ihRest hvs rest))
  | noOperand =>
    obtain rfl := hls.nil
    exact fun _ => .done
  | @operand rank _ _ _ _ _ _ hop _ _ ihRight ihRest =>
    obtain ⟨op, _, rfl, hop', hls⟩ := hls.cons
    obtain ⟨us, vs, rfl, hus, hvs⟩ := hls.append
    intro rest
    have hoperand : Derivable [.token rank.operators true, .rule (operandRule rank)] (op :: us)
        (vs ++ rest) := .token (hop' ▸ hop) (reaches_operand (ihRight hus) _)
    exact .again hoperand (ihRest hvs rest)
  | unaryOperator hop _ ih =>
    obtain ⟨op, us, rfl, hop', hus⟩ := hls.cons
    exact fun rest => .production 0 rfl (.token (hop' ▸ hop) (ih hus rest))
  | unaryCall _ ih => exact fun rest => .production 1 rfl (ih hls rest)
  | call _ _ ihPrimary ihSuffixes =>
    -- the first callee is the primary alone, and each suffix makes a callee of what is before it
    obtain ⟨us, vs, rfl, hus, hvs⟩ := hls.append
    exact fun rest => ihSuffixes hvs rest us (.production 0 rfl (ihPrimary hus _))
  | noSuffix =>
    obtain rfl := hls.nil
    exact fun rest us h => by simpa using h
  | callSuffix hopening _ hclosing _ ihArgs ihRest =>
    obtain ⟨opening, _, rfl, hopening', hls⟩ := hls.cons
    obtain ⟨us, _, rfl, hus, hls⟩ := hls.append
    obtain ⟨closing, vs, rfl, hclosing', hvs⟩ := hls.cons
    intro rest callee hcallee
    have hcall : Derivable [.rule .call] (callee ++ opening :: (us ++ [closing])) (vs ++ rest) :=
      .production 1 rfl (derivable_call (by simpa using hcallee) (hopening'.trans hopening)
        (ihArgs hus) (hclosing'.trans hclosing))
    simpa using ihRest hvs rest _ hcall
  | indexSuffix hopening _ hclosing _ ihIndex ihRest =>
    obtain ⟨opening, _, rfl, hopening', hls⟩ := hls.cons
    obtain ⟨us, _, rfl, hus, hls⟩ := hls.append
    obtain ⟨closing, vs, rfl, hclosing', hvs⟩ := hls.cons
    intro rest callee hcallee
    have hcall : Derivable [.rule .call] (callee ++ opening :: (us ++ [closing])) (vs ++ rest) :=
      .production 2 rfl (derivable_index (by simpa using hcallee) (hopening'.trans hopening)
        (ihIndex hus) (hclosing'.trans hclosing))
    simpa using ihRest hvs rest _ hcall
  | noArguments =>
    obtain rfl := hls.nil
    exact fun rest => .absent fun _ _ => List.not_mem_nil
  | arguments _ _ ihFirst ihMore =>
    obtain ⟨us, vs, rfl, hus, hvs⟩ := hls.append
    intro rest
    refine .present (.production 0 rfl ?_)
    exact .cons (derivable_expression (ihFirst hus) _) (ihMore hvs rest)
  | lastArgument =>
    obtain rfl := hls.nil
    exact fun _ => .done
  | moreArguments hcomma _ _ ihArg ihMore =>
    obtain ⟨comma, _, rfl, hcomma', hls⟩ := hls.cons
    obtain ⟨us, vs, rfl, hus, hvs⟩ := hls.append
    intro rest
    have harg : Derivable [.mark .comma, .rule .expression] (comma :: us) (vs ++ rest) :=
      .mark (hcomma'.trans hcomma) (derivable_expression (ihArg hus) _)
    exact .again harg (ihMore hvs rest)
  | falseLiteral ht =>
    obtain ⟨l, rfl, ht'⟩ := hls.single
    exact fun _ => .production 3 rfl (.mark (ht'.trans ht) .nil)
  | trueLiteral ht =>
    obtain ⟨l, rfl, ht'⟩ := hls.single
    exact fun _ => .production 2 rfl (.mark (ht'.trans ht) .nil)
  | nilLiteral ht =>
    obtain ⟨l, rfl, ht'⟩ := hls.single
    exact fun _ => .production 4 rfl (.mark (ht'.trans ht) .nil)
  | literal ht =>
    obtain ⟨l, rfl, ht'⟩ := hls.single
    simp only [List.mem_cons, List.not_mem_nil, or_false] at ht
    rcases ht with ht | ht
    · exact fun _ => .production 0 rfl (.keep (ht'.trans ht) .nil)
    · exact fun _ => .production 1 rfl (.keep (ht'.trans ht) .nil)
  | name ht =>
    obtain ⟨l, rfl, ht'⟩ := hls.single
    exact fun _ => .production 5 rfl (.keep (ht'.trans ht) .nil)
  | grouping hopening _ hclosing ih =>
    obtain ⟨opening, _, rfl, hopening', hls⟩ := hls.cons
    obtain ⟨us, _, rfl, hus, hls⟩ := hls.append
    obtain ⟨closing, rfl, hclosing'⟩ := hls.single
    intro rest
    refine .production 6 rfl ?_
    exact .mark (hopening'.trans hopening)
      ((derivable_expression (ih hus) _).cons (.mark (hclosing'.trans hclosing) .nil))

/-! ### Declarations and statements -/

/-- No `else` is next. -/
def NoElse (ls : List Lexeme) : Prop := ∀ l ∈ ls.head?, l.kind ≠ .elseKey

theorem noElse_cons {l : Lexeme} {kind : Kind} (h : l.kind = kind) (hkind : kind ≠ .elseKey)
    (ls : List Lexeme) : NoElse (l :: ls) := by
  rintro _ ⟨⟩
  exact h ▸ hkind

/-- A declaration does not start with an `else`. -/
theorem noElse_append {us : List Token} {t : Tree} {ls rest : List Lexeme}
    (h : StmtPhrase.declarations.Derives .nearest us t) (hls : SameKinds ls us)
    (hrest : NoElse rest) : NoElse (ls ++ rest) := by
  cases h with
  | noDeclaration =>
    obtain rfl := hls.nil
    exact hrest
  | declarations hs =>
    obtain ⟨t, us, rfl, ht⟩ := hs.starts rfl
    obtain ⟨l, ls, rfl, hkind, -⟩ := hls.cons
    refine noElse_cons hkind ?_ _
    intro helse
    rw [helse] at ht
    exact absurd ht (by decide)

/-- An expression that may be left out. -/
theorem derivable_optionalExpr {us : List Token} {e : Tree} {ls : List Lexeme}
    (h : OptionalExpr us e) (hls : SameKinds ls us) (rest : List Lexeme) :
    Derivable [.optional [.rule .expression]] ls rest := by
  cases h with
  | absent =>
    obtain rfl := hls.nil
    exact .absent fun _ _ => List.not_mem_nil
  | present he => exact .present (derivable_expression (reaches_of_derives he hls) rest)

theorem derivable_exprStmt {us : List Token} {semicolon : Token} {e : Tree} {ls : List Lexeme}
    (he : ExprPhrase.expression.Derives us e) (hsemicolon : semicolon.kind = .semicolon)
    (hls : SameKinds ls (us ++ [semicolon])) (rest : List Lexeme) :
    Derivable [.rule .exprStmt] ls rest := by
  obtain ⟨us, _, rfl, hus, hls⟩ := hls.append
  obtain ⟨semicolon, rfl, hsemicolon'⟩ := hls.single
  exact .production 0 rfl (.cons (derivable_expression (reaches_of_derives he hus) _)
    (.mark (hsemicolon'.trans hsemicolon) .nil))

theorem derivable_varDecl {us : List Token} {t : Tree} {ls : List Lexeme} (h : VarDecl us t)
    (hls : SameKinds ls us) (rest : List Lexeme) : Derivable [.rule .varDecl] ls rest := by
  cases h with
  | bare hkey hname hsemicolon =>
    obtain ⟨key, _, rfl, hkey', hls⟩ := hls.cons
    obtain ⟨name, _, rfl, hname', hls⟩ := hls.cons
    obtain ⟨semicolon, rfl, hsemicolon'⟩ := hls.single
    have hkind : semicolon.kind = .semicolon := hsemicolon'.trans hsemicolon
    -- the value may be left out because no equals sign is next
    have hnone : Derivable [.optional [.mark .equal, .rule .expression]] []
        ([semicolon] ++ rest) := by
      refine .absent ?_
      rintro _ ⟨⟩
      rw [hkind]
      decide
    exact .production 0 rfl (.mark (hkey'.trans hkey) (.keep (hname'.trans hname)
      (.cons hnone (.mark hkind .nil))))
  | initialized hkey hname hequals he hsemicolon =>
    obtain ⟨key, _, rfl, hkey', hls⟩ := hls.cons
    obtain ⟨name, _, rfl, hname', hls⟩ := hls.cons
    obtain ⟨equals, _, rfl, hequals', hls⟩ := hls.cons
    obtain ⟨us, _, rfl, hus, hls⟩ := hls.append
    obtain ⟨semicolon, rfl, hsemicolon'⟩ := hls.single
    have hvalue : Derivable [.mark .equal, .rule .expression] (equals :: us)
        ([semicolon] ++ rest) :=
      .mark (hequals'.trans hequals) (derivable_expression (reaches_of_derives he hus) _)
    exact .production 0 rfl (.mark (hkey'.trans hkey) (.keep (hname'.trans hname)
      (.cons (.present hvalue) (.mark (hsemicolon'.trans hsemicolon) .nil))))

theorem derivable_forInit {us : List Token} {i : Tree} {ls : List Lexeme} (h : Initializer us i)
    (hls : SameKinds ls us) (rest : List Lexeme) : Derivable [.rule .forInit] ls rest := by
  cases h with
  | declaration h => exact .production 0 rfl (derivable_varDecl h hls rest)
  | expression he hsemicolon =>
    exact .production 1 rfl (derivable_exprStmt he hsemicolon hls rest)
  | empty hsemicolon =>
    obtain ⟨semicolon, rfl, hsemicolon'⟩ := hls.single
    exact .production 2 rfl (.mark (hsemicolon'.trans hsemicolon) .nil)

/-- Names with a comma in front of each. -/
theorem derivable_moreNames {us names : List Token} {ls : List Lexeme} (h : CommaTail Name us names)
    (hls : SameKinds ls us) (rest : List Lexeme) :
    Derivable [.many [.mark .comma, .keep .identifier]] ls rest := by
  induction h generalizing ls with
  | nil =>
    obtain rfl := hls.nil
    exact .done
  | cons hcomma hitem _ ih =>
    obtain ⟨rfl, hname⟩ := hitem
    obtain ⟨comma, _, rfl, hcomma', hls⟩ := hls.cons
    obtain ⟨name, ms, rfl, hname', hms⟩ := hls.cons
    have hitem : Derivable [.mark .comma, .keep .identifier] [comma, name] (ms ++ rest) :=
      .mark (hcomma'.trans hcomma) (.keep (hname'.trans hname) .nil)
    exact .again hitem (ih hms)

theorem derivable_parameters {us names : List Token} {ls : List Lexeme} (h : Parameters us names)
    (hls : SameKinds ls us) (rest : List Lexeme) :
    Derivable [.optional [.rule .parameters]] ls rest := by
  cases h with
  | none =>
    obtain rfl := hls.nil
    exact .absent fun _ _ => List.not_mem_nil
  | some h =>
    obtain ⟨_, us, name, names, rfl, rfl, ⟨rfl, hname⟩, hmore⟩ := h
    obtain ⟨name, ms, rfl, hname', hms⟩ := hls.cons
    exact .present (.production 0 rfl (.keep (hname'.trans hname)
      (derivable_moreNames hmore hms rest)))

/-- A keyword with a condition, and what is behind that. -/
theorem derivable_condition {kind : Kind} {key opening : Lexeme} {us : List Token} {c : Tree}
    {ls ms rest : List Lexeme} {parts : List Part} (hkey : key.kind = kind)
    (hopening : opening.kind = .leftParen) (hc : ExprPhrase.expression.Derives us c)
    (hls : SameKinds ls us) (h : Derivable parts ms rest) :
    Derivable (.mark kind :: .mark .leftParen :: .rule .expression :: parts)
      (key :: opening :: (ls ++ ms)) rest :=
  .mark hkey (.mark hopening ((derivable_expression (reaches_of_derives hc hls) _).cons h))

/-- What a phrase is for the strict front end, in front of what follows. -/
def ReachesStmt (phrase : StmtPhrase) (ls rest : List Lexeme) : Prop :=
  match phrase with
  | .declarations => NoElse rest → Derivable [.many [.rule .declaration]] ls rest
  | .declaration => NoElse rest → Derivable [.rule .declaration] ls rest
  | .statement dangling => (dangling = true → NoElse rest) → Derivable [.rule .statement] ls rest
  | .block => Derivable [.rule .block] ls rest

/-- A statement has a tree in front of what cannot change it. -/
theorem reachesStmt_of_derives {phrase : StmtPhrase} {us : List Token} {s : Tree}
    (h : phrase.Derives .nearest us s) {ls : List Lexeme} (hls : SameKinds ls us)
    (rest : List Lexeme) : ReachesStmt phrase ls rest := by
  induction h generalizing ls rest with
  | noDeclaration =>
    obtain rfl := hls.nil
    exact fun _ => .done
  | declarations _ hmore ih ihs =>
    obtain ⟨us, vs, rfl, hus, hvs⟩ := hls.append
    exact fun hrest => .again (ih hus _ (noElse_append hmore hvs hrest)) (ihs hvs rest hrest)
  | variableDeclaration h => exact fun _ => .production 0 rfl (derivable_varDecl h hls rest)
  | function hkey hname hopening hparams hclosing _ ih =>
    obtain ⟨key, _, rfl, hkey', hls⟩ := hls.cons
    obtain ⟨name, _, rfl, hname', hls⟩ := hls.cons
    obtain ⟨opening, _, rfl, hopening', hls⟩ := hls.cons
    obtain ⟨us, _, rfl, hus, hls⟩ := hls.append
    obtain ⟨closing, vs, rfl, hclosing', hvs⟩ := hls.cons
    have hbody : Derivable [.mark .rightParen, .rule .block] (closing :: vs) rest :=
      .mark (hclosing'.trans hclosing) (ih hvs rest)
    exact fun _ => .production 1 rfl (.production 0 rfl
      (.mark (hkey'.trans hkey) (.keep (hname'.trans hname) (.mark (hopening'.trans hopening)
        ((derivable_parameters hparams hus _).cons hbody)))))
  | statement _ ih => exact fun hrest => .production 2 rfl (ih hls rest fun _ => hrest)
  | print hkey he hsemicolon =>
    obtain ⟨key, _, rfl, hkey', hls⟩ := hls.cons
    obtain ⟨us, _, rfl, hus, hls⟩ := hls.append
    obtain ⟨semicolon, rfl, hsemicolon'⟩ := hls.single
    exact fun _ => .production 0 rfl (.production 0 rfl (.mark (hkey'.trans hkey)
      (.cons (derivable_expression (reaches_of_derives he hus) _)
        (.mark (hsemicolon'.trans hsemicolon) .nil))))
  | ifThen hkey hopening hc hclosing _ ih =>
    obtain ⟨key, _, rfl, hkey', hls⟩ := hls.cons
    obtain ⟨opening, _, rfl, hopening', hls⟩ := hls.cons
    obtain ⟨us, _, rfl, hus, hls⟩ := hls.append
    obtain ⟨closing, vs, rfl, hclosing', hvs⟩ := hls.cons
    intro hrest
    have hnone : Derivable [.optional [.mark .elseKey, .rule .statement]] [] rest :=
      .absent fun l hl helse => hrest rfl l hl (List.mem_singleton.1 helse)
    have hthen : Derivable [.rule .statement] vs ([] ++ rest) := ih hvs rest fun _ => hrest rfl
    have hbranch := Derivable.mark (hclosing'.trans hclosing) (hthen.cons hnone)
    rw [List.append_nil] at hbranch
    exact .production 1 rfl (.production 0 rfl
      (derivable_condition (hkey'.trans hkey) (hopening'.trans hopening) hc hus hbranch))
  | ifElse hkey hopening hc hclosing _ hnearest hother _ ihThen ihElse =>
    obtain ⟨key, _, rfl, hkey', hls⟩ := hls.cons
    obtain ⟨opening, _, rfl, hopening', hls⟩ := hls.cons
    obtain ⟨us, _, rfl, hus, hls⟩ := hls.append
    obtain ⟨closing, _, rfl, hclosing', hls⟩ := hls.cons
    obtain ⟨vs, _, rfl, hvs, hls⟩ := hls.append
    obtain ⟨other, ws, rfl, hother', hws⟩ := hls.cons
    intro hrest
    have hsome : Derivable [.optional [.mark .elseKey, .rule .statement]] (other :: ws) rest :=
      .present (.mark (hother'.trans hother) (ihElse hws rest hrest))
    -- in front of the `else` there must not be a statement that could take it
    have hthen : Derivable [.rule .statement] vs (other :: ws ++ rest) := by
      refine ihThen hvs _ fun hdangling => ?_
      rw [hnearest rfl] at hdangling
      cases hdangling
    have hbranch := Derivable.mark (hclosing'.trans hclosing) (hthen.cons hsome)
    exact .production 1 rfl (.production 0 rfl
      (derivable_condition (hkey'.trans hkey) (hopening'.trans hopening) hc hus hbranch))
  | whileLoop hkey hopening hc hclosing _ ih =>
    obtain ⟨key, _, rfl, hkey', hls⟩ := hls.cons
    obtain ⟨opening, _, rfl, hopening', hls⟩ := hls.cons
    obtain ⟨us, _, rfl, hus, hls⟩ := hls.append
    obtain ⟨closing, vs, rfl, hclosing', hvs⟩ := hls.cons
    intro hrest
    have hbody : Derivable [.mark .rightParen, .rule .statement] (closing :: vs) rest :=
      .mark (hclosing'.trans hclosing) (ih hvs rest hrest)
    exact .production 2 rfl (.production 0 rfl
      (derivable_condition (hkey'.trans hkey) (hopening'.trans hopening) hc hus hbody))
  | forLoop hkey hopening hi hc hsemicolon hn hclosing _ ih =>
    obtain ⟨key, _, rfl, hkey', hls⟩ := hls.cons
    obtain ⟨opening, _, rfl, hopening', hls⟩ := hls.cons
    obtain ⟨us, _, rfl, hus, hls⟩ := hls.append
    obtain ⟨vs, _, rfl, hvs, hls⟩ := hls.append
    obtain ⟨semicolon, _, rfl, hsemicolon', hls⟩ := hls.cons
    obtain ⟨ws, _, rfl, hws, hls⟩ := hls.append
    obtain ⟨closing, xs, rfl, hclosing', hxs⟩ := hls.cons
    intro hrest
    have hbody : Derivable [.mark .rightParen, .rule .statement] (closing :: xs) rest :=
      .mark (hclosing'.trans hclosing) (ih hxs rest hrest)
    have hincrement := Derivable.mark (hsemicolon'.trans hsemicolon)
      ((derivable_optionalExpr hn hws _).cons hbody)
    exact .production 3 rfl (.production 0 rfl
      (.mark (hkey'.trans hkey) (.mark (hopening'.trans hopening)
        ((derivable_forInit hi hus _).cons ((derivable_optionalExpr hc hvs _).cons hincrement)))))
  | returnValue hkey he hsemicolon =>
    obtain ⟨key, _, rfl, hkey', hls⟩ := hls.cons
    obtain ⟨us, _, rfl, hus, hls⟩ := hls.append
    obtain ⟨semicolon, rfl, hsemicolon'⟩ := hls.single
    exact fun _ => .production 4 rfl (.production 0 rfl (.keep (hkey'.trans hkey)
      (.cons (derivable_optionalExpr he hus _) (.mark (hsemicolon'.trans hsemicolon) .nil))))
  | blockStatement _ ih => exact fun _ => .production 5 rfl (ih hls rest)
  | expression he hsemicolon =>
    exact fun _ => .production 6 rfl (derivable_exprStmt he hsemicolon hls rest)
  | block hopening _ hclosing ih =>
    obtain ⟨opening, _, rfl, hopening', hls⟩ := hls.cons
    obtain ⟨us, _, rfl, hus, hls⟩ := hls.append
    obtain ⟨closing, rfl, hclosing'⟩ := hls.single
    have hkind : closing.kind = .rightBrace := hclosing'.trans hclosing
    exact .production 0 rfl (.mark (hopening'.trans hopening)
      (.cons (ih hus _ (noElse_cons hkind (by decide) _)) (.mark hkind .nil)))

/-- A program has a tree, whatever its lexemes are besides their kinds. -/
theorem derivable_of_program {ts : List Token} {ss : List Tree} (h : Program .nearest ts ss)
    {ls : List Lexeme} (hls : SameKinds ls ts) : ∃ t, Rule.start.Derives ls [] t := by
  have hmany : Derivable [.many [.rule .declaration]] ls [] :=
    reachesStmt_of_derives h hls [] nofun
  obtain ⟨children, hchildren⟩ := hmany
  have hstart : Derives [.rule .start] (ls ++ []) [] _ := .rule (.head _) hchildren .nil
  rw [List.append_nil] at hstart
  exact ⟨_, hstart⟩

end Scriptlet.Strict
