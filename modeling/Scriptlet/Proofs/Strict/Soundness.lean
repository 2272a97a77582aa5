import Scriptlet.Proofs.Strict.Meaning

/-!
# The trees of the grammar are programs

The rules for declarations and statements have their meanings, too, and so every tree of a program
is made into the statements of that program, each `else` with the nearest conditional.

## Main results

* `Strict.Rule.Derives.means` — every tree of a rule has the meaning of the rule
* `Strict.program_of_derives` — the tree of a program is made into its statements
-/

namespace Scriptlet.Strict

open Grammar

variable {p : Production} {ls rest : List Lexeme} {own : List ParseTree}

/-! ### Lists and options -/

theorem declarations_of_matches (h : Matches Rule.Means [.many [.rule .declaration]] ls rest own) :
    ∃ items ss, ParseTree.buildAll own = some items ∧ items.mapM Item.tree? = some ss ∧
      StmtPhrase.declarations.Derives .nearest (ls.map Lexeme.token) (.list ss) := by
  refine h.many_induction
    (P := fun ls own => ∃ items ss, ParseTree.buildAll own = some items ∧
      items.mapM Item.tree? = some ss ∧
      StmtPhrase.declarations.Derives .nearest (ls.map Lexeme.token) (.list ss))
    ⟨[], [], buildAll_nil, rfl, .noDeclaration⟩ ?_
  rintro us ms these own hthese ⟨items, ss, hitems, hgets, hss⟩
  obtain ⟨t, ⟨s, hbuild, hs⟩, rfl⟩ := hthese.of_single
  refine ⟨.tree s :: items, s :: ss, buildAll_cons hbuild hitems, ?_, ?_⟩
  · rw [List.mapM_cons, hgets]
    rfl
  · rw [List.map_append]
    exact .declarations hs hss

theorem optionalExpr_of_matches
    (h : Matches Rule.Means [.optional [.rule .expression]] ls rest own) :
    ∃ t e, own = [t] ∧ t.build = some (.tree e) ∧ OptionalExpr (ls.map Lexeme.token) e := by
  rcases h.of_optional with ⟨_, -, rfl, h₁⟩ | ⟨us, _, these, _, h₁, rfl, rfl, h₂⟩
  · obtain ⟨rfl, rfl⟩ := h₁.eq_nil
    exact ⟨.absent, .null, rfl, build_absent, .absent⟩
  · obtain ⟨rfl, rfl⟩ := h₂.eq_nil
    obtain ⟨t, ⟨e, hbuild, he⟩, rfl⟩ := h₁.of_single
    have hpresent := OptionalExpr.present he
    rw [← List.append_nil us] at hpresent
    exact ⟨t, e, rfl, hbuild, hpresent⟩

/-- The parameters of a function, or none. -/
theorem parameters_of_matches
    (h : Matches Rule.Means [.optional [.rule .parameters]] ls rest own) :
    ∃ t item names, own = [t] ∧ t.build = some item ∧ item.names? = some names ∧
      Parameters (ls.map Lexeme.token) names := by
  rcases h.of_optional with ⟨_, -, rfl, h₁⟩ | ⟨us, _, these, _, h₁, rfl, rfl, h₂⟩
  · obtain ⟨rfl, rfl⟩ := h₁.eq_nil
    exact ⟨.absent, .absent, [], rfl, build_absent, rfl, .none⟩
  · obtain ⟨rfl, rfl⟩ := h₂.eq_nil
    obtain ⟨t, ⟨names, hbuild, hnames⟩, rfl⟩ := h₁.of_single
    have hsome := Parameters.some hnames
    rw [← List.append_nil us] at hsome
    exact ⟨t, .names names, names, rfl, hbuild, rfl, hsome⟩

/-! ### Declarations -/

theorem means_start (hp : p ∈ Rule.start.productions)
    (h : Matches Rule.Means p.parts ls rest own) :
    Rule.start.Means ls rest (Rule.start.node p ls own) := by
  obtain rfl := List.mem_singleton.1 hp
  obtain ⟨items, ss, hitems, hgets, hss⟩ := declarations_of_matches h
  rw [node_of_not_isInlined rfl rfl]
  refine ⟨ss, ?_, hss⟩
  rw [build_node hitems]
  change (items.mapM Item.tree?).map _ = _
  rw [hgets]
  rfl

theorem means_declaration (hp : p ∈ Rule.declaration.productions)
    (h : Matches Rule.Means p.parts ls rest own) :
    Rule.declaration.Means ls rest (Rule.declaration.node p ls own) := by
  simp only [Rule.productions, List.mem_cons, List.not_mem_nil, or_false] at hp
  rcases hp with rfl | rfl | rfl
  · obtain ⟨t, ⟨s, hbuild, hs⟩, rfl⟩ := h.of_single
    exact ⟨s, hbuild, .variableDeclaration hs⟩
  · obtain ⟨t, ht, rfl⟩ := h.of_single
    exact ht
  · obtain ⟨t, ⟨dangling, s, hbuild, hs, -⟩, rfl⟩ := h.of_single
    exact ⟨s, hbuild, .statement hs⟩

theorem means_varDecl (hp : p ∈ Rule.varDecl.productions)
    (h : Matches Rule.Means p.parts ls rest own) :
    Rule.varDecl.Means ls rest (Rule.varDecl.node p ls own) := by
  obtain rfl := List.mem_singleton.1 hp
  obtain ⟨key, _, hkey, -, rfl, h₁⟩ := h.mark
  obtain ⟨name, _, _, hname, rfl, rfl, h₂⟩ := h₁.keep
  rw [node_of_not_isInlined rfl rfl]
  rcases h₂.of_optional with ⟨_, -, rfl, h₃⟩ | ⟨us, _, these, _, h₃, rfl, rfl, h₄⟩
  · obtain ⟨semicolon, _, hsemicolon, -, rfl, h₄⟩ := h₃.mark
    obtain ⟨rfl, rfl⟩ := h₄.eq_nil
    refine ⟨.varDecl name.token .null, ?_, .bare hkey hname hsemicolon⟩
    rw [← nameToken_eq hname]
    exact build_node (buildAll_cons (build_token name) (buildAll_cons build_absent buildAll_nil)) _
  · obtain ⟨semicolon, _, hsemicolon, -, rfl, h₅⟩ := h₄.mark
    obtain ⟨rfl, rfl⟩ := h₅.eq_nil
    obtain ⟨equals, _, hequals, -, rfl, h₆⟩ := h₃.mark
    obtain ⟨t, ⟨e, hbuild, he⟩, rfl⟩ := h₆.of_single
    refine ⟨.varDecl name.token e, ?_, ?_⟩
    · rw [← nameToken_eq hname]
      exact build_node (buildAll_cons (build_token name) (buildAll_cons hbuild buildAll_nil)) _
    · simpa using VarDecl.initialized hkey hname hequals he hsemicolon

theorem means_parameters (hp : p ∈ Rule.parameters.productions)
    (h : Matches Rule.Means p.parts ls rest own) :
    Rule.parameters.Means ls rest (Rule.parameters.node p ls own) := by
  obtain rfl := List.mem_singleton.1 hp
  have hitem (us rest : List Lexeme) (own : List ParseTree)
      (h : Matches Rule.Means [.keep .identifier] us rest own) :
      ∃ t i name, own = [t] ∧ t.build = some i ∧ i.nameToken? = some name ∧
        Name (us.map Lexeme.token) name := by
    obtain ⟨l, _, _, hname, rfl, rfl, h₁⟩ := h.keep
    obtain ⟨rfl, rfl⟩ := h₁.eq_nil
    refine ⟨.token l, .token l, l.token, rfl, build_token l, ?_, rfl, hname⟩
    rw [Item.nameToken?, nameToken_eq hname]
  obtain ⟨items, names, hitems, hgets, hnames⟩ := commaList_of_matches _ Item.nameToken? hitem h
  rw [node_of_not_isInlined rfl rfl]
  refine ⟨names, ?_, hnames⟩
  rw [build_node hitems]
  change (items.mapM Item.nameToken?).map _ = _
  rw [hgets]
  rfl

theorem means_funDecl (hp : p ∈ Rule.funDecl.productions)
    (h : Matches Rule.Means p.parts ls rest own) :
    Rule.funDecl.Means ls rest (Rule.funDecl.node p ls own) := by
  obtain rfl := List.mem_singleton.1 hp
  obtain ⟨key, _, hkey, -, rfl, h₁⟩ := h.mark
  obtain ⟨name, _, _, hname, rfl, rfl, h₂⟩ := h₁.keep
  obtain ⟨opening, _, hopening, -, rfl, h₃⟩ := h₂.mark
  obtain ⟨us, _, these, _, h₄, rfl, rfl, h₅⟩ := h₃.of_cons
  obtain ⟨t, item, names, rfl, hbuild, hget, hnames⟩ := parameters_of_matches h₄
  obtain ⟨closing, _, hclosing, -, rfl, h₆⟩ := h₅.mark
  obtain ⟨t', ⟨ss, hbuild', hss⟩, rfl⟩ := h₆.of_single
  rw [node_of_not_isInlined rfl rfl]
  refine ⟨.funDecl name.token (.list (names.map .token)) (.list ss), ?_, ?_⟩
  · refine (build_node (buildAll_cons (build_token name)
      (buildAll_cons hbuild (buildAll_cons hbuild' buildAll_nil))) _).trans ?_
    rw [← nameToken_eq hname]
    change (item.names?.map _ : Option Item) = _
    rw [hget]
    rfl
  · simpa using StmtPhrase.Derives.function hkey hname hopening hnames hclosing hss

theorem means_block (hp : p ∈ Rule.block.productions)
    (h : Matches Rule.Means p.parts ls rest own) :
    Rule.block.Means ls rest (Rule.block.node p ls own) := by
  obtain rfl := List.mem_singleton.1 hp
  obtain ⟨opening, _, hopening, -, rfl, h₁⟩ := h.mark
  obtain ⟨us, _, these, _, h₂, rfl, rfl, h₃⟩ := h₁.of_cons
  obtain ⟨items, ss, hitems, hgets, hss⟩ := declarations_of_matches h₂
  obtain ⟨closing, _, hclosing, -, rfl, h₄⟩ := h₃.mark
  obtain ⟨rfl, rfl⟩ := h₄.eq_nil
  rw [node_of_not_isInlined rfl rfl, List.append_nil]
  refine ⟨ss, ?_, ?_⟩
  · rw [build_node hitems]
    change (items.mapM Item.tree?).map _ = _
    rw [hgets]
    rfl
  · simpa using StmtPhrase.Derives.block hopening hss hclosing

/-! ### Statements -/

theorem means_statement (hp : p ∈ Rule.statement.productions)
    (h : Matches Rule.Means p.parts ls rest own) :
    Rule.statement.Means ls rest (Rule.statement.node p ls own) := by
  simp only [Rule.productions, List.mem_cons, List.not_mem_nil, or_false] at hp
  rcases hp with rfl | rfl | rfl | rfl | rfl | rfl | rfl
  case inr.inr.inr.inr.inr.inl =>
    obtain ⟨t, ⟨ss, hbuild, hss⟩, rfl⟩ := h.of_single
    exact .closed hbuild (.blockStatement hss)
  case inr.inr.inr.inr.inr.inr =>
    obtain ⟨t, ⟨us, semicolon, e, hbuild, htokens, he, hsemicolon⟩, rfl⟩ := h.of_single
    refine .closed hbuild ?_
    rw [htokens]
    exact .expression he hsemicolon
  all_goals
    obtain ⟨t, ht, rfl⟩ := h.of_single
    exact ht

theorem means_exprStmt (hp : p ∈ Rule.exprStmt.productions)
    (h : Matches Rule.Means p.parts ls rest own) :
    Rule.exprStmt.Means ls rest (Rule.exprStmt.node p ls own) := by
  obtain rfl := List.mem_singleton.1 hp
  obtain ⟨us, _, t, _, ⟨e, hbuild, he⟩, rfl, rfl, h₁⟩ := h.of_rule
  obtain ⟨semicolon, _, hsemicolon, -, rfl, h₂⟩ := h₁.mark
  obtain ⟨rfl, rfl⟩ := h₂.eq_nil
  rw [node_of_not_isInlined rfl rfl]
  refine ⟨us.map Lexeme.token, semicolon.token, e, ?_, by simp, he, hsemicolon⟩
  exact build_node (buildAll_cons hbuild buildAll_nil) _

theorem means_printStmt (hp : p ∈ Rule.printStmt.productions)
    (h : Matches Rule.Means p.parts ls rest own) :
    Rule.printStmt.Means ls rest (Rule.printStmt.node p ls own) := by
  obtain rfl := List.mem_singleton.1 hp
  obtain ⟨key, _, hkey, -, rfl, h₁⟩ := h.mark
  obtain ⟨us, _, t, _, ⟨e, hbuild, he⟩, rfl, rfl, h₂⟩ := h₁.of_rule
  obtain ⟨semicolon, _, hsemicolon, -, rfl, h₃⟩ := h₂.mark
  obtain ⟨rfl, rfl⟩ := h₃.eq_nil
  rw [node_of_not_isInlined rfl rfl]
  refine .closed (s := .printStmt e) ?_ ?_
  · exact build_node (buildAll_cons hbuild buildAll_nil) _
  · simpa using StmtPhrase.Derives.print hkey he hsemicolon

theorem means_returnStmt (hp : p ∈ Rule.returnStmt.productions)
    (h : Matches Rule.Means p.parts ls rest own) :
    Rule.returnStmt.Means ls rest (Rule.returnStmt.node p ls own) := by
  obtain rfl := List.mem_singleton.1 hp
  obtain ⟨key, _, _, hkey, rfl, rfl, h₁⟩ := h.keep
  obtain ⟨us, _, these, _, h₂, rfl, rfl, h₃⟩ := h₁.of_cons
  obtain ⟨t, e, rfl, hbuild, he⟩ := optionalExpr_of_matches h₂
  obtain ⟨semicolon, _, hsemicolon, -, rfl, h₄⟩ := h₃.mark
  obtain ⟨rfl, rfl⟩ := h₄.eq_nil
  have htoken : key.operatorToken = key.token := operatorToken_eq (by simp [hkey]) (by simp [hkey])
  rw [node_of_not_isInlined rfl rfl]
  refine .closed (s := .returnStmt key.token e) ?_ ?_
  · rw [← htoken]
    exact build_node (buildAll_cons (build_token key) (buildAll_cons hbuild buildAll_nil)) _
  · simpa using StmtPhrase.Derives.returnValue hkey he hsemicolon

theorem means_whileStmt (hp : p ∈ Rule.whileStmt.productions)
    (h : Matches Rule.Means p.parts ls rest own) :
    Rule.whileStmt.Means ls rest (Rule.whileStmt.node p ls own) := by
  obtain rfl := List.mem_singleton.1 hp
  obtain ⟨key, _, hkey, -, rfl, h₁⟩ := h.mark
  obtain ⟨opening, _, hopening, -, rfl, h₂⟩ := h₁.mark
  obtain ⟨us, _, t, _, ⟨c, hbuild, hc⟩, rfl, rfl, h₃⟩ := h₂.of_rule
  obtain ⟨closing, _, hclosing, -, rfl, h₄⟩ := h₃.mark
  obtain ⟨t', ⟨dangling, s, hbuild', hs, hnext⟩, rfl⟩ := h₄.of_single
  rw [node_of_not_isInlined rfl rfl]
  refine ⟨dangling, .whileStmt c s, ?_, ?_, hnext⟩
  · exact build_node (buildAll_cons hbuild (buildAll_cons hbuild' buildAll_nil)) _
  · simpa using StmtPhrase.Derives.whileLoop hkey hopening hc hclosing hs

theorem means_forInit (hp : p ∈ Rule.forInit.productions)
    (h : Matches Rule.Means p.parts ls rest own) :
    Rule.forInit.Means ls rest (Rule.forInit.node p ls own) := by
  simp only [Rule.productions, List.mem_cons, List.not_mem_nil, or_false] at hp
  rcases hp with rfl | rfl | rfl
  · obtain ⟨t, ⟨s, hbuild, hs⟩, rfl⟩ := h.of_single
    rw [node_of_not_isInlined rfl rfl]
    exact ⟨s, build_node (buildAll_cons hbuild buildAll_nil) _, .declaration hs⟩
  · obtain ⟨t, ⟨us, semicolon, e, hbuild, htokens, he, hsemicolon⟩, rfl⟩ := h.of_single
    rw [node_of_not_isInlined rfl rfl]
    refine ⟨.exprStmt e, build_node (buildAll_cons hbuild buildAll_nil) _, ?_⟩
    rw [htokens]
    exact .expression he hsemicolon
  · obtain ⟨semicolon, _, hsemicolon, -, rfl, h₁⟩ := h.mark
    obtain ⟨rfl, rfl⟩ := h₁.eq_nil
    exact ⟨.null, build_node buildAll_nil _, .empty hsemicolon⟩

theorem means_forStmt (hp : p ∈ Rule.forStmt.productions)
    (h : Matches Rule.Means p.parts ls rest own) :
    Rule.forStmt.Means ls rest (Rule.forStmt.node p ls own) := by
  obtain rfl := List.mem_singleton.1 hp
  obtain ⟨key, _, hkey, -, rfl, h₁⟩ := h.mark
  obtain ⟨opening, _, hopening, -, rfl, h₂⟩ := h₁.mark
  obtain ⟨us, _, t, _, ⟨i, hi, hinit⟩, rfl, rfl, h₃⟩ := h₂.of_rule
  obtain ⟨vs, _, these, _, h₄, rfl, rfl, h₅⟩ := h₃.of_cons
  obtain ⟨t', c, rfl, hc, hcondition⟩ := optionalExpr_of_matches h₄
  obtain ⟨semicolon, _, hsemicolon, -, rfl, h₆⟩ := h₅.mark
  obtain ⟨ws, _, these, _, h₇, rfl, rfl, h₈⟩ := h₆.of_cons
  obtain ⟨t'', n, rfl, hn, hincrement⟩ := optionalExpr_of_matches h₇
  obtain ⟨closing, _, hclosing, -, rfl, h₉⟩ := h₈.mark
  obtain ⟨body, ⟨dangling, s, hbuild, hs, hnext⟩, rfl⟩ := h₉.of_single
  rw [node_of_not_isInlined rfl rfl]
  refine ⟨dangling, .desugarFor i c n s, ?_, ?_, hnext⟩
  · exact build_node (buildAll_cons hi (buildAll_cons hc (buildAll_cons hn
      (buildAll_cons hbuild buildAll_nil)))) _
  · simpa using StmtPhrase.Derives.forLoop hkey hopening hinit hcondition hsemicolon hincrement
      hclosing hs

theorem means_ifStmt (hp : p ∈ Rule.ifStmt.productions)
    (h : Matches Rule.Means p.parts ls rest own) :
    Rule.ifStmt.Means ls rest (Rule.ifStmt.node p ls own) := by
  obtain rfl := List.mem_singleton.1 hp
  obtain ⟨key, _, hkey, -, rfl, h₁⟩ := h.mark
  obtain ⟨opening, _, hopening, -, rfl, h₂⟩ := h₁.mark
  obtain ⟨us, _, t, _, ⟨c, hbuild, hc⟩, rfl, rfl, h₃⟩ := h₂.of_rule
  obtain ⟨closing, _, hclosing, -, rfl, h₄⟩ := h₃.mark
  obtain ⟨vs, _, t', _, ⟨dangling, s, hbuild', hs, hnext⟩, rfl, rfl, h₅⟩ := h₄.of_rule
  rw [node_of_not_isInlined rfl rfl]
  rcases h₅.of_optional with ⟨_, helse, rfl, h₆⟩ | ⟨ws, _, these, _, h₆, rfl, rfl, h₇⟩
  · obtain ⟨rfl, rfl⟩ := h₆.eq_nil
    refine ⟨true, .ifStmt c s .null, ?_, ?_, fun _ l hl heq => ?_⟩
    · exact build_node (buildAll_cons hbuild (buildAll_cons hbuild'
        (buildAll_cons build_absent buildAll_nil))) _
    · simpa using StmtPhrase.Derives.ifThen hkey hopening hc hclosing hs
    · exact helse l hl (List.mem_singleton.2 heq)
  · obtain ⟨rfl, rfl⟩ := h₇.eq_nil
    obtain ⟨other, _, hother, -, rfl, h₈⟩ := h₆.mark
    obtain ⟨t'', ⟨dangling', s', hbuild'', hs', hnext'⟩, rfl⟩ := h₈.of_single
    -- the first branch stands in front of an `else`, so it cannot take one
    have hnearest : dangling = false := by
      rw [Bool.eq_false_iff]
      exact fun hdangling => hnext hdangling other rfl hother
    refine ⟨dangling', .ifStmt c s s', ?_, ?_, hnext'⟩
    · exact build_node (buildAll_cons hbuild (buildAll_cons hbuild'
        (buildAll_cons hbuild'' buildAll_nil))) _
    · simpa using StmtPhrase.Derives.ifElse hkey hopening hc hclosing hs (fun _ => hnearest) hother
        hs'

/-! ### All rules -/

/-- Every production gives its rule the meaning of the rule. -/
theorem means_node (r : Rule) (p : Production) (ls rest : List Lexeme) (own : List ParseTree)
    (hp : p ∈ r.productions) (h : Matches Rule.Means p.parts ls rest own) :
    r.Means ls rest (r.node p ls own) := by
  cases r with
  | start => exact means_start hp h
  | declaration => exact means_declaration hp h
  | varDecl => exact means_varDecl hp h
  | funDecl => exact means_funDecl hp h
  | parameters => exact means_parameters hp h
  | statement => exact means_statement hp h
  | printStmt => exact means_printStmt hp h
  | ifStmt => exact means_ifStmt hp h
  | whileStmt => exact means_whileStmt hp h
  | forStmt => exact means_forStmt hp h
  | forInit => exact means_forInit hp h
  | returnStmt => exact means_returnStmt hp h
  | block => exact means_block hp h
  | exprStmt => exact means_exprStmt hp h
  | expression => exact means_expression hp h
  | assignment => exact means_assignment hp h
  | indexTarget => exact means_indexTarget hp h
  | logicOr => exact means_chain .disjunction hp h
  | logicAnd => exact means_chain .conjunction hp h
  | equality => exact means_chain .equality hp h
  | comparison => exact means_chain .comparison hp h
  | term => exact means_chain .term hp h
  | factor => exact means_chain .factor hp h
  | unary => exact means_unary hp h
  | call => exact means_call hp h
  | arguments => exact means_arguments hp h
  | primary => exact means_primary hp h

/-- Every tree of a rule has the meaning of the rule. -/
theorem Rule.Derives.means {r : Rule} {t : ParseTree} (h : r.Derives ls rest t)
    (hspelled : ∀ l ∈ ls, l.IsSpelled) : r.Means ls rest t := by
  obtain ⟨t', ht, heq⟩ := (Strict.Derives.matches means_node h hspelled).of_single
  cases heq
  exact ht

/-- The tree of a program is made into its statements. -/
theorem program_of_derives {t : ParseTree} (h : Rule.start.Derives ls rest t)
    (hspelled : ∀ l ∈ ls, l.IsSpelled) :
    ∃ ss, t.statements? = some ss ∧ Program .nearest (ls.map Lexeme.token) ss := by
  obtain ⟨ss, hbuild, hss⟩ := h.means hspelled
  refine ⟨ss, ?_, hss⟩
  rw [ParseTree.statements?, hbuild]

end Scriptlet.Strict
