import Mathlib.Data.List.Induction
import Scriptlet.Proofs.Strict.Nesting
import Scriptlet.Proofs.Strict.Viable

/-!
# Parsers that go with the grammar

For every text there is a parser that goes with the grammar on it: one that yields a tree of the
whole text, or objects to the first lexeme with which no program can go on, or to the ending. Where
a text has a tree, one need not search for it to have such a parser, and where the strict front end
stops at a lexeme, that one is the first.

## Main definitions

* `Strict.unexpectedLexeme?` — the lexeme at which the strict front end stops
* `Strict.declarationTree`, `Strict.assignmentTree` — trees of two programs

## Main results

* `Strict.accepts_of_derives`, `Strict.conforms_of_derives` — a tree of the whole text makes a
  parser
* `Strict.conforms_of_unexpectedLexeme?` — so does the lexeme at which the strict front end stops
* `Strict.exists_conforms` — for every text there is a parser
-/

namespace Scriptlet.Strict

variable {source : String} {ls : List Lexeme} {stop : Stop}

/-! ### Objections and trees -/

theorem accepts_of_derives (hlexes : Lexes 1 source.toList ls .finished) {t : ParseTree}
    (ht : Rule.start.Derives ls [] t) : GeneratedParser.Accepts (fun _ => .ok t) source := by
  refine ⟨?_, nofun⟩
  rintro _ ⟨⟩
  exact ⟨ls, hlexes, ht⟩

theorem conforms_of_derives (hlexes : Lexes 1 source.toList ls .finished) {t : ParseTree}
    (ht : Rule.start.Derives ls [] t) : GeneratedParser.Conforms (fun _ => .ok t) source :=
  ⟨(accepts_of_derives hlexes ht).tree, nofun, nofun, nofun⟩

theorem conforms_of_not_viable {before after : List Lexeme} {l : Lexeme}
    (hlexes : Lexes 1 source.toList (before ++ l :: after) stop) (hviable : Viable before)
    (hnot : ¬ Viable (before ++ [l])) :
    GeneratedParser.Conforms (fun _ => .error (.token l)) source := by
  refine ⟨nofun, nofun, ?_, nofun⟩
  rintro _ ⟨⟩
  exact ⟨before, after, stop, hlexes, hviable, hnot⟩

/-- A text that is the beginning of a program has a tree, or its ending is at fault. -/
theorem exists_conforms_of_viable (hlexes : Lexes 1 source.toList ls stop) (hviable : Viable ls) :
    ∃ parser, GeneratedParser.Conforms parser source := by
  cases stop with
  | unexpected c line =>
    refine ⟨fun _ => .error (.character c line), nofun, ?_, nofun, nofun⟩
    rintro _ _ ⟨⟩
    exact ⟨ls, hlexes, hviable⟩
  | finished =>
    by_cases ht : ∃ t, Rule.start.Derives ls [] t
    · obtain ⟨t, ht⟩ := ht
      exact ⟨_, conforms_of_derives hlexes ht⟩
    · refine ⟨fun _ => .error (.finish (lastLineOf ls)), nofun, nofun, nofun, ?_⟩
      rintro _ ⟨⟩
      exact ⟨ls, hlexes, hviable, ht, rfl⟩

theorem viable_nil : Viable [] := by
  have hstart : Derives [.rule .start] ([] ++ []) [] _ := .rule (.head _) (.done .nil) .nil
  exact ⟨[], _, hstart⟩

/-- Lexemes are the beginning of a program, or there is a first one with which none can go on. -/
theorem viable_or_stuck (ls : List Lexeme) : Viable ls ∨
    ∃ before l after, ls = before ++ l :: after ∧ Viable before ∧ ¬ Viable (before ++ [l]) := by
  induction ls using List.reverseRecOn with
  | nil => exact .inl viable_nil
  | append_singleton ls l ih =>
    rcases ih with hviable | ⟨before, l', after, rfl, hbefore, hnot⟩
    · by_cases hl : Viable (ls ++ [l])
      · exact .inl hl
      · exact .inr ⟨ls, l, [], rfl, hviable, hl⟩
    · exact .inr ⟨before, l', after ++ [l], by simp, hbefore, hnot⟩

/-- For every text there is a parser that goes with the grammar. -/
theorem exists_conforms (source : String) : ∃ parser, GeneratedParser.Conforms parser source := by
  obtain ⟨ls, stop, hlexes⟩ := exists_lexes 1 source.toList
  rcases viable_or_stuck ls with hviable | ⟨before, l, after, rfl, hviable, hnot⟩
  · exact exists_conforms_of_viable hlexes hviable
  · exact ⟨_, conforms_of_not_viable hlexes hviable hnot⟩

/-! ### The lexeme at which the strict front end stops -/

/-- The lexeme of a token. -/
def Lexeme.ofToken? (t : Token) : Option Lexeme :=
  match t.lexeme, t.line with
  | .atom (.text text), .atom (.int line) => some ⟨t.kind, text, line.toNat⟩
  | _, _ => none

theorem Lexeme.ofToken?_token (l : Lexeme) : ofToken? l.token = some l := rfl

/-- The lexeme at which the strict front end stops, if it goes no deeper than it may. -/
def unexpectedLexeme? (d : Nat) (source : String) : Option Lexeme :=
  match program (cut source).2 d (cut source).1 with
  | .error (.unexpected (t :: _)) => Lexeme.ofToken? t
  | _ => none

/-- A parser that objects to the lexeme at which the strict front end stops goes with the
grammar. -/
theorem conforms_of_unexpectedLexeme? {d : Nat} {l : Lexeme}
    (h : unexpectedLexeme? d source = some l) :
    GeneratedParser.Conforms (fun _ => .error (.token l)) source := by
  obtain ⟨t, rest, hrun, ht⟩ : ∃ t rest, program (cut source).2 d (cut source).1 =
      .error (.unexpected (t :: rest)) ∧ Lexeme.ofToken? t = some l := by
    unfold unexpectedLexeme? at h
    split at h
    · next t rest hrun => exact ⟨t, rest, hrun, h⟩
    · cases h
  obtain ⟨ls, stop, hlexes⟩ := exists_lexes 1 source.toList
  rw [cut_of_lexes hlexes] at hrun
  obtain ⟨before, after, rfl, hrest, hviable⟩ := exists_viable_of_fault hrun
  obtain ⟨l', after, rfl, rfl, rfl⟩ := List.map_eq_cons_iff.1 hrest.symm
  rw [l'.ofToken?_token] at ht
  obtain rfl : l = l' := (Option.some.inj ht).symm
  refine conforms_of_not_viable hlexes hviable fun hboth => ?_
  -- with the lexeme, a program could begin, so that the fault would be further on
  have hspelled : ∀ l' ∈ before ++ [l], l'.IsSpelled := by
    intro l' hl'
    refine hlexes.isSpelled l' ?_
    rw [← List.singleton_append, ← List.append_assoc]
    exact List.mem_append_left _ hl'
  obtain ⟨n, hsuffix⟩ := hboth.fault_suffix hspelled
  have hsame : program (stop.ending (lastLineOf (before ++ l :: after))) (max d n)
      ((before ++ [l]).map Lexeme.token ++ after.map Lexeme.token) =
        .error (.unexpected (l.token :: after.map Lexeme.token)) := by
    rcases deepens_program _ (Nat.le_max_left d n) _ with heq | ⟨rest, hdeep, -⟩
    · rw [← hrun, ← heq]
      simp
    · cases hdeep.symm.trans hrun
  have hle := (hsuffix _ (Nat.le_max_right d n) _ _ _ hsame).length_le
  exact absurd hle (Nat.not_succ_le_self _)

/-! ### Trees of phrases -/

theorem Derives.mark {kind : Kind} {l : Lexeme} {parts : List Part} {ls rest : List Lexeme}
    {children : List ParseTree} (hkind : l.kind = kind) (h : Derives parts ls rest children) :
    Derives (.mark kind :: parts) (l :: ls) rest children := .token (List.mem_singleton.2 hkind) h

theorem Derives.keep {kind : Kind} {l : Lexeme} {parts : List Part} {ls rest : List Lexeme}
    {children : List ParseTree} (hkind : l.kind = kind) (h : Derives parts ls rest children) :
    Derives (.keep kind :: parts) (l :: ls) rest (.token l :: children) :=
  .token (List.mem_singleton.2 hkind) h

namespace Rule.Derives

variable {r operand : Rule} {p : Production} {parts : List Part} {ls ms rest : List Lexeme}
  {t : ParseTree} {own children : List ParseTree}

/-- The node that a rule makes of one of its productions. -/
theorem production (i : Nat) (hp : r.productions[i]? = some p)
    (h : Strict.Derives p.parts ls rest own) (ht : r.node p ls own = t) : r.Derives ls rest t := by
  have hrule : Strict.Derives [.rule r] (ls ++ []) rest [r.node p ls own] :=
    .rule (List.mem_of_getElem? hp) h .nil
  rwa [List.append_nil, ht] at hrule

/-- A rule in front of other parts. -/
theorem cons (h : r.Derives ls (ms ++ rest) t) (h' : Strict.Derives parts ms rest children) :
    Strict.Derives (.rule r :: parts) (ls ++ ms) rest (t :: children) := h.append h'

/-- An operand without operators behind it stands for its level. -/
theorem chain {operators : List Kind} (h : operand.Derives ls rest t)
    (hp : r.productions[0]? = some ⟨Part.chain operators operand, none⟩)
    (hr : r.isInlined = true) : r.Derives ls rest t := by
  have hnone : Strict.Derives [.many [.token operators true, .rule operand]] [] rest [] :=
    .done .nil
  have hparts := h.cons hnone
  rw [List.append_nil] at hparts
  exact .production 0 hp hparts (if_pos hr)

theorem assignment_of_call (h : Rule.call.Derives ls rest t) :
    Rule.assignment.Derives ls rest t := by
  have hunary : Rule.unary.Derives ls rest t := .production 1 rfl h rfl
  have hfactor : Rule.factor.Derives ls rest t := hunary.chain rfl rfl
  have hterm : Rule.term.Derives ls rest t := hfactor.chain rfl rfl
  have hcomparison : Rule.comparison.Derives ls rest t := hterm.chain rfl rfl
  have hequality : Rule.equality.Derives ls rest t := hcomparison.chain rfl rfl
  have hconjunction : Rule.logicAnd.Derives ls rest t := hequality.chain rfl rfl
  have hdisjunction : Rule.logicOr.Derives ls rest t := hconjunction.chain rfl rfl
  exact .production 2 rfl hdisjunction rfl

/-- A name, as a call without suffixes. -/
theorem call_of_name {name : Lexeme} (h : name.kind = .identifier) (rest : List Lexeme) :
    Rule.call.Derives [name] rest (.node .variable [.token name] (some name.endLine)) := by
  have hprimary : Rule.primary.Derives [name] rest _ := .production 5 rfl (.keep h .nil) rfl
  exact .production 0 rfl hprimary rfl

theorem expression_of_number {numeral : Lexeme} (h : numeral.kind = .number)
    (rest : List Lexeme) : Rule.expression.Derives [numeral] rest
      (.node .number [.token numeral] (some numeral.endLine)) := by
  have hprimary : Rule.primary.Derives [numeral] rest _ := .production 0 rfl (.keep h .nil) rfl
  have hcall : Rule.call.Derives [numeral] rest _ := .production 0 rfl hprimary rfl
  exact .production 0 rfl hcall.assignment_of_call rfl

/-- An assignment to an index. -/
theorem expression_of_assignIndex {us vs ws rest : List Lexeme}
    {opening closing equals : Lexeme} {target index value : ParseTree}
    (htarget : ∀ rest, Rule.call.Derives us rest target) (hopening : opening.kind = .leftBracket)
    (hindex : ∀ rest, Rule.expression.Derives vs rest index)
    (hclosing : closing.kind = .rightBracket) (hequals : equals.kind = .equal)
    (hvalue : Rule.assignment.Derives ws rest value) :
    Rule.expression.Derives ((us ++ opening :: (vs ++ [closing])) ++ equals :: (ws ++ [])) rest
      (.node .assignIndex [.node (.rule .indexTarget) [target, index] (some closing.endLine), value]
        (((us ++ opening :: (vs ++ [closing])) ++ equals :: (ws ++ [])).getLast?.map
          Lexeme.endLine)) := by
  have hplace (rest : List Lexeme) : Rule.indexTarget.Derives (us ++ opening :: (vs ++ [closing]))
      rest (.node (.rule .indexTarget) [target, index] (some closing.endLine)) := by
    have hlast := congrArg (Option.map Lexeme.endLine) (getLast?_closing us vs opening closing)
    have hclose : Strict.Derives [.mark .rightBracket] [closing] rest [] := .mark hclosing .nil
    exact .production 0 rfl ((htarget _).cons (.mark hopening ((hindex _).cons hclose)))
      (congrArg (ParseTree.node (.rule .indexTarget) [target, index]) hlast)
  have hassigns := (hplace _).cons (.mark hequals (hvalue.cons .nil))
  have hassignment : Rule.assignment.Derives _ rest _ := .production 1 rfl hassigns rfl
  exact .production 0 rfl hassignment rfl

end Rule.Derives

/-- A program of one declaration. -/
theorem Rule.Derives.start_of_declaration {ls : List Lexeme} {t : ParseTree}
    (h : Rule.declaration.Derives ls [] t) :
    Rule.start.Derives ls [] (.node (.rule .start) [t] (ls.getLast?.map Lexeme.endLine)) := by
  have hnone : Strict.Derives [.many [.rule .declaration]] [] [] [] := .done .nil
  have hmany : Strict.Derives [.many [.rule .declaration]] (ls ++ []) [] ([t] ++ []) :=
    .again h hnone
  rw [List.append_nil] at hmany
  exact .production 0 rfl hmany rfl

/-! ### Two programs -/

/-- The tree of `target[index] = value;`, where the index is a numeral and the others are names. -/
def assignmentTree (target index closing value semicolon : Lexeme) : ParseTree :=
  let place : ParseTree := .node (.rule .indexTarget)
    [.node .variable [.token target] (some target.endLine),
      .node .number [.token index] (some index.endLine)] (some closing.endLine)
  let assigned : ParseTree := .node .assignIndex
    [place, .node .variable [.token value] (some value.endLine)] (some value.endLine)
  .node (.rule .start) [.node (.rule .exprStmt) [assigned] (some semicolon.endLine)]
    (some semicolon.endLine)

theorem derives_assignmentTree {target opening index closing equals value semicolon : Lexeme}
    (htarget : target.kind = .identifier) (hopening : opening.kind = .leftBracket)
    (hindex : index.kind = .number) (hclosing : closing.kind = .rightBracket)
    (hequals : equals.kind = .equal) (hvalue : value.kind = .identifier)
    (hsemicolon : semicolon.kind = .semicolon) :
    Rule.start.Derives [target, opening, index, closing, equals, value, semicolon] []
      (assignmentTree target index closing value semicolon) := by
  have hassigned : Rule.expression.Derives [target, opening, index, closing, equals, value]
      [semicolon] _ :=
    .expression_of_assignIndex (.call_of_name htarget) hopening (.expression_of_number hindex)
      hclosing hequals (.assignment_of_call (.call_of_name hvalue _))
  have hstmt : Rule.exprStmt.Derives _ [] _ :=
    .production 0 rfl (hassigned.cons (.mark hsemicolon .nil)) rfl
  have hstatement : Rule.statement.Derives _ [] _ := .production 6 rfl hstmt rfl
  exact .start_of_declaration (.production 2 rfl hstatement rfl)

/-- The tree of `var name = value;`, where the value is a numeral. -/
def declarationTree (name value semicolon : Lexeme) : ParseTree :=
  .node (.rule .start) [.node (.rule .varDecl)
    [.token name, .node .number [.token value] (some value.endLine)] (some semicolon.endLine)]
    (some semicolon.endLine)

theorem derives_declarationTree {key name equals value semicolon : Lexeme}
    (hkey : key.kind = .varKey) (hname : name.kind = .identifier) (hequals : equals.kind = .equal)
    (hvalue : value.kind = .number) (hsemicolon : semicolon.kind = .semicolon) :
    Rule.start.Derives [key, name, equals, value, semicolon] []
      (declarationTree name value semicolon) := by
  have hnumber : Rule.expression.Derives [value] [semicolon] _ := .expression_of_number hvalue _
  have hinitializer : Derives [.optional [.mark .equal, .rule .expression], .mark .semicolon]
      ([equals, value] ++ [semicolon]) [] _ :=
    .present (.mark hequals hnumber) (.mark hsemicolon .nil)
  have hvar : Rule.varDecl.Derives [key, name, equals, value, semicolon] [] _ :=
    .production 0 rfl (.mark hkey (.keep hname hinitializer)) rfl
  exact .start_of_declaration (.production 0 rfl hvar rfl)

end Scriptlet.Strict
