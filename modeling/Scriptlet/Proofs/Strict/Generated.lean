import Scriptlet.Proofs.Strict.Conforming

/-!
# What a generated parser makes of a text

A parser that goes with the grammar agrees with the scanner and the parser on what a program is and
on its statements. Where these report anything, it stops with one diagnostic, which is on no later
line than any of theirs. The strict front end is such a parser: as long as it has enough nesting
depth, its result is the one that a generated parser gives, down to the diagnostic.

What is known of a generated parser determines its result, so that one may look at the strict front
end with as much depth as is needed instead.

## Main results

* `parseWith_of_parseSource` — what the parser accepts, a generated parser accepts, with the same
  statements
* `diagnostics_of_parseWith` — what a generated parser accepts, the parser accepts
* `parseWith_eq_parseStrict` — the strict front end gives the result of a generated parser
* `parseWith_stops_first` — the diagnostic is on no later line than any of the parser's
-/

namespace Scriptlet

open Grammar Strict

variable {parser : GeneratedParser} {source : String}

/-! ### Objections -/

/-- What an objection says of the lexemes: there is a first one with which no program can go on, or
the text ended too early. -/
structure Strict.Unexpected.IsOf (e : Unexpected) (before after : List Lexeme) (stop : Stop) :
    Prop where
  viable : Viable before
  stuck : ∀ l ∈ after.head?, ¬ Viable (before ++ [l])
  unfinished : stop = .finished → ¬ ∃ t, Rule.start.Derives (before ++ after) [] t
  diagnostic_eq : e.diagnostic =
    (Fault.unexpected (after.map Lexeme.token)).diagnostic
      (stop.ending (lastLineOf (before ++ after)))

theorem exists_isOf (hconforms : parser.Conforms source) {e : Unexpected}
    (h : parser source = .error e) :
    ∃ before after stop, Lexes 1 source.toList (before ++ after) stop ∧
      e.IsOf before after stop := by
  cases e with
  | character c line =>
    obtain ⟨ls, hlexes, hviable⟩ := hconforms.character c line h
    exact ⟨ls, [], .unexpected c line, by rwa [List.append_nil], hviable, nofun, nofun, rfl⟩
  | finish line =>
    obtain ⟨ls, hlexes, hviable, hnot, rfl⟩ := hconforms.finish line h
    refine ⟨ls, [], .finished, by rwa [List.append_nil], hviable, nofun, fun _ => ?_, ?_⟩
    · rwa [List.append_nil]
    · rw [List.append_nil]
      rfl
  | token l =>
    obtain ⟨before, after, stop, hlexes, hviable, hnot⟩ := hconforms.token l h
    refine ⟨before, l :: after, stop, hlexes, hviable, ?_, ?_, ?_⟩
    · rintro _ ⟨⟩
      exact hnot
    · rintro - ⟨t, ht⟩
      exact hnot ⟨after, t, by simpa using ht⟩
    · have hkind := hlexes.kind_ne_eof l (List.mem_append_right _ List.mem_cons_self)
      change _ = Diagnostic.atToken l.token _
      rw [Diagnostic.atToken, if_neg (show l.token.kind ≠ .eof from hkind)]
      rfl

theorem Strict.GeneratedParser.Conforms.accepts (hconforms : parser.Conforms source) :
    parser.Accepts source where
  tree := hconforms.tree
  none e h := by
    rintro ⟨ls, t, hlexes, ht⟩
    obtain ⟨before, after, stop, hlexes', hof⟩ := exists_isOf hconforms h
    obtain ⟨rfl, rfl⟩ := hlexes.unique hlexes'
    exact hof.unfinished rfl ⟨t, ht⟩

/-! ### Accepting -/

/-- What a generated parser accepts is a program, with the statements that are made of its tree. -/
theorem program_of_parseWith (haccepts : parser.Accepts source) {ss : List Tree}
    (h : parseWith parser source = .ok ss) :
    ∃ ls, Lexes 1 source.toList ls .finished ∧ Program .nearest (ls.map Lexeme.token) ss := by
  rw [parseWith] at h
  cases hparser : parser source with
  | error e =>
    rw [hparser] at h
    cases h
  | ok t =>
    obtain ⟨ls, hlexes, ht⟩ := haccepts.tree t hparser
    obtain ⟨ss', hstatements, hprogram⟩ := program_of_derives ht hlexes.isSpelled
    rw [hparser] at h
    dsimp only at h
    rw [hstatements] at h
    cases h
    exact ⟨ls, hlexes, hprogram⟩

/-- The actions make statements of the tree of a program. -/
theorem exists_parseWith_of_ok (haccepts : parser.Accepts source) {t : ParseTree}
    (h : parser source = .ok t) : ∃ ss, parseWith parser source = .ok ss := by
  obtain ⟨ls, hlexes, ht⟩ := haccepts.tree t h
  obtain ⟨ss, hstatements, -⟩ := program_of_derives ht hlexes.isSpelled
  refine ⟨ss, ?_⟩
  rw [parseWith, h]
  dsimp only
  rw [hstatements]

/-- A generated parser accepts a program. -/
theorem exists_parseWith_eq_ok (haccepts : parser.Accepts source) {ls : List Lexeme}
    (hlexes : Lexes 1 source.toList ls .finished) {t : ParseTree}
    (ht : Rule.start.Derives ls [] t) : ∃ ss, parseWith parser source = .ok ss := by
  cases hparser : parser source with
  | ok t' => exact exists_parseWith_of_ok haccepts hparser
  | error e => exact absurd ⟨ls, t, hlexes, ht⟩ (haccepts.none e hparser)

/-- Whatever the parser accepts, a generated parser accepts, with the same statements, token for
token. -/
theorem parseWith_of_parseSource (haccepts : parser.Accepts source)
    (h : (parseSource source).diagnostics = []) :
    parseWith parser source = .ok (parseSource source).statements := by
  obtain ⟨hscan, -, hprogram⟩ := program_of_parseSource h
  -- both lexers cut the text alike, so that the program has a tree
  obtain ⟨ts, line, hcut, hts⟩ := cut_of_scan hscan (StmtPhrase.Derives.dotless hprogram)
  obtain ⟨ls, stop, hlexes⟩ := exists_lexes 1 source.toList
  obtain ⟨rfl, hending⟩ := Prod.mk.inj (hcut.symm.trans (cut_of_lexes hlexes))
  obtain rfl : stop = .finished := by
    cases stop with
    | finished => rfl
    | unexpected c line => cases hending
  have hkinds : SameKinds ls (bodyTokens source) := by
    rw [SameKinds, ← List.forall₂_eq_eq_eq, List.forall₂_map_left_iff, List.forall₂_map_right_iff]
    rw [List.forall₂_map_right_iff] at hts
    exact hts.flip.imp fun _ _ hagrees => Token.Agrees.kind_eq hagrees
  obtain ⟨t, ht⟩ := derivable_of_program hprogram hkinds
  obtain ⟨ss, hss⟩ := exists_parseWith_eq_ok haccepts hlexes ht
  -- the parser may have another tree, but a program has one list of statements
  obtain ⟨ls', hlexes', hprogram'⟩ := program_of_parseWith haccepts hss
  obtain ⟨rfl, -⟩ := hlexes.unique hlexes'
  rw [hss, program_unique hprogram hprogram' hts]

/-- A parser that has read `é[0] = b;`. -/
def assignmentParser : GeneratedParser := fun _ =>
  .ok (assignmentTree ⟨.identifier, "é", 1⟩ ⟨.number, "0", 1⟩ ⟨.rightBracket, "]", 1⟩
    ⟨.identifier, "b", 1⟩ ⟨.semicolon, ";", 1⟩)

theorem accepts_assignmentParser : assignmentParser.Accepts "é[0] = b;" := by
  have hlexes : Lexes 1 "é[0] = b;".toList
      [⟨.identifier, "é", 1⟩, ⟨.leftBracket, "[", 1⟩, ⟨.number, "0", 1⟩, ⟨.rightBracket, "]", 1⟩,
        ⟨.equal, "=", 1⟩, ⟨.identifier, "b", 1⟩, ⟨.semicolon, ";", 1⟩] .finished :=
    @Lexes.lexeme 1 ['é'] _ .identifier _ _ (by decide +kernel) <|
    @Lexes.lexeme 1 ['['] _ .leftBracket _ _ (by decide +kernel) <|
    @Lexes.lexeme 1 ['0'] _ .number _ _ (by decide +kernel) <|
    @Lexes.lexeme 1 [']'] _ .rightBracket _ _ (by decide +kernel) <|
    @Lexes.ignored 1 [' '] _ .whitespace _ _ (by decide +kernel) nofun <|
    @Lexes.lexeme 1 ['='] _ .equal _ _ (by decide +kernel) <|
    @Lexes.ignored 1 [' '] _ .whitespace _ _ (by decide +kernel) nofun <|
    @Lexes.lexeme 1 ['b'] _ .identifier _ _ (by decide +kernel) <|
    @Lexes.lexeme 1 [';'] _ .semicolon _ _ (by decide +kernel) .finished
  exact accepts_of_derives hlexes (derives_assignmentTree rfl rfl rfl rfl rfl rfl rfl)

/-- The parser finds out afterwards that the left side is a target. -/
theorem parseWith_assignmentParser : assignmentParser.Accepts "é[0] = b;" ∧
    (parseSource "é[0] = b;").diagnostics = [] ∧
    parseWith assignmentParser "é[0] = b;" = .ok (parseSource "é[0] = b;").statements := by
  have h : (parseSource "é[0] = b;").diagnostics.isEmpty := by decide +kernel
  rw [List.isEmpty_iff] at h
  exact ⟨accepts_assignmentParser, h, parseWith_of_parseSource accepts_assignmentParser h⟩

/-- There is nothing to say about a text whose lexemes are a program, as long as words and names are
made of the same characters. -/
theorem diagnostics_of_program (hplain : Text.PlainNumbers source.toList)
    (hnesting : ∀ d ∈ (parseSource source).diagnostics, d.message ≠ Parse.Cause.nesting.message)
    {ls : List Lexeme} {ss : List Tree} (hlexes : Lexes 1 source.toList ls .finished)
    (h : Program .nearest (ls.map Lexeme.token) ss) : (parseSource source).diagnostics = [] := by
  obtain ⟨rest, haccepts⟩ := program_eq_ok h (Token.agrees_refl _)
    (Nat.le_max_right Parse.depthLimit _) (lastLineOf ls)
  rcases accepts_or_earliest hplain hnesting (Nat.le_max_left _ _) with ⟨-, hnone⟩ | ⟨_, hfault, -⟩
  · exact hnone
  · rw [cut_of_lexes hlexes] at hfault
    cases haccepts.symm.trans hfault

/-- Whatever a generated parser accepts, the parser and the scanner have nothing to say about, as
long as words and names are made of the same characters. -/
theorem diagnostics_of_parseWith (haccepts : parser.Accepts source)
    (hplain : ∀ c ∈ source.toList,
      Text.isAlphanumeric c = true → Text.isLetter c = true ∨ c.isDigit = true)
    (hnesting : ∀ d ∈ (parseSource source).diagnostics, d.message ≠ Parse.Cause.nesting.message)
    {ss : List Tree} (h : parseWith parser source = .ok ss) :
    (parseSource source).diagnostics = [] := by
  obtain ⟨ls, hlexes, hprogram⟩ := program_of_parseWith haccepts h
  exact diagnostics_of_program hplain hnesting hlexes hprogram

/-- A name may have letters of every script. -/
theorem diagnostics_of_assignmentParser : assignmentParser.Accepts "é[0] = b;" ∧
    (∃ ss, parseWith assignmentParser "é[0] = b;" = .ok ss) ∧
    (parseSource "é[0] = b;").diagnostics = [] := by
  have hplain : Text.PlainNumbers "é[0] = b;".toList := by decide +kernel
  obtain ⟨ss, hss⟩ := exists_parseWith_of_ok accepts_assignmentParser rfl
  exact ⟨accepts_assignmentParser, ⟨ss, hss⟩,
    diagnostics_of_parseWith accepts_assignmentParser hplain (by decide +kernel) hss⟩

/-- A parser that has read `var x² = 1;`. -/
def superscriptParser : GeneratedParser := fun _ =>
  .ok (declarationTree ⟨.identifier, "x²", 1⟩ ⟨.number, "1", 1⟩ ⟨.semicolon, ";", 1⟩)

/-- A superscript continues a name of the grammar, but is a stray character for the scanner. -/
theorem superscriptParser_accepts : superscriptParser.Conforms "var x² = 1;" ∧
    (∃ ss, parseWith superscriptParser "var x² = 1;" = .ok ss) ∧
    (parseSource "var x² = 1;").diagnostics ≠ [] := by
  have hlexes : Lexes 1 "var x² = 1;".toList
      [⟨.varKey, "var", 1⟩, ⟨.identifier, "x²", 1⟩, ⟨.equal, "=", 1⟩, ⟨.number, "1", 1⟩,
        ⟨.semicolon, ";", 1⟩] .finished :=
    @Lexes.lexeme 1 ['v', 'a', 'r'] _ .identifier _ _ (by decide +kernel) <|
    @Lexes.ignored 1 [' '] _ .whitespace _ _ (by decide +kernel) nofun <|
    @Lexes.lexeme 1 ['x', '²'] _ .identifier _ _ (by decide +kernel) <|
    @Lexes.ignored 1 [' '] _ .whitespace _ _ (by decide +kernel) nofun <|
    @Lexes.lexeme 1 ['='] _ .equal _ _ (by decide +kernel) <|
    @Lexes.ignored 1 [' '] _ .whitespace _ _ (by decide +kernel) nofun <|
    @Lexes.lexeme 1 ['1'] _ .number _ _ (by decide +kernel) <|
    @Lexes.lexeme 1 [';'] _ .semicolon _ _ (by decide +kernel) .finished
  have hconforms : superscriptParser.Conforms "var x² = 1;" :=
    conforms_of_derives hlexes (derives_declarationTree rfl rfl rfl rfl rfl)
  have hsome : (parseSource "var x² = 1;").diagnostics.isEmpty = false := by decide +kernel
  refine ⟨hconforms, exists_parseWith_of_ok hconforms.accepts rfl, fun hnone => ?_⟩
  rw [hnone] at hsome
  cases hsome

/-! ### Stopping -/

/-- A generated parser objects where the strict front end faults, if that has enough depth. -/
theorem exists_fault (hconforms : parser.Conforms source) {e : Unexpected}
    (h : parser source = .error e) :
    ∃ n, ∀ d ≥ n, ∃ fault, program (cut source).2 d (cut source).1 = .error fault ∧
      e.diagnostic = (Fault.unexpected fault.rest).diagnostic (cut source).2 := by
  obtain ⟨before, after, stop, hlexes, hof⟩ := exists_isOf hconforms h
  have hspelled := (List.forall_mem_append.1 hlexes.isSpelled).1
  rw [cut_of_lexes hlexes]
  have hend (line : Nat) (hline : stop.ending (lastLineOf (before ++ after)) = .finished line) :
      ¬ ∃ t, Rule.start.Derives (before ++ after) [] t := by
    cases stop with
    | finished => exact hof.unfinished rfl
    | unexpected c line => cases hline
  obtain ⟨n, hfaults⟩ := hof.viable.exists_fault hof.stuck hend hspelled
  refine ⟨n, fun d hd => ?_⟩
  obtain ⟨fault, hfault, hrest⟩ := hfaults d hd
  exact ⟨fault, hfault, by rw [hrest, hof.diagnostic_eq]⟩

/-- The strict front end gives the result of a generated parser, as long as it does not complain
about the nesting. -/
theorem parseWith_eq_parseStrict (hconforms : parser.Conforms source)
    (hnesting : ∀ d, parseStrict source = .error d → d.message ≠ "Too much nesting.") :
    parseWith parser source = (parseStrict source).mapError fun d => .rejected [d] := by
  cases hparser : parser source with
  | ok t =>
    obtain ⟨ls, hlexes, ht⟩ := hconforms.tree t hparser
    obtain ⟨ss, hstatements, hprogram⟩ := program_of_derives ht hlexes.isSpelled
    obtain ⟨e, hlimit, henough⟩ :
        ∃ e, depthLimit ≤ e ∧ 12 * (ls.map Lexeme.token).length + 14 ≤ e :=
      ⟨_, Nat.le_max_left _ _, Nat.le_max_right _ _⟩
    obtain ⟨rest, haccepts⟩ := program_eq_ok hprogram (Token.agrees_refl _) henough (lastLineOf ls)
    have hparse := parseStrict_of_deeper hlimit hnesting
    rw [cut_of_lexes hlexes] at hparse
    dsimp only [Stop.ending] at hparse
    rw [haccepts] at hparse
    rw [hparse, parseWith, hparser]
    dsimp only
    rw [hstatements]
    rfl
  | error e =>
    obtain ⟨n, hfaults⟩ := exists_fault hconforms hparser
    obtain ⟨fault, hfault, hdiagnostic⟩ := hfaults _ (Nat.le_max_right depthLimit n)
    rw [parseStrict_of_deeper (Nat.le_max_left _ _) hnesting, hfault, parseWith, hparser]
    dsimp only
    rw [hdiagnostic]
    rfl

theorem Strict.Fault.line_diagnostic (fault : Fault) (ending : Ending) :
    ((Fault.unexpected fault.rest).diagnostic ending).line = (fault.diagnostic ending).line := by
  cases fault with
  | unexpected rest => rfl
  | tooDeep rest => cases rest <;> rfl

/-- A generated parser stops at the first problem: where the parser or the scanner reports anything,
it reports one diagnostic, on a line that is no later than the line of any of theirs. -/
theorem parseWith_stops_first (hconforms : parser.Conforms source)
    (hplain : ∀ c ∈ source.toList,
      Text.isAlphanumeric c = true → Text.isLetter c = true ∨ c.isDigit = true)
    (hnesting : ∀ d ∈ (parseSource source).diagnostics, d.message ≠ Parse.Cause.nesting.message)
    (h : (parseSource source).diagnostics ≠ []) :
    ∃ d, parseWith parser source = .error (.rejected [d]) ∧ ∃ n : Nat, d.line = .int n ∧
      ∀ d' ∈ (parseSource source).diagnostics, ∃ m : Nat, d'.line = .int m ∧ n ≤ m := by
  cases hparser : parser source with
  | ok t =>
    obtain ⟨ls, hlexes, ht⟩ := hconforms.tree t hparser
    obtain ⟨ss, -, hprogram⟩ := program_of_derives ht hlexes.isSpelled
    exact absurd (diagnostics_of_program hplain hnesting hlexes hprogram) h
  | error e =>
    obtain ⟨depth, hfaults⟩ := exists_fault hconforms hparser
    obtain ⟨fault, hfault, hdiagnostic⟩ := hfaults _ (Nat.le_max_right Parse.depthLimit depth)
    refine ⟨e.diagnostic, by rw [parseWith, hparser], ?_⟩
    rcases accepts_or_earliest hplain hnesting (Nat.le_max_left Parse.depthLimit depth) with
      ⟨-, hnone⟩ | ⟨fault', hfault', n, hn, hall⟩
    · exact absurd hnone h
    · cases hfault.symm.trans hfault'
      refine ⟨n, ?_, fun d hd => hall d.line (List.mem_map_of_mem hd)⟩
      rw [hdiagnostic, fault.line_diagnostic, hn]

/-- Behind a text over two lines an operand is missing, and a stray character, a bad target and an
open comment follow. -/
theorem parseWith_stops_first_operand :
    GeneratedParser.Conforms (fun _ => .error (.token ⟨.semicolon, ";", 2⟩))
        "print \"x\ny\" +;\n@(a) = 1; /* b" ∧
      (parseSource "print \"x\ny\" +;\n@(a) = 1; /* b").diagnostics.length = 4 ∧
      ∃ d, parseWith (fun _ => .error (.token ⟨.semicolon, ";", 2⟩))
          "print \"x\ny\" +;\n@(a) = 1; /* b" = .error (.rejected [d]) ∧
        ∃ n : Nat, d.line = .int n ∧
          ∀ d' ∈ (parseSource "print \"x\ny\" +;\n@(a) = 1; /* b").diagnostics,
            ∃ m : Nat, d'.line = .int m ∧ n ≤ m := by
  have hstops : unexpectedLexeme? 100 "print \"x\ny\" +;\n@(a) = 1; /* b" =
      some ⟨.semicolon, ";", 2⟩ := by decide +kernel
  have hlength : (parseSource "print \"x\ny\" +;\n@(a) = 1; /* b").diagnostics.length = 4 := by
    decide +kernel
  have hplain : Text.PlainNumbers "print \"x\ny\" +;\n@(a) = 1; /* b".toList := by decide +kernel
  have hconforms := conforms_of_unexpectedLexeme? hstops
  refine ⟨hconforms, hlength, parseWith_stops_first hconforms hplain (by decide +kernel) ?_⟩
  intro hnone
  rw [hnone] at hlength
  cases hlength

end Scriptlet
