import Scriptlet.Parse.Statement
import Scriptlet.Proofs.Lines.Erasure
import Scriptlet.Proofs.Parse.Contract

/-!
# Parsing does not look at lines

Every parsing step commutes with forgetting lines: on tokens without lines it yields the trees
without lines, complains about the same tokens for the same reasons, and gives up in the same
places. Errors and the recovery from them are covered, as the contract says nothing about success.

## Main definitions

* `Parse.State.withoutLines` — the state of the parser without lines
* `Parse.IgnoresLines` — the contract of parsing steps

## Main results

* `Parse.ignoresLines_expression`, `Parse.ignoresLines_declaration`, `Parse.ignoresLines_program` —
  the functions of the parser
* `parseTokens?_withoutLine` — the statements and diagnostics of a token list
-/

namespace Scriptlet

namespace Parse

/-- A complaint whose tokens have forgotten their lines. -/
def Complaint.withoutLines (c : Complaint) : Complaint :=
  { c with rest := c.rest.map Token.withoutLine }

/-- The state in which all tokens have forgotten their lines. -/
def State.withoutLines (s : State) : State where
  rest := s.rest.map Token.withoutLine
  complaints := s.complaints.map Complaint.withoutLines
  givenUp := s.givenUp

/-- The step `q` does without lines what `p` does with them. -/
abbrev IgnoresLines {α β : Type} (g : α → β) (p : Parse α) (q : Parse β) : Prop :=
  Commutes id State.withoutLines g p q

variable {α β : Type} {g : α → β}

/-! ### The basic steps -/

theorem ignoresLines_get : IgnoresLines State.withoutLines get get := fun _ => rfl

theorem ignoresLines_complain (cause : Cause) (rest : List Token) :
    IgnoresLines id (complain cause rest) (complain cause (rest.map Token.withoutLine)) :=
  .modify fun _ => rfl

theorem ignoresLines_fail (cause : Cause) :
    IgnoresLines g (fail cause : Parse α) (fail cause : Parse β) := fun _ => rfl

theorem ignoresLines_nextKind? : IgnoresLines id nextKind? nextKind? := by
  intro s
  change EStateM.Result.ok ((s.rest.map Token.withoutLine).head?.map (·.kind)) s.withoutLines = _
  rw [List.head?_map, Option.map_map]
  rfl

theorem ignoresLines_nextIs (kind : Kind) : IgnoresLines id (nextIs kind) (nextIs kind) :=
  ignoresLines_nextKind?.map fun _ => rfl

theorem ignoresLines_accept? (kinds : List Kind) :
    IgnoresLines (Option.map Token.withoutLine) (accept? kinds) (accept? kinds) := by
  rintro ⟨ts, cs, n⟩
  cases ts with
  | nil => rfl
  | cons t rest =>
    by_cases hkind : t.kind ∈ kinds
    · rw [accept?_cons hkind]
      exact accept?_cons hkind
    · have hnone (u : Token) (us : List Token) (hu : u.kind ∉ kinds) :
          ∀ v ∈ (u :: us).head?, v.kind ∉ kinds := by
        rintro v ⟨⟩
        exact hu
      rw [accept?_of_notMem (hnone t rest hkind)]
      exact accept?_of_notMem (hnone t.withoutLine _ hkind)

theorem ignoresLines_expect (kind : Kind) (cause : Cause) :
    IgnoresLines Token.withoutLine (expect kind cause) (expect kind cause) := by
  refine (ignoresLines_accept? [kind]).bind fun o => ?_
  cases o with
  | none => exact ignoresLines_fail cause
  | some t => exact .pure t

theorem IgnoresLines.iterate {step : α → Parse (Option α)} {step' : β → Parse (Option β)}
    (h : ∀ a, IgnoresLines (Option.map g) (step a) (step' (g a))) (n : Nat) (a : α) :
    IgnoresLines g (iterate step n a) (iterate step' n (g a)) := by
  induction n generalizing a with
  | zero => exact .pure a
  | succ n ih =>
    refine (h a).bind fun o => ?_
    cases o with
    | none => exact .pure a
    | some b => exact ih b

/-- A repetition has as many tokens to go through without lines as with them. -/
theorem IgnoresLines.repeated {step : α → Parse (Option α)} {step' : β → Parse (Option β)}
    (h : ∀ a, IgnoresLines (Option.map g) (step a) (step' (g a))) (a : α) :
    IgnoresLines g (repeated step a) (repeated step' (g a)) := by
  refine ignoresLines_get.bind fun s => ?_
  have hlength : s.withoutLines.rest.length = s.rest.length := List.length_map _
  rw [hlength]
  exact IgnoresLines.iterate h s.rest.length a

theorem IgnoresLines.commaSeparated {item : Parse α} {item' : Parse β}
    (h : IgnoresLines g item item') :
    IgnoresLines (List.map g) (commaSeparated item) (commaSeparated item') := by
  refine h.bind fun first => ?_
  refine (IgnoresLines.repeated (g := List.map g) (fun items => ?_) [first]).map fun all => ?_
  · refine (ignoresLines_accept? [.comma]).bind fun o => ?_
    cases o with
    | none => exact .pure none
    | some _ => exact h.map fun _ => rfl
  · exact List.map_reverse.symm

theorem withoutLines_synchronize (ts : List Token) :
    synchronize (ts.map Token.withoutLine) = (synchronize ts).map Token.withoutLine := by
  have hskip : ∀ (us : List Token) (t : Token),
      skipFrom t.withoutLine (us.map Token.withoutLine) =
        (skipFrom t us).map Token.withoutLine := by
    intro us
    induction us with
    | nil => exact fun _ => rfl
    | cons u us ih =>
      intro t
      simp only [List.map_cons, skipFrom, Token.kind_withoutLine]
      by_cases hstop : t.kind = .semicolon ∨ u.kind.startsStatement = true
      · simp only [hstop, if_true, List.map_cons]
      · simp only [hstop, if_false]
        exact ih u
  cases ts with
  | nil => rfl
  | cons t rest => exact hskip rest t

theorem withoutLines_resume (s : State) : s.withoutLines.resume = s.resume.withoutLines := by
  simp only [State.resume, State.withoutLines, withoutLines_synchronize]

/-- Recovery skips the same tokens. -/
theorem IgnoresLines.recover {p : Parse α} {q : Parse β} (h : IgnoresLines g p q) :
    IgnoresLines (Option.map g) (recover p) (recover q) := by
  intro s
  simp only [Parse.recover, h s]
  cases p s with
  | ok a s' => rfl
  | error e s' =>
    cases e with
    | panic => exact congrArg _ (withoutLines_resume s')
    | tooDeep =>
      exact congrArg _ (withoutLines_resume
        { s' with complaints := { cause := .nesting, rest := s'.rest } :: s'.complaints })

/-! ### Expressions -/

/-- The node that a level builds has the lines of its parts and no others. -/
def Level.IgnoresLines (level : Level) : Prop :=
  ∀ left op right, (level.build left op right).withoutLines =
    level.build left.withoutLines op.withoutLine right.withoutLines

theorem ignoresLines_levels : ∀ level ∈ levels, level.IgnoresLines := by
  simp only [levels, List.forall_mem_cons, List.not_mem_nil, false_imp_iff, implies_true, and_true]
  refine ⟨?_, ?_, ?_, ?_, ?_, ?_⟩ <;> exact fun _ _ _ => rfl

section Parts

variable {e s : Parse Tree} {b : Parse (List Tree)} (he : IgnoresLines Tree.withoutLines e e)
  (hs : IgnoresLines Tree.withoutLines s s) (hb : IgnoresLines (List.map Tree.withoutLines) b b)
include he

theorem ignoresLines_foldLevel {level : Level} (hlevel : level.IgnoresLines) :
    IgnoresLines Tree.withoutLines (foldLevel level e) (foldLevel level e) := by
  refine he.bind fun first => IgnoresLines.repeated (fun left => ?_) first
  refine (ignoresLines_accept? _).bind fun o => ?_
  cases o with
  | none => exact .pure none
  | some op => exact he.map fun right => congrArg some (hlevel left op right).symm

omit he in
theorem ignoresLines_assignTo (left value : Tree) (equals : List Token) :
    IgnoresLines Tree.withoutLines (assignTo left value equals)
      (assignTo left.withoutLines value.withoutLines (equals.map Token.withoutLine)) := by
  cases left with
  | varRef name => exact .pure _
  | index target bracket index => exact .pure _
  -- a list is the one other tree whose image is not seen at once
  | list items =>
    rw [Tree.withoutLines_list]
    exact (ignoresLines_complain _ equals).map fun _ => (Tree.withoutLines_list items).symm
  | _ => exact (ignoresLines_complain _ equals).map fun _ => rfl

theorem ignoresLines_callArguments :
    IgnoresLines (Prod.map Token.withoutLine (List.map Tree.withoutLines)) (callArguments e)
      (callArguments e) := by
  rw [callArguments_eq]
  have harguments : IgnoresLines (List.map Tree.withoutLines)
      (listBefore .rightParen (commaSeparated e)) (listBefore .rightParen (commaSeparated e)) := by
    refine (ignoresLines_nextIs _).bind fun found => ?_
    exact .ite (.pure []) he.commaSeparated
  refine harguments.bind fun arguments => ?_
  exact (ignoresLines_expect _ _).map fun paren => rfl

theorem ignoresLines_trailer? (t : Tree) :
    IgnoresLines (Option.map Tree.withoutLines) (trailer? e t) (trailer? e t.withoutLines) := by
  refine (ignoresLines_accept? _).bind fun o => ?_
  cases o with
  | none => exact .pure none
  | some opening =>
    refine .ite ?_ ?_
    · refine (ignoresLines_callArguments he).map fun ⟨paren, arguments⟩ => ?_
      simp [Tree.withoutLines, Tree.withoutLinesItems_eq]
    · exact he.bind fun index => (ignoresLines_expect _ _).map fun bracket => rfl

theorem ignoresLines_primaryWith :
    IgnoresLines Tree.withoutLines (primaryWith e) (primaryWith e) := by
  refine (ignoresLines_accept? _).bind fun o => ?_
  cases o with
  | none => exact ignoresLines_fail _
  | some t =>
    simp only [Option.map_some, Token.kind_withoutLine, Token.literal_withoutLine]
    split
    · exact .pure _
    · exact .pure _
    · exact .pure _
    · exact .pure _
    · exact he.bind fun inner => (ignoresLines_expect _ _).map fun _ => rfl
    · exact .pure _

end Parts

mutual

theorem ignoresLines_expression : ∀ d,
    IgnoresLines Tree.withoutLines (expression d) (expression d)
  | 0 => .throw _
  | d + 1 => ignoresLines_assignment d

theorem ignoresLines_assignment : ∀ d,
    IgnoresLines Tree.withoutLines (assignment d) (assignment d)
  | 0 => .throw _
  | d + 1 => by
    refine (ignoresLines_binary d levels ignoresLines_levels).bind fun left => ?_
    refine ignoresLines_get.bind fun s => (ignoresLines_accept? _).bind fun o => ?_
    cases o with
    | none => exact .pure left
    | some _ =>
      exact (ignoresLines_assignment d).bind fun value => ignoresLines_assignTo left value s.rest

theorem ignoresLines_binary : ∀ d ls, (∀ level ∈ ls, level.IgnoresLines) →
    IgnoresLines Tree.withoutLines (binary d ls) (binary d ls)
  | 0, _, _ => .throw _
  | d + 1, level :: tighter, h =>
    ignoresLines_foldLevel
      (ignoresLines_binary d tighter fun l hl => h l (List.mem_cons_of_mem _ hl))
      (h level List.mem_cons_self)
  | d + 1, [], _ => ignoresLines_unary d

theorem ignoresLines_unary : ∀ d, IgnoresLines Tree.withoutLines (unary d) (unary d)
  | 0 => .throw _
  | d + 1 => by
    refine (ignoresLines_accept? _).bind fun o => ?_
    cases o with
    | none => exact ignoresLines_call d
    | some op => exact (ignoresLines_unary d).map fun _ => rfl

theorem ignoresLines_call : ∀ d, IgnoresLines Tree.withoutLines (call d) (call d)
  | 0 => .throw _
  | d + 1 =>
    (ignoresLines_primary d).bind fun e =>
      IgnoresLines.repeated (ignoresLines_trailer? (ignoresLines_expression d)) e

theorem ignoresLines_primary : ∀ d, IgnoresLines Tree.withoutLines (primary d) (primary d)
  | 0 => .throw _
  | d + 1 => ignoresLines_primaryWith (ignoresLines_expression d)

end

/-! ### Statements -/

section Parts

variable {e s : Parse Tree} {b : Parse (List Tree)} (he : IgnoresLines Tree.withoutLines e e)
  (hs : IgnoresLines Tree.withoutLines s s) (hb : IgnoresLines (List.map Tree.withoutLines) b b)
include he

theorem ignoresLines_optionalAfter (kind : Kind) :
    IgnoresLines Tree.withoutLines (optionalAfter kind .null e) (optionalAfter kind .null e) := by
  refine (ignoresLines_accept? _).bind fun o => ?_
  cases o with
  | none => exact .pure Tree.null
  | some _ => exact he

theorem ignoresLines_optionalBefore (kind : Kind) :
    IgnoresLines Tree.withoutLines (optionalBefore kind e) (optionalBefore kind e) :=
  (ignoresLines_nextIs kind).bind fun _ => .ite (.pure Tree.null) he

theorem ignoresLines_varDeclaration :
    IgnoresLines Tree.withoutLines (varDeclaration e) (varDeclaration e) := by
  rw [varDeclaration_eq]
  refine (ignoresLines_expect _ _).bind fun name => ?_
  refine (ignoresLines_optionalAfter he .equal).bind fun initializer => ?_
  exact (ignoresLines_expect _ _).map fun _ => rfl

omit he in
theorem ignoresLines_parameters :
    IgnoresLines (List.map Token.withoutLine) parameters parameters := by
  rw [parameters_eq]
  have hlist : IgnoresLines (List.map Token.withoutLine)
      (listBefore .rightParen (commaSeparated (expect .identifier .parameterName)))
      (listBefore .rightParen (commaSeparated (expect .identifier .parameterName))) := by
    refine (ignoresLines_nextIs _).bind fun _ => ?_
    exact .ite (.pure []) (ignoresLines_expect _ _).commaSeparated
  exact hlist.bind fun params => (ignoresLines_expect _ _).map fun _ => rfl

omit he in
include hb in
theorem ignoresLines_funDeclaration :
    IgnoresLines Tree.withoutLines (funDeclaration b) (funDeclaration b) := by
  refine (ignoresLines_expect _ _).bind fun name => (ignoresLines_expect _ _).bind fun _ => ?_
  refine ignoresLines_parameters.bind fun params => (ignoresLines_expect _ _).bind fun _ => ?_
  refine hb.map fun body => ?_
  simp [Tree.withoutLines, Tree.withoutLinesItems_eq, Function.comp_def]

theorem ignoresLines_printStatement :
    IgnoresLines Tree.withoutLines (printStatement e) (printStatement e) :=
  he.bind fun _ => (ignoresLines_expect _ _).map fun _ => rfl

include hs in
theorem ignoresLines_ifStatement :
    IgnoresLines Tree.withoutLines (ifStatement e s) (ifStatement e s) := by
  rw [ifStatement_eq]
  refine (ignoresLines_expect _ _).bind fun _ => he.bind fun condition => ?_
  refine (ignoresLines_expect _ _).bind fun _ => hs.bind fun thenBranch => ?_
  exact (ignoresLines_optionalAfter hs .elseKey).map fun _ => rfl

include hs in
theorem ignoresLines_whileStatement :
    IgnoresLines Tree.withoutLines (whileStatement e s) (whileStatement e s) := by
  refine (ignoresLines_expect _ _).bind fun _ => he.bind fun condition => ?_
  exact (ignoresLines_expect _ _).bind fun _ => hs.map fun _ => rfl

theorem ignoresLines_expressionStatement :
    IgnoresLines Tree.withoutLines (expressionStatement e) (expressionStatement e) :=
  he.bind fun _ => (ignoresLines_expect _ _).map fun _ => rfl

theorem ignoresLines_forInitializer :
    IgnoresLines Tree.withoutLines (forInitializer e) (forInitializer e) := by
  refine (ignoresLines_accept? _).bind fun o => ?_
  cases o with
  | none => exact ignoresLines_expressionStatement he
  | some t => exact .ite (.pure Tree.null) (ignoresLines_varDeclaration he)

include hs in
theorem ignoresLines_forStatement :
    IgnoresLines Tree.withoutLines (forStatement e s) (forStatement e s) := by
  refine (ignoresLines_expect _ _).bind fun _ => ?_
  refine (ignoresLines_forInitializer he).bind fun initializer => ?_
  refine (ignoresLines_optionalBefore he _).bind fun condition => ?_
  refine (ignoresLines_expect _ _).bind fun _ => ?_
  refine (ignoresLines_optionalBefore he _).bind fun increment => ?_
  refine (ignoresLines_expect _ _).bind fun _ => hs.map fun body => ?_
  exact (Tree.withoutLines_desugarFor initializer condition increment body).symm

theorem ignoresLines_returnStatement (keyword : Token) :
    IgnoresLines Tree.withoutLines (returnStatement keyword e)
      (returnStatement keyword.withoutLine e) :=
  (ignoresLines_optionalBefore he _).bind fun _ => (ignoresLines_expect _ _).map fun _ => rfl

include hs hb in
theorem ignoresLines_statementWith :
    IgnoresLines Tree.withoutLines (statementWith e s b) (statementWith e s b) := by
  refine (ignoresLines_accept? _).bind fun o => ?_
  cases o with
  | none => exact ignoresLines_expressionStatement he
  | some t =>
    simp only [Option.map_some, Token.kind_withoutLine]
    split
    · exact ignoresLines_printStatement he
    · exact ignoresLines_ifStatement he hs
    · exact ignoresLines_whileStatement he hs
    · exact ignoresLines_forStatement he hs
    · exact ignoresLines_returnStatement he t
    · refine hb.map fun body => ?_
      simp [Tree.withoutLines, Tree.withoutLinesItems_eq]

include hs hb in
theorem ignoresLines_declarationWith :
    IgnoresLines Tree.withoutLines (declarationWith e s b) (declarationWith e s b) := by
  refine (ignoresLines_accept? _).bind fun o => ?_
  cases o with
  | none => exact hs
  | some t => exact .ite (ignoresLines_funDeclaration hb) (ignoresLines_varDeclaration he)

end Parts

theorem ignoresLines_declarationsUntil (stop : Kind → Bool) {declaration : Parse (Option Tree)}
    (h : IgnoresLines (Option.map Tree.withoutLines) declaration declaration) :
    IgnoresLines (List.map Tree.withoutLines) (declarationsUntil stop declaration)
      (declarationsUntil stop declaration) := by
  rw [declarationsUntil_eq]
  refine (IgnoresLines.repeated (g := List.map Tree.withoutLines) (fun all => ?_) []).map
    fun all => List.map_reverse.symm
  refine ignoresLines_nextKind?.bind fun o => ?_
  cases o with
  | none => exact .pure none
  | some kind =>
    refine .ite (.pure none) (h.bind fun o => ?_)
    -- a declaration that was given up is given up without lines as well
    cases o with
    | none => exact .pure (some all)
    | some s => exact .pure (some (s :: all))

mutual

theorem ignoresLines_declaration : ∀ d,
    IgnoresLines (Option.map Tree.withoutLines) (declaration d) (declaration d)
  | 0 => .throw _
  | d + 1 =>
    (ignoresLines_declarationWith (ignoresLines_expression d) (ignoresLines_statement d)
      (ignoresLines_block d)).recover

theorem ignoresLines_statement : ∀ d, IgnoresLines Tree.withoutLines (statement d) (statement d)
  | 0 => .throw _
  | d + 1 =>
    ignoresLines_statementWith (ignoresLines_expression d) (ignoresLines_statement d)
      (ignoresLines_block d)

theorem ignoresLines_block : ∀ d,
    IgnoresLines (List.map Tree.withoutLines) (block d) (block d)
  | 0 => .throw _
  | d + 1 =>
    (ignoresLines_declarationsUntil _ (ignoresLines_declaration d)).bind fun _ =>
      (ignoresLines_expect _ _).map fun _ => rfl

end

theorem ignoresLines_program (d : Nat) :
    IgnoresLines (List.map Tree.withoutLines) (program d) (program d) :=
  ignoresLines_declarationsUntil _ (ignoresLines_declaration d)

end Parse

/-! ### Programs -/

/-- The statements and complaints of tokens without lines. -/
theorem parseBody_withoutLine (d : Nat) (ts : List Token) :
    parseBody d (ts.map Token.withoutLine) =
      ((parseBody d ts).1.map Tree.withoutLines,
        (parseBody d ts).2.map Parse.Complaint.withoutLines) := by
  have hrun := Parse.ignoresLines_program d (.start ts)
  have hstart : (Parse.State.start ts).withoutLines = .start (ts.map Token.withoutLine) := rfl
  rw [hstart] at hrun
  simp only [parseBody, hrun]
  cases Parse.program d (.start ts) with
  | ok statements s => simp [Parse.State.withoutLines]
  | error e s => simp [Parse.State.withoutLines]

/-- A parsed program without lines. -/
def Parsed.withoutLines (p : Parsed) : Parsed where
  statements := p.statements.map Tree.withoutLines
  diagnostics := p.diagnostics.map Diagnostic.withoutLine

theorem Parse.Complaint.withoutLine_diagnostic (last : Token) (c : Parse.Complaint) :
    (c.diagnostic last).withoutLine = c.withoutLines.diagnostic last.withoutLine := by
  obtain ⟨cause, rest⟩ := c
  cases rest <;> rfl

/-- What is parsed from tokens without lines is what is parsed from the tokens, without lines. -/
theorem parseTokens?_withoutLine (ts : List Token) :
    parseTokens? (ts.map Token.withoutLine) = (parseTokens? ts).map Parsed.withoutLines := by
  have hbody : (ts.map Token.withoutLine).takeWhile (·.kind ≠ .eof) =
      (ts.takeWhile (·.kind ≠ .eof)).map Token.withoutLine := by
    rw [List.takeWhile_map]
    rfl
  have hlast : (ts.map Token.withoutLine).getLast?.any (·.kind = .eof) =
      ts.getLast?.any (·.kind = .eof) := by
    rw [List.getLast?_map]
    cases ts.getLast? <;> rfl
  simp only [parseTokens?, hbody, hlast, parseBody_withoutLine, List.length_map]
  split
  · rw [← List.map_drop, List.head?_map, Option.map_map, Option.map_map]
    congr 1
    funext last
    simp [Parsed.withoutLines, Parse.Complaint.withoutLine_diagnostic, Function.comp_def]
  · rfl

end Scriptlet
