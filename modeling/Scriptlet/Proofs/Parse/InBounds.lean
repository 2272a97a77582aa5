import Scriptlet.Proofs.Parse.Tied

/-!
# The cursor stays in bounds

Function by function, the cursor parser ends like the parser. So it ends at the first end token,
with the statements and the diagnostics of the parser, and on the way it reads no token that it
should not: none behind the first end token, and none in front of the first token.

## Main results

* `Cursor.follows_expression`, `Cursor.follows_statement`, `Cursor.follows_declaration` — the cursor
  goes along with the parser
* `Cursor.parse_stays_in_bounds` — where a whole program is read, and where the cursor ends
-/

namespace Scriptlet.Cursor

open Parse (Cause Level levels beforeEnd position)

variable {inp : Input} {last : Token} {α : Type} (hinp : inp.Ready last)

include hinp

/-! ### Expressions -/

theorem follows_commaSeparated {item : Cursor α} {item' : Parse α}
    (h : Follows inp last item item') (honward : Parse.Onward item') :
    Follows inp last (commaSeparated inp item) (Parse.commaSeparated item') := by
  rw [Parse.commaSeparated_eq]
  refine h.bind fun first => (Follows.separated hinp (fun items => ?_) honward [first]).bind
    fun _ => .pure _
  exact .matchAny hinp (fun _ _ => .of_follows (h.bind fun _ => .pure _)) (.pure none)

theorem follows_foldLevel {operand : Cursor Tree} {operand' : Parse Tree}
    (h : Follows inp last operand operand') (honward : Parse.Onward operand') (level : Level) :
    Follows inp last (foldLevel inp level operand) (Parse.foldLevel level operand') := by
  rw [Parse.foldLevel_eq]
  refine h.bind fun first => Follows.separated hinp (fun left => ?_) honward first
  exact .matchAny hinp (fun _ _ => .previous (h.bind fun _ => .pure _)) (.pure none)

section Expressions

variable {e : Cursor Tree} {e' : Parse Tree} (he : Follows inp last e e')
  (honward : Parse.Onward e')

include he honward

theorem follows_callArguments :
    Follows inp last (callArguments inp e) (Parse.callArguments e') := by
  rw [Parse.callArguments_eq]
  have hitems := follows_commaSeparated hinp he honward
  exact (Follows.unlessNext hinp hitems _ []).bind fun _ =>
    (Follows.consume hinp _ _).bind fun _ => .pure _

theorem follows_trailer? (callee : Tree) :
    Follows inp last (trailer? inp e callee) (Parse.trailer? e' callee) := by
  refine .firstOf hinp rfl ?_ (.pure none)
  simp only [List.forall_mem_cons]
  refine ⟨fun t hk => ?_, fun t hk => ?_, nofun⟩
  · rw [if_pos (List.mem_singleton.1 hk)]
    exact .of_follows ((follows_callArguments hinp he honward).bind fun _ => .pure _)
  · rw [if_neg (by simp [List.mem_singleton.1 hk])]
    exact .of_follows (he.bind fun _ => (Follows.consume hinp _ _).bind fun _ => .pure _)

omit honward in
theorem follows_primaryWith : Follows inp last (primaryWith inp e) (Parse.primaryWith e') := by
  refine .firstOf hinp rfl ?_ (.fail hinp .expression)
  simp only [List.forall_mem_cons]
  refine ⟨fun t hk => ?_, fun t hk => ?_, fun t hk => ?_, fun t hk => ?_, fun t hk => ?_,
    fun t hk => ?_, nofun⟩
  · rw [List.mem_singleton.1 hk]
    exact .pure _
  · rw [List.mem_singleton.1 hk]
    exact .pure _
  · rw [List.mem_singleton.1 hk]
    exact .pure _
  · have hk : t.kind = .number ∨ t.kind = .string := by simpa using hk
    rcases hk with hk | hk <;> rw [hk] <;> exact .previous (.pure _)
  · rw [List.mem_singleton.1 hk]
    exact .previous (.pure _)
  · rw [List.mem_singleton.1 hk]
    exact .of_follows (he.bind fun _ => (Follows.consume hinp _ _).bind fun _ => .pure _)

end Expressions

omit hinp in
theorem follows_assignTo (left value : Tree) (equals : Token) (rest : List Token) :
    Follows inp last (assignTo left value equals) (Parse.assignTo left value (equals :: rest)) := by
  intro c s ht _
  cases left with
  | varRef => exact .ok ht
  | index => exact .ok ht
  | _ => exact .ok (ht.complain .assignmentTarget (equals :: rest))

theorem follows_assignmentTail {value : Cursor Tree} {value' : Parse Tree}
    (h : Follows inp last value value') (left : Tree) :
    Follows inp last (assignmentTail inp value left) (Parse.assignmentTail value' left) := by
  intro c s ht _
  rcases Parse.assignmentTail_cases value' left s with ⟨hnext, hrun⟩ | ⟨t, rest, hs, hk, hrun⟩
  · rw [hrun]
    exact (ht.matchAny_of_nextNot hinp hnext).alike_bind fun _ ht' => .ok ht'
  · have hsuffix : t :: rest <:+ beforeEnd inp.tokens := hs ▸ ht.suffix
    rw [hrun]
    refine (ht.matchAny_of_mem hinp hs (List.mem_singleton.2 hk)).alike_bind fun c₁ ht₁ => ?_
    refine (ht₁.previous (behind_of_suffix hsuffix)).alike_bind fun c₂ ht₂ => ?_
    exact h.bind (fun v => follows_assignTo left v t rest) c₂ _ ht₂ trivial

section

omit hinp

mutual

theorem follows_expression (hinp : inp.Ready last) :
    ∀ d, Follows inp last (expression inp d) (Parse.expression d)
  | 0 => .tooDeep
  | d + 1 => follows_assignment hinp d

theorem follows_assignment (hinp : inp.Ready last) :
    ∀ d, Follows inp last (assignment inp d) (Parse.assignment d)
  | 0 => .tooDeep
  | d + 1 => by
    rw [Parse.assignment_succ]
    exact (follows_binary hinp d levels).bind
      (follows_assignmentTail hinp (follows_assignment hinp d))

theorem follows_binary (hinp : inp.Ready last) :
    ∀ d levels, Follows inp last (binary inp d levels) (Parse.binary d levels)
  | 0, _ => .tooDeep
  | d + 1, level :: tighter =>
    follows_foldLevel hinp (follows_binary hinp d tighter) (Parse.onward.binary d tighter) level
  | d + 1, [] => follows_unary hinp d

theorem follows_unary (hinp : inp.Ready last) :
    ∀ d, Follows inp last (unary inp d) (Parse.unary d)
  | 0 => .tooDeep
  | d + 1 => .matchAny hinp (fun _ _ => .previous ((follows_unary hinp d).bind fun _ => .pure _))
      (follows_call hinp d)

theorem follows_call (hinp : inp.Ready last) :
    ∀ d, Follows inp last (call inp d) (Parse.call d)
  | 0 => .tooDeep
  | d + 1 => by
    have honward := Parse.onward.expression d
    refine (follows_primary hinp d).bind fun callee => Follows.loop hinp
      (follows_trailer? hinp (follows_expression hinp d) honward)
      (Parse.Advances.trailer? honward) ?_ callee
    rintro callee ⟨ts, cs, n⟩ rfl
    rfl

theorem follows_primary (hinp : inp.Ready last) :
    ∀ d, Follows inp last (primary inp d) (Parse.primary d)
  | 0 => .tooDeep
  | d + 1 => follows_primaryWith hinp (follows_expression hinp d)

end

end

/-! ### Statements -/

section Statements

variable {e s : Cursor Tree} {e' s' : Parse Tree} {b : Cursor (List Tree)} {b' : Parse (List Tree)}
  (he : Follows inp last e e') (hs : Follows inp last s s') (hb : Follows inp last b b')

section

include he

theorem follows_varDeclaration :
    Follows inp last (varDeclaration inp e) (Parse.varDeclaration e') := by
  rw [Parse.varDeclaration_eq]
  exact (Follows.consume hinp _ _).bind fun _ =>
    (Follows.optionalAfter hinp he _ _).bind fun _ =>
      (Follows.consume hinp _ _).bind fun _ => .pure _

theorem follows_expressionStatement :
    Follows inp last (expressionStatement inp e) (Parse.expressionStatement e') :=
  he.bind fun _ => (Follows.consume hinp _ _).bind fun _ => .pure _

theorem follows_printStatement :
    Follows inp last (printStatement inp e) (Parse.printStatement e') :=
  he.bind fun _ => (Follows.consume hinp _ _).bind fun _ => .pure _

theorem follows_returnStatement (keyword : Token) :
    FollowsIf inp last (Behind inp keyword) (returnStatement inp e)
      (Parse.returnStatement keyword e') :=
  .previous ((Follows.unlessNext hinp he _ _).bind fun _ =>
    (Follows.consume hinp _ _).bind fun _ => .pure _)

theorem follows_forInitializer :
    Follows inp last (forInitializer inp e) (Parse.forInitializer e') := by
  refine .firstOf hinp rfl ?_ (follows_expressionStatement hinp he)
  simp only [List.forall_mem_cons]
  refine ⟨fun t hk => ?_, fun t hk => ?_, nofun⟩
  · rw [if_pos (List.mem_singleton.1 hk)]
    exact .pure _
  · rw [if_neg (by simp [List.mem_singleton.1 hk])]
    exact .of_follows (follows_varDeclaration hinp he)

end

theorem follows_parameters : Follows inp last (parameters inp) Parse.parameters := by
  rw [Parse.parameters_eq]
  have hname := Follows.consume hinp .identifier .parameterName
  have hnames := follows_commaSeparated hinp hname (Parse.onward.expect .identifier rfl)
  exact (Follows.unlessNext hinp hnames _ []).bind fun _ =>
    (Follows.consume hinp _ _).bind fun _ => .pure _

include hb in
theorem follows_funDeclaration :
    Follows inp last (funDeclaration inp b) (Parse.funDeclaration b') :=
  (Follows.consume hinp _ _).bind fun _ => (Follows.consume hinp _ _).bind fun _ =>
    (follows_parameters hinp).bind fun _ => (Follows.consume hinp _ _).bind fun _ =>
      hb.bind fun _ => .pure _

include he hs

theorem follows_ifStatement :
    Follows inp last (ifStatement inp e s) (Parse.ifStatement e' s') := by
  rw [Parse.ifStatement_eq]
  exact (Follows.consume hinp _ _).bind fun _ => he.bind fun _ =>
    (Follows.consume hinp _ _).bind fun _ => hs.bind fun _ =>
      (Follows.optionalAfter hinp hs _ _).bind fun _ => .pure _

theorem follows_whileStatement :
    Follows inp last (whileStatement inp e s) (Parse.whileStatement e' s') :=
  (Follows.consume hinp _ _).bind fun _ => he.bind fun _ =>
    (Follows.consume hinp _ _).bind fun _ => hs.bind fun _ => .pure _

theorem follows_forStatement :
    Follows inp last (forStatement inp e s) (Parse.forStatement e' s') :=
  (Follows.consume hinp _ _).bind fun _ => (follows_forInitializer hinp he).bind fun _ =>
    (Follows.unlessNext hinp he _ _).bind fun _ => (Follows.consume hinp _ _).bind fun _ =>
      (Follows.unlessNext hinp he _ _).bind fun _ =>
        (Follows.consume hinp _ _).bind fun _ => hs.bind fun _ => .pure _

include hb

theorem follows_statementWith :
    Follows inp last (statementWith inp e s b) (Parse.statementWith e' s' b') := by
  refine .firstOf hinp rfl ?_ (follows_expressionStatement hinp he)
  simp only [List.forall_mem_cons]
  refine ⟨fun t hk => ?_, fun t hk => ?_, fun t hk => ?_, fun t hk => ?_, fun t hk => ?_,
    fun t hk => ?_, nofun⟩ <;> rw [List.mem_singleton.1 hk]
  · exact .of_follows (follows_printStatement hinp he)
  · exact .of_follows (follows_ifStatement hinp he hs)
  · exact .of_follows (follows_whileStatement hinp he hs)
  · exact .of_follows (follows_forStatement hinp he hs)
  · exact follows_returnStatement hinp he t
  · exact .of_follows (hb.bind fun _ => .pure _)

theorem follows_declarationWith :
    Follows inp last (declarationWith inp e s b) (Parse.declarationWith e' s' b') := by
  refine .firstOf hinp rfl ?_ hs
  simp only [List.forall_mem_cons]
  refine ⟨fun t hk => ?_, fun t hk => ?_, nofun⟩
  · rw [if_pos (List.mem_singleton.1 hk)]
    exact .of_follows (follows_funDeclaration hinp hb)
  · rw [if_neg (by simp [List.mem_singleton.1 hk])]
    exact .of_follows (follows_varDeclaration hinp he)

end Statements

/-! ### Declarations -/

theorem follows_declarationsUntil {ended : Cursor Bool} {stop : Kind → Bool}
    {declaration : Cursor (Option Tree)} {d : Nat}
    (hended : ∀ c s, Tied inp last c s →
      Yields inp last ended c (s.rest.head?.all fun t => stop t.kind) s)
    (h : FollowsIf inp last (· ≠ []) declaration (Parse.declaration d)) :
    Follows inp last (declarationsUntil inp ended declaration)
      (Parse.declarationsUntil stop (Parse.declaration d)) := by
  rw [Parse.declarationsUntil_eq]
  refine (Follows.loop hinp (fun statements => ?_) (Parse.advances_declarationStep stop d)
    (fun statements s hs => Parse.declarationStep_nil stop _ statements hs) []).bind
      fun _ => .pure _
  rintro c ⟨ts, cs, n⟩ ht -
  refine (hended c _ ht).alike_bind fun c' ht' => ?_
  cases ts with
  | nil => exact .ok ht'
  | cons t rest =>
    rw [Parse.declarationStep_cons, List.head?_cons, Option.all_some]
    split
    · exact .ok ht'
    · exact h.bind (fun o => .pure _) c' _ ht' nofun

mutual

theorem follows_declaration :
    ∀ d, FollowsIf inp last (· ≠ []) (declaration inp d) (Parse.declaration d)
  | 0 => .tooDeep
  | d + 1 => by
    refine .recover hinp (follows_declarationWith hinp (follows_expression hinp d)
      (follows_statement d) (follows_block d)) ?_ ?_
    · exact Parse.advances_declarationWith d
    · exact Parse.onward.declarationWith (Parse.onward.expression d) (Parse.onward.statement d)
        (Parse.onward.block d)

theorem follows_statement : ∀ d, Follows inp last (statement inp d) (Parse.statement d)
  | 0 => .tooDeep
  | d + 1 => follows_statementWith hinp (follows_expression hinp d) (follows_statement d)
      (follows_block d)

theorem follows_block : ∀ d, Follows inp last (block inp d) (Parse.block d)
  | 0 => .tooDeep
  | d + 1 => by
    refine (follows_declarationsUntil hinp (fun c s ht => ?_) (follows_declaration d)).bind
      fun _ => (Follows.consume hinp _ _).bind fun _ => .pure _
    refine (ht.check hinp .rightBrace).bind fun c' ht' => ?_
    have hend := ht'.isAtEnd hinp
    cases hs : s.rest with
    | nil => rwa [hs] at hend
    | cons t rest =>
      rw [hs] at hend
      rw [List.head?_cons, Option.map_some, Option.all_some]
      by_cases hk : t.kind = .rightBrace
      · rw [hk]
        exact ht'.pure true
      · rwa [if_neg (by simpa using hk), decide_eq_false hk]

end

/-- On whole programs, the cursor goes along with the parser. -/
theorem follows_parse (d : Nat) : Follows inp last (parse inp d) (Parse.program d) := by
  refine follows_declarationsUntil hinp (fun c s ht => ?_) (follows_declaration hinp d)
  have hend := ht.isAtEnd hinp
  cases hs : s.rest <;> rwa [hs] at hend

/-! ### Whole programs -/

omit hinp

theorem findIdx?_eof {tokens : List Token} (heof : EndsInEof tokens) :
    tokens.findIdx? (·.kind = .eof) = some (beforeEnd tokens).length := by
  obtain ⟨last, hlast, hkind⟩ := Parse.exists_eof heof
  obtain ⟨hlt, hget⟩ := List.getElem?_eq_some_iff.1 hlast
  refine List.findIdx?_eq_some_iff_getElem.2 ⟨hlt, by simpa [hget] using hkind, fun i hi => ?_⟩
  have hmem : tokens[i] ∈ beforeEnd tokens := by
    refine List.mem_of_getElem? (i := i) ?_
    rw [← Parse.getElem?_of_lt hi]
    exact List.getElem?_eq_getElem _
  simpa using Parse.kind_ne_eof_of_mem_beforeEnd hmem

theorem message_ne_nesting {cause : Cause} (h : cause ≠ .nesting) :
    cause.message ≠ Cause.nesting.message := by
  cases cause <;> first | exact absurd rfl h | decide

/-- The cursor ends, and stays in bounds. On a token list that ends in an end token, whatever
nesting is allowed, and if a loop may take a turn for every token, the cursor comes to the first end
token. On the way it looked at no token behind that one, it never looked back from the first token,
and every declaration ended at a later position than it began. With the nesting that the parser
allows, the outcome is that of the parser; a nesting of twelve for every token is never used up. -/
theorem parse_stays_in_bounds (tokens : List Token) (heof : EndsInEof tokens) (d turns : Nat)
    (hd : 0 < d) (hturns : tokens.length ≤ turns) :
    ∃ statements c, parse ⟨tokens, turns⟩ d .start = .ok statements c ∧
      tokens.findIdx? (·.kind = .eof) = some c.current ∧
      (∀ i ∈ c.peeked, i ≤ c.current) ∧ (∀ i ∈ c.lookedBack, 0 < i ∧ i ≤ c.current) ∧
      (∀ i j, (i, j) ∈ c.declared → i < j) ∧
      (d = Parse.depthLimit → parseTokens? tokens = some ⟨statements, c.diagnostics⟩) ∧
      (12 * tokens.length + 2 ≤ d →
        ∀ x ∈ c.diagnostics, x.message ≠ Cause.nesting.message) := by
  obtain ⟨last, hlast, hkind⟩ := Parse.exists_eof heof
  obtain ⟨hlt, -⟩ := List.getElem?_eq_some_iff.1 hlast
  have hinp : Input.Ready ⟨tokens, turns⟩ last := ⟨hlast, hkind, Nat.lt_of_lt_of_le hlt hturns⟩
  have hstart : Tied ⟨tokens, turns⟩ last .start (.start (beforeEnd tokens)) :=
    ⟨List.suffix_rfl, (Parse.position_beforeEnd tokens).symm, rfl, nofun, nofun, nofun⟩
  obtain ⟨d, rfl⟩ : ∃ e, d = e + 1 := Nat.exists_eq_succ_of_ne_zero (by omega)
  obtain ⟨statements, s, hrun⟩ := Parse.neverAborts_program d (.start (beforeEnd tokens))
  have halike := follows_parse hinp (d + 1) _ _ hstart trivial
  rw [hrun] at halike
  generalize parse ⟨tokens, turns⟩ (d + 1) .start = walked at halike
  obtain @⟨_, c, _, ht⟩ := halike
  have hend : c.current = (beforeEnd tokens).length := by
    rw [ht.current, Parse.rest_eq_nil_of_program hrun, Parse.position_nil]
  refine ⟨statements, c, rfl, ?_, ?_, ?_, ht.declared, fun hlimit => ?_, fun hdeep => ?_⟩
  · rw [hend]
    exact findIdx?_eof heof
  · rw [hend]
    exact ht.peeked
  · rw [hend]
    exact ht.lookedBack
  · obtain ⟨statements', s', last', hrun', hlast', -, hparse⟩ := Parse.exists_parseTokens? heof
    rw [← hlimit] at hrun'
    cases hrun.symm.trans hrun'
    cases hlast.symm.trans hlast'
    rw [hparse, ht.diagnostics]
  · have hclear := Parse.clear_of_program (n := (beforeEnd tokens).length) (by omega)
      ⟨Nat.le_refl _, List.forall_mem_nil _⟩ hrun
    rw [ht.diagnostics]
    simp only [List.mem_map, List.mem_reverse]
    rintro x ⟨complaint, hmem, rfl⟩
    exact message_ne_nesting (hclear.2 complaint hmem)

/-- `{ 1 + <end> print <end>` -/
def cutShort : List Token :=
  [(.leftBrace, "\x7b"), (.number, "1"), (.plus, "+"), (.eof, ""), (.printKey, "print"),
    (.eof, "")].map fun (kind, text) => .make kind text .null 1

/-- Two declarations are given up at the end token at position 3, one inside the other. -/
theorem parse_stays_in_bounds_cutShort :
    EndsInEof cutShort ∧ 0 < 100 ∧ cutShort.length ≤ 6 ∧
      ∃ statements c, parse ⟨cutShort, 6⟩ 100 .start = .ok statements c ∧ c.current = 3 ∧
        (∀ i ∈ c.peeked, i ≤ 3) ∧ (∀ i ∈ c.lookedBack, 0 < i ∧ i ≤ 3) ∧
        c.declared = [(0, 3), (1, 3)] := by
  have heof : EndsInEof cutShort := ⟨.make .eof "" .null 1, rfl, rfl⟩
  obtain ⟨statements, c, hrun, hend, hpeeked, hlookedBack, -⟩ :=
    parse_stays_in_bounds cutShort heof 100 6 (by decide) (by decide)
  have hfirst : cutShort.findIdx? (·.kind = .eof) = some 3 := by decide
  have hthree : c.current = 3 := Option.some.inj (hend.symm.trans hfirst)
  have hdeclared : (match parse ⟨cutShort, 6⟩ 100 .start with
      | .ok _ c => c.declared
      | .error _ _ => []) = [(0, 3), (1, 3)] := by
    decide +kernel
  rw [hrun] at hdeclared
  rw [hthree] at hpeeked hlookedBack
  exact ⟨heof, by decide, by decide, statements, c, hrun, hthree, hpeeked, hlookedBack, hdeclared⟩

end Scriptlet.Cursor
