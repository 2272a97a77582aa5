import Scriptlet.Proofs.Parse.Distinct
import Scriptlet.Proofs.Parse.Succession

/-!
# Broken statements

However tokens are broken in which no statement starts, they do not affect what follows the next
semicolon. An expression never takes a semicolon and skips nothing, so it ends or aborts in front of
it; if it ends right in front of it, the statement ends behind it, and if not, recovery skips what
is left, which holds no other place to resume than the one behind the semicolon.

## Main definitions

* `Parse.InFront` — what is left of some tokens with others behind them
* `Parse.Stays` — all that is left or was blamed stands in front of the same tokens
* `Parse.Confined` — a step that keeps to the tokens in front

## Main results

* `Parse.confined` — an expression keeps to the tokens in front of a semicolon
* `Parse.declaration_broken` — a declaration in front of a semicolon ends behind it, read or not
* `parseTokens?_behind_semicolon` — what follows the semicolon is parsed as it is alone
-/

namespace Scriptlet

namespace Parse

variable {α β : Type} {front behind : List Token} {semicolon : Token}

/-! ### In front of a semicolon -/

/-- The tokens are what is left of the tokens `front`, and `behind` behind it. -/
def InFront (front behind ts : List Token) : Prop := ∃ us, us <:+ front ∧ ts = us ++ behind

/-- The next token is one of those in front, or the semicolon. -/
theorem InFront.head? {ts : List Token} (h : InFront front (semicolon :: behind) ts) :
    ∃ t ∈ front ++ [semicolon], ts.head? = some t := by
  obtain ⟨us, hus, rfl⟩ := h
  cases us with
  | nil => exact ⟨semicolon, by simp, rfl⟩
  | cons t us => exact ⟨t, List.mem_append_left _ (hus.subset List.mem_cons_self), rfl⟩

/-- Unless only the tokens behind are left, the next token is one of those in front. -/
theorem InFront.head?_of_ne {ts : List Token} (h : InFront front behind ts) (hne : ts ≠ behind) :
    ∃ t ∈ front, ts.head? = some t := by
  obtain ⟨us, hus, rfl⟩ := h
  cases us with
  | nil => exact absurd rfl hne
  | cons t us => exact ⟨t, hus.subset List.mem_cons_self, rfl⟩

theorem InFront.tail {t : Token} {ts : List Token}
    (h : InFront front (semicolon :: behind) (t :: ts)) (hne : t :: ts ≠ semicolon :: behind) :
    InFront front (semicolon :: behind) ts := by
  obtain ⟨us, hus, heq⟩ := h
  cases us with
  | nil => exact absurd heq hne
  | cons t' us =>
    cases heq
    exact ⟨us, (List.suffix_cons t us).trans hus, rfl⟩

/-- The next token and all that was blamed stand in front of the tokens `behind` or first among
them, equals signs that were blamed in front of them, and no declaration was given up. -/
structure Stays (front behind : List Token) (s : State) : Prop where
  rest : InFront front behind s.rest
  blamed : ∀ c ∈ s.complaints,
    InFront front behind c.rest ∧ (c.cause = .assignmentTarget → c.rest ≠ behind)
  givenUp : s.givenUp = 0

theorem Stays.start (front behind : List Token) : Stays front behind (.start (front ++ behind)) :=
  ⟨⟨front, List.suffix_rfl, rfl⟩, nofun, rfl⟩

theorem Stays.complain {s : State} (h : Stays front behind s) {c : Complaint}
    (hc : InFront front behind c.rest)
    (htarget : c.cause = .assignmentTarget → c.rest ≠ behind) :
    Stays front behind { s with complaints := c :: s.complaints } :=
  ⟨h.rest, List.forall_mem_cons.2 ⟨⟨hc, htarget⟩, h.blamed⟩, h.givenUp⟩

theorem Stays.of_complain {s : State} {c : Complaint}
    (h : Stays front behind { s with complaints := c :: s.complaints }) : Stays front behind s :=
  ⟨h.rest, fun c' hc => h.blamed c' (List.mem_cons_of_mem c hc), h.givenUp⟩

/-- The step keeps to the tokens in front of `behind`. -/
def Confined (front behind : List Token) (p : Parse α) : Prop :=
  ∀ s, Stays front behind s → Stays front behind (finalState (p s))

namespace Confined

variable {p : Parse α} {f : α → Parse β}

theorem pure (a : α) : Confined front behind (Pure.pure a) := fun _ hs => hs

theorem bind (h : Confined front behind p) (hf : ∀ a, Confined front behind (f a)) :
    Confined front behind (p >>= f) := by
  intro s hs
  have hp := h s hs
  rw [bind_apply]
  cases hr : p s with
  | ok a t =>
    rw [hr] at hp
    exact hf a t hp
  | error e t =>
    rw [hr] at hp
    exact hp

theorem fail {cause : Cause} (hcause : cause ≠ .assignmentTarget) :
    Confined front behind (fail cause : Parse α) :=
  fun _ hs => hs.complain hs.rest fun htarget => absurd htarget hcause

theorem accept? {kinds : List Kind} (h : semicolon.kind ∉ kinds) :
    Confined front (semicolon :: behind) (accept? kinds) := by
  intro s hs
  rcases accept?_cases kinds s with ⟨-, hrun⟩ | ⟨t, rest, hrest, ht, hrun⟩
  · rw [hrun]
    exact hs
  · have hne : t :: rest ≠ semicolon :: behind := by
      rintro heq
      cases heq
      exact h ht
    have hinFront : InFront front (semicolon :: behind) (t :: rest) := hrest ▸ hs.rest
    rw [hrun]
    exact ⟨hinFront.tail hne, hs.blamed, hs.givenUp⟩

/-- An equals sign that is blamed is not the semicolon. -/
theorem assignmentTail {value : Parse Tree} (hsemicolon : semicolon.kind = .semicolon)
    (h : Confined front (semicolon :: behind) value) (left : Tree) :
    Confined front (semicolon :: behind) (assignmentTail value left) := by
  intro s hs
  rcases assignmentTail_cases value left s with ⟨-, hrun⟩ | ⟨equals, rest, hrest, hequals, hrun⟩
  · rw [hrun]
    exact hs
  · have hne : equals :: rest ≠ semicolon :: behind := by
      rintro heq
      cases heq
      cases hequals.symm.trans hsemicolon
    have hinFront : InFront front (semicolon :: behind) (equals :: rest) := hrest ▸ hs.rest
    have htaken : Stays front (semicolon :: behind) { s with rest } :=
      ⟨hinFront.tail hne, hs.blamed, hs.givenUp⟩
    rw [hrun]
    -- the equals sign is still remembered when the value has been read
    refine h.bind (fun v t ht => ?_) _ htaken
    unfold assignTo
    split
    · exact ht
    · exact ht
    · exact ht.complain hinFront fun _ => hne

end Confined

/-- An expression keeps to the tokens in front of a semicolon. -/
theorem confined (hsemicolon : semicolon.kind = .semicolon) :
    ExpressionClosed False (@Confined · front (semicolon :: behind)) where
  pure := .pure
  bind := .bind
  fail hcause := .fail fun heq => by rw [heq] at hcause; cases hcause
  nextKind? := fun _ hs => hs
  accept? h := .accept? (hsemicolon ▸ h.resolve_right id)
  repeated h a := fun s =>
    iterate_of_bind (C := fun _ => Confined front (semicolon :: behind)) .pure .bind h
      s.rest.length a s
  tooDeep := fun _ hs => hs
  assignmentTail := .assignmentTail hsemicolon

/-! ### Statements -/

/-- What a statement in front of a semicolon ends with: it is an expression statement that ends
with the semicolon, or it aborts in front of it. -/
def EndsAt (front : List Token) (semicolon : Token) (behind : List Token) :
    EStateM.Result Abort State Tree → Prop
  | .ok e t => (∃ e', e = .exprStmt e') ∧ t.rest = behind ∧
      Stays front (semicolon :: behind) { t with rest := semicolon :: behind }
  | .error _ t => Stays front (semicolon :: behind) t

section Front

variable (hfront : ∀ t ∈ front, t.kind ≠ .semicolon ∧ t.kind.startsStatement = false)
  (hsemicolon : semicolon.kind = .semicolon)

include hfront hsemicolon

theorem endsAt_expressionStatement (d : Nat) {s : State}
    (hs : Stays front (semicolon :: behind) s) :
    EndsAt front semicolon behind (expressionStatement (expression d) s) := by
  have hexpression := (confined hsemicolon).expression d s hs
  rw [expressionStatement, bind_apply]
  cases hrun : expression d s with
  | error a t =>
    rw [hrun] at hexpression
    exact hexpression
  | ok e t =>
    rw [hrun] at hexpression
    obtain ⟨ts, cs, n⟩ := t
    obtain ⟨us, hus, rfl⟩ := hexpression.rest
    dsimp only
    rw [bind_apply, expect, bind_apply]
    cases us with
    -- the semicolon comes next, or a token in front of it, which is none
    | nil =>
      rw [List.nil_append, accept?_cons (List.mem_singleton.2 hsemicolon)]
      exact ⟨⟨e, rfl⟩, rfl, hexpression⟩
    | cons t us =>
      have hnext : NextNot [.semicolon] (t :: us ++ semicolon :: behind) := .cons fun h =>
        (hfront t (hus.subset List.mem_cons_self)).1 (List.mem_singleton.1 h)
      rw [accept?_of_notMem hnext]
      exact hexpression.complain hexpression.rest fun htarget => by cases htarget

/-- No statement starts with the tokens, and no block. -/
theorem nextNot_front (hbrace : NextNot [.leftBrace] front) {kinds : List Kind}
    (hkinds : ∀ kind ∈ kinds, kind.startsStatement = true ∨ kind = .leftBrace) :
    NextNot kinds (front ++ semicolon :: behind) := by
  cases front with
  | nil =>
    refine .cons fun hmem => ?_
    rcases hkinds _ hmem with h | h <;> rw [hsemicolon] at h <;> cases h
  | cons t front =>
    refine .cons fun hmem => ?_
    rcases hkinds _ hmem with h | h
    · exact absurd h (by simp [(hfront t List.mem_cons_self).2])
    · exact hbrace t rfl (List.mem_singleton.2 h)

theorem endsAt_declarationWith (hbrace : NextNot [.leftBrace] front) (d : Nat) :
    EndsAt front semicolon behind (declarationWith (expression d) (statement d) (block d)
      (.start (front ++ semicolon :: behind))) := by
  have hnext {kinds : List Kind}
      (hkinds : ∀ kind ∈ kinds, kind.startsStatement = true ∨ kind = .leftBrace) :
      NextNot kinds (front ++ semicolon :: behind) :=
    nextNot_front hfront hsemicolon hbrace hkinds
  -- nothing decides which statement follows, so it can only be an expression statement
  rw [declarationWith, bind_apply, State.start, accept?_of_notMem (hnext (by decide))]
  cases d with
  | zero => exact Stays.start front (semicolon :: behind)
  | succ d =>
    dsimp only
    rw [statement, statementWith, bind_apply, accept?_of_notMem (hnext (by decide))]
    exact endsAt_expressionStatement hfront hsemicolon d (.start front (semicolon :: behind))

/-! ### Recovery -/

omit hfront in
/-- Behind a semicolon nothing is skipped. -/
theorem skipFrom_semicolon (behind : List Token) : skipFrom semicolon behind = behind := by
  cases behind with
  | nil => rfl
  | cons t behind => rw [skipFrom, if_pos (.inl hsemicolon)]

theorem skipFrom_front {previous : Token} (hprevious : previous.kind ≠ .semicolon) :
    skipFrom previous (front ++ semicolon :: behind) = behind := by
  induction front generalizing previous with
  | nil =>
    have hstop : ¬ (previous.kind = .semicolon ∨ semicolon.kind.startsStatement = true) := by
      rw [hsemicolon]
      exact fun h => h.elim hprevious Bool.false_ne_true
    rw [List.nil_append, skipFrom, if_neg hstop, skipFrom_semicolon hsemicolon]
  | cons t front ih =>
    obtain ⟨⟨ht, hstarts⟩, hrest⟩ := List.forall_mem_cons.1 hfront
    have hstop : ¬ (previous.kind = .semicolon ∨ t.kind.startsStatement = true) := by
      rw [hstarts]
      exact fun h => h.elim hprevious Bool.false_ne_true
    rw [List.cons_append, skipFrom, if_neg hstop]
    exact ih hrest ht

/-- Recovery in front of the semicolon resumes behind it. -/
theorem synchronize_front {ts : List Token} (h : InFront front (semicolon :: behind) ts) :
    synchronize ts = behind := by
  obtain ⟨us, hus, rfl⟩ := h
  cases us with
  | nil => exact skipFrom_semicolon hsemicolon behind
  | cons t us =>
    have hall := fun t' ht' => hfront t' (hus.subset ht')
    obtain ⟨⟨ht, -⟩, hrest⟩ := List.forall_mem_cons.1 hall
    exact skipFrom_front hrest hsemicolon ht

theorem resume_front {s : State} (h : InFront front (semicolon :: behind) s.rest) :
    s.resume = ⟨behind, s.complaints, s.givenUp + 1⟩ := by
  rw [State.resume, synchronize_front hfront hsemicolon h]

end Front

/-! ### The declaration -/

/-- Where no declaration was given up, only assignment targets were complained about. -/
theorem Settled.targets {ts : List Token} {s : State} (h : Settled (.start ts) s)
    (hgivenUp : s.givenUp = 0) : ∀ c ∈ s.complaints, c.cause = .assignmentTarget := by
  obtain ⟨-, new, hnew, -, -, hcount⟩ := h
  obtain rfl : s.complaints = new := hnew.trans (List.append_nil new)
  have hnone : s.complaints.countP (·.isPanic) = 0 := by
    rw [hgivenUp] at hcount
    exact ((Nat.zero_add _).symm.trans hcount.symm)
  intro c hc
  have hpanic := List.countP_eq_zero.1 hnone c hc
  simpa [Complaint.isPanic] using hpanic

/-- The complaint names the token. -/
def Complaint.Names (c : Complaint) (t : Token) : Prop := c.rest.head? = some t

theorem Complaint.Names.diagnostic {c : Complaint} {t : Token} (h : c.Names t) (last : Token) :
    c.diagnostic last = .atToken t c.cause.message := by
  rw [Complaint.diagnostic, List.headD_eq_head?_getD, h]
  rfl

/-- What was complained about in front of the semicolon, whatever is left. -/
theorem Stays.targets {ts us : List Token} {s : State}
    (h : Stays front behind { s with rest := us }) (h' : Settled (.start ts) s) :
    ∀ c ∈ s.complaints, c.cause = .assignmentTarget ∧ ∃ t ∈ front, c.Names t := by
  intro c hc
  have hcause := h'.targets h.givenUp c hc
  obtain ⟨hinFront, hne⟩ := h.blamed c hc
  exact ⟨hcause, hinFront.head?_of_ne (hne hcause)⟩

/-- A declaration in front of a semicolon ends behind it. Either it is read as an expression
statement, or it is given up with one more complaint, which names a token in front of the semicolon
or the semicolon itself; the others are about assignment targets. -/
theorem declaration_broken
    (hfront : ∀ t ∈ front, t.kind ≠ .semicolon ∧ t.kind.startsStatement = false)
    (hbrace : NextNot [.leftBrace] front) (hsemicolon : semicolon.kind = .semicolon)
    (behind : List Token) (d : Nat) :
    ∃ targets, (∀ c ∈ targets, c.cause = .assignmentTarget ∧ ∃ t ∈ front, c.Names t) ∧
      ((∃ e n, declaration (d + 1) (.start (front ++ semicolon :: behind)) =
          .ok (some (.exprStmt e)) ⟨behind, targets, n⟩) ∨
        ∃ c n, c.cause ≠ .assignmentTarget ∧ (∃ t ∈ front ++ [semicolon], c.Names t) ∧
          declaration (d + 1) (.start (front ++ semicolon :: behind)) =
            .ok none ⟨behind, c :: targets, n⟩) := by
  have hends : EndsAt front semicolon behind _ :=
    endsAt_declarationWith hfront hsemicolon hbrace d
  have haccounted := accounts.declarationWith (accounts.expression d) (accounts.statement d)
    (accounts.block d) (.start (front ++ semicolon :: behind))
  rw [declaration, recover]
  -- the accounts tell what was complained about, the confinement where
  cases hrun : declarationWith (expression d) (statement d) (block d)
      (.start (front ++ semicolon :: behind)) with
  | ok e t =>
    rw [hrun] at hends haccounted
    obtain ⟨⟨e, rfl⟩, hrest, hs⟩ := hends
    obtain ⟨ts, cs, n⟩ := t
    obtain rfl : ts = behind := hrest
    exact ⟨cs, hs.targets haccounted, .inl ⟨e, n, rfl⟩⟩
  | error a t =>
    rw [hrun] at hends haccounted
    cases a with
    | panic =>
      obtain ⟨u, cause, hcause, hsettled, rfl⟩ := haccounted
      have hresume : { u with complaints := ⟨cause, u.rest⟩ :: u.complaints }.resume = _ :=
        resume_front hfront hsemicolon hends.rest
      exact ⟨u.complaints, hends.of_complain.targets hsettled,
        .inr ⟨⟨cause, u.rest⟩, u.givenUp + 1, hcause, hends.rest.head?, congrArg _ hresume⟩⟩
    | tooDeep =>
      have hcause : Cause.nesting ≠ .assignmentTarget := by decide
      have hresume : { t with complaints := ⟨.nesting, t.rest⟩ :: t.complaints }.resume = _ :=
        resume_front hfront hsemicolon hends.rest
      exact ⟨t.complaints, hends.targets haccounted,
        .inr ⟨⟨.nesting, t.rest⟩, t.givenUp + 1, hcause, hends.rest.head?, congrArg _ hresume⟩⟩

end Parse

open Parse

/-- Tokens in which no statement starts, with a semicolon behind them, do not affect how the tokens
behind the semicolon are parsed. They are an expression statement, with no diagnostics but those
about assignment targets; or they are no statement, be it for their nesting, and behind such
diagnostics there is one more, which names one of them or the semicolon. -/
theorem parseTokens?_behind_semicolon {front ts : List Token} {semicolon : Token}
    (hfront : ∀ t ∈ front,
      t.kind ≠ .eof ∧ t.kind ≠ .semicolon ∧ t.kind.startsStatement = false)
    (hbrace : NextNot [.leftBrace] front) (hsemicolon : semicolon.kind = .semicolon)
    (heof : EndsInEof ts) :
    ∃ parsed targets, parseTokens? ts = some parsed ∧
      (∀ x ∈ targets, ∃ t ∈ front, x = .atToken t Cause.assignmentTarget.message) ∧
      ((∃ e, parseTokens? (front ++ semicolon :: ts) =
          some ⟨.exprStmt e :: parsed.statements, targets ++ parsed.diagnostics⟩) ∨
        ∃ t ∈ front ++ [semicolon], ∃ cause : Cause, cause ≠ .assignmentTarget ∧
          parseTokens? (front ++ semicolon :: ts) = some ⟨parsed.statements,
            targets ++ .atToken t cause.message :: parsed.diagnostics⟩) := by
  obtain ⟨last, hlast⟩ := exists_parseTokens?_append heof
  obtain ⟨targets, htargets, hdecl⟩ := declaration_broken (fun t ht => (hfront t ht).2) hbrace
    hsemicolon (beforeEnd ts) 9999
  have hnoEof : ∀ t ∈ front ++ [semicolon], t.kind ≠ .eof := by
    refine List.forall_mem_append.2 ⟨fun t ht => (hfront t ht).1, List.forall_mem_singleton.2 ?_⟩
    rw [hsemicolon]
    decide
  have hparse := hlast _ hnoEof
  simp only [List.append_assoc, List.singleton_append] at hparse
  refine ⟨_, targets.reverse.map (·.diagnostic last), hlast [] nofun, fun x hx => ?_, ?_⟩
  · obtain ⟨c, hc, rfl⟩ := List.mem_map.1 hx
    obtain ⟨hcause, t, ht, hnames⟩ := htargets c (List.mem_reverse.1 hc)
    exact ⟨t, ht, hcause ▸ hnames.diagnostic last⟩
  · have hne : front ++ semicolon :: beforeEnd ts ≠ [] := by simp
    rcases hdecl with ⟨e, n, hrun⟩ | ⟨c, n, hcause, ⟨t, ht, hnames⟩, hrun⟩
    · have hbody : parseBody depthLimit (front ++ semicolon :: beforeEnd ts) =
          (.exprStmt e :: (parseBody depthLimit (beforeEnd ts)).1,
            targets.reverse ++ (parseBody depthLimit (beforeEnd ts)).2) :=
        parseBody_of_declaration hne hrun
      refine .inl ⟨e, ?_⟩
      rw [hparse, hbody, List.map_append]
      rfl
    · have hbody : parseBody depthLimit (front ++ semicolon :: beforeEnd ts) =
          ((parseBody depthLimit (beforeEnd ts)).1,
            (c :: targets).reverse ++ (parseBody depthLimit (beforeEnd ts)).2) :=
        parseBody_of_declaration hne hrun
      refine .inr ⟨t, ht, c.cause, hcause, ?_⟩
      rw [hparse, hbody]
      simp [hnames.diagnostic last]

/-- `1 = 2 ) ( }` -/
def brokenAssignment : List Token :=
  [(.number, "1"), (.equal, "="), (.number, "2"), (.rightParen, ")"), (.leftParen, "("),
    (.rightBrace, "\x7d")].map fun (kind, text) => .make kind text .null 1

/-- `print nil;` -/
def printNil : List Token :=
  [(.printKey, "print"), (.nilKey, "nil"), (.semicolon, ";"), (.eof, "")].map
    fun (kind, text) => .make kind text .null 2

/-- The equals sign and the stray parenthesis are blamed, and the statement behind is read. -/
theorem parseTokens?_behind_brokenAssignment :
    (∀ t ∈ brokenAssignment,
      t.kind ≠ .eof ∧ t.kind ≠ .semicolon ∧ t.kind.startsStatement = false) ∧
    NextNot [.leftBrace] brokenAssignment ∧ EndsInEof printNil ∧
    ∃ parsed x, parseTokens? printNil = some parsed ∧ parsed.statements.length = 1 ∧
      ∃ t ∈ brokenAssignment ++ [.make .semicolon ";" .null 1], ∃ cause : Cause,
        parseTokens? (brokenAssignment ++ .make .semicolon ";" .null 1 :: printNil) =
          some ⟨parsed.statements, x :: .atToken t cause.message :: parsed.diagnostics⟩ := by
  have hfront : ∀ t ∈ brokenAssignment,
      t.kind ≠ .eof ∧ t.kind ≠ .semicolon ∧ t.kind.startsStatement = false := by decide
  have hbrace : NextNot [.leftBrace] brokenAssignment := .cons (by decide)
  have heof : EndsInEof printNil := ⟨.make .eof "" .null 2, rfl, rfl⟩
  obtain ⟨parsed, targets, hparsed, -, hbehind⟩ := parseTokens?_behind_semicolon hfront hbrace
    (show (Token.make .semicolon ";" .null 1).kind = .semicolon from rfl) heof
  have halone : (parseTokens? printNil).map (fun p => (p.statements.length, p.diagnostics.length)) =
      some (1, 0) := by decide +kernel
  have hboth : (parseTokens? (brokenAssignment ++ .make .semicolon ";" .null 1 :: printNil)).map
      (fun p => (p.statements.length, p.diagnostics.length)) = some (1, 2) := by decide +kernel
  rw [hparsed] at halone
  simp only [Option.map_some, Option.some.injEq, Prod.mk.injEq] at halone
  rcases hbehind with ⟨e, hall⟩ | ⟨t, ht, cause, -, hall⟩
  -- the statement behind is the only one
  · rw [hall] at hboth
    simp [halone] at hboth
  · rw [hall] at hboth
    have htargets : targets.length = 1 := by simpa [halone] using hboth
    obtain ⟨x, rfl⟩ := List.length_eq_one_iff.1 htargets
    exact ⟨hfront, hbrace, heof, parsed, x, hparsed, halone.1, t, ht, cause, hall⟩

end Scriptlet
