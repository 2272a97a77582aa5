import Scriptlet.Proofs.Strict.Tracking

/-!
# The strict front end stops at the first problem

Each function of the strict front end tracks its counterpart of the parser, so that the two go
together up to the first problem of a program. There the strict front end faults. The parser may
report the problem later and among others, as it recovers and goes on, but nothing that it reports
is about an earlier place.

What the two decide at different times is an assignment: the strict front end looks ahead for a name
and an equals sign, and stops at any other equals sign that does not follow an indexing; the parser
reads the value first and then complains about the equals sign.

## Main definitions

* `Strict.AtFactor` — where an expression cannot start and only a factor can go on
* `Strict.targetTail` — what follows the left side of an expression
* `Strict.declarationOr` — a round of the loop over declarations

## Main results

* `Strict.tracks_expression`, `Strict.tracks_statement`, `Strict.tracks_program`
* `accepts_or_earliest` — the two accept a text, or the fault of the strict front end is on no later
  line than any of the parser's diagnostics
-/

namespace Scriptlet.Strict

open Grammar Parse

variable {α β : Type} {k : Fork}

/-! ### Where the strict front end refuses -/

theorem takeIf?_of_notMem {kinds : List Kind} {test : Kind → Bool} {ts : List Token}
    (htest : ∀ kind, test kind = kinds.contains kind) (h : NextNot kinds ts) :
    takeIf? test ts = .ok (none, ts) := by
  cases ts with
  | nil => rfl
  | cons t ts =>
    have ht : ¬ test t.kind = true := by
      rw [htest, List.contains_iff_mem]
      exact h t rfl
    rw [takeIf?, if_neg ht]

theorem takeIf?_bind_of_notMem {kinds : List Kind} {test : Kind → Bool} {ts : List Token}
    (htest : ∀ kind, test kind = kinds.contains kind) (h : NextNot kinds ts)
    (f : Option Token → Step α) : (takeIf? test >>= f) ts = f none ts := by
  rw [step_bind_apply, takeIf?_of_notMem htest h]

/-- Only a slash or a star is next, if anything is. -/
def AtFactor (ts : List Token) : Prop := ∀ t ∈ ts.head?, t.kind = .slash ∨ t.kind = .star

theorem AtFactor.nextNot {ts : List Token} (h : AtFactor ts) {kinds : List Kind}
    (hkinds : Kind.slash ∉ kinds ∧ Kind.star ∉ kinds) : NextNot kinds ts := by
  intro t ht hmem
  rcases h t ht with hk | hk
  · exact hkinds.1 (hk ▸ hmem)
  · exact hkinds.2 (hk ▸ hmem)

theorem atFactor_strict (k : Fork) : AtFactor k.strict := by
  rcases k.shape with hnil | ⟨slash, star, rest, hcons, hslash, -⟩
  · rw [hnil]
    exact fun t ht => by cases ht
  · rw [hcons]
    rintro t ⟨⟩
    exact .inl hslash

theorem atFactor_tail (k : Fork) : AtFactor k.strict.tail := by
  rcases k.shape with hnil | ⟨slash, star, rest, hcons, -, hstar⟩
  · rw [hnil]
    exact fun t ht => by cases ht
  · rw [hcons]
    rintro t ⟨⟩
    exact .inr hstar

theorem peek?_bind_apply (f : Option Kind → Step α) (ts : List Token) :
    (peek? >>= f) ts = f (ts.head?.map (·.kind)) ts := rfl

/-- No primary expression starts with another kind of lexeme. -/
theorem primary_of_notMem (q : Step Tree) {ts : List Token} (h : NextNot primaryKinds ts) :
    primary q ts = stop ts := by
  rw [primary, peek?_bind_apply]
  refine congrFun ?_ ts
  split
  case h_8 => rfl
  all_goals next heq => exact absurd heq (head?_ne h (by decide))

/-- Without one of the keys, a statement is an expression statement. -/
theorem statement_of_notMem (e : Nat) {ts : List Token} (h : NextNot statementKinds ts) :
    statement (e + 1) ts = exprStmt e ts := by
  rw [statement, peek?_bind_apply]
  refine congrFun ?_ ts
  split
  case h_7 => rfl
  all_goals next heq => exact absurd heq (head?_ne h (by decide))

theorem declaration_of_notMem (e : Nat) {ts : List Token} (h : NextNot [.funKey, .varKey] ts) :
    declaration (e + 1) ts = statement e ts := by
  rw [declaration, peek?_bind_apply]
  refine congrFun ?_ ts
  split
  case h_3 => rfl
  all_goals next heq => exact absurd heq (head?_ne h (by decide))

theorem contains_unaryKinds (kind : Kind) :
    (kind == .bang || kind == .minus) = [Kind.bang, .minus].contains kind := by
  cases kind <;> rfl

theorem unary_of_notMem (e : Nat) {ts : List Token} (h : NextNot [.bang, .minus] ts) :
    unary (e + 1) ts = callOf e ts := by
  rw [unary, takeIf?_bind_of_notMem contains_unaryKinds h]
  rfl

/-- What follows the left side of an expression: an assignment, if the left side is an index. -/
def targetTail (value : Step Tree) (left : Tree) : Step Tree := do
  match left, ← peek? with
  | .index target bracket index, some .equal => do
    let _ ← take .equal
    return .assignIndex target bracket index (← value)
  | _, some .equal => stop
  | _, _ => return left

theorem expression_of_not {ts : List Token} (h : ¬ AssignsName ts) (e : Nat) :
    expression (e + 1) ts = (disjunction (unary e) >>= targetTail (expression e)) ts := by
  have hstarts : startsAssignment ts = .ok (false, ts) := by
    unfold startsAssignment
    split
    · next name equals rest =>
      have hno : ¬ (name.kind = .identifier ∧ equals.kind = .equal) :=
        fun hboth => h ⟨name, equals, rest, rfl, hboth.1, hboth.2⟩
      simp only [Except.ok.injEq, Prod.mk.injEq, and_true]
      grind
    · rfl
  rw [expression, step_bind_apply, hstarts]
  rfl

theorem expression_of_assigns {name equals : Token} (hname : name.kind = .identifier)
    (hequals : equals.kind = .equal) (e : Nat) (rest : List Token) :
    expression (e + 1) (name :: equals :: rest) =
      (expression e >>= fun value => pure (.assign name value)) rest := by
  have hstarts : startsAssignment (name :: equals :: rest) =
      .ok (true, name :: equals :: rest) := by
    simp [startsAssignment, hname, hequals]
  rw [expression, step_bind_apply, hstarts]
  change (take .identifier >>= _) _ = _
  rw [step_bind_apply, take, if_pos hname]
  change (take .equal >>= _) _ = _
  rw [step_bind_apply, take, if_pos hequals]

theorem targetTail_of_notMem (value : Step Tree) (left : Tree) {ts : List Token}
    (h : NextNot [.equal] ts) : targetTail value left ts = (pure left : Step Tree) ts := by
  have hne := head?_ne h List.mem_cons_self
  rw [targetTail, peek?_bind_apply]
  refine congrFun ?_ ts
  split
  · next heq => exact absurd heq hne
  · next heq => exact absurd heq hne
  · rfl

section

variable {ts : List Token} (h : AtFactor ts)
include h

theorem refuses_primary (e : Nat) : Refuses (primary (expression e)) ts :=
  .of_eq (primary_of_notMem _ (h.nextNot (by decide))) (.stop ts)

theorem refuses_callOf (e : Nat) : Refuses (callOf e) ts := (refuses_primary h e).bind

theorem refuses_unary (e : Nat) : Refuses (unary e) ts := by
  cases e with
  | zero => exact .stopNesting ts
  | succ e => exact .of_eq (unary_of_notMem e (h.nextNot (by decide))) (refuses_callOf h e)

theorem refuses_levelOf (e : Nat) (rank : Rank) : Refuses (levelOf rank (unary e)) ts := by
  refine levelOf_induction (C := fun _ level => Refuses (level (unary e)) ts) (refuses_unary h e)
    (fun rank h => ?_) rank
  obtain ⟨test, -, heq⟩ := levelOf_eq rank (unary e)
  rw [heq]
  exact h.bind

theorem refuses_expression (e : Nat) : Refuses (expression e) ts := by
  cases e with
  | zero => exact .stopNesting ts
  | succ e =>
    have hnot : ¬ AssignsName ts := by
      rintro ⟨name, equals, rest, rfl, hname, -⟩
      have hnext : NextNot [.identifier] (name :: equals :: rest) := h.nextNot (by decide)
      exact hnext name rfl (List.mem_singleton.2 hname)
    exact .of_eq (expression_of_not hnot e) (refuses_levelOf h e .disjunction).bind

theorem refuses_exprStmt (e : Nat) : Refuses (exprStmt e) ts := (refuses_expression h e).bind

theorem refuses_statement (e : Nat) : Refuses (statement e) ts := by
  cases e with
  | zero => exact .stopNesting ts
  | succ e => exact .of_eq (statement_of_notMem e (h.nextNot (by decide))) (refuses_exprStmt h e)

theorem refuses_declaration (e : Nat) : Refuses (declaration e) ts := by
  cases e with
  | zero => exact .stopNesting ts
  | succ e =>
    exact .of_eq (declaration_of_notMem e (h.nextNot (by decide))) (refuses_statement h e)

end

/-! ### Lists and options -/

/-- What the step yields behind a lexeme of the given kind, else a default. -/
def optionalIf (kind : Kind) (absent : α) (q : Step α) : Step α := do
  match ← takeIf? (· == kind) with
  | some _ => q
  | none => return absent

theorem contains_singleton (kind kind' : Kind) : (kind' == kind) = [kind].contains kind' := by
  simp [beq_eq_decide]

namespace Fork.Tracks

variable {q : Step α} {p : Parse α} {item' : Step β} {item : Parse β}

theorem optionalIf (h : k.Tracks q p) {kind : Kind} (hslash : kind ≠ .slash) (absent : α) :
    k.Tracks (optionalIf kind absent q) (optionalAfter kind absent p) := by
  have hskip (ts : List Token) (hts : NextNot [kind] ts) :
      Strict.optionalIf kind absent q ts = (Pure.pure absent : Step α) ts :=
    takeIf?_bind_of_notMem (contains_singleton kind) hts _
  refine of_accept? (Parse.onward.optionalAfter h.onward kind absent) ?_ (fun t t' hagrees hk => ?_)
    (.of_eq hskip (.pure absent))
  · exact .of_eq (hskip _ (nextNot_strict (by simpa using hslash.symm))) (.pure absent)
  · refine .takeIf? ?_ h
    rw [hagrees.kind_eq, List.mem_singleton.1 hk]
    exact beq_self_eq_true kind

theorem separated {kinds : List Kind} {test : Kind → Bool} (f : α → Token → β → α)
    (h : k.Tracks item' item) (htest : ∀ kind, test kind = kinds.contains kind)
    (hstring : Kind.string ∉ kinds) (hstalls : ∀ a, k.Stalls (foldStep test f item' a)) (a : α) :
    k.Tracks (extendAll (foldStep test f item') a)
      (Parse.repeated (separatedStep kinds f item) a) := by
  refine .repeated (fun a => ?_) (fun a => rfl) (Advances.separatedStep h.onward kinds f) a
  refine of_accept? (Parse.onward.separatedStep h.onward kinds f a) (hstalls a)
    (fun t t' hagrees hk => ?_)
    (.of_eq (fun ts hts => takeIf?_bind_of_notMem htest hts _) (.pure none))
  have hother : t.kind ≠ .string := fun heq => hstring (heq ▸ hk)
  obtain rfl := hagrees.eq hother
  refine .takeIf? ?_ (h.bind fun x => .pure (some (f a t' x)))
  rw [htest, List.contains_iff_mem]
  exact hk

/-- No operator but a slash is next at the fork. -/
theorem stalls_foldStep {kinds : List Kind} {test : Kind → Bool} {f : α → Token → β → α}
    (htest : ∀ kind, test kind = kinds.contains kind) (hslash : Kind.slash ∉ kinds) (a : α) :
    k.Stalls (foldStep test f item' a) := by
  refine .of_eq (takeIf?_bind_of_notMem htest (nextNot_strict hslash) _) (.pure none)

theorem commaSeparated (h : k.Tracks q p) : k.Tracks (commaList q) (commaSeparated p) := by
  rw [commaSeparated_eq, commaList_eq]
  have hcomma := contains_singleton .comma
  have hloop (a : α) := h.separated (fun items _ x => x :: items) hcomma (by decide)
    (stalls_foldStep hcomma (by decide)) [a]
  exact h.bind fun a => (hloop a).bind fun all => .pure all.reverse

end Fork.Tracks

/-- What follows may be written into both branches. -/
theorem optionalIf_bind (kind : Kind) (absent : α) (q : Step α) (f : α → Step β) :
    optionalIf kind absent q >>= f = (do
      let o ← takeIf? (· == kind)
      if o.isSome then q >>= f else pure absent >>= f) := by
  rw [optionalIf, bind_assoc]
  congr 1
  funext o
  cases o <;> rfl

theorem varDecl_eq (e : Nat) :
    varDecl e = (do
      let _ ← take .varKey
      let name ← take .identifier
      let value ← optionalIf .equal .null (expression e)
      let _ ← take .semicolon
      return .varDecl name value) := by
  rw [varDecl]
  congr 1
  funext _
  congr 1
  funext name
  rw [optionalIf_bind]

/-! ### Expressions -/

open Fork

section Parts

variable {q : Step Tree} {p : Parse Tree} (h : k.Tracks q p)
include h

theorem tracks_callArguments : k.Tracks (arguments q) (callArguments p) := by
  rw [callArguments_eq, arguments_eq]
  exact (h.commaSeparated.unlessNext (by decide) []).bind fun args =>
    (Tracks.expect _ (by decide) (by decide)).bind fun paren => .pure (paren, args)

theorem tracks_trailer? (callee : Tree) : k.Tracks (suffix? q callee) (trailer? p callee) := by
  have hskip (ts : List Token) (hts : NextNot [.leftParen, .leftBracket] ts) :
      suffix? q callee ts = (pure none : Step (Option Tree)) ts := by
    have hparen : NextNot [.leftParen] ts := hts.mono (by simp)
    have hbracket : NextNot [.leftBracket] ts := hts.mono (by simp)
    rw [suffix?, takeIf?_bind_of_notMem (contains_singleton .leftParen) hparen]
    exact takeIf?_bind_of_notMem (contains_singleton .leftBracket) hbracket _
  refine Tracks.of_accept? (onward.trailer? h.onward callee) ?_ (fun t t' hagrees hk => ?_)
    (.of_eq hskip (.pure none))
  · exact .of_eq (hskip _ (nextNot_strict (by decide))) (.pure none)
  · have hkind := hagrees.kind_eq
    dsimp only
    split
    · next hparen =>
      refine .takeIf? (by simp [hkind, hparen]) ?_
      exact (tracks_callArguments h).bind fun out => .pure _
    · next hparen =>
      have hbracket : t.kind = .leftBracket := by simpa [hparen] using hk
      refine .takeIf?_none (by simp [hkind, hbracket]) (.takeIf? (by simp [hkind, hbracket]) ?_)
      exact h.bind fun index => (Tracks.expect _ (by decide) (by decide)).bind fun bracket =>
        .pure _

theorem tracks_primaryWith : k.Tracks (primary q) (primaryWith p) := by
  have hrefuses (ts : List Token) (hts : NextNot primaryKinds ts) : Refuses (primary q) ts :=
    .of_eq (primary_of_notMem q hts) (.stop ts)
  refine Tracks.of_accept? (onward.primaryWith h.onward) ?_ (fun t t' hagrees hk => ?_)
    (.fail .expression hrefuses)
  · exact .of_refuses (hrefuses _ (nextNot_strict (by decide)))
  · have hkind := hagrees.kind_eq
    dsimp only
    split
    · next ht => exact .peek? (hkind.trans ht) (.take (hkind.trans ht) (.pure _))
    · next ht => exact .peek? (hkind.trans ht) (.take (hkind.trans ht) (.pure _))
    · next ht => exact .peek? (hkind.trans ht) (.take (hkind.trans ht) (.pure _))
    · next ht =>
      obtain rfl := hagrees.eq (by simp [ht])
      exact .peek? ht (.take ht (.pure _))
    · next ht =>
      refine .peek? (hkind.trans ht) (.take (hkind.trans ht) ?_)
      exact h.bind fun e => (Tracks.expect _ (by decide) (by decide)).bind fun _ =>
        .pure _
    · -- numbers and strings are left, whose literals are the same
      have ht : t.kind = .number ∨ t.kind = .string := by
        simp only [primaryKinds, List.mem_cons, List.not_mem_nil, or_false] at hk
        grind
      rw [← hagrees.literal_eq]
      rcases ht with ht | ht
      · exact .peek? (hkind.trans ht) (.take (hkind.trans ht) (.pure _))
      · exact .peek? (hkind.trans ht) (.take (hkind.trans ht) (.pure _))

theorem tracks_suffixes (callee : Tree) :
    k.Tracks (extendAll (suffix? q) callee) (repeated (trailer? p) callee) :=
  .repeated (tracks_trailer? h) (fun _ => rfl) (Advances.trailer? h.onward) callee

/-- Both decide what an equals sign means, the parser after it has read the value. -/
theorem tracks_targetTail (left : Tree) :
    k.Tracks (targetTail q left) (assignmentTail p left) := by
  have hp := onward_assignmentTail h.onward left
  have hnone {ts ts' : List Token} (hts : k.Parallel ts ts') (hnext : NextNot [.equal] ts)
      (hnext' : NextNot [.equal] ts') (cs : List Complaint) (n : Nat) :
      k.Compares cs n (targetTail q left ts') (assignmentTail p left ⟨ts, cs, n⟩) := by
    rw [targetTail_of_notMem q left hnext']
    change k.Compares cs n _ ((accept? [.equal] >>= _) _)
    rw [bind_apply, accept?_of_notMem hnext]
    exact .together hts
  refine .of_cases hp ?_ (fun hend cs n => ?_) fun t t' ts ts' hagrees hts hall cs n => ?_
  · exact .of_eq (targetTail_of_notMem q left (nextNot_strict (by decide))) (.pure left)
  · exact hnone hend (fun t ht => by cases ht) (fun t ht => by cases ht) cs n
  · by_cases hk : t.kind ∈ [Kind.equal]
    · have ht' : t'.kind = .equal := hagrees.kind_eq.trans (List.mem_singleton.1 hk)
      by_cases hindex : ∃ target bracket index, left = .index target bracket index
      · obtain ⟨target, bracket, index, rfl⟩ := hindex
        have htail : targetTail q (.index target bracket index) (t' :: ts') =
            (q >>= fun value => pure (.assignIndex target bracket index value)) ts' := by
          rw [targetTail, peek?_bind_apply, List.head?_cons, Option.map_some, ht']
          change (take .equal >>= _) _ = _
          rw [step_bind_apply, take, if_pos ht']
        rw [htail]
        change k.Compares cs n _ ((accept? [.equal] >>= _) _)
        rw [bind_apply, accept?_cons hk]
        exact (h.bind fun value => .pure _).compares cs n hts
      · -- the parser blames nothing in front of the equals sign, whatever the left side is
        have hstop : targetTail q left (t' :: ts') = .error (.unexpected (t' :: ts')) := by
          rw [targetTail, peek?_bind_apply, List.head?_cons, Option.map_some, ht']
          cases left with
          | index target bracket index => exact absurd ⟨target, bracket, index, rfl⟩ hindex
          | _ => rfl
        rw [hstop]
        exact .fault hall (hp ⟨t :: ts, cs, n⟩)
    · exact hnone hall (.cons hk) (.cons (hagrees.kind_eq ▸ hk)) cs n

end Parts

/-- At the fork, only the level of the slash takes a lexeme; then its operand is refused. -/
theorem stalls_foldStep {test : Kind → Bool} (rank : Rank) (e : Nat)
    (htest : ∀ kind, test kind = rank.operators.contains kind) (a : Tree) :
    k.Stalls (foldStep test rank.build (operandOf rank (unary e)) a) := by
  by_cases hslash : Kind.slash ∈ rank.operators
  · obtain rfl : rank = .factor := by
      cases rank <;> first | rfl | exact absurd hslash (by decide)
    rcases k.shape with hnil | ⟨slash, star, rest, hcons, hk, -⟩
    · unfold Stalls
      rw [hnil]
      rfl
    · obtain ⟨fault, hfault, hrest⟩ := refuses_unary (atFactor_tail k) e
      refine .of_fault ?_ (.inr hrest)
      have htaken : test slash.kind = true := by
        rw [htest, hk]
        rfl
      rw [hcons, List.tail_cons] at hfault
      rw [hcons, foldStep, step_bind_apply, takeIf?, if_pos htaken]
      refine (step_bind_apply (unary e) _ _).trans ?_
      rw [hfault]
  · exact Tracks.stalls_foldStep htest hslash a

theorem tracks_foldLevel (rank : Rank) {e : Nat} {operand : Parse Tree}
    (h : k.Tracks (operandOf rank (unary e)) operand) :
    k.Tracks (levelOf rank (unary e)) (foldLevel (rankLevel rank) operand) := by
  obtain ⟨test, htest, heq⟩ := levelOf_eq rank (unary e)
  have hstring : Kind.string ∉ rank.operators := by cases rank <;> decide
  rw [heq, foldLevel_eq]
  exact h.bind fun a => h.separated rank.build htest hstring (stalls_foldStep rank e htest) a

/-- An assignment to a name, which the strict front end sees beforehand, or any other expression. -/
theorem tracks_assignmentWith {d e : Nat}
    (hleft : k.Tracks (disjunction (unary e)) (binary d levels))
    (hvalue : k.Tracks (expression e) (Parse.assignment d)) :
    k.Tracks (expression (e + 1)) (Parse.assignment (d + 1)) where
  onward := onward.assignment (d + 1)
  stalls := .of_refuses (refuses_expression (atFactor_strict k) (e + 1))
  compares {ts ts'} cs n hts := by
    rw [assignment_succ]
    by_cases hassigns : AssignsName ts'
    · obtain ⟨name, equals, rest', rfl, hname, hequals⟩ := hassigns
      obtain ⟨name, us, rfl, hagrees, hus⟩ := hts.exists_cons (by simp [hname])
      obtain ⟨equals, rest, rfl, hagrees', hrest⟩ := hus.exists_cons (by simp [hequals])
      obtain rfl := hagrees.eq (by simp [← hagrees.kind_eq, hname])
      have hequals' : equals.kind ∈ [Kind.equal] := by simp [← hagrees'.kind_eq, hequals]
      rw [expression_of_assigns hname hequals, bind_apply]
      -- the parser reads exactly the name as its left side, unless it runs out of depth
      rcases reads_name hname (List.mem_singleton.1 hequals') d cs n with hread | ⟨s, hdeep⟩
      · rw [hread]
        change k.Compares cs n _ ((accept? [.equal] >>= _) _)
        rw [bind_apply, accept?_cons hequals']
        exact (hvalue.bind fun value => .pure _).compares cs n hrest
      · rw [hdeep]
        exact .ranOut trivial
    · rw [expression_of_not hassigns]
      exact (hleft.bind (tracks_targetTail hvalue)).compares cs n hts

mutual

theorem tracks_expression :
    ∀ d e, d ≤ e → k.Tracks (expression e) (Parse.expression d)
  | 0, e, _ => .throw (.of_refuses (refuses_expression (atFactor_strict k) e))
  | d + 1, e, h => tracks_assignment d e (by omega)

theorem tracks_assignment :
    ∀ d e, d ≤ e → k.Tracks (expression e) (Parse.assignment d)
  | 0, e, _ => .throw (.of_refuses (refuses_expression (atFactor_strict k) e))
  | d + 1, 0, h => by omega
  | d + 1, e + 1, h => tracks_assignmentWith (tracks_binary d e .disjunction (by omega))
      (tracks_assignment d e (by omega))

theorem tracks_binary : ∀ d e rank, d ≤ e →
    k.Tracks (levelOf rank (unary e)) (binary d (rankLevels rank))
  | 0, e, rank, _ => .throw (.of_refuses (refuses_levelOf (atFactor_strict k) e rank))
  | d + 1, e, .disjunction, h =>
    tracks_foldLevel .disjunction (tracks_binary d e .conjunction (by omega))
  | d + 1, e, .conjunction, h =>
    tracks_foldLevel .conjunction (tracks_binary d e .equality (by omega))
  | d + 1, e, .equality, h =>
    tracks_foldLevel .equality (tracks_binary d e .comparison (by omega))
  | d + 1, e, .comparison, h => tracks_foldLevel .comparison (tracks_binary d e .term (by omega))
  | d + 1, e, .term, h => tracks_foldLevel .term (tracks_binary d e .factor (by omega))
  | d + 1, e, .factor, h => tracks_foldLevel .factor (tracks_binary_nil d e (by omega))

theorem tracks_binary_nil : ∀ d e, d ≤ e → k.Tracks (unary e) (binary d [])
  | 0, e, _ => .throw (.of_refuses (refuses_unary (atFactor_strict k) e))
  | d + 1, e, h => tracks_unary d e (by omega)

theorem tracks_unary : ∀ d e, d ≤ e → k.Tracks (unary e) (Parse.unary d)
  | 0, e, _ => .throw (.of_refuses (refuses_unary (atFactor_strict k) e))
  | d + 1, 0, h => by omega
  | d + 1, e + 1, h => by
    have hoperand := tracks_unary d e (by omega)
    refine .of_accept? (onward.unary (d + 1)) ?_ (fun op op' hagrees hop => ?_)
      (.of_eq (fun ts hts => unary_of_notMem e hts) (tracks_call d e (by omega)))
    · exact .of_refuses (refuses_unary (atFactor_strict k) (e + 1))
    · obtain rfl := hagrees.eq (by rintro heq; simp [heq] at hop)
      refine .takeIf? (by simpa using hop) (hoperand.bind fun right => .pure _)

theorem tracks_call : ∀ d e, d ≤ e → k.Tracks (callOf e) (Parse.call d)
  | 0, e, _ => .throw (.of_refuses (refuses_callOf (atFactor_strict k) e))
  | d + 1, e, h => (tracks_primary d e (by omega)).bind
      (tracks_suffixes (tracks_expression d e (by omega)))

theorem tracks_primary : ∀ d e, d ≤ e → k.Tracks (primary (expression e)) (Parse.primary d)
  | 0, e, _ => .throw (.of_refuses (refuses_primary (atFactor_strict k) e))
  | d + 1, e, h => tracks_primaryWith (tracks_expression d e (by omega))

end

/-! ### Statements -/

section

variable {d e : Nat} (hde : d ≤ e)
include hde

theorem tracks_optionalBefore {kind : Kind} (hslash : kind ≠ .slash) :
    k.Tracks (expressionUnless kind e) (optionalBefore kind (Parse.expression d)) :=
  (tracks_expression d e hde).unlessNext hslash .null

theorem tracks_varDeclaration {key : Token} (hkey : key.kind = .varKey) :
    k.TracksBehind key (varDecl e) (varDeclaration (Parse.expression d)) := by
  rw [varDeclaration_eq, varDecl_eq]
  exact .take hkey <| (Tracks.expect _ (by decide) (by decide)).bind fun name =>
    ((tracks_expression d e hde).optionalIf (by decide) Tree.null).bind fun value =>
      (Tracks.expect _ (by decide) (by decide)).bind fun _ => .pure _

theorem tracks_expressionStatement :
    k.Tracks (exprStmt e) (expressionStatement (Parse.expression d)) :=
  (tracks_expression d e hde).bind fun _ =>
    (Tracks.expect _ (by decide) (by decide)).bind fun _ => .pure _

theorem tracks_forInitializer :
    k.Tracks (forInit e) (forInitializer (Parse.expression d)) := by
  have hskip (ts : List Token) (hts : NextNot [.semicolon, .varKey] ts) :
      forInit e ts = exprStmt e ts := by
    rw [forInit, peek?_bind_apply]
    refine congrFun ?_ ts
    split
    case h_3 => rfl
    all_goals next heq => exact absurd heq (head?_ne hts (by decide))
  refine .of_accept? (onward.forInitializer (onward.expression d)) ?_
    (fun key key' hagrees hk => ?_) (.of_eq hskip (tracks_expressionStatement hde))
  · refine .of_eq (hskip _ (nextNot_strict (by decide))) ?_
    exact .of_refuses (refuses_exprStmt (atFactor_strict k) e)
  · have hkind := hagrees.kind_eq
    dsimp only
    split
    · next hsemicolon =>
      exact .peek? (hkind.trans hsemicolon) (.take (hkind.trans hsemicolon) (.pure _))
    · next hother =>
      have hvar : key.kind = .varKey := by simpa [hother] using hk
      exact .peek? (hkind.trans hvar) (tracks_varDeclaration hde (hkind.trans hvar))

theorem tracks_printStatement {key : Token} (hkey : key.kind = .printKey) :
    k.TracksBehind key (printStmt e) (printStatement (Parse.expression d)) :=
  .take hkey <| (tracks_expression d e hde).bind fun _ =>
    (Tracks.expect _ (by decide) (by decide)).bind fun _ => .pure _

theorem tracks_returnStatement {key : Token} (hkey : key.kind = .returnKey) :
    k.TracksBehind key (returnStmt e) (returnStatement key (Parse.expression d)) :=
  .take hkey <| (tracks_optionalBefore hde (by decide)).bind fun _ =>
    (Tracks.expect _ (by decide) (by decide)).bind fun _ => .pure _

end

theorem tracks_parameters :
    k.Tracks params (expect .leftParen .parenAfterFunctionName >>= fun _ => parameters) := by
  rw [parameters_eq, params_eq]
  refine .opening _ (by decide) ?_ (fun ts hts => (Refuses.take hts).bind) fun t ht => ?_
  · rw [← parameters_eq]
    exact onward.parameters
  · have hname : k.Tracks (take .identifier) (expect .identifier .parameterName) :=
      .expect _ (by decide) (by decide)
    exact .take ht <| (hname.commaSeparated.unlessNext (by decide) []).bind fun names =>
      (Tracks.expect _ (by decide) (by decide)).bind fun _ => .pure _

theorem refuses_block {ts : List Token} (h : NextNot [.leftBrace] ts) (e : Nat) :
    Refuses (block e) ts := by
  cases e with
  | zero => exact .stopNesting ts
  | succ _ => exact (Refuses.take h).bind

/-- The opening tokens are put together with what follows them. -/
theorem funDeclaration_eq (block : Parse (List Tree)) :
    funDeclaration block = (do
      let name ← expect .identifier .functionName
      let params ← expect .leftParen .parenAfterFunctionName >>= fun _ => parameters
      let body ← expect .leftBrace .braceBeforeBody >>= fun _ => block
      return .funDecl name (.list (params.map .token)) (.list body)) := by
  simp only [funDeclaration, bind_assoc]

section

variable {d e : Nat} (hde : d ≤ e) (hs : k.Tracks (statement e) (Parse.statement d))
  (hb : ∀ brace : Token, brace.kind = .leftBrace → k.TracksBehind brace (block e) (Parse.block d))

include hde hs

theorem tracks_ifStatement {key : Token} (hkey : key.kind = .ifKey) :
    k.TracksBehind key (statement (e + 1))
      (ifStatement (Parse.expression d) (Parse.statement d)) := by
  have helse (c t : Tree) := (hs.optionalIf (by decide : Kind.elseKey ≠ .slash) .null).bind
    fun t' => Tracks.pure (k := k) (Tree.ifStmt c t t')
  simp only [optionalIf_bind] at helse
  rw [ifStatement_eq, statement]
  exact .peek? hkey <| .take hkey <| (Tracks.expect _ (by decide) (by decide)).bind fun _ =>
    (tracks_expression d e hde).bind fun c =>
      (Tracks.expect _ (by decide) (by decide)).bind fun _ => hs.bind fun t => helse c t

theorem tracks_whileStatement {key : Token} (hkey : key.kind = .whileKey) :
    k.TracksBehind key (statement (e + 1))
      (whileStatement (Parse.expression d) (Parse.statement d)) := by
  rw [statement]
  exact .peek? hkey <| .take hkey <| (Tracks.expect _ (by decide) (by decide)).bind fun _ =>
    (tracks_expression d e hde).bind fun _ =>
      (Tracks.expect _ (by decide) (by decide)).bind fun _ => hs.bind fun _ => .pure _

theorem tracks_forStatement {key : Token} (hkey : key.kind = .forKey) :
    k.TracksBehind key (statement (e + 1))
      (forStatement (Parse.expression d) (Parse.statement d)) := by
  rw [statement]
  exact .peek? hkey <| .take hkey <| (Tracks.expect _ (by decide) (by decide)).bind fun _ =>
    (tracks_forInitializer hde).bind fun _ => (tracks_optionalBefore hde (by decide)).bind fun _ =>
      (Tracks.expect _ (by decide) (by decide)).bind fun _ =>
        (tracks_optionalBefore hde (by decide)).bind fun _ =>
          (Tracks.expect _ (by decide) (by decide)).bind fun _ => hs.bind fun _ => .pure _

include hb

theorem tracks_statementWith :
    k.Tracks (statement (e + 1))
      (statementWith (Parse.expression d) (Parse.statement d) (Parse.block d)) := by
  refine .of_accept? (onward.statement (d + 1)) ?_ (fun key key' hagrees hk => ?_)
    (.of_eq (fun ts hts => statement_of_notMem e hts) (tracks_expressionStatement hde))
  · exact .of_refuses (refuses_statement (atFactor_strict k) (e + 1))
  · obtain rfl := hagrees.eq (by rintro heq; rw [heq] at hk; exact absurd hk (by decide))
    dsimp only
    split
    · next hkey =>
      rw [statement]
      exact .peek? hkey (tracks_printStatement hde hkey)
    · next hkey => exact tracks_ifStatement hde hs hkey
    · next hkey => exact tracks_whileStatement hde hs hkey
    · next hkey => exact tracks_forStatement hde hs hkey
    · next hkey =>
      rw [statement]
      exact .peek? hkey (tracks_returnStatement hde hkey)
    · -- the opening brace is the only kind that is left
      have hbrace : key'.kind = .leftBrace := by
        simp only [statementKinds, List.mem_cons, List.not_mem_nil, or_false] at hk
        grind
      rw [statement]
      exact .peek? hbrace ((hb key' hbrace).bind fun _ => .pure _)

theorem tracks_declarationWith :
    k.Tracks (declaration (e + 1))
      (declarationWith (Parse.expression d) (Parse.statement d) (Parse.block d)) := by
  have hp := onward.declarationWith (onward.expression d) (onward.statement d) (onward.block d)
  refine .of_accept? hp ?_ (fun key key' hagrees hk => ?_)
    (.of_eq (fun ts hts => declaration_of_notMem e hts) hs)
  · exact .of_refuses (refuses_declaration (atFactor_strict k) (e + 1))
  · have hkind := hagrees.kind_eq
    dsimp only
    rw [declaration]
    split
    · next hfun =>
      rw [funDeclaration_eq]
      have hbody := Tracks.opening .braceBeforeBody (by decide) (onward.block d)
        (fun ts hts => refuses_block hts e) hb
      exact .peek? (hkind.trans hfun) <| .take (hkind.trans hfun) <|
        (Tracks.expect _ (by decide) (by decide)).bind fun _ => tracks_parameters.bind fun _ =>
          hbody.bind fun _ => .pure _
    · next hother =>
      have hvar : key.kind = .varKey := by simpa [hother] using hk
      exact .peek? (hkind.trans hvar) (tracks_varDeclaration hde (hkind.trans hvar))

end

/-! ### Declarations and programs -/

/-- One declaration in front of those that were read, or nothing at the end; what is done at a
closing brace is left open. -/
def declarationOr (atBrace : Step (Option (List Tree))) (q : Step Tree) (statements : List Tree) :
    Step (Option (List Tree)) := do
  match ← peek? with
  | none => return none
  | some .rightBrace => atBrace
  | some _ => return some ((← q) :: statements)

/-- What both loops do with the outcome of a declaration. -/
def addTo {m : Type → Type} [Monad m] (statements : List Tree) :
    Option Tree → m (Option (List Tree))
  | some s => return some (s :: statements)
  | none => return some statements

theorem declarationOr_of_eq {atBrace : Step (Option (List Tree))} {q : Step Tree}
    {statements : List Tree} {t : Token} (ht : t.kind = .rightBrace) (ts : List Token) :
    declarationOr atBrace q statements (t :: ts) = atBrace (t :: ts) := by
  rw [declarationOr, peek?_bind_apply, List.head?_cons, Option.map_some, ht]

theorem declarationOr_of_ne {atBrace : Step (Option (List Tree))} {q : Step Tree}
    {statements : List Tree} {t : Token} (ht : t.kind ≠ .rightBrace) (ts : List Token) :
    declarationOr atBrace q statements (t :: ts) =
      (q >>= fun s => pure (some (s :: statements))) (t :: ts) := by
  rw [declarationOr, peek?_bind_apply]
  refine congrFun ?_ (t :: ts)
  split
  · next heq => cases heq
  · next heq => exact absurd (Option.some.inj heq) ht
  · rfl

/-- A round of the loop over declarations. At a closing brace the list ends for both, or the strict
front end faults. -/
theorem tracks_declarationStep {stop : Kind → Bool} {atBrace : Step (Option (List Tree))}
    {q : Step Tree} {p : Parse (Option Tree)}
    (hstop : ∀ kind, stop kind = true → kind = .rightBrace)
    (hbrace : stop .rightBrace = true ∧ atBrace = pure none ∨ atBrace = Strict.stop)
    (h : k.Tracks (q >>= fun s => pure (some s)) p) (statements : List Tree) :
    k.Tracks (declarationOr atBrace q statements) (declarationStep stop p statements) := by
  have hp := onward.declarationStep h.onward stop statements
  have hgo : k.Tracks (q >>= fun s => pure (some (s :: statements)))
      (p >>= addTo statements) := by
    have hboth : k.Tracks ((q >>= fun s => pure (some s)) >>= addTo statements)
        (p >>= addTo statements) :=
      h.bind fun o => by cases o <;> exact .pure _
    rwa [bind_assoc] at hboth
  refine .of_cases hp ?_ (fun hend cs n => ?_) fun t t' ts ts' hagrees hts hall cs n => ?_
  · rcases k.shape with hnil | ⟨slash, star, rest, hcons, hslash, -⟩
    · refine .of_eq ?_ (.pure none)
      rw [hnil]
      rfl
    · refine .of_eq ?_ hgo.stalls
      rw [hcons]
      exact declarationOr_of_ne (by simp [hslash]) _
  · exact .together hend
  · have hkind := hagrees.kind_eq
    by_cases ht : t.kind = .rightBrace
    · rw [declarationOr_of_eq (hkind.trans ht)]
      rcases hbrace with ⟨hends, rfl⟩ | rfl
      · change k.Compares cs n _ ((if stop t.kind then pure none else _ : Parse _) _)
        rw [ht, if_pos hends]
        exact .together hall
      · exact .fault hall (hp ⟨t :: ts, cs, n⟩)
    · rw [declarationOr_of_ne (hkind ▸ ht)]
      change k.Compares cs n _ ((if stop t.kind then pure none else _ : Parse _) _)
      rw [if_neg fun hends => ht (hstop _ hends)]
      exact hgo.compares cs n hall

theorem tracks_declarations {stop : Kind → Bool} {atBrace : Step (Option (List Tree))} {d e : Nat}
    (hstop : ∀ kind, stop kind = true → kind = .rightBrace)
    (hbrace : stop .rightBrace = true ∧ atBrace = pure none ∨ atBrace = Strict.stop)
    (h : k.Tracks (declaration e >>= fun s => pure (some s)) (Parse.declaration d)) :
    k.Tracks (extendAll (declarationOr atBrace (declaration e)) [])
      (repeated (declarationStep stop (Parse.declaration d)) []) := by
  exact .repeated (tracks_declarationStep hstop hbrace h) (fun _ => rfl)
    (advances_declarationStep stop d) []

mutual

theorem tracks_declaration : ∀ d e, d ≤ e →
    k.Tracks (declaration e >>= fun s => pure (some s)) (Parse.declaration d)
  | 0, e, _ => .throw (.of_refuses (refuses_declaration (atFactor_strict k) e).bind)
  | d + 1, 0, h => by omega
  | d + 1, e + 1, h => (tracks_declarationWith (by omega) (tracks_statement d e (by omega))
      fun brace hbrace => tracks_block d e (by omega) brace hbrace).recover

theorem tracks_statement : ∀ d e, d ≤ e → k.Tracks (statement e) (Parse.statement d)
  | 0, e, _ => .throw (.of_refuses (refuses_statement (atFactor_strict k) e))
  | d + 1, 0, h => by omega
  | d + 1, e + 1, h => tracks_statementWith (by omega) (tracks_statement d e (by omega))
      fun brace hbrace => tracks_block d e (by omega) brace hbrace

theorem tracks_block : ∀ d e, d ≤ e → ∀ brace : Token, brace.kind = .leftBrace →
    k.TracksBehind brace (block e) (Parse.block d)
  | 0, _, _, _, _ => .throw
  | d + 1, 0, h, _, _ => by omega
  | d + 1, e + 1, h, brace, hbrace => by
    have hall : k.Tracks (declarations (declaration e))
        (declarationsUntil (· = .rightBrace) (Parse.declaration d)) := by
      rw [declarationsUntil_eq, declarations_eq]
      exact (tracks_declarations (by simp) (.inl ⟨rfl, rfl⟩)
        (tracks_declaration d e (by omega))).bind fun all => .pure all.reverse
    exact .take hbrace <| hall.bind fun ss =>
      (Tracks.expect _ (by decide) (by decide)).bind fun _ => .pure ss

end

/-- What a program has to end with. -/
def atFinish (ending : Ending) (statements : List Tree) : Step (List Tree) := do
  match ← peek?, ending with
  | none, .finished _ => return statements
  | _, _ => stop

/-- Faulting at a closing brace at once makes no difference, as the finish faults there too. -/
theorem extend_atFinish (q : Step Tree) (ending : Ending) (n : Nat) (statements : List Tree) :
    (extend (nextDeclaration q) n statements >>= fun all => atFinish ending all.reverse) =
      extend (declarationOr stop q) n statements >>= fun all => atFinish ending all.reverse := by
  induction n generalizing statements with
  | zero => rfl
  | succ n ih =>
    funext ts
    change ((declarationOr (pure none) q statements >>= _) >>= _) ts =
      ((declarationOr stop q statements >>= _) >>= _) ts
    rw [bind_assoc, bind_assoc, step_bind_apply, step_bind_apply]
    by_cases hbrace : ∃ t rest, ts = t :: rest ∧ t.kind = .rightBrace
    · obtain ⟨t, rest, rfl, ht⟩ := hbrace
      rw [declarationOr_of_eq ht, declarationOr_of_eq ht]
      rfl
    · have hsame :
          declarationOr (pure none) q statements ts = declarationOr stop q statements ts := by
        cases ts with
        | nil => rfl
        | cons t rest =>
          have ht : t.kind ≠ .rightBrace := fun ht => hbrace ⟨t, rest, rfl, ht⟩
          rw [declarationOr_of_ne ht, declarationOr_of_ne ht]
      rw [hsame]
      cases declarationOr stop q statements ts with
      | error fault => rfl
      | ok out =>
        obtain ⟨_ | more, rest⟩ := out
        · rfl
        · exact congrFun (ih more) rest

theorem program_eq (ending : Ending) (d : Nat) :
    program ending d = (do
      let all ← extendAll (declarationOr stop (declaration d)) []
      atFinish ending all.reverse) := by
  have hall (more : List Tree → Step (Option (List Tree))) (ts : List Token) :
      (extendAll more [] >>= fun all => atFinish ending all.reverse) ts =
        (extend more ts.length [] >>= fun all => atFinish ending all.reverse) ts := by
    rw [step_bind_apply, step_bind_apply]
    rfl
  funext ts
  change (declarations (declaration d) >>= atFinish ending) ts = _
  rw [declarations_eq, bind_assoc, hall, ← extend_atFinish]
  exact hall (nextDeclaration (declaration d)) ts

/-- The finish takes nothing; it faults at what is left and at an ending that came too early. -/
theorem atFinish_apply (ending : Ending) (statements : List Tree) (ts : List Token) :
    atFinish ending statements ts = .ok (statements, ts) ∨
      Refuses (atFinish ending statements) ts := by
  cases ts with
  | cons t ts => exact .inr ⟨_, rfl, rfl⟩
  | nil =>
    cases ending with
    | finished line => exact .inl rfl
    | unexpected c line => exact .inr ⟨_, rfl, rfl⟩

theorem tracks_atFinish (ending : Ending) (statements : List Tree) :
    k.Tracks (atFinish ending statements) (pure statements) where
  onward := .pure statements
  stalls := by
    rcases atFinish_apply ending statements k.strict with hok | hrefuses
    · exact .of_eq hok (.pure statements)
    · exact .of_refuses hrefuses
  compares {ts ts'} cs n hts := by
    rcases atFinish_apply ending statements ts' with hok | ⟨fault, hfault, hrest⟩
    · rw [hok]
      exact .together hts
    · rw [hfault]
      exact .fault (hrest ▸ hts) (.none List.suffix_rfl)

theorem tracks_program (ending : Ending) {d e : Nat} (h : d ≤ e) :
    k.Tracks (program ending e) (Parse.program d) := by
  rw [program_eq, Parse.program, declarationsUntil_eq]
  exact (tracks_declarations (fun _ h => by cases h) (.inr rfl)
    (tracks_declaration d e h)).bind fun all => tracks_atFinish ending all.reverse

/-! ### Programs -/

/-- A program that is accepted goes up to the end of the text, and the text is finished there. -/
theorem finished_of_program {ending : Ending} {d : Nat} {ts rest : List Token} {ss : List Tree}
    (h : program ending d ts = .ok (ss, rest)) : rest = [] ∧ ∃ line, ending = .finished line := by
  change (declarations (declaration d) >>= atFinish ending) ts = _ at h
  rw [step_bind_apply] at h
  split at h
  · next ss' rest' _ =>
    cases rest' with
    | cons t rest' => cases h
    | nil =>
      cases ending with
      | finished line =>
        cases h
        exact ⟨rfl, line, rfl⟩
      | unexpected c line => cases h
  · cases h

theorem Fork.Parallel.strict_eq_nil {ts : List Token} (h : k.Parallel ts []) : k.strict = [] := by
  generalize hnil : [] = ts' at h
  cases h with
  | parted => rfl
  | cons => cases hnil

/-- A fault up to the fork is on no later line than what is left. -/
theorem Fork.Parallel.earliest {ending : Ending} {fault : Fault} {ts : List Token}
    (h : k.Parallel ts fault.rest) (hleads : k.Leads ending) :
    Earliest (fault.diagnostic ending).line (ts.map (·.line) ++ k.reported) := by
  generalize hrest : fault.rest = ts' at h
  cases h with
  | parted => exact hleads fault (.inl hrest)
  | cons _ hline _ =>
    cases fault <;> cases hrest <;> exact hline

end Scriptlet.Strict

namespace Scriptlet

open Parse Strict

/-- What the parser blames among some tokens is on their lines or at the end. -/
theorem lines_subset {source : String} {ts : List Token} {s : State} (h : Blames [] ts s) :
    ((scan source).diagnostics ++ s.complaints.reverse.map
      (·.diagnostic (endToken (lastLine source.toList)))).map (·.line) ⊆
        ts.map (·.line) ++ reportedFrom 1 source.toList := by
  obtain ⟨new, hnew, hall⟩ := h.complaints
  rw [List.append_nil] at hnew
  rw [hnew]
  intro line hline
  obtain ⟨d, hd, rfl⟩ := List.mem_map.1 hline
  rcases List.mem_append.1 hd with hd | hd
  · exact List.mem_append_right _ (List.mem_cons_of_mem _ (List.mem_map_of_mem hd))
  · obtain ⟨c, hc, rfl⟩ := List.mem_map.1 hd
    have hsuffix := hall c (List.mem_reverse.1 hc)
    cases hrest : c.rest with
    | nil =>
      refine List.mem_append_right _ ?_
      rw [Complaint.diagnostic, hrest]
      exact List.mem_cons_self
    | cons t rest =>
      have hmem : t ∈ ts := hsuffix.subset (hrest ▸ List.mem_cons_self)
      refine List.mem_append_left _ ?_
      rw [Complaint.diagnostic, hrest]
      exact List.mem_map_of_mem hmem

/-- Either both front ends accept a text, or the strict one faults, on the line of the first
problem. -/
theorem accepts_or_earliest {source : String} (hplain : Text.PlainNumbers source.toList)
    (hnesting : ∀ d ∈ (parseSource source).diagnostics, d.message ≠ Cause.nesting.message)
    {e : Nat} (he : Parse.depthLimit ≤ e) :
    ((∃ out, program (cut source).2 e (cut source).1 = .ok out) ∧
        (parseSource source).diagnostics = []) ∨
      ∃ fault, program (cut source).2 e (cut source).1 = .error fault ∧
        Earliest (fault.diagnostic (cut source).2).line
          ((parseSource source).diagnostics.map (·.line)) := by
  obtain ⟨k, hreported, hparallel, hleads, hfinished⟩ := exists_fork hplain (Nat.le_refl 1)
  obtain ⟨ss, s, hrun⟩ := neverAborts_program 9999 (.start (bodyTokens source))
  have hrun : Parse.program Parse.depthLimit ⟨bodyTokens source, [], 0⟩ = .ok ss s := hrun
  have hdiagnostics : (parseSource source).diagnostics = (scan source).diagnostics ++
      s.complaints.reverse.map (·.diagnostic (endToken (lastLine source.toList))) := by
    rw [parseSource_eq, parseBody, State.start, hrun]
  have hearliest {line : Json} {ts : List Token} (hs : Blames [] ts s)
      (hline : Earliest line (ts.map (·.line) ++ k.reported)) :
      Earliest line ((parseSource source).diagnostics.map (·.line)) := by
    rw [hdiagnostics]
    exact hline.subset (hreported ▸ lines_subset hs)
  have hcompares := (tracks_program (cut source).2 he).compares [] 0 hparallel
  change k.Compares [] 0 (program (cut source).2 e (cut source).1)
    (Parse.program Parse.depthLimit ⟨bodyTokens source, [], 0⟩) at hcompares
  rw [hrun] at hcompares
  generalize hout : program (cut source).2 e (cut source).1 = out at hcompares ⊢
  cases hcompares with
  | ranOut hout =>
    obtain ⟨c, hc, hcause⟩ := hout
    have hmem : c.diagnostic (endToken (lastLine source.toList)) ∈
        (parseSource source).diagnostics := by
      rw [hdiagnostics]
      exact List.mem_append_right _ (List.mem_map_of_mem (List.mem_reverse.2 hc))
    exact absurd (congrArg Cause.message hcause) (hnesting _ hmem)
  | together hts =>
    obtain ⟨rfl, line, hending⟩ := finished_of_program hout
    obtain ⟨-, hscan⟩ := hfinished line hts.strict_eq_nil hending
    refine .inl ⟨⟨_, rfl⟩, ?_⟩
    rw [hdiagnostics]
    exact List.append_eq_nil_iff.2 ⟨hscan, rfl⟩
  | apart hapart _ =>
    obtain ⟨hstrict, line, hending⟩ := finished_of_program hout
    exact absurd ⟨(hfinished line hstrict hending).1, hstrict⟩ hapart
  | fault hts hs => exact .inr ⟨_, rfl, hearliest hs (hts.earliest hleads)⟩
  | beyond hrest hs => exact .inr ⟨_, rfl, hearliest hs (hleads _ (.inr hrest))⟩

end Scriptlet
