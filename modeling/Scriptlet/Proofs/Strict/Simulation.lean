import Scriptlet.Parse.Program
import Scriptlet.Proofs.Parse.Completeness
import Scriptlet.Proofs.Strict.Lexeme
import Scriptlet.Strict.Descent

/-!
# The strict front end follows the parser

Whenever a parsing function ends without a complaint, its counterpart of the strict front end takes
tokens that agree and yields the same tree. The counterpart never needs more nesting depth, so no
depth condition is left. The two differ in how they read an assignment: the parser reads an operand
chain and looks afterwards whether it is a target, the strict front end looks ahead for a name and
an equals sign.

## Main definitions

* `Strict.Follows` — a strict step does what a parsing step did

## Main results

* `Strict.ensures_expression`, `Strict.ensures_statement`, `Strict.ensures_program`
* `parseStrict_of_parseSource` — what the parser accepts, the strict front end accepts
-/

namespace Scriptlet.Strict

open Grammar Parse

/-- The strict step takes what agrees with the tokens between `ts` and `rest`, and yields `a`. -/
def Follows {α : Type} (q : Step α) (ts : List Token) (a : α) (rest : List Token) : Prop :=
  ∀ ts', List.Forall₂ Token.Agrees ts ts' →
    ∃ rest', List.Forall₂ Token.Agrees rest rest' ∧ q ts' = .ok (a, rest')

namespace Follows

variable {α β : Type} {q : Step α} {f : α → Step β} {ts mid rest : List Token} {a : α} {b : β}

theorem pure (a : α) (ts : List Token) : Follows (Pure.pure a) ts a ts :=
  fun ts' hts => ⟨ts', hts, rfl⟩

theorem bind (h : Follows q ts a mid) (hf : Follows (f a) mid b rest) :
    Follows (q >>= f) ts b rest := by
  intro ts' hts
  obtain ⟨mid', hmid, hq⟩ := h ts' hts
  obtain ⟨rest', hrest, hfa⟩ := hf mid' hmid
  refine ⟨rest', hrest, ?_⟩
  change (q ts' >>= fun x => f x.1 x.2) = _
  rw [hq]
  exact hfa

theorem take {kind : Kind} {t : Token} (ht : t.kind = kind) (hstring : kind ≠ .string)
    (ts : List Token) : Follows (take kind) (t :: ts) t ts := by
  rintro _ (_ | ⟨hagrees, hts⟩)
  obtain rfl := hagrees.eq (ht ▸ hstring)
  refine ⟨_, hts, ?_⟩
  simp [Strict.take, ht]

theorem takeIf?_some {test : Kind → Bool} {t : Token} (ht : test t.kind = true)
    (hstring : t.kind ≠ .string) (ts : List Token) :
    Follows (takeIf? test) (t :: ts) (some t) ts := by
  rintro _ (_ | ⟨hagrees, hts⟩)
  obtain rfl := hagrees.eq hstring
  refine ⟨_, hts, ?_⟩
  simp [takeIf?, ht]

theorem takeIf?_none {test : Kind → Bool} (h : ∀ t ∈ ts.head?, test t.kind = false) :
    Follows (takeIf? test) ts none ts := by
  rintro _ (_ | ⟨hagrees, hts⟩)
  · exact ⟨[], .nil, rfl⟩
  · refine ⟨_, .cons hagrees hts, ?_⟩
    have := h _ rfl
    rw [← hagrees.kind_eq] at this
    simp [takeIf?, this]

theorem peek? (ts : List Token) : Follows peek? ts (ts.head?.map (·.kind)) ts := by
  rintro _ (_ | ⟨hagrees, hts⟩)
  · exact ⟨[], .nil, rfl⟩
  · refine ⟨_, .cons hagrees hts, ?_⟩
    simp [Strict.peek?, hagrees.kind_eq]

/-- What comes after a look at the next token may rely on it. -/
theorem peek?_cons {f : Option Kind → Step α} {kind : Kind} {t : Token} (ht : t.kind = kind)
    (h : Follows (f (some kind)) (t :: ts) a rest) :
    Follows (Strict.peek? >>= f) (t :: ts) a rest := by
  refine .bind (.peek? _) ?_
  rw [List.head?_cons, Option.map_some, ht]
  exact h

end Follows

/-! ### Repetition -/

theorem ensures_repeated {α : Type} {step : α → Parse (Option α)} {more : α → Step (Option α)}
    (hend : ∀ a, Follows (more a) [] none [])
    (hstep : ∀ a, Ensures (step a) fun ts o rest =>
      Follows (more a) ts o rest ∧ ∀ b, o = some b → rest.length < ts.length) (a : α) :
    Ensures (repeated step a) (Follows (extendAll more a)) := by
  -- a round spends one unit of fuel but may take many tokens, so any fuel that is enough is let in
  let Loop (a : α) (ts : List Token) (c : α) (rest : List Token) : Prop :=
    ∀ n, ts.length ≤ n → Follows (extend more n a) ts c rest
  have hloop : Ensures (repeated step a) (Loop a) := by
    refine Ensures.repeated (R := Loop) hstep ?_ ?_ ?_ ?_ a
    · exact fun a b ts mid h => h.2 b rfl
    · rintro a (_ | n) -
      · exact .pure a []
      · exact .bind (hend a) (.pure a [])
    · rintro a ts rest ⟨hmore, -⟩ (_ | n) hn
      -- a loop without fuel yields what it has, as it would in front of no tokens
      · obtain rfl := List.length_eq_zero_iff.1 (Nat.le_zero.1 hn)
        intro ts' hts
        cases hts
        obtain ⟨rest', hrest, heq⟩ := hmore [] .nil
        obtain ⟨rest'', hrest', heq'⟩ := hend a [] .nil
        cases hrest'
        cases heq.symm.trans heq'
        exact ⟨[], hrest, rfl⟩
      · exact .bind hmore (.pure a rest)
    · intro a b c ts mid rest hpieces hrest n hn
      obtain ⟨hmore, hlt⟩ := hpieces
      have := hlt b rfl
      obtain _ | n := n
      · omega
      · exact .bind hmore (hrest n (by omega))
  refine hloop.mono fun ts c rest h ts' hts => ?_
  exact h ts'.length (Nat.le_of_eq hts.length_eq) ts' hts

/-- A lexeme that satisfies a test and the item behind it, folded into what was read. -/
def foldStep {α β : Type} (test : Kind → Bool) (f : α → Token → β → α) (item : Step β) (a : α) :
    Step (Option α) := do
  match ← takeIf? test with
  | none => return none
  | some sep => return some (f a sep (← item))

theorem ensures_separated {α β : Type} {item : Parse β} {item' : Step β} {kinds : List Kind}
    {test : Kind → Bool} (f : α → Token → β → α) (h : Ensures item (Follows item'))
    (htest : ∀ kind, test kind = kinds.contains kind) (hstring : Kind.string ∉ kinds) (a : α) :
    Ensures (repeated (separatedStep kinds f item) a)
      (Follows (extendAll (foldStep test f item') a)) := by
  have hend (a : α) : Follows (foldStep test f item' a) [] none [] :=
    .bind (.takeIf?_none (by simp)) (.pure _ _)
  refine ensures_repeated hend (fun a => ?_) a
  refine Ensures.accept?_bind (fun sep hk => ?_) ?_
  · apply (Ensures.bind h.suffix fun x => Ensures.pure (some (f a sep x))).mono
    intro ts out rest hpieces
    obtain ⟨x, _, ⟨hx, hsuffix⟩, rfl, rfl⟩ := hpieces
    have htaken : test sep.kind = true := by
      rw [htest, List.contains_iff_mem]
      exact hk
    have hother : sep.kind ≠ .string := fun heq => hstring (heq ▸ hk)
    refine ⟨?_, fun _ _ => Nat.lt_succ_of_le hsuffix.length_le⟩
    exact .bind (.takeIf?_some htaken hother _) (.bind hx (.pure _ _))
  · apply Ensures.pure_of
    intro ts hnext
    refine ⟨.bind (.takeIf?_none fun t ht => ?_) (.pure _ _), fun _ hnone => by cases hnone⟩
    rw [htest, Bool.eq_false_iff, Ne, List.contains_iff_mem]
    exact hnext t ht

theorem commaList_eq {α : Type} (item : Step α) :
    commaList item = (do
      let a ← item
      let all ← extendAll (foldStep (· == .comma) (fun items _ x => x :: items) item) [a]
      return all.reverse) := by
  rw [commaList]
  congr
  funext a
  congr 2
  funext items
  rw [foldStep]
  congr
  funext o
  cases o <;> rfl

theorem ensures_commaSeparated {α : Type} {item : Parse α} {item' : Step α}
    (h : Ensures item (Follows item')) :
    Ensures (commaSeparated item) (Follows (commaList item')) := by
  rw [commaSeparated_eq, commaList_eq]
  have htest (kind : Kind) : (kind == .comma) = [Kind.comma].contains kind := by
    cases kind <;> rfl
  have hloop (a : α) := ensures_separated (fun items _ x => x :: items) h htest (by decide) [a]
  apply (Ensures.bind h fun a => Ensures.bind (hloop a) fun all =>
    Ensures.pure all.reverse).mono
  intro ts _ rest hpieces
  obtain ⟨a, mid, ha, all, _, hall, rfl, rfl⟩ := hpieces
  exact .bind ha (.bind hall (.pure _ _))

/-! ### Expressions -/

/-- The function of the strict front end for a level of operators, given the one for unary
expressions. -/
def levelOf : Rank → Step Tree → Step Tree
  | .disjunction => disjunction
  | .conjunction => conjunction
  | .equality => equality
  | .comparison => comparison
  | .term => term
  | .factor => factor

/-- The function for the operands of a level. -/
def operandOf : Rank → Step Tree → Step Tree
  | .disjunction => conjunction
  | .conjunction => equality
  | .equality => comparison
  | .comparison => term
  | .term => factor
  | .factor => fun unary => unary

/-- The test of a level is for the operators of its rank. -/
theorem levelOf_eq (rank : Rank) (unary : Step Tree) :
    ∃ test : Kind → Bool, (∀ kind, test kind = rank.operators.contains kind) ∧
      levelOf rank unary = (do
        let a ← operandOf rank unary
        extendAll (foldStep test rank.build (operandOf rank unary)) a) := by
  -- every level spells out its test, so this is checked kind by kind
  cases rank
  all_goals
    refine ⟨_, ?_, rfl⟩
    intro kind
    cases kind <;> rfl

/-- What the unary expressions have, and every level has from its operands, all levels have. -/
theorem levelOf_induction {C : ExprPhrase → (Step Tree → Step Tree) → Prop}
    (hunary : C .unary fun unary => unary)
    (hlevel : ∀ rank, C rank.operand (operandOf rank) → C (.level rank) (levelOf rank))
    (rank : Rank) : C (.level rank) (levelOf rank) := by
  -- the tightest level begins with an unary expression, every other with the next tighter one
  have hfactor := hlevel .factor hunary
  have hterm := hlevel .term hfactor
  have hcomparison := hlevel .comparison hterm
  have hequality := hlevel .equality hcomparison
  have hconjunction := hlevel .conjunction hequality
  cases rank with
  | factor => exact hfactor
  | term => exact hterm
  | comparison => exact hcomparison
  | equality => exact hequality
  | conjunction => exact hconjunction
  | disjunction => exact hlevel .disjunction hconjunction

theorem ensures_foldLevel (rank : Rank) {operand : Parse Tree} {unary : Step Tree}
    (h : Ensures operand (Follows (operandOf rank unary))) :
    Ensures (foldLevel (rankLevel rank) operand) (Follows (levelOf rank unary)) := by
  obtain ⟨test, htest, heq⟩ := levelOf_eq rank unary
  have hstring : Kind.string ∉ rank.operators := by cases rank <;> decide
  rw [heq, foldLevel_eq]
  apply (Ensures.bind h fun a => ensures_separated rank.build h htest hstring a).mono
  intro ts e rest hpieces
  obtain ⟨a, mid, ha, he⟩ := hpieces
  exact .bind ha he

/-- A default if a token of the given kind is next, else what the step yields. -/
theorem ensures_unless {α : Type} {p : Parse α} {q : Step α} (kind : Kind) (absent : α)
    (h : Ensures p (Follows q)) :
    Ensures (do if ← nextIs kind then return absent else p)
      (Follows (do if (← peek?) == some kind then return absent else q)) := by
  refine Ensures.nextIs_bind fun b => Ensures.ite (fun hb => ?_) fun hb => ?_
  · apply Ensures.pure_of
    intro ts hnext
    refine .bind (.peek? _) ?_
    rw [hnext.1 hb, if_pos (beq_self_eq_true _)]
    exact .pure _ _
  · refine h.mono fun ts a rest ha hnext => .bind (.peek? _) ?_
    rw [if_neg fun heq => hb (hnext.2 (beq_iff_eq.1 heq))]
    exact ha

/-- No items if a lexeme of the given kind is next, else what `items` yields. -/
def listUnless {α : Type} (kind : Kind) (items : Step (List α)) : Step (List α) := do
  if (← peek?) == some kind then return [] else items

theorem arguments_eq (q : Step Tree) :
    arguments q = (do
      let args ← listUnless .rightParen (commaList q)
      let paren ← take .rightParen
      return (paren, args)) := by
  rw [listUnless, bind_assoc, arguments]
  congr 1
  funext o
  cases o == some .rightParen <;> rfl

theorem params_eq :
    params = (do
      let _ ← take .leftParen
      let names ← listUnless .rightParen (commaList (take .identifier))
      let _ ← take .rightParen
      return names) := by
  rw [params]
  congr 1
  funext _
  rw [listUnless, bind_assoc]
  congr 1
  funext o
  cases o == some .rightParen <;> rfl

theorem ensures_callArguments {p : Parse Tree} {q : Step Tree} (h : Ensures p (Follows q)) :
    Ensures (callArguments p) (Follows (arguments q)) := by
  rw [callArguments_eq, arguments_eq]
  apply (Ensures.bind (ensures_unless .rightParen [] (ensures_commaSeparated h)) fun args =>
    Ensures.bind (Ensures.expect .rightParen _) fun paren => Ensures.pure (paren, args)).mono
  intro ts _ rest hpieces
  obtain ⟨args, _, hargs, paren, _, ⟨rfl, hparen⟩, rfl, rfl⟩ := hpieces
  exact .bind hargs (.bind (.take hparen (by decide) _) (.pure _ _))

theorem ensures_trailer? {p : Parse Tree} {q : Step Tree} (h : Ensures p (Follows q)) (e : Tree) :
    Ensures (trailer? p e) fun ts o rest =>
      Follows (suffix? q e) ts o rest ∧ ∀ e', o = some e' → rest.length < ts.length := by
  refine Ensures.accept?_bind (fun t ht => Ensures.ite (fun hk => ?_) fun hk => ?_) ?_
  · apply (Ensures.bind (ensures_callArguments h) fun out => Ensures.pure _).suffix.mono
    intro ts _ rest hpieces
    obtain ⟨⟨⟨paren, args⟩, _, hargs, rfl, rfl⟩, hsuffix⟩ := hpieces
    refine ⟨.bind (.takeIf?_some (by simp [hk]) (by simp [hk]) _) ?_, fun _ _ => ?_⟩
    · exact .bind hargs (.pure _ _)
    · exact Nat.lt_succ_of_le hsuffix.length_le
  · apply (Ensures.bind h fun index => Ensures.bind (Ensures.expect .rightBracket _)
      fun bracket => Ensures.pure _).suffix.mono
    intro ts _ rest hpieces
    obtain ⟨⟨index, _, hindex, bracket, _, ⟨rfl, hbracket⟩, rfl, rfl⟩, hsuffix⟩ := hpieces
    have hopening : t.kind = .leftBracket := by simpa [hk] using ht
    refine ⟨.bind (.takeIf?_none (by simp [hopening])) ?_, fun _ _ => ?_⟩
    · refine .bind (.takeIf?_some (by simp [hopening]) (by simp [hopening]) _) ?_
      exact .bind hindex (.bind (.take hbracket (by decide) _) (.pure _ _))
    · exact Nat.lt_succ_of_le hsuffix.length_le
  · apply Ensures.pure_of
    intro ts hnext
    have hno (kind : Kind) (hkind : kind ∈ [Kind.leftParen, .leftBracket]) :
        ∀ t ∈ ts.head?, (t.kind == kind) = false := by
      intro t ht
      rw [beq_eq_false_iff_ne]
      exact fun heq => hnext t ht (heq ▸ hkind)
    refine ⟨?_, fun _ hnone => by cases hnone⟩
    refine .bind (.takeIf?_none (hno _ (by decide))) ?_
    exact .bind (.takeIf?_none (hno _ (by decide))) (.pure _ _)

theorem ensures_suffixes {p : Parse Tree} {q : Step Tree} (h : Ensures p (Follows q)) (e : Tree) :
    Ensures (repeated (trailer? p) e) (Follows (extendAll (suffix? q) e)) := by
  refine ensures_repeated (fun e => ?_) (ensures_trailer? h) e
  exact .bind (.takeIf?_none (by simp)) (.bind (.takeIf?_none (by simp)) (.pure _ _))

/-- A string may stand on another line, but its literal is the same. -/
theorem follows_literal {kind : Kind} {t : Token} (ht : t.kind = kind) (ts : List Token) :
    Follows (do return Tree.literal (.ofJson (← take kind).literal)) (t :: ts)
      (.literal (.ofJson t.literal)) ts := by
  rintro _ (_ | ⟨hagrees, hts⟩)
  refine ⟨_, hts, ?_⟩
  change (take kind _ >>= fun x => _) = _
  rw [take, if_pos (hagrees.kind_eq.trans ht), ← hagrees.literal_eq]
  rfl

theorem ensures_primaryWith {p : Parse Tree} {q : Step Tree} (h : Ensures p (Follows q)) :
    Ensures (primaryWith p) (Follows (primary q)) := by
  refine Ensures.accept?_bind (fun t ht => ?_) (Ensures.fail .expression)
  have single (e : Tree) (he : ∀ ts, Follows (primary q) (t :: ts) e ts) :
      Ensures (pure e) fun ts e rest => Follows (primary q) (t :: ts) e rest := by
    apply Ensures.pure_of
    intro ts
    exact he _
  dsimp only
  split
  · next hk =>
    refine single _ fun ts => .peek?_cons hk ?_
    exact .bind (.take hk (by decide) _) (.pure _ _)
  · next hk =>
    refine single _ fun ts => .peek?_cons hk ?_
    exact .bind (.take hk (by decide) _) (.pure _ _)
  · next hk =>
    refine single _ fun ts => .peek?_cons hk ?_
    exact .bind (.take hk (by decide) _) (.pure _ _)
  · next hk =>
    refine single _ fun ts => .peek?_cons hk ?_
    exact .bind (.take hk (by decide) _) (.pure _ _)
  · next hk =>
    apply (Ensures.bind h fun e => Ensures.bind (Ensures.expect .rightParen _) fun _ =>
      Ensures.pure (Tree.grouping e)).mono
    intro ts _ rest hpieces
    obtain ⟨e, _, he, closing, _, ⟨rfl, hclosing⟩, rfl, rfl⟩ := hpieces
    refine .peek?_cons hk (.bind (.take hk (by decide) _) (.bind he ?_))
    exact .bind (.take hclosing (by decide) _) (.pure _ _)
  · -- numbers and strings are left
    have hk : t.kind = .number ∨ t.kind = .string := by
      simp only [primaryKinds, List.mem_cons, List.not_mem_nil, or_false] at ht
      grind
    rcases hk with hk | hk
    · exact single _ fun ts => .peek?_cons hk (follows_literal hk ts)
    · exact single _ fun ts => .peek?_cons hk (follows_literal hk ts)

/-- A name and an equals sign are next. -/
def AssignsName (ts : List Token) : Prop :=
  ∃ name equals rest, ts = name :: equals :: rest ∧ name.kind = .identifier ∧ equals.kind = .equal

theorem follows_startsAssignment_true {ts : List Token} (h : AssignsName ts) :
    Follows startsAssignment ts true ts := by
  obtain ⟨name, equals, rest, rfl, hname, hequals⟩ := h
  rintro _ (_ | ⟨hagrees, _ | ⟨hagrees', hts⟩⟩)
  refine ⟨_, .cons hagrees (.cons hagrees' hts), ?_⟩
  simp [startsAssignment, hagrees.kind_eq, hagrees'.kind_eq, hname, hequals]

theorem follows_startsAssignment_false {ts : List Token} (h : ¬ AssignsName ts) :
    Follows startsAssignment ts false ts := by
  rintro _ (_ | ⟨hagrees, _ | ⟨hagrees', hts⟩⟩)
  · exact ⟨[], .nil, rfl⟩
  · exact ⟨_, .cons hagrees .nil, rfl⟩
  · refine ⟨_, .cons hagrees (.cons hagrees' hts), ?_⟩
    have hno : ¬ (_ ∧ _) := fun hboth => h ⟨_, _, _, rfl, hboth.1, hboth.2⟩
    rw [← hagrees.kind_eq, ← hagrees'.kind_eq] at hno
    simp only [startsAssignment, Except.ok.injEq, Prod.mk.injEq, and_true]
    grind

/-- The parser reads a name in front of an equals sign as that name. -/
theorem reads_name {name equals : Token} {rest : List Token} (hname : name.kind = .identifier)
    (hequals : equals.kind = .equal) (d : Nat) :
    Reads (binary d levels) (name :: equals :: rest) (.varRef name) (equals :: rest) := by
  have hcall : Completes .call [name] (.varRef name) :=
    completes (.call (.name hname) .noSuffix)
  refine reads_binary_of_call hcall (.cons ?_) (.cons ?_) d
  · rw [hname]
    decide
  · rw [hequals]
    decide

/-- What stands behind the left side of what may become an assignment. -/
inductive Assignment (value? : List Token → Tree → List Token → Prop) (left : Tree) :
    List Token → Tree → List Token → Prop
  | plain {ts : List Token} : (∀ t ∈ ts.head?, t.kind ≠ .equal) → Assignment value? left ts left ts
  | assigned {equals : Token} {ts rest : List Token} {value e : Tree} : equals.kind = .equal →
      value? ts value rest → Assigned value left e → Assignment value? left (equals :: ts) e rest

/-- The strict front end, which decides between the kinds of assignments beforehand, follows the
parser, which decides afterwards. -/
theorem Assignment.follows {e : Nat} {ts mid rest : List Token} {left t : Tree} {d : Nat}
    (hspan : Spans (ExprPhrase.level .disjunction).Derives ts left mid)
    (hleft : Follows (disjunction (unary e)) ts left mid)
    (hreads : ∀ b after, Reads (binary d levels) ts b after → left = b ∧ mid = after)
    (h : Assignment (Follows (expression e)) left mid t rest) :
    Follows (expression (e + 1)) ts t rest := by
  by_cases hstarts : AssignsName ts
  · refine .bind (follows_startsAssignment_true hstarts) ?_
    obtain ⟨name, equals, ts, rfl, hname, hequals⟩ := hstarts
    -- the parser has read exactly the name as its left side
    obtain ⟨rfl, rfl⟩ := hreads _ _ (reads_name hname hequals d)
    cases h with
    | plain hne => exact absurd hequals (hne equals rfl)
    | assigned _ hvalue hassigned =>
      cases hassigned
      refine .bind (.take hname (by decide) _) (.bind (.take hequals (by decide) _) ?_)
      exact .bind hvalue (.pure _ _)
  · refine .bind (follows_startsAssignment_false hstarts) (.bind hleft (.bind (.peek? _) ?_))
    cases h with
    | plain hne =>
      have hnext : mid.head?.map (·.kind) ≠ some .equal := by
        intro heq
        obtain ⟨t, ht, hk⟩ := Option.map_eq_some_iff.1 heq
        exact hne t ht hk
      split
      · next heq => exact absurd heq hnext
      · next heq => exact absurd heq hnext
      · exact .pure _ _
    | assigned hequals hvalue hassigned =>
      cases hassigned with
      -- a bare name in front of an equals sign would have been seen beforehand
      | name name =>
        obtain ⟨us, rfl, hus⟩ := hspan
        obtain ⟨rfl, hname⟩ := hus.eq_name
        exact absurd ⟨_, _, _, rfl, hname, hequals⟩ hstarts
      | index target bracket i =>
        simp only [List.head?_cons, Option.map_some, hequals]
        exact .bind (.take hequals (by decide) _) (.bind hvalue (.pure _ _))

/-- Calls and indexings behind a primary expression. -/
def callOf (e : Nat) : Step Tree := do
  let callee ← primary (expression e)
  extendAll (suffix? (expression e)) callee

mutual

theorem ensures_expression :
    ∀ d e, d ≤ e → Ensures (Parse.expression d) (Follows (expression e))
  | 0, _, _ => .throw
  | d + 1, e, h => ensures_assignment d e (by omega)

theorem ensures_assignment :
    ∀ d e, d ≤ e → Ensures (Parse.assignment d) (Follows (expression e))
  | 0, _, _ => .throw
  | d + 1, 0, h => by omega
  | d + 1, e + 1, h => by
    have hrest (left : Tree) (equalsOn : List Token) : Ensures (do
        match ← accept? [.equal] with
        | some _ => do
          let value ← Parse.assignment d
          assignTo left value equalsOn
        | none => return left) (Assignment (Follows (expression e)) left) := by
      refine Ensures.accept?_bind (fun equals hequals => ?_) ?_
      · apply (Ensures.bind (ensures_assignment d e (by omega)) fun value =>
          ensures_assignTo left value equalsOn).mono
        intro ts t rest hpieces
        obtain ⟨value, _, hvalue, rfl, ht⟩ := hpieces
        exact .assigned (List.mem_singleton.1 hequals) hvalue ht
      · apply Ensures.pure_of
        intro ts hnext
        exact .plain fun t ht => by simpa using hnext t ht
    -- of the left side three things are known: its derivation, that it is followed, and that it is
    -- what the parser reads in front of an equals sign
    have hleft := ((Parse.ensures_binary d .disjunction).and
      (ensures_binary d e .disjunction (by omega))).reads
    apply (Ensures.bind hleft fun left =>
      Ensures.bind Ensures.get fun s => hrest left s.rest).mono
    intro ts t rest hpieces
    obtain ⟨left, _, ⟨⟨hspan, hleft⟩, hreads⟩, _, _, ⟨-, rfl⟩, ht⟩ := hpieces
    exact ht.follows hspan hleft hreads

theorem ensures_binary : ∀ d e rank, d ≤ e →
    Ensures (binary d (rankLevels rank)) (Follows (levelOf rank (unary e)))
  | 0, _, _, _ => .throw
  | d + 1, e, .disjunction, h =>
    ensures_foldLevel .disjunction (ensures_binary d e .conjunction (by omega))
  | d + 1, e, .conjunction, h =>
    ensures_foldLevel .conjunction (ensures_binary d e .equality (by omega))
  | d + 1, e, .equality, h =>
    ensures_foldLevel .equality (ensures_binary d e .comparison (by omega))
  | d + 1, e, .comparison, h =>
    ensures_foldLevel .comparison (ensures_binary d e .term (by omega))
  | d + 1, e, .term, h => ensures_foldLevel .term (ensures_binary d e .factor (by omega))
  | d + 1, e, .factor, h => ensures_foldLevel .factor (ensures_binary_nil d e (by omega))

theorem ensures_binary_nil : ∀ d e, d ≤ e → Ensures (binary d []) (Follows (unary e))
  | 0, _, _ => .throw
  | d + 1, e, h => ensures_unary d e (by omega)

theorem ensures_unary : ∀ d e, d ≤ e → Ensures (Parse.unary d) (Follows (unary e))
  | 0, _, _ => .throw
  | d + 1, 0, h => by omega
  | d + 1, e + 1, h => by
    refine Ensures.accept?_bind (fun op hop => ?_) ?_
    · apply (Ensures.bind (ensures_unary d e (by omega)) fun right =>
        Ensures.pure (Tree.unary op right)).mono
      intro ts t rest hpieces
      obtain ⟨right, _, hright, rfl, rfl⟩ := hpieces
      refine .bind (.takeIf?_some ?_ ?_ _) (.bind hright (.pure _ _))
      · simpa using hop
      · intro hstring
        simp [hstring] at hop
    · apply (ensures_call d e (by omega)).mono
      intro ts t rest ht hnext
      refine .bind (.takeIf?_none fun t' ht' => ?_) ht
      have hother := hnext t' ht'
      grind

theorem ensures_call : ∀ d e, d ≤ e → Ensures (Parse.call d) (Follows (callOf e))
  | 0, _, _ => .throw
  | d + 1, e, h => by
    apply (Ensures.bind (ensures_primary d e (by omega)) fun callee =>
      ensures_suffixes (ensures_expression d e (by omega)) callee).mono
    intro ts t rest hpieces
    obtain ⟨callee, _, hcallee, ht⟩ := hpieces
    exact .bind hcallee ht

theorem ensures_primary :
    ∀ d e, d ≤ e → Ensures (Parse.primary d) (Follows (primary (expression e)))
  | 0, _, _ => .throw
  | d + 1, e, h => ensures_primaryWith (ensures_expression d e (by omega))

end

/-! ### Statements -/

theorem head?_ne {kinds : List Kind} {kind : Kind} {ts : List Token}
    (h : ∀ t ∈ ts.head?, t.kind ∉ kinds) (hkind : kind ∈ kinds) :
    ts.head?.map (·.kind) ≠ some kind := by
  intro heq
  obtain ⟨t, ht, rfl⟩ := Option.map_eq_some_iff.1 heq
  exact h t ht hkind

section

variable {d e : Nat} (hde : d ≤ e)
include hde

theorem ensures_optionalBefore (kind : Kind) :
    Ensures (optionalBefore kind (Parse.expression d)) (Follows (expressionUnless kind e)) :=
  ensures_unless kind Tree.null (ensures_expression d e hde)

theorem ensures_varDeclaration :
    Ensures (varDeclaration (Parse.expression d)) fun ts t rest =>
      ∀ key : Token, key.kind = .varKey → Follows (varDecl e) (key :: ts) t rest := by
  rw [varDeclaration_eq]
  apply (Ensures.bind (Ensures.expect .identifier _) fun name =>
    Ensures.bind (ensures_optionalAfter .equal .null (ensures_expression d e hde)) fun value =>
    Ensures.bind (Ensures.expect .semicolon _) fun _ =>
    Ensures.pure (Tree.varDecl name value)).mono
  intro ts t rest hpieces key hkey
  obtain ⟨name, _, ⟨rfl, hname⟩, value, _, hvalue, semicolon, _, ⟨rfl, hsemicolon⟩, rfl, rfl⟩ :=
      hpieces
  refine .bind (.take hkey (by decide) _) (.bind (.take hname (by decide) _) ?_)
  rcases hvalue with ⟨rfl, rfl, hno⟩ | ⟨equals, _, rfl, hequals, hvalue⟩
  · refine .bind (.takeIf?_none fun t ht => ?_) ?_
    · simpa using hno t ht
    · exact .bind (.pure _ _) (.bind (.take hsemicolon (by decide) _) (.pure _ _))
  · refine .bind (.takeIf?_some (by simp [hequals]) (by simp [hequals]) _) ?_
    exact .bind hvalue (.bind (.take hsemicolon (by decide) _) (.pure _ _))

theorem ensures_expressionStatement :
    Ensures (expressionStatement (Parse.expression d)) (Follows (exprStmt e)) := by
  apply (Ensures.bind (ensures_expression d e hde) fun value =>
    Ensures.bind (Ensures.expect .semicolon _) fun _ => Ensures.pure (Tree.exprStmt value)).mono
  intro ts t rest hpieces
  obtain ⟨value, _, hvalue, semicolon, _, ⟨rfl, hsemicolon⟩, rfl, rfl⟩ := hpieces
  exact .bind hvalue (.bind (.take hsemicolon (by decide) _) (.pure _ _))

theorem ensures_forInitializer :
    Ensures (forInitializer (Parse.expression d)) (Follows (forInit e)) := by
  refine Ensures.accept?_bind (fun key hkey => Ensures.ite (fun hk => ?_) fun hk => ?_) ?_
  · apply Ensures.pure_of
    intro ts
    exact .peek?_cons hk (.bind (.take hk (by decide) _) (.pure _ _))
  · apply (ensures_varDeclaration hde).mono
    intro ts t rest ht
    have hvar : key.kind = .varKey := by simpa [hk] using hkey
    exact .peek?_cons hvar (ht key hvar)
  · apply (ensures_expressionStatement hde).mono
    intro ts t rest ht hnext
    refine .bind (.peek? _) ?_
    split
    · next heq => exact absurd heq (head?_ne hnext (by decide))
    · next heq => exact absurd heq (head?_ne hnext (by decide))
    · exact ht

end

theorem ensures_parameters :
    Ensures parameters fun ts names rest => ∀ opening : Token, opening.kind = .leftParen →
      Follows params (opening :: ts) names rest := by
  have hname : Ensures (expect .identifier .parameterName) (Follows (take .identifier)) := by
    apply (Ensures.expect _ _).mono
    intro ts t rest hpieces
    obtain ⟨rfl, ht⟩ := hpieces
    exact .take ht (by decide) _
  rw [parameters_eq, params_eq]
  apply (Ensures.bind (ensures_unless .rightParen [] (ensures_commaSeparated hname)) fun names =>
    Ensures.bind (Ensures.expect .rightParen _) fun _ => Ensures.pure names).mono
  intro ts _ rest hpieces opening hopening
  obtain ⟨names, _, hnames, closing, _, ⟨rfl, hclosing⟩, rfl, rfl⟩ := hpieces
  refine .bind (.take hopening (by decide) _) (.bind hnames ?_)
  exact .bind (.take hclosing (by decide) _) (.pure _ _)

/-- The strict front end reads a block with its opening brace. -/
def FollowsBlock (e : Nat) (ts : List Token) (ss : List Tree) (rest : List Token) : Prop :=
  ∀ brace : Token, brace.kind = .leftBrace → Follows (block e) (brace :: ts) ss rest

section

variable {d e : Nat} (hde : d ≤ e) (hs : Ensures (Parse.statement d) (Follows (statement e)))
  (hb : Ensures (Parse.block d) (FollowsBlock e))

include hde in
theorem ensures_printStatement :
    Ensures (printStatement (Parse.expression d)) fun ts t rest =>
      ∀ key : Token, key.kind = .printKey → Follows (printStmt e) (key :: ts) t rest := by
  apply (Ensures.bind (ensures_expression d e hde) fun value =>
    Ensures.bind (Ensures.expect .semicolon _) fun _ => Ensures.pure (Tree.printStmt value)).mono
  intro ts t rest hpieces key hkey
  obtain ⟨value, _, hvalue, semicolon, _, ⟨rfl, hsemicolon⟩, rfl, rfl⟩ := hpieces
  refine .bind (.take hkey (by decide) _) (.bind hvalue ?_)
  exact .bind (.take hsemicolon (by decide) _) (.pure _ _)

include hde in
theorem ensures_returnStatement (key : Token) :
    Ensures (returnStatement key (Parse.expression d)) fun ts t rest =>
      key.kind = .returnKey → Follows (returnStmt e) (key :: ts) t rest := by
  apply (Ensures.bind (ensures_optionalBefore hde .semicolon) fun value =>
    Ensures.bind (Ensures.expect .semicolon _) fun _ =>
    Ensures.pure (Tree.returnStmt key value)).mono
  intro ts t rest hpieces hkey
  obtain ⟨value, _, hvalue, semicolon, _, ⟨rfl, hsemicolon⟩, rfl, rfl⟩ := hpieces
  refine .bind (.take hkey (by decide) _) (.bind hvalue ?_)
  exact .bind (.take hsemicolon (by decide) _) (.pure _ _)

include hde hs in
theorem ensures_ifStatement :
    Ensures (ifStatement (Parse.expression d) (Parse.statement d)) fun ts t rest =>
      ∀ key : Token, key.kind = .ifKey → Follows (statement (e + 1)) (key :: ts) t rest := by
  rw [ifStatement_eq]
  apply (Ensures.bind (Ensures.expect .leftParen _) fun _ =>
    Ensures.bind (ensures_expression d e hde) fun c =>
    Ensures.bind (Ensures.expect .rightParen _) fun _ => Ensures.bind hs fun t =>
    Ensures.bind (ensures_optionalAfter .elseKey Tree.null hs) fun t' =>
    Ensures.pure (Tree.ifStmt c t t')).mono
  intro ts _ rest hpieces key hkey
  obtain ⟨opening, _, ⟨rfl, hopening⟩, c, _, hc, closing, _, ⟨rfl, hclosing⟩, t, _, ht, t', _, ht',
      rfl, rfl⟩ := hpieces
  refine .peek?_cons hkey ?_
  refine .bind (.take hkey (by decide) _) (.bind (.take hopening (by decide) _) ?_)
  refine .bind hc (.bind (.take hclosing (by decide) _) (.bind ht ?_))
  rcases ht' with ⟨rfl, rfl, hno⟩ | ⟨other, _, rfl, hother, ht'⟩
  · refine .bind (.takeIf?_none fun t ht => ?_) (.bind (.pure _ _) (.pure _ _))
    simpa using hno t ht
  · refine .bind (.takeIf?_some (by simp [hother]) (by simp [hother]) _) ?_
    exact .bind ht' (.pure _ _)

include hde hs in
theorem ensures_whileStatement :
    Ensures (whileStatement (Parse.expression d) (Parse.statement d)) fun ts t rest =>
      ∀ key : Token, key.kind = .whileKey → Follows (statement (e + 1)) (key :: ts) t rest := by
  apply (Ensures.bind (Ensures.expect .leftParen _) fun _ =>
    Ensures.bind (ensures_expression d e hde) fun c =>
    Ensures.bind (Ensures.expect .rightParen _) fun _ => Ensures.bind hs fun t =>
    Ensures.pure (Tree.whileStmt c t)).mono
  intro ts _ rest hpieces key hkey
  obtain ⟨opening, _, ⟨rfl, hopening⟩, c, _, hc, closing, _, ⟨rfl, hclosing⟩, t, _, ht, rfl, rfl⟩ :=
      hpieces
  refine .peek?_cons hkey ?_
  refine .bind (.take hkey (by decide) _) (.bind (.take hopening (by decide) _) ?_)
  exact .bind hc (.bind (.take hclosing (by decide) _) (.bind ht (.pure _ _)))

include hde hs in
theorem ensures_forStatement :
    Ensures (forStatement (Parse.expression d) (Parse.statement d)) fun ts t rest =>
      ∀ key : Token, key.kind = .forKey → Follows (statement (e + 1)) (key :: ts) t rest := by
  apply (Ensures.bind (Ensures.expect .leftParen _) fun _ =>
    Ensures.bind (ensures_forInitializer hde) fun i =>
    Ensures.bind (ensures_optionalBefore hde .semicolon) fun c =>
    Ensures.bind (Ensures.expect .semicolon _) fun _ =>
    Ensures.bind (ensures_optionalBefore hde .rightParen) fun n =>
    Ensures.bind (Ensures.expect .rightParen _) fun _ => Ensures.bind hs fun t =>
    Ensures.pure (Tree.desugarFor i c n t)).mono
  intro ts _ rest hpieces key hkey
  obtain ⟨opening, _, ⟨rfl, hopening⟩, i, _, hi, c, _, hc, semicolon, _, ⟨rfl, hsemicolon⟩, n, _,
      hn, closing, _, ⟨rfl, hclosing⟩, t, _, ht, rfl, rfl⟩ := hpieces
  refine .peek?_cons hkey ?_
  refine .bind (.take hkey (by decide) _) (.bind (.take hopening (by decide) _) ?_)
  refine .bind hi (.bind hc (.bind (.take hsemicolon (by decide) _) ?_))
  exact .bind hn (.bind (.take hclosing (by decide) _) (.bind ht (.pure _ _)))

include hde hs hb in
theorem ensures_statementWith :
    Ensures (statementWith (Parse.expression d) (Parse.statement d) (Parse.block d))
      (Follows (statement (e + 1))) := by
  refine Ensures.accept?_bind (fun key hkey => ?_) ?_
  · dsimp only
    split
    · next hk =>
      apply (ensures_printStatement hde).mono
      exact fun ts t rest ht => .peek?_cons hk (ht key hk)
    · next hk => exact (ensures_ifStatement hde hs).mono fun _ _ _ ht => ht key hk
    · next hk => exact (ensures_whileStatement hde hs).mono fun _ _ _ ht => ht key hk
    · next hk => exact (ensures_forStatement hde hs).mono fun _ _ _ ht => ht key hk
    · next hk =>
      apply (ensures_returnStatement hde key).mono
      exact fun ts t rest ht => .peek?_cons hk (ht hk)
    · apply (Ensures.bind hb fun body => Ensures.pure (Tree.block (.list body))).mono
      intro ts t rest hpieces
      obtain ⟨body, _, hbody, rfl, rfl⟩ := hpieces
      -- the opening brace is the only kind that is left
      have hbrace : key.kind = .leftBrace := by
        simp only [statementKinds, List.mem_cons, List.not_mem_nil, or_false] at hkey
        grind
      exact .peek?_cons hbrace (.bind (hbody key hbrace) (.pure _ _))
  · apply (ensures_expressionStatement hde).mono
    intro ts t rest ht hnext
    refine .bind (.peek? _) ?_
    split
    -- the keys that start other statements are not next
    case h_7 => exact ht
    all_goals next heq => exact absurd heq (head?_ne hnext (by decide))

include hde hs hb in
theorem ensures_declarationWith :
    Ensures (declarationWith (Parse.expression d) (Parse.statement d) (Parse.block d))
      (Follows (declaration (e + 1))) := by
  refine Ensures.accept?_bind (fun key hkey => Ensures.ite (fun hk => ?_) fun hk => ?_) ?_
  · apply (Ensures.bind (Ensures.expect .identifier _) fun name =>
      Ensures.bind (Ensures.expect .leftParen _) fun _ =>
      Ensures.bind ensures_parameters fun names =>
      Ensures.bind (Ensures.expect .leftBrace _) fun _ => Ensures.bind hb fun body =>
      Ensures.pure (Tree.funDecl name (.list (names.map .token)) (.list body))).mono
    intro ts t rest hpieces
    obtain ⟨name, _, ⟨rfl, hname⟩, opening, _, ⟨rfl, hopening⟩, names, _, hnames, brace, _,
      ⟨rfl, hbrace⟩, body, _, hbody, rfl, rfl⟩ := hpieces
    refine .peek?_cons hk (.bind (.take hk (by decide) _) (.bind (.take hname (by decide) _) ?_))
    exact .bind (hnames opening hopening) (.bind (hbody brace hbrace) (.pure _ _))
  · apply (ensures_varDeclaration hde).mono
    intro ts t rest ht
    have hvar : key.kind = .varKey := by simpa [hk] using hkey
    exact .peek?_cons hvar (ht key hvar)
  · apply hs.mono
    intro ts t rest ht hnext
    refine .bind (.peek? _) ?_
    split
    · next heq => exact absurd heq (head?_ne hnext (by decide))
    · next heq => exact absurd heq (head?_ne hnext (by decide))
    · exact ht

end

/-- One declaration in front of those that were read, or nothing at a closing brace and at the
end. -/
def nextDeclaration (declaration : Step Tree) (statements : List Tree) :
    Step (Option (List Tree)) := do
  match ← peek? with
  | none => return none
  | some .rightBrace => return none
  | some _ => return some ((← declaration) :: statements)

theorem declarations_eq (declaration : Step Tree) :
    declarations declaration = (do
      let all ← extendAll (nextDeclaration declaration) []
      return all.reverse) := rfl

/-- Nothing is read where the next token is no start of a declaration. -/
theorem follows_nextDeclaration_none {declaration : Step Tree} {statements : List Tree}
    {ts : List Token} (h : ∀ kind ∈ ts.head?.map (·.kind), kind = .rightBrace) :
    Follows (nextDeclaration declaration statements) ts none ts := by
  refine .bind (.peek? ts) ?_
  cases hnext : ts.head?.map (·.kind) with
  | none => exact .pure _ _
  | some kind =>
    rw [h kind hnext]
    exact .pure _ _

theorem follows_nextDeclaration_some {declaration : Step Tree} {statements : List Tree} {t : Token}
    {ts rest : List Token} {s : Tree} (ht : t.kind ≠ .rightBrace)
    (h : Follows declaration (t :: ts) s rest) :
    Follows (nextDeclaration declaration statements) (t :: ts) (some (s :: statements)) rest := by
  refine .bind (.peek? (t :: ts)) ?_
  dsimp only [List.head?_cons, Option.map_some]
  split
  · next heq => cases heq
  · next heq => exact absurd (Option.some.inj heq) ht
  · exact .bind h (.pure _ _)

/-- No declaration starts with a closing brace, so that the strict front end ends the list where the
parser does. -/
theorem ensures_declarationStep {d e : Nat} {stop : Kind → Bool}
    (hstop : ∀ kind, stop kind = true → kind = .rightBrace)
    (h : Ensures (Parse.declaration d) fun ts o rest =>
      ∃ t, o = some t ∧ Follows (declaration e) ts t rest) (statements : List Tree) :
    Ensures (declarationStep stop (Parse.declaration d) statements) fun ts o rest =>
      Follows (nextDeclaration (declaration e) statements) ts o rest ∧
        ∀ b, o = some b → rest.length < ts.length := by
  have hdeclaration : Ensures (Parse.declaration d) fun ts o rest => ∃ t, o = some t ∧
      Spans (StmtPhrase.declaration.Derives .nearest) ts t rest ∧
      Follows (declaration e) ts t rest := by
    apply ((Parse.ensures_declaration d).and h).mono
    intro ts o rest hpieces
    obtain ⟨⟨t, rfl, hspan⟩, t', heq, ht⟩ := hpieces
    cases heq
    exact ⟨t, rfl, hspan, ht⟩
  refine Ensures.declarationStep hdeclaration (fun ts hts => ⟨?_, ?_⟩) fun ts t rest hpieces => ?_
  · exact follows_nextDeclaration_none fun kind hkind => hstop kind (hts kind hkind)
  · exact fun _ hnone => by cases hnone
  · obtain ⟨⟨us, rfl, hus⟩, ht⟩ := hpieces
    -- the derivation gives the first token, which is no closing brace
    obtain ⟨first, us, rfl, hfirst⟩ := hus.starts rfl
    have hne : first.kind ≠ .rightBrace := by
      intro heq
      rw [heq] at hfirst
      exact absurd hfirst (by decide)
    have hshorter : rest.length < (first :: us ++ rest).length := by
      simp only [List.length_append, List.length_cons]
      omega
    exact ⟨follows_nextDeclaration_some hne ht, fun _ _ => hshorter⟩

theorem ensures_declarationsUntil {d e : Nat} {stop : Kind → Bool}
    (hstop : ∀ kind, stop kind = true → kind = .rightBrace)
    (h : Ensures (Parse.declaration d) fun ts o rest =>
      ∃ t, o = some t ∧ Follows (declaration e) ts t rest) :
    Ensures (declarationsUntil stop (Parse.declaration d))
      (Follows (declarations (declaration e))) := by
  rw [declarationsUntil_eq, declarations_eq]
  have hend (statements : List Tree) :
      Follows (nextDeclaration (declaration e) statements) [] none [] :=
    follows_nextDeclaration_none fun _ hnone => by cases hnone
  apply (Ensures.bind (ensures_repeated hend (ensures_declarationStep hstop h) []) fun all =>
    Ensures.pure all.reverse).mono
  intro ts _ rest hpieces
  obtain ⟨all, _, hall, rfl, rfl⟩ := hpieces
  exact .bind hall (.pure _ _)

mutual

theorem ensures_declaration : ∀ d e, d ≤ e → Ensures (Parse.declaration d) fun ts o rest =>
    ∃ t, o = some t ∧ Follows (declaration e) ts t rest
  | 0, _, _ => .throw
  | d + 1, 0, h => by omega
  | d + 1, e + 1, h => Ensures.recover (ensures_declarationWith (by omega)
      (ensures_statement d e (by omega)) (ensures_block d e (by omega)))

theorem ensures_statement :
    ∀ d e, d ≤ e → Ensures (Parse.statement d) (Follows (statement e))
  | 0, _, _ => .throw
  | d + 1, 0, h => by omega
  | d + 1, e + 1, h => ensures_statementWith (by omega)
      (ensures_statement d e (by omega)) (ensures_block d e (by omega))

theorem ensures_block : ∀ d e, d ≤ e → Ensures (Parse.block d) (FollowsBlock e)
  | 0, _, _ => .throw
  | d + 1, 0, h => by omega
  | d + 1, e + 1, h => by
    -- the braces are taken at different places: here the closing one, by the caller the opening one
    apply (Ensures.bind (ensures_declarationsUntil (by simp) (ensures_declaration d e (by omega)))
      fun ss => Ensures.bind (Ensures.expect .rightBrace _) fun _ => Ensures.pure ss).mono
    intro ts _ rest hpieces brace hbrace
    obtain ⟨ss, _, hss, closing, _, ⟨rfl, hclosing⟩, rfl, rfl⟩ := hpieces
    refine .bind (.take hbrace (by decide) _) (.bind hss ?_)
    exact .bind (.take hclosing (by decide) _) (.pure _ _)

end

theorem ensures_program (d line : Nat) :
    Ensures (Parse.program d) (Follows (program (.finished line) d)) := by
  have h : Ensures (declarationsUntil (fun _ => false) (Parse.declaration d)) _ :=
    ensures_declarationsUntil nofun (ensures_declaration d d (Nat.le_refl d))
  -- a strict program also ends where the tokens do
  apply ((Parse.ensures_program d).and h).mono
  intro ts ss rest hpieces
  obtain ⟨⟨-, rfl⟩, hss⟩ := hpieces
  exact .bind hss (.bind (.peek? _) (.pure _ _))

end Strict

open Grammar Parse

/-- What the parser yields for a text, in terms of the tokens before the end. -/
theorem parseSource_eq (source : String) :
    parseSource source =
      { statements := (parseBody depthLimit (bodyTokens source)).1
        diagnostics := (scan source).diagnostics ++ (parseBody depthLimit (bodyTokens source)).2.map
          (·.diagnostic (endToken (lastLine source.toList))) } := by
  simp only [parseSource, tokens_scan]
  rw [parseTokens?_append (fun _ => bodyTokens_kind) rfl]

/-- A text without diagnostics is scanned without any, and its tokens are a program. -/
theorem program_of_parseSource {source : String} (h : (parseSource source).diagnostics = []) :
    (scan source).diagnostics = [] ∧
      parseBody depthLimit (bodyTokens source) = ((parseSource source).statements, []) ∧
      Program .nearest (bodyTokens source) (parseSource source).statements := by
  rw [parseSource_eq] at h ⊢
  obtain ⟨hscan, hparse⟩ := List.append_eq_nil_iff.1 h
  have hbody : parseBody depthLimit (bodyTokens source) =
      ((parseBody depthLimit (bodyTokens source)).1, []) :=
    Prod.ext rfl (List.map_eq_nil_iff.1 hparse)
  exact ⟨hscan, hbody, program_of_parseBody (d := 9999) hbody⟩

/-- Whatever the parser accepts, the strict front end accepts, with the same statements, token for
token. -/
theorem parseStrict_of_parseSource (source : String) (h : (parseSource source).diagnostics = []) :
    parseStrict source = .ok (parseSource source).statements := by
  obtain ⟨hscan, hbody, hprogram⟩ := program_of_parseSource h
  obtain ⟨ts, line, hcut, hts⟩ :=
    Strict.cut_of_scan hscan (StmtPhrase.Derives.dotless hprogram)
  -- both limits are the same number, so the strict front end has enough depth
  obtain ⟨ss, s, hrun⟩ := neverAborts_program 9999 (.start (bodyTokens source))
  have hrun : Parse.program depthLimit (.start (bodyTokens source)) = .ok ss s := hrun
  rw [parseBody, hrun] at hbody
  obtain ⟨rfl, hnone⟩ := Prod.mk.inj hbody
  have hfollows :=
    (Strict.ensures_program depthLimit line).ok hrun (List.reverse_eq_nil_iff.1 hnone)
  obtain ⟨rest, -, hstrict⟩ := hfollows ts hts
  have hstrict : Strict.program (.finished line) Strict.depthLimit ts = .ok (_, rest) := hstrict
  rw [parseStrict, hcut]
  dsimp only
  rw [hstrict]

end Scriptlet
