import Scriptlet.Proofs.Parse.Completeness

/-!
# What the parser does not look at

A parsing step looks at no token behind the one in front of which it stops. So a step that ended
without a complaint, and not at the end of the tokens, does the same if tokens are put behind. Where
a step ends at the end of the tokens, that depends on how it ends: an expression may go on with what
follows, but a statement knows where it ends by itself, unless it ends in a conditional and an
`else` follows.

## Main definitions

* `Parse.Carries` — what a step does when tokens are put behind
* `Parse.Within`, `Parse.Stops`, `Parse.Takes` — the contracts of the steps in expressions and of
  the steps that know where they end

## Main results

* `Parse.within_expression` — what an expression reads in front of other tokens
* `Parse.takes_declaration` — a declaration knows where it ends
-/

namespace Scriptlet

namespace Parse

variable {α β : Type} {behind : List Token}

/-- With the tokens `behind` put behind, the step yields the same and leaves them alone. -/
def Carries (p : Parse α) (behind ts : List Token) (a : α) (rest : List Token) : Prop :=
  ∀ cs n, p ⟨ts ++ behind, cs, n⟩ = .ok a ⟨rest ++ behind, cs, n⟩

/-- If `p` ends without a complaint and does not reach the end, then `q` does the same with tokens
put behind. -/
def Within (behind : List Token) (p q : Parse α) : Prop :=
  Ensures p fun ts a rest => rest ≠ [] → Carries q behind ts a rest

/-- If `p` ends without a complaint, then `q` does the same with tokens put behind. -/
def Stops (behind : List Token) (p q : Parse α) : Prop :=
  Ensures p fun ts a rest => Carries q behind ts a rest

/-- Besides, a token was taken. -/
def Takes (behind : List Token) (p q : Parse α) : Prop :=
  Ensures p fun ts a rest => rest.length < ts.length ∧ Carries q behind ts a rest

/-! ### Rules -/

theorem Carries.bind {q : Parse α} {g : α → Parse β} {ts mid rest : List Token} {a : α} {b : β}
    (h : Carries q behind ts a mid) (hg : Carries (g a) behind mid b rest) :
    Carries (q >>= g) behind ts b rest := by
  intro cs n
  rw [bind_apply, h cs n]
  exact hg cs n

section Rules

variable {p q : Parse α} {f g : α → Parse β}

theorem Takes.stops (h : Takes behind p q) : Stops behind p q := h.mono fun _ _ _ h => h.2

theorem Stops.within (h : Stops behind p q) : Within behind p q := h.mono fun _ _ _ h _ => h

theorem Takes.within (h : Takes behind p q) : Within behind p q := h.stops.within

theorem stops_pure (a : α) : Stops behind (pure a) (pure a) :=
  Ensures.pure_of fun _ _ _ => rfl

theorem takes_throw : Takes behind (throw .tooDeep : Parse α) q := Ensures.throw

theorem takes_fail (cause : Cause) : Takes behind (fail cause : Parse α) q := Ensures.fail cause

/-- What is left of something that is left is a suffix of it, so the end was not reached before. -/
theorem ne_nil_of_suffix {mid rest : List Token} (hsuffix : rest <:+ mid) (hrest : rest ≠ []) :
    mid ≠ [] := by
  rintro rfl
  exact hrest (List.suffix_nil.1 hsuffix)

theorem Within.bind (h : Within behind p q) (hf : ∀ a, Within behind (f a) (g a)) :
    Within behind (p >>= f) (q >>= g) := by
  apply (Ensures.bind h fun a => (hf a).suffix).mono
  intro ts b rest hpieces hrest
  obtain ⟨a, mid, hcarries, hcarries', hsuffix⟩ := hpieces
  exact (hcarries (ne_nil_of_suffix hsuffix hrest)).bind (hcarries' hrest)

theorem Stops.bind (h : Stops behind p q) (hf : ∀ a, Stops behind (f a) (g a)) :
    Stops behind (p >>= f) (q >>= g) := by
  apply (Ensures.bind h hf).mono
  intro ts b rest hpieces
  obtain ⟨a, mid, hcarries, hcarries'⟩ := hpieces
  exact hcarries.bind hcarries'

theorem Takes.bind (h : Takes behind p q) (hf : ∀ a, Stops behind (f a) (g a)) :
    Takes behind (p >>= f) (q >>= g) := by
  apply (Ensures.bind h fun a => (hf a).suffix).mono
  intro ts b rest hpieces
  obtain ⟨a, mid, ⟨hlt, hcarries⟩, hcarries', hsuffix⟩ := hpieces
  exact ⟨Nat.lt_of_le_of_lt hsuffix.length_le hlt, hcarries.bind hcarries'⟩

/-- A step that takes a token shows that the end was not reached before it. -/
theorem Within.bind_takes (h : Within behind p q) (hf : ∀ a, Takes behind (f a) (g a)) :
    Takes behind (p >>= f) (q >>= g) := by
  apply (Ensures.bind h.suffix hf).mono
  intro ts b rest hpieces
  obtain ⟨a, mid, ⟨hcarries, hsuffix⟩, hlt, hcarries'⟩ := hpieces
  have hmid : mid ≠ [] := List.ne_nil_of_length_pos (Nat.lt_of_le_of_lt (Nat.zero_le _) hlt)
  exact ⟨Nat.lt_of_lt_of_le hlt hsuffix.length_le, (hcarries hmid).bind hcarries'⟩

theorem Within.ite {c : Prop} [Decidable c] {p' q' : Parse α} (h : Within behind p q)
    (h' : Within behind p' q') :
    Within behind (if c then p else p') (if c then q else q') := by
  split
  · exact h
  · exact h'

/-! ### The basic steps -/

/-- What comes after a look at the state may not depend on what was seen. -/
theorem Within.get_bind {f g : State → Parse β} (h : ∀ s s', Within behind (f s) (g s')) :
    Within behind (get >>= f) (get >>= g) := by
  intro s
  have hseen (s' : State) := h s s' s
  rw [bind_apply]
  change Fulfils _ s (f s s)
  cases hf : f s s with
  | ok b t =>
    simp only [hf] at hseen
    refine ⟨(hseen s).1, fun hc hrest cs n => ?_⟩
    rw [bind_apply]
    exact (hseen _).2 hc hrest cs n
  | error e t =>
    simp only [hf] at hseen
    cases e <;> exact hseen s

theorem within_nextKind? : Within behind nextKind? nextKind? := by
  apply Ensures.nextKind?.mono
  intro ts kind rest hpieces hrest cs n
  obtain ⟨rfl, rfl⟩ := hpieces
  cases rest with
  | nil => exact absurd rfl hrest
  | cons t rest => rfl

theorem within_nextIs (kind : Kind) : Within behind (nextIs kind) (nextIs kind) :=
  within_nextKind?.bind fun _ => (stops_pure _).within

/-- A token is taken or left, whatever is put behind, unless it is the first of what is put
behind. -/
theorem ensures_accept? (kinds : List Kind) :
    Ensures (accept? kinds) fun ts o rest => (ts ≠ [] ∨ NextNot kinds behind) →
      Carries (accept? kinds) behind ts o rest := by
  rintro ⟨ts, cs, n⟩
  rcases accept?_cases kinds ⟨ts, cs, n⟩ with ⟨hnext, hrun⟩ | ⟨t, rest, rfl, hk, hrun⟩
  · rw [hrun]
    refine ⟨.refl _, fun _ h cs n => accept?_of_notMem ?_⟩
    intro t ht
    cases ts with
    | nil => exact (h.resolve_left fun h => h rfl) t ht
    | cons t' rest => exact hnext t ht
  · rw [hrun]
    exact ⟨⟨List.suffix_cons _ _, List.suffix_rfl⟩, fun _ _ cs n => accept?_cons hk⟩

theorem within_accept? (kinds : List Kind) : Within behind (accept? kinds) (accept? kinds) := by
  apply (ensures_accept? kinds).suffix.mono
  rintro ts o rest ⟨h, hsuffix⟩ hrest
  exact h (.inl (ne_nil_of_suffix hsuffix hrest))

theorem stops_accept? {kinds : List Kind} (h : NextNot kinds behind) :
    Stops behind (accept? kinds) (accept? kinds) :=
  (ensures_accept? kinds).mono fun _ _ _ hcarries => hcarries (.inr h)

theorem takes_expect (kind : Kind) (cause : Cause) :
    Takes behind (expect kind cause) (expect kind cause) := by
  apply (Ensures.expect kind cause).mono
  rintro _ t rest ⟨rfl, hkind⟩
  refine ⟨Nat.lt_succ_self _, fun cs n => ?_⟩
  rw [expect, bind_apply, List.cons_append, accept?_cons (List.mem_singleton.2 hkind)]
  rfl

/-- A step that begins with an optional token and takes one in any case. -/
theorem takes_accept?_bind {kinds : List Kind} {f : Option Token → Parse α}
    (htook : ∀ t, Stops behind (f (some t)) (f (some t)))
    (hleft : Takes behind (f none) (f none)) :
    Takes behind (accept? kinds >>= f) (accept? kinds >>= f) := by
  refine Ensures.accept?_bind (fun t ht => ?_) ?_
  · apply (htook t).suffix.mono
    rintro ts a rest ⟨hcarries, hsuffix⟩
    refine ⟨Nat.lt_succ_of_le hsuffix.length_le, fun cs n => ?_⟩
    rw [bind_apply, List.cons_append, accept?_cons ht]
    exact hcarries cs n
  · apply hleft.mono
    rintro ts a rest ⟨hlt, hcarries⟩ hnone
    refine ⟨hlt, fun cs n => ?_⟩
    have hnext : NextNot kinds (ts ++ behind) := by
      cases ts with
      | nil => cases hlt
      | cons t rest => exact NextNot.cons (hnone t rfl)
    rw [bind_apply, accept?_of_notMem hnext]
    exact hcarries cs n

end Rules

/-! ### Repetition -/

/-- A step that goes on takes a token. -/
def Progresses (step : α → Parse (Option α)) : Prop :=
  ∀ a, Ensures (step a) fun ts o rest => o.isSome → rest.length < ts.length

/-- The fuel of a repetition does not matter, as long as there is a unit of it for each token. -/
theorem Within.repeated {step : α → Parse (Option α)} (h : ∀ a, Within behind (step a) (step a))
    (hprogress : Progresses step) (a : α) :
    Within behind (repeated step a) (repeated step a) := by
  -- what a round and what all rounds do, with any amount of fuel that suffices
  let Round (a : α) (ts : List Token) (o : Option α) (rest : List Token) : Prop :=
    ((rest ≠ [] → Carries (step a) behind ts o rest) ∧
      (o.isSome → rest.length < ts.length)) ∧ rest <:+ ts
  let Loop (a : α) (ts : List Token) (c : α) (rest : List Token) : Prop :=
    rest <:+ ts ∧ (rest ≠ [] → ∀ n, ts.length ≤ n → Carries (iterate step n a) behind ts c rest)
  have hloop : Ensures (Parse.repeated step a) (Loop a) := by
    refine Ensures.repeated (S := Round) (R := Loop) ?_ ?_ ?_ ?_ ?_ a
    · exact fun a => ((h a).and (hprogress a)).suffix
    · exact fun a b ts mid hround => hround.1.2 rfl
    · exact fun a => ⟨List.suffix_rfl, fun hnil => absurd rfl hnil⟩
    · intro a ts rest hround
      refine ⟨hround.2, fun hrest n hn => ?_⟩
      have hpos := List.length_pos_iff.2 (ne_nil_of_suffix hround.2 hrest)
      cases n with
      | zero => omega
      | succ n => exact (hround.1.1 hrest).bind fun _ _ => rfl
    · intro a b c ts mid rest hround hloop
      refine ⟨hloop.1.trans hround.2, fun hrest n hn => ?_⟩
      have hlt := hround.1.2 rfl
      cases n with
      | zero => omega
      | succ n =>
        have hmid := ne_nil_of_suffix hloop.1 hrest
        exact (hround.1.1 hmid).bind (hloop.2 hrest n (by omega))
  apply hloop.mono
  intro ts c rest hall hrest cs n
  rw [Parse.repeated, bind_apply]
  refine hall.2 hrest _ ?_ cs n
  simp

/-- A loop whose rounds begin with a token that they cannot do without. -/
theorem progresses_of_accept? {kinds : List Kind} {step : α → Parse (Option α)}
    {f : α → Option Token → Parse (Option α)} (heq : ∀ a, step a = accept? kinds >>= f a)
    (hnone : ∀ a, f a none = pure none) (hsteady : ∀ a t, Steady (f a (some t))) :
    Progresses step := by
  intro a
  rw [heq]
  refine Ensures.accept?_bind (fun t _ => ?_) ?_
  · apply (hsteady a t).suffix.mono
    intro ts o rest hpieces _
    exact Nat.lt_succ_of_le hpieces.2.length_le
  · rw [hnone]
    exact Ensures.pure_of fun ts _ hsome => by cases hsome

section Separated

variable {item : Parse β} (hitem : Within behind item item)
include hitem

theorem within_separated (kinds : List Kind) (f : α → Token → β → α) (a : α) :
    Within behind (repeated (separatedStep kinds f item) a)
      (repeated (separatedStep kinds f item) a) := by
  refine Within.repeated (fun a => ?_) ?_ a
  · refine (within_accept? kinds).bind fun o => ?_
    cases o with
    | none => exact (stops_pure _).within
    | some sep => exact hitem.bind fun _ => (stops_pure _).within
  · refine progresses_of_accept? (fun _ => rfl) (fun _ => rfl) fun a t => ?_
    exact .bind hitem.steady fun _ => .pure _

theorem within_commaSeparated : Within behind (commaSeparated item) (commaSeparated item) := by
  rw [commaSeparated_eq]
  exact hitem.bind fun first =>
    (within_separated hitem _ _ [first]).bind fun _ => (stops_pure _).within

end Separated

/-! ### Expressions -/

section Expressions

variable {e : Parse Tree} (he : Within behind e e)
include he

theorem within_callArguments : Within behind (callArguments e) (callArguments e) := by
  rw [callArguments_eq]
  refine Within.bind ?_ fun _ => ((takes_expect _ _).bind fun _ => stops_pure _).within
  exact (within_nextIs _).bind fun _ => .ite (stops_pure _).within (within_commaSeparated he)

theorem within_trailer? (callee : Tree) :
    Within behind (trailer? e callee) (trailer? e callee) := by
  refine (within_accept? _).bind fun o => ?_
  cases o with
  | none => exact (stops_pure _).within
  | some t =>
    refine .ite ?_ ?_
    · exact (within_callArguments he).bind fun _ => (stops_pure _).within
    · exact he.bind fun _ => ((takes_expect _ _).bind fun _ => stops_pure _).within

theorem within_suffixes (callee : Tree) :
    Within behind (repeated (trailer? e) callee) (repeated (trailer? e) callee) := by
  refine Within.repeated (within_trailer? he) ?_ callee
  refine progresses_of_accept? (fun _ => rfl) (fun _ => rfl) fun callee t => ?_
  refine Ensures.ite (fun _ => ?_) fun _ => ?_
  · exact Steady.bind (within_callArguments he).steady fun _ => .pure _
  · exact Steady.bind he.steady fun _ => Steady.bind (Ensures.expect _ _).steady fun _ => .pure _

theorem within_primaryWith : Within behind (primaryWith e) (primaryWith e) := by
  refine (within_accept? _).bind fun o => ?_
  cases o with
  | none => exact (takes_fail _).within
  | some t =>
    dsimp only
    split
    case h_5 => exact he.bind fun _ => ((takes_expect _ _).bind fun _ => stops_pure _).within
    all_goals exact (stops_pure _).within

end Expressions

/-- The tokens that an assignment remembers serve complaints only. -/
theorem stops_assignTo (left value : Tree) (equals equals' : List Token) :
    Stops behind (assignTo left value equals) (assignTo left value equals') := by
  apply (ensures_assignTo left value equals).mono
  intro ts e rest hpieces cs n
  obtain ⟨rfl, hassigned⟩ := hpieces
  cases hassigned <;> rfl

mutual

theorem within_expression : ∀ d, Within behind (expression d) (expression d)
  | 0 => takes_throw.within
  | d + 1 => within_assignment d

theorem within_assignment : ∀ d, Within behind (assignment d) (assignment d)
  | 0 => takes_throw.within
  | d + 1 => by
    refine (within_binary d levels).bind fun left => Within.get_bind fun s s' => ?_
    refine (within_accept? _).bind fun o => ?_
    cases o with
    | none => exact (stops_pure _).within
    | some _ => exact (within_assignment d).bind fun value => (stops_assignTo _ _ _ _).within

theorem within_binary : ∀ d levels, Within behind (binary d levels) (binary d levels)
  | 0, _ => takes_throw.within
  | d + 1, level :: tighter => by
    rw [binary, foldLevel_eq]
    exact (within_binary d tighter).bind fun first =>
      within_separated (within_binary d tighter) _ _ first
  | d + 1, [] => within_unary d

theorem within_unary : ∀ d, Within behind (unary d) (unary d)
  | 0 => takes_throw.within
  | d + 1 => by
    refine (within_accept? _).bind fun o => ?_
    cases o with
    | none => exact within_call d
    | some op => exact (within_unary d).bind fun _ => (stops_pure _).within

theorem within_call : ∀ d, Within behind (call d) (call d)
  | 0 => takes_throw.within
  | d + 1 => (within_primary d).bind fun e => within_suffixes (within_expression d) e

theorem within_primary : ∀ d, Within behind (primary d) (primary d)
  | 0 => takes_throw.within
  | d + 1 => within_primaryWith (within_expression d)

end

/-! ### Statements -/

section Statements

variable {e s : Parse Tree} {b : Parse (List Tree)} (he : Within behind e e)
  (hs : Takes behind s s) (hb : Takes behind b b)

section

include he

theorem within_optionalBefore (kind : Kind) :
    Within behind (optionalBefore kind e) (optionalBefore kind e) :=
  (within_nextIs kind).bind fun _ => .ite (stops_pure _).within he

theorem takes_varDeclaration : Takes behind (varDeclaration e) (varDeclaration e) := by
  rw [varDeclaration_eq]
  refine (takes_expect _ _).bind fun name => Takes.stops (Within.bind_takes ?_ fun _ =>
    (takes_expect _ _).bind fun _ => stops_pure _)
  refine (within_accept? _).bind fun o => ?_
  cases o with
  | none => exact (stops_pure _).within
  | some _ => exact he

theorem takes_expressionStatement :
    Takes behind (expressionStatement e) (expressionStatement e) :=
  he.bind_takes fun _ => (takes_expect _ _).bind fun _ => stops_pure _

theorem takes_printStatement : Takes behind (printStatement e) (printStatement e) :=
  he.bind_takes fun _ => (takes_expect _ _).bind fun _ => stops_pure _

theorem takes_returnStatement (keyword : Token) :
    Takes behind (returnStatement keyword e) (returnStatement keyword e) :=
  (within_optionalBefore he _).bind_takes fun _ => (takes_expect _ _).bind fun _ => stops_pure _

theorem takes_forInitializer : Takes behind (forInitializer e) (forInitializer e) := by
  refine takes_accept?_bind (fun t => ?_) (takes_expressionStatement he)
  by_cases ht : t.kind = .semicolon
  · simpa only [ht, if_true] using stops_pure _
  · simpa only [ht, if_false] using (takes_varDeclaration he).stops

end

theorem takes_parameters : Takes behind parameters parameters := by
  rw [parameters_eq]
  refine Within.bind_takes ?_ fun _ => (takes_expect _ _).bind fun _ => stops_pure _
  exact (within_nextIs _).bind fun _ => .ite (stops_pure _).within
    (within_commaSeparated (takes_expect _ _).within)

include hb in
theorem takes_funDeclaration : Takes behind (funDeclaration b) (funDeclaration b) :=
  (takes_expect _ _).bind fun _ => Takes.stops <| (takes_expect _ _).bind fun _ =>
    Takes.stops <| takes_parameters.bind fun _ => Takes.stops <| (takes_expect _ _).bind fun _ =>
      Takes.stops <| hb.bind fun _ => stops_pure _

include he hs in
theorem takes_whileStatement : Takes behind (whileStatement e s) (whileStatement e s) :=
  (takes_expect _ _).bind fun _ => Takes.stops <| he.bind_takes fun _ =>
    (takes_expect _ _).bind fun _ => Takes.stops <| hs.bind fun _ => stops_pure _

include he hs in
theorem takes_forStatement : Takes behind (forStatement e s) (forStatement e s) :=
  (takes_expect _ _).bind fun _ => Takes.stops <| (takes_forInitializer he).bind fun _ =>
    Takes.stops <| (within_optionalBefore he _).bind_takes fun _ => (takes_expect _ _).bind fun _ =>
      Takes.stops <| (within_optionalBefore he _).bind_takes fun _ =>
        (takes_expect _ _).bind fun _ => Takes.stops <| hs.bind fun _ => stops_pure _

include he hs in
/-- A conditional may end with its first branch, where what is put behind must not be an `else`. -/
theorem takes_ifStatement (helse : NextNot [.elseKey] behind) :
    Takes behind (ifStatement e s) (ifStatement e s) := by
  rw [ifStatement_eq]
  refine (takes_expect _ _).bind fun _ => Takes.stops <| he.bind_takes fun _ =>
    (takes_expect _ _).bind fun _ => Takes.stops <| hs.bind fun _ => Stops.bind ?_ fun _ =>
      stops_pure _
  refine (stops_accept? helse).bind fun o => ?_
  cases o with
  | none => exact stops_pure _
  | some _ => exact hs.stops

include he hs hb in
theorem takes_statementWith (helse : NextNot [.elseKey] behind) :
    Takes behind (statementWith e s b) (statementWith e s b) := by
  refine takes_accept?_bind (fun t => ?_) (takes_expressionStatement he)
  dsimp only
  split
  · exact (takes_printStatement he).stops
  · exact (takes_ifStatement he hs helse).stops
  · exact (takes_whileStatement he hs).stops
  · exact (takes_forStatement he hs).stops
  · exact (takes_returnStatement he t).stops
  · exact (hb.bind fun _ => stops_pure _).stops

include he hs hb in
theorem takes_declarationWith : Takes behind (declarationWith e s b) (declarationWith e s b) := by
  refine takes_accept?_bind (fun t => ?_) hs
  by_cases ht : t.kind = .funKey
  · simpa only [ht, if_true] using (takes_funDeclaration hb).stops
  · simpa only [ht, if_false] using (takes_varDeclaration he).stops

end Statements

theorem Takes.recover {p q : Parse α} (h : Takes behind p q) :
    Takes behind (recover p) (recover q) := by
  apply (Ensures.recover h).mono
  intro ts o rest hpieces
  obtain ⟨a, rfl, hlt, hcarries⟩ := hpieces
  refine ⟨hlt, fun cs n => ?_⟩
  rw [Parse.recover, hcarries cs n]

/-- The loop over declarations, where it ends before the tokens do. -/
theorem within_declarationsUntil {declaration : Parse (Option Tree)} (stop : Kind → Bool)
    (h : Takes behind declaration declaration) :
    Within behind (declarationsUntil stop declaration) (declarationsUntil stop declaration) := by
  rw [declarationsUntil_eq]
  have hround {f : Option Tree → Parse (Option (List Tree))} {ss : List Tree}
      (hread : ∀ s, f (some s) = pure (some (s :: ss))) (hgivenUp : f none = pure (some ss)) :
      Takes behind (declaration >>= f) (declaration >>= f) := by
    refine h.bind fun o => ?_
    cases o with
    | none =>
      rw [hgivenUp]
      exact stops_pure _
    | some s =>
      rw [hread]
      exact stops_pure _
  refine Within.bind (Within.repeated (fun ss => ?_) (fun ss => ?_) []) fun _ =>
    (stops_pure _).within
  · refine within_nextKind?.bind fun o => ?_
    cases o with
    | none => exact (stops_pure _).within
    | some kind => exact .ite (stops_pure _).within (hround (fun _ => rfl) rfl).within
  · refine Ensures.nextKind?_bind fun o => ?_
    cases o with
    | none => exact Ensures.pure_of fun ts _ hsome => by cases hsome
    | some kind =>
      refine Ensures.ite (fun _ => ?_) fun _ => ?_
      · exact Ensures.pure_of fun ts _ hsome => by cases hsome
      · exact (hround (fun _ => rfl) rfl).mono fun _ _ _ htakes _ _ => htakes.1

mutual

theorem takes_declaration (helse : NextNot [.elseKey] behind) :
    ∀ d, Takes behind (declaration d) (declaration d)
  | 0 => takes_throw
  | d + 1 => Takes.recover (takes_declarationWith (within_expression d) (takes_statement helse d)
      (takes_block helse d))

theorem takes_statement (helse : NextNot [.elseKey] behind) :
    ∀ d, Takes behind (statement d) (statement d)
  | 0 => takes_throw
  | d + 1 => takes_statementWith (within_expression d) (takes_statement helse d)
      (takes_block helse d) helse

theorem takes_block (helse : NextNot [.elseKey] behind) :
    ∀ d, Takes behind (block d) (block d)
  | 0 => takes_throw
  | d + 1 => (within_declarationsUntil _ (takes_declaration helse d)).bind_takes fun _ =>
      (takes_expect _ _).bind fun _ => stops_pure _

end

end Parse

end Scriptlet
