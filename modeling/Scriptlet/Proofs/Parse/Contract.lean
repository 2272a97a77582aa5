import Scriptlet.Parse.Statement

/-!
# Contracts of parsing steps

Every parsing step takes tokens from the front and adds complaints; it never gives a token back or
withdraws a complaint. A step that aborts in panic has added one. A contract says this of a step,
and in addition what holds between the tokens before, the result and the tokens after whenever the
step ends without adding a complaint. Contracts compose along the way steps do, so that facts about
complaint-free parses are proved rule by rule.

## Main definitions

* `Parse.State.Extends` — what a step may do to the state
* `Parse.Ensures` — contracts
* `Parse.Steady` — the contract without a promise about the result

## Main results

* `Ensures.bind`, `Ensures.repeated`, `Ensures.recover` — the rules for the ways to combine steps
-/

namespace Scriptlet.Parse

/-- Tokens were taken from the front, complaints were added. -/
structure State.Extends (s s' : State) : Prop where
  rest : s'.rest <:+ s.rest
  complaints : s.complaints <:+ s'.complaints

namespace State.Extends

theorem refl (s : State) : s.Extends s := ⟨List.suffix_rfl, List.suffix_rfl⟩

theorem trans {s t u : State} (h : s.Extends t) (h' : t.Extends u) : s.Extends u :=
  ⟨h'.rest.trans h.rest, h.complaints.trans h'.complaints⟩

/-- If no complaint was added on the whole, none was added on the way. -/
theorem complaints_eq {s t u : State} (h : s.Extends t) (h' : t.Extends u)
    (hu : u.complaints = s.complaints) :
    t.complaints = s.complaints ∧ u.complaints = t.complaints := by
  -- complaints only grow, so a list that is back at its start never grew
  have hle : t.complaints <:+ s.complaints := hu ▸ h'.complaints
  have heq := hle.eq_of_length (Nat.le_antisymm hle.length_le h.complaints.length_le)
  exact ⟨heq, hu.trans heq.symm⟩

end State.Extends

/-- What a contract with promise `D` says of a result, where `s` is the state before. -/
def Fulfils {α : Type} (D : List Token → α → List Token → Prop) (s : State) :
    EStateM.Result Abort State α → Prop
  | .ok a s' => s.Extends s' ∧ (s'.complaints = s.complaints → D s.rest a s'.rest)
  | .error .panic s' => s.Extends s' ∧ s.complaints.length < s'.complaints.length
  | .error .tooDeep s' => s.Extends s'

/-- The step takes tokens and adds complaints; if it succeeds without adding one, then `D` holds
between the tokens before, the result and the tokens after. -/
def Ensures {α : Type} (p : Parse α) (D : List Token → α → List Token → Prop) : Prop :=
  ∀ s, Fulfils D s (p s)

/-- The step takes tokens and adds complaints. -/
def Steady {α : Type} (p : Parse α) : Prop := Ensures p fun _ _ _ => True

variable {α β : Type}

@[simp]
theorem bind_apply (p : Parse α) (f : α → Parse β) (s : State) :
    (p >>= f) s = match p s with
      | .ok a s' => f a s'
      | .error e s' => .error e s' := by
  change EStateM.bind p f s = _
  rw [EStateM.bind]
  cases p s <;> rfl

/-- What is said of a result with respect to a later state is said with respect to an earlier one,
if the promise carries over whenever no complaint was added in between. -/
theorem Fulfils.of_extends {D E : List Token → α → List Token → Prop} {s t : State}
    {result : EStateM.Result Abort State α} (hst : s.Extends t) (h : Fulfils E t result)
    (hD : t.complaints = s.complaints → ∀ a rest, E t.rest a rest → D s.rest a rest) :
    Fulfils D s result := by
  cases result with
  | ok a u =>
    obtain ⟨htu, hE⟩ := h
    refine ⟨hst.trans htu, fun hc => ?_⟩
    obtain ⟨hc₁, hc₂⟩ := hst.complaints_eq htu hc
    exact hD hc₁ a u.rest (hE hc₂)
  | error e u =>
    cases e with
    -- the complaint that came with the panic is still there
    | panic => exact ⟨hst.trans h.1, Nat.lt_of_le_of_lt hst.complaints.length_le h.2⟩
    | tooDeep => exact hst.trans h

/-- What steps that yield something at once have, and steps one after the other keep, is kept by a
step repeated a number of times. -/
theorem iterate_of_bind {C : ∀ α : Type, Parse α → Prop} (hpure : ∀ a : α, C α (pure a))
    (hbind : ∀ {p : Parse (Option α)} {f : Option α → Parse α}, C _ p → (∀ o, C α (f o)) →
      C α (p >>= f)) {step : α → Parse (Option α)} (h : ∀ a, C _ (step a)) (n : Nat) (a : α) :
    C α (iterate step n a) := by
  induction n generalizing a with
  | zero => exact hpure a
  | succ n ih =>
    refine hbind (h a) fun o => ?_
    cases o with
    | none => exact hpure a
    | some b => exact ih b

namespace Ensures

variable {p : Parse α} {f : α → Parse β} {D D' : List Token → α → List Token → Prop}
  {E : α → List Token → β → List Token → Prop}

theorem mono (h : Ensures p D) (hD : ∀ ts a rest, D ts a rest → D' ts a rest) : Ensures p D' :=
  fun s => (h s).of_extends (.refl s) fun _ a rest => hD s.rest a rest

theorem steady (h : Ensures p D) : Steady p := h.mono fun _ _ _ _ => trivial

/-- What a successful step without a complaint yields. -/
theorem ok (h : Ensures p D) {s s' : State} {a : α} (hp : p s = .ok a s')
    (hc : s'.complaints = s.complaints) : D s.rest a s'.rest := by
  have hs := h s
  rw [hp] at hs
  exact hs.2 hc

/-- Two promises of one step are kept together. -/
theorem and (h : Ensures p D) (h' : Ensures p D') :
    Ensures p fun ts a rest => D ts a rest ∧ D' ts a rest := by
  intro s
  have hs := h s
  have hs' := h' s
  cases hp : p s with
  | ok a t =>
    rw [hp] at hs hs'
    exact ⟨hs.1, fun hc => ⟨hs.2 hc, hs'.2 hc⟩⟩
  | error e t =>
    rw [hp] at hs
    cases e <;> exact hs

/-- What is left is a suffix of what there was. -/
theorem suffix (h : Ensures p D) :
    Ensures p fun ts a rest => D ts a rest ∧ rest <:+ ts := by
  intro s
  have hs := h s
  cases hp : p s with
  | ok a t =>
    rw [hp] at hs
    exact ⟨hs.1, fun hc => ⟨hs.2 hc, hs.1.rest⟩⟩
  | error e t =>
    rw [hp] at hs
    cases e <;> exact hs

theorem pure (a : α) : Ensures (Pure.pure a) fun ts b rest => b = a ∧ rest = ts :=
  fun s => ⟨.refl s, fun _ => ⟨rfl, rfl⟩⟩

/-- A step that only yields something takes no tokens. -/
theorem pure_of {a : α} (h : ∀ ts, D ts a ts) : Ensures (Pure.pure a) D :=
  fun s => ⟨.refl s, fun _ => h s.rest⟩

theorem throw : Ensures (throw .tooDeep : Parse α) D := fun s => State.Extends.refl s

/-- Steps one after the other keep their promises one after the other. -/
theorem bind (h : Ensures p D) (hf : ∀ a, Ensures (f a) (E a)) :
    Ensures (p >>= f) fun ts b rest => ∃ a mid, D ts a mid ∧ E a mid b rest := by
  intro s
  have hs := h s
  rw [bind_apply]
  cases hp : p s with
  | error e s' =>
    -- what comes after an abort does not run
    rw [hp] at hs
    cases e <;> exact hs
  | ok a t =>
    rw [hp] at hs
    exact (hf a t).of_extends hs.1 fun hc b rest hE => ⟨a, t.rest, hs.2 hc, hE⟩

theorem ite {c : Prop} [Decidable c] {q : Parse α} (hp : c → Ensures p D)
    (hq : ¬ c → Ensures q D) : Ensures (if c then p else q) D := by
  split
  · next hc => exact hp hc
  · next hc => exact hq hc

/-! ### The basic steps -/

/-- Looking at the tokens takes none. -/
theorem get : Ensures get fun ts s rest => s.rest = ts ∧ rest = ts :=
  fun s => ⟨.refl s, fun _ => ⟨rfl, rfl⟩⟩

theorem nextKind? : Ensures nextKind? fun ts kind rest =>
    kind = ts.head?.map (·.kind) ∧ rest = ts :=
  fun s => ⟨.refl s, fun _ => ⟨rfl, rfl⟩⟩

theorem nextIs (kind : Kind) : Ensures (nextIs kind) fun ts b rest =>
    (b = true ↔ ts.head?.map (·.kind) = some kind) ∧ rest = ts :=
  fun s => ⟨.refl s, fun _ => ⟨beq_iff_eq, rfl⟩⟩

/-- What comes after a look at the next token may rely on it. -/
theorem nextKind?_bind {f : Option Kind → Parse α}
    (h : ∀ o, Ensures (f o) fun ts a rest => o = ts.head?.map (·.kind) → D ts a rest) :
    Ensures (Parse.nextKind? >>= f) D := by
  apply (bind nextKind? h).mono
  intro ts a rest hpieces
  obtain ⟨o, _, ⟨ho, rfl⟩, ha⟩ := hpieces
  exact ha ho

theorem nextIs_bind {kind : Kind} {f : Bool → Parse α}
    (h : ∀ b, Ensures (f b) fun ts a rest =>
      (b = true ↔ ts.head?.map (·.kind) = some kind) → D ts a rest) :
    Ensures (Parse.nextIs kind >>= f) D := by
  apply (bind (nextIs kind) h).mono
  intro ts a rest hpieces
  obtain ⟨b, _, ⟨hb, rfl⟩, ha⟩ := hpieces
  exact ha hb

/-- A complaint without an abort: nothing is promised, as one was added. -/
theorem complain (cause : Cause) (rest : List Token) :
    Ensures (complain cause rest) fun _ _ _ => False := by
  intro s
  refine ⟨⟨List.suffix_rfl, List.suffix_cons _ _⟩, fun h => ?_⟩
  exact absurd (congrArg List.length h) (Nat.succ_ne_self _)

theorem fail (cause : Cause) : Ensures (fail cause) D := fun _ =>
  ⟨⟨List.suffix_rfl, List.suffix_cons _ _⟩, Nat.lt_succ_self _⟩

end Ensures

theorem accept?_cons {kinds : List Kind} {t : Token} {rest : List Token} {cs : List Complaint}
    {n : Nat} (h : t.kind ∈ kinds) :
    accept? kinds ⟨t :: rest, cs, n⟩ = .ok (some t) ⟨rest, cs, n⟩ := by
  change (if kinds.contains t.kind then _ else _ : Parse (Option Token)) _ = _
  rw [if_pos (List.contains_iff_mem.2 h)]
  rfl

theorem accept?_of_notMem {kinds : List Kind} {ts : List Token} {cs : List Complaint} {n : Nat}
    (h : ∀ t ∈ ts.head?, t.kind ∉ kinds) : accept? kinds ⟨ts, cs, n⟩ = .ok none ⟨ts, cs, n⟩ := by
  cases ts with
  | nil => rfl
  | cons t rest =>
    have ht : ¬ kinds.contains t.kind := fun hc => h t rfl (List.contains_iff_mem.1 hc)
    change (if kinds.contains t.kind then _ else _ : Parse (Option Token)) _ = _
    rw [if_neg ht]
    rfl

namespace Ensures

variable {p : Parse α} {D : List Token → α → List Token → Prop}

/-- A step that starts with an optional token: what follows is promised for each token that can be
taken, and for the case that none of them is next. -/
theorem accept?_bind {kinds : List Kind} {f : Option Token → Parse α}
    (htook : ∀ t, t.kind ∈ kinds → Ensures (f (some t)) fun ts a rest => D (t :: ts) a rest)
    (hleft : Ensures (f none) fun ts a rest =>
      (∀ t ∈ ts.head?, t.kind ∉ kinds) → D ts a rest) :
    Ensures (Parse.accept? kinds >>= f) D := by
  rintro ⟨ts, cs, n⟩
  rw [bind_apply]
  by_cases hnext : ∀ t ∈ ts.head?, t.kind ∉ kinds
  · rw [accept?_of_notMem hnext]
    exact (hleft _).of_extends (.refl _) fun _ a rest ha => ha hnext
  · obtain ⟨t, ht, hk⟩ : ∃ t ∈ ts.head?, t.kind ∈ kinds := by simpa using hnext
    obtain ⟨rest, rfl⟩ := List.head?_eq_some_iff.1 ht
    -- a token goes, no complaint comes
    rw [accept?_cons hk]
    have hextends : State.Extends ⟨t :: rest, cs, n⟩ ⟨rest, cs, n⟩ :=
      ⟨List.suffix_cons _ _, List.suffix_rfl⟩
    exact (htook t hk _).of_extends hextends fun _ a rest ha => ha

theorem expect (kind : Kind) (cause : Cause) :
    Ensures (expect kind cause) fun ts t rest => ts = t :: rest ∧ t.kind = kind := by
  refine accept?_bind (fun t ht => ?_) (fail cause)
  apply pure_of
  intro ts
  exact ⟨rfl, List.mem_singleton.1 ht⟩

/-! ### Repetition and recovery -/

/-- The fuel of a repetition lasts: a step that goes on takes a token. -/
theorem iterate {step : α → Parse (Option α)}
    {S : α → List Token → Option α → List Token → Prop}
    {R : α → List Token → α → List Token → Prop} (hstep : ∀ a, Ensures (step a) (S a))
    (hless : ∀ a b ts mid, S a ts (some b) mid → mid.length < ts.length)
    (hnil : ∀ a, R a [] a []) (hnone : ∀ a ts rest, S a ts none rest → R a ts a rest)
    (hsome : ∀ a b c ts mid rest, S a ts (some b) mid → R b mid c rest → R a ts c rest)
    (n : Nat) (a : α) : Ensures (iterate step n a) fun ts c rest =>
      ts.length ≤ n → R a ts c rest := by
  induction n generalizing a with
  -- without fuel there are no tokens left either
  | zero =>
    apply pure_of
    intro ts hlen
    rw [List.length_eq_zero_iff.1 (Nat.le_zero.1 hlen)]
    exact hnil _
  | succ n ih =>
    refine (bind (hstep a) (E := fun o ts b rest =>
      o.elim (b = a ∧ rest = ts) fun a' => ts.length ≤ n → R a' ts b rest) ?_).mono ?_
    · rintro (_ | b)
      · exact pure a
      · exact ih b
    · intro ts c rest hpieces hlen
      obtain ⟨_ | b, mid, hS, hR⟩ := hpieces
      · obtain ⟨rfl, rfl⟩ := hR
        exact hnone _ _ _ hS
      -- the tokens get fewer with the fuel
      · have := hless _ _ _ _ hS
        exact hsome _ _ _ _ _ _ hS (hR (by omega))

/-- A relation that goes through single steps and holds where a step yields nothing holds of a
repetition. -/
theorem repeated {step : α → Parse (Option α)}
    {S : α → List Token → Option α → List Token → Prop}
    {R : α → List Token → α → List Token → Prop} (hstep : ∀ a, Ensures (step a) (S a))
    (hless : ∀ a b ts mid, S a ts (some b) mid → mid.length < ts.length)
    (hnil : ∀ a, R a [] a []) (hnone : ∀ a ts rest, S a ts none rest → R a ts a rest)
    (hsome : ∀ a b c ts mid rest, S a ts (some b) mid → R b mid c rest → R a ts c rest)
    (a : α) : Ensures (repeated step a) (R a) := by
  apply (bind get fun s => iterate hstep hless hnil hnone hsome s.rest.length a).mono
  intro ts b rest hpieces
  obtain ⟨s, _, ⟨rfl, rfl⟩, h⟩ := hpieces
  exact h (Nat.le_refl _)

end Ensures

theorem skipFrom_suffix (previous : Token) (ts : List Token) : skipFrom previous ts <:+ ts := by
  induction ts generalizing previous with
  | nil => exact List.suffix_rfl
  | cons t rest ih =>
    rw [skipFrom]
    split
    · exact List.suffix_rfl
    · exact (ih t).trans (List.suffix_cons t rest)

theorem synchronize_suffix (ts : List Token) : synchronize ts <:+ ts := by
  cases ts with
  | nil => exact List.suffix_rfl
  | cons t rest => exact (skipFrom_suffix t rest).trans (List.suffix_cons t rest)

theorem State.extends_resume (s : State) : s.Extends s.resume :=
  ⟨synchronize_suffix s.rest, List.suffix_rfl⟩

namespace Ensures

variable {p : Parse α} {D : List Token → α → List Token → Prop}

/-- Recovery that yields nothing has added a complaint. -/
theorem recover (h : Ensures p D) :
    Ensures (recover p) fun ts o rest => ∃ a, o = some a ∧ D ts a rest := by
  intro s
  have hs := h s
  rw [Parse.recover]
  cases hp : p s with
  | ok a s' =>
    rw [hp] at hs
    exact ⟨hs.1, fun hc => ⟨a, rfl, hs.2 hc⟩⟩
  | error e s' =>
    rw [hp] at hs
    cases e with
    | panic =>
      refine ⟨hs.1.trans s'.extends_resume, fun hc => ?_⟩
      exact absurd (congrArg List.length hc) (Nat.ne_of_gt hs.2)
    -- here the complaint is the one about the nesting, which recovery adds itself
    | tooDeep =>
      have hlt : s.complaints.length < s'.complaints.length + 1 :=
        Nat.lt_succ_of_le hs.complaints.length_le
      refine ⟨hs.trans (.trans ?_ (State.extends_resume _)), fun hc => ?_⟩
      · exact ⟨List.suffix_rfl, List.suffix_cons _ _⟩
      · exact absurd (congrArg List.length hc) (Nat.ne_of_gt hlt)

end Ensures

/-! ### Steps whose parts are put together in another order -/

/-- No items if a token of the given kind is next, else what `items` yields. -/
def listBefore (kind : Kind) (items : Parse (List α)) : Parse (List α) := do
  if ← nextIs kind then return [] else items

/-- What `some` and `none` lead to behind an optional token. -/
def optionalAfter (kind : Kind) (absent : α) (item : Parse α) : Parse α := do
  match ← accept? [kind] with
  | some _ => item
  | none => return absent

/-- A separator and the item behind it, folded into what was read. -/
def separatedStep (kinds : List Kind) (f : α → Token → β → α) (item : Parse β) (a : α) :
    Parse (Option α) := do
  match ← accept? kinds with
  | some sep => return some (f a sep (← item))
  | none => return none

theorem foldLevel_eq (level : Level) (operand : Parse Tree) :
    foldLevel level operand = (do
      let first ← operand
      repeated (separatedStep level.operators level.build operand) first) := rfl

theorem commaSeparated_eq (item : Parse α) :
    commaSeparated item = (do
      let first ← item
      let all ← repeated (separatedStep [.comma] (fun items _ x => x :: items) item) [first]
      return all.reverse) := rfl

theorem callArguments_eq (expression : Parse Tree) :
    callArguments expression = (do
      let arguments ← listBefore .rightParen (commaSeparated expression)
      let paren ← expect .rightParen .parenAfterArguments
      return (paren, arguments)) := by
  rw [listBefore, bind_assoc, callArguments]
  congr 1
  funext b
  cases b <;> rfl

theorem parameters_eq :
    parameters = (do
      let params ← listBefore .rightParen (commaSeparated (expect .identifier .parameterName))
      let _ ← expect .rightParen .parenAfterParameters
      return params) := by
  rw [listBefore, bind_assoc, parameters]
  congr 1
  funext b
  cases b <;> rfl

theorem varDeclaration_eq (expression : Parse Tree) :
    varDeclaration expression = (do
      let name ← expect .identifier .variableName
      let initializer ← optionalAfter .equal .null expression
      let _ ← expect .semicolon .semicolonAfterDeclaration
      return .varDecl name initializer) := by
  rw [varDeclaration]
  congr 1
  funext name
  rw [optionalAfter, bind_assoc]
  congr 1
  funext o
  cases o <;> rfl

theorem ifStatement_eq (expression statement : Parse Tree) :
    ifStatement expression statement = (do
      let _ ← expect .leftParen .parenAfterIf
      let condition ← expression
      let _ ← expect .rightParen .parenAfterIfCondition
      let thenBranch ← statement
      let elseBranch ← optionalAfter .elseKey .null statement
      return .ifStmt condition thenBranch elseBranch) := by
  rw [ifStatement]
  congr 1
  funext _
  congr 1
  funext condition
  congr 1
  funext _
  congr 1
  funext thenBranch
  rw [optionalAfter, bind_assoc]
  congr 1
  funext o
  cases o <;> rfl

/-- One declaration in front of those that were read, or nothing where the list ends. -/
def declarationStep (stop : Kind → Bool) (declaration : Parse (Option Tree))
    (statements : List Tree) : Parse (Option (List Tree)) := do
  match ← nextKind? with
  | none => return none
  | some kind =>
    if stop kind then return none
    else
      match ← declaration with
      | some s => return some (s :: statements)
      | none => return some statements

/-- Where no token is left, a round over declarations ends. -/
theorem declarationStep_nil (stop : Kind → Bool) (declaration : Parse (Option Tree))
    (ss : List Tree) {s : State} (hs : s.rest = []) :
    declarationStep stop declaration ss s = .ok none s := by
  obtain ⟨rest, cs, n⟩ := s
  cases hs
  rfl

theorem declarationStep_cons (stop : Kind → Bool) (declaration : Parse (Option Tree))
    (ss : List Tree) {t : Token} {rest : List Token} {cs : List Complaint} {n : Nat} :
    declarationStep stop declaration ss ⟨t :: rest, cs, n⟩ =
      (if stop t.kind then pure none else declaration >>= fun o => pure (some (o.toList ++ ss)) :
        Parse (Option (List Tree))) ⟨t :: rest, cs, n⟩ := by
  change (if stop t.kind then pure none else _ : Parse (Option (List Tree))) _ = _
  split
  · rfl
  · refine congrFun (congrArg (declaration >>= ·) (funext fun o => ?_)) _
    cases o <;> rfl

/-- A round of the loop over declarations: nothing is taken where the list ends, and a declaration
that was read is put in front of the others. None was given up, as that takes a complaint. -/
theorem Ensures.declarationStep {stop : Kind → Bool} {declaration : Parse (Option Tree)}
    {D : List Token → Tree → List Token → Prop}
    {R : List Token → Option (List Tree) → List Token → Prop} {ss : List Tree}
    (h : Ensures declaration fun ts o rest => ∃ t, o = some t ∧ D ts t rest)
    (hend : ∀ ts, (∀ kind ∈ ts.head?.map (·.kind), stop kind = true) → R ts none ts)
    (hgo : ∀ ts t rest, D ts t rest → R ts (some (t :: ss)) rest) :
    Ensures (Parse.declarationStep stop declaration ss) R := by
  apply nextKind?_bind
  intro o
  cases o with
  | none =>
    apply pure_of
    intro ts hnext
    apply hend
    rw [← hnext]
    exact fun _ hnone => by cases hnone
  | some kind =>
    refine ite (fun hstop => ?_) fun _ => ?_
    · apply pure_of
      intro ts hnext
      apply hend
      rw [← hnext]
      intro kind' hkind'
      rw [← Option.some.inj hkind']
      exact hstop
    · refine (bind h (E := fun o ts out rest =>
        rest = ts ∧ ∀ t, o = some t → out = some (t :: ss)) fun o => ?_).mono ?_
      · cases o with
        | none => exact pure_of fun ts => ⟨rfl, fun _ hnone => by cases hnone⟩
        | some t => exact pure_of fun ts => ⟨rfl, fun t' ht' => by cases ht'; rfl⟩
      · intro ts out rest hpieces _
        obtain ⟨_, _, ⟨t, rfl, ht⟩, rfl, hout⟩ := hpieces
        rw [hout t rfl]
        exact hgo ts t _ ht

theorem declarationsUntil_eq (stop : Kind → Bool) (declaration : Parse (Option Tree)) :
    declarationsUntil stop declaration = (do
      let all ← repeated (declarationStep stop declaration) []
      return all.reverse) := rfl

end Scriptlet.Parse
