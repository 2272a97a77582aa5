import Scriptlet.Proofs.Parse.Closed
import Scriptlet.Proofs.Parse.Position

/-!
# No token is blamed twice

A complaint that aborts blames the next token, which is skipped when the declaration is given up, so
that everything blamed afterwards stands behind it. A complaint about an assignment target blames an
equals sign that was taken long before: it stands in front of all that was blamed while the value
was read, and behind all that was blamed before. An abort is caught by one declaration, so that as
many declarations are given up as there were aborts.

## Main definitions

* `Parse.Complaint.isPanic` — complaints that came with an abort
* `Parse.Apart` — complaints about different tokens, in the order of the tokens if both aborted
* `Parse.Settled` — what a step did that left nothing blamed behind
* `Parse.Accounts` — the contract of a step

## Main results

* `Parse.Settled.giveUp` — recovery skips the blamed token and counts the abort
* `Parse.accounts` — every step of the parser keeps its accounts
* `Parse.blamed_positions_nodup` — no token is blamed twice, and every abort is one declaration less
-/

namespace Scriptlet.Parse

variable {α β : Type}

/-! ### Complaints in order -/

/-- The complaint came with an abort; one about an assignment target does not. -/
def Complaint.isPanic (c : Complaint) : Bool := c.cause ≠ .assignmentTarget

/-- The end is blamed, as no token was left. -/
def Complaint.atEnd (c : Complaint) : Bool := c.rest.isEmpty

/-- The complaints blame different tokens, unless one blames the end; if both aborted, the newer one
blames the later token. -/
def Apart (newer older : Complaint) : Prop :=
  newer.rest = [] ∨ older.rest = [] ∨ newer.rest.length ≠ older.rest.length ∧
    (newer.isPanic → older.isPanic → newer.rest.length < older.rest.length)

/-- The complaint blames one of the tokens `before` that is not left among the tokens `after`, or
the end. -/
def Complaint.Between (c : Complaint) (before after : List Token) : Prop :=
  c.rest <:+ before ∧ (c.rest = [] ∨ after.length < c.rest.length)

/-- From the first state to the second, the added complaints blame different tokens that are no
longer left, and as many declarations were given up as complaints came with an abort. -/
def Settled (s s' : State) : Prop :=
  s'.rest <:+ s.rest ∧ ∃ new, s'.complaints = new ++ s.complaints ∧ new.Pairwise Apart ∧
    (∀ c ∈ new, c.Between s.rest s'.rest) ∧ s'.givenUp = s.givenUp + new.countP (·.isPanic)

/-- The state in which an abort was caught that complained about the next token. -/
def State.giveUp (s : State) (cause : Cause) : State :=
  { s with complaints := ⟨cause, s.rest⟩ :: s.complaints }.resume

namespace Settled

variable {s t u : State} {rest : List Token} {cs : List Complaint} {n : Nat}

/-- Tokens were taken, nothing was blamed. -/
theorem taken (h : rest <:+ s.rest) : Settled s { s with rest } :=
  ⟨h, [], rfl, .nil, nofun, rfl⟩

theorem refl (s : State) : Settled s s := taken List.suffix_rfl

theorem trans (h : Settled s t) (h' : Settled t u) : Settled s u := by
  obtain ⟨hrest, new, hnew, hapart, hbetween, hcount⟩ := h
  obtain ⟨hrest', new', hnew', hapart', hbetween', hcount'⟩ := h'
  refine ⟨hrest'.trans hrest, new' ++ new, by rw [hnew', hnew, List.append_assoc], ?_, ?_, ?_⟩
  · refine List.pairwise_append.2 ⟨hapart', hapart, fun c hc d hd => ?_⟩
    -- what was blamed later was still left when the older complaints had been settled
    have hle : c.rest.length ≤ t.rest.length := (hbetween' c hc).1.length_le
    rcases (hbetween d hd).2 with hend | hlt
    · exact .inr (.inl hend)
    · exact .inr (.inr ⟨by omega, fun _ _ => by omega⟩)
  · refine List.forall_mem_append.2 ⟨fun c hc => ?_, fun c hc => ?_⟩
    · exact ⟨(hbetween' c hc).1.trans hrest, (hbetween' c hc).2⟩
    · have hle := hrest'.length_le
      exact ⟨(hbetween c hc).1, (hbetween c hc).2.imp_right fun hlt => by omega⟩
  · rw [hcount', hcount, List.countP_append]
    omega

/-- Giving up a declaration skips the token that is to blame, and counts the abort. -/
theorem giveUp (h : Settled s t) {cause : Cause} (hcause : cause ≠ .assignmentTarget) :
    Settled s (t.giveUp cause) := by
  refine h.trans ⟨synchronize_suffix t.rest, [⟨cause, t.rest⟩], rfl, List.pairwise_singleton _ _,
    List.forall_mem_singleton.2 ⟨List.suffix_rfl, ?_⟩, ?_⟩
  · by_cases hend : t.rest = []
    · exact .inl hend
    · exact .inr (length_synchronize_lt hend)
  · simp [State.giveUp, State.resume, Complaint.isPanic, hcause]

/-- An equals sign that was taken is blamed after what was blamed behind it. -/
theorem blameTarget {equals : Token} (h : Settled ⟨rest, cs, n⟩ t) :
    Settled ⟨equals :: rest, cs, n⟩
      { t with complaints := ⟨.assignmentTarget, equals :: rest⟩ :: t.complaints } := by
  obtain ⟨hrest, new, hnew, hapart, hbetween, hcount⟩ := h
  have hsuffix : rest <:+ equals :: rest := List.suffix_cons _ _
  refine ⟨hrest.trans hsuffix, ⟨.assignmentTarget, equals :: rest⟩ :: new,
    congrArg (_ :: ·) hnew, ?_, ?_, ?_⟩
  · refine List.pairwise_cons.2 ⟨fun c hc => ?_, hapart⟩
    have hle : c.rest.length ≤ rest.length := (hbetween c hc).1.length_le
    refine .inr (.inr ⟨?_, nofun⟩)
    rw [List.length_cons]
    omega
  · refine List.forall_mem_cons.2 ⟨⟨List.suffix_rfl, .inr ?_⟩, fun c hc => ?_⟩
    · exact Nat.lt_succ_of_le hrest.length_le
    · exact ⟨(hbetween c hc).1.trans hsuffix, (hbetween c hc).2⟩
  · exact hcount

end Settled

/-! ### The contract of a step -/

/-- What a step that began in `s` ended with: all that was blamed is settled, save the complaint of
an abort that is not caught yet. -/
def Accounted (s : State) : EStateM.Result Abort State α → Prop
  | .ok _ s' | .error .tooDeep s' => Settled s s'
  | .error .panic s' => ∃ t cause, cause ≠ .assignmentTarget ∧ Settled s t ∧
      s' = { t with complaints := ⟨cause, t.rest⟩ :: t.complaints }

/-- The step settles what it blames, save that an abort comes with a complaint about the next token,
which is the newest one. -/
def Accounts (p : Parse α) : Prop := ∀ s, Accounted s (p s)

theorem Accounted.of_settled {s t : State} {result : EStateM.Result Abort State α}
    (h : Settled s t) (h' : Accounted t result) : Accounted s result := by
  cases result with
  | ok a u => exact h.trans h'
  | error e u =>
    cases e with
    | tooDeep => exact h.trans h'
    | panic =>
      obtain ⟨t', cause, hcause, hsettled, hu⟩ := h'
      exact ⟨t', cause, hcause, h.trans hsettled, hu⟩

namespace Accounts

variable {p : Parse α} {f : α → Parse β}

theorem pure (a : α) : Accounts (Pure.pure a) := fun s => .refl s

theorem bind (h : Accounts p) (hf : ∀ a, Accounts (f a)) : Accounts (p >>= f) := by
  intro s
  have hs := h s
  rw [bind_apply]
  cases hp : p s with
  | ok a t =>
    rw [hp] at hs
    exact .of_settled hs (hf a t)
  | error e t =>
    rw [hp] at hs
    cases e <;> exact hs

theorem fail {cause : Cause} (hcause : cause ≠ .assignmentTarget) :
    Accounts (fail cause : Parse α) := fun s => ⟨s, cause, hcause, .refl s, rfl⟩

theorem accept? (kinds : List Kind) : Accounts (accept? kinds) := by
  intro s
  rcases accept?_cases kinds s with ⟨-, hrun⟩ | ⟨t, rest, hrest, -, hrun⟩
  · rw [hrun]
    exact .refl s
  · rw [hrun]
    exact .taken (hrest ▸ List.suffix_cons t rest)

/-- Recovery hands on what the step yields, or gives up the declaration at the complaint that came
with the abort. -/
theorem recover_cases (h : Accounts p) (s : State) :
    (∃ a t, Settled s t ∧ Parse.recover p s = .ok (some a) t) ∨
      ∃ t cause, cause ≠ .assignmentTarget ∧ Settled s t ∧
        Parse.recover p s = .ok none (t.giveUp cause) := by
  have hs := h s
  rw [Parse.recover]
  cases hp : p s with
  | ok a t =>
    rw [hp] at hs
    exact .inl ⟨a, t, hs, rfl⟩
  | error e t =>
    rw [hp] at hs
    cases e with
    | tooDeep => exact .inr ⟨t, .nesting, by decide, hs, rfl⟩
    | panic =>
      obtain ⟨t', cause, hcause, hsettled, rfl⟩ := hs
      exact .inr ⟨t', cause, hcause, hsettled, rfl⟩

theorem recover (h : Accounts p) : Accounts (recover p) := by
  intro s
  rcases h.recover_cases s with ⟨a, t, hsettled, hrun⟩ | ⟨t, cause, hcause, hsettled, hrun⟩
  · rw [hrun]
    exact hsettled
  · rw [hrun]
    exact hsettled.giveUp hcause

theorem assignmentTail {value : Parse Tree} (h : Accounts value) (left : Tree) :
    Accounts (assignmentTail value left) := by
  rintro ⟨ts, cs, n⟩
  rcases assignmentTail_cases value left ⟨ts, cs, n⟩ with ⟨-, hrun⟩ | ⟨t, rest, rfl, -, hrun⟩
  · rw [hrun]
    exact Settled.refl _
  · have htaken : Settled ⟨t :: rest, cs, n⟩ ⟨rest, cs, n⟩ := .taken (List.suffix_cons t rest)
    have hvalue := h ⟨rest, cs, n⟩
    rw [hrun, bind_apply]
    cases hv : value ⟨rest, cs, n⟩ with
    | error e u =>
      rw [hv] at hvalue
      exact .of_settled htaken hvalue
    | ok v u =>
      rw [hv] at hvalue
      dsimp only
      unfold assignTo
      split
      · exact htaken.trans hvalue
      · exact htaken.trans hvalue
      · exact hvalue.blameTarget

end Accounts

/-- Every step of the parser keeps its accounts. -/
theorem accounts : Closed @Accounts where
  pure := .pure
  bind := .bind
  tooDeep := fun s => .refl s
  fail h := .fail fun heq => by rw [heq] at h; cases h
  nextKind? := fun s => .refl s
  accept? := .accept?
  repeated h a := fun s => iterate_of_bind (C := @Accounts) .pure .bind h s.rest.length a s
  recover := .recover
  assignmentTail := .assignmentTail

/-! ### Whole programs -/

/-- No token is blamed twice. In a token list that ends in an end token, every diagnostic names the
token at the position of its complaint. The positions of all complaints but those about the end are
different, those of the complaints that came with an abort increase in the order in which they were
filed, and as many declarations were given up as complaints came with an abort: none if there is no
complaint at all. -/
theorem blamed_positions_nodup (tokens : List Token) (heof : EndsInEof tokens) :
    ∃ statements s last, program depthLimit (.start (beforeEnd tokens)) = .ok statements s ∧
      last.kind = .eof ∧
      parseTokens? tokens = some ⟨statements, s.complaints.reverse.map (·.diagnostic last)⟩ ∧
      (∀ c ∈ s.complaints, tokens[position tokens c.rest]? = some (c.rest.headD last)) ∧
      ((s.complaints.reverse.filter fun c => !c.atEnd).map (position tokens ·.rest)).Nodup ∧
      ((s.complaints.reverse.filter fun c => c.isPanic && !c.atEnd).map
        (position tokens ·.rest)).Pairwise (· < ·) ∧
      s.givenUp = s.complaints.countP (·.isPanic) ∧
      (s.complaints = [] → s.givenUp = 0) := by
  obtain ⟨statements, s, last, hrun, hlast, hkind, hparse⟩ := exists_parseTokens? heof
  have hsettled := accounts.program depthLimit (.start (beforeEnd tokens))
  rw [hrun] at hsettled
  obtain ⟨-, new, hnew, hapart, hbetween, hcount⟩ := hsettled
  obtain rfl : s.complaints = new := hnew.trans (List.append_nil new)
  have hgivenUp : s.givenUp = s.complaints.countP (·.isPanic) := hcount.trans (Nat.zero_add _)
  have hblamed (c : Complaint) (hc : c ∈ s.complaints) : c.rest <:+ beforeEnd tokens :=
    (hbetween c hc).1
  -- the complaints in the order in which they were filed, each with the position that it blames
  have hordered : s.complaints.reverse.Pairwise fun older newer =>
      older.atEnd = false → newer.atEnd = false →
        position tokens older.rest ≠ position tokens newer.rest ∧
          (older.isPanic → newer.isPanic →
            position tokens older.rest < position tokens newer.rest) := by
    refine List.pairwise_reverse.2 (hapart.imp_of_mem fun {newer older} hnewer holder h => ?_)
    intro holderEnd hnewerEnd
    obtain ⟨hne, hlt⟩ := (h.resolve_left (by simpa [Complaint.atEnd] using hnewerEnd)).resolve_left
      (by simpa [Complaint.atEnd] using holderEnd)
    have holder' := hblamed older holder
    have hnewer' := hblamed newer hnewer
    refine ⟨fun heq => hne ((position_inj holder' hnewer').1 heq).symm, fun hp hp' => ?_⟩
    exact (position_lt_position holder').2 (hlt hp' hp)
  refine ⟨statements, s, last, hrun, hkind, hparse, fun c hc => ?_, ?_, ?_, hgivenUp, fun h => ?_⟩
  · have hsuffix := hblamed c hc
    cases hrest : c.rest with
    | nil => exact hlast
    | cons t rest =>
      rw [hrest] at hsuffix
      exact getElem?_position hsuffix
  · refine List.pairwise_map.2 (List.pairwise_filter.2 (hordered.imp fun h hold hnew => ?_))
    exact (h (by simpa using hold) (by simpa using hnew)).1
  · refine List.pairwise_map.2 (List.pairwise_filter.2 (hordered.imp fun h hold hnew => ?_))
    obtain ⟨hold, hold'⟩ := Bool.and_eq_true_iff.1 hold
    obtain ⟨hnew, hnew'⟩ := Bool.and_eq_true_iff.1 hnew
    exact (h (by simpa using hold') (by simpa using hnew')).2 hold hnew
  · rw [hgivenUp, h]
    rfl

/-- `1 = 1; var = 1; { print` -/
def brokenStatements : List Token :=
  [(.number, "1"), (.equal, "="), (.number, "1"), (.semicolon, ";"), (.varKey, "var"),
    (.equal, "="), (.number, "1"), (.semicolon, ";"), (.leftBrace, "\x7b"), (.printKey, "print"),
    (.eof, "")].map fun (kind, text) => .make kind text .null 1

/-- Two equals signs are blamed, one behind what is no target and one in place of a name, and the
end is blamed twice, for the expression and for the brace that are missing. -/
theorem blamed_positions_nodup_broken :
    EndsInEof brokenStatements ∧
      ∃ statements s, program depthLimit (.start (beforeEnd brokenStatements)) = .ok statements s ∧
        s.complaints.length = 4 ∧ s.givenUp = s.complaints.countP (·.isPanic) ∧
        ((s.complaints.reverse.filter fun c => !c.atEnd).map
          (position brokenStatements ·.rest)).Nodup := by
  have heof : EndsInEof brokenStatements := ⟨.make .eof "" .null 1, rfl, rfl⟩
  obtain ⟨statements, s, last, hrun, -, hparse, -, hnodup, -, hgivenUp, -⟩ :=
    blamed_positions_nodup brokenStatements heof
  have hfour : (parseTokens? brokenStatements).map (·.diagnostics.length) = some 4 := by
    decide +kernel
  rw [hparse] at hfour
  refine ⟨heof, statements, s, hrun, ?_, hgivenUp, hnodup⟩
  simpa using hfour

end Scriptlet.Parse
