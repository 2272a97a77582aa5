import Scriptlet.Proofs.Parse.Cursor
import Scriptlet.Proofs.Parse.Depth
import Scriptlet.Proofs.Parse.Position

/-!
# A cursor tied to the tokens that are left

The parser has the tokens that are left, up to the first end token, where the cursor has a position
in the whole list. The two are tied if the position is that of the first token that is left, and
then a step of the cursor ends like the step of the parser that it stands for, in states that are
tied again. What the cursor has read so far is part of the tie: a token is looked at where tokens
are left or the first end token stands, and it is looked back from where a token was taken.

That the loops of the cursor end, and that a declaration ends behind where it began, comes from the
parser, whose rounds and declarations take a token each.

## Main definitions

* `Cursor.Tied` — a state of the cursor and one of the parser
* `Cursor.Follows`, `Cursor.FollowsIf` — from tied states, two steps end alike

## Main results

* `Cursor.Tied.peek`, `Cursor.Tied.previous`, `Cursor.Tied.advance` — what is read from a tied state
* `Cursor.Follows.matchAny`, `Cursor.Follows.firstOf`, `Cursor.Follows.loop`,
  `Cursor.FollowsIf.recover` — the rules for the ways to combine steps
-/

namespace Scriptlet.Cursor

open Parse (Cause Level levels beforeEnd position NextNot)

variable {α β : Type}

theorem bind_apply (w : Cursor α) (g : α → Cursor β) (c : State) :
    (w >>= g) c = match w c with
      | .ok a c' => g a c'
      | .error e c' => .error e c' := by
  change EStateM.bind w g c = _
  rw [EStateM.bind]
  cases w c <;> rfl

/-! ### Tied states -/

/-- An input that can be parsed: `last` is its first end token, and a loop may take a turn for every
token in front of it and one more. -/
structure Input.Ready (inp : Input) (last : Token) : Prop where
  eof : inp.tokens[(beforeEnd inp.tokens).length]? = some last
  kind : last.kind = .eof
  turns : (beforeEnd inp.tokens).length < inp.turns

/-- The cursor is at the tokens that are left, the diagnostics are those of the complaints, and all
that was recorded so far is in order. -/
structure Tied (inp : Input) (last : Token) (c : State) (s : Parse.State) : Prop where
  suffix : s.rest <:+ beforeEnd inp.tokens
  current : c.current = position inp.tokens s.rest
  diagnostics : c.diagnostics = s.complaints.reverse.map (·.diagnostic last)
  peeked : ∀ i ∈ c.peeked, i ≤ (beforeEnd inp.tokens).length
  lookedBack : ∀ i ∈ c.lookedBack, 0 < i ∧ i ≤ (beforeEnd inp.tokens).length
  declared : ∀ i j, (i, j) ∈ c.declared → i < j

/-- The token `t` stands in front of the tokens that are left. -/
def Behind (inp : Input) (t : Token) (rest : List Token) : Prop :=
  0 < position inp.tokens rest ∧ inp.tokens[position inp.tokens rest - 1]? = some t

/-- The step yields `a` in a state that is tied to `s`. -/
def Yields (inp : Input) (last : Token) (w : Cursor α) (c : State) (a : α) (s : Parse.State) :
    Prop :=
  ∃ c', w c = .ok a c' ∧ Tied inp last c' s

variable {inp : Input} {last : Token}

theorem behind_of_suffix {t : Token} {rest : List Token}
    (h : t :: rest <:+ beforeEnd inp.tokens) : Behind inp t rest := by
  have hnext := Parse.position_cons h
  refine ⟨by omega, ?_⟩
  rw [hnext, Nat.add_sub_cancel]
  exact Parse.getElem?_position h

theorem Yields.bind {w : Cursor α} {g : α → Cursor β} {c : State} {a : α} {b : β}
    {s t : Parse.State} (h : Yields inp last w c a s)
    (hg : ∀ c', Tied inp last c' s → Yields inp last (g a) c' b t) :
    Yields inp last (w >>= g) c b t := by
  obtain ⟨c', hw, ht⟩ := h
  obtain ⟨c'', hg, ht'⟩ := hg c' ht
  refine ⟨c'', ?_, ht'⟩
  rw [bind_apply, hw]
  exact hg

theorem Yields.map {w : Cursor α} {c : State} {a : α} {s : Parse.State}
    (h : Yields inp last w c a s) (f : α → β) :
    Yields inp last (w >>= fun a => pure (f a)) c (f a) s :=
  h.bind fun c' ht => ⟨c', rfl, ht⟩

namespace Tied

variable (hinp : inp.Ready last) {c : State} {s : Parse.State} (ht : Tied inp last c s)

include ht

theorem pure (a : α) : Yields inp last (Pure.pure a) c a s := ⟨c, rfl, ht⟩

/-- A diagnostic about the token that a complaint blames. -/
theorem complain (cause : Cause) (blamed : List Token) :
    Tied inp last
      { c with diagnostics := c.diagnostics ++ [.atToken (blamed.headD last) cause.message] }
      { s with complaints := ⟨cause, blamed⟩ :: s.complaints } := by
  refine { ht with diagnostics := ?_ }
  change c.diagnostics ++ [.atToken (blamed.headD last) cause.message] = _
  rw [ht.diagnostics, List.reverse_cons, List.map_append]
  rfl

/-- Looking back finds the token that stands in front of those that are left. -/
theorem previous {t : Token} (hbehind : Behind inp t s.rest) :
    Yields inp last (previous inp) c t s := by
  obtain ⟨hpos, hget⟩ := hbehind
  rw [← ht.current] at hpos hget
  refine ⟨_, previous_of_getElem? hpos hget, ?_⟩
  have hle : c.current ≤ (beforeEnd inp.tokens).length := by
    rw [ht.current]
    exact Parse.position_le _ _
  exact { ht with lookedBack := List.forall_mem_cons.2 ⟨⟨hpos, hle⟩, ht.lookedBack⟩ }

include hinp

theorem peek : Yields inp last (peek inp) c (s.rest.headD last) s := by
  have hget : inp.tokens[c.current]? = some (s.rest.headD last) := by
    rw [ht.current]
    have hsuffix := ht.suffix
    cases hrest : s.rest with
    | nil => exact hinp.eof
    | cons t rest => exact Parse.getElem?_position (hrest ▸ hsuffix)
  refine ⟨_, peek_of_getElem? hget, ?_⟩
  have hle : c.current ≤ (beforeEnd inp.tokens).length := by
    rw [ht.current]
    exact Parse.position_le _ _
  exact { ht with peeked := List.forall_mem_cons.2 ⟨hle, ht.peeked⟩ }

theorem isAtEnd : Yields inp last (isAtEnd inp) c s.rest.isEmpty s := by
  have hpeek := (ht.peek hinp).map fun t => t.kind == .eof
  have heq : ((s.rest.headD last).kind == Kind.eof) = s.rest.isEmpty := by
    have hsuffix := ht.suffix
    cases hrest : s.rest with
    | nil => exact beq_iff_eq.2 hinp.kind
    | cons t rest =>
      rw [hrest] at hsuffix
      have ht := Parse.kind_ne_eof_of_mem_beforeEnd (hsuffix.subset List.mem_cons_self)
      exact beq_eq_false_iff_ne.2 ht
  rwa [heq] at hpeek

theorem check (kind : Kind) :
    Yields inp last (check inp kind) c (s.rest.head?.map (·.kind) == some kind) s := by
  refine (ht.isAtEnd hinp).bind fun c' ht' => ?_
  cases hrest : s.rest with
  | nil => exact ht'.pure false
  | cons t rest =>
    have hpeek := (ht'.peek hinp).map fun t => t.kind == kind
    rw [hrest] at hpeek
    exact hpeek

theorem check_of_eq {t : Token} {rest : List Token} (hs : s.rest = t :: rest) :
    Yields inp last (Cursor.check inp t.kind) c true s := by
  have h := ht.check hinp t.kind
  rwa [hs, List.head?_cons, Option.map_some, beq_self_eq_true] at h

theorem check_of_nextNot {kind : Kind} (hnext : NextNot [kind] s.rest) :
    Yields inp last (Cursor.check inp kind) c false s := by
  have h := ht.check hinp kind
  have hnot : (s.rest.head?.map (·.kind) == some kind) = false := by
    refine beq_eq_false_iff_ne.2 fun heq => ?_
    obtain ⟨t, hhead, hkind⟩ := Option.map_eq_some_iff.1 heq
    exact hnext t hhead (List.mem_singleton.2 hkind)
  rwa [hnot] at h

/-- Moving on takes the next token. -/
theorem advance {t : Token} {rest : List Token} (hs : s.rest = t :: rest) :
    Yields inp last (advance inp) c t { s with rest } := by
  have hsuffix : t :: rest <:+ beforeEnd inp.tokens := hs ▸ ht.suffix
  refine (ht.isAtEnd hinp).bind fun c' ht' => ?_
  rw [hs]
  change Yields inp last (Cursor.previous inp) { c' with current := c'.current + 1 } t _
  refine previous (s := { s with rest }) ?_ (behind_of_suffix hsuffix)
  refine { ht' with suffix := (List.suffix_cons t rest).trans hsuffix, current := ?_ }
  change c'.current + 1 = position inp.tokens rest
  rw [ht'.current, hs, Parse.position_cons hsuffix]

/-- At the end there is no moving on, and the last token is found behind. -/
theorem advance_nil (hs : s.rest = []) (hne : beforeEnd inp.tokens ≠ []) :
    ∃ t, Yields inp last (Cursor.advance inp) c t s := by
  have hpos : 0 < (beforeEnd inp.tokens).length := List.length_pos_iff.2 hne
  obtain ⟨t, hget⟩ : ∃ t, inp.tokens[(beforeEnd inp.tokens).length - 1]? = some t := by
    rw [Parse.getElem?_of_lt (by omega)]
    exact ⟨_, List.getElem?_eq_getElem (by omega)⟩
  refine ⟨t, (ht.isAtEnd hinp).bind fun c' ht' => ?_⟩
  rw [hs]
  refine ht'.previous ?_
  rw [hs]
  exact ⟨hpos, hget⟩

theorem matchAny_of_mem {kinds : List Kind} {t : Token} {rest : List Token}
    (hs : s.rest = t :: rest) (hk : t.kind ∈ kinds) :
    Yields inp last (matchAny inp kinds) c true { s with rest } := by
  induction kinds generalizing c with
  | nil => cases hk
  | cons kind kinds ih =>
    by_cases hkind : t.kind = kind
    · subst hkind
      exact (ht.check_of_eq hinp hs).bind fun c' ht' => (ht'.advance hinp hs).map fun _ => true
    · have hnext : NextNot [kind] s.rest := hs ▸ .cons (by simpa using hkind)
      exact (ht.check_of_nextNot hinp hnext).bind fun c' ht' =>
        ih ht' (List.mem_of_ne_of_mem hkind hk)

theorem matchAny_of_nextNot {kinds : List Kind} (hnext : NextNot kinds s.rest) :
    Yields inp last (matchAny inp kinds) c false s := by
  induction kinds generalizing c with
  | nil => exact ht.pure false
  | cons kind kinds ih =>
    have hfirst : NextNot [kind] s.rest := hnext.mono (by simp)
    exact (ht.check_of_nextNot hinp hfirst).bind fun c' ht' =>
      ih ht' (hnext.mono (List.subset_cons_self kind kinds))

variable {otherwise : Cursor α} {entries : List (List Kind × Cursor α)}

/-- A token of one of the kinds is taken, and a step for its kind runs behind it. -/
theorem firstOf_of_mem {t : Token} {rest : List Token} (hs : s.rest = t :: rest)
    (hk : t.kind ∈ entries.flatMap (·.1)) :
    ∃ e ∈ entries, t.kind ∈ e.1 ∧ ∃ c', Tied inp last c' { s with rest } ∧
      firstOf inp otherwise entries c = e.2 c' := by
  induction entries generalizing c with
  | nil => cases hk
  | cons e entries ih =>
    by_cases hmem : t.kind ∈ e.1
    · obtain ⟨c', hmatch, ht'⟩ := ht.matchAny_of_mem hinp hs hmem
      refine ⟨e, List.mem_cons_self, hmem, c', ht', ?_⟩
      rw [firstOf, bind_apply, hmatch]
      rfl
    · have hnext : NextNot e.1 s.rest := hs ▸ .cons hmem
      obtain ⟨c', hmatch, ht'⟩ := ht.matchAny_of_nextNot hinp hnext
      obtain ⟨e', he', hmem', c'', ht'', hrun⟩ := ih ht' (by simpa [hmem] using hk)
      refine ⟨e', List.mem_cons_of_mem e he', hmem', c'', ht'', ?_⟩
      rw [firstOf, bind_apply, hmatch]
      exact hrun

/-- If the next token is of none of the kinds, what is done otherwise runs in front of it. -/
theorem firstOf_of_nextNot (hnext : NextNot (entries.flatMap (·.1)) s.rest) :
    ∃ c', Tied inp last c' s ∧ firstOf inp otherwise entries c = otherwise c' := by
  induction entries generalizing c with
  | nil => exact ⟨c, ht, rfl⟩
  | cons e entries ih =>
    rw [List.flatMap_cons] at hnext
    obtain ⟨c', hmatch, ht'⟩ :=
      ht.matchAny_of_nextNot hinp (hnext.mono (List.subset_append_left _ _))
    obtain ⟨c'', ht'', hrun⟩ := ih ht' (hnext.mono (List.subset_append_right _ _))
    refine ⟨c'', ht'', ?_⟩
    rw [firstOf, bind_apply, hmatch]
    exact hrun

end Tied

/-! ### The contract of a step -/

/-- Both end alike: with the same result or abort, in states that are tied. -/
inductive Alike (inp : Input) (last : Token) :
    EStateM.Result Stop State α → EStateM.Result Parse.Abort Parse.State α → Prop
  | ok {a : α} {c : State} {s : Parse.State} : Tied inp last c s →
      Alike inp last (.ok a c) (.ok a s)
  | panic {c : State} {s : Parse.State} : Tied inp last c s →
      Alike inp last (.error .panic c) (.error .panic s)
  | tooDeep {c : State} {s : Parse.State} : Tied inp last c s →
      Alike inp last (.error .tooDeep c) (.error .tooDeep s)

/-- From tied states with tokens left that satisfy `Q`, the steps end alike. -/
def FollowsIf (inp : Input) (last : Token) (Q : List Token → Prop) (w : Cursor α) (p : Parse α) :
    Prop :=
  ∀ c s, Tied inp last c s → Q s.rest → Alike inp last (w c) (p s)

/-- From tied states, the steps end alike. -/
abbrev Follows (inp : Input) (last : Token) (w : Cursor α) (p : Parse α) : Prop :=
  FollowsIf inp last (fun _ => True) w p

theorem Yields.alike {w : Cursor α} {p : Parse α} {c : State} {a : α} {s t : Parse.State}
    (h : Yields inp last w c a t) (hp : p s = .ok a t) : Alike inp last (w c) (p s) := by
  obtain ⟨c', hw, ht⟩ := h
  rw [hw, hp]
  exact .ok ht

/-- What follows a step that yields something. -/
theorem Yields.alike_bind {w : Cursor α} {g : α → Cursor β} {c : State} {a : α}
    {t : Parse.State} {result : EStateM.Result Parse.Abort Parse.State β}
    (h : Yields inp last w c a t) (hg : ∀ c', Tied inp last c' t → Alike inp last (g a c') result) :
    Alike inp last ((w >>= g) c) result := by
  obtain ⟨c', hw, ht⟩ := h
  rw [bind_apply, hw]
  exact hg c' ht

namespace FollowsIf

variable {Q : List Token → Prop} {w : Cursor α} {p : Parse α} {g : α → Cursor β}
  {f : α → Parse β}

theorem of_follows (h : Follows inp last w p) : FollowsIf inp last Q w p :=
  fun c s ht _ => h c s ht trivial

theorem pure (a : α) : FollowsIf inp last Q (Pure.pure a) (Pure.pure a) := fun _ _ ht _ => .ok ht

theorem tooDeep : FollowsIf inp last Q (throw .tooDeep : Cursor α) (throw .tooDeep) :=
  fun _ _ ht _ => .tooDeep ht

theorem bind (h : FollowsIf inp last Q w p) (hg : ∀ a, Follows inp last (g a) (f a)) :
    FollowsIf inp last Q (w >>= g) (p >>= f) := by
  intro c s ht hQ
  have hwp := h c s ht hQ
  rw [bind_apply, Parse.bind_apply]
  generalize w c = walked at hwp
  generalize p s = parsed at hwp
  cases hwp with
  | ok ht' => exact hg _ _ _ ht' trivial
  | panic ht' => exact .panic ht'
  | tooDeep ht' => exact .tooDeep ht'

/-- Behind a token that was taken, it may be looked back at. -/
theorem previous {t : Token} {g : Token → Cursor α} (h : Follows inp last (g t) p) :
    FollowsIf inp last (Behind inp t) (previous inp >>= g) p :=
  fun _ s ht hbehind => (ht.previous hbehind).alike_bind fun c' ht' => h c' s ht' trivial

end FollowsIf

namespace Follows

variable (hinp : inp.Ready last)

include hinp

/-! ### Basic steps and choices -/

theorem check (kind : Kind) : Follows inp last (check inp kind) (Parse.nextIs kind) :=
  fun _ _ ht _ => (ht.check hinp kind).alike rfl

theorem fail (cause : Cause) : Follows inp last (fail inp cause : Cursor α) (Parse.fail cause) :=
  fun _ s ht _ => (ht.peek hinp).alike_bind fun _ ht' => .panic (ht'.complain cause s.rest)

variable {kinds : List Kind} {f : Option Token → Parse α}

/-- A choice by the next token, which is there to be looked back at if it was taken. -/
theorem matchAny {w w' : Cursor α}
    (htook : ∀ t, t.kind ∈ kinds → FollowsIf inp last (Behind inp t) w (f (some t)))
    (hleft : Follows inp last w' (f none)) :
    Follows inp last (matchAny inp kinds >>= fun b => if b then w else w')
      (Parse.accept? kinds >>= f) := by
  rintro c ⟨ts, cs, n⟩ ht -
  rw [Parse.bind_apply]
  rcases Parse.accept?_cases kinds ⟨ts, cs, n⟩ with ⟨hnext, hrun⟩ | ⟨t, rest, rfl, hk, hrun⟩
  · rw [hrun]
    exact (ht.matchAny_of_nextNot hinp hnext).alike_bind fun c' ht' => hleft c' _ ht' trivial
  · rw [hrun]
    exact (ht.matchAny_of_mem hinp rfl hk).alike_bind fun c' ht' =>
      htook t hk c' _ ht' (behind_of_suffix ht.suffix)

/-- Several choices, one after the other, against a choice between all kinds at once. -/
theorem firstOf {otherwise : Cursor α} {entries : List (List Kind × Cursor α)}
    (hkinds : kinds = entries.flatMap (·.1))
    (htook : ∀ e ∈ entries, ∀ t, t.kind ∈ e.1 →
      FollowsIf inp last (Behind inp t) e.2 (f (some t)))
    (hleft : Follows inp last otherwise (f none)) :
    Follows inp last (firstOf inp otherwise entries) (Parse.accept? kinds >>= f) := by
  subst hkinds
  rintro c ⟨ts, cs, n⟩ ht -
  rw [Parse.bind_apply]
  rcases Parse.accept?_cases (entries.flatMap (·.1)) ⟨ts, cs, n⟩ with
    ⟨hnext, haccept⟩ | ⟨t, rest, rfl, hk, haccept⟩
  · rw [haccept]
    obtain ⟨c', ht', hrun⟩ : ∃ c', _ ∧ firstOf inp otherwise entries c = otherwise c' :=
      ht.firstOf_of_nextNot hinp hnext
    rw [hrun]
    exact hleft c' _ ht' trivial
  · rw [haccept]
    obtain ⟨e, he, hmem, c', ht', hrun⟩ : ∃ e ∈ entries, t.kind ∈ e.1 ∧
        ∃ c', _ ∧ firstOf inp otherwise entries c = e.2 c' := ht.firstOf_of_mem hinp rfl hk
    rw [hrun]
    exact htook e he t hmem c' _ ht' (behind_of_suffix ht.suffix)

theorem consume (kind : Kind) (cause : Cause) :
    Follows inp last (consume inp kind cause) (Parse.expect kind cause) := by
  rintro c ⟨ts, cs, n⟩ ht -
  rw [Parse.expect, Parse.bind_apply]
  rcases Parse.accept?_cases [kind] ⟨ts, cs, n⟩ with ⟨hnext, hrun⟩ | ⟨t, rest, rfl, hk, hrun⟩
  · rw [hrun]
    exact (ht.check_of_nextNot hinp hnext).alike_bind fun c' ht' =>
      fail hinp cause c' _ ht' trivial
  · rw [hrun]
    obtain rfl := List.mem_singleton.1 hk
    refine (ht.check_of_eq hinp rfl).alike_bind fun c' ht' => ?_
    obtain ⟨c'', hadvance, ht''⟩ := ht'.advance hinp rfl
    rw [if_pos rfl, hadvance]
    exact .ok ht''

theorem optionalAfter {w : Cursor α} {p : Parse α} (h : Follows inp last w p) (kind : Kind)
    (absent : α) :
    Follows inp last (optionalAfter inp kind absent w) (Parse.optionalAfter kind absent p) :=
  matchAny hinp (fun _ _ => .of_follows h) (.pure absent)

theorem unlessNext {w : Cursor α} {p : Parse α} (h : Follows inp last w p) (kind : Kind)
    (absent : α) :
    Follows inp last (unlessNext inp kind absent w)
      (Parse.nextIs kind >>= fun b => if b then pure absent else p) := by
  refine (check hinp kind).bind fun b => ?_
  cases b with
  | true => exact .pure absent
  | false => exact h

/-! ### Loops -/

variable {round : α → Cursor (Option α)} {step : α → Parse (Option α)}

section

variable (hround : ∀ a, Follows inp last (round a) (step a))
  (hadvances : ∀ a, Parse.Advances (fun o => o.isSome) (step a))
  (hnil : ∀ a s, s.rest = [] → step a s = .ok none s)

include hround hadvances hnil

omit hinp in
/-- A round takes a token if it goes on, so the turns last longer than the tokens; at the end there
is one more round, which yields nothing. -/
theorem alike_rounds {n m : Nat} (hm : n < m) {a : α} {c : State} {s : Parse.State}
    (ht : Tied inp last c s) (hn : s.rest.length ≤ n) :
    Alike inp last (rounds round m a c) (Parse.iterate step n a s) := by
  induction n generalizing m a c s with
  | zero =>
    obtain _ | m := m
    · omega
    have hs : s.rest = [] := List.length_eq_zero_iff.1 (Nat.le_zero.1 hn)
    have hstep := hround a c s ht trivial
    rw [hnil a s hs] at hstep
    rw [rounds, bind_apply]
    generalize round a c = walked at hstep
    cases hstep with
    | ok ht' => exact .ok ht'
  | succ n ih =>
    obtain _ | m := m
    · omega
    have hstep := hround a c s ht trivial
    have hless := hadvances a s
    rw [rounds, Parse.iterate, bind_apply, Parse.bind_apply]
    generalize round a c = walked at hstep
    generalize step a s = parsed at hstep hless
    cases hstep with
    | panic ht' => exact .panic ht'
    | tooDeep ht' => exact .tooDeep ht'
    | @ok o c' s' ht' =>
      cases o with
      | none => exact .ok ht'
      | some b =>
        have hlt := hless _ _ rfl rfl
        exact ih (by omega) ht' (by omega)

theorem loop (a : α) : Follows inp last (loop inp round a) (Parse.repeated step a) := by
  intro c s ht _
  have hle := ht.suffix.length_le
  have hturns := hinp.turns
  exact alike_rounds hround hadvances hnil (by omega) ht (Nat.le_refl _)

end

/-- A loop over a separator and the item behind it. -/
theorem separated {item : Parse β} {w : α → Cursor (Option α)} {kinds : List Kind}
    {f : α → Token → β → α}
    (h : ∀ a, Follows inp last (w a) (Parse.separatedStep kinds f item a))
    (honward : Parse.Onward item) (a : α) :
    Follows inp last (Cursor.loop inp w a)
      (Parse.repeated (Parse.separatedStep kinds f item) a) := by
  refine loop hinp h (Parse.Advances.separatedStep honward kinds f) ?_ a
  rintro a ⟨ts, cs, n⟩ rfl
  rfl

end Follows

/-! ### Recovery -/

namespace Tied

variable (hinp : inp.Ready last) {c : State} {s : Parse.State}

include hinp

theorem skip_nil (ht : Tied inp last c s) (hs : s.rest = []) :
    Yields inp last (skip inp) c none s := by
  have hend := ht.isAtEnd hinp
  rw [hs] at hend
  exact hend.bind fun c' ht' => ht'.pure none

/-- Skipping stops at a boundary, which the token behind and the next one decide. -/
theorem skip_cons (ht : Tied inp last c s) {t u : Token} {rest : List Token}
    (hs : s.rest = u :: rest) (hbehind : Behind inp t s.rest) :
    if t.kind = .semicolon ∨ u.kind.startsStatement then Yields inp last (skip inp) c none s
    else Yields inp last (skip inp) c (some ()) { s with rest } := by
  have hend := ht.isAtEnd hinp
  rw [hs] at hend
  split
  · next hstop =>
    refine hend.bind fun c₁ ht₁ => (ht₁.previous hbehind).bind fun c₂ ht₂ => ?_
    by_cases hsemicolon : t.kind = .semicolon
    · rw [if_pos hsemicolon]
      exact ht₂.pure none
    · have hpeek := ht₂.peek hinp
      rw [hs] at hpeek
      rw [if_neg hsemicolon]
      refine hpeek.bind fun c₃ ht₃ => ?_
      rw [List.headD_cons, if_pos (hstop.resolve_left hsemicolon)]
      exact ht₃.pure none
  · next hgo =>
    obtain ⟨hsemicolon, hstarts⟩ := not_or.1 hgo
    refine hend.bind fun c₁ ht₁ => (ht₁.previous hbehind).bind fun c₂ ht₂ => ?_
    have hpeek := ht₂.peek hinp
    rw [hs] at hpeek
    rw [if_neg hsemicolon]
    refine hpeek.bind fun c₃ ht₃ => ?_
    rw [List.headD_cons, if_neg hstarts]
    exact (ht₃.advance hinp hs).bind fun c₄ ht₄ => ht₄.pure (some ())

/-- Skipping goes on up to the first boundary behind a token. -/
theorem skipping {n : Nat} {t : Token} {rest : List Token} (hn : rest.length < n)
    (ht : Tied inp last c { s with rest }) (hbehind : Behind inp t rest) :
    Yields inp last (rounds (fun _ => skip inp) n ()) c ()
      { s with rest := Parse.skipFrom t rest } := by
  obtain _ | n := n
  · omega
  induction rest generalizing n c t with
  | nil => exact (ht.skip_nil hinp rfl).bind fun c' ht' => ht'.pure ()
  | cons u rest ih =>
    have hskip := ht.skip_cons hinp rfl hbehind
    rw [Parse.skipFrom]
    split at hskip
    · next hstop =>
      rw [if_pos hstop]
      exact hskip.bind fun c' ht' => ht'.pure ()
    · next hgo =>
      rw [if_neg hgo]
      refine hskip.bind fun c' ht' => ?_
      rw [List.length_cons] at hn
      obtain _ | n := n
      · omega
      exact ih ht' (behind_of_suffix ht.suffix) n (by omega)

/-- Where there are tokens at all, the cursor moves to where parsing resumes. -/
theorem synchronize (ht : Tied inp last c s) (hne : beforeEnd inp.tokens ≠ []) :
    Yields inp last (synchronize inp) c () { s with rest := Parse.synchronize s.rest } := by
  have hturns := hinp.turns
  cases hs : s.rest with
  | nil =>
    obtain ⟨t, hadvance⟩ := ht.advance_nil hinp hs hne
    refine hadvance.bind fun c' ht' => ?_
    obtain ⟨n, hn⟩ : ∃ n, inp.turns = n + 1 := Nat.exists_eq_succ_of_ne_zero (by omega)
    rw [loop, hn, rounds, Parse.synchronize, ← hs]
    exact (ht'.skip_nil hinp hs).bind fun c'' ht'' => ht''.pure ()
  | cons t rest =>
    have hsuffix : t :: rest <:+ beforeEnd inp.tokens := hs ▸ ht.suffix
    have hle : rest.length + 1 ≤ (beforeEnd inp.tokens).length := hsuffix.length_le
    exact (ht.advance hinp hs).bind fun c' ht' =>
      ht'.skipping hinp (by omega) (behind_of_suffix hsuffix)

end Tied

theorem recorded_apply (step : Cursor α) (c : State) :
    recorded step c = match step c with
      | .ok a c' => .ok a { c' with declared := (c.current, c'.current) :: c'.declared }
      | .error e c' => .error e c' := by
  change (step >>= fun a => (do
    modify fun c' => { c' with declared := (c.current, c'.current) :: c'.declared }
    return a : Cursor α)) c = _
  rw [bind_apply]
  cases step c <;> rfl

/-- Recovery goes on where the parser does, and what is recorded ends behind where it began. -/
theorem FollowsIf.recover (hinp : inp.Ready last) {w : Cursor α} {p : Parse α}
    (h : Follows inp last w p) (hadvances : Parse.Advances (fun _ => True) p)
    (honward : Parse.Onward p) :
    FollowsIf inp last (· ≠ []) (recorded (rescue inp w)) (Parse.recover p) := by
  intro c s ht hs
  have hne : beforeEnd inp.tokens ≠ [] := fun hnil => hs (List.suffix_nil.1 (hnil ▸ ht.suffix))
  have hrescue : Alike inp last (rescue inp w c) (Parse.recover p s) := by
    have hwp := h c s ht trivial
    rw [rescue, Parse.recover]
    generalize w c = walked at hwp
    generalize p s = parsed at hwp
    cases hwp with
    | ok ht' => exact .ok ht'
    | panic ht' =>
      refine (ht'.synchronize hinp hne).alike_bind fun c'' ht'' => .ok ?_
      exact { ht'' with }
    | @tooDeep c' s' ht' =>
      refine (ht'.peek hinp).alike_bind fun c₁ ht₁ => ?_
      refine ((ht₁.complain .nesting s'.rest).synchronize hinp hne).alike_bind fun c₂ ht₂ => .ok ?_
      exact { ht₂ with }
  have hless {o : Option α} {s' : Parse.State} (hrun : Parse.recover p s = .ok o s') :=
    Parse.length_recover_lt hadvances honward hs hrun
  rw [recorded_apply]
  generalize rescue inp w c = rescued at hrescue
  generalize Parse.recover p s = parsed at hrescue hless
  cases hrescue with
  | panic ht' => exact .panic ht'
  | tooDeep ht' => exact .tooDeep ht'
  | @ok o c' s' ht' =>
    have hlt : c.current < c'.current := by
      rw [ht.current, ht'.current]
      exact (Parse.position_lt_position ht.suffix).2 (hless rfl)
    refine .ok { ht' with declared := fun i j hmem => ?_ }
    rcases List.mem_cons.1 hmem with heq | hmem
    · cases heq
      exact hlt
    · exact ht'.declared i j hmem

end Scriptlet.Cursor
