import Scriptlet.Proofs.Parse.Progress
import Scriptlet.Proofs.Strict.Fork
import Scriptlet.Proofs.Strict.Simulation

/-!
# Going together up to the first problem

Two front ends that read the same tokens go together up to the first problem. While neither has
found one, they yield the same and leave token lists that go together. When the strict front end
faults, the parser has blamed nothing that stands in front of the lexeme at fault, and never will:
a parsing step does not look back. Behind the fork of the token lists nothing is compared any more.
There the strict front end takes at most the opening of a comment, and the parser blames only what
is behind the fork.

## Main definitions

* `Strict.Fork.Compares` — how a strict step and a parsing step may end
* `Strict.Fork.Stalls` — what a strict step does at the fork
* `Strict.Fork.Tracks` — a strict step tracks a parsing step
* `Strict.Fork.TracksBehind`, `Strict.Fork.TracksUnless` — the same where a token of some kinds is
  next, and where none is

## Main results

* `Fork.Tracks.bind`, `Fork.Tracks.of_accept?`, `Fork.Tracks.repeated`, `Fork.Tracks.recover` — the
  rules for combined steps
-/

namespace Scriptlet.Strict

open Grammar Parse

variable {α β : Type} {k : Fork} {q : Step α} {p : Parse α}

theorem step_bind_apply (q : Step α) (f : α → Step β) (ts : List Token) :
    (q >>= f) ts = match q ts with
      | .ok (a, rest) => f a rest
      | .error fault => .error fault := by
  change (q ts >>= fun x => f x.1 x.2) = _
  cases q ts <;> rfl

/-- The step faults at the tokens, without taking any. -/
def Refuses (q : Step α) (ts : List Token) : Prop :=
  ∃ fault, q ts = .error fault ∧ fault.rest = ts

namespace Refuses

variable {ts : List Token}

theorem stop (ts : List Token) : Refuses (stop : Step α) ts := ⟨_, rfl, rfl⟩

theorem stopNesting (ts : List Token) : Refuses (stopNesting : Step α) ts := ⟨_, rfl, rfl⟩

theorem bind {f : α → Step β} (h : Refuses q ts) : Refuses (q >>= f) ts := by
  obtain ⟨fault, hq, hrest⟩ := h
  refine ⟨fault, ?_, hrest⟩
  rw [step_bind_apply, hq]

theorem of_eq {q' : Step α} (heq : q ts = q' ts) (h : Refuses q' ts) : Refuses q ts := by
  rw [Refuses, heq]
  exact h

theorem take {kind : Kind} (h : NextNot [kind] ts) : Refuses (take kind) ts := by
  cases ts with
  | nil => exact ⟨_, rfl, rfl⟩
  | cons t ts =>
    have ht := h t rfl
    rw [List.mem_singleton] at ht
    exact ⟨.unexpected (t :: ts), by rw [Strict.take, if_neg ht], rfl⟩

end Refuses

namespace Fork

/-! ### Ends and steps -/

/-- How a strict step and a parsing step may end, where `cs` are the complaints from before. -/
inductive Compares (k : Fork) (cs : List Complaint) (n : Nat) :
    Except Fault (α × List Token) → EStateM.Result Parse.Abort State α → Prop
  /-- The parser ran out of depth. -/
  | ranOut {strict : Except Fault (α × List Token)} {parsed : EStateM.Result Parse.Abort State α} :
      RunsOut parsed → Compares k cs n strict parsed
  /-- No problem so far. -/
  | together {a : α} {ts ts' : List Token} : k.Parallel ts ts' →
      Compares k cs n (.ok (a, ts')) (.ok a ⟨ts, cs, n⟩)
  /-- The strict front end waits at the fork, the parser went on. -/
  | apart {a : α} {parsed : EStateM.Result Parse.Abort State α} : k.Apart →
      Blames cs k.parser (finalState parsed) → Compares k cs n (.ok (a, k.strict)) parsed
  | fault {fault : Fault} {ts : List Token} {parsed : EStateM.Result Parse.Abort State α} :
      k.Parallel ts fault.rest → Blames cs ts (finalState parsed) →
      Compares k cs n (.error fault) parsed
  /-- The strict front end faults behind the slash of an opening. -/
  | beyond {fault : Fault} {parsed : EStateM.Result Parse.Abort State α} :
      fault.rest = k.strict.tail → Blames cs k.parser (finalState parsed) →
      Compares k cs n (.error fault) parsed

/-- At the fork the step takes nothing, or faults there or behind the first lexeme. -/
def Stalls (k : Fork) (q : Step α) : Prop :=
  match q k.strict with
  | .ok (_, rest) => rest = k.strict
  | .error fault => fault.rest = k.strict ∨ fault.rest = k.strict.tail

/-- The strict step and the parsing step end in comparable ways, wherever they start together. -/
structure Tracks (k : Fork) (q : Step α) (p : Parse α) : Prop where
  onward : Onward p
  stalls : k.Stalls q
  compares : ∀ {ts ts' : List Token} (cs : List Complaint) (n : Nat), k.Parallel ts ts' →
    k.Compares cs n (q ts') (p ⟨ts, cs, n⟩)

/-! ### At the fork -/

namespace Stalls

theorem pure (a : α) : k.Stalls (Pure.pure a : Step α) := rfl

theorem of_eq {q' : Step α} (heq : q k.strict = q' k.strict) (h : k.Stalls q') : k.Stalls q := by
  unfold Stalls
  rw [heq]
  exact h

theorem of_fault {fault : Fault} (hq : q k.strict = .error fault)
    (hrest : fault.rest = k.strict ∨ fault.rest = k.strict.tail) : k.Stalls q := by
  unfold Stalls
  rw [hq]
  exact hrest

theorem of_refuses (h : Refuses q k.strict) : k.Stalls q := by
  obtain ⟨fault, hq, hrest⟩ := h
  exact .of_fault hq (.inl hrest)

theorem bind {f : α → Step β} (h : k.Stalls q) (hf : ∀ a, k.Stalls (f a)) :
    k.Stalls (q >>= f) := by
  unfold Stalls at h ⊢
  rw [step_bind_apply]
  cases hq : q k.strict with
  | error fault =>
    rw [hq] at h
    exact h
  | ok out =>
    rw [hq] at h
    obtain ⟨a, rest⟩ := out
    obtain rfl : rest = k.strict := h
    exact hf a

theorem extend {more : α → Step (Option α)} (h : ∀ a, k.Stalls (more a)) :
    ∀ n a, k.Stalls (extend more n a)
  | 0, a => .pure a
  | n + 1, a => by
    refine (h a).bind fun o => ?_
    cases o with
    | none => exact .pure a
    | some b => exact Stalls.extend h n b

end Stalls

/-- Behind the fork nothing more is asked of the parser than that it does not look back. -/
theorem compares_of_apart (hp : Onward p) (hq : k.Stalls q) (h : k.Apart) (cs : List Complaint)
    (n : Nat) : k.Compares cs n (q k.strict) (p ⟨k.parser, cs, n⟩) := by
  have hblames : Blames cs k.parser (finalState (p ⟨k.parser, cs, n⟩)) := hp ⟨k.parser, cs, n⟩
  unfold Stalls at hq
  cases hout : q k.strict with
  | ok out =>
    rw [hout] at hq
    obtain ⟨a, rest⟩ := out
    obtain rfl : rest = k.strict := hq
    exact .apart h hblames
  | error fault =>
    rw [hout] at hq
    rcases hq with hrest | hrest
    · refine .fault ?_ hblames
      rw [hrest]
      exact .parted
    · exact .beyond hrest hblames

/-- The lists stay equally far apart in length. -/
theorem Parallel.length_add {ts ts' : List Token} (h : k.Parallel ts ts') :
    ts.length + k.strict.length = ts'.length + k.parser.length := by
  induction h with
  | parted => exact Nat.add_comm _ _
  | cons _ _ _ ih =>
    rw [List.length_cons, List.length_cons]
    omega

/-- In front of a lexeme that is no slash, the lists have not come to the fork. -/
theorem Parallel.exists_cons {t' : Token} {ts ts' : List Token} (h : k.Parallel ts (t' :: ts'))
    (hslash : t'.kind ≠ .slash) :
    ∃ t us, ts = t :: us ∧ t.Agrees t' ∧ k.Parallel us ts' := by
  generalize hlexemes : t' :: ts' = all at h
  cases h with
  | parted =>
    rcases k.shape with hnil | ⟨slash, star, rest, hcons, hk, -⟩
    · cases hlexemes.trans hnil
    · cases hlexemes.trans hcons
      exact absurd hk hslash
  | cons hagrees _ hts =>
    cases hlexemes
    exact ⟨_, _, rfl, hagrees, hts⟩

/-! ### Steps one after the other -/

/-- What follows is compared where the first steps went together. -/
theorem Compares.bind {f : α → Step β} {g : α → Parse β} {cs : List Complaint} {n : Nat}
    {ts' : List Token} {s : State} (h : k.Compares cs n (q ts') (p s)) (hg : ∀ a, Onward (g a))
    (hf : ∀ a, k.Stalls (f a))
    (hnext : ∀ a rest rest', q ts' = .ok (a, rest') → p s = .ok a ⟨rest, cs, n⟩ →
      k.Parallel rest rest' → k.Compares cs n (f a rest') (g a ⟨rest, cs, n⟩)) :
    k.Compares cs n ((q >>= f) ts') ((p >>= g) s) := by
  rw [step_bind_apply]
  generalize hq : q ts' = strict at h hnext
  generalize hp : p s = parsed at h hnext
  -- what the parser has blamed so far stays all it blames
  have hblames (ts : List Token) (hts : Blames cs ts (finalState parsed)) :
      Blames cs ts (finalState ((p >>= g) s)) := Onward.blames_bind (hp ▸ hts) hg
  cases h with
  | ranOut hout =>
    apply ranOut
    rw [bind_apply, hp]
    cases parsed with
    | ok a t => exact (hg a t).runsOut hout
    | error e t => cases e <;> exact hout
  | together hrest =>
    rw [bind_apply, hp]
    exact hnext _ _ _ rfl rfl hrest
  | @apart a _ hapart hparser =>
    have hstalls := hf a
    unfold Stalls at hstalls
    dsimp only
    cases hout : f a k.strict with
    | ok out =>
      rw [hout] at hstalls
      obtain ⟨b, rest⟩ := out
      obtain rfl : rest = k.strict := hstalls
      exact .apart hapart (hblames _ hparser)
    | error fault =>
      rw [hout] at hstalls
      rcases hstalls with hrest | hrest
      · refine .fault ?_ (hblames _ hparser)
        rw [hrest]
        exact .parted
      · exact .beyond hrest (hblames _ hparser)
  | fault hrest hts => exact .fault hrest (hblames _ hts)
  | beyond hrest hts => exact .beyond hrest (hblames _ hts)

namespace Tracks

theorem pure (a : α) : k.Tracks (Pure.pure a) (Pure.pure a) where
  onward := .pure a
  stalls := .pure a
  compares _ _ h := .together h

/-- Where the parser has no depth left, nothing is compared. -/
theorem throw (h : k.Stalls q) : k.Tracks q (throw .tooDeep) where
  onward := .throw
  stalls := h
  compares _ _ _ := .ranOut trivial

theorem bind {f : α → Step β} {g : α → Parse β} (h : k.Tracks q p)
    (hf : ∀ a, k.Tracks (f a) (g a)) : k.Tracks (q >>= f) (p >>= g) where
  onward := h.onward.bind fun a => (hf a).onward
  stalls := h.stalls.bind fun a => (hf a).stalls
  compares cs n hts := by
    refine (h.compares cs n hts).bind (fun a => (hf a).onward) (fun a => (hf a).stalls) ?_
    intro a rest rest' _ _ hrest
    exact (hf a).compares cs n hrest

/-- It is enough to compare the steps at the common end and in front of tokens that agree. -/
theorem of_cases (hp : Onward p) (hq : k.Stalls q)
    (hend : k.Parallel [] [] → ∀ cs n, k.Compares cs n (q []) (p ⟨[], cs, n⟩))
    (hcons : ∀ (t t' : Token) (ts ts' : List Token), t.Agrees t' → k.Parallel ts ts' →
      k.Parallel (t :: ts) (t' :: ts') →
      ∀ cs n, k.Compares cs n (q (t' :: ts')) (p ⟨t :: ts, cs, n⟩)) :
    k.Tracks q p where
  onward := hp
  stalls := hq
  compares cs n hts := by
    cases hts with
    | parted =>
      by_cases hapart : k.Apart
      · exact compares_of_apart hp hq hapart cs n
      · obtain ⟨hparser, hstrict⟩ := not_not.1 hapart
        have hparted := Parallel.parted (k := k)
        rw [hparser, hstrict] at hparted ⊢
        exact hend hparted cs n
    | cons hagrees hline hts => exact hcons _ _ _ _ hagrees hts (.cons hagrees hline hts) cs n

end Tracks

/-! ### Tokens -/

/-- The lexeme that the strict front end waits for at the fork, if any, is a slash. -/
theorem nextNot_strict {kinds : List Kind} (h : Kind.slash ∉ kinds) : NextNot kinds k.strict := by
  rcases k.shape with hnil | ⟨slash, star, rest, hcons, hslash, -⟩
  · rw [hnil]
    exact fun t ht => by cases ht
  · rw [hcons]
    exact .cons (hslash ▸ h)

/-- Behind the token `t'`, which the parser has taken already and the strict step takes first, the
steps end in comparable ways. -/
def TracksBehind (k : Fork) (t' : Token) (q : Step α) (p : Parse α) : Prop :=
  ∀ (ts ts' : List Token) (cs : List Complaint) (n : Nat), k.Parallel ts ts' →
    k.Compares cs n (q (t' :: ts')) (p ⟨ts, cs, n⟩)

/-- Unless a token of one of the given kinds is next, the steps end in comparable ways. -/
def TracksUnless (k : Fork) (kinds : List Kind) (q : Step α) (p : Parse α) : Prop :=
  ∀ (ts ts' : List Token) (cs : List Complaint) (n : Nat), NextNot kinds ts → NextNot kinds ts' →
    k.Parallel ts ts' → k.Compares cs n (q ts') (p ⟨ts, cs, n⟩)

namespace TracksBehind

variable {t' : Token} {g : α → Parse β}

theorem throw : k.TracksBehind t' q (throw .tooDeep) :=
  fun _ _ _ _ _ => .ranOut trivial

theorem bind {f : α → Step β} (h : k.TracksBehind t' q p) (hf : ∀ a, k.Tracks (f a) (g a)) :
    k.TracksBehind t' (q >>= f) (p >>= g) := by
  intro ts ts' cs n hts
  refine (h ts ts' cs n hts).bind (fun a => (hf a).onward) (fun a => (hf a).stalls) ?_
  intro a rest rest' _ _ hrest
  exact (hf a).compares cs n hrest

theorem take {kind : Kind} {f : Token → Step α} (ht : t'.kind = kind) (h : k.Tracks (f t') p) :
    k.TracksBehind t' (take kind >>= f) p := by
  intro ts ts' cs n hts
  rw [step_bind_apply, Strict.take, if_pos ht]
  exact h.compares cs n hts

theorem takeIf? {test : Kind → Bool} {f : Option Token → Step α} (ht : test t'.kind = true)
    (h : k.Tracks (f (some t')) p) : k.TracksBehind t' (takeIf? test >>= f) p := by
  intro ts ts' cs n hts
  rw [step_bind_apply, Strict.takeIf?, if_pos ht]
  exact h.compares cs n hts

/-- What follows takes the token instead. -/
theorem takeIf?_none {test : Kind → Bool} {f : Option Token → Step α}
    (ht : test t'.kind = false) (h : k.TracksBehind t' (f none) p) :
    k.TracksBehind t' (Strict.takeIf? test >>= f) p := by
  intro ts ts' cs n hts
  rw [step_bind_apply, Strict.takeIf?, if_neg (by simp [ht])]
  exact h ts ts' cs n hts

theorem peek? {kind : Kind} {f : Option Kind → Step α} (ht : t'.kind = kind)
    (h : k.TracksBehind t' (f (some kind)) p) : k.TracksBehind t' (peek? >>= f) p := by
  intro ts ts' cs n hts
  subst ht
  exact h ts ts' cs n hts

end TracksBehind

namespace TracksUnless

variable {kinds : List Kind}

theorem of_eq {q' : Step α} (hskip : ∀ ts, NextNot kinds ts → q ts = q' ts)
    (h : k.Tracks q' p) : k.TracksUnless kinds q p := by
  intro ts ts' cs n _ hnext hts
  rw [hskip ts' hnext]
  exact h.compares cs n hts

/-- Both blame the next token. -/
theorem fail (cause : Cause) (h : ∀ ts, NextNot kinds ts → Refuses q ts) :
    k.TracksUnless kinds q (fail cause) := by
  intro ts ts' cs n _ hnext hts
  obtain ⟨fault, hq, hrest⟩ := h ts' hnext
  rw [hq]
  exact .fault (hrest ▸ hts) (Onward.fail (α := α) cause ⟨ts, cs, n⟩)

end TracksUnless

namespace Tracks

/-- The parser takes a token of one of the given kinds and goes on, or goes on without one. The
strict step does the same, one way or another. -/
theorem of_accept? {kinds : List Kind} {f : Option Token → Parse α}
    (hp : Onward (accept? kinds >>= f)) (hq : k.Stalls q)
    (htook : ∀ t t' : Token, t.Agrees t' → t.kind ∈ kinds → k.TracksBehind t' q (f (some t)))
    (hleft : k.TracksUnless kinds q (f none)) : k.Tracks q (accept? kinds >>= f) := by
  have hnone {ts ts' : List Token} (hts : k.Parallel ts ts') (h : NextNot kinds ts)
      (h' : NextNot kinds ts') (cs : List Complaint) (n : Nat) :
      k.Compares cs n (q ts') ((accept? kinds >>= f) ⟨ts, cs, n⟩) := by
    rw [bind_apply, accept?_of_notMem h]
    exact hleft ts ts' cs n h h' hts
  refine of_cases hp hq (fun hend cs n => ?_) fun t t' ts ts' hagrees hts hall cs n => ?_
  · exact hnone hend (fun t ht => by cases ht) (fun t ht => by cases ht) cs n
  · by_cases hk : t.kind ∈ kinds
    · rw [bind_apply, accept?_cons hk]
      exact htook t t' hagrees hk ts ts' cs n hts
    · exact hnone hall (.cons hk) (.cons (hagrees.kind_eq ▸ hk)) cs n

theorem expect {kind : Kind} (cause : Cause) (hslash : kind ≠ .slash) (hstring : kind ≠ .string) :
    k.Tracks (take kind) (expect kind cause) := by
  have hrefuses (ts : List Token) (hts : NextNot [kind] ts) : Refuses (take kind) ts := .take hts
  refine of_accept? (.expect kind cause) (.of_refuses (hrefuses _ ?_)) (fun t t' hagrees hk => ?_)
    (.fail cause hrefuses)
  · exact nextNot_strict (by simpa using hslash.symm)
  · have ht := List.mem_singleton.1 hk
    obtain rfl := hagrees.eq (ht ▸ hstring)
    rw [← bind_pure (take kind)]
    exact .take ht (.pure t')

/-- The parser takes an opening token first, the strict step takes it along with what follows. -/
theorem opening {kind : Kind} (cause : Cause) (hslash : kind ≠ .slash) (hp : Onward p)
    (hrefuses : ∀ ts, NextNot [kind] ts → Refuses q ts)
    (h : ∀ t : Token, t.kind = kind → k.TracksBehind t q p) :
    k.Tracks q (Parse.expect kind cause >>= fun _ => p) := by
  have heq : (Parse.expect kind cause >>= fun _ => p) =
      accept? [kind] >>= fun o => o.elim (Parse.fail cause) fun _ => p := by
    rw [Parse.expect, bind_assoc]
    congr 1
    funext o
    cases o <;> rfl
  have honward : Onward (Parse.expect kind cause >>= fun _ => p) :=
    (Onward.expect kind cause).bind fun _ => hp
  rw [heq] at honward ⊢
  refine of_accept? honward (.of_refuses (hrefuses _ ?_)) (fun t t' hagrees hk => ?_)
    (.fail cause hrefuses)
  · exact nextNot_strict (by simpa using hslash.symm)
  · exact h t' (hagrees.kind_eq.trans (List.mem_singleton.1 hk))

/-! ### A look ahead, repetition and recovery -/

/-- A default if a token of the given kind is next, else what the step yields. -/
theorem unlessNext {kind : Kind} (hslash : kind ≠ .slash) (absent : α) (h : k.Tracks q p) :
    k.Tracks (do if (← peek?) == some kind then return absent else q)
      (do if ← nextIs kind then return absent else p) := by
  have hp : Onward (do if ← nextIs kind then return absent else p) :=
    (Onward.nextIs kind).bind fun _ => .ite (.pure absent) h.onward
  have hne {ts : List Token} (hts : NextNot [kind] ts) :
      ¬ (ts.head?.map (·.kind) == some kind) = true := by
    rw [beq_iff_eq]
    exact head?_ne hts List.mem_cons_self
  -- where no such token is next, both go on
  have hnone {ts ts' : List Token} (hts : k.Parallel ts ts') (hnext : NextNot [kind] ts)
      (hnext' : NextNot [kind] ts') (cs : List Complaint) (n : Nat) :
      k.Compares cs n
        ((if ts'.head?.map (·.kind) == some kind then return absent else q : Step α) ts')
        ((if ts.head?.map (·.kind) == some kind then return absent else p : Parse α)
          ⟨ts, cs, n⟩) := by
    rw [if_neg (hne hnext), if_neg (hne hnext')]
    exact h.compares cs n hts
  refine of_cases hp ?_ (fun hend cs n => ?_) fun t t' ts ts' hagrees hts hall cs n => ?_
  · refine .of_eq ?_ h.stalls
    change (if k.strict.head?.map (·.kind) == some kind then _ else q : Step α) k.strict = _
    rw [if_neg (hne (nextNot_strict (by simpa using hslash.symm)))]
  · exact hnone hend (fun t ht => by cases ht) (fun t ht => by cases ht) cs n
  · by_cases hk : t.kind = kind
    · change k.Compares cs n ((if some t'.kind == some kind then return absent else q : Step α) _)
        ((if some t.kind == some kind then return absent else p : Parse α) _)
      rw [hagrees.kind_eq, hk, if_pos (beq_self_eq_true _), if_pos (beq_self_eq_true _)]
      exact .together hall
    · rw [← List.mem_singleton] at hk
      exact hnone hall (.cons hk) (.cons (hagrees.kind_eq ▸ hk)) cs n

theorem extend_nil {more : α → Step (Option α)} (h : ∀ a, more a [] = .ok (none, [])) (n : Nat)
    (a : α) : extend more n a [] = .ok (a, []) := by
  cases n with
  | zero => rfl
  | succ n =>
    rw [extend, step_bind_apply, h]
    rfl

section Repetition

variable {more : α → Step (Option α)} {step : α → Parse (Option α)}
  (h : ∀ a, k.Tracks (more a) (step a)) (hend : ∀ a, more a [] = .ok (none, []))

include h hend

/-- At a common end, no round of the parser goes on either. -/
theorem compares_iterate_fork (m n : Nat) (a : α) (cs : List Complaint) (g : Nat) :
    k.Compares cs g (extend more n a k.strict) (iterate step m a ⟨k.parser, cs, g⟩) := by
  by_cases hapart : k.Apart
  · exact compares_of_apart (.iterate (fun a => (h a).onward) m a)
      (.extend (fun a => (h a).stalls) n a) hapart cs g
  obtain ⟨hparser, hstrict⟩ := not_not.1 hapart
  have hparted := Parallel.parted (k := k)
  rw [hparser, hstrict] at hparted ⊢
  rw [extend_nil hend]
  cases m with
  | zero => exact .together hparted
  | succ m =>
    -- one round of the strict loop is as good as any number
    rw [← extend_nil hend 1 a, extend, iterate]
    refine ((h a).compares cs g hparted).bind (fun o => ?_) (fun o => ?_) ?_
    · cases o with
      | none => exact .pure a
      | some b => exact .iterate (fun a => (h a).onward) m b
    · cases o with
      | none => exact .pure a
      | some b => exact .pure b
    · intro o rest rest' hq _ hrest
      rw [hend] at hq
      cases hq
      exact .together hrest

variable (hless : ∀ a, Advances (fun o => o.isSome) (step a))

include hless

/-- A round takes a token on both sides, so that the fuel of both lasts. -/
theorem compares_iterate {ts ts' : List Token} (hts : k.Parallel ts ts') {m n : Nat}
    (hm : ts.length ≤ m) (hn : ts'.length ≤ n) (a : α) (cs : List Complaint) (g : Nat) :
    k.Compares cs g (extend more n a ts') (iterate step m a ⟨ts, cs, g⟩) := by
  induction m generalizing ts ts' n a with
  | zero =>
    cases hts with
    | parted => exact compares_iterate_fork h hend 0 n a cs g
    | cons => simp at hm
  | succ m ih =>
    cases hts with
    | parted => exact compares_iterate_fork h hend (m + 1) n a cs g
    | cons hagrees hline hts =>
      obtain _ | n := n
      · simp at hn
      have hall := Parallel.cons hagrees hline hts
      rw [extend, iterate]
      refine ((h a).compares cs g hall).bind (fun o => ?_) (fun o => ?_) ?_
      · cases o with
        | none => exact .pure a
        | some b => exact .iterate (fun a => (h a).onward) m b
      · cases o with
        | none => exact .pure a
        | some b => exact .extend (fun a => (h a).stalls) n b
      · intro o rest rest' _ hp hrest
        cases o with
        | none => exact .together hrest
        | some b =>
          -- the lists stay equally far apart, so what one loses the other loses
          have hshorter := hless a _ _ _ hp rfl
          dsimp only at hshorter
          have hlength := hall.length_add
          have hlength' := hrest.length_add
          exact ih hrest (by omega) (by omega) b

theorem repeated (a : α) : k.Tracks (extendAll more a) (repeated step a) where
  onward := .repeated (fun a => (h a).onward) a
  stalls := by
    unfold Stalls extendAll
    exact Stalls.extend (fun a => (h a).stalls) k.strict.length a
  compares cs n hts := compares_iterate h hend hless hts (Nat.le_refl _) (Nat.le_refl _) a cs n

end Repetition

/-- A declaration that the parser gives up is one at which the strict front end faults. -/
theorem recover (h : k.Tracks q p) :
    k.Tracks (q >>= fun a => Pure.pure (some a)) (recover p) where
  onward := h.onward.recover
  stalls := h.stalls.bind fun a => .pure (some a)
  compares {ts ts'} cs n hts := by
    have hcompares := h.compares cs n hts
    have hblames (us : List Token) (hus : Blames cs us (finalState (p ⟨ts, cs, n⟩))) :
        Blames cs us (finalState (Parse.recover p ⟨ts, cs, n⟩)) := Onward.blames_recover hus
    rw [step_bind_apply]
    generalize q ts' = strict at hcompares
    generalize hp : p ⟨ts, cs, n⟩ = parsed at hcompares hblames
    cases hcompares with
    | ranOut hout =>
      apply Compares.ranOut
      rw [Parse.recover, hp]
      cases parsed with
      | ok a t => exact hout
      | error e t =>
        cases e with
        | panic => exact hout
        | tooDeep => exact ⟨_, List.mem_cons_self, rfl⟩
    | together hrest =>
      rw [Parse.recover, hp]
      exact .together hrest
    | apart hapart hus => exact .apart hapart (hblames _ hus)
    | fault hrest hus => exact .fault hrest (hblames _ hus)
    | beyond hrest hus => exact .beyond hrest (hblames _ hus)

end Tracks

end Fork

end Scriptlet.Strict
