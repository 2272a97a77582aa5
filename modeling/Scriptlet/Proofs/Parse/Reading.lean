import Scriptlet.Proofs.Parse.Contract

/-!
# What a parsing step reads

The converse of a contract: from given tokens, a step yields a given result and leaves given tokens,
without a complaint, whatever was complained about before. A step may instead run out of nesting
depth. Where no declaration is involved this shows as an abort; a declaration that runs out is given
up with a complaint about the nesting, and parsing goes on.

## Main definitions

* `Parse.Reads` — a step reads tokens, or aborts as too deep
* `Parse.Loops` — a repeated step reads tokens, round by round
* `Parse.Gets` — a step reads tokens, or runs out of depth in one way or the other
* `Parse.NeverAborts` — a step yields something from every state

## Main results

* `Reads.bind`, `Reads.repeated`, `Gets.bind`, `Gets.recover` — the rules for combined steps
-/

namespace Scriptlet.Parse

variable {α β : Type}

/-- The next token, if there is one, is of none of the given kinds. -/
def NextNot (kinds : List Kind) (ts : List Token) : Prop := ∀ t ∈ ts.head?, t.kind ∉ kinds

theorem NextNot.cons {kinds : List Kind} {t : Token} {ts : List Token} (h : t.kind ∉ kinds) :
    NextNot kinds (t :: ts) := by
  intro t' ht'
  cases ht'
  exact h

theorem NextNot.mono {kinds kinds' : List Kind} {ts : List Token} (h : NextNot kinds ts)
    (hsub : kinds' ⊆ kinds) : NextNot kinds' ts :=
  fun t ht hmem => h t ht (hsub hmem)

theorem exists_cons_of_not_nextNot {kinds : List Kind} {ts : List Token}
    (h : ¬ NextNot kinds ts) : ∃ t rest, ts = t :: rest ∧ t.kind ∈ kinds := by
  cases ts with
  | nil => exact absurd nofun h
  | cons t rest => exact ⟨t, rest, rfl, Decidable.of_not_not fun hk => h (.cons hk)⟩

/-- The next token is left, or it is taken. -/
theorem accept?_cases (kinds : List Kind) (s : State) :
    NextNot kinds s.rest ∧ accept? kinds s = .ok none s ∨
      ∃ t rest, s.rest = t :: rest ∧ t.kind ∈ kinds ∧
        accept? kinds s = .ok (some t) { s with rest } := by
  obtain ⟨ts, cs, n⟩ := s
  by_cases hnext : NextNot kinds ts
  · exact .inl ⟨hnext, accept?_of_notMem hnext⟩
  · obtain ⟨t, rest, rfl, hk⟩ := exists_cons_of_not_nextNot hnext
    exact .inr ⟨t, rest, rfl, hk, accept?_cons hk⟩

/-- From the tokens `before` the step yields `a` and leaves `after`, or it aborts as too deep. -/
def Reads (p : Parse α) (before : List Token) (a : α) (after : List Token) : Prop :=
  ∀ cs n, p ⟨before, cs, n⟩ = .ok a ⟨after, cs, n⟩ ∨ ∃ s, p ⟨before, cs, n⟩ = .error .tooDeep s

namespace Reads

variable {p : Parse α} {f : α → Parse β} {before mid after : List Token} {a : α} {b : β}

theorem pure (a : α) (ts : List Token) : Reads (Pure.pure a) ts a ts := fun _ _ => .inl rfl

theorem throw : Reads (throw .tooDeep) before a after := fun _ _ => .inr ⟨_, rfl⟩

theorem bind (h : Reads p before a mid) (hf : Reads (f a) mid b after) :
    Reads (p >>= f) before b after := by
  intro cs n
  rw [bind_apply]
  rcases h cs n with hp | ⟨s, hp⟩
  · rw [hp]
    exact hf cs n
  · rw [hp]
    exact .inr ⟨s, rfl⟩

/-- What comes after a look at the tokens may use them. -/
theorem get_bind {k : State → Parse β} (h : ∀ cs n, Reads (k ⟨before, cs, n⟩) before b after) :
    Reads (get >>= k) before b after := by
  intro cs n
  rw [bind_apply]
  exact h cs n cs n

theorem took {kinds : List Kind} {t : Token} {rest : List Token} (h : t.kind ∈ kinds) :
    Reads (accept? kinds) (t :: rest) (some t) rest :=
  fun _ _ => .inl (accept?_cons h)

theorem left {kinds : List Kind} {ts : List Token} (h : NextNot kinds ts) :
    Reads (accept? kinds) ts none ts :=
  fun _ _ => .inl (accept?_of_notMem h)

theorem expect {kind : Kind} {t : Token} {rest : List Token} (cause : Cause) (h : t.kind = kind) :
    Reads (expect kind cause) (t :: rest) t rest :=
  bind (took (List.mem_singleton.2 h)) (pure t rest)

theorem nextKind? (ts : List Token) : Reads nextKind? ts (ts.head?.map (·.kind)) ts :=
  fun _ _ => .inl rfl

theorem nextIs (kind : Kind) (ts : List Token) :
    Reads (nextIs kind) ts (ts.head?.map (·.kind) == some kind) ts :=
  fun _ _ => .inl rfl

end Reads

/-- A step that yields something yields what it reads. -/
theorem Ensures.reads {p : Parse α} {D : List Token → α → List Token → Prop} (h : Ensures p D) :
    Ensures p fun ts a rest => D ts a rest ∧ ∀ b after, Reads p ts b after →
      a = b ∧ rest = after := by
  intro s
  have hs := h s
  cases hp : p s with
  | ok a t =>
    rw [hp] at hs
    refine ⟨hs.1, fun hc => ⟨hs.2 hc, fun b after hreads => ?_⟩⟩
    -- a step is a function, so the two results are the same
    rcases hreads s.complaints s.givenUp with hok | ⟨u, herror⟩
    · cases hp.symm.trans hok
      exact ⟨rfl, rfl⟩
    · cases hp.symm.trans herror
  | error e t =>
    rw [hp] at hs
    cases e <;> exact hs

/-- The rounds of a repeated step: each takes a token at least, and the last one yields nothing. -/
inductive Loops (step : α → Parse (Option α)) :
    α → List Token → α → List Token → Prop
  | stop {a : α} {ts : List Token} : Reads (step a) ts none ts → Loops step a ts a ts
  | go {a b c : α} {before mid after : List Token} : Reads (step a) before (some b) mid →
      mid.length < before.length → Loops step b mid c after → Loops step a before c after

theorem Loops.iterate {step : α → Parse (Option α)} {a c : α} {before after : List Token}
    (h : Loops step a before c after) {n : Nat} (hn : before.length ≤ n) :
    Reads (iterate step n a) before c after := by
  induction h generalizing n with
  | stop hstep =>
    cases n with
    | zero => exact .pure _ _
    | succ n => exact .bind hstep (.pure _ _)
  | go hstep hlt _ ih =>
    cases n with
    -- a round took a token, so there was one
    | zero => omega
    | succ n => exact .bind hstep (ih (by omega))

theorem Reads.repeated {step : α → Parse (Option α)} {a c : α} {before after : List Token}
    (h : Loops step a before c after) : Reads (repeated step a) before c after :=
  .get_bind fun _ _ => h.iterate (Nat.le_refl _)

/-! ### Running out of depth across declarations -/

/-- The depth is exhausted: the step aborts as too deep, or a declaration was given up for it. -/
def RunsOut : EStateM.Result Abort State α → Prop
  | .error .tooDeep _ => True
  | .error .panic s | .ok _ s => ∃ c ∈ s.complaints, c.cause = .nesting

/-- From the tokens `before` the step yields `a` and leaves `after`, or the depth is exhausted. -/
def Gets (p : Parse α) (before : List Token) (a : α) (after : List Token) : Prop :=
  ∀ cs n, p ⟨before, cs, n⟩ = .ok a ⟨after, cs, n⟩ ∨ RunsOut (p ⟨before, cs, n⟩)

theorem Reads.gets {p : Parse α} {before after : List Token} {a : α}
    (h : Reads p before a after) : Gets p before a after := by
  intro cs n
  rcases h cs n with hp | ⟨s, hp⟩
  · exact .inl hp
  · rw [hp]
    exact .inr trivial

/-- A complaint about the nesting stays. -/
theorem Steady.runsOut {p : Parse α} (h : Steady p) {s : State}
    (hs : ∃ c ∈ s.complaints, c.cause = .nesting) : RunsOut (p s) := by
  have hp := h s
  obtain ⟨c, hc, hcause⟩ := hs
  cases hr : p s with
  | ok a s' =>
    rw [hr] at hp
    exact ⟨c, hp.1.complaints.subset hc, hcause⟩
  | error e s' =>
    rw [hr] at hp
    cases e with
    | panic => exact ⟨c, hp.1.complaints.subset hc, hcause⟩
    | tooDeep => trivial

theorem Steady.pure (a : α) : Steady (Pure.pure a) := (Ensures.pure a).steady

theorem Steady.bind {p : Parse α} {f : α → Parse β} (h : Steady p) (hf : ∀ a, Steady (f a)) :
    Steady (p >>= f) := (Ensures.bind h hf).steady

theorem Steady.iterate {step : α → Parse (Option α)} (h : ∀ a, Steady (step a)) (n : Nat) (a : α) :
    Steady (Parse.iterate step n a) := iterate_of_bind (C := @Steady) .pure .bind h n a

namespace Gets

variable {p : Parse α} {f : α → Parse β} {before mid after : List Token} {a : α} {b : β}

/-- Steps one after the other; what follows must not withdraw a complaint. -/
theorem bind (h : Gets p before a mid) (hsteady : ∀ a, Steady (f a))
    (hf : Gets (f a) mid b after) : Gets (p >>= f) before b after := by
  intro cs n
  rw [bind_apply]
  rcases h cs n with hp | hout
  · rw [hp]
    exact hf cs n
  · right
    cases hp : p ⟨before, cs, n⟩ with
    | ok a' s =>
      rw [hp] at hout
      -- the complaint about the nesting is carried on to the end
      exact (hsteady a').runsOut hout
    | error e s =>
      rw [hp] at hout
      cases e <;> exact hout

/-- A last step that only puts a result together. -/
theorem map {g : α → β} (h : Gets p before a after) :
    Gets (p >>= fun a => pure (g a)) before (g a) after :=
  h.bind (fun _ => .pure _) (Reads.pure _ _).gets

/-- A step without declarations in it needs no such condition. -/
theorem bind_reads (h : Reads p before a mid) (hf : Gets (f a) mid b after) :
    Gets (p >>= f) before b after := by
  intro cs n
  rw [bind_apply]
  rcases h cs n with hp | ⟨s, hp⟩
  · rw [hp]
    exact hf cs n
  · rw [hp]
    exact .inr trivial

theorem repeated {step : α → Parse (Option α)} {c : α}
    (h : Gets (iterate step before.length a) before c after) :
    Gets (repeated step a) before c after := by
  intro cs n
  rw [Parse.repeated, bind_apply]
  exact h cs n

/-- A declaration that runs out of depth is given up with a complaint. -/
theorem recover (h : Gets p before a after) : Gets (recover p) before (some a) after := by
  intro cs n
  rw [Parse.recover]
  rcases h cs n with hp | hout
  · rw [hp]
    exact .inl rfl
  · right
    cases hp : p ⟨before, cs, n⟩ with
    | ok a' s =>
      rw [hp] at hout
      exact hout
    | error e s =>
      rw [hp] at hout
      cases e with
      | panic => exact hout
      -- this is where an abort becomes a complaint
      | tooDeep => exact ⟨_, List.mem_cons_self, rfl⟩

end Gets

/-! ### Steps that never abort -/

/-- The step yields something from every state. -/
def NeverAborts (p : Parse α) : Prop := ∀ s, ∃ a s', p s = .ok a s'

namespace NeverAborts

theorem pure (a : α) : NeverAborts (Pure.pure a) := fun s => ⟨a, s, rfl⟩

theorem bind {p : Parse α} {f : α → Parse β} (h : NeverAborts p) (hf : ∀ a, NeverAborts (f a)) :
    NeverAborts (p >>= f) := by
  intro s
  obtain ⟨a, s', hp⟩ := h s
  rw [bind_apply, hp]
  exact hf a s'

theorem nextKind? : NeverAborts nextKind? := fun s => ⟨_, s, rfl⟩

theorem iterate {step : α → Parse (Option α)} (h : ∀ a, NeverAborts (step a)) (n : Nat) (a : α) :
    NeverAborts (Parse.iterate step n a) := iterate_of_bind (C := @NeverAborts) .pure .bind h n a

theorem repeated {step : α → Parse (Option α)} (h : ∀ a, NeverAborts (step a)) (a : α) :
    NeverAborts (repeated step a) :=
  .bind (fun s => ⟨s, s, rfl⟩) fun s => .iterate h s.rest.length a

theorem recover (p : Parse α) : NeverAborts (recover p) := by
  intro s
  rw [Parse.recover]
  split <;> exact ⟨_, _, rfl⟩

end NeverAborts

end Scriptlet.Parse
