import Mathlib.Order.Bounds.Defs
import Scriptlet.Proofs.Parse.Distinct

/-!
# Where parsing resumes

A declaration that is given up skips tokens up to the next statement boundary, which lies behind a
semicolon, before a token that starts a statement, or at the end. The search for it starts behind
the blamed token: if that token itself starts a statement, it is skipped all the same, and the
statement that it starts is lost.

## Main definitions

* `Parse.StartsStatementAt`, `Parse.IsBoundary` — where parsing may resume

## Main results

* `Parse.isLeast_position_synchronize` — skipping stops at the first boundary behind a token
* `Parse.declaration_resumes` — where a declaration that was given up leaves the parser
* `Parse.declaration_skips_statement` — a token that starts a statement can be skipped
-/

namespace Scriptlet.Parse

/-- A token that starts a statement stands at position `i`. -/
def StartsStatementAt (tokens : List Token) (i : Nat) : Prop :=
  ∃ t, tokens[i]? = some t ∧ t.kind.startsStatement = true

/-- Parsing may resume at position `j` after a fault at position `i`: an end token stands at `j`, or
a token that starts a statement, or a semicolon that is not in front of `i` stands right before. -/
def IsBoundary (tokens : List Token) (i j : Nat) : Prop :=
  (∃ t, tokens[j]? = some t ∧ t.kind = .eof) ∨ StartsStatementAt tokens j ∨
    i < j ∧ ∃ t, tokens[j - 1]? = some t ∧ t.kind = .semicolon

variable {tokens : List Token} {i : Nat}

/-- If position `i` is passed over, the first boundary from there on is the first one behind it. -/
theorem isLeast_of_not_isBoundary {p q : Nat} (hp : ¬ IsBoundary tokens i p)
    (h : IsLeast {j | p < j ∧ IsBoundary tokens i j} q) :
    IsLeast {j | p ≤ j ∧ IsBoundary tokens i j} q := by
  obtain ⟨⟨hlt, hq⟩, hleast⟩ := h
  refine ⟨⟨Nat.le_of_lt hlt, hq⟩, fun j ⟨hle, hj⟩ => hleast ⟨?_, hj⟩⟩
  refine Nat.lt_of_le_of_ne hle ?_
  rintro rfl
  exact hp hj

/-- Skipping that starts behind a token of the list, at `i` or later, stops at the first boundary
from the next token on. -/
theorem isLeast_position_skipFrom (heof : EndsInEof tokens) {previous : Token} {rest : List Token}
    (h : previous :: rest <:+ beforeEnd tokens)
    (hi : i ≤ position tokens (previous :: rest)) :
    IsLeast {j | position tokens rest ≤ j ∧ IsBoundary tokens i j}
      (position tokens (skipFrom previous rest)) := by
  induction rest generalizing previous with
  | nil =>
    obtain ⟨last, hlast, hkind⟩ := exists_eof heof
    exact ⟨⟨Nat.le_refl _, .inl ⟨last, hlast, hkind⟩⟩, fun j hj => hj.1⟩
  | cons t rest ih =>
    have hrest : t :: rest <:+ beforeEnd tokens := (List.suffix_cons _ _).trans h
    have hnext : position tokens (t :: rest) = position tokens (previous :: t :: rest) + 1 :=
      position_cons h
    have hprevious : tokens[position tokens (t :: rest) - 1]? = some previous := by
      rw [hnext]
      exact getElem?_position h
    have ht : tokens[position tokens (t :: rest)]? = some t := getElem?_position hrest
    rw [skipFrom]
    split
    · next hstop =>
      refine ⟨⟨Nat.le_refl _, ?_⟩, fun j hj => hj.1⟩
      rcases hstop with hsemicolon | hstarts
      · exact .inr (.inr ⟨by omega, previous, hprevious, hsemicolon⟩)
      · exact .inr (.inl ⟨t, ht, hstarts⟩)
    · next hgo =>
      obtain ⟨hsemicolon, hstarts⟩ := not_or.1 hgo
      have hskip := ih hrest (by omega)
      rw [position_cons hrest] at hskip
      refine isLeast_of_not_isBoundary ?_ hskip
      rintro (⟨t', ht', hkind⟩ | ⟨t', ht', hkind⟩ | ⟨-, t', ht', hkind⟩)
      · cases ht.symm.trans ht'
        exact kind_ne_eof_of_mem_beforeEnd (hrest.subset List.mem_cons_self) hkind
      · cases ht.symm.trans ht'
        exact hstarts hkind
      · cases hprevious.symm.trans ht'
        exact hsemicolon hkind

/-- Resuming after a fault skips the blamed token, if there is one, and stops at the first boundary
behind it. -/
theorem isLeast_position_synchronize (heof : EndsInEof tokens) {rest : List Token}
    (h : rest <:+ beforeEnd tokens) :
    (¬ StartsStatementAt tokens (position tokens rest) →
      IsLeast {j | position tokens rest ≤ j ∧ IsBoundary tokens (position tokens rest) j}
        (position tokens (synchronize rest))) ∧
    (StartsStatementAt tokens (position tokens rest) →
      IsLeast {j | position tokens rest < j ∧ IsBoundary tokens (position tokens rest) j}
        (position tokens (synchronize rest))) := by
  cases rest with
  | nil =>
    obtain ⟨last, hlast, hkind⟩ := exists_eof heof
    have hend : IsBoundary tokens (position tokens []) (position tokens []) :=
      .inl ⟨last, hlast, hkind⟩
    refine ⟨fun _ => ⟨⟨Nat.le_refl _, hend⟩, fun j hj => hj.1⟩, fun ⟨t, ht, hstarts⟩ => ?_⟩
    -- the end token starts no statement
    cases hlast.symm.trans ht
    rw [hkind] at hstarts
    cases hstarts
  | cons t rest =>
    have ht : tokens[position tokens (t :: rest)]? = some t := getElem?_position h
    have hskip := isLeast_position_skipFrom heof h (Nat.le_refl _)
    rw [position_cons h] at hskip
    refine ⟨fun hstarts => isLeast_of_not_isBoundary ?_ hskip, fun _ => hskip⟩
    rintro (⟨t', ht', hkind⟩ | hstarts' | ⟨hlt, -⟩)
    · cases ht.symm.trans ht'
      exact kind_ne_eof_of_mem_beforeEnd (h.subset List.mem_cons_self) hkind
    · exact hstarts hstarts'
    · exact Nat.lt_irrefl _ hlt

/-- Where a declaration that was given up leaves the parser. Its own complaint is the newest one;
let it blame the token at position `i`. Parsing resumes at the first boundary from `i` on if the
blamed token does not start a statement, and at the first boundary behind it if it does. -/
theorem declaration_resumes (heof : EndsInEof tokens) {d : Nat} {s s' : State}
    (hs : s.rest <:+ beforeEnd tokens) (h : declaration d s = .ok none s') :
    ∃ c older i, s'.complaints = c :: older ∧ s.complaints <:+ older ∧ c.isPanic = true ∧
      c.rest = (beforeEnd tokens).drop i ∧ i = position tokens c.rest ∧
      s'.rest = (beforeEnd tokens).drop (position tokens s'.rest) ∧
      (¬ StartsStatementAt tokens i →
        IsLeast {j | i ≤ j ∧ IsBoundary tokens i j} (position tokens s'.rest)) ∧
      (StartsStatementAt tokens i →
        IsLeast {j | i < j ∧ IsBoundary tokens i j} (position tokens s'.rest)) := by
  cases d with
  | zero => cases h
  | succ d =>
    have hpart := accounts.declarationWith (accounts.expression d) (accounts.statement d)
      (accounts.block d)
    rcases hpart.recover_cases s with ⟨a, t, -, hrun⟩ | ⟨t, cause, hcause, hsettled, hrun⟩
    · cases hrun.symm.trans h
    · cases hrun.symm.trans h
      obtain ⟨hrest, new, hnew, -⟩ := hsettled
      have hblamed : t.rest <:+ beforeEnd tokens := hrest.trans hs
      have hresumed : (t.giveUp cause).rest <:+ beforeEnd tokens :=
        (synchronize_suffix t.rest).trans hblamed
      refine ⟨⟨cause, t.rest⟩, t.complaints, position tokens t.rest, rfl, ?_, ?_,
        (drop_position hblamed).symm, rfl, (drop_position hresumed).symm,
        isLeast_position_synchronize heof hblamed⟩
      · rw [hnew]
        exact List.suffix_append _ _
      · simpa [Complaint.isPanic] using hcause

/-! ### A missing semicolon -/

/-- What a declaration that was given up leaves behind: the numbers of tokens that were left when
its complaint arose and are left now. -/
def lefts? : EStateM.Result Abort State (Option Tree) → Option (Nat × Nat)
  | .ok none ⟨rest, c :: _, _⟩ => some (c.rest.length, rest.length)
  | _ => none

theorem exists_of_lefts? {result : EStateM.Result Abort State (Option Tree)} {n k : Nat}
    (h : lefts? result = some (n, k)) :
    ∃ c older s, result = .ok none s ∧ s.complaints = c :: older ∧ c.rest.length = n ∧
      s.rest.length = k := by
  unfold lefts? at h
  split at h
  · next rest c older givenUp =>
    cases h
    exact ⟨c, older, _, rfl, rfl, rfl, rfl⟩
  · cases h

/-- `1 + ) var b ;` -/
def strayParen : List Token :=
  [(.number, "1"), (.plus, "+"), (.rightParen, ")"), (.varKey, "var"), (.identifier, "b"),
    (.semicolon, ";"), (.eof, "")].map fun (kind, text) => .make kind text .null 1

/-- The stray parenthesis at position 2 is skipped, the declaration behind it is not. -/
theorem declaration_resumes_strayParen :
    EndsInEof strayParen ∧ ∃ s', declaration 20 (.start (beforeEnd strayParen)) = .ok none s' ∧
      position strayParen s'.rest = 3 ∧
      IsLeast {j | 2 ≤ j ∧ IsBoundary strayParen 2 j} (position strayParen s'.rest) := by
  have heof : EndsInEof strayParen := ⟨.make .eof "" .null 1, rfl, rfl⟩
  have hlefts : lefts? (declaration 20 (.start (beforeEnd strayParen))) = some (4, 3) := by
    decide +kernel
  obtain ⟨c, older, s', hrun, hnewest, hblamed, hleft⟩ := exists_of_lefts? hlefts
  obtain ⟨c', older', i, hnewest', -, -, -, hi, -, hresumes, -⟩ :=
    declaration_resumes heof (List.suffix_refl _) hrun
  cases hnewest.symm.trans hnewest'
  have htwo : i = 2 := by rw [hi, position, hblamed]; rfl
  subst htwo
  have hthree : position strayParen s'.rest = 3 := by rw [position, hleft]; rfl
  refine ⟨heof, s', hrun, hthree, hresumes ?_⟩
  rintro ⟨t, ht, hstarts⟩
  cases ht
  cases hstarts

/-- `1 print 2 ;` -/
def missingSemicolon : List Token :=
  [(.number, "1"), (.printKey, "print"), (.number, "2"), (.semicolon, ";"), (.eof, "")].map
    fun (kind, text) => .make kind text .null 1

/-- A token that starts a statement is skipped where it is blamed for a missing semicolon, so that
parsing does not resume at the first boundary from the blamed token on. -/
theorem declaration_skips_statement :
    ¬ ∀ (tokens : List Token) (d : Nat) (s s' : State) (c : Complaint) (older : List Complaint),
      EndsInEof tokens → s.rest <:+ beforeEnd tokens → declaration d s = .ok none s' →
      s'.complaints = c :: older →
      IsLeast {j | position tokens c.rest ≤ j ∧ IsBoundary tokens (position tokens c.rest) j}
        (position tokens s'.rest) := by
  intro hall
  have heof : EndsInEof missingSemicolon := ⟨.make .eof "" .null 1, rfl, rfl⟩
  have hlefts : lefts? (declaration 20 (.start (beforeEnd missingSemicolon))) = some (3, 0) := by
    decide +kernel
  obtain ⟨c, older, s', hrun, hnewest, hblamed, hleft⟩ := exists_of_lefts? hlefts
  have hleast := (hall _ _ _ _ c older heof (List.suffix_refl _) hrun hnewest).2
  have hone : position missingSemicolon c.rest = 1 := by rw [position, hblamed]; rfl
  have hfour : position missingSemicolon s'.rest = 4 := by rw [position, hleft]; rfl
  rw [hone, hfour] at hleast
  have hprint : StartsStatementAt missingSemicolon 1 := ⟨.make .printKey "print" .null 1, rfl, rfl⟩
  exact absurd (hleast ⟨Nat.le_refl 1, .inr (.inl hprint)⟩) (by decide)

end Scriptlet.Parse
