import Scriptlet.Proofs.Eval.Discipline
import Scriptlet.Proofs.Grammar.Readable
import Scriptlet.Proofs.Grammar.Within
import Scriptlet.Proofs.Strict.Simulation

/-!
# Runtime errors are located in the program

An error is located at a token of the tree that is run: an operator, a name, the bracket that closes
a call or an indexing, or the keyword of a return. Native functions fail without a place, and so may
the battle hook, but the call that leads there gives its own to the error. The trees that are run
are those of the program and of the functions that it declared, and their tokens are the program's.

## Main definitions

* `Discipline.among` — the discipline that names the tokens of a list and all scopes

## Main results

* `Machine.obeys_fresh` — nothing is declared before anything ran
* `errors_are_located` — every runtime error names a token of the program and its line
-/

namespace Scriptlet

/-! ### Lines of tokens -/

/-- The tokens of a text are on the lines that it has. -/
theorem line_of_mem_bodyTokens {source : String} {t : Token} (h : t ∈ bodyTokens source) :
    ∃ line : Nat, t.line = .int line ∧ 1 ≤ line ∧ line ≤ 1 + source.toList.count '\n' := by
  obtain ⟨⟨line, s⟩, hmem, htoken⟩ := List.mem_filterMap.1 h
  have hle := Segment.le_of_mem_located hmem
  rw [Segment.flatMap_text_split] at hle
  cases s with
  | lexeme kind text =>
    cases htoken
    exact ⟨line, rfl, Segment.start_le_of_mem_located hmem, hle⟩
  | _ => cases htoken

/-- The line of a token as it stands in the text of an error. -/
theorem RuntimeError.message_eq {e : RuntimeError} {t : Token} {line : Nat}
    (htoken : e.token = some t) (hline : t.line = .int line) :
    e.message = "[line " ++ natText line ++ "] Runtime error: " ++ e.cause.message := by
  have hplain : t.line.plain = natText line := by
    rw [hline]
    change intText line = natText line
    rw [intText, if_neg (Int.not_lt.2 (Int.natCast_nonneg line)), Int.natAbs_natCast]
  simp only [message, htoken, hplain]

/-! ### The tokens of a program -/

/-- The discipline of what is run with some tokens, in whatever scopes. -/
def Discipline.among (tokens : List Token) : Discipline where
  token t := t ∈ tokens
  root _ := True
  start := 0
  heap _ := True
  start_le _ := Nat.zero_le _
  heap_create _ _ := trivial
  heap_define _ _ _ _ := trivial

/-- Before anything ran there are only native functions, which hold no tokens. -/
theorem Machine.obeys_fresh (level : Nat) (tokens : List Token) :
    (Machine.fresh level).Obeys (.among tokens) := by
  -- the functions are defined one after the other, so the induction is over any heap
  have hall (ns : List Native) : ∀ h : Heap Value,
      (∀ m : Machine, m.heap = h → m.Obeys (.among tokens)) → ∀ m : Machine,
        m.heap = ns.foldl (fun h n => h.define globalScope (.text n.name) (.native n)) h →
          m.Obeys (.among tokens) := by
    induction ns with
    | nil => exact fun h hh => hh
    | cons n ns ih =>
      refine fun h hh => ih _ fun m hm => ?_
      have hbefore := hh { m with heap := h } rfl
      have hdefined := hbefore.define (i := globalScope) (.inl trivial) (.text n.name)
        (v := .native n) trivial
      exact hdefined.of_heap_eq hm
  have hempty (m : Machine) (hm : m.heap = Heap.empty.create none) :
      m.Obeys (.among tokens) := by
    refine ⟨trivial, fun _ _ _ => .inl trivial, ?_⟩
    intro i s _ hs b hb
    rw [hm, Heap.create, Heap.empty, Array.getElem?_push] at hs
    split at hs
    · cases hs
      cases hb
    · cases hs
  exact hall Native.all _ hempty _ rfl

/-- Every runtime error is located in the program. If a text without diagnostics is run from the
start, with a battle hook that is absent, returns or fails without a place, an error that ends the
run names a token of the text before the end, and its message starts with the line of that token,
which the text has. -/
theorem errors_are_located {settings : Settings} {source : String} {level : Nat}
    {e : RuntimeError} {m : Machine} (hclean : (parseSource source).diagnostics = [])
    (hhook : ∀ call e, settings.hook.failure? call = some e → e.token = none)
    (hrun : Eval.interpret settings (parseSource source).statements (.fresh level) =
      .error (.error e) m) :
    ∃ t ∈ (scan source).tokens, t.kind ≠ .eof ∧ e.token = some t ∧
      ∃ line : Nat, 1 ≤ line ∧ line ≤ 1 + source.toList.count '\n' ∧ t.line = .int line ∧
        e.message = "[line " ++ natText line ++ "] Runtime error: " ++ e.cause.message := by
  have hplaceless : settings.LocatedAt (Discipline.among (bodyTokens source)).token := by
    intro call e t hfails ht
    rw [hhook call e hfails] at ht
    cases ht
  have hstatements := (program_of_parseSource hclean).2.2.within
  have hobeys := Eval.obeys_interpret (D := .among (bodyTokens source)) hplaceless
    (.inl trivial) hstatements (.fresh level) (Nat.zero_le _) (Machine.obeys_fresh level _)
  rw [hrun] at hobeys
  obtain ⟨t, htoken, ht⟩ := hobeys.2.2
  obtain ⟨line, hline, hlower, hupper⟩ := line_of_mem_bodyTokens ht
  refine ⟨t, ?_, bodyTokens_kind ht, htoken, line, hlower, hupper, hline, ?_⟩
  · rw [tokens_scan]
    exact List.mem_append_left _ ht
  · exact RuntimeError.message_eq htoken hline

/-- Whether a run ends with a runtime error. -/
def isError : EStateM.Result Abort Machine Unit → Bool
  | .error (.error _) _ => true
  | _ => false

theorem exists_of_isError {r : EStateM.Result Abort Machine Unit} (h : isError r) :
    ∃ e m, r = .error (.error e) m := by
  cases r with
  | ok => cases h
  | error abort m =>
    cases abort with
    | error e => exact ⟨e, m, rfl⟩
    | _ => cases h

/-- A hook that returns once and then fails without a place: the error is located at the second
call. -/
theorem errors_are_located_hook :
    let source := "stepBattle();\nstepBattle();"
    let lost : RuntimeError := { token := none, cause := .hookFailure "lost" }
    let settings : Settings :=
      { traceLevel := 0
        hook := .answers fun call => if call = 0 then none else some lost
        clock := fun _ => 0 }
    ∃ e m, Eval.interpret settings (parseSource source).statements (.fresh 0) =
        .error (.error e) m ∧
      ∃ t ∈ (scan source).tokens, t.kind ≠ .eof ∧ e.token = some t := by
  intro source lost settings
  have hclean : (parseSource source).diagnostics = [] := List.isEmpty_iff.1 (by decide +kernel)
  have hfails : isError (Eval.interpret settings (parseSource source).statements (.fresh 0)) := by
    decide +kernel
  obtain ⟨e, m, hrun⟩ := exists_of_isError hfails
  have hhook : ∀ call e, settings.hook.failure? call = some e → e.token = none := by
    intro call e he
    simp only [settings, Hook.failure?] at he
    split at he <;> cases he
    rfl
  obtain ⟨t, ht, hkind, htoken, -⟩ := errors_are_located hclean hhook hrun
  exact ⟨e, m, hrun, t, ht, hkind, htoken⟩

end Scriptlet
