import Scriptlet.Session
import Scriptlet.Proofs.Lines.Eval
import Scriptlet.Proofs.Lines.Parse
import Scriptlet.Proofs.Scan.Front

/-!
# Layout and meaning

Two program texts whose tokens differ in their lines at most mean the same. The parser complains
about the same tokens and yields the same trees, apart from lines; and where it does not complain,
both programs print and trace the same, leave the same global names behind and succeed or fail
alike.

Both runs are compared with a third: the run of the trees without lines. Each of the two commutes
with forgetting lines, and what is left without lines is the same program.

## Main definitions

* `Failure.withoutLines` — why a request failed, apart from lines
* `Session.rows` — the listing of the global names
* `Session.Alike` — two requests that cannot be told apart but by the lines of an error

## Main results

* `Session.runStatements_alike` — trees that differ in lines run alike
* `layout_keeps_meaning` — texts that differ in layout mean the same
-/

namespace Scriptlet

/-! ### Tokens of a text, apart from their lines -/

open Segment in
/-- Without lines, a token depends on its segment alone. -/
theorem map_withoutLine_bodyTokens (source : String) :
    (bodyTokens source).map Token.withoutLine =
      (split source.toList).filterMap fun s => (s.token? 0).map Token.withoutLine := by
  have hline (line : Nat) (s : Segment) :
      (s.token? line).map Token.withoutLine = (s.token? 0).map Token.withoutLine := by
    cases s <;> rfl
  rw [← map_snd_located 1 (split source.toList), List.filterMap_map, bodyTokens,
    List.map_filterMap]
  congr 1
  funext located
  exact hline located.1 located.2

/-- The tokens of a text without lines: those of its segments, and the end. -/
theorem map_withoutLine_tokens (source : String) :
    (scan source).tokens.map Token.withoutLine =
      (bodyTokens source).map Token.withoutLine ++ [(endToken 0).withoutLine] := by
  rw [tokens_scan, List.map_append]
  rfl

/-! ### Requests that end alike -/

/-- Why a request failed, without lines. -/
def Failure.withoutLines : Failure → Failure
  | rejected ds => rejected (ds.map Diagnostic.withoutLine)
  | unreadable e => unreadable e
  | stopped a => stopped a.withoutLines

namespace Session

/-- The listing of the global names, each with the type and the text of its value. -/
def rows (s : Session) : List (Atom × String × String) :=
  s.globals.map fun b => (b.1, b.2.typeName, b.2.display)

/-- Two requests succeed or fail for one reason, print and trace the same and leave the same global
names behind. Only the lines of errors may tell them apart. -/
structure Alike (r r' : Reply Unit × Session) : Prop where
  result : r.1.result.mapError Failure.withoutLines = r'.1.result.mapError Failure.withoutLines
  output : r.1.output = r'.1.output
  trace : r.1.trace = r'.1.trace
  rows : r.2.rows = r'.2.rows

/-- The listing of the global names has no line in it. -/
theorem rows_eq_of_heap {s s' : Session}
    (h : s.machine.heap.map Value.withoutLines = s'.machine.heap.map Value.withoutLines) :
    s.rows = s'.rows := by
  have hbuiltIn (b : Atom × Value) : isBuiltIn (b.1, b.2.withoutLines) = isBuiltIn b := by
    obtain ⟨x, v⟩ := b
    cases x <;> cases v <;> rfl
  have hrows (s : Session) : s.rows =
      rows ⟨s.settings, { s.machine with heap := s.machine.heap.map Value.withoutLines }⟩ := by
    simp only [rows, globals, Heap.getElem?_map]
    cases s.machine.heap.scopes[Machine.globalScope]? with
    | none => rfl
    | some scope =>
      -- the names decide about the order, and the types and texts are those of the values
      simp only [Option.map_some, Scope.map, List.filter_map, Function.comp_def, hbuiltIn]
      rw [← List.map_mergeSort (r := fun a b : Atom × Value => decide (a.1.plain ≤ b.1.plain))]
      · simp [Function.comp_def]
      · intro a _ b _
        rfl
  rw [hrows s, hrows s']
  simp only [rows, globals, h]

end Session

namespace Eval

/-- How a run ends, without lines, on top of an earlier output and trace. -/
def erasedEnd (output trace : List String) :
    EStateM.Result Abort Machine Unit → EStateM.Result Abort Machine Unit
  | .ok _ m => .ok () (m.erased output trace)
  | .error abort m => .error abort.withoutLines (m.erased output trace)

/-- Programs that differ in lines end alike, from states that differ in lines and in what was
printed and traced before. -/
theorem interpret_alike {statements statements' : List Tree} {m m' : Machine}
    {output trace output' trace' : List String} (settings : Settings)
    (hstatements : statements.map Tree.withoutLines = statements'.map Tree.withoutLines)
    (hm : m.erased output trace = m'.erased output' trace') :
    erasedEnd output trace (interpret settings statements m) =
      erasedEnd output' trace' (interpret settings statements' m') := by
  have hcommutes (output trace : List String) (statements : List Tree) (m : Machine) :
      interpret settings.withoutLines (statements.map Tree.withoutLines) (m.erased output trace) =
        erasedEnd output trace (interpret settings statements m) := by
    rw [interpret_withoutLines output trace settings statements m]
    cases interpret settings statements m <;> rfl
  rw [← hcommutes, ← hcommutes, hstatements, hm]

end Eval

theorem linesText_append (later earlier : List String) :
    linesText (later ++ earlier) = linesText earlier ++ linesText later := by
  simp [linesText, String.join_append]

/-- The state with nothing printed or traced yet. -/
def Machine.quiet (m : Machine) : Machine := { m with output := [], trace := [] }

theorem Machine.erased_quiet (m : Machine) :
    m.quiet.erased m.output m.trace = m.erased [] [] := by
  simp [Machine.erased, Machine.quiet]

namespace Session

/-- What a request answers whose run ended in the given way. -/
def ended (s : Session) : EStateM.Result Abort Machine Unit → Reply Unit × Session
  | .ok _ m => (⟨.ok (), linesText m.output, "", linesText m.trace⟩, { s with machine := m })
  | .error abort m =>
    (⟨.error (.stopped abort), linesText m.output, "", linesText m.trace⟩, { s with machine := m })

theorem runStatements_eq (s : Session) (statements : List Tree) :
    s.runStatements statements =
      s.ended (Eval.interpret s.settings statements s.machine.quiet) := by
  simp only [runStatements, perform, Machine.quiet]
  cases Eval.interpret s.settings statements { s.machine with output := [], trace := [] } <;> rfl

/-- Runs that end alike are answered alike, where the first run had printed and traced something
before. -/
theorem ended_alike (s s' : Session) {r r' : EStateM.Result Abort Machine Unit}
    {output trace : List String} (h : Eval.erasedEnd output trace r = Eval.erasedEnd [] [] r') :
    (s.ended r).1.result.mapError Failure.withoutLines =
        (s'.ended r').1.result.mapError Failure.withoutLines ∧
      linesText output ++ (s.ended r).1.output = (s'.ended r').1.output ∧
      linesText trace ++ (s.ended r).1.trace = (s'.ended r').1.trace ∧
      (s.ended r).2.rows = (s'.ended r').2.rows := by
  have hstate {m m' : Machine} (h : m.erased output trace = m'.erased [] []) :
      linesText output ++ linesText m.output = linesText m'.output ∧
        linesText trace ++ linesText m.trace = linesText m'.trace ∧
        rows ⟨s.settings, m⟩ = rows ⟨s'.settings, m'⟩ := by
    simp only [Machine.erased, List.append_nil, Machine.mk.injEq] at h
    obtain ⟨hheap, -, -, -, houtput, htrace, -⟩ := h
    rw [← houtput, ← htrace, linesText_append, linesText_append]
    exact ⟨rfl, rfl, rows_eq_of_heap hheap⟩
  cases r with
  | ok _ m =>
    cases r' with
    | ok _ m' =>
      injection h with _ hm
      exact ⟨rfl, hstate hm⟩
    | error abort' m' => cases h
  | error abort m =>
    cases r' with
    | ok _ m' => cases h
    | error abort' m' =>
      injection h with habort hm
      refine ⟨?_, hstate hm⟩
      change Except.error (Failure.stopped abort.withoutLines) =
        .error (Failure.stopped abort'.withoutLines)
      rw [habort]

/-- Trees that differ in lines run alike. -/
theorem runStatements_alike (s : Session) {statements statements' : List Tree}
    (h : statements.map Tree.withoutLines = statements'.map Tree.withoutLines) :
    Alike (s.runStatements statements) (s.runStatements statements') := by
  have hend := Eval.interpret_alike s.settings h
    (rfl : s.machine.quiet.erased [] [] = s.machine.quiet.erased [] [])
  obtain ⟨hresult, houtput, htrace, hrows⟩ := ended_alike s s hend
  rw [runStatements_eq, runStatements_eq]
  exact ⟨hresult, by simpa [linesText] using houtput, by simpa [linesText] using htrace, hrows⟩

end Session

/-! ### Texts -/

/-- Without complaints of the scanner, what is parsed depends on lines only in the lines that it
tells. -/
theorem parseSource_withoutLines {source : String} (h : (scan source).diagnostics = []) :
    (parseSource source).withoutLines =
      (parseTokens? ((scan source).tokens.map Token.withoutLine)).getD ⟨[], []⟩ := by
  rw [parseTokens?_withoutLine]
  simp only [parseSource, h]
  cases parseTokens? (scan source).tokens <;> rfl

/-- Texts without complaints of the scanner, whose tokens agree in kind, lexeme and literal, mean
the same: the parser says the same of both, and where it has nothing to say, both run alike. -/
theorem layout_keeps_meaning {source source' : String}
    (hscan : (scan source).diagnostics = []) (hscan' : (scan source').diagnostics = [])
    (htokens : (scan source).tokens.map (fun t => (t.kind, t.lexeme, t.literal)) =
      (scan source').tokens.map fun t => (t.kind, t.lexeme, t.literal)) :
    (parseSource source).diagnostics.map Diagnostic.withoutLine =
        (parseSource source').diagnostics.map Diagnostic.withoutLine ∧
      (parseSource source).statements.map Tree.withoutLines =
        (parseSource source').statements.map Tree.withoutLines ∧
      ((parseSource source).diagnostics = [] → ∀ settings : Settings,
        Session.Alike ((Session.start settings).runSource source)
          ((Session.start settings).runSource source')) := by
  have hlineless : (scan source).tokens.map Token.withoutLine =
      (scan source').tokens.map Token.withoutLine := by
    have := congrArg (List.map fun t : Kind × Json × Json => Token.mk t.1 t.2.1 t.2.2 .null) htokens
    rwa [List.map_map, List.map_map] at this
  have hparsed : (parseSource source).withoutLines = (parseSource source').withoutLines := by
    rw [parseSource_withoutLines hscan, parseSource_withoutLines hscan', hlineless]
  have hdiagnostics := congrArg Parsed.diagnostics hparsed
  have hstatements := congrArg Parsed.statements hparsed
  refine ⟨hdiagnostics, hstatements, fun hclean settings => ?_⟩
  have hclean' : (parseSource source').diagnostics = [] := by
    simpa [Parsed.withoutLines, hclean] using hdiagnostics.symm
  simp only [Session.runSource, hclean, hclean', List.isEmpty_nil, if_true]
  exact (Session.start settings).runStatements_alike hstatements

open Segment in
/-- The lexemes of a text decide about its tokens, apart from the lines of these. -/
theorem tokens_agree_of_lexemes {source source' : String}
    (h : (split source.toList).filter (fun s => (s.token? 0).isSome) =
      (split source'.toList).filter fun s => (s.token? 0).isSome) :
    (scan source).tokens.map (fun t => (t.kind, t.lexeme, t.literal)) =
      (scan source').tokens.map fun t => (t.kind, t.lexeme, t.literal) := by
  have hlexemes (source : String) : (bodyTokens source).map Token.withoutLine =
      ((split source.toList).filter fun s => (s.token? 0).isSome).filterMap
        fun s => (s.token? 0).map Token.withoutLine := by
    rw [map_withoutLine_bodyTokens, List.filterMap_filter]
    congr 1
    funext s
    cases s <;> rfl
  have hlineless : (scan source).tokens.map Token.withoutLine =
      (scan source').tokens.map Token.withoutLine := by
    rw [map_withoutLine_tokens, map_withoutLine_tokens, hlexemes, hlexemes, h]
  have := congrArg (List.map fun t : Token => (t.kind, t.lexeme, t.literal)) hlineless
  rwa [List.map_map, List.map_map] at this

/-- A program on one line and the same program over three, with a comment: both print one line and
stop at the unknown name. -/
theorem layout_of_unknown_name :
    (scan "print \"a\"; print b;").diagnostics = [] ∧
      (scan "print \"a\"; // b\nprint\nb;").diagnostics = [] ∧
      (scan "print \"a\"; print b;").tokens.map (fun t => (t.kind, t.lexeme, t.literal)) =
        (scan "print \"a\"; // b\nprint\nb;").tokens.map
          (fun t => (t.kind, t.lexeme, t.literal)) ∧
      (parseSource "print \"a\"; print b;").diagnostics = [] ∧
      Session.Alike
        ((Session.start ⟨3, .absent, fun _ => 0, 100, 100⟩).runSource "print \"a\"; print b;")
        ((Session.start ⟨3, .absent, fun _ => 0, 100, 100⟩).runSource
          "print \"a\"; // b\nprint\nb;") := by
  have hscan : (scan "print \"a\"; print b;").diagnostics = [] :=
    List.isEmpty_iff.1 (by decide +kernel)
  have hscan' : (scan "print \"a\"; // b\nprint\nb;").diagnostics = [] :=
    List.isEmpty_iff.1 (by decide +kernel)
  have hclean : (parseSource "print \"a\"; print b;").diagnostics = [] :=
    List.isEmpty_iff.1 (by decide +kernel)
  have hlexemes : (Segment.split "print \"a\"; print b;".toList).filter
      (fun s => (s.token? 0).isSome) =
        (Segment.split "print \"a\"; // b\nprint\nb;".toList).filter
          fun s => (s.token? 0).isSome := by decide +kernel
  have htokens := tokens_agree_of_lexemes hlexemes
  exact ⟨hscan, hscan', htokens, hclean, (layout_keeps_meaning hscan hscan' htokens).2.2 hclean _⟩

end Scriptlet
