import Scriptlet.Proofs.Lines.Layout
import Scriptlet.Proofs.Parse.Succession
import Scriptlet.Proofs.Scan.Join
import Scriptlet.Proofs.Strict.Simulation

/-!
# Programs in sequence

Program texts that are run one after the other in one session do what the text does in which they
stand on separate lines: nothing in a text without diagnostics reaches over the line end behind it,
so that the tokens of the whole are those of the parts, and the statements are those of the parts;
and running statements one after the other does not depend on where one program ends and the next
begins. Only the lines that errors tell are others.

## Main definitions

* `Session.andThen`, `Session.runSources` — requests one after the other, up to the first failure

## Main results

* `parseSource_join` — the statements of texts on separate lines
* `Session.runSources_alike` — running texts one after the other runs their statements
* `runSources_join` — the session and the text on separate lines end alike
-/

namespace Scriptlet

/-! ### The statements of texts on separate lines -/

open Segment

section Join

variable {source source' : String}

theorem closes_of_clean (h : (scan source).diagnostics = []) : Closes source.toList :=
  fun _ hs => isOpen_of_complaint? (complaint?_eq_none h hs)

/-- Apart from their lines, the tokens are those of the one text and those of the other. -/
theorem map_withoutLine_bodyTokens_join (h : (scan source).diagnostics = []) :
    (bodyTokens (source ++ "\n" ++ source')).map Token.withoutLine =
      (bodyTokens source).map Token.withoutLine ++ (bodyTokens source').map Token.withoutLine := by
  rw [bodyTokens_join (closes_of_clean h), List.map_append, List.map_map]
  rfl

/-- What a text without diagnostics yields, in terms of its tokens without lines. -/
theorem parseBody_of_clean (h : (parseSource source).diagnostics = []) :
    parseBody Parse.depthLimit ((bodyTokens source).map Token.withoutLine) =
      ((parseSource source).statements.map Tree.withoutLines, []) := by
  rw [parseBody_withoutLine, (program_of_parseSource h).2.1]
  rfl

/-- Two texts without diagnostics, on separate lines, have none, and the statements are those of the
one and those of the other. -/
theorem parseSource_join (h : (parseSource source).diagnostics = [])
    (h' : (parseSource source').diagnostics = []) :
    (parseSource (source ++ "\n" ++ source')).diagnostics = [] ∧
      (parseSource (source ++ "\n" ++ source')).statements.map Tree.withoutLines =
        ((parseSource source).statements ++ (parseSource source').statements).map
          Tree.withoutLines := by
  have hscan := (program_of_parseSource h).1
  have hscan' := (program_of_parseSource h').1
  have hbody : parseBody Parse.depthLimit (_ ++ _) = _ :=
    parseBody_append (d := 9999) (parseBody_of_clean h) (parseBody_of_clean h')
  rw [← map_withoutLine_bodyTokens_join hscan, parseBody_withoutLine] at hbody
  obtain ⟨hstatements, hnone⟩ := Prod.mk.inj hbody
  rw [parseSource_eq, diagnostics_scan_join (closes_of_clean hscan), hscan, hscan',
    List.map_eq_nil_iff.1 hnone]
  exact ⟨rfl, by rw [List.map_append]; exact hstatements⟩

end Join

/-- Texts without diagnostics, on separate lines. -/
theorem parseSource_intercalate {sources : List String}
    (h : ∀ source ∈ sources, (parseSource source).diagnostics = []) :
    (parseSource ("\n".intercalate sources)).diagnostics = [] ∧
      (parseSource ("\n".intercalate sources)).statements.map Tree.withoutLines =
        (sources.flatMap fun source => (parseSource source).statements).map
          Tree.withoutLines := by
  induction sources with
  | nil =>
    have hclean : (parseSource "").diagnostics = [] := List.isEmpty_iff.1 (by decide +kernel)
    have hempty : (parseSource "").statements = [] := List.isEmpty_iff.1 (by decide +kernel)
    simp [hclean, hempty]
  | cons source sources ih =>
    rw [List.forall_mem_cons] at h
    obtain ⟨hsource, hsources⟩ := h
    by_cases hlast : sources = []
    · subst hlast
      simpa using hsource
    · obtain ⟨hclean, hstatements⟩ := ih hsources
      rw [String.intercalate_cons_of_ne_nil hlast]
      obtain ⟨hjoin, hboth⟩ := parseSource_join hsource hclean
      refine ⟨hjoin, ?_⟩
      rw [hboth, List.map_append, hstatements, ← List.map_append, List.flatMap_cons]

/-! ### Requests one after the other -/

namespace Session

/-- A request, and another one unless the first failed. -/
def andThen (first : Reply Unit × Session) (next : Session → Reply Unit × Session) :
    Reply Unit × Session :=
  match first.1.result with
  | .error _ => first
  | .ok _ =>
    let (reply, s) := next first.2
    ({ result := reply.result
       output := first.1.output ++ reply.output
       messages := first.1.messages ++ reply.messages
       trace := first.1.trace ++ reply.trace }, s)

/-- Runs program texts one after the other, up to the first one that fails. -/
def runSources (s : Session) : List String → Reply Unit × Session
  | [] => ({ result := .ok (), output := "", messages := "", trace := "" }, s)
  | source :: rest => andThen (s.runSource source) fun s => runSources s rest

theorem Alike.trans {r r' r'' : Reply Unit × Session} (h : Alike r r') (h' : Alike r' r'') :
    Alike r r'' where
  result := h.result.trans h'.result
  output := h.output.trans h'.output
  trace := h.trace.trans h'.trace
  rows := h.rows.trans h'.rows

theorem Alike.symm {r r' : Reply Unit × Session} (h : Alike r r') : Alike r' r where
  result := h.result.symm
  output := h.output.symm
  trace := h.trace.symm
  rows := h.rows.symm

/-- Requests that end alike do so behind any other request. -/
theorem Alike.andThen {first : Reply Unit × Session} {next next' : Session → Reply Unit × Session}
    (h : ∀ s, Alike (next s) (next' s)) :
    Alike (andThen first next) (andThen first next') := by
  unfold Session.andThen
  cases first.1.result with
  | error e => exact ⟨rfl, rfl, rfl, rfl⟩
  | ok _ =>
    obtain ⟨hresult, houtput, htrace, hrows⟩ := h first.2
    refine ⟨hresult, ?_, ?_, hrows⟩
    · exact congrArg (first.1.output ++ ·) houtput
    · exact congrArg (first.1.trace ++ ·) htrace

end Session

/-- Statements behind others run in the state that those leave, unless they end early. -/
theorem Eval.interpret_append (settings : Settings) (before after : List Tree) (m : Machine) :
    interpret settings (before ++ after) m = match interpret settings before m with
      | .ok _ m => interpret settings after m
      | .error abort m => .error abort m := by
  have hbind : interpret settings (before ++ after) =
      (interpret settings before >>= fun _ => interpret settings after) := by
    induction before with
    | nil => rfl
    | cons s before ih => rw [List.cons_append, interpret, interpret, ih, bind_assoc]
  rw [hbind]
  change EStateM.bind _ _ m = _
  rw [EStateM.bind]
  cases interpret settings before m <;> rfl

namespace Session

/-- Statements that are run in two requests are run as in one. -/
theorem runStatements_append (s : Session) (before after : List Tree) :
    Alike (andThen (s.runStatements before) fun s => s.runStatements after)
      (s.runStatements (before ++ after)) := by
  rw [s.runStatements_eq before, s.runStatements_eq (before ++ after), Eval.interpret_append]
  cases Eval.interpret s.settings before s.machine.quiet with
  | error abort m => exact ⟨rfl, rfl, rfl, rfl⟩
  | ok _ m =>
    -- the second request starts with nothing printed, on top of what the first one printed
    have hend := Eval.interpret_alike s.settings (rfl : after.map _ = after.map _) m.erased_quiet
    obtain ⟨hresult, houtput, htrace, hrows⟩ := ended_alike { s with machine := m } s hend
    simp only [andThen, ended, runStatements_eq]
    exact ⟨hresult, houtput, htrace, hrows⟩

/-- Running texts without diagnostics one after the other runs their statements. -/
theorem runSources_alike (s : Session) {sources : List String}
    (h : ∀ source ∈ sources, (parseSource source).diagnostics = []) :
    Alike (s.runSources sources)
      (s.runStatements (sources.flatMap fun source => (parseSource source).statements)) := by
  induction sources generalizing s with
  | nil => exact ⟨rfl, rfl, rfl, rfl⟩
  | cons source sources ih =>
    rw [List.forall_mem_cons] at h
    have hsource : s.runSource source = s.runStatements (parseSource source).statements := by
      simp only [runSource, h.1, List.isEmpty_nil, if_true]
    rw [runSources, hsource, List.flatMap_cons]
    exact (Alike.andThen fun s => ih s h.2).trans (s.runStatements_append _ _)

end Session

/-- Texts without diagnostics are a text without diagnostics when they stand on separate lines; and
the session that runs them one after the other, up to the first error, ends like the fresh session
that runs the whole. -/
theorem runSources_join {sources : List String}
    (h : ∀ source ∈ sources, (parseSource source).diagnostics = []) :
    (parseSource ("\n".intercalate sources)).diagnostics = [] ∧ ∀ settings : Settings,
      Session.Alike ((Session.start settings).runSources sources)
        ((Session.start settings).runSource ("\n".intercalate sources)) := by
  obtain ⟨hclean, hstatements⟩ := parseSource_intercalate h
  refine ⟨hclean, fun settings => ?_⟩
  have hjoined : (Session.start settings).runSource ("\n".intercalate sources) =
      (Session.start settings).runStatements
        (parseSource ("\n".intercalate sources)).statements := by
    simp only [Session.runSource, hclean, List.isEmpty_nil, if_true]
  rw [hjoined]
  exact ((Session.start settings).runSources_alike h).trans
    ((Session.start settings).runStatements_alike hstatements).symm

/-- A declaration with a comment behind it, a conditional without `else`, and an unknown name. -/
def conditionalBetween : List String :=
  ["var a = \"x\"; // it's", "if (a) print a;", "fun f() { return b; } print f();"]

/-- The conditional stays without `else`, and both ways end with the error about the name. -/
theorem runSources_conditionalBetween :
    (∀ source ∈ conditionalBetween, (parseSource source).diagnostics = []) ∧
      (parseSource ("\n".intercalate conditionalBetween)).diagnostics = [] ∧
      Session.Alike
        ((Session.start ⟨3, .absent, fun _ => 0, 100, 100⟩).runSources conditionalBetween)
        ((Session.start ⟨3, .absent, fun _ => 0, 100, 100⟩).runSource
          ("\n".intercalate conditionalBetween)) := by
  have hclean : ∀ source ∈ conditionalBetween, (parseSource source).diagnostics = [] := by
    have hempty : ∀ source ∈ conditionalBetween, (parseSource source).diagnostics.isEmpty := by
      decide +kernel
    exact fun source hsource => List.isEmpty_iff.1 (hempty source hsource)
  obtain ⟨hjoined, halike⟩ := runSources_join hclean
  exact ⟨hclean, hjoined, halike _⟩

end Scriptlet
