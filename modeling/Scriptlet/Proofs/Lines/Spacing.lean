import Scriptlet.Proofs.Lines.Layout
import Scriptlet.Proofs.Scan.Lexeme

/-!
# Lexemes with gaps between them

Whatever surrounds the lexemes of a text, they can be told apart by spaces, tabs, carriage returns
and line ends alone: no lexeme can be continued into any of these, and none is a part of what they
start. So the lexemes of a text, written one behind the other with gaps between them, are cut where
they were cut before, and make the same tokens.

## Main definitions

* `Segment.IsGap` — spaces, tabs, carriage returns and line ends
* `Segment.Spaced`, `Segment.Respaces` — texts in their order with gaps between them

## Main results

* `Segment.Lexeme.of_startsGap` — in front of a gap and at the end, a lexeme stays a lexeme
* `Segment.filter_split_of_spaced` — the lexemes among the segments of lexemes with gaps
* `tokens_of_respaces` — the lexemes of a text with gaps between them make the same tokens
-/

namespace Scriptlet

namespace Segment

/-! ### Gaps -/

/-- The characters that separate lexemes, within a line and across lines. -/
def gapChars : List Char := [' ', '\t', '\r', '\n']

/-- Spaces, tabs, carriage returns and line ends, or nothing. -/
def IsGap (cs : List Char) : Prop := ∀ c ∈ cs, c ∈ gapChars

/-- The text is at its end or goes on with a gap. -/
def StartsGap (cs : List Char) : Prop := ∀ c ∈ cs.head?, c ∈ gapChars

/-- The texts in their order, with a gap behind each, which is empty behind the last at most. -/
inductive Spaced : List (List Char) → List Char → Prop
  | done : Spaced [] []
  | next {text gap cs : List Char} {texts : List (List Char)} :
      IsGap gap → (texts ≠ [] → gap ≠ []) → Spaced texts cs →
      Spaced (text :: texts) (text ++ gap ++ cs)

/-- The text is made of the given ones in their order, with gaps between neighbours that are not
empty, and gaps in front of the first and behind the last. -/
def Respaces (texts : List String) (whole : String) : Prop :=
  ∃ gap cs, IsGap gap ∧ Spaced (texts.map String.toList) cs ∧ whole.toList = gap ++ cs

theorem stops_of_startsGap {p : Char → Bool} {cs : List Char} (h : StartsGap cs)
    (hp : gapChars.any p = false) : Stops p cs :=
  fun c hc => Bool.eq_false_iff.2 (List.any_eq_false.1 hp c (h c hc))

theorem startsGap_nil : StartsGap [] := by
  intro c hc
  cases hc

theorem startsGap_of_isGap {gap cs : List Char} (h : IsGap gap) (hne : gap ≠ []) :
    StartsGap (gap ++ cs) := by
  obtain ⟨c, gap, rfl⟩ := List.exists_cons_of_ne_nil hne
  intro d hd
  cases hd
  exact h c List.mem_cons_self

/-- Whether a segment makes a token. -/
def isLexeme (s : Segment) : Bool := (s.token? 0).isSome

/-- The segment of a character of a gap. -/
def ofGap (c : Char) : Segment := if c = '\n' then newline else blank c

theorem isLexeme_ofGap (c : Char) : (ofGap c).isLexeme = false := by
  unfold ofGap
  split <;> rfl

theorem complaint?_of_mem_gap {gap : List Char} {s : Segment} (h : s ∈ gap.map ofGap) :
    s.complaint? = none := by
  obtain ⟨c, -, rfl⟩ := List.mem_map.1 h
  unfold ofGap
  split <;> rfl

theorem filter_gap_append (gap : List Char) (ss : List Segment) :
    (gap.map ofGap ++ ss).filter isLexeme = ss.filter isLexeme := by
  have hgap : (gap.map ofGap).filter isLexeme = [] := by
    simp [List.filter_eq_nil_iff, isLexeme_ofGap]
  rw [List.filter_append, hgap, List.nil_append]

theorem split_gap {gap : List Char} (h : IsGap gap) (cs : List Char) :
    split (gap ++ cs) = gap.map ofGap ++ split cs := by
  induction gap with
  | nil => rfl
  | cons c gap ih =>
    obtain ⟨hc, hgap⟩ := List.forall_mem_cons.1 h
    have hfirst : first c (gap ++ cs) = (ofGap c, gap ++ cs) := by
      simp only [gapChars, List.mem_cons, List.not_mem_nil, or_false] at hc
      rcases hc with rfl | rfl | rfl | rfl <;> rfl
    rw [List.cons_append, split, hfirst, ih hgap, List.map_cons, List.cons_append]

/-! ### Lexemes in front of gaps -/

/-- A lexeme stays one in front of a gap and at the end of a text, whatever was behind it. -/
theorem Lexeme.of_startsGap {kind : Kind} {text rest cs : List Char} {a : Atom}
    (h : Lexeme kind text a rest) (hcs : StartsGap cs) : Lexeme kind text a cs := by
  have hdigit : Stops Char.isDigit cs := stops_of_startsGap hcs (by decide)
  have hname : Stops isNameChar cs := stops_of_startsGap hcs (by decide +kernel)
  cases h with
  | single hsingle => exact .single hsingle
  | widened hwidened => exact .widened hwidened
  | narrow hwidened => exact .narrow hwidened (stops_of_startsGap hcs (by decide))
  | slash => exact .slash (stops_of_startsGap hcs (by decide))
  | string hbody => exact .string hbody
  | whole hdigits =>
    refine .whole hdigits hdigit ?_
    rintro ⟨d, tail, rfl, -⟩
    exact absurd (hcs '.' rfl) (by decide)
  | fraction hdigits hdecimals => exact .fraction hdigits hdecimals hdigit
  | keyword hmem hword => exact .keyword hmem hword hname
  | name hnone hword => exact .name hnone hword hname

/-- What makes a token makes no complaint. -/
theorem complaint?_of_isLexeme {s : Segment} (h : s.isLexeme = true) : s.complaint? = none := by
  cases s with
  | lexeme kind text => rfl
  | _ => cases h

theorem Stands.of_startsGap {s : Segment} {rest cs : List Char} (h : s.Stands rest)
    (hs : s.isLexeme = true) (hcs : StartsGap cs) : s.Stands cs := by
  cases h with
  | lexeme hlexeme => exact .lexeme (hlexeme.of_startsGap hcs)
  | _ => cases hs

/-- Lexemes with gaps between them are cut into these lexemes and segments that make neither a token
nor a complaint. -/
theorem filter_split_of_spaced {lexemes : List Segment} {cs : List Char}
    (hlexemes : ∀ s ∈ lexemes, s.isLexeme = true ∧ ∃ rest, s.Stands rest)
    (h : Spaced (lexemes.map text) cs) :
    (split cs).filter isLexeme = lexemes ∧ ∀ s ∈ split cs, s.complaint? = none := by
  induction lexemes generalizing cs with
  | nil =>
    cases h
    rw [split]
    exact ⟨rfl, List.forall_mem_nil _⟩
  | cons s lexemes ih =>
    obtain ⟨⟨hs, rest, hstands⟩, hlexemes⟩ := List.forall_mem_cons.1 hlexemes
    cases h with
    | @next _ gap cs _ hgap hne hspaced =>
      obtain ⟨hfilter, hnone⟩ := ih hlexemes hspaced
      have hstarts : StartsGap (gap ++ cs) := by
        by_cases hempty : gap = []
        -- nothing follows the last lexeme if its gap is empty
        · obtain rfl : lexemes = [] := by
            by_contra hmore
            exact hne (by simpa using hmore) hempty
          cases hspaced
          rw [hempty]
          exact startsGap_nil
        · exact startsGap_of_isGap hgap hempty
      have hsplit : split (s.text ++ gap ++ cs) = s :: (gap.map ofGap ++ split cs) := by
        rw [List.append_assoc, split_of_stands (hstands.of_startsGap hs hstarts), split_gap hgap]
      rw [hsplit]
      refine ⟨?_, List.forall_mem_cons.2 ⟨complaint?_of_isLexeme hs, ?_⟩⟩
      · rw [List.filter_cons_of_pos hs, filter_gap_append, hfilter]
      · exact List.forall_mem_append.2 ⟨fun u hu => complaint?_of_mem_gap hu, hnone⟩

/-- Each segment of a text stands in front of the rest of it. -/
theorem exists_stands_of_mem_split {cs : List Char} {s : Segment} (h : s ∈ split cs) :
    ∃ rest, s.Stands rest := by
  obtain ⟨c, cs, rfl⟩ := isFirst_of_mem_split h
  exact ⟨_, stands_first c cs⟩

/-- The texts of the tokens that are made of segments are those of the lexemes among them. -/
theorem map_text_filterMap_token? (line : Nat) (ss : List Segment) :
    ((located line ss).filterMap fun (l, s) => s.token? l).map (·.text.toList) =
      (ss.filter isLexeme).map text := by
  induction ss generalizing line with
  | nil => rfl
  | cons s ss ih =>
    rw [located, List.filterMap_cons]
    cases s with
    | lexeme kind chars =>
      have hchars : (Token.make kind (String.ofList chars) (literal kind chars) line).text.toList =
          chars := String.toList_ofList
      rw [List.filter_cons_of_pos rfl, List.map_cons, ← ih]
      exact congrArg (· :: _) hchars
    | _ => exact ih _

end Segment

open Segment

/-- The texts of the tokens of a source, written in their order with gaps between them, are scanned
without a diagnostic to tokens of the same kinds, lexemes and literals. -/
theorem tokens_of_respaces (source whole : String)
    (h : Respaces ((scan source).tokens.dropLast.map Token.text) whole) :
    (scan whole).diagnostics = [] ∧
      (scan whole).tokens.map (fun t => (t.kind, t.lexeme, t.literal)) =
        (scan source).tokens.map fun t => (t.kind, t.lexeme, t.literal) := by
  obtain ⟨gap, cs, hgap, hspaced, hwhole⟩ := h
  have htexts : ((scan source).tokens.dropLast.map Token.text).map String.toList =
      ((split source.toList).filter isLexeme).map text := by
    rw [tokens_scan, List.dropLast_concat, List.map_map]
    exact map_text_filterMap_token? 1 _
  rw [htexts] at hspaced
  have hlexemes (s : Segment) (hs : s ∈ (split source.toList).filter isLexeme) :
      s.isLexeme = true ∧ ∃ rest, s.Stands rest := by
    obtain ⟨hmem, hlexeme⟩ := List.mem_filter.1 hs
    exact ⟨hlexeme, exists_stands_of_mem_split hmem⟩
  obtain ⟨hfilter, hnone⟩ := filter_split_of_spaced hlexemes hspaced
  have hsplit : split whole.toList = gap.map ofGap ++ split cs := by rw [hwhole, split_gap hgap]
  constructor
  · refine diagnostics_scan_eq_nil ?_
    rw [hsplit]
    exact List.forall_mem_append.2 ⟨fun u hu => complaint?_of_mem_gap hu, hnone⟩
  · refine tokens_agree_of_lexemes ?_
    rw [hsplit]
    exact (filter_gap_append gap _).trans hfilter

/-- A string over two lines, a comment, a number with a point and a character that starts
nothing. -/
def packed : String := "x==\"a\n b\"/1.²5//x"

/-- The lexemes of that text, further apart. -/
def unpacked : String := "\tx ==\n\"a\n b\"\r / 1 . 5"

/-- The point is no part of either number, and the slash opens no comment. -/
theorem tokens_of_respaces_unpacked :
    Respaces ((scan packed).tokens.dropLast.map Token.text) unpacked ∧
      (scan unpacked).diagnostics = [] ∧
      (scan unpacked).tokens.map (fun t => (t.kind, t.lexeme, t.literal)) =
        (scan packed).tokens.map fun t => (t.kind, t.lexeme, t.literal) := by
  have hgap (cs : List Char) (h : cs.all gapChars.contains = true) : IsGap cs := fun c hc =>
    List.contains_iff_mem.1 (List.all_eq_true.1 h c hc)
  have hrespaces : Respaces ((scan packed).tokens.dropLast.map Token.text) unpacked := by
    have htexts : (scan packed).tokens.dropLast.map Token.text =
        ["x", "==", "\"a\n b\"", "/", "1", ".", "5"] := by decide +kernel
    rw [htexts]
    refine ⟨['\t'], _, hgap _ rfl, ?_, rfl⟩
    refine .next (hgap [' '] rfl) (fun _ => nofun) ?_
    refine .next (hgap ['\n'] rfl) (fun _ => nofun) ?_
    refine .next (hgap ['\r', ' '] rfl) (fun _ => nofun) ?_
    refine .next (hgap [' '] rfl) (fun _ => nofun) ?_
    refine .next (hgap [' '] rfl) (fun _ => nofun) ?_
    refine .next (hgap [' '] rfl) (fun _ => nofun) ?_
    exact .next (hgap [] rfl) (fun hmore => absurd rfl hmore) .done
  exact ⟨hrespaces, tokens_of_respaces _ _ hrespaces⟩

end Scriptlet
