import Mathlib.Logic.ExistsUnique
import Scriptlet.Proofs.Scan.Lexeme

/-!
# Nothing of a text is lost

Every text is cut into segments in exactly one way such that each of them stands in front of the
ones behind it. The tokens are the lexemes among them, each on the line of its last character; a
complaint is made of every stray character, on its own line, and of an end that leaves a string or a
comment open, on the last line. Two slashes, and a slash with a star, open a comment wherever they
are not inside of a comment or a string.

## Main definitions

* `Segment.Cuts` — segments that make up a text, each of which stands in front of the others
* `Segment.placed` — segments with the texts in front of them
* `Segment.tokenBehind?`, `Segment.complaintBehind?` — what a segment behind a text contributes

## Main results

* `Segment.cuts_iff` — a text is cut in exactly one way
* `Segment.Stands.isCommentOrString` — where a comment is opened
* `scan_lossless` — what scanning yields, in terms of the segments
-/

namespace Scriptlet

namespace Segment

/-! ### Cutting a text -/

/-- The segments make up the text, and each stands in front of what is behind it. -/
structure Cuts (segments : List Segment) (cs : List Char) : Prop where
  whole : segments.flatMap text = cs
  stands : ∀ before s after, segments = before ++ s :: after → s.Stands (after.flatMap text)

/-- What stands in front of segments that cut a text is the next segment. -/
theorem cuts_cons {s : Segment} {segments : List Segment} {cs : List Char} :
    Cuts (s :: segments) (s.text ++ cs) ↔ s.Stands cs ∧ Cuts segments cs := by
  constructor
  · intro ⟨hwhole, hstands⟩
    have hrest : segments.flatMap text = cs := List.append_cancel_left hwhole
    refine ⟨hrest ▸ hstands [] s segments rfl, hrest, fun before s' after heq => ?_⟩
    exact hstands (s :: before) s' after (by rw [heq, List.cons_append])
  · rintro ⟨hs, hwhole, hstands⟩
    refine ⟨by rw [List.flatMap_cons, hwhole], fun before s' after heq => ?_⟩
    rcases List.cons_eq_append_iff.1 heq with ⟨-, heq⟩ | ⟨before', -, heq⟩
    · cases heq
      rwa [hwhole]
    · exact hstands before' s' after heq

theorem cuts_split (cs : List Char) : Cuts (split cs) cs := by
  fun_induction split cs with
  | case1 => exact ⟨rfl, fun before s after heq => by simp at heq⟩
  | case2 c cs ih =>
    rw [← text_first c cs]
    exact cuts_cons.2 ⟨stands_first c cs, ih⟩

/-- A text is cut in exactly one way. -/
theorem cuts_iff {segments : List Segment} {cs : List Char} :
    Cuts segments cs ↔ segments = split cs := by
  refine ⟨fun h => ?_, fun h => h ▸ cuts_split cs⟩
  induction segments generalizing cs with
  | nil =>
    obtain rfl : [] = cs := h.whole
    rw [split]
  | cons s segments ih =>
    have hwhole : s.text ++ segments.flatMap text = cs := h.whole
    rw [← hwhole] at h ⊢
    obtain ⟨hs, hrest⟩ := cuts_cons.1 h
    rw [split_of_stands hs, ← ih hrest]

/-- A point without a digit behind it, a comment with a slash in it, and a string without an end. -/
example : split "1.a/*/*/\"b".toList =
    [.lexeme .number ['1'], .lexeme .dot ['.'], .lexeme .identifier ['a'], .blockComment ['/'],
      .openString ['b']] := by decide +kernel

/-! ### Where comments are opened -/

/-- Comments and strings, with or without an end. -/
def isCommentOrString : Segment → Bool
  | lineComment _ | blockComment _ | openComment _ | openString _ => true
  | lexeme kind _ => kind == .string
  | _ => false

/-- No lexeme but a slash and a string has a slash in it. -/
theorem Lexeme.eq_slash {kind : Kind} {text rest : List Char} {a : Atom}
    (h : Lexeme kind text a rest) (hslash : '/' ∈ text) :
    kind = .string ∨ text = ['/'] ∧ Stops (fun c => c == '/' || c == '*') rest := by
  have hdigits {digits : List Char} (h : IsDigits digits) : '/' ∉ digits := fun hmem => by
    cases h.2 _ hmem
  have hword {text : List Char} (h : IsWord text) : '/' ∉ text := by
    obtain ⟨c, cs, rfl, hc, hcs⟩ := h
    have hslash : isNameChar '/' = false := by decide +kernel
    rw [List.mem_cons]
    rintro (rfl | hmem)
    · rw [isNameChar, hc] at hslash
      cases hslash
    · rw [hcs _ hmem] at hslash
      cases hslash
  cases h with
  | single hsingle =>
    rw [List.mem_singleton] at hslash
    cases hslash
    cases hsingle
  | widened hwidened =>
    rw [List.mem_pair] at hslash
    rcases hslash with rfl | hslash
    · cases hwidened
    · cases hslash
  | narrow hwidened =>
    rw [List.mem_singleton] at hslash
    cases hslash
    cases hwidened
  | slash hstops => exact .inr ⟨rfl, hstops⟩
  | string => exact .inl rfl
  | whole h => exact absurd hslash (hdigits h)
  | fraction h h' =>
    rw [List.mem_append, List.mem_cons] at hslash
    rcases hslash with hslash | hslash | hslash
    · exact absurd hslash (hdigits h)
    · cases hslash
    · exact absurd hslash (hdigits h')
  | keyword _ h => exact absurd hslash (hword h)
  | name _ h => exact absurd hslash (hword h)

/-- A slash with another one or a star behind it is inside of a comment or a string, if it does not
open a comment itself. -/
theorem Stands.isCommentOrString {s : Segment} {rest before after : List Char} {c : Char}
    (h : s.Stands rest) (htext : s.text = before ++ '/' :: after)
    (hnext : c ∈ (after ++ rest).head?) (hc : c = '/' ∨ c = '*') : s.isCommentOrString = true := by
  have hslash : '/' ∈ s.text := by simp [htext]
  cases h with
  | lineComment | blockComment | openString | openComment => rfl
  | blank hblank =>
    obtain rfl := List.mem_singleton.1 hslash
    simp at hblank
  | newline => simp [text] at hslash
  | stray hstray => exact absurd (List.mem_singleton.1 hslash).symm hstray.slash
  | lexeme hlexeme =>
    rcases hlexeme.eq_slash hslash with rfl | ⟨rfl, hstops⟩
    · rfl
    -- a slash that is a lexeme is not followed by either
    · obtain ⟨rfl, rfl⟩ : before = [] ∧ after = [] := by
        simpa [text, List.cons_eq_append_iff] using htext
      have hstop := hstops c hnext
      rcases hc with rfl | rfl <;> cases hstop

/-! ### Lines -/

/-- The segments with the texts in front of them, where the text `before` is in front of all. -/
def placed (before : List Char) : List Segment → List (List Char × Segment)
  | [] => []
  | s :: rest => (before, s) :: placed (before ++ s.text) rest

/-- The line of a segment is that of its last character. -/
theorem located_eq (before : List Char) (segments : List Segment) :
    located (1 + before.count '\n') segments =
      (placed before segments).map fun (before, s) =>
        (1 + (before ++ s.text).count '\n', s) := by
  induction segments generalizing before with
  | nil => rfl
  | cons s rest ih =>
    have hline : 1 + before.count '\n' + s.newlines = 1 + (before ++ s.text).count '\n' := by
      rw [newlines, List.count_append, Nat.add_assoc]
    rw [located, placed, List.map_cons, hline, ih]

theorem exists_of_mem_placed {before front : List Char} {s : Segment} {segments : List Segment}
    (h : (front, s) ∈ placed before segments) :
    ∃ earlier later, segments = earlier ++ s :: later ∧ front = before ++ earlier.flatMap text := by
  induction segments generalizing before with
  | nil => cases h
  | cons s' segments ih =>
    rcases List.mem_cons.1 h with heq | h
    · cases heq
      exact ⟨[], segments, rfl, by simp⟩
    · obtain ⟨earlier, later, rfl, rfl⟩ := ih h
      exact ⟨s' :: earlier, later, rfl, by simp⟩

/-- The token of a segment behind a text. -/
def tokenBehind? (before : List Char) : Segment → Option Token
  | lexeme kind text =>
    some (.make kind (String.ofList text) (literal kind text) (1 + (before ++ text).count '\n'))
  | _ => none

/-- The complaint about a segment behind a text, where `whole` is all of the text. -/
def complaintBehind? (whole before : List Char) : Segment → Option Diagnostic
  | stray c =>
    some (.atLine (1 + before.count '\n') ("Unexpected character '" ++ c.toString ++ "'."))
  | openString _ => some (.atLine (1 + whole.count '\n') "Unterminated string.")
  | openComment _ => some (.atLine (1 + whole.count '\n') "Unterminated block comment.")
  | _ => none

/-- A stray character is no line end, and nothing is behind an open end. -/
theorem diagnostic?_eq {cs front : List Char} {s : Segment} {segments : List Segment}
    (h : Cuts segments cs) (hmem : (front, s) ∈ placed [] segments) :
    s.diagnostic? (1 + (front ++ s.text).count '\n') = complaintBehind? cs front s := by
  obtain ⟨earlier, later, rfl, rfl⟩ := exists_of_mem_placed hmem
  have hstands := h.stands earlier s later rfl
  have hwhole := h.whole
  rw [List.flatMap_append, List.flatMap_cons] at hwhole
  generalize later.flatMap text = rest at hstands hwhole
  cases hstands with
  | stray hstray => simp [diagnostic?, complaint?, complaintBehind?, text, hstray.newline]
  | openString | openComment =>
    rw [List.append_nil] at hwhole
    simp [diagnostic?, complaint?, complaintBehind?, hwhole]
  | _ => rfl

end Segment

open Segment

/-- Scanning loses nothing, and its lines are right. There is exactly one way to cut a text into
segments that make it up, each of which stands in front of what is behind it. The tokens are those
of the lexemes, in order, and the end on the last line; the complaints are those about stray
characters and an open end, in order. Where a slash with a slash or a star behind it is not inside
of a string, it is inside of a comment or opens one. -/
theorem scan_lossless (source : String) :
    ∃! segments : List Segment,
      segments.flatMap text = source.toList ∧
      (∀ before s after, segments = before ++ s :: after →
        s.Stands (after.flatMap text) ∧
        ∀ front back c, s.text = front ++ '/' :: back → c ∈ (back ++ after.flatMap text).head? →
          c = '/' ∨ c = '*' → s.isCommentOrString = true) ∧
      (scan source).tokens =
        (placed [] segments).filterMap (fun (before, s) => s.tokenBehind? before) ++
          [.make .eof "" .null (1 + source.toList.count '\n')] ∧
      (scan source).diagnostics =
        (placed [] segments).filterMap fun (before, s) =>
          s.complaintBehind? source.toList before := by
  have hcuts := cuts_split source.toList
  have hlocated : located 1 (split source.toList) = _ := located_eq [] _
  refine ⟨split source.toList, ⟨hcuts.whole, ?_, ?_, ?_⟩, ?_⟩
  · intro before s after heq
    have hstands := hcuts.stands before s after heq
    exact ⟨hstands, fun front back c htext hnext hc => hstands.isCommentOrString htext hnext hc⟩
  · simp only [scan]
    rw [hlocated, List.filterMap_map]
    congr 2
    funext ⟨before, s⟩
    cases s <;> rfl
  · simp only [scan]
    rw [hlocated, List.filterMap_map]
    refine List.filterMap_congr fun ⟨before, s⟩ hmem => ?_
    exact diagnostic?_eq hcuts hmem
  · rintro segments ⟨hwhole, hstands, -, -⟩
    exact cuts_iff.1 ⟨hwhole, fun before s after heq => (hstands before s after heq).1⟩

end Scriptlet
