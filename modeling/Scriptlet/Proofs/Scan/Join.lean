import Scriptlet.Proofs.Scan.Front

/-!
# Texts on separate lines

A line end separates segments: only a string and a block comment go over one, and these have an end
of their own. So the segments of two texts with a line end between them are those of the first, the
line end, and those of the second, unless the first text leaves a string or a comment open. The
tokens and the diagnostics are those of the two texts, too, where those of the second stand further
down by the lines of the first.

## Main definitions

* `Token.movedDown`, `Diagnostic.movedDown` — what is told of a text some lines further down
* `Segment.Closes` — a text leaves nothing open

## Main results

* `Segment.first_append` — the first segment does not reach over a line end that follows the text
* `Segment.split_append` — the segments of two texts with a line end between them
* `scan_append_newline` — the tokens and the diagnostics of two texts on separate lines
-/

namespace Scriptlet

namespace Segment

/-! ### Runs of characters -/

section Runs

variable {p : Char → Bool} {z : Char}

/-- A run of characters ends before a character that does not belong to it. -/
theorem takeWhile_append_separator (hz : p z = false) (cs ds : List Char) :
    (cs ++ z :: ds).takeWhile p = cs.takeWhile p := by
  induction cs with
  | nil => simp [hz]
  | cons c cs ih =>
    by_cases hc : p c = true
    · simp [hc, ih]
    · simp [hc]

theorem dropWhile_append_separator (hz : p z = false) (cs ds : List Char) :
    (cs ++ z :: ds).dropWhile p = cs.dropWhile p ++ z :: ds := by
  induction cs with
  | nil => simp [hz]
  | cons c cs ih =>
    by_cases hc : p c = true
    · simp [hc, ih]
    · simp [hc]

end Runs

/-! ### The first segment -/

variable {c : Char} {cs body rest : List Char} (ds : List Char)

/-- A string that ends in a text ends at the same place if the text goes on. -/
theorem untilQuote?_append (h : untilQuote? cs = some (body, rest)) :
    untilQuote? (cs ++ ds) = some (body, rest ++ ds) := by
  unfold untilQuote? at h ⊢
  split at h
  · cases h
  · next quote after hdrop =>
    cases h
    -- the run of characters before the quote is not all of the text
    have hlength : (cs.takeWhile (· != '"')).length ≠ cs.length := by
      have hwhole := congrArg List.length
        (List.takeWhile_append_dropWhile (p := (· != '"')) (l := cs))
      rw [List.length_append, hdrop, List.length_cons] at hwhole
      omega
    rw [List.dropWhile_append, List.takeWhile_append, if_neg hlength, hdrop]
    rfl

/-- So does a comment. -/
theorem untilCommentEnd?_append (h : untilCommentEnd? cs = some (body, rest)) :
    untilCommentEnd? (cs ++ ds) = some (body, rest ++ ds) := by
  fun_induction untilCommentEnd? cs generalizing body with
  | case1 => cases h
  | case2 tail =>
    cases h
    rfl
  | case3 c tail hnotEnd ih =>
    obtain ⟨⟨b, r⟩, hfound, heq⟩ := Option.map_eq_some_iff.1 h
    cases heq
    -- the text does not end with this character, as there is an end of the comment behind it
    have hstep : untilCommentEnd? (c :: (tail ++ ds)) =
        (untilCommentEnd? (tail ++ ds)).map fun found => (c :: found.1, found.2) := by
      cases tail with
      | nil => cases hfound
      | cons c' tail =>
        rw [List.cons_append, untilCommentEnd?]
        intro after hc heq
        cases heq
        exact hnotEnd tail hc rfl
    rw [List.cons_append, hstep, ih hfound]
    rfl

theorem fraction_of_ne (h : c ≠ '.') : fraction (c :: cs) = ([], c :: cs) := by
  unfold fraction
  split
  · next heq =>
    cases heq
    exact absurd rfl h
  · rfl

/-- A fraction does not reach over a line end. -/
theorem fraction_append (cs : List Char) :
    fraction (cs ++ '\n' :: ds) = ((fraction cs).1, (fraction cs).2 ++ '\n' :: ds) := by
  cases cs with
  | nil => rfl
  | cons c cs =>
    by_cases hc : c = '.'
    · subst hc
      cases cs with
      | nil => rfl
      | cons d cs =>
        by_cases hd : d.isDigit = true
        · simp [fraction, hd, takeWhile_append_separator (p := Char.isDigit) (z := '\n') rfl,
            dropWhile_append_separator (p := Char.isDigit) (z := '\n') rfl]
        · simp [fraction, hd]
    · rw [List.cons_append, fraction_of_ne hc, fraction_of_ne hc]
      rfl

/-- Whether a segment goes up to the end of the text for want of its own end. -/
def isOpen : Segment → Bool
  | openString _ | openComment _ => true
  | _ => false

theorem isOpen_of_complaint? {s : Segment} (h : s.complaint? = none) : s.isOpen = false := by
  cases s with
  | openString body => cases h
  | openComment body => cases h
  | _ => rfl

theorem isNameChar_newline : isNameChar '\n' = false := by decide +kernel

theorem widenable_append (wide narrow : Kind) (cs : List Char) :
    widenable c wide narrow (cs ++ '\n' :: ds) =
      ((widenable c wide narrow cs).1, (widenable c wide narrow cs).2 ++ '\n' :: ds) := by
  cases cs with
  | nil => rfl
  | cons d cs =>
    by_cases hd : d = '='
    · subst hd
      rfl
    · simp [widenable, hd]

theorem slash_append (h : (slash cs).1.isOpen = false) :
    slash (cs ++ '\n' :: ds) = ((slash cs).1, (slash cs).2 ++ '\n' :: ds) := by
  cases cs with
  | nil => rfl
  | cons d cs =>
    by_cases hline : d = '/'
    · subst hline
      simp only [slash, List.cons_append,
        takeWhile_append_separator (p := (· != '\n')) (z := '\n') rfl,
        dropWhile_append_separator (p := (· != '\n')) (z := '\n') rfl]
    · by_cases hblock : d = '*'
      · subst hblock
        simp only [slash, comment, List.cons_append] at h ⊢
        cases hfound : untilCommentEnd? cs with
        | none => simp [hfound, isOpen] at h
        | some found => rw [untilCommentEnd?_append _ hfound]
      · simp [slash, hline, hblock]

theorem string_append (h : (string cs).1.isOpen = false) :
    string (cs ++ '\n' :: ds) = ((string cs).1, (string cs).2 ++ '\n' :: ds) := by
  simp only [string] at h ⊢
  cases hfound : untilQuote? cs with
  | none => simp [hfound, isOpen] at h
  | some found => rw [untilQuote?_append _ hfound]

/-- The first segment of a text does not reach over a line end behind the text. -/
theorem first_append (h : (first c cs).1.isOpen = false) :
    first c (cs ++ '\n' :: ds) = ((first c cs).1, (first c cs).2 ++ '\n' :: ds) := by
  revert h
  unfold first
  split
  · exact fun _ => rfl
  split
  · exact fun _ => widenable_append ds _ _ cs
  split
  · exact slash_append ds
  split
  · exact fun _ => rfl
  split
  · exact fun _ => rfl
  split
  · exact string_append ds
  split
  · intro _
    simp only [number, takeWhile_append_separator (p := Char.isDigit) (z := '\n') rfl,
      dropWhile_append_separator (p := Char.isDigit) (z := '\n') rfl, fraction_append]
  split
  · intro _
    simp only [word, takeWhile_append_separator isNameChar_newline,
      dropWhile_append_separator isNameChar_newline]
  · exact fun _ => rfl

/-- The text leaves no string and no comment open. -/
def Closes (cs : List Char) : Prop := ∀ s ∈ split cs, s.isOpen = false

/-- The segments of two texts with a line end between them, where the first text leaves nothing
open. -/
theorem split_append (h : Closes cs) :
    split (cs ++ '\n' :: ds) = split cs ++ newline :: split ds := by
  unfold Closes at h
  fun_induction split cs with
  | case1 =>
    rw [List.nil_append, split]
    rfl
  | case2 c cs ih =>
    rw [List.forall_mem_cons] at h
    rw [List.cons_append, split, first_append ds h.1, ih h.2]
    rfl

/-! ### Lines -/

/-- The lines of some segments behind others go on where the others end. -/
theorem located_append (line : Nat) (ss us : List Segment) :
    located line (ss ++ us) =
      located line ss ++ located (line + (ss.flatMap text).count '\n') us := by
  induction ss generalizing line with
  | nil => rfl
  | cons s ss ih =>
    rw [List.cons_append, located, located, ih, List.flatMap_cons, List.count_append, ← newlines,
      Nat.add_assoc, List.cons_append]

/-- Segments that start some lines further down end as many lines further down. -/
theorem located_add (line n : Nat) (ss : List Segment) :
    located (line + n) ss = (located line ss).map fun (l, s) => (l + n, s) := by
  induction ss generalizing line with
  | nil => rfl
  | cons s ss ih =>
    rw [located, located, List.map_cons, ← ih, Nat.add_right_comm line n s.newlines]

/-- The segments of two texts on separate lines, with their lines. -/
theorem located_split_append (h : Closes cs) :
    located 1 (split (cs ++ '\n' :: ds)) =
      located 1 (split cs) ++ (1 + lastLine cs, newline) ::
        (located 1 (split ds)).map fun (l, s) => (l + lastLine cs, s) := by
  have hline : 1 + ((split cs).flatMap text).count '\n' = lastLine cs := by
    rw [flatMap_text_split, lastLine]
  rw [split_append ds h, located_append, hline, located, ← located_add]
  have hnewline : lastLine cs + newline.newlines = 1 + lastLine cs := Nat.add_comm _ _
  rw [hnewline]

end Segment

/-! ### Tokens and diagnostics -/

/-- The line `n` lines further down. -/
def Json.lineBelow (n : Nat) : Json → Json
  | .atom (.int line) => .int (line + n)
  | line => line

/-- The token of a text that starts `n` lines further down. -/
def Token.movedDown (n : Nat) (t : Token) : Token := { t with line := t.line.lineBelow n }

/-- The diagnostic of a text that starts `n` lines further down. -/
def Diagnostic.movedDown (n : Nat) (d : Diagnostic) : Diagnostic :=
  { d with line := d.line.lineBelow n }

open Segment

namespace Segment

theorem token?_add (line n : Nat) (s : Segment) :
    s.token? (line + n) = (s.token? line).map (Token.movedDown n) := by
  cases s <;> rfl

theorem diagnostic?_add (line n : Nat) (s : Segment) :
    s.diagnostic? (line + n) = (s.diagnostic? line).map (Diagnostic.movedDown n) := by
  rw [diagnostic?, diagnostic?, Option.map_map]
  rfl

end Segment

section Join

variable {first second : String} (h : Closes first.toList)

include h

/-- What is made of the segments of two texts on separate lines, if nothing is made of a line end,
and the same of a segment further down, but moved down. -/
theorem filterMap_located_join {α : Type} {f : Nat × Segment → Option α} (down : Nat → α → α)
    (hnewline : ∀ line, f (line, newline) = none)
    (hdown : ∀ line n s, f (line + n, s) = (f (line, s)).map (down n)) :
    (located 1 (split (first ++ "\n" ++ second).toList)).filterMap f =
      (located 1 (split first.toList)).filterMap f ++
        ((located 1 (split second.toList)).filterMap f).map (down (lastLine first.toList)) := by
  have htext : (first ++ "\n" ++ second).toList = first.toList ++ '\n' :: second.toList := by simp
  rw [htext, located_split_append _ h, List.filterMap_append,
    List.filterMap_cons_none (hnewline _), List.filterMap_map, List.map_filterMap]
  congr 2
  funext ⟨line, s⟩
  exact hdown line _ s

theorem bodyTokens_join :
    bodyTokens (first ++ "\n" ++ second) = bodyTokens first ++
      (bodyTokens second).map (Token.movedDown (lastLine first.toList)) :=
  filterMap_located_join h Token.movedDown (fun _ => rfl) token?_add

theorem diagnostics_scan_join :
    (scan (first ++ "\n" ++ second)).diagnostics = (scan first).diagnostics ++
      (scan second).diagnostics.map (Diagnostic.movedDown (lastLine first.toList)) :=
  filterMap_located_join h Diagnostic.movedDown (fun _ => rfl) diagnostic?_add

end Join

/-- A text leaves nothing open if there is no diagnostic about it. -/
theorem Segment.closes_of_messages {source : String}
    (h : ∀ d ∈ (scan source).diagnostics,
      d.message ≠ "Unterminated string." ∧ d.message ≠ "Unterminated block comment.") :
    Closes source.toList := by
  intro s hs
  obtain ⟨line, hline⟩ := exists_mem_located 1 hs
  have hcomplaint {message : String} (hmessage : s.complaint? = some message) :
      message ≠ "Unterminated string." ∧ message ≠ "Unterminated block comment." := by
    refine h (.atLine line message) (List.mem_filterMap.2 ⟨(line, s), hline, ?_⟩)
    simp [diagnostic?, hmessage]
  cases s with
  | openString body => exact absurd rfl (hcomplaint rfl).1
  | openComment body => exact absurd rfl (hcomplaint rfl).2
  | _ => rfl

/-- If the first of two texts leaves no string and no comment open, the tokens of both on separate
lines are those of the first, without the end, and those of the second, and the diagnostics are
those of the first and those of the second. What comes from the second stands further down by the
number of lines of the first. -/
theorem scan_append_newline (first second : String)
    (h : ∀ d ∈ (scan first).diagnostics,
      d.message ≠ "Unterminated string." ∧ d.message ≠ "Unterminated block comment.") :
    (scan (first ++ "\n" ++ second)).tokens = (scan first).tokens.dropLast ++
        (scan second).tokens.map (Token.movedDown (1 + first.toList.count '\n')) ∧
      (scan (first ++ "\n" ++ second)).diagnostics = (scan first).diagnostics ++
        (scan second).diagnostics.map (Diagnostic.movedDown (1 + first.toList.count '\n')) := by
  have hcloses := closes_of_messages h
  refine ⟨?_, diagnostics_scan_join hcloses⟩
  have hend : endToken (lastLine (first ++ "\n" ++ second).toList) =
      (endToken (lastLine second.toList)).movedDown (lastLine first.toList) := by
    have hlines : lastLine (first ++ "\n" ++ second).toList =
        lastLine second.toList + lastLine first.toList := by
      simp [lastLine]
      omega
    rw [hlines]
    rfl
  rw [tokens_scan, tokens_scan, tokens_scan, bodyTokens_join hcloses, List.dropLast_concat,
    List.map_append, hend, List.append_assoc]
  rfl

/-- A string over two lines, a character that starts nothing, and a number with a point. -/
def brokenOff : String := "\"a\nb\" ² 1."

/-- The point belongs to neither of the numbers around it, and the second text starts on the third
line. -/
theorem scan_append_newline_brokenOff :
    (∀ d ∈ (scan brokenOff).diagnostics,
        d.message ≠ "Unterminated string." ∧ d.message ≠ "Unterminated block comment.") ∧
      (scan (brokenOff ++ "\n" ++ "5 #")).tokens = (scan brokenOff).tokens.dropLast ++
        (scan "5 #").tokens.map (Token.movedDown (1 + brokenOff.toList.count '\n')) ∧
      (scan (brokenOff ++ "\n" ++ "5 #")).diagnostics = (scan brokenOff).diagnostics ++
        (scan "5 #").diagnostics.map (Diagnostic.movedDown (1 + brokenOff.toList.count '\n')) := by
  have hmessages : ∀ d ∈ (scan brokenOff).diagnostics,
      d.message ≠ "Unterminated string." ∧ d.message ≠ "Unterminated block comment." := by
    decide +kernel
  exact ⟨hmessages, scan_append_newline _ _ hmessages⟩

end Scriptlet
