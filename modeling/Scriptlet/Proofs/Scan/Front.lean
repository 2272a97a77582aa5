import Scriptlet.Scan.Basic

/-!
# What the scanner yields

The first character of a text decides what kind of segment stands at its front; every statement
about the segments of a text comes down to these nine cases. The tokens of a text are those of its
segments, and the end.

## Main definitions

* `Segment.Front` — the cases that the first character decides
* `bodyTokens` — the tokens of a text before the end

## Main results

* `Segment.front` — the first segment falls under one of the cases
* `bodyTokens_kind` — the end is not among the tokens before it
-/

namespace Scriptlet

namespace Segment

/-- What the first character decides about the first segment. -/
inductive Front (c : Char) (cs : List Char) : Segment × List Char → Prop
  | single {kind : Kind} : single? c = some kind → Front c cs (.lexeme kind [c], cs)
  | widened {wide narrow : Kind} :
      widened? c = some (wide, narrow) → Front c cs (widenable c wide narrow cs)
  | slash : c = '/' → Front c cs (slash cs)
  | spacing : isSpacing c = true → Front c cs (.blank c, cs)
  | newline : c = '\n' → Front c cs (.newline, cs)
  | quote : c = '"' → Front c cs (string cs)
  | digit : c.isDigit = true → Front c cs (number c cs)
  | word : c.isDigit = false → c ≠ '"' → isNameStart c = true → Front c cs (word c cs)
  | stray : Front c cs (.stray c, cs)

theorem front (c : Char) (cs : List Char) : Front c cs (first c cs) := by
  unfold first
  split
  · next h => exact .single h
  split
  · next h => exact .widened h
  split
  · next h => exact .slash (beq_iff_eq.1 h)
  split
  · next h => exact .spacing h
  split
  · next h => exact .newline (beq_iff_eq.1 h)
  split
  · next h => exact .quote (beq_iff_eq.1 h)
  -- a word is looked for last, so it starts neither with a quote nor with a digit
  · next hquote =>
    split
    · next h => exact .digit h
    · next hdigit =>
      split
      · next h => exact .word (by simpa using hdigit) (by simpa using hquote) h
      · exact .stray

/-- The first segment of some text. -/
def IsFirst (s : Segment) : Prop := ∃ c cs, (first c cs).1 = s

theorem isFirst_of_mem_split {cs : List Char} {s : Segment} (h : s ∈ split cs) : s.IsFirst := by
  fun_induction split cs with
  | case1 => cases h
  | case2 c cs ih =>
    rcases List.mem_cons.1 h with rfl | h
    · exact ⟨c, cs, rfl⟩
    · exact ih h

theorem map_snd_located (line : Nat) (ss : List Segment) : (located line ss).map (·.2) = ss := by
  induction ss generalizing line with
  | nil => rfl
  | cons s ss ih => rw [located, List.map_cons, ih]

theorem exists_mem_located (line : Nat) {s : Segment} {ss : List Segment} (h : s ∈ ss) :
    ∃ l, (l, s) ∈ located line ss := by
  rw [← map_snd_located line ss] at h
  obtain ⟨⟨l, s'⟩, hmem, rfl⟩ := List.mem_map.1 h
  exact ⟨l, hmem⟩

theorem mem_of_mem_located {line l : Nat} {s : Segment} {ss : List Segment}
    (h : (l, s) ∈ located line ss) : s ∈ ss := by
  rw [← map_snd_located line ss]
  exact List.mem_map.2 ⟨(l, s), h, rfl⟩

/-- No segment ends before the line that the first one starts on. -/
theorem start_le_of_mem_located {line l : Nat} {s : Segment} {ss : List Segment}
    (h : (l, s) ∈ located line ss) : line ≤ l := by
  induction ss generalizing line with
  | nil => cases h
  | cons s' ss ih =>
    rcases List.mem_cons.1 h with heq | h
    · cases heq
      exact Nat.le_add_right _ _
    · exact Nat.le_trans (Nat.le_add_right _ _) (ih h)

/-- Nothing is wrong with any segment of a text without diagnostics. -/
theorem complaint?_eq_none {source : String} (h : (scan source).diagnostics = []) {s : Segment}
    (hs : s ∈ split source.toList) : s.complaint? = none := by
  obtain ⟨line, hline⟩ := exists_mem_located 1 hs
  have := List.filterMap_eq_nil_iff.1 h (line, s) hline
  simpa [diagnostic?] using this

end Segment

open Segment

/-- A text is scanned without diagnostics if nothing is wrong with its segments. -/
theorem diagnostics_scan_eq_nil {source : String}
    (h : ∀ s ∈ split source.toList, s.complaint? = none) : (scan source).diagnostics = [] := by
  refine List.filterMap_eq_nil_iff.2 fun ⟨line, s⟩ hmem => ?_
  simp [diagnostic?, h s (mem_of_mem_located hmem)]

/-- The tokens of a text before the end. -/
def bodyTokens (source : String) : List Token :=
  (located 1 (split source.toList)).filterMap fun (line, s) => s.token? line

theorem tokens_scan (source : String) :
    (scan source).tokens = bodyTokens source ++ [endToken (lastLine source.toList)] := rfl

/-- A token comes from the first segment of some text. -/
theorem exists_of_mem_bodyTokens {source : String} {t : Token} (h : t ∈ bodyTokens source) :
    ∃ c cs kind text line, (first c cs).1 = .lexeme kind text ∧
      t = .make kind (String.ofList text) (literal kind text) line := by
  obtain ⟨⟨line, s⟩, hmem, htoken⟩ := List.mem_filterMap.1 h
  obtain ⟨c, cs, rfl⟩ := isFirst_of_mem_split (mem_of_mem_located hmem)
  cases hs : (first c cs).1 with
  | lexeme kind text =>
    rw [hs] at htoken
    exact ⟨c, cs, kind, text, line, hs, (Option.some.inj htoken).symm⟩
  | _ =>
    rw [hs] at htoken
    cases htoken

theorem Kind.ofWord_mem (word : String) :
    Kind.ofWord word ∈ Kind.identifier :: Kind.keywords.map (·.2) := by
  unfold Kind.ofWord
  cases h : Kind.keyword? word with
  | none => exact List.mem_cons_self
  | some kind =>
    obtain ⟨before, after, heq, -⟩ := List.lookup_eq_some_iff.1 h
    refine List.mem_cons_of_mem _ (List.mem_map.2 ⟨(word, kind), ?_, rfl⟩)
    rw [heq]
    exact List.mem_append_right _ List.mem_cons_self

theorem Segment.kind_ne_eof {c : Char} {cs text : List Char} {kind : Kind}
    (h : (first c cs).1 = .lexeme kind text) : kind ≠ .eof := by
  have hfront := front c cs
  generalize first c cs = out at h hfront
  rintro rfl
  cases hfront with
  | single hsingle =>
    cases h
    unfold single? at hsingle
    split at hsingle <;> cases hsingle
  | widened hwide =>
    unfold widened? at hwide
    unfold widenable at h
    split at hwide <;> cases hwide <;> split at h <;> cases h
  | slash =>
    unfold slash comment at h
    repeat' split at h
    all_goals cases h
  | quote =>
    unfold string at h
    split at h <;> cases h
  -- a word is a name or one of the keywords
  | word =>
    have hword := Kind.ofWord_mem (String.ofList (c :: cs.takeWhile isNameChar))
    rw [(Segment.lexeme.inj h).1] at hword
    exact absurd hword (by decide)
  | spacing | newline | digit | stray => cases h

/-- The end is not among the tokens before it. -/
theorem bodyTokens_kind {source : String} {t : Token} (h : t ∈ bodyTokens source) :
    t.kind ≠ .eof := by
  obtain ⟨c, cs, kind, text, line, hfirst, rfl⟩ := exists_of_mem_bodyTokens h
  exact kind_ne_eof hfirst

end Scriptlet
