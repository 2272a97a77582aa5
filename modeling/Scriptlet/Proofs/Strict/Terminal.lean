import Scriptlet.Proofs.Strict.Fork
import Scriptlet.Strict.Generated

/-!
# What the terminals match

The lexeme that the terminals of the grammar find at the front of a text is the one that the strict
front end cuts off, except that white space is matched as long as it goes on and cut off character
by character. So the lexemes of a text by the terminals are the tokens of the strict front end, and
cutting ends for the same reason.

## Main definitions

* `Strict.Lexeme.token` — the token of a lexeme
* `Strict.Stop.ending` — why the strict front end ends

## Main results

* `Strict.next?_cons` — the terminal at the front of a text
* `Strict.cut_of_lexes` — the lexemes of a text are what the strict front end cuts
* `Strict.exists_lexes` — every text has lexemes
* `Strict.Lexes.unique` — a text has one list of lexemes
-/

namespace Scriptlet.Strict

open Segment

/-! ### Patterns -/

namespace Pattern

variable {test : Char → Bool} {p q r : Pattern} {c : Char} {cs : List Char}

theorem match?_seq (p q : Pattern) (cs : List Char) :
    (seq p q).match? cs = (p.rests cs).findSome? q.match? := List.head?_flatMap

theorem match?_seq_assoc (p q r : Pattern) (cs : List Char) :
    (seq (seq p q) r).match? cs = (seq p (seq q r)).match? cs := by
  simp only [match?, rests, List.flatMap_assoc]

/-- A sequence that begins with one character. -/
theorem match?_one_seq (test : Char → Bool) (q : Pattern) (c : Char) (cs : List Char) :
    (seq (one test) q).match? (c :: cs) = if test c then q.match? cs else none := by
  rw [match?_seq, rests]
  split
  · simp
  · rfl

theorem exists_restsOfMost (test : Char → Bool) (cs : List Char) :
    ∃ shorter, restsOfMost test cs = cs.dropWhile test :: shorter := by
  induction cs with
  | nil => exact ⟨[], rfl⟩
  | cons c cs ih =>
    obtain ⟨shorter, hshorter⟩ := ih
    rw [restsOfMost, List.dropWhile_cons]
    split
    · exact ⟨shorter ++ [c :: cs], by rw [hshorter, List.cons_append]⟩
    · exact ⟨[], rfl⟩

theorem match?_most (test : Char → Bool) (cs : List Char) :
    (most test).match? cs = some (cs.dropWhile test) := by
  obtain ⟨shorter, hshorter⟩ := exists_restsOfMost test cs
  rw [match?, rests, hshorter, List.head?_cons]

/-- Where what follows always matches, the longest run is the first match. -/
theorem match?_most_seq (hq : ∀ cs, (q.match? cs).isSome) (cs : List Char) :
    (seq (most test) q).match? cs = q.match? (cs.dropWhile test) := by
  obtain ⟨shorter, hshorter⟩ := exists_restsOfMost test cs
  obtain ⟨rest, hrest⟩ := Option.isSome_iff_exists.1 (hq (cs.dropWhile test))
  rw [match?_seq, rests, hshorter, List.findSome?_cons, hrest]

theorem match?_oneOrMore (test : Char → Bool) (c : Char) (cs : List Char) :
    (oneOrMore test).match? (c :: cs) = if test c then some (cs.dropWhile test) else none := by
  rw [oneOrMore, match?_one_seq, match?_most]

theorem match?_optional (p : Pattern) (cs : List Char) :
    (optional p).match? cs = (p.match? cs).or (some cs) := by
  rw [match?, rests, List.head?_append]
  rfl

end Pattern

open Pattern

section

variable {c : Char} {cs : List Char}

theorem match?_numberPattern (c : Char) (cs : List Char) :
    numberPattern.match? (c :: cs) =
      if c.isDigit then some (fraction (cs.dropWhile Char.isDigit)).2 else none := by
  have hfraction (ds : List Char) :
      (optional (seq (char '.') (oneOrMore Char.isDigit))).match? ds =
        some (fraction ds).2 := by
    rw [match?_optional]
    unfold fraction
    split
    · next c rest =>
      rw [char, match?_one_seq, if_pos (beq_self_eq_true _), match?_oneOrMore]
      split <;> rfl
    · next hshape =>
      -- no point with a digit behind it is next
      match ds with
      | [] => rfl
      | [d] =>
        rw [char, match?_one_seq]
        split <;> rfl
      | d :: d' :: ds =>
        have hd : ¬ (d == '.') = true := by
          rw [beq_iff_eq]
          rintro rfl
          exact hshape _ _ rfl
        rw [char, match?_one_seq, if_neg hd]
        rfl
  have htotal (ds : List Char) :
      ((optional (seq (char '.') (oneOrMore Char.isDigit))).match? ds).isSome := by
    rw [hfraction]
    rfl
  calc numberPattern.match? (c :: cs)
      = (seq (one Char.isDigit) (seq (most Char.isDigit)
          (optional (seq (char '.') (oneOrMore Char.isDigit))))).match? (c :: cs) :=
        match?_seq_assoc _ _ _ _
    _ = if c.isDigit then some (fraction (cs.dropWhile Char.isDigit)).2 else none := by
        rw [match?_one_seq, match?_most_seq htotal, hfraction]

theorem match?_namePattern (c : Char) (cs : List Char) :
    namePattern.match? (c :: cs) =
      if Text.isWordStart c then some (cs.dropWhile Text.isWordChar) else none := by
  rw [namePattern, match?_one_seq, match?_most]

theorem match?_whitespacePattern (c : Char) (cs : List Char) :
    whitespacePattern.match? (c :: cs) =
      if isGap c then some (cs.dropWhile isGap) else none := match?_oneOrMore isGap c cs

/-- The longest run up to a quote is the only one with a quote behind it. -/
theorem match?_untilQuote (cs : List Char) :
    (seq (most (· != '"')) (char '"')).match? cs = (untilQuote? cs).map Prod.snd := by
  rw [match?_seq, rests]
  induction cs with
  | nil => rfl
  | cons c cs ih =>
    rw [restsOfMost, untilQuote?, List.dropWhile_cons]
    by_cases hc : c = '"'
    · subst hc
      rfl
    · have hne : (c != '"') = true := by simpa using hc
      have hnone : (char '"').match? (c :: cs) = none := by
        rw [match?, char, rests, if_neg (by simpa using hc)]
        rfl
      rw [if_pos hne, if_pos hne, List.findSome?_append, ih, untilQuote?, List.findSome?_cons,
        hnone]
      cases cs.dropWhile (· != '"') <;> rfl

theorem match?_stringPattern (c : Char) (cs : List Char) :
    stringPattern.match? (c :: cs) =
      if c == '"' then (untilQuote? cs).map Prod.snd else none := by
  rw [stringPattern, char, match?_one_seq, ← match?_untilQuote]
  rfl

theorem match?_untilCommentEnd (cs : List Char) :
    (seq (fewest fun _ => true) (literal '*' (some '/'))).match? cs =
      (untilCommentEnd? cs).map Prod.snd := by
  rw [match?_seq, rests]
  induction cs with
  | nil => rfl
  | cons c cs ih =>
    rw [restsOfFewest, if_pos rfl, List.findSome?_cons, ih]
    by_cases hend : ∃ rest, c = '*' ∧ cs = '/' :: rest
    · obtain ⟨rest, rfl, rfl⟩ := hend
      rfl
    · have hnone : (Pattern.literal '*' (some '/')).match? (c :: cs) = none := by
        rw [Pattern.literal, char, match?_one_seq]
        split
        · next hc =>
          rw [beq_iff_eq] at hc
          cases cs with
          | nil => rfl
          | cons d cs =>
            have hd : ¬ (d == '/') = true := by
              rw [beq_iff_eq]
              rintro rfl
              exact hend ⟨cs, hc, rfl⟩
            rw [match?, char, rests, if_neg hd]
            rfl
        · rfl
      have hshape (rest : List Char) (hc : c = '*') (hcs : cs = '/' :: rest) : False :=
        hend ⟨rest, hc, hcs⟩
      rw [hnone, untilCommentEnd?, Option.map_map]
      · rfl
      · exact hshape

theorem match?_lineCommentPattern (c : Char) (cs : List Char) :
    lineCommentPattern.match? (c :: cs) =
      if c == '/' then
        match cs with
        | '/' :: rest => some (rest.dropWhile (· != '\n'))
        | _ => none
      else none := by
  rw [lineCommentPattern, Pattern.literal, match?_seq_assoc, char, match?_one_seq]
  congr 1
  cases cs with
  | nil => rfl
  | cons d cs =>
    rw [match?_one_seq, match?_most]
    split <;> simp_all

theorem match?_blockCommentPattern (c : Char) (cs : List Char) :
    blockCommentPattern.match? (c :: cs) =
      if c == '/' then
        match cs with
        | '*' :: rest => (untilCommentEnd? rest).map Prod.snd
        | _ => none
      else none := by
  rw [blockCommentPattern, Pattern.literal, match?_seq_assoc, char, match?_one_seq]
  congr 1
  cases cs with
  | nil => rfl
  | cons d cs =>
    rw [char, match?_one_seq, match?_untilCommentEnd]
    split <;> simp_all

end

/-! ### Operators -/

theorem findSome?_ite {α β : Type} (p : α → Bool) (g : α → β) (as : List α) :
    as.findSome? (fun a => if p a then some (g a) else none) = (as.find? p).map g := by
  induction as with
  | nil => rfl
  | cons a as ih =>
    rw [List.findSome?_cons, List.find?_cons]
    cases p a with
    | true => rfl
    | false => exact ih

/-- The literals are the operators of two characters and those of one. -/
theorem literals_eq :
    literals = doubleOperators.map (fun (a, b, kind) => (a, some b, kind)) ++
      singleOperators.map fun (a, kind) => (a, none, kind) := rfl

theorem match?_literal_none (a c : Char) (cs : List Char) :
    (Pattern.literal a none).match? (c :: cs) = if c == a then some cs else none := by
  rw [Pattern.literal, match?, char, rests]
  split <;> rfl

theorem match?_literal_some (a b c : Char) (cs : List Char) :
    (Pattern.literal a (some b)).match? (c :: cs) =
      if c == a then (char b).match? cs else none := by
  rw [Pattern.literal, char, match?_one_seq]

/-- What the lexer finds at the front of a text, beside what is cut off there. -/
inductive Finds (c : Char) (cs : List Char) :
    Option (Piece × List Char) → Option (Terminal × List Char) → Prop
  | none : Finds c cs none none
  | lexeme {kind : Kind} {text rest : List Char} :
      Finds c cs (some (.lexeme (spelledKind kind text) text, rest)) (some (.token kind, rest))
  | comment {terminal : Terminal} {text rest : List Char} : (∀ kind, terminal ≠ .token kind) →
      Finds c cs (some (.gap text, rest)) (some (terminal, rest))
  /-- White space is found as long as it goes on. -/
  | space : isGap c = true →
      Finds c cs (some (.gap [c], cs)) (some (.whitespace, cs.dropWhile isGap))

/-- What is found first is found, and what is cut off first is cut off. -/
theorem Finds.or {c : Char} {cs : List Char} {cut cut' : Option (Piece × List Char)}
    {found found' : Option (Terminal × List Char)} (h : Finds c cs cut found)
    (h' : Finds c cs cut' found') : Finds c cs (cut.or cut') (found.or found') := by
  cases h with
  | none => exact h'
  | lexeme => exact .lexeme
  | comment hterminal => exact .comment hterminal
  | space hgap => exact .space hgap

/-- A literal that is no name is cut off as it is found. -/
theorem Finds.literal {c : Char} {cs text rest : List Char} {kind : Kind}
    (hkind : kind ≠ .identifier) :
    Finds c cs (some (.lexeme kind text, rest)) (some (.token kind, rest)) := by
  have hspelled : spelledKind kind text = kind := if_neg hkind
  have hfinds : Finds c cs (some (.lexeme (spelledKind kind text) text, rest)) _ := .lexeme
  rwa [hspelled] at hfinds

section

variable (c : Char) (cs : List Char)

theorem finds_doubleOperator :
    Finds c cs (doubleOperator? c cs) (doubleOperators.findSome? fun (a, b, kind) =>
      ((Pattern.literal a (some b)).match? (c :: cs)).map fun rest => (.token kind, rest)) := by
  have hkinds : ∀ entry ∈ doubleOperators, entry.2.2 ≠ .identifier := by decide
  cases cs with
  | nil =>
    have hnone : doubleOperators.findSome? (fun (a, b, kind) =>
        ((Pattern.literal a (some b)).match? [c]).map fun rest => (Terminal.token kind, rest)) =
          none := by
      rw [List.findSome?_eq_none_iff]
      rintro ⟨a, b, kind⟩ -
      rw [Option.map_eq_none_iff, match?_literal_some]
      split <;> rfl
    rw [hnone]
    exact .none
  | cons d ds =>
    have hmatch (entry : Char × Char × Kind) :
        ((Pattern.literal entry.1 (some entry.2.1)).match? (c :: d :: ds)).map
            (fun rest => (Terminal.token entry.2.2, rest)) =
          if entry.1 == c && entry.2.1 == d then some (.token entry.2.2, ds) else none := by
      rw [match?_literal_some, match?, char, rests, BEq.comm (a := c), BEq.comm (a := d)]
      cases entry.1 == c <;> cases entry.2.1 == d <;> rfl
    simp only [hmatch, findSome?_ite, doubleOperator?]
    cases hfind : doubleOperators.find? fun entry => entry.1 == c && entry.2.1 == d with
    | none => exact .none
    | some entry => exact .literal (hkinds entry (List.mem_of_find?_eq_some hfind))

theorem finds_singleOperator :
    Finds c cs ((singleOperators.lookup c).map fun kind => (.lexeme kind [c], cs))
      (singleOperators.findSome? fun (a, kind) =>
        ((Pattern.literal a none).match? (c :: cs)).map fun rest => (.token kind, rest)) := by
  have hkinds : ∀ entry ∈ singleOperators, entry.2 ≠ .identifier := by decide
  have hmatch (entry : Char × Kind) :
      ((Pattern.literal entry.1 none).match? (c :: cs)).map
          (fun rest => (Terminal.token entry.2, rest)) =
        if c == entry.1 then some (.token entry.2, cs) else none := by
    rw [match?_literal_none]
    cases c == entry.1 <;> rfl
  simp only [hmatch, findSome?_ite, List.lookup_eq_findSome?]
  cases hfind : singleOperators.find? fun entry => c == entry.1 with
  | none => exact .none
  | some entry => exact .literal (hkinds entry (List.mem_of_find?_eq_some hfind))

theorem finds_operator :
    Finds c cs (operator? c cs)
      ((literals.map fun (c, c', kind) => (Terminal.token kind, Pattern.literal c c')).findSome?
        fun (terminal, pattern) =>
          (pattern.match? (c :: cs)).map fun rest => (terminal, rest)) := by
  rw [literals_eq, List.map_append, List.findSome?_append, List.map_map, List.map_map,
    List.findSome?_map, List.findSome?_map]
  exact (finds_doubleOperator c cs).or (finds_singleOperator c cs)

end

/-! ### The front of a text -/

theorem findSome?_cons_or {α β : Type} (f : α → Option β) (a : α) (as : List α) :
    (a :: as).findSome? f = (f a).or (as.findSome? f) := by
  rw [List.findSome?_cons]
  cases f a <;> rfl

/-- The terminals that are no literals are tried first. -/
theorem next?_eq (cs : List Char) :
    next? cs = ((numberPattern.match? cs).map fun rest => (.token .number, rest)).or
      (((blockCommentPattern.match? cs).map fun rest => (.blockComment, rest)).or
      (((lineCommentPattern.match? cs).map fun rest => (.lineComment, rest)).or
      (((namePattern.match? cs).map fun rest => (.token .identifier, rest)).or
      (((whitespacePattern.match? cs).map fun rest => (.whitespace, rest)).or
      (((stringPattern.match? cs).map fun rest => (.token .string, rest)).or
      ((literals.map fun (c, c', kind) => (Terminal.token kind, Pattern.literal c c')).findSome?
        fun (terminal, pattern) =>
          (pattern.match? cs).map fun rest => (terminal, rest))))))) := by
  rw [next?, terminals, List.findSome?_append]
  simp only [findSome?_cons_or, List.findSome?_nil, Option.or_none, Option.or_assoc]

section

variable {c : Char} (cs : List Char)

theorem finds_comment :
    Finds '/' cs (comment? cs)
      (((blockCommentPattern.match? ('/' :: cs)).map fun rest => (.blockComment, rest)).or
        ((lineCommentPattern.match? ('/' :: cs)).map fun rest => (.lineComment, rest))) := by
  rw [match?_blockCommentPattern, match?_lineCommentPattern, beq_self_eq_true, if_pos rfl,
    if_pos rfl]
  unfold comment?
  split
  · exact .comment nofun
  · next rest =>
    change Finds _ _ _ ((((untilCommentEnd? rest).map Prod.snd).map _).or none)
    cases untilCommentEnd? rest with
    | none => exact .none
    | some found => exact .comment nofun
  · next hline hblock =>
    split
    · exact absurd rfl (hblock _)
    · split
      · exact absurd rfl (hline _)
      · exact .none

/-- What is left when neither a numeral nor a comment is next. -/
theorem next?_of_ne (hdigit : c.isDigit = false) (hslash : c ≠ '/') :
    next? (c :: cs) =
      ((if Text.isWordStart c then some (cs.dropWhile Text.isWordChar) else none).map
        fun rest => (.token .identifier, rest)).or
      (((if isGap c then some (cs.dropWhile isGap) else none).map
        fun rest => (.whitespace, rest)).or
      (((if c == '"' then (untilQuote? cs).map Prod.snd else none).map
        fun rest => (.token .string, rest)).or
      ((literals.map fun (c, c', kind) => (Terminal.token kind, Pattern.literal c c')).findSome?
        fun (terminal, pattern) =>
          (pattern.match? (c :: cs)).map fun rest => (terminal, rest)))) := by
  have hne : ¬ (c == '/') = true := by simpa using hslash
  rw [next?_eq, match?_numberPattern, match?_blockCommentPattern, match?_lineCommentPattern,
    match?_namePattern, match?_whitespacePattern, match?_stringPattern, hdigit, if_neg hne,
    if_neg hne]
  rfl

/-- At a slash a comment is tried before the operator. -/
theorem next?_slash :
    next? ('/' :: cs) =
      (((blockCommentPattern.match? ('/' :: cs)).map fun rest => (.blockComment, rest)).or
        ((lineCommentPattern.match? ('/' :: cs)).map fun rest => (.lineComment, rest))).or
      ((literals.map fun (c, c', kind) => (Terminal.token kind, Pattern.literal c c')).findSome?
        fun (terminal, pattern) =>
          (pattern.match? ('/' :: cs)).map fun rest => (terminal, rest)) := by
  have hstart : Text.isWordStart '/' = false := by decide
  rw [next?_eq, match?_numberPattern, match?_namePattern, match?_whitespacePattern,
    match?_stringPattern, hstart, Option.or_assoc]
  rfl

/-- The lexer finds at the front of a text what is cut off there. -/
theorem finds_first (c : Char) (cs : List Char) : Finds c cs (first c cs) (next? (c :: cs)) := by
  have hoperator := finds_operator c cs
  by_cases hdigit : c.isDigit = true
  · rw [first, if_pos hdigit, next?_eq, match?_numberPattern, if_pos hdigit]
    exact .literal (by decide)
  by_cases hslash : c = '/'
  · subst hslash
    rw [next?_slash]
    exact (finds_comment cs).or hoperator
  rw [next?_of_ne cs (Bool.not_eq_true _ ▸ hdigit) hslash, first, if_neg hdigit]
  by_cases hquote : c = '"'
  · subst hquote
    have hstart : Text.isWordStart '"' = false := by decide
    -- no literal begins with a quote
    have hnone : operator? '"' cs = none := by cases cs <;> rfl
    rw [hnone] at hoperator
    rw [hstart]
    cases hend : untilQuote? cs with
    | none => exact hoperator
    | some found => exact .literal (by decide)
  have hne : ¬ (c == '"') = true := by simpa using hquote
  rw [if_neg hne, if_neg hne]
  split
  · exact @Finds.lexeme c cs .identifier (c :: cs.takeWhile Text.isWordChar) _
  · split
    · next hgap => exact .space hgap
    · rw [if_neg (by simpa using hslash)]
      exact hoperator

end

/-! ### What is cut off -/

theorem text_operator? {c : Char} {cs rest : List Char} {piece : Piece}
    (h : operator? c cs = some (piece, rest)) : piece.text ++ rest = c :: cs := by
  rcases Option.or_eq_some_iff.1 h with h | ⟨-, h⟩
  · cases cs with
    | nil => cases h
    | cons d ds =>
      obtain ⟨⟨a, b, kind⟩, hfind, heq⟩ := Option.map_eq_some_iff.1 h
      obtain ⟨rfl, rfl⟩ : a = c ∧ b = d := by simpa using List.find?_some hfind
      cases heq
      rfl
  · obtain ⟨kind, -, heq⟩ := Option.map_eq_some_iff.1 h
    cases heq
    rfl

theorem text_comment? {cs rest : List Char} {piece : Piece}
    (h : comment? cs = some (piece, rest)) : piece.text ++ rest = '/' :: cs := by
  unfold comment? at h
  split at h
  · cases h
    simp [Piece.text, List.takeWhile_append_dropWhile]
  · obtain ⟨⟨body, after⟩, hend, heq⟩ := Option.map_eq_some_iff.1 h
    cases heq
    simp [Piece.text, ← text_untilCommentEnd? hend]
  · cases h

/-- Nothing is lost. -/
theorem text_first_piece {c : Char} {cs rest : List Char} {piece : Piece}
    (h : first c cs = some (piece, rest)) : piece.text ++ rest = c :: cs := by
  unfold first at h
  split at h
  · cases h
    simp [Piece.text, text_fraction, List.takeWhile_append_dropWhile]
  split at h
  · next hquote =>
    obtain ⟨⟨body, after⟩, hend, heq⟩ := Option.map_eq_some_iff.1 h
    cases heq
    rw [beq_iff_eq] at hquote
    simp [Piece.text, hquote, ← text_untilQuote? hend]
  split at h
  · cases h
    simp [Piece.text, List.takeWhile_append_dropWhile]
  split at h
  · cases h
    rfl
  split at h
  · next hslash =>
    rw [beq_iff_eq] at hslash
    subst hslash
    rcases Option.or_eq_some_iff.1 h with h | ⟨-, h⟩
    · exact text_comment? h
    · exact text_operator? h
  · exact text_operator? h

theorem first_of_isGap {c : Char} (h : isGap c = true) (cs : List Char) :
    first c cs = some (.gap [c], cs) := by
  simp only [isGap, Bool.or_eq_true, beq_iff_eq] at h
  rcases h with ((rfl | rfl) | rfl) | rfl <;> rfl

/-- White space that is found as long as it goes on is cut off character by character. -/
theorem cutFrom_isGap {gap : List Char} (h : ∀ c ∈ gap, isGap c = true) (line last : Nat)
    (rest : List Char) :
    cutFrom line last (gap ++ rest) = cutFrom (line + gap.count '\n') last rest := by
  induction gap generalizing line with
  | nil => rfl
  | cons c gap ih =>
    rw [List.forall_mem_cons] at h
    rw [List.cons_append, cutFrom_gap (first_of_isGap h.1 _), ih h.2, Nat.add_assoc,
      ← List.count_append, List.singleton_append]

/-! ### Lexemes -/

/-- The token of a lexeme. -/
def Lexeme.token (l : Lexeme) : Token := .make l.kind l.text (literal l.kind l.text.toList) l.line

/-- Why the strict front end ends, where `last` is the line of the last lexeme. -/
def Stop.ending (last : Nat) : Stop → Ending
  | finished => .finished last
  | unexpected c line => .unexpected c line

/-- The line of the last lexeme, or of the one before all of them. -/
def lastLineFrom (last : Nat) (ls : List Lexeme) : Nat := (ls.getLast?.map (·.line)).getD last

theorem lastLineFrom_cons (last : Nat) (l : Lexeme) (ls : List Lexeme) :
    lastLineFrom last (l :: ls) = lastLineFrom l.line ls := by
  rw [lastLineFrom, List.getLast?_cons, lastLineFrom]
  cases ls.getLast? <;> rfl

/-- A terminal is found where something is left. -/
theorem exists_cons_of_next? {cs rest : List Char} {terminal : Terminal}
    (h : next? cs = some (terminal, rest)) : ∃ c cs', cs = c :: cs' := by
  cases cs with
  | nil => cases h
  | cons c cs' => exact ⟨c, cs', rfl⟩

/-- A lexeme that is found is cut off. -/
theorem first_of_next? {c : Char} {cs text rest : List Char} {kind : Kind}
    (hcs : text ++ rest = c :: cs) (h : next? (c :: cs) = some (.token kind, rest)) :
    first c cs = some (.lexeme (spelledKind kind text) text, rest) := by
  have hfinds := finds_first c cs
  rw [h] at hfinds
  generalize hcut : first c cs = cut at hfinds
  cases hfinds with
  | lexeme =>
    have htext := text_first_piece hcut
    obtain rfl := List.append_cancel_right (htext.trans hcs.symm)
    rfl
  | comment hterminal => exact absurd rfl (hterminal kind)

theorem cutFrom_ignored {text rest : List Char} {terminal : Terminal}
    (h : next? (text ++ rest) = some (terminal, rest)) (hterminal : ∀ kind, terminal ≠ .token kind)
    (line last : Nat) :
    cutFrom line last (text ++ rest) = cutFrom (line + text.count '\n') last rest := by
  obtain ⟨c, cs, hcs⟩ := exists_cons_of_next? h
  have hfinds := finds_first c cs
  rw [← hcs, h] at hfinds
  generalize hcut : first c cs = cut at hfinds
  cases hfinds with
  | lexeme => exact absurd rfl (hterminal _)
  | comment =>
    have htext := text_first_piece hcut
    obtain rfl := List.append_cancel_right (htext.trans hcs.symm)
    rw [hcs]
    exact cutFrom_gap hcut line last
  | space hgap =>
    refine cutFrom_isGap ?_ line last _
    have htext : text ++ cs.dropWhile isGap = c :: cs.takeWhile isGap ++ cs.dropWhile isGap := by
      rw [hcs, List.cons_append, List.takeWhile_append_dropWhile]
    rw [List.append_cancel_right htext, List.forall_mem_cons]
    exact ⟨hgap, fun c hc => List.all_eq_true.1 List.all_takeWhile c hc⟩

/-- The lexemes of a text are what the strict front end cuts, and cutting ends for the same
reason. -/
theorem cutFrom_of_lexes {line : Nat} {cs : List Char} {ls : List Lexeme} {stop : Stop}
    (h : Lexes line cs ls stop) (last : Nat) :
    cutFrom line last cs = (ls.map Lexeme.token, stop.ending (lastLineFrom last ls)) := by
  induction h generalizing last with
  | finished =>
    rw [cutFrom]
    rfl
  | @unexpected line c cs hnone =>
    have hfinds := finds_first c cs
    rw [hnone] at hfinds
    generalize hcut : first c cs = cut at hfinds
    cases hfinds
    exact cutFrom_none hcut line last
  | ignored hnext hterminal _ ih => rw [cutFrom_ignored hnext hterminal, ih]
  | lexeme hnext _ ih =>
    obtain ⟨c, cs, hcs⟩ := exists_cons_of_next? hnext
    rw [hcs] at hnext ⊢
    rw [cutFrom_lexeme (first_of_next? hcs hnext), ih, lastLineFrom_cons]
    simp [Lexeme.token]

theorem cut_of_lexes {source : String} {ls : List Lexeme} {stop : Stop}
    (h : Lexes 1 source.toList ls stop) :
    cut source = (ls.map Lexeme.token, stop.ending (lastLineOf ls)) := cutFrom_of_lexes h 1

/-- What a terminal leaves is a shorter end of the text. -/
theorem exists_text_of_next? {cs rest : List Char} {terminal : Terminal}
    (h : next? cs = some (terminal, rest)) :
    ∃ text, cs = text ++ rest ∧ rest.length < cs.length := by
  obtain ⟨c, cs, rfl⟩ := exists_cons_of_next? h
  have hfinds := finds_first c cs
  rw [h] at hfinds
  generalize hcut : first c cs = cut at hfinds
  cases hfinds with
  | lexeme | comment =>
    exact ⟨_, (text_first_piece hcut).symm, Nat.lt_succ_of_le (length_first hcut)⟩
  | space =>
    refine ⟨c :: cs.takeWhile isGap, ?_, Nat.lt_succ_of_le (length_dropWhile_le _ _)⟩
    rw [List.cons_append, List.takeWhile_append_dropWhile]

/-- Every text is cut into lexemes. -/
theorem exists_lexes (line : Nat) (cs : List Char) : ∃ ls stop, Lexes line cs ls stop := by
  cases hnext : next? cs with
  | none =>
    cases cs with
    | nil => exact ⟨[], .finished, .finished⟩
    | cons c cs => exact ⟨[], .unexpected c line, .unexpected hnext⟩
  | some found =>
    obtain ⟨terminal, rest⟩ := found
    obtain ⟨text, rfl, hlt⟩ := exists_text_of_next? hnext
    obtain ⟨ls, stop, hls⟩ := exists_lexes (line + text.count '\n') rest
    by_cases hterminal : ∃ kind, terminal = .token kind
    · obtain ⟨kind, rfl⟩ := hterminal
      exact ⟨_, stop, .lexeme hnext hls⟩
    · exact ⟨ls, stop, .ignored hnext (fun kind hkind => hterminal ⟨kind, hkind⟩) hls⟩
termination_by cs.length

/-! ### Closing marks -/

/-- A lexeme is a numeral, a text, a word or an operator. -/
theorem kind_or_operator {c : Char} {cs text rest : List Char} {kind : Kind}
    (h : first c cs = some (.lexeme kind text, rest)) :
    kind ∈ Kind.number :: .string :: .identifier :: Kind.keywords.map (·.2) ∨
      operator? c cs = some (.lexeme kind text, rest) := by
  unfold first at h
  split at h
  · cases h
    exact .inl List.mem_cons_self
  split at h
  · obtain ⟨_, _, heq⟩ := Option.map_eq_some_iff.1 h
    cases heq
    exact .inl (by simp)
  split at h
  · cases h
    exact .inl (List.mem_cons_of_mem _ (List.mem_cons_of_mem _ (Kind.ofWord_mem _)))
  split at h
  · cases h
  split at h
  · rcases Option.or_eq_some_iff.1 h with h | ⟨-, h⟩
    · -- comments are no lexemes
      unfold comment? at h
      split at h
      · cases h
      · obtain ⟨_, _, heq⟩ := Option.map_eq_some_iff.1 h
        cases heq
      · cases h
    · exact .inr h
  · exact .inr h

/-- A closing parenthesis or bracket is spelled like one. -/
def Lexeme.IsSpelled (l : Lexeme) : Prop :=
  (l.kind = .rightParen → l.text = ")") ∧ (l.kind = .rightBracket → l.text = "]")

theorem isSpelled_of_first {c : Char} {cs text rest : List Char} {kind : Kind} {line : Nat}
    (h : first c cs = some (.lexeme kind text, rest)) :
    Lexeme.IsSpelled ⟨kind, String.ofList text, line⟩ := by
  have hwords : ∀ k ∈ Kind.number :: .string :: .identifier :: Kind.keywords.map (·.2),
      k ≠ .rightParen ∧ k ≠ .rightBracket := by decide
  have hdoubles : ∀ entry ∈ doubleOperators,
      entry.2.2 ≠ .rightParen ∧ entry.2.2 ≠ .rightBracket := by decide
  have hsingles : ∀ entry ∈ singleOperators,
      (entry.2 = .rightParen → entry.1 = ')') ∧ (entry.2 = .rightBracket → entry.1 = ']') := by
    decide
  rcases kind_or_operator h with hkind | hoperator
  · exact ⟨fun heq => absurd heq (hwords kind hkind).1, fun heq => absurd heq (hwords kind hkind).2⟩
  rcases Option.or_eq_some_iff.1 hoperator with hdouble | ⟨-, hsingle⟩
  · cases cs with
    | nil => cases hdouble
    | cons d ds =>
      obtain ⟨entry, hfind, heq⟩ := Option.map_eq_some_iff.1 hdouble
      cases heq
      obtain ⟨hparen, hbracket⟩ := hdoubles entry (List.mem_of_find?_eq_some hfind)
      exact ⟨fun heq => absurd heq hparen, fun heq => absurd heq hbracket⟩
  · obtain ⟨kind', hlookup, heq⟩ := Option.map_eq_some_iff.1 hsingle
    cases heq
    obtain ⟨before, after, hentries, -⟩ := List.lookup_eq_some_iff.1 hlookup
    have hmem : (c, kind) ∈ singleOperators := hentries ▸ List.mem_append_right _ List.mem_cons_self
    obtain ⟨hparen, hbracket⟩ := hsingles _ hmem
    refine ⟨fun heq => ?_, fun heq => ?_⟩
    · obtain rfl : c = ')' := hparen heq
      rfl
    · obtain rfl : c = ']' := hbracket heq
      rfl

theorem Lexes.isSpelled {line : Nat} {cs : List Char} {ls : List Lexeme} {stop : Stop}
    (h : Lexes line cs ls stop) : ∀ l ∈ ls, l.IsSpelled := by
  induction h with
  | finished | unexpected => exact List.forall_mem_nil _
  | ignored _ _ _ ih => exact ih
  | lexeme hnext _ ih =>
    obtain ⟨c, cs, hcs⟩ := exists_cons_of_next? hnext
    rw [hcs] at hnext
    exact List.forall_mem_cons.2 ⟨isSpelled_of_first (first_of_next? hcs hnext), ih⟩

/-- The end of the text is no lexeme. -/
theorem Lexes.kind_ne_eof {line : Nat} {cs : List Char} {ls : List Lexeme} {stop : Stop}
    (h : Lexes line cs ls stop) : ∀ l ∈ ls, l.kind ≠ .eof := by
  have hterminals : ∀ entry ∈ terminals, entry.1 ≠ .token .eof := by decide
  have hwords : Kind.eof ∉ Kind.identifier :: Kind.keywords.map (·.2) := by decide
  induction h with
  | finished | unexpected => exact List.forall_mem_nil _
  | ignored _ _ _ ih => exact ih
  | @lexeme _ text _ kind _ _ hnext _ ih =>
    refine List.forall_mem_cons.2 ⟨fun heof => ?_, ih⟩
    obtain ⟨entry, hentry, hfound⟩ := List.exists_of_findSome?_eq_some hnext
    obtain ⟨rest, -, heq⟩ := Option.map_eq_some_iff.1 hfound
    have hterminal : entry.1 = .token kind := congrArg Prod.fst heq
    unfold spelledKind at heof
    split at heof
    · exact hwords (heof ▸ Kind.ofWord_mem (String.ofList text))
    · exact hterminals entry hentry (heof ▸ hterminal)

/-! ### Uniqueness -/

theorem Lexeme.token_injective : Function.Injective Lexeme.token := by
  rintro ⟨kind, text, line⟩ ⟨kind', text', line'⟩ h
  cases h
  rfl

/-- A text is cut in one way only. -/
theorem Lexes.unique {source : String} {ls ls' : List Lexeme} {stop stop' : Stop}
    (h : Lexes 1 source.toList ls stop) (h' : Lexes 1 source.toList ls' stop') :
    ls = ls' ∧ stop = stop' := by
  obtain ⟨htokens, hending⟩ := Prod.mk.inj ((cut_of_lexes h).symm.trans (cut_of_lexes h'))
  obtain rfl := List.map_injective_iff.2 Lexeme.token_injective htokens
  refine ⟨rfl, ?_⟩
  cases stop <;> cases stop' <;> cases hending <;> rfl

end Scriptlet.Strict
