import Mathlib.Data.List.TakeWhile
import Scriptlet.Proofs.Scan.Front
import Scriptlet.Proofs.Strict.Lexeme

/-!
# Which segments stand where

What a segment of each kind looks like, and in front of which texts it may stand: a comment goes up
to its end and no further, a name and a number go on as long as they can, an operator takes an
equals sign that follows. This is said without regard to how a text is cut. The scanner cuts off
exactly the segment that may stand at the front, so there is only one.

## Main definitions

* `Segment.Lexeme` — the kind, the characters and the literal of each lexeme
* `Segment.Stands` — a segment stands in front of a text

## Main results

* `Segment.stands_first` — the first segment of a text stands in front of the rest
* `Segment.first_of_stands` — a segment that stands in front of a text is the first of both together
-/

namespace Scriptlet.Segment

/-! ### Lexemes and segments -/

/-- The text does not go on with a character of the class. -/
def Stops (p : Char → Bool) (rest : List Char) : Prop := ∀ c ∈ rest.head?, p c = false

/-- The text goes on with a point and a digit behind it. -/
def StartsFraction (rest : List Char) : Prop :=
  ∃ d tail, rest = '.' :: d :: tail ∧ d.isDigit = true

/-- A letter or an underscore, and then letters, underscores and digits. -/
def IsWord (text : List Char) : Prop :=
  ∃ c cs, text = c :: cs ∧ isNameStart c = true ∧ ∀ d ∈ cs, isNameChar d = true

/-- At least one character, and digits only. -/
def IsDigits (text : List Char) : Prop := text ≠ [] ∧ ∀ c ∈ text, c.isDigit = true

/-- The kind, the characters and the literal of a lexeme in front of the text `rest`, into which it
could not be continued. -/
inductive Lexeme : Kind → List Char → Atom → List Char → Prop
  | single {c : Char} {kind : Kind} {rest : List Char} :
      single? c = some kind → Lexeme kind [c] .null rest
  | widened {c : Char} {wide narrow : Kind} {rest : List Char} :
      widened? c = some (wide, narrow) → Lexeme wide [c, '='] .null rest
  | narrow {c : Char} {wide narrow : Kind} {rest : List Char} :
      widened? c = some (wide, narrow) → Stops (· == '=') rest → Lexeme narrow [c] .null rest
  /-- A slash is a lexeme only where it opens no comment. -/
  | slash {rest : List Char} :
      Stops (fun c => c == '/' || c == '*') rest → Lexeme .slash ['/'] .null rest
  | string {body rest : List Char} :
      '"' ∉ body → Lexeme .string ('"' :: body ++ ['"']) (.text (String.ofList body)) rest
  | whole {digits rest : List Char} :
      IsDigits digits → Stops Char.isDigit rest → ¬ StartsFraction rest →
      Lexeme .number digits (.float ((Number.decimalOf digits [] 0).toFloat false)) rest
  | fraction {digits decimals rest : List Char} :
      IsDigits digits → IsDigits decimals → Stops Char.isDigit rest →
      Lexeme .number (digits ++ '.' :: decimals)
        (.float ((Number.decimalOf digits decimals 0).toFloat false)) rest
  | keyword {kind : Kind} {text rest : List Char} :
      (String.ofList text, kind) ∈ Kind.keywords → IsWord text → Stops isNameChar rest →
      Lexeme kind text .null rest
  | name {text rest : List Char} :
      (∀ kind, (String.ofList text, kind) ∉ Kind.keywords) → IsWord text →
      Stops isNameChar rest → Lexeme .identifier text .null rest

/-- The end of a block comment. -/
def commentEnd : List Char := ['*', '/']

/-- The character starts no segment of another kind. -/
structure IsStray (c : Char) : Prop where
  single : single? c = none
  widened : widened? c = none
  slash : c ≠ '/'
  spacing : isSpacing c = false
  newline : c ≠ '\n'
  quote : c ≠ '"'
  digit : c.isDigit = false
  nameStart : isNameStart c = false

/-- The segment stands in front of the text `rest`. -/
inductive Stands : Segment → List Char → Prop
  | blank {c : Char} {rest : List Char} : c = ' ' ∨ c = '\t' ∨ c = '\r' → Stands (.blank c) rest
  | newline {rest : List Char} : Stands .newline rest
  | lineComment {body rest : List Char} :
      '\n' ∉ body → Stops (· != '\n') rest → Stands (.lineComment body) rest
  /-- The end of the comment is the first there is behind its opening. -/
  | blockComment {body rest : List Char} :
      ¬ commentEnd <:+: body ++ ['*'] → Stands (.blockComment body) rest
  | lexeme {kind : Kind} {text rest : List Char} :
      Lexeme kind text (literal kind text) rest → Stands (.lexeme kind text) rest
  | stray {c : Char} {rest : List Char} : IsStray c → Stands (.stray c) rest
  | openString {body : List Char} : '"' ∉ body → Stands (.openString body) []
  | openComment {body : List Char} : ¬ commentEnd <:+: body → Stands (.openComment body) []

/-! ### Runs of characters -/

section Runs

variable {p : Char → Bool} {cs rest : List Char}

theorem stops_dropWhile (p : Char → Bool) (cs : List Char) : Stops p (cs.dropWhile p) := by
  intro c hc
  induction cs with
  | nil => cases hc
  | cons d cs ih =>
    by_cases hd : p d = true
    · rw [List.dropWhile_cons_of_pos hd] at hc
      exact ih hc
    · rw [List.dropWhile_cons_of_neg hd, List.head?_cons, Option.mem_some_iff] at hc
      simpa [hc] using hd

theorem takeWhile_of_stops (hcs : ∀ c ∈ cs, p c = true) (hrest : Stops p rest) :
    (cs ++ rest).takeWhile p = cs := by
  rw [List.takeWhile_append_of_pos hcs]
  cases rest with
  | nil => simp
  | cons c rest => simp [hrest c rfl]

theorem dropWhile_of_stops (hcs : ∀ c ∈ cs, p c = true) (hrest : Stops p rest) :
    (cs ++ rest).dropWhile p = rest := by
  rw [List.dropWhile_append_of_pos hcs]
  cases rest with
  | nil => simp
  | cons c rest => simp [hrest c rfl]

end Runs

/-! ### Strings and block comments -/

section Enclosed

variable {cs body rest : List Char}

theorem forall_ne_iff {c : Char} : (∀ d ∈ cs, (d != c) = true) ↔ c ∉ cs := by
  simp only [bne_iff_ne]
  exact ⟨fun h hc => h c hc rfl, fun h d hd heq => h (heq ▸ hd)⟩

theorem untilQuote?_eq_some (h : untilQuote? cs = some (body, rest)) : '"' ∉ body := by
  unfold untilQuote? at h
  split at h
  · cases h
  · cases h
    exact forall_ne_iff.1 fun d hd => List.mem_takeWhile_imp (p := (· != '"')) hd

theorem untilQuote?_eq_none (h : untilQuote? cs = none) : '"' ∉ cs := by
  unfold untilQuote? at h
  split at h
  · next hdrop => exact forall_ne_iff.1 (List.dropWhile_eq_nil_iff.1 hdrop)
  · cases h

theorem untilQuote?_of_notMem (h : '"' ∉ body) :
    untilQuote? (body ++ '"' :: rest) = some (body, rest) := by
  have hstops : Stops (· != '"') ('"' :: rest) := fun c hc => by
    rw [← Option.mem_some_iff.1 hc]
    rfl
  rw [untilQuote?, takeWhile_of_stops (forall_ne_iff.2 h) hstops,
    dropWhile_of_stops (forall_ne_iff.2 h) hstops]

theorem untilQuote?_of_none (h : '"' ∉ cs) : untilQuote? cs = none := by
  rw [untilQuote?, List.dropWhile_eq_nil_iff.2 (forall_ne_iff.2 h)]

/-- Where the end of a comment can start. -/
theorem commentEnd_isInfix_cons {c : Char} :
    commentEnd <:+: c :: cs ↔ (c = '*' ∧ cs.head? = some '/') ∨ commentEnd <:+: cs := by
  rw [List.infix_cons_iff]
  refine or_congr_left ?_
  cases cs with
  | nil => simp [commentEnd]
  | cons d cs => simp [commentEnd, List.cons_prefix_cons, eq_comm]

theorem untilCommentEnd?_eq_some (h : untilCommentEnd? cs = some (body, rest)) :
    ¬ commentEnd <:+: body ++ ['*'] := by
  fun_induction untilCommentEnd? cs generalizing body with
  | case1 => cases h
  | case2 =>
    cases h
    decide
  | case3 c tail hnotEnd ih =>
    obtain ⟨⟨b, r⟩, hfound, heq⟩ := Option.map_eq_some_iff.1 h
    cases heq
    rw [List.cons_append, commentEnd_isInfix_cons]
    rintro (⟨rfl, hhead⟩ | hinfix)
    -- an end that starts with the first character would have been found at once
    · have htail := text_untilCommentEnd? hfound
      cases b with
      | nil => cases hhead
      | cons d b =>
        cases hhead
        exact hnotEnd _ rfl htail.symm
    · exact ih hfound hinfix

theorem untilCommentEnd?_eq_none (h : untilCommentEnd? cs = none) : ¬ commentEnd <:+: cs := by
  fun_induction untilCommentEnd? cs with
  | case1 => decide
  | case2 => cases h
  | case3 c tail hnotEnd ih =>
    rw [commentEnd_isInfix_cons]
    rintro (⟨rfl, hhead⟩ | hinfix)
    · cases tail with
      | nil => cases hhead
      | cons d tail =>
        cases hhead
        exact hnotEnd tail rfl rfl
    · exact ih (Option.map_eq_none_iff.1 h) hinfix

/-- A character with which no comment ends is part of the comment. -/
theorem untilCommentEnd?_cons {c : Char} (h : ¬ (c = '*' ∧ cs.head? = some '/')) :
    untilCommentEnd? (c :: cs) =
      (untilCommentEnd? cs).map fun (body, after) => (c :: body, after) := by
  rw [untilCommentEnd?]
  intro after hc hcs
  exact h ⟨hc, by rw [hcs]; rfl⟩

theorem untilCommentEnd?_of_not_isInfix (h : ¬ commentEnd <:+: body ++ ['*']) :
    untilCommentEnd? (body ++ '*' :: '/' :: rest) = some (body, rest) := by
  induction body with
  | nil => rfl
  | cons c body ih =>
    rw [List.cons_append, commentEnd_isInfix_cons, not_or] at h
    have hnotEnd : ¬ (c = '*' ∧ (body ++ '*' :: '/' :: rest).head? = some '/') := by
      rintro ⟨hc, hhead⟩
      cases body with
      | nil => cases hhead
      | cons d body => exact h.1 ⟨hc, hhead⟩
    rw [List.cons_append, untilCommentEnd?_cons hnotEnd, ih h.2]
    rfl

theorem untilCommentEnd?_of_none (h : ¬ commentEnd <:+: cs) : untilCommentEnd? cs = none := by
  induction cs with
  | nil => rfl
  | cons c cs ih =>
    rw [commentEnd_isInfix_cons, not_or] at h
    rw [untilCommentEnd?_cons h.1, ih h.2]
    rfl

end Enclosed

/-! ### Keywords -/

theorem keyword?_of_mem {word : String} {kind : Kind} (h : (word, kind) ∈ Kind.keywords) :
    Kind.keyword? word = some kind := by
  have hall : ∀ entry ∈ Kind.keywords, Kind.keyword? entry.1 = some entry.2 := by decide
  exact hall _ h

theorem mem_of_keyword? {word : String} {kind : Kind} (h : Kind.keyword? word = some kind) :
    (word, kind) ∈ Kind.keywords := by
  obtain ⟨before, after, heq, -⟩ := List.lookup_eq_some_iff.1 h
  rw [heq]
  exact List.mem_append_right _ List.mem_cons_self

/-- A word without a keyword of its own is a name. -/
theorem keyword?_eq_none_iff {word : String} :
    Kind.keyword? word = none ↔ ∀ kind, (word, kind) ∉ Kind.keywords := by
  constructor
  · intro hnone kind hmem
    rw [keyword?_of_mem hmem] at hnone
    cases hnone
  · intro hall
    cases hword : Kind.keyword? word with
    | none => rfl
    | some kind => exact absurd (mem_of_keyword? hword) (hall kind)

/-- Keywords have kinds without a literal. -/
theorem literal_of_mem_keywords {word : String} {kind : Kind} (h : (word, kind) ∈ Kind.keywords)
    (text : List Char) : literal kind text = .null := by
  have hall : ∀ entry ∈ Kind.keywords, entry.2 ≠ .number ∧ entry.2 ≠ .string := by decide
  obtain ⟨hnumber, hstring⟩ := hall _ h
  unfold literal
  split
  · exact absurd rfl hnumber
  · exact absurd rfl hstring
  · rfl

/-! ### Numbers -/

section Numbers

variable {digits decimals cs rest : List Char}

theorem stops_cons {p : Char → Bool} {c : Char} (h : p c = false) : Stops p (c :: rest) := by
  intro d hd
  rwa [← Option.mem_some_iff.1 hd]

theorem stops_nil {p : Char → Bool} : Stops p [] := fun _ hc => by cases hc

/-- The literal of a number without a fraction. -/
theorem ofDigits_whole (h : IsDigits digits) :
    Number.ofDigits digits = (Number.decimalOf digits [] 0).toFloat false := by
  have htake := takeWhile_of_stops h.2 stops_nil
  have hdrop := dropWhile_of_stops h.2 stops_nil
  rw [List.append_nil] at htake hdrop
  rw [Number.ofDigits, Number.spanDigits, htake, hdrop]
  rfl

/-- The literal of a number with a fraction. -/
theorem ofDigits_fraction (h : IsDigits digits) (h' : IsDigits decimals) :
    Number.ofDigits (digits ++ '.' :: decimals) =
      (Number.decimalOf digits decimals 0).toFloat false := by
  have hpoint : Stops Char.isDigit ('.' :: decimals) := stops_cons rfl
  have htake := takeWhile_of_stops h'.2 stops_nil
  obtain ⟨hne, hdigits⟩ := h'
  obtain ⟨d, ds, rfl⟩ := List.exists_cons_of_ne_nil hne
  rw [List.append_nil] at htake
  simp only [Number.ofDigits, Number.spanDigits, takeWhile_of_stops h.2 hpoint,
    dropWhile_of_stops h.2 hpoint, Number.spanFraction, hdigits d List.mem_cons_self, if_true,
    htake]

theorem fraction_of_startsFraction {d : Char} {tail : List Char} (h : d.isDigit = true) :
    fraction ('.' :: d :: tail) =
      ('.' :: d :: tail.takeWhile Char.isDigit, tail.dropWhile Char.isDigit) := by
  rw [fraction, if_pos h]

theorem fraction_of_not_startsFraction (h : ¬ StartsFraction cs) : fraction cs = ([], cs) := by
  unfold fraction
  split
  · next d tail =>
    rw [if_neg]
    exact fun hd => h ⟨d, tail, rfl, hd⟩
  · rfl

theorem isDigits_cons {c : Char} (hc : c.isDigit = true) (hcs : ∀ d ∈ cs, d.isDigit = true) :
    IsDigits (c :: cs) :=
  ⟨List.cons_ne_nil c cs, List.forall_mem_cons.2 ⟨hc, hcs⟩⟩

theorem stands_number {c : Char} (hc : c.isDigit = true) (cs : List Char) :
    (number c cs).1.Stands (number c cs).2 := by
  have hdigits : IsDigits (c :: cs.takeWhile Char.isDigit) :=
    isDigits_cons hc fun _ hd => List.mem_takeWhile_imp hd
  have hstops := stops_dropWhile Char.isDigit cs
  unfold number
  by_cases hfraction : StartsFraction (cs.dropWhile Char.isDigit)
  · obtain ⟨d, tail, hdrop, hd⟩ := hfraction
    have hdecimals : IsDigits (d :: tail.takeWhile Char.isDigit) :=
      isDigits_cons hd fun _ hd => List.mem_takeWhile_imp hd
    rw [hdrop, fraction_of_startsFraction hd]
    refine .lexeme ?_
    rw [literal, ofDigits_fraction hdigits hdecimals]
    exact .fraction hdigits hdecimals (stops_dropWhile _ _)
  · rw [fraction_of_not_startsFraction hfraction]
    refine .lexeme ?_
    rw [List.append_nil, literal, ofDigits_whole hdigits]
    exact .whole hdigits hstops hfraction

/-- A number without a fraction is read up to its end. -/
theorem number_whole {c : Char} (h : ∀ d ∈ digits, d.isDigit = true)
    (hrest : Stops Char.isDigit rest) (hfraction : ¬ StartsFraction rest) :
    number c (digits ++ rest) = (.lexeme .number (c :: digits), rest) := by
  simp only [number, takeWhile_of_stops h hrest, dropWhile_of_stops h hrest,
    fraction_of_not_startsFraction hfraction, List.append_nil]

/-- So is one with a fraction. -/
theorem number_fraction {c : Char} (h : ∀ d ∈ digits, d.isDigit = true) (h' : IsDigits decimals)
    (hrest : Stops Char.isDigit rest) :
    number c (digits ++ '.' :: (decimals ++ rest)) =
      (.lexeme .number (c :: digits ++ '.' :: decimals), rest) := by
  have hpoint : Stops Char.isDigit ('.' :: (decimals ++ rest)) := stops_cons rfl
  obtain ⟨hne, hdecimals⟩ := h'
  obtain ⟨d, ds, rfl⟩ := List.exists_cons_of_ne_nil hne
  rw [List.forall_mem_cons] at hdecimals
  rw [number, takeWhile_of_stops h hpoint, dropWhile_of_stops h hpoint, List.cons_append,
    fraction_of_startsFraction hdecimals.1, takeWhile_of_stops hdecimals.2 hrest,
    dropWhile_of_stops hdecimals.2 hrest]

end Numbers

/-! ### Words -/

theorem stands_word {c : Char} (hc : isNameStart c = true) (cs : List Char) :
    (word c cs).1.Stands (word c cs).2 := by
  have hword : IsWord (c :: cs.takeWhile isNameChar) :=
    ⟨c, _, rfl, hc, fun _ hd => List.mem_takeWhile_imp hd⟩
  have hstops := stops_dropWhile isNameChar cs
  refine .lexeme ?_
  rw [Kind.ofWord]
  cases hkey : Kind.keyword? (String.ofList (c :: cs.takeWhile isNameChar)) with
  | none => exact .name (keyword?_eq_none_iff.1 hkey) hword hstops
  | some kind =>
    have hmem := mem_of_keyword? hkey
    rw [Option.getD_some, literal_of_mem_keywords hmem]
    exact .keyword hmem hword hstops

theorem word_of_isWord {c : Char} {cs rest : List Char} {kind : Kind}
    (hcs : ∀ d ∈ cs, isNameChar d = true) (hrest : Stops isNameChar rest)
    (hkind : Kind.ofWord (String.ofList (c :: cs)) = kind) :
    word c (cs ++ rest) = (.lexeme kind (c :: cs), rest) := by
  rw [word, takeWhile_of_stops hcs hrest, dropWhile_of_stops hcs hrest, hkind]

/-! ### The first character -/

/-- The characters that start a segment other than a number or a word. -/
def openers : List Char := "(){}[],.-+;*!=<>/ \r\t\n\"".toList

theorem single?_of_notMem {c : Char} (h : c ∉ openers) : single? c = none := by
  unfold single?
  split <;> first | rfl | exact absurd (by decide) h

theorem widened?_of_notMem {c : Char} (h : c ∉ openers) : widened? c = none := by
  unfold widened?
  split <;> first | rfl | exact absurd (by decide) h

/-- What starts with none of these characters is a number, a word or a stray character. -/
theorem first_of_notMem {c : Char} (h : c ∉ openers) (cs : List Char) :
    first c cs = if c.isDigit then number c cs else if isNameStart c then word c cs
      else (.stray c, cs) := by
  have hne (d : Char) (hd : d ∈ openers) : c ≠ d := fun heq => h (heq ▸ hd)
  simp [first, single?_of_notMem h, widened?_of_notMem h, isSpacing, hne '/' (by decide),
    hne ' ' (by decide), hne '\r' (by decide), hne '\t' (by decide), hne '\n' (by decide),
    hne '"' (by decide)]

theorem isDigit_eq_false_of_isNameStart {c : Char} (h : isNameStart c = true) :
    c.isDigit = false := by
  rw [Bool.eq_false_iff]
  intro hdigit
  have hascii : c.toNat < 128 := by
    simp only [Char.isDigit, Bool.and_eq_true, decide_eq_true_eq, UInt32.le_iff_toNat_le] at hdigit
    exact Nat.lt_of_le_of_lt hdigit.2 (by decide)
  simp only [isNameStart, Text.isLetter, if_pos hascii, Bool.or_eq_true, beq_iff_eq] at h
  rcases h with h | rfl
  · rw [Text.isDigit_of_isAlpha h] at hdigit
    cases hdigit
  · cases hdigit

theorem first_of_isDigit {c : Char} (h : c.isDigit = true) (cs : List Char) :
    first c cs = number c cs := by
  have hall : openers.all (fun d => !d.isDigit) = true := by decide
  rw [first_of_notMem, if_pos h]
  intro hmem
  have hnot := List.all_eq_true.1 hall c hmem
  rw [h] at hnot
  cases hnot

theorem first_of_isNameStart {c : Char} (h : isNameStart c = true) (cs : List Char) :
    first c cs = word c cs := by
  have hall : openers.all (fun d => !isNameStart d) = true := by decide +kernel
  rw [first_of_notMem, isDigit_eq_false_of_isNameStart h, if_pos h]
  · rfl
  · intro hmem
    have hnot := List.all_eq_true.1 hall c hmem
    rw [h] at hnot
    cases hnot

theorem first_of_widened {c : Char} {wide narrow : Kind} (h : widened? c = some (wide, narrow))
    (cs : List Char) : first c cs = widenable c wide narrow cs := by
  have hsingle : single? c = none := by
    unfold widened? at h
    split at h <;> first | rfl | cases h
  simp only [first, hsingle, h]

/-! ### Soundness -/

theorem literal_of_single? {c : Char} {kind : Kind} (h : single? c = some kind)
    (text : List Char) : literal kind text = .null := by
  unfold single? at h
  split at h <;> cases h <;> rfl

theorem literal_of_widened? {c : Char} {wide narrow : Kind} (h : widened? c = some (wide, narrow))
    (text : List Char) : literal wide text = .null ∧ literal narrow text = .null := by
  unfold widened? at h
  split at h <;> cases h <;> exact ⟨rfl, rfl⟩

theorem stands_widenable {c : Char} {wide narrow : Kind} (h : widened? c = some (wide, narrow))
    (cs : List Char) :
    (widenable c wide narrow cs).1.Stands (widenable c wide narrow cs).2 := by
  unfold widenable
  split
  · refine .lexeme ?_
    rw [(literal_of_widened? h _).1]
    exact .widened h
  · next hnext =>
    refine .lexeme ?_
    rw [(literal_of_widened? h _).2]
    refine .narrow h fun d hd => ?_
    rw [beq_eq_false_iff_ne]
    rintro rfl
    obtain ⟨tail, htail⟩ := List.head?_eq_some_iff.1 hd
    exact hnext tail htail

theorem stands_slash (cs : List Char) : (slash cs).1.Stands (slash cs).2 := by
  unfold slash
  split
  · next rest =>
    refine .lineComment ?_ (stops_dropWhile _ _)
    exact forall_ne_iff.1 fun d hd => List.mem_takeWhile_imp (p := (· != '\n')) hd
  · unfold comment
    split
    · next hfound => exact .blockComment (untilCommentEnd?_eq_some hfound)
    · next hnone => exact .openComment (untilCommentEnd?_eq_none hnone)
  · next hline hblock =>
    refine .lexeme (.slash fun d hd => ?_)
    obtain ⟨tail, htail⟩ := List.head?_eq_some_iff.1 hd
    rw [Bool.or_eq_false_iff, beq_eq_false_iff_ne, beq_eq_false_iff_ne]
    exact ⟨fun heq => hline tail (heq ▸ htail), fun heq => hblock tail (heq ▸ htail)⟩

/-- The literal of a string is what stands between its quotes. -/
theorem literal_string (body : List Char) :
    literal .string ('"' :: body ++ ['"']) = .text (String.ofList body) := by
  simp [literal, unquoted]

theorem stands_string (cs : List Char) : (string cs).1.Stands (string cs).2 := by
  unfold string
  split
  · next hfound =>
    refine .lexeme ?_
    rw [literal_string]
    exact .string (untilQuote?_eq_some hfound)
  · next hnone => exact .openString (untilQuote?_eq_none hnone)

/-- The first segment of a text stands in front of the rest. -/
theorem stands_first (c : Char) (cs : List Char) : (first c cs).1.Stands (first c cs).2 := by
  unfold first
  split
  · next hsingle =>
    refine .lexeme ?_
    rw [literal_of_single? hsingle]
    exact .single hsingle
  split
  · next hwidened => exact stands_widenable hwidened cs
  split
  · exact stands_slash cs
  split
  · next hspacing =>
    refine .blank ?_
    simp only [isSpacing, Bool.or_eq_true, beq_iff_eq] at hspacing
    tauto
  split
  · exact .newline
  split
  · exact stands_string cs
  split
  · next hdigit => exact stands_number hdigit cs
  split
  · next hname => exact stands_word hname cs
  -- whatever is left starts nothing
  · exact .stray (by constructor <;> simp_all)

/-! ### Completeness -/

/-- A lexeme that stands in front of a text is the first segment of both together. -/
theorem first_of_lexeme {kind : Kind} {text rest : List Char} {a : Atom}
    (h : Lexeme kind text a rest) :
    ∃ c cs, text ++ rest = c :: cs ∧ first c cs = (.lexeme kind text, rest) := by
  cases h with
  | @single c _ _ hsingle => exact ⟨c, rest, rfl, by simp only [first, hsingle]⟩
  | @widened c _ _ _ hwidened =>
    refine ⟨c, '=' :: rest, rfl, ?_⟩
    rw [first_of_widened hwidened]
    rfl
  | @narrow c _ _ _ hwidened hstops =>
    refine ⟨c, rest, rfl, ?_⟩
    rw [first_of_widened hwidened]
    unfold widenable
    split
    · cases hstops '=' rfl
    · rfl
  | slash hstops =>
    refine ⟨'/', rest, rfl, ?_⟩
    change slash rest = _
    unfold slash
    split
    · cases hstops '/' rfl
    · cases hstops '*' rfl
    · rfl
  | @string body _ hbody =>
    refine ⟨'"', body ++ '"' :: rest, by simp, ?_⟩
    change string (body ++ '"' :: rest) = _
    rw [string, untilQuote?_of_notMem hbody]
  | whole hdigits hstops hfraction =>
    obtain ⟨hne, hall⟩ := hdigits
    obtain ⟨d, ds, rfl⟩ := List.exists_cons_of_ne_nil hne
    rw [List.forall_mem_cons] at hall
    refine ⟨d, ds ++ rest, rfl, ?_⟩
    rw [first_of_isDigit hall.1, number_whole hall.2 hstops hfraction]
  | @fraction _ decimals _ hdigits hdecimals hstops =>
    obtain ⟨hne, hall⟩ := hdigits
    obtain ⟨d, ds, rfl⟩ := List.exists_cons_of_ne_nil hne
    rw [List.forall_mem_cons] at hall
    refine ⟨d, ds ++ '.' :: (decimals ++ rest), by simp, ?_⟩
    rw [first_of_isDigit hall.1, number_fraction hall.2 hdecimals hstops]
  | keyword hmem hword hstops =>
    obtain ⟨d, ds, rfl, hd, hds⟩ := hword
    refine ⟨d, ds ++ rest, rfl, ?_⟩
    rw [first_of_isNameStart hd, word_of_isWord hds hstops]
    rw [Kind.ofWord, keyword?_of_mem hmem, Option.getD_some]
  | name hnone hword hstops =>
    obtain ⟨d, ds, rfl, hd, hds⟩ := hword
    refine ⟨d, ds ++ rest, rfl, ?_⟩
    rw [first_of_isNameStart hd, word_of_isWord hds hstops]
    rw [Kind.ofWord, keyword?_eq_none_iff.2 hnone, Option.getD_none]

/-- A segment that stands in front of a text is the first segment of both together. -/
theorem first_of_stands {s : Segment} {rest : List Char} (h : s.Stands rest) :
    ∃ c cs, s.text ++ rest = c :: cs ∧ first c cs = (s, rest) := by
  cases h with
  | @blank c _ hc =>
    refine ⟨c, rest, rfl, ?_⟩
    rcases hc with rfl | rfl | rfl <;> rfl
  | newline => exact ⟨'\n', rest, rfl, rfl⟩
  | @lineComment body _ hbody hstops =>
    refine ⟨'/', '/' :: (body ++ rest), rfl, ?_⟩
    change slash ('/' :: (body ++ rest)) = _
    rw [slash, takeWhile_of_stops (forall_ne_iff.2 hbody) hstops,
      dropWhile_of_stops (forall_ne_iff.2 hbody) hstops]
  | @blockComment body _ hbody =>
    refine ⟨'/', '*' :: (body ++ '*' :: '/' :: rest), by simp [text], ?_⟩
    change comment (body ++ '*' :: '/' :: rest) = _
    rw [comment, untilCommentEnd?_of_not_isInfix hbody]
  | lexeme hlexeme => exact first_of_lexeme hlexeme
  | @stray c _ hstray =>
    refine ⟨c, rest, rfl, ?_⟩
    simp [first, hstray.single, hstray.widened, hstray.slash, hstray.spacing, hstray.newline,
      hstray.quote, hstray.digit, hstray.nameStart]
  | @openString body hbody =>
    refine ⟨'"', body, by simp [text], ?_⟩
    change string body = _
    rw [string, untilQuote?_of_none hbody]
  | @openComment body hbody =>
    refine ⟨'/', '*' :: body, by simp [text], ?_⟩
    change comment body = _
    rw [comment, untilCommentEnd?_of_none hbody]

/-- A segment that stands in front of a text is cut off in front of it. -/
theorem split_of_stands {s : Segment} {rest : List Char} (h : s.Stands rest) :
    split (s.text ++ rest) = s :: split rest := by
  obtain ⟨c, cs, htext, hfirst⟩ := first_of_stands h
  rw [htext, split, hfirst]

end Scriptlet.Segment
