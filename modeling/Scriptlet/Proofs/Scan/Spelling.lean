import Scriptlet.Proofs.Lines.Erasure
import Scriptlet.Proofs.Scan.Lexeme

/-!
# How tokens are spelled

Of most kinds of tokens there is only one: the lexeme of an operator or of a keyword is given by its
kind, and the literal is missing. Names, strings and numbers are left. A name is a word that is no
keyword, a string has no quote inside, and the literal of a number is finite if the numbers of the
text are.

## Main definitions

* `Kind.spelling` — the lexeme of an operator, a mark or a keyword
* `Token.Spelled` — what the tokens of a program text look like

## Main results

* `Token.Spelled.of_mem_bodyTokens` — the tokens of a program text
* `Token.Spelled.eq_ofKind`, `Token.Spelled.isVariable` — a kind gives the token, or it is a name
-/

namespace Scriptlet

namespace Kind

/-- The lexemes of the kinds that have only one. -/
def spellings : List (Kind × String) :=
  [(.leftParen, "("), (.rightParen, ")"), (.leftBrace, "\x7b"), (.rightBrace, "\x7d"),
   (.leftBracket, "["), (.rightBracket, "]"), (.comma, ","), (.dot, "."), (.minus, "-"),
   (.plus, "+"), (.semicolon, ";"), (.slash, "/"), (.star, "*"), (.bang, "!"),
   (.bangEqual, "!="), (.equal, "="), (.equalEqual, "=="), (.greater, ">"),
   (.greaterEqual, ">="), (.less, "<"), (.lessEqual, "<=")] ++
  keywords.map fun (word, kind) => (kind, word)

/-- The lexeme of a kind that has only one. -/
def spelling (kind : Kind) : String := (spellings.lookup kind).getD ""

/-- The kind that has this lexeme only. -/
def ofSpelling? (text : String) : Option Kind :=
  (spellings.find? fun entry => entry.2 == text).map (·.1)

theorem spelling_of_mem {kind : Kind} {text : String} (h : (kind, text) ∈ spellings) :
    kind.spelling = text := by
  have hall : ∀ entry ∈ spellings, entry.1.spelling = entry.2 := by decide
  exact hall _ h

end Kind

namespace Token

/-- The token of a kind that has only one, on no line. -/
def ofKind (kind : Kind) : Token where
  kind := kind
  lexeme := .text kind.spelling
  literal := .null
  line := .null

/-- The token of a name, on no line. -/
def ofName (name : String) : Token where
  kind := .identifier
  lexeme := .text name
  literal := .null
  line := .null

open Segment

/-- The text of a name: a word that is no keyword. -/
def IsName (text : List Char) : Prop :=
  IsWord text ∧ Kind.keyword? (String.ofList text) = none

/-- The token is that of a name. -/
def IsVariable (t : Token) : Prop :=
  ∃ text, IsName text ∧ t.withoutLine = .ofName (String.ofList text)

/-- What the tokens of a program text look like, if its numbers are finite. -/
inductive Spelled : Token → Prop
  | kind {kind : Kind} {text : String} {line : Nat} :
      (kind, text) ∈ Kind.spellings → Spelled (.make kind text .null line)
  | name {text : List Char} {line : Nat} :
      IsName text → Spelled (.make .identifier (String.ofList text) .null line)
  | string {body : List Char} {lexeme : String} {line : Nat} :
      '"' ∉ body → Spelled (.make .string lexeme (.text (String.ofList body)) line)
  | number {x : Float} {lexeme : String} {line : Nat} :
      x.isFinite = true → Spelled (.make .number lexeme (.float x) line)

end Token

namespace Token.Spelled

open Segment

theorem mem_spellings_of_single? {c : Char} {kind : Kind} (h : single? c = some kind) :
    (kind, String.ofList [c]) ∈ Kind.spellings := by
  unfold single? at h
  split at h <;> cases h <;> decide

theorem mem_spellings_of_widened? {c : Char} {wide narrow : Kind}
    (h : widened? c = some (wide, narrow)) :
    (wide, String.ofList [c, '=']) ∈ Kind.spellings ∧
      (narrow, String.ofList [c]) ∈ Kind.spellings := by
  unfold widened? at h
  split at h <;> cases h <;> decide

variable {t : Token}

/-- The tokens of a program text. -/
theorem of_mem_bodyTokens {source : String} (h : t ∈ bodyTokens source)
    (hfinite : ∀ x, t.literal = .atom (.float x) → x.isFinite = true) : t.Spelled := by
  obtain ⟨c, cs, kind, text, line, hfirst, heq⟩ := exists_of_mem_bodyTokens h
  have hstands := stands_first c cs
  rw [hfirst] at hstands
  cases hstands with
  | lexeme hlexeme =>
    subst heq
    -- the literal goes with the kind, which the cases on the lexeme give
    generalize Segment.literal kind text = a at hlexeme hfinite ⊢
    cases hlexeme with
    | single hsingle => exact .kind (mem_spellings_of_single? hsingle)
    | widened hwidened => exact .kind (mem_spellings_of_widened? hwidened).1
    | narrow hwidened => exact .kind (mem_spellings_of_widened? hwidened).2
    | slash => exact .kind (by decide)
    | string hbody => exact .string hbody
    | whole | fraction => exact .number (hfinite _ rfl)
    | @keyword kind _ _ hmem =>
      exact .kind (List.mem_append_right _ (List.mem_map.2 ⟨(_, kind), hmem, rfl⟩))
    | name hnone hword => exact .name ⟨hword, keyword?_eq_none_iff.2 hnone⟩

/-- A token of a kind that has only one is that one. -/
theorem eq_ofKind (h : t.Spelled) (hkind : t.kind ∉ [Kind.identifier, .string, .number]) :
    t.withoutLine = .ofKind t.kind := by
  cases h with
  | @kind kind _ _ hmem =>
    change _ = Token.mk _ (.text kind.spelling) _ _
    rw [Kind.spelling_of_mem hmem]
    rfl
  | name | string | number => exact absurd (by simp [make]) hkind

theorem isVariable (h : t.Spelled) (hkind : t.kind = .identifier) : t.IsVariable := by
  cases h with
  | kind hmem =>
    have hall : ∀ entry ∈ Kind.spellings, entry.1 ≠ .identifier := by decide
    exact absurd hkind (hall _ hmem)
  | @name text _ hname => exact ⟨text, hname, rfl⟩
  | string | number => cases hkind

end Token.Spelled

end Scriptlet
