import Scriptlet.Proofs.Scan.Lexeme
import Scriptlet.Strict.Descent

/-!
# Where the two token lists part

Up to the first problem of a text with its lexemes, both front ends cut it into the same tokens. At
the problem their ways part: the scanner drops a stray character, or what is open, and goes on; the
strict front end ends there, or takes the opening of an unterminated comment for two operators.
A dot counts as a problem too, as only the scanner has a token for it.

The scanner dates a string by its last line and the strict front end by its first, so a token of the
strict front end is never on a later line than its counterpart, nor than anything that follows.

This holds of texts in which names and words are made of the same characters, that is, every letter
or number in them is a letter or an ASCII digit.

## Main definitions

* `Text.isAlphanumeric` — letters and numbers of every kind
* `Strict.Earliest` — a line that is no later than others
* `Strict.Fork` — what is left of the two token lists where they part
* `Strict.Fork.Parallel` — two token lists that go together up to the fork

## Main results

* `Strict.exists_fork` — the token lists of a text go together up to a fork
-/

namespace Scriptlet

/-- A letter, a decimal digit or another numeric character, of any script. -/
def Text.isAlphanumeric (c : Char) : Bool := isLetter c || isDecimalDigit c || isOtherNumeric c

/-- Every letter or number among the characters is a letter or an ASCII digit. -/
def Text.PlainNumbers (cs : List Char) : Prop :=
  ∀ c ∈ cs, isAlphanumeric c = true → isLetter c = true ∨ c.isDigit = true

instance (cs : List Char) : Decidable (Text.PlainNumbers cs) :=
  decidable_of_iff
    (cs.all (fun c => !Text.isAlphanumeric c || (Text.isLetter c || c.isDigit)) = true) <| by
      simp [Text.PlainNumbers, ← Bool.not_eq_true, or_iff_not_imp_left]

namespace Strict

open Segment

/-! ### Lines -/

/-- The line is a number, and so are the others, none of which is smaller. -/
def Earliest (line : Json) (lines : List Json) : Prop :=
  ∃ n : Nat, line = .int n ∧ ∀ l ∈ lines, ∃ m : Nat, l = .int m ∧ n ≤ m

theorem Earliest.subset {line : Json} {lines lines' : List Json} (h : Earliest line lines)
    (hsub : lines' ⊆ lines) : Earliest line lines' := by
  obtain ⟨n, hline, hall⟩ := h
  exact ⟨n, hline, fun l hl => hall l (hsub hl)⟩

/-- The tokens of a text that starts on `line`. -/
def tokensFrom (line : Nat) (cs : List Char) : List Token :=
  (located line (split cs)).filterMap fun (line, s) => s.token? line

/-- The diagnostics of the scanner for a text that starts on `line`. -/
def diagnosticsFrom (line : Nat) (cs : List Char) : List Diagnostic :=
  (located line (split cs)).filterMap fun (line, s) => s.diagnostic? line

/-- The lines of what is reported in any case: the end of the text and the diagnostics of the
scanner. -/
def reportedFrom (line : Nat) (cs : List Char) : List Json :=
  .int (line + cs.count '\n' : Nat) :: (diagnosticsFrom line cs).map (·.line)

/-- Nothing is on an earlier line than the text. -/
theorem earliest_from (line : Nat) (cs : List Char) :
    Earliest (.int line) ((tokensFrom line cs).map (·.line) ++ reportedFrom line cs) := by
  refine ⟨line, rfl, List.forall_mem_append.2 ⟨?_, List.forall_mem_cons.2 ⟨?_, ?_⟩⟩⟩
  · rw [List.forall_mem_map]
    intro t ht
    obtain ⟨⟨l, s⟩, hmem, htoken⟩ := List.mem_filterMap.1 ht
    refine ⟨l, ?_, start_le_of_mem_located hmem⟩
    cases s with
    | lexeme kind text =>
      cases htoken
      rfl
    | _ => cases htoken
  · exact ⟨line + cs.count '\n', rfl, Nat.le_add_right _ _⟩
  · rw [List.forall_mem_map]
    intro d hd
    obtain ⟨⟨l, s⟩, hmem, hdiagnostic⟩ := List.mem_filterMap.1 hd
    obtain ⟨message, -, rfl⟩ := Option.map_eq_some_iff.1 hdiagnostic
    exact ⟨l, rfl, start_le_of_mem_located hmem⟩

/-! ### Forks -/

/-- The lexemes that were left when a fault arose. -/
def Fault.rest : Fault → List Token
  | unexpected rest | tooDeep rest => rest

/-- What is left of two token lists where they part. -/
structure Fork where
  /-- The tokens that are left for the parser. -/
  parser : List Token
  /-- The lexemes that are left for the strict front end. -/
  strict : List Token
  /-- The lines of what is reported in any case. -/
  reported : List Json
  /-- The strict front end is at its end or in front of an opening that it takes for operators. -/
  shape : strict = [] ∨ ∃ slash star rest, strict = slash :: star :: rest ∧
    slash.kind = .slash ∧ star.kind = .star

namespace Fork

/-- Two token lists go together up to the fork: they agree, and no token of the strict front end is
on a later line than what follows. -/
inductive Parallel (k : Fork) : List Token → List Token → Prop
  | parted : Parallel k k.parser k.strict
  | cons {t t' : Token} {ts ts' : List Token} : t.Agrees t' →
      Earliest t'.line ((t :: ts).map (·.line) ++ k.reported) → Parallel k ts ts' →
      Parallel k (t :: ts) (t' :: ts')

/-- The front ends still differ: something is left for one of them. -/
def Apart (k : Fork) : Prop := ¬ (k.parser = [] ∧ k.strict = [])

/-- What the strict front end says about the fork is on no later line than what is behind it. -/
def Leads (k : Fork) (ending : Ending) : Prop :=
  ∀ fault : Fault, fault.rest = k.strict ∨ fault.rest = k.strict.tail →
    Earliest (fault.diagnostic ending).line (k.parser.map (·.line) ++ k.reported)

/-- The strict front end faults at the first lexeme that is left, or else at the ending. -/
theorem leads_of_line {k : Fork} {ending : Ending} {line : Json}
    (h : Earliest line (k.parser.map (·.line) ++ k.reported))
    (hlexemes : ∀ t ∈ k.strict.take 2, t.line = line)
    (hending : k.strict = [] → ending.diagnostic.line = line) : k.Leads ending := by
  have hstrict (rest : List Token) (hrest : rest = k.strict ∨ rest = k.strict.tail)
      (fault : Fault) (hfault : fault.rest = rest) : (fault.diagnostic ending).line = line := by
    rcases k.shape with hnil | ⟨slash, star, after, hcons, -, -⟩
    · obtain rfl : rest = [] := by simpa [hnil] using hrest
      cases fault <;> cases hfault <;> exact hending hnil
    · rw [hcons] at hlexemes hrest
      rcases hrest with rfl | rfl
      · cases fault <;> cases hfault <;> exact hlexemes slash (by simp)
      · cases fault <;> cases hfault <;> exact hlexemes star (by simp)
  intro fault hfault
  rw [hstrict fault.rest hfault fault rfl]
  exact h

end Fork

/-! ### The first problem -/

section

variable {c : Char} {cs : List Char}

/-- Words are names in such texts. -/
theorem isNameChar_of_plain {cs : List Char} (h : Text.PlainNumbers cs) (hc : c ∈ cs)
    (hword : Text.isWordChar c = true) : isNameChar c = true := by
  have hplain := h c hc
  simp only [Text.isWordChar, Text.isAlphanumeric, isNameChar, isNameStart] at hword hplain ⊢
  grind

/-- Every operator starts with a character that starts a lexeme of the scanner. -/
theorem operator?_eq_none (hsingle : single? c = none) (hwidened : widened? c = none)
    (hslash : c ≠ '/') : operator? c cs = none := by
  have hdoubles : doubleOperators.all (fun entry => (widened? entry.1).isSome) = true := by decide
  have hsingles : singleOperators.all (fun entry =>
      (single? entry.1).isSome || (widened? entry.1).isSome || entry.1 == '/') = true := by decide
  rw [List.all_eq_true] at hdoubles hsingles
  have hdouble : doubleOperator? c cs = none := by
    cases cs with
    | nil => rfl
    | cons c' cs =>
      rw [doubleOperator?, Option.map_eq_none_iff, List.find?_eq_none]
      intro entry hentry
      have := hdoubles entry hentry
      grind
  have hlookup : singleOperators.lookup c = none := by
    rw [List.lookup_eq_none_iff]
    intro entry hentry
    have := hsingles entry hentry
    grind
  rw [operator?, hdouble, hlookup]
  rfl

theorem first_eq_none_of_stray (hstray : IsStray c)
    (hplain : Text.isWordChar c = true → isNameChar c = true) : first c cs = none := by
  obtain ⟨hsingle, hwidened, hslash, hspacing, hnewline, hquote, hdigit, hstart⟩ := hstray
  have hname : isNameChar c = false := by simp [isNameChar, hstart, hdigit]
  have hword : Text.isWordStart c = false := by
    rw [Text.isWordStart, Bool.and_eq_false_iff, Bool.eq_false_iff]
    exact .inl fun hword => by simp [hplain hword] at hname
  have hgap : isGap c = false := by
    simp only [isSpacing, Bool.or_eq_false_iff, beq_eq_false_iff_ne] at hspacing
    simp [isGap, hspacing, hnewline]
  simp [first, hdigit, hquote, hword, hgap, hslash, operator?_eq_none hsingle hwidened hslash]

/-- The dot is the one lexeme that the strict front end does not have. -/
theorem eq_dot {text rest : List Char} {a : Atom} (h : Segment.Lexeme .dot text a rest) :
    text = ['.'] := by
  generalize hkind : Kind.dot = kind at h
  cases h with
  | single hsingle =>
    subst hkind
    unfold single? at hsingle
    split at hsingle <;> cases hsingle
    rfl
  | widened hwide | narrow hwide =>
    subst hkind
    unfold widened? at hwide
    split at hwide <;> cases hwide
  | keyword hmem =>
    subst hkind
    have hkinds : Kind.dot ∉ Kind.keywords.map Prod.snd := by decide
    exact absurd (List.mem_map_of_mem (f := Prod.snd) hmem) hkinds
  | _ => cases hkind

/-- Cutting off a lexeme leaves its token in front of the others. -/
theorem cutFrom_lexeme {kind : Kind} {text rest : List Char}
    (h : first c cs = some (.lexeme kind text, rest)) (line last : Nat) :
    cutFrom line last (c :: cs) =
      (.make kind (String.ofList text) (literal kind text) line ::
        (cutFrom (line + text.count '\n') line rest).1,
        (cutFrom (line + text.count '\n') line rest).2) := by
  rw [cutFrom]
  split
  · next hnone => cases h.symm.trans hnone
  · next hsome =>
    cases h.symm.trans hsome
    rfl

theorem cutFrom_gap {text rest : List Char} (h : first c cs = some (.gap text, rest))
    (line last : Nat) :
    cutFrom line last (c :: cs) = cutFrom (line + text.count '\n') last rest := by
  rw [cutFrom]
  split
  · next hnone => cases h.symm.trans hnone
  · next hsome =>
    cases h.symm.trans hsome
    rfl

theorem cutFrom_none (h : first c cs = none) (line last : Nat) :
    cutFrom line last (c :: cs) = ([], .unexpected c line) := by
  rw [cutFrom]
  split
  · rfl
  · next hsome => cases h.symm.trans hsome

/-- The problems of a text with its lexemes. -/
def IsProblem (s : Segment) : Prop := s.complaint?.isSome ∨ ∃ text, s = .lexeme .dot text

/-- At a problem, the strict front end is at its end or in front of two operators. -/
theorem cutFrom_of_problem (h : IsProblem (Segment.first c cs).1)
    (hplain : Text.isWordChar c = true → isNameChar c = true) (line last : Nat) :
    cutFrom line last (c :: cs) = ([], .unexpected c line) ∨
      ∃ slash star rest ending, cutFrom line last (c :: cs) = (slash :: star :: rest, ending) ∧
        slash.kind = .slash ∧ star.kind = .star ∧ slash.line = .int line ∧
        star.line = .int line := by
  have hstands := stands_first c cs
  have htext := text_first c cs
  generalize Segment.first c cs = out at h hstands htext
  obtain ⟨s, rest⟩ := out
  cases hstands with
  | stray hstray =>
    obtain ⟨rfl, rfl⟩ := List.cons.inj htext
    exact .inl (cutFrom_none (first_eq_none_of_stray hstray hplain) line last)
  | openString hquote =>
    rw [List.append_nil] at htext
    obtain ⟨rfl, rfl⟩ := List.cons.inj htext
    refine .inl (cutFrom_none ?_ line last)
    change (untilQuote? _).map _ = none
    rw [untilQuote?_of_none hquote]
    rfl
  | openComment hcomment =>
    rename_i body
    rw [List.append_nil] at htext
    obtain ⟨rfl, rfl⟩ := List.cons.inj htext
    have hslash : first '/' ('*' :: body) = some (.lexeme .slash ['/'], '*' :: body) := by
      change ((untilCommentEnd? body).map _).or _ = _
      rw [untilCommentEnd?_of_none hcomment]
      rfl
    have hstar : first '*' body = some (.lexeme .star ['*'], body) := by cases body <;> rfl
    rw [cutFrom_lexeme hslash, cutFrom_lexeme hstar]
    exact .inr ⟨_, _, _, _, rfl, rfl, rfl, rfl, rfl⟩
  | lexeme hlexeme =>
    obtain h | ⟨text, hdot⟩ := h
    · cases h
    · cases hdot
      cases eq_dot hlexeme
      obtain ⟨rfl, rfl⟩ := List.cons.inj htext
      exact .inl (cutFrom_none (by cases rest <;> rfl) line last)
  | _ => rcases h with h | ⟨text, h⟩ <;> cases h

end

/-! ### From segment to segment -/

/-- The token lists of a text go together up to a fork. If the strict front end comes to the end of
the text there, nothing is left for the parser and the scanner has nothing to say. -/
def ForksFrom (line last : Nat) (cs : List Char) : Prop :=
  ∃ k : Fork, k.reported = reportedFrom line cs ∧
    k.Parallel (tokensFrom line cs) (cutFrom line last cs).1 ∧ k.Leads (cutFrom line last cs).2 ∧
    ∀ l, k.strict = [] → (cutFrom line last cs).2 = .finished l →
      k.parser = [] ∧ diagnosticsFrom line cs = []

theorem forksFrom_nil {line last : Nat} (hlast : last ≤ line) : ForksFrom line last [] := by
  have htokens : tokensFrom line [] = [] := by simp [tokensFrom, split, located]
  have hdiagnostics : diagnosticsFrom line [] = [] := by simp [diagnosticsFrom, split, located]
  rw [ForksFrom, cutFrom, htokens, hdiagnostics]
  let k : Fork := ⟨[], [], reportedFrom line [], .inl rfl⟩
  refine ⟨k, rfl, .parted, ?_, fun l _ _ => ⟨rfl, rfl⟩⟩
  have hreported : k.reported = [.int line] := by simp [k, reportedFrom, hdiagnostics]
  have hearliest : Earliest (.int last) (k.parser.map (·.line) ++ k.reported) := by
    rw [hreported]
    exact ⟨last, rfl, List.forall_mem_singleton.2 ⟨line, rfl, hlast⟩⟩
  exact Fork.leads_of_line hearliest (fun _ ht => by cases ht) fun _ => rfl

section

variable {c : Char} {cs : List Char} {line last : Nat}

/-- The lists part at the first problem. -/
theorem forksFrom_of_problem (h : IsProblem (Segment.first c cs).1)
    (hplain : Text.isWordChar c = true → isNameChar c = true) :
    ForksFrom line last (c :: cs) := by
  have hline := earliest_from line (c :: cs)
  rw [ForksFrom]
  rcases cutFrom_of_problem h hplain line last with
    hcut | ⟨slash, star, rest, ending, hcut, hslash, hstar, hslashLine, hstarLine⟩
  · rw [hcut]
    let k : Fork := ⟨tokensFrom line (c :: cs), [], reportedFrom line (c :: cs), .inl rfl⟩
    exact ⟨k, rfl, .parted, Fork.leads_of_line hline nofun fun _ => rfl, nofun⟩
  · rw [hcut]
    let k : Fork := ⟨tokensFrom line (c :: cs), slash :: star :: rest,
      reportedFrom line (c :: cs), .inr ⟨slash, star, rest, rfl, hslash, hstar⟩⟩
    have hlexemes : ∀ t ∈ k.strict.take 2, t.line = .int line := by
      simp [k, hslashLine, hstarLine]
    exact ⟨k, rfl, .parted, Fork.leads_of_line hline hlexemes nofun, nofun⟩

theorem tokensFrom_cons (line : Nat) (c : Char) (cs : List Char) :
    tokensFrom line (c :: cs) =
      ((Segment.first c cs).1.token? (line + (Segment.first c cs).1.newlines)).toList ++
        tokensFrom (line + (Segment.first c cs).1.newlines) (Segment.first c cs).2 := by
  rw [tokensFrom, split, located, List.filterMap_cons]
  cases htoken : (Segment.first c cs).1.token? (line + (Segment.first c cs).1.newlines) <;>
    simp [htoken, tokensFrom]

theorem diagnosticsFrom_cons (h : (Segment.first c cs).1.complaint? = none) :
    diagnosticsFrom line (c :: cs) =
      diagnosticsFrom (line + (Segment.first c cs).1.newlines) (Segment.first c cs).2 := by
  simp [diagnosticsFrom, split, located, diagnostic?, h]

/-- A segment without a complaint leaves what is reported to the rest of the text. -/
theorem reportedFrom_cons (h : (Segment.first c cs).1.complaint? = none) :
    reportedFrom line (c :: cs) =
      reportedFrom (line + (Segment.first c cs).1.newlines) (Segment.first c cs).2 := by
  have hcount : line + (c :: cs).count '\n' =
      line + (Segment.first c cs).1.newlines + (Segment.first c cs).2.count '\n' := by
    rw [← text_first c cs, List.count_append, newlines, Nat.add_assoc]
  rw [reportedFrom, hcount, diagnosticsFrom_cons h]
  rfl

variable (h : (Segment.first c cs).1.complaint? = none)
  (hfirst : first c cs = some ((Segment.first c cs).1.piece, (Segment.first c cs).2))

include h hfirst

/-- A token and its counterpart go in front of lists that go together. -/
theorem forksFrom_of_lexeme {kind : Kind} {text : List Char}
    (hs : (Segment.first c cs).1 = .lexeme kind text)
    (hrest : ForksFrom (line + (Segment.first c cs).1.newlines) line (Segment.first c cs).2) :
    ForksFrom line last (c :: cs) := by
  have hline := earliest_from line (c :: cs)
  obtain ⟨k, hreported, hparallel, hleads, hfinished⟩ := hrest
  have hagrees := @agrees_token? c cs line
  rw [hs] at hfirst
  rw [ForksFrom, reportedFrom_cons h, tokensFrom_cons, diagnosticsFrom_cons h,
    cutFrom_lexeme hfirst]
  rw [reportedFrom_cons h, tokensFrom_cons, ← hreported] at hline
  rw [hs] at hreported hparallel hleads hfinished hagrees hline ⊢
  obtain ⟨_, ht', hagrees⟩ := hagrees rfl
  cases ht'
  exact ⟨k, hreported, .cons hagrees hline hparallel, hleads, hfinished⟩

theorem forksFrom_of_gap (hs : ∀ line, (Segment.first c cs).1.token? line = none)
    (hrest : ForksFrom (line + (Segment.first c cs).1.newlines) last (Segment.first c cs).2) :
    ForksFrom line last (c :: cs) := by
  have hpiece : (Segment.first c cs).1.piece = .gap (Segment.first c cs).1.text := by
    have := hs 0
    cases hkind : (Segment.first c cs).1 with
    | lexeme =>
      rw [hkind] at this
      cases this
    | _ => rfl
  rw [hpiece] at hfirst
  rw [ForksFrom, reportedFrom_cons h, tokensFrom_cons, diagnosticsFrom_cons h, hs,
    cutFrom_gap hfirst]
  exact hrest

end

theorem exists_fork {cs : List Char} (h : Text.PlainNumbers cs) {line last : Nat}
    (hlast : last ≤ line) : ForksFrom line last cs := by
  fun_induction split cs generalizing line last with
  | case1 => exact forksFrom_nil hlast
  | case2 c cs ih =>
    have hplain (c' : Char) (hc' : c' ∈ c :: cs) :
        Text.isWordChar c' = true → isNameChar c' = true := isNameChar_of_plain h hc'
    by_cases hproblem : IsProblem (Segment.first c cs).1
    · exact forksFrom_of_problem hproblem (hplain c List.mem_cons_self)
    · have hcomplaint : (Segment.first c cs).1.complaint? = none :=
        Option.not_isSome_iff_eq_none.1 fun hsome => hproblem (.inl hsome)
      have htext := text_first c cs
      -- both take the same segment, and the rest of the text is plain too
      have hfirst := first_eq hcomplaint (fun text heq => hproblem (.inr ⟨text, heq⟩))
        fun c' hc' => hplain c' (htext ▸ List.mem_append_right _ (List.mem_of_mem_head? hc'))
      have hrest : Text.PlainNumbers (Segment.first c cs).2 :=
        fun c' hc' => h c' (htext ▸ List.mem_append_right _ hc')
      cases hs : (Segment.first c cs).1 with
      | lexeme kind text =>
        exact forksFrom_of_lexeme hcomplaint hfirst hs (ih hrest (Nat.le_add_right _ _))
      | _ =>
        refine forksFrom_of_gap hcomplaint hfirst (by simp [hs, token?]) (ih hrest ?_)
        exact Nat.le_trans hlast (Nat.le_add_right _ _)

end Strict

end Scriptlet
