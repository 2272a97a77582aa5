import Scriptlet.Proofs.Decimal.Injective
import Scriptlet.Proofs.Scan.Spelling
import Scriptlet.Proofs.Tree.Form
import Scriptlet.Tree.Prefix

/-!
# Reading prefix texts

A form is read as a tree by its head: some heads name a kind of node, and an operator with one part
is unary, with two parts binary. What is read has no lines, and tokens that the form does not show
are the only ones of their kind. The text of a finite number gives the number.

A tree is legible if it is written as a form that is read as the tree without its lines. So legible
trees that are written alike differ in lines only.

## Main definitions

* `Form.tree?` — the tree that a form is read as
* `Tree.Legible` — trees that are read back from their prefix texts

## Main results

* `Tree.Legible.withoutLines_eq` — legible trees that are written alike
* `Tree.legible_of_parts` — nodes with legible parts
-/

namespace Scriptlet

namespace Form

/-! ### Reading forms -/

open Classical in
/-- The finite number with the text. -/
noncomputable def number? (s : String) : Option Float :=
  if h : ∃ x : Float, x.isFinite = true ∧ Number.inspect x = s then some h.choose else none

theorem number?_inspect {x : Float} (hx : x.isFinite = true) :
    number? (Number.inspect x) = some x := by
  have h : ∃ y : Float, y.isFinite = true ∧ Number.inspect y = Number.inspect x := ⟨x, hx, rfl⟩
  rw [number?, dif_pos h, Number.inspect_injective h.choose_spec.1 hx h.choose_spec.2]

/-- The tree of a word. -/
noncomputable def leaf? (s : String) : Option Tree :=
  if s = "nil" then some (.literal .null)
  else if s = "true" then some (.literal (.atom (.bool true)))
  else if s = "false" then some (.literal (.atom (.bool false)))
  else
    match s.toList with
    | [] => none
    | c :: cs =>
      if c = '"' then some (.literal (.atom (.text (String.ofList cs.dropLast))))
      else if Segment.isNameStart c then some (.varRef (.ofName s))
      else (number? s).map fun x => .literal (.atom (.float x))

/-- The tree of an operator and its operands. -/
def operation? (op : String) (parts : List Tree) : Option Tree :=
  match Kind.ofSpelling? op, parts with
  | some kind, [r] => some (.unary (.ofKind kind) r)
  | some kind, [l, r] =>
    if kind = .orKey ∨ kind = .andKey then some (.logical l (.ofKind kind) r)
    else some (.binary l (.ofKind kind) r)
  | _, _ => none

/-- The tree of a head and the trees behind it. -/
def node? (head : String) (parts : List Tree) : Option Tree :=
  match head, parts with
  | "group", [e] => some (.grouping e)
  | "=", [.varRef name, v] => some (.assign name v)
  | "call", f :: args => some (.call f (.ofKind .rightParen) (.list args))
  | "index", [t, i] => some (.index t (.ofKind .rightBracket) i)
  | "index=", [t, i, v] => some (.assignIndex t (.ofKind .rightBracket) i v)
  | ";", [e] => some (.exprStmt e)
  | "print", [e] => some (.printStmt e)
  | "var", [.varRef name] => some (.varDecl name .null)
  | "var", [.varRef name, e] => some (.varDecl name e)
  | "block", ss => some (.block (.list ss))
  | "if", [c, t] => some (.ifStmt c t .null)
  | "if-else", [c, t, e] => some (.ifStmt c t e)
  | "while", [c, b] => some (.whileStmt c b)
  | "return", [] => some (.returnStmt (.ofKind .returnKey) .null)
  | "return", [v] => some (.returnStmt (.ofKind .returnKey) v)
  | op, operands => operation? op operands

/-- The names in a list of parameters. -/
def params? : List Form → Option (List Tree)
  | [] => some []
  | word s :: fs => (params? fs).map (.token (.ofName s) :: ·)
  | group _ :: _ => none

mutual

/-- The tree of a form, without lines. The parameters of a function are no tree. -/
noncomputable def tree? : Form → Option Tree
  | word s => leaf? s
  | group (word "fun" :: word name :: group params :: body) => do
    let params ← params? params
    let body ← trees? body
    return .funDecl (.ofName name) (.list params) (.list body)
  | group (word head :: parts) => do
    let parts ← trees? parts
    node? head parts
  | group _ => none

/-- The trees of several forms. -/
noncomputable def trees? : List Form → Option (List Tree)
  | [] => some []
  | f :: fs => do
    let t ← tree? f
    let ts ← trees? fs
    return t :: ts

end

theorem tree?_group {head : String} (hhead : head ≠ "fun") (parts : List Form) :
    tree? (group (word head :: parts)) = (trees? parts).bind (node? head) := by
  rw [tree?]
  · rfl
  · simp_all

/-- A word that can stand for the head of a node. -/
def IsHead (s : String) : Prop :=
  s.toList ≠ [] ∧ s.toList.all isPlain = true ∧ s ≠ "fun"

instance (s : String) : Decidable (IsHead s) := inferInstanceAs (Decidable (_ ∧ _ ∧ _))

end Form

/-! ### Texts of several pieces -/

theorem textPieces_map (words : List String) : textPieces (words.map Json.text) = .ok words := by
  induction words with
  | nil => rfl
  | cons s words ih =>
    rw [List.map_cons, textPieces, ih]
    rfl

/-- The texts of forms in parentheses are the text of the group. -/
theorem parenthesized_map (fs : List Form) :
    parenthesized (fs.map fun f => .text f.text) = .ok (.text (Form.group fs).text) := by
  have hpieces := textPieces_map (fs.map Form.text)
  rw [List.map_map] at hpieces
  change (textPieces (fs.map (Json.text ∘ Form.text))).map _ = _
  rw [hpieces, Form.text, Form.texts_eq_map]
  rfl

/-- A word at the head goes on behind a blank. -/
theorem parenthesized_cons (a b : String) (rest : List Json) :
    parenthesized (.text (a ++ " " ++ b) :: rest) = parenthesized (.text a :: .text b :: rest) := by
  rw [parenthesized, parenthesized, textPieces, textPieces, textPieces]
  cases textPieces rest with
  | error fault => rfl
  | ok texts =>
    have hsame : " ".intercalate ((a ++ " " ++ b) :: texts) =
        " ".intercalate (a :: b :: texts) := by
      rw [← String.toList_inj, Form.toList_intercalate, Form.toList_intercalate]
      simp
    simp only [Except.map, hsame]

namespace Tree

/-! ### Legible trees -/

/-- The tree is written as the form, and the form is read as the tree without its lines. -/
structure Reads (f : Form) (t : Tree) : Prop where
  proper : f.Proper
  render : t.render = .ok (.text f.text)
  tree? : f.tree? = some t.withoutLines

/-- The tree is read back from its prefix text. -/
def Legible (t : Tree) : Prop := ∃ f, Reads f t

/-- Legible trees that are written alike are the same up to lines. -/
theorem Legible.withoutLines_eq {t u : Tree} (ht : t.Legible) (hu : u.Legible)
    (h : t.render = u.render) : t.withoutLines = u.withoutLines := by
  obtain ⟨f, hf⟩ := ht
  obtain ⟨g, hg⟩ := hu
  have htext : f.text = g.text := by
    rw [hf.render, hg.render] at h
    exact Atom.text.inj (Json.atom.inj (Except.ok.inj h))
  obtain rfl := Form.text_injective hf.proper hg.proper htext
  exact Option.some.inj (hf.tree?.symm.trans hg.tree?)

theorem map_withoutLines_eq {ts us : List Tree} (hts : ∀ t ∈ ts, t.Legible)
    (hus : ∀ u ∈ us, u.Legible) (h : ts.map render = us.map render) :
    ts.map withoutLines = us.map withoutLines := by
  induction ts generalizing us with
  | nil => rw [List.map_eq_nil_iff.1 h.symm]
  | cons t ts ih =>
    cases us with
    | nil => cases h
    | cons u us =>
      rw [List.forall_mem_cons] at hts hus
      obtain ⟨hhead, htail⟩ := List.cons.inj h
      rw [List.map_cons, List.map_cons, hts.1.withoutLines_eq hus.1 hhead, ih hts.2 hus.2 htail]

/-- A legible tree is not missing. -/
theorem Legible.isNull_eq {t : Tree} (ht : t.Legible) : t.isNull = false := by
  obtain ⟨f, hf⟩ := ht
  unfold isNull
  split
  · cases hf.render
  · rfl

section Parts

variable {ts : List Tree} {fs : List Form}

theorem exists_forms (h : ∀ t ∈ ts, t.Legible) : ∃ fs, List.Forall₂ Reads fs ts := by
  induction ts with
  | nil => exact ⟨[], .nil⟩
  | cons t ts ih =>
    rw [List.forall_mem_cons] at h
    obtain ⟨f, hf⟩ := h.1
    obtain ⟨fs, hfs⟩ := ih h.2
    exact ⟨f :: fs, .cons hf hfs⟩

theorem proper_of_reads (h : List.Forall₂ Reads fs ts) : ∀ f ∈ fs, f.Proper := by
  induction h with
  | nil => exact nofun
  | cons hf _ ih => exact List.forall_mem_cons.2 ⟨hf.proper, ih⟩

theorem trees?_of_reads (h : List.Forall₂ Reads fs ts) :
    Form.trees? fs = some (ts.map withoutLines) := by
  induction h with
  | nil => rfl
  | cons hf _ ih =>
    rw [Form.trees?, hf.tree?, ih]
    rfl

/-- The form is the text of the tree. -/
def Writes (f : Form) (t : Tree) : Prop := t.render = .ok (.text f.text)

theorem writes_of_reads (h : List.Forall₂ Reads fs ts) : List.Forall₂ Writes fs ts :=
  h.imp fun _ _ hf => hf.render

theorem renderItems_of_writes (h : List.Forall₂ Writes fs ts) :
    renderItems ts = .ok (fs.map fun f => .text f.text) := by
  induction h with
  | nil => rfl
  | cons hf _ ih =>
    rw [renderItems, hf, ih]
    rfl

end Parts

/-- A node is legible if its parts are, it is written as its head and them, and it is what is read
from its head and them. -/
theorem legible_of_parts {t : Tree} (head : String) (parts : List Tree) (hhead : Form.IsHead head)
    (hparts : ∀ p ∈ parts, p.Legible)
    (hrender : ∀ fs, List.Forall₂ Writes fs parts → Writes (.group (.word head :: fs)) t)
    (hnode : Form.node? head (parts.map withoutLines) = some t.withoutLines) : t.Legible := by
  obtain ⟨fs, hfs⟩ := exists_forms hparts
  obtain ⟨hne, hplain, hfun⟩ := hhead
  refine ⟨.group (.word head :: fs), .group ?_, hrender fs (writes_of_reads hfs), ?_⟩
  · exact List.forall_mem_cons.2 ⟨Form.proper_word hne hplain, proper_of_reads hfs⟩
  · rw [Form.tree?_group hfun, trees?_of_reads hfs]
    exact hnode

/-! ### Words -/

/-- A word that is written without quotes is legible. -/
theorem legible_word {t : Tree} {s : String} (hs : (Form.word s).Proper)
    (hrender : t.render = .ok (.text s)) (hleaf : Form.leaf? s = some t.withoutLines) :
    t.Legible :=
  ⟨.word s, hs, hrender, hleaf⟩

theorem legible_null : (literal .null).Legible :=
  legible_word (Form.proper_word (s := "nil") (by decide) (by decide)) (by rw [render]; rfl) rfl

theorem legible_bool (b : Bool) : (literal (.atom (.bool b))).Legible := by
  cases b with
  | true =>
    have hs := Form.proper_word (s := "true") (by decide) (by decide)
    exact legible_word hs (by rw [render]; rfl) rfl
  | false =>
    have hs := Form.proper_word (s := "false") (by decide) (by decide)
    exact legible_word hs (by rw [render]; rfl) rfl

/-- A text is read back if it has no quote inside. -/
theorem legible_text {body : List Char} (hbody : '"' ∉ body) :
    (literal (.atom (.text (String.ofList body)))).Legible := by
  have hlist : ("\"" ++ String.ofList body ++ "\"").toList = '"' :: body ++ ['"'] := by simp
  refine ⟨.word ("\"" ++ String.ofList body ++ "\""), .quoted hlist hbody, by rw [render]; rfl, ?_⟩
  have hne (s : String) (hs : s.toList.head? ≠ some '"') :
      "\"" ++ String.ofList body ++ "\"" ≠ s := by
    rintro rfl
    exact hs (by rw [hlist]; rfl)
  rw [Form.tree?, Form.leaf?, if_neg (hne _ (by decide)), if_neg (hne _ (by decide)),
    if_neg (hne _ (by decide)), hlist]
  simp [withoutLines]

theorem isPlain_of_isNameChar {c : Char} (h : Segment.isNameChar c = true) :
    Form.isPlain c = true := by
  rw [← Bool.not_eq_false]
  intro hplain
  have hc : c = '(' ∨ c = ')' ∨ c = ' ' ∨ c = '"' := by
    by_contra hc
    simp_all [Form.isPlain]
  rcases hc with rfl | rfl | rfl | rfl <;> exact absurd h (by decide +kernel)

/-- The text of a finite number starts with a digit or with a minus sign and has only digits and
four marks. -/
theorem exists_cons_inspect {x : Float} (hx : x.isFinite = true) :
    ∃ c cs, (Number.inspect x).toList = c :: cs ∧ (c.isDigit = true ∨ c = '-') ∧
      ∀ d ∈ c :: cs, d.isDigit = true ∨ d ∈ ['.', 'e', '-', '+'] := by
  obtain ⟨hnan, hinf⟩ := Number.isNaN_and_isInf_of_isFinite hx
  obtain ⟨p, hp, htext⟩ := Number.toList_inspect hnan hinf
  obtain ⟨c, cs, hcons, hc⟩ := hp.proper.text_eq_cons
  have hmem (d : Char) (hd : d ∈ c :: cs) := hp.proper.mem_text (hcons ▸ hd)
  rw [htext, hcons]
  cases Number.isNegative x with
  | true =>
    exact ⟨'-', c :: cs, rfl, .inr rfl, List.forall_mem_cons.2 ⟨.inr (by decide), hmem⟩⟩
  | false => exact ⟨c, cs, rfl, .inl hc, hmem⟩

/-- A finite number is read back. -/
theorem legible_number {x : Float} (hx : x.isFinite = true) :
    (literal (.atom (.float x))).Legible := by
  obtain ⟨c, cs, hcons, hc, hmem⟩ := exists_cons_inspect hx
  have hne (word : String) (hword : word.toList.head? ∈ [some 'n', some 't', some 'f']) :
      Number.inspect x ≠ word := by
    rintro rfl
    rw [hcons, List.head?_cons] at hword
    rcases hc with hc | rfl
    · have hletter : c = 'n' ∨ c = 't' ∨ c = 'f' := by simpa using hword
      rcases hletter with rfl | rfl | rfl <;> cases hc
    · exact absurd hword (by decide)
  have hstart : c ≠ '"' ∧ Segment.isNameStart c = false := by
    rcases hc with hc | rfl
    · refine ⟨?_, ?_⟩
      · rintro rfl
        cases hc
      · rw [← Bool.not_eq_true]
        intro hname
        rw [Segment.isDigit_eq_false_of_isNameStart hname] at hc
        cases hc
    · decide +kernel
  have hproper : (Form.word (Number.inspect x)).Proper := by
    refine .plain (by simp [hcons]) fun d hd => ?_
    rw [hcons] at hd
    rcases hmem d hd with hdigit | hmark
    · exact isPlain_of_isNameChar (by simp [Segment.isNameChar, hdigit])
    · have hall : ['.', 'e', '-', '+'].all Form.isPlain = true := by decide
      exact List.all_eq_true.1 hall d hmark
  refine legible_word hproper (by rw [render]; rfl) ?_
  rw [Form.leaf?, if_neg (hne _ (by decide)), if_neg (hne _ (by decide)),
    if_neg (hne _ (by decide)), hcons]
  simp only [hstart, Form.number?_inspect hx, if_false, Bool.false_eq_true, Option.map_some]
  rfl

theorem proper_of_isName {text : List Char} (h : Token.IsName text) :
    (Form.word (String.ofList text)).Proper := by
  obtain ⟨⟨c, cs, rfl, hc, hcs⟩, -⟩ := h
  have hstart : Segment.isNameChar c = true := by rw [Segment.isNameChar, hc, Bool.true_or]
  refine .plain (by simp) ?_
  rw [String.toList_ofList, List.forall_mem_cons]
  exact ⟨isPlain_of_isNameChar hstart, fun d hd => isPlain_of_isNameChar (hcs d hd)⟩

/-- A name is read back. -/
theorem legible_varRef {name : Token} (hname : name.IsVariable) : (varRef name).Legible := by
  obtain ⟨text, htext, hname⟩ := hname
  have hproper := proper_of_isName htext
  obtain ⟨⟨c, cs, rfl, hc, -⟩, hkey⟩ := htext
  have hlexeme : name.lexeme = .text (String.ofList (c :: cs)) := congrArg Token.lexeme hname
  have hword (word : String) (hword : Kind.keyword? word ≠ none) :
      String.ofList (c :: cs) ≠ word := by
    rintro rfl
    exact hword hkey
  have hquote : c ≠ '"' := by
    rintro rfl
    exact absurd hc (by decide +kernel)
  refine legible_word hproper (by rw [render, hlexeme]) ?_
  rw [Form.leaf?, if_neg (hword _ (by decide)), if_neg (hword _ (by decide)),
    if_neg (hword _ (by decide)), String.toList_ofList]
  simp only [hquote, hc, if_true, if_false]
  rw [withoutLines, hname]

/-- Numbers and strings are read back. -/
theorem legible_literal {t : Token} (ht : t.Spelled)
    (hkind : t.kind ∈ [Kind.number, .string]) : (literal (.ofJson t.literal)).Legible := by
  cases ht with
  | string hbody => exact legible_text hbody
  | number hx => exact legible_number hx
  | kind hmem =>
    have hall : ∀ entry ∈ Kind.spellings, entry.1 ∉ [Kind.number, .string] := by decide
    exact absurd hkind (hall _ hmem)
  | name => exact absurd hkind (by simp [Token.make])

/-! ### Expressions -/

section Nodes

variable {c e f i r t v : Tree} {args ss : List Tree} {name op closing : Token}

theorem legible_grouping (he : e.Legible) : (grouping e).Legible := by
  refine legible_of_parts "group" [e] (by decide) (by simpa using he) ?_ rfl
  rintro _ (_ | ⟨he, _ | _⟩)
  rw [Writes, render, he]
  exact parenthesized_map [.word "group", _]

theorem lexeme_of_ofKind {kind : Kind} (hop : op.withoutLine = .ofKind kind) :
    op.lexeme = .text kind.spelling := congrArg Token.lexeme hop

/-- An operator in front of its operand is read back. -/
theorem legible_unary {kind : Kind} (hop : op.withoutLine = .ofKind kind)
    (hkind : kind ∈ [Kind.bang, .minus]) (hr : r.Legible) : (unary op r).Legible := by
  have hhead : Form.IsHead kind.spelling ∧
      Form.node? kind.spelling [r.withoutLines] =
        some (.unary (.ofKind kind) r.withoutLines) := by
    simp only [List.mem_cons, List.not_mem_nil, or_false] at hkind
    rcases hkind with rfl | rfl
    · exact ⟨by decide, rfl⟩
    · exact ⟨by decide, rfl⟩
  refine legible_of_parts kind.spelling [r] hhead.1 (by simpa using hr) ?_ ?_
  · rintro _ (_ | ⟨hr, _ | _⟩)
    rw [Writes, render, hr, lexeme_of_ofKind hop]
    exact parenthesized_map [.word kind.spelling, _]
  · rw [withoutLines, hop]
    exact hhead.2

theorem lexeme_of_writes {form : Form} (h : Writes form (varRef name)) :
    name.lexeme = .text form.text := Except.ok.inj h

theorem text_of_writes {form : Form} (h : Writes form (varRef name)) : name.text = form.text := by
  rw [Token.text, lexeme_of_writes h]
  rfl

/-- An assignment is read back if its name is. -/
theorem legible_assign (hname : (varRef name).Legible) (hv : v.Legible) :
    (assign name v).Legible := by
  refine legible_of_parts "=" [varRef name, v] (by decide) (by simp [hname, hv]) ?_ rfl
  rintro _ (_ | ⟨hname, _ | ⟨hv, _ | _⟩⟩)
  rw [Writes, render, hv, text_of_writes hname]
  exact (parenthesized_cons "=" _ _).trans (parenthesized_map [.word "=", _, _])

theorem legible_call (hclosing : closing.withoutLine = .ofKind .rightParen) (hf : f.Legible)
    (hargs : ∀ arg ∈ args, arg.Legible) : (call f closing (.list args)).Legible := by
  refine legible_of_parts "call" (f :: args) (by decide) (List.forall_mem_cons.2 ⟨hf, hargs⟩) ?_ ?_
  · rintro _ (_ | ⟨hf, hargs⟩)
    rw [Writes, render, hf, renderParts, renderItems_of_writes hargs]
    exact parenthesized_map (.word "call" :: _ :: _)
  · rw [withoutLines, withoutLines_list, hclosing]
    rfl

theorem legible_index (hclosing : closing.withoutLine = .ofKind .rightBracket) (ht : t.Legible)
    (hi : i.Legible) : (index t closing i).Legible := by
  refine legible_of_parts "index" [t, i] (by decide) (by simp [ht, hi]) ?_ ?_
  · rintro _ (_ | ⟨ht, _ | ⟨hi, _ | _⟩⟩)
    rw [Writes, render, ht, hi]
    exact parenthesized_map [.word "index", _, _]
  · rw [withoutLines, hclosing]
    rfl

theorem legible_assignIndex (hclosing : closing.withoutLine = .ofKind .rightBracket)
    (ht : t.Legible) (hi : i.Legible) (hv : v.Legible) :
    (assignIndex t closing i v).Legible := by
  refine legible_of_parts "index=" [t, i, v] (by decide) (by simp [ht, hi, hv]) ?_ ?_
  · rintro _ (_ | ⟨ht, _ | ⟨hi, _ | ⟨hv, _ | _⟩⟩⟩)
    rw [Writes, render, ht, hi, hv]
    exact parenthesized_map [.word "index=", _, _, _]
  · rw [withoutLines, hclosing]
    rfl

/-! ### Statements -/

theorem legible_exprStmt (he : e.Legible) : (exprStmt e).Legible := by
  refine legible_of_parts ";" [e] (by decide) (by simpa using he) ?_ rfl
  rintro _ (_ | ⟨he, _ | _⟩)
  rw [Writes, render, he]
  exact parenthesized_map [.word ";", _]

theorem legible_printStmt (he : e.Legible) : (printStmt e).Legible := by
  refine legible_of_parts "print" [e] (by decide) (by simpa using he) ?_ rfl
  rintro _ (_ | ⟨he, _ | _⟩)
  rw [Writes, render, he]
  exact parenthesized_map [.word "print", _]

/-- A missing initializer is left out. -/
theorem legible_varDecl (hname : (varRef name).Legible) (he : e = .null ∨ e.Legible) :
    (varDecl name e).Legible := by
  rcases he with rfl | he
  · refine legible_of_parts "var" [varRef name] (by decide) (by simpa using hname) ?_ rfl
    rintro _ (_ | ⟨hname, _ | _⟩)
    rw [Writes, render, text_of_writes hname]
    exact (parenthesized_cons "var" _ _).trans (parenthesized_map [.word "var", _])
  · have hsome := he.isNull_eq
    refine legible_of_parts "var" [varRef name, e] (by decide) (by simp [hname, he]) ?_ rfl
    rintro _ (_ | ⟨hname, _ | ⟨he, _ | _⟩⟩)
    rw [Writes, render, hsome, he, text_of_writes hname]
    exact (parenthesized_cons "var" _ _).trans (parenthesized_map [.word "var", _, _])

theorem legible_block (hss : ∀ s ∈ ss, s.Legible) : (block (.list ss)).Legible := by
  refine legible_of_parts "block" ss (by decide) hss ?_ ?_
  · intro fs hfs
    rw [Writes, render, renderParts, renderItems_of_writes hfs]
    exact parenthesized_map (.word "block" :: _)
  · rw [withoutLines, withoutLines_list]
    rfl

/-- Without an `else` branch the head is another. -/
theorem legible_ifStmt (hc : c.Legible) (ht : t.Legible) (he : e = .null ∨ e.Legible) :
    (ifStmt c t e).Legible := by
  rcases he with rfl | he
  · refine legible_of_parts "if" [c, t] (by decide) (by simp [hc, ht]) ?_ rfl
    rintro _ (_ | ⟨hc, _ | ⟨ht, _ | _⟩⟩)
    rw [Writes, render, hc, ht]
    exact parenthesized_map [.word "if", _, _]
  · have hsome := he.isNull_eq
    refine legible_of_parts "if-else" [c, t, e] (by decide) (by simp [hc, ht, he]) ?_ rfl
    rintro _ (_ | ⟨hc, _ | ⟨ht, _ | ⟨he, _ | _⟩⟩⟩)
    rw [Writes, render, hc, ht, hsome, he]
    exact parenthesized_map [.word "if-else", _, _, _]

theorem legible_whileStmt (hc : c.Legible) (ht : t.Legible) :
    (whileStmt c t).Legible := by
  refine legible_of_parts "while" [c, t] (by decide) (by simp [hc, ht]) ?_ rfl
  rintro _ (_ | ⟨hc, _ | ⟨ht, _ | _⟩⟩)
  rw [Writes, render, hc, ht]
  exact parenthesized_map [.word "while", _, _]

/-- A missing value is left out. -/
theorem legible_returnStmt (hkey : op.withoutLine = .ofKind .returnKey)
    (hv : v = .null ∨ v.Legible) : (returnStmt op v).Legible := by
  rcases hv with rfl | hv
  · refine legible_of_parts "return" [] (by decide) (List.forall_mem_nil _) ?_ ?_
    · rintro _ (_ | _)
      rw [Writes, render]
      exact parenthesized_map [.word "return"]
    · rw [withoutLines, hkey]
      rfl
  · have hsome := hv.isNull_eq
    refine legible_of_parts "return" [v] (by decide) (by simpa using hv) ?_ ?_
    · rintro _ (_ | ⟨hv, _ | _⟩)
      rw [Writes, render, hsome, hv]
      exact parenthesized_map [.word "return", _]
    · rw [withoutLines, hkey]
      rfl

/-- The loop that a `for` loop stands for is read back. -/
theorem legible_desugarFor (hi : i = .null ∨ i.Legible) (hc : c = .null ∨ c.Legible)
    (hv : v = .null ∨ v.Legible) (ht : t.Legible) : (desugarFor i c v t).Legible := by
  have hbody : (if v.isNull then t else block (.list [t, exprStmt v])).Legible := by
    rcases hv with rfl | hv
    · exact ht
    · rw [hv.isNull_eq]
      exact legible_block (by simp [ht, legible_exprStmt hv])
  have hcondition : (if c.isNull then literal (.atom (.bool true)) else c).Legible := by
    rcases hc with rfl | hc
    · exact legible_bool true
    · rw [hc.isNull_eq]
      exact hc
  have hloop := legible_whileStmt hcondition hbody
  refine legible_block ?_
  rcases hi with rfl | hi
  · simpa [isNull] using hloop
  · rw [hi.isNull_eq]
    simpa using ⟨hi, hloop⟩

end Nodes

/-! ### Functions -/

section Functions

variable {name : Token} {names : List Token} {body : List Tree}

/-- Variables without their lines are given by words. -/
theorem exists_words (h : ∀ name ∈ names, name.IsVariable) :
    ∃ words : List String, names.map Token.withoutLine = words.map Token.ofName ∧
      ∀ s ∈ words, (Form.word s).Proper := by
  induction names with
  | nil => exact ⟨[], rfl, nofun⟩
  | cons name names ih =>
    rw [List.forall_mem_cons] at h
    obtain ⟨text, htext, hname⟩ := h.1
    obtain ⟨words, hnames, hwords⟩ := ih h.2
    have hproper := proper_of_isName htext
    refine ⟨String.ofList text :: words, ?_, List.forall_mem_cons.2 ⟨hproper, hwords⟩⟩
    rw [List.map_cons, List.map_cons, hname, hnames]

theorem paramLexemes_map (names : List Token) :
    paramLexemes (names.map .token) = .ok (names.map Token.lexeme) := by
  induction names with
  | nil => rfl
  | cons name names ih =>
    rw [List.map_cons, paramLexemes, ih]
    rfl

variable {words : List String}

theorem paramText_of_words (h : names.map Token.withoutLine = words.map Token.ofName) :
    paramText (.list (names.map .token)) = .ok (" ".intercalate words) := by
  have hlexemes : names.map Token.lexeme = words.map Json.text := by
    have hmap := congrArg (List.map Token.lexeme) h
    rwa [List.map_map, List.map_map] at hmap
  rw [paramText, items?]
  dsimp only
  rw [paramLexemes_map, hlexemes]
  change (textPieces (words.map Json.text) >>= fun words => _) = _
  rw [textPieces_map]
  rfl

theorem params?_map (words : List String) :
    Form.params? (words.map .word) = some (words.map fun s => .token (.ofName s)) := by
  induction words with
  | nil => rfl
  | cons s words ih =>
    rw [List.map_cons, Form.params?, ih]
    rfl

/-- A function is read back: its parameters stand between parentheses of their own. -/
theorem legible_funDecl (hname : name.IsVariable) (hnames : ∀ name ∈ names, name.IsVariable)
    (hbody : ∀ s ∈ body, s.Legible) :
    (funDecl name (.list (names.map .token)) (.list body)).Legible := by
  obtain ⟨text, htext, hname⟩ := hname
  obtain ⟨words, hwords, hproper⟩ := exists_words hnames
  obtain ⟨fs, hfs⟩ := exists_forms hbody
  let f := String.ofList text
  let params : Form := .group (words.map .word)
  refine ⟨.group (.word "fun" :: .word f :: params :: fs), ?_, ?_, ?_⟩
  · have hparams : params.Proper := .group (by simpa using hproper)
    have hfun : (Form.word "fun").Proper := Form.proper_word (by decide) (by decide)
    refine .group ?_
    simp only [List.forall_mem_cons]
    exact ⟨hfun, proper_of_isName htext, hparams, proper_of_reads hfs⟩
  · have hlexeme : name.lexeme = .text f := congrArg Token.lexeme hname
    have htext : name.text = f := by
      rw [Token.text, hlexeme]
      rfl
    have hparams : params.text = "(" ++ " ".intercalate words ++ ")" := by
      rw [Form.text, Form.texts_eq_map, List.map_map]
      simp [Function.comp_def, Form.text]
    have hhead : "fun " ++ name.text ++ " (" ++ " ".intercalate words ++ ")" =
        "fun" ++ " " ++ f ++ " " ++ params.text := by
      rw [htext, hparams, ← String.toList_inj]
      simp
    rw [render, paramText_of_words hwords, renderParts, renderItems_of_writes (writes_of_reads hfs)]
    change parenthesized (.text (_ ++ name.text ++ " (" ++ " ".intercalate words ++ ")") :: _) = _
    rw [hhead, parenthesized_cons, parenthesized_cons]
    exact parenthesized_map (.word "fun" :: .word f :: params :: fs)
  · have hlist : (list (names.map .token)).withoutLines =
        list (words.map fun s => .token (.ofName s)) := by
      have hmap := congrArg (List.map Tree.token) hwords
      rw [List.map_map, List.map_map] at hmap
      rw [withoutLines_list, List.map_map]
      exact congrArg list hmap
    rw [Form.tree?, params?_map, trees?_of_reads hfs, withoutLines, hname, hlist,
      withoutLines_list]
    rfl

end Functions

end Tree

end Scriptlet
