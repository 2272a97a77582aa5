import Scriptlet.Proofs.Json.RoundTrip
import Scriptlet.Proofs.Tree.RoundTrip

/-!
# Trees whose files are read back

The file form of a tree is kept as text. It comes back from there if the atoms in it do: those that
stand in literals, and those that tokens carry. The keys of an object are the names of the fields of
a node, or those of a token, and so are all different.

## Main definitions

* `Token.Readable`, `Tree.Readable` — tokens and trees that come back from the text of a file

## Main results

* `Tree.Readable.exists_fileForm` — a readable tree has a file form that is read back from its text
-/

namespace Scriptlet

/-! ### Tokens -/

/-- What a token carries is read back. -/
structure Token.Readable (t : Token) : Prop where
  lexeme : t.lexeme.Readable
  literal : t.literal.Readable
  line : t.line.Readable

theorem Token.Readable.encode {t : Token} (h : t.Readable) : t.encode.Readable := by
  have htext (s : String) : (Json.text s).Readable := .atom trivial
  refine .obj ?_ ?_
  · simp
  · simp [htext, h.lexeme, h.literal, h.line]

/-! ### Trees -/

namespace Tree

/-- Trees that are read back from the text of their file form: the tokens and the atoms in them are,
and no literal holds an integer directly. -/
inductive Readable : Tree → Prop
  | atom {a : Atom} : a.Readable → Readable (.atom a)
  | token {t : Token} : t.Readable → Readable (.token t)
  | list {items : List Tree} : (∀ t ∈ items, Readable t) → Readable (.list items)
  | node {t : Tree} {type : NodeType} : t.nodeType? = some type →
      (∀ n, t ≠ .literal (.atom (.int n))) →
      (∀ name token, (name, .token token) ∈ t.parts → token.Readable) →
      (∀ name c, (name, .tree c) ∈ t.parts → Readable c) → Readable t

theorem Readable.null : Readable .null := .atom trivial

/-- What the fields of a node hold is read back. -/
def PartsReadable : List (String × Part) → Prop
  | [] => True
  | (_, .token t) :: rest => t.Readable ∧ PartsReadable rest
  | (_, .tree t) :: rest => t.Readable ∧ PartsReadable rest

theorem PartsReadable.mem {parts : List (String × Part)} (h : PartsReadable parts) :
    (∀ name t, (name, .token t) ∈ parts → t.Readable) ∧
      ∀ name t, (name, .tree t) ∈ parts → t.Readable := by
  induction parts with
  | nil => simp
  | cons p parts ih => rcases p with ⟨name, t | t⟩ <;> grind [PartsReadable]

/-- A node is readable if its parts are. -/
theorem readable_of_parts {t : Tree} {type : NodeType} (htype : t.nodeType? = some type)
    (hint : ∀ n, t ≠ .literal (.atom (.int n))) (h : PartsReadable t.parts) : t.Readable :=
  .node htype hint h.mem.1 h.mem.2

theorem Readable.plain {t : Tree} (h : t.Readable) : t.Plain := by
  induction h with
  | atom => exact .atom _
  | token => exact .token _
  | list _ ih => exact .list ih
  | node htype hint _ _ ih => exact .node htype hint ih

/-- The names of the fields of a node are different from each other and from its type. -/
theorem nodup_fields (t : Tree) : ("type" :: t.parts.map Prod.fst).Nodup := by
  cases t <;> simp [parts]

theorem readable_encodeItems {items : List Tree} {os : List Json} (h : encodeItems items = .ok os)
    (hitems : ∀ t ∈ items, ∀ o, encode t = .ok o → o.Readable) : ∀ o ∈ os, o.Readable := by
  induction items generalizing os with
  | nil =>
    cases h
    exact nofun
  | cons t items ih =>
    rw [encodeItems] at h
    obtain ⟨o, ho, h⟩ := exists_of_bind_eq_ok h
    obtain ⟨os', hos, h⟩ := exists_of_bind_eq_ok h
    cases h
    rw [List.forall_mem_cons] at hitems ⊢
    exact ⟨hitems.1 o ho, ih hos hitems.2⟩

/-- The fields of a node keep their names, and their values are read back if the parts are. -/
theorem readable_encodeParts {parts : List (String × Part)} {fields : List (String × Json)}
    (h : encodeParts parts = .ok fields)
    (htokens : ∀ name t, (name, .token t) ∈ parts → t.Readable)
    (htrees : ∀ name t, (name, .tree t) ∈ parts → ∀ o, encode t = .ok o → o.Readable) :
    fields.map Prod.fst = parts.map Prod.fst ∧ ∀ field ∈ fields, field.2.Readable := by
  induction parts generalizing fields with
  | nil =>
    cases h
    exact ⟨rfl, nofun⟩
  | cons p parts ih =>
    have hrest (fields : List (String × Json)) (h : encodeParts parts = .ok fields) :=
      ih h (fun name t ht => htokens name t (List.mem_cons_of_mem _ ht))
        fun name t ht => htrees name t (List.mem_cons_of_mem _ ht)
    rcases p with ⟨name, t | t⟩
    · obtain ⟨fields', hfields, h⟩ := exists_of_bind_eq_ok h
      cases h
      obtain ⟨hnames, hvalues⟩ := hrest fields' hfields
      rw [List.map_cons, List.map_cons, hnames, List.forall_mem_cons]
      exact ⟨rfl, (htokens name t List.mem_cons_self).encode, hvalues⟩
    · obtain ⟨o, ho, h⟩ := exists_of_bind_eq_ok h
      obtain ⟨fields', hfields, h⟩ := exists_of_bind_eq_ok h
      cases h
      obtain ⟨hnames, hvalues⟩ := hrest fields' hfields
      rw [List.map_cons, List.map_cons, hnames, List.forall_mem_cons]
      exact ⟨rfl, htrees name t List.mem_cons_self o ho, hvalues⟩

/-- The file form of a readable tree is a readable value. -/
theorem Readable.encode {t : Tree} (h : t.Readable) : ∀ o, encode t = .ok o → o.Readable := by
  induction h with
  | atom ha =>
    intro o ho
    cases ho
    exact .atom ha
  | token ht =>
    intro o ho
    cases ho
    exact ht.encode
  | list _ ih =>
    intro o ho
    rw [Tree.encode] at ho
    obtain ⟨os, hos, rfl⟩ := exists_of_map_eq_ok ho
    exact .arr (readable_encodeItems hos ih)
  | @node t type htype _ htokens _ ih =>
    intro o ho
    rw [encode_node htype] at ho
    obtain ⟨fields, hfields, ho⟩ := exists_of_bind_eq_ok ho
    cases ho
    obtain ⟨hnames, hvalues⟩ := readable_encodeParts hfields htokens ih
    refine .obj ?_ ?_
    · rw [List.map_cons, hnames]
      exact nodup_fields t
    · rw [List.forall_mem_cons]
      exact ⟨.atom trivial, hvalues⟩

/-- A readable tree has a file form, and comes back from the text of it. -/
theorem Readable.exists_fileForm {t : Tree} (h : t.Readable) :
    ∃ o, Tree.encode t = .ok o ∧ Json.parse? o.indented = some o ∧ decode o = .ok t := by
  obtain ⟨o, hencode, hdecode⟩ := decode_encode h.plain
  exact ⟨o, hencode, Json.parse?_indented (h.encode o hencode), hdecode⟩

end Tree

end Scriptlet
