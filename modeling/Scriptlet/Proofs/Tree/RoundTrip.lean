import Scriptlet.Tree.Codec

/-!
# Trees and their file forms

Encoding and decoding go through the fields of a node in the same way for every kind of node, so a
node is described here by its parts: the names of its fields with what they hold. A plain tree is
one without raw objects in which no literal holds an integer directly. Every plain tree has a file
form that is read back as the same tree, and reading yields nothing but plain trees.

## Main definitions

* `Tree.parts` — the fields of a node
* `Tree.Plain` — trees that can be kept in files

## Main results

* `Tree.decode_encode` — a plain tree comes back from its file form
* `Tree.plain_of_decode` — what is read is plain
* `Tree.encode_decode_inverse` — encoding and decoding are inverse to each other
-/

namespace Scriptlet

/-- A token comes back from its file form, whatever its lexeme, literal and line are. -/
theorem Token.decode_encode (t : Token) : Token.decode t.encode = .ok t := by
  simp [Token.decode, Token.encode, Json.lookup, Kind.decode, Kind.ofLabel?_label]

namespace Tree

/-- The fields of a node, with what they hold. -/
def parts : Tree → List (String × Part)
  | atom _ | object _ | token _ | list _ => []
  | literal v => [("value", .tree v)]
  | grouping e => [("expression", .tree e)]
  | unary op r => [("operator", .token op), ("right", .tree r)]
  | binary l op r => [("left", .tree l), ("operator", .token op), ("right", .tree r)]
  | logical l op r => [("left", .tree l), ("operator", .token op), ("right", .tree r)]
  | varRef name => [("name", .token name)]
  | assign name v => [("name", .token name), ("value", .tree v)]
  | call f paren args => [("callee", .tree f), ("paren", .token paren), ("arguments", .tree args)]
  | index t bracket i => [("target", .tree t), ("bracket", .token bracket), ("index", .tree i)]
  | assignIndex t bracket i v =>
    [("target", .tree t), ("bracket", .token bracket), ("index", .tree i), ("value", .tree v)]
  | exprStmt e => [("expression", .tree e)]
  | printStmt e => [("expression", .tree e)]
  | varDecl name e => [("name", .token name), ("initializer", .tree e)]
  | block ss => [("statements", .tree ss)]
  | ifStmt c t e => [("condition", .tree c), ("then_branch", .tree t), ("else_branch", .tree e)]
  | whileStmt c b => [("condition", .tree c), ("body", .tree b)]
  | forStmt i c n b =>
    [("initializer", .tree i), ("condition", .tree c), ("increment", .tree n), ("body", .tree b)]
  | funDecl name ps b => [("name", .token name), ("params", .tree ps), ("body", .tree b)]
  | returnStmt keyword v => [("keyword", .token keyword), ("value", .tree v)]

/-- Trees without raw objects in which no literal holds an integer directly. -/
inductive Plain : Tree → Prop
  | atom (a : Atom) : Plain (.atom a)
  | token (t : Token) : Plain (.token t)
  | list {items : List Tree} : (∀ t ∈ items, Plain t) → Plain (.list items)
  | node {t : Tree} {type : NodeType} : t.nodeType? = some type →
      (∀ n, t ≠ .literal (.atom (.int n))) → (∀ name c, (name, .tree c) ∈ t.parts → Plain c) →
      Plain t

/-! ### From trees to file forms and back -/

/-- The file forms of the fields of a node. -/
def encodeParts : List (String × Part) → Except EncodeError (List (String × Json))
  | [] => pure []
  | (name, .token t) :: rest => do
    let fields ← encodeParts rest
    return (name, t.encode) :: fields
  | (name, .tree t) :: rest => do
    let v ← encode t
    let fields ← encodeParts rest
    return (name, v) :: fields

/-- A node is kept as an object with its type and its parts. -/
theorem encode_node {t : Tree} {type : NodeType} (h : t.nodeType? = some type) :
    encode t = (do return nodeObject type (← encodeParts t.parts)) := by
  cases t <;> cases h
  -- the one node without a tree in it
  case varRef => rfl
  all_goals simp [encode, parts, encodeParts]

/-- Whether the name of a part says what it holds. -/
def Part.Fits (name : String) : Part → Prop
  | .token _ => name ∈ tokenFields
  | .tree _ => name ∈ treeFields

theorem fits_of_mem_parts {t : Tree} {name : String} {part : Part} (h : (name, part) ∈ t.parts) :
    part.Fits name := by
  suffices hall : ∀ p ∈ t.parts, p.2.Fits p.1 from hall _ h
  cases t <;> simp [parts, Part.Fits, tokenFields, treeFields]

theorem literalPart_eq {name : String} {v : Tree} (h : ∀ n, v ≠ .atom (.int n)) :
    literalPart (name, .tree v) = .ok (name, .tree v) := by
  unfold literalPart
  split
  · next heq =>
    cases heq
    exact absurd rfl (h _)
  · rfl

/-- A node is put together again from its parts. -/
theorem assemble_parts {t : Tree} {type : NodeType} (h : t.nodeType? = some type)
    (hint : ∀ n, t ≠ .literal (.atom (.int n))) : assemble type t.parts = .ok t := by
  cases t <;> cases h
  -- reading turns an integer into a float, which the assumption excludes
  case literal v =>
    have hv (n : Int) : v ≠ .atom (.int n) := fun heq => hint n (by rw [heq])
    simp only [assemble, parts, if_true, List.mapM_cons, List.mapM_nil, literalPart_eq hv]
    rfl
  all_goals rfl

theorem decodeFields_token {label name : String} {v : Json} {t : Token}
    {rest : List (String × Json)} {parts : List (String × Part)} (hname : name ∈ tokenFields)
    (ht : Token.decode v = .ok t) (hrest : decodeFields label rest = .ok parts) :
    decodeFields label ((name, v) :: rest) = .ok ((name, .token t) :: parts) := by
  have htype : (name == "type") = false := by
    rw [beq_eq_false_iff_ne]
    rintro rfl
    exact absurd hname (by decide)
  rw [decodeFields, htype, List.contains_iff_mem.2 hname, ht, hrest]
  rfl

theorem decodeFields_tree {label name : String} {v : Json} {t : Tree}
    {rest : List (String × Json)} {parts : List (String × Part)} (hname : name ∈ treeFields)
    (ht : decode v = .ok t) (hrest : decodeFields label rest = .ok parts) :
    decodeFields label ((name, v) :: rest) = .ok ((name, .tree t) :: parts) := by
  have htype : (name == "type") = false := by
    rw [beq_eq_false_iff_ne]
    rintro rfl
    exact absurd hname (by decide)
  -- no name is used for both
  have htoken : tokenFields.contains name = false := by
    have hdisjoint : ∀ name ∈ treeFields, tokenFields.contains name = false := by decide
    exact hdisjoint name hname
  rw [decodeFields, htype, htoken, List.contains_iff_mem.2 hname, ht, hrest]
  rfl

/-- Reading the object of a node comes down to reading its fields. -/
theorem decode_nodeObject (type : NodeType) (fields : List (String × Json)) :
    decode (nodeObject type fields) = (do assemble type (← decodeFields type.label fields)) := by
  -- no node type has the label of tokens
  have htoken : isTokenType (.text type.label) = false := by cases type <;> decide
  have htype : decodeType (.text type.label) = .ok type := by
    rw [decodeType, NodeType.ofLabel?_label]
  rw [nodeObject, decode]
  simp only [Json.lookup, beq_self_eq_true, if_true, Option.getD_some, htoken, htype]
  rfl

/-- What is kept in a file comes back as it was. -/
def RoundTrips (t : Tree) : Prop := ∃ o, encode t = .ok o ∧ decode o = .ok t

theorem roundTrips_list {items : List Tree} (h : ∀ t ∈ items, RoundTrips t) :
    ∃ os, encodeItems items = .ok os ∧ decodeItems os = .ok items := by
  induction items with
  | nil => exact ⟨[], rfl, rfl⟩
  | cons t items ih =>
    rw [List.forall_mem_cons] at h
    obtain ⟨o, ho, ho'⟩ := h.1
    obtain ⟨os, hos, hos'⟩ := ih h.2
    refine ⟨o :: os, ?_, ?_⟩
    · rw [encodeItems, ho, hos]
      rfl
    · rw [decodeItems, ho', hos']
      rfl

theorem roundTrips_parts {parts : List (String × Part)} (label : String)
    (hfits : ∀ p ∈ parts, p.2.Fits p.1) (h : ∀ name t, (name, .tree t) ∈ parts → RoundTrips t) :
    ∃ fields, encodeParts parts = .ok fields ∧ decodeFields label fields = .ok parts := by
  induction parts with
  | nil => exact ⟨[], rfl, rfl⟩
  | cons p parts ih =>
    rw [List.forall_mem_cons] at hfits
    obtain ⟨fields, henc, hdec⟩ := ih hfits.2 fun name t ht => h name t (List.mem_cons_of_mem _ ht)
    rcases p with ⟨name, t | t⟩
    · refine ⟨(name, t.encode) :: fields, ?_, ?_⟩
      · rw [encodeParts, henc]
        rfl
      · exact decodeFields_token hfits.1 t.decode_encode hdec
    · obtain ⟨o, ho, ho'⟩ := h name t List.mem_cons_self
      refine ⟨(name, o) :: fields, ?_, ?_⟩
      · rw [encodeParts, ho, henc]
        rfl
      · exact decodeFields_tree hfits.1 ho' hdec

/-- A plain tree has a file form, and comes back from it. -/
theorem decode_encode {t : Tree} (h : Plain t) : RoundTrips t := by
  induction h with
  | atom a => exact ⟨_, rfl, rfl⟩
  | token t =>
    refine ⟨t.encode, rfl, ?_⟩
    have htoken : decode t.encode = (Token.decode t.encode).map .token := rfl
    rw [htoken, t.decode_encode]
    rfl
  | list _ ih =>
    obtain ⟨os, henc, hdec⟩ := roundTrips_list ih
    refine ⟨.arr os, ?_, ?_⟩
    · rw [encode, henc]
      rfl
    · rw [decode, hdec]
      rfl
  -- all kinds of nodes at once, by their parts
  | @node t type htype hint _ ih =>
    obtain ⟨fields, henc, hdec⟩ := roundTrips_parts type.label (fun p hp => fits_of_mem_parts hp) ih
    refine ⟨nodeObject type fields, ?_, ?_⟩
    · rw [encode_node htype, henc]
      rfl
    · rw [decode_nodeObject, hdec]
      exact assemble_parts htype hint

/-! ### What is read -/

theorem exists_of_bind_eq_ok {ε α β : Type} {x : Except ε α} {f : α → Except ε β} {b : β}
    (h : (x >>= f) = .ok b) : ∃ a, x = .ok a ∧ f a = .ok b := by
  cases x with
  | error e => cases h
  | ok a => exact ⟨a, rfl, h⟩

theorem exists_of_map_eq_ok {ε α β : Type} {x : Except ε α} {f : α → β} {b : β}
    (h : x.map f = .ok b) : ∃ a, x = .ok a ∧ f a = b := by
  cases x with
  | error e => cases h
  | ok a => exact ⟨a, rfl, Except.ok.inj h⟩

theorem mem_of_lookup {name : String} {parts : List (String × Part)} {part : Part}
    (h : parts.lookup name = some part) : (name, part) ∈ parts := by
  obtain ⟨before, after, rfl, -⟩ := List.lookup_eq_some_iff.1 h
  simp

theorem mem_of_treePart? {name : String} {parts : List (String × Part)} {t : Tree}
    (h : treePart? name parts = some t) : (name, .tree t) ∈ parts := by
  unfold treePart? at h
  split at h
  · next hlookup =>
    cases h
    exact mem_of_lookup hlookup
  · cases h

theorem mem_of_tokenPart? {name : String} {parts : List (String × Part)} {t : Token}
    (h : tokenPart? name parts = some t) : (name, .token t) ∈ parts := by
  unfold tokenPart? at h
  split at h
  · next hlookup =>
    cases h
    exact mem_of_lookup hlookup
  · cases h

/-- The parts of a node that was put together are among the given ones. -/
theorem mem_parts_of_assemble? {type : NodeType} {parts : List (String × Part)} {t : Tree}
    (h : assemble? type parts = some t) :
    t.nodeType? = some type ∧ ∀ p ∈ t.parts, p ∈ parts := by
  have htree := @mem_of_treePart?
  have htoken := @mem_of_tokenPart?
  unfold assemble? at h
  split at h
  -- what is put together comes from lookups, one for each field
  · cases type
    all_goals
      simp only [bind, pure, Option.bind_eq_some_iff, Option.some.injEq] at h
      grind [Tree.parts, nodeType?]
  · cases h

theorem exists_of_mem_mapM {ε α β : Type} {f : α → Except ε β} {as : List α} {bs : List β}
    (h : as.mapM f = .ok bs) : ∀ b ∈ bs, ∃ a ∈ as, f a = .ok b := by
  induction as generalizing bs with
  | nil =>
    cases h
    exact nofun
  | cons a as ih =>
    rw [List.mapM_cons] at h
    obtain ⟨b, hb, h⟩ := exists_of_bind_eq_ok h
    obtain ⟨bs', hbs, h⟩ := exists_of_bind_eq_ok h
    cases h
    rw [List.forall_mem_cons]
    refine ⟨⟨a, List.mem_cons_self, hb⟩, fun b' hb' => ?_⟩
    obtain ⟨a', ha', hfa'⟩ := ih hbs b' hb'
    exact ⟨a', List.mem_cons_of_mem _ ha', hfa'⟩

/-- Where a literal is put together, no integer is left for its value. -/
theorem literalPart_tree {p : String × Part} {name : String} {t : Tree}
    (h : literalPart p = .ok (name, .tree t)) :
    (p = (name, .tree t) ∨ ∃ x, t = .atom (.float x)) ∧
      (name = "value" → ∀ n, t ≠ .atom (.int n)) := by
  unfold literalPart at h
  split at h
  · next name' n =>
    split at h
    · split at h
      · cases h
        -- the integer has become a float
        exact ⟨.inr ⟨_, rfl⟩, nofun⟩
      · cases h
    · next hname =>
      cases h
      exact ⟨.inl rfl, fun heq => absurd (beq_iff_eq.2 heq) hname⟩
  · next hother =>
    cases h
    exact ⟨.inl rfl, fun _ n heq => hother _ _ (by rw [heq])⟩

/-- Putting a node together looks at its parts, for a literal after the conversion of integers. -/
theorem exists_of_assemble {type : NodeType} {parts : List (String × Part)} {t : Tree}
    (h : assemble type parts = .ok t) :
    ∃ parts', assemble? type parts' = some t ∧
      ((type = .literal ∧ parts.mapM literalPart = .ok parts') ∨
        (type ≠ .literal ∧ parts' = parts)) := by
  rw [assemble] at h
  split at h
  · next htype =>
    obtain ⟨parts', hparts', h⟩ := exists_of_bind_eq_ok h
    cases hsome : assemble? type parts' with
    | none =>
      simp only [hsome] at h
      cases h
    | some t' =>
      simp only [hsome] at h
      cases h
      exact ⟨parts', hsome, .inl ⟨htype, hparts'⟩⟩
  · next htype =>
    cases hsome : assemble? type parts with
    | none =>
      simp only [pure_bind, hsome] at h
      cases h
    | some t' =>
      simp only [pure_bind, hsome] at h
      cases h
      exact ⟨parts, hsome, .inr ⟨htype, rfl⟩⟩

/-- A node that is put together from plain parts is plain. -/
theorem plain_of_assemble {type : NodeType} {parts : List (String × Part)} {t : Tree}
    (hparts : ∀ name c, (name, .tree c) ∈ parts → Plain c) (h : assemble type parts = .ok t) :
    Plain t := by
  obtain ⟨parts', hassembled, hfrom⟩ := exists_of_assemble h
  obtain ⟨htype, hmem⟩ := mem_parts_of_assemble? hassembled
  rcases hfrom with ⟨-, hparts'⟩ | ⟨hliteral, rfl⟩
  · have hfrom := exists_of_mem_mapM hparts'
    refine .node htype ?_ fun name c hc => ?_
    -- a literal with an integer would have the integer among its converted parts
    · rintro n rfl
      obtain ⟨p, -, hp⟩ := hfrom _ (hmem ("value", .tree (.atom (.int n))) List.mem_cons_self)
      exact (literalPart_tree hp).2 rfl n rfl
    · obtain ⟨p, hp, heq⟩ := hfrom _ (hmem _ hc)
      rcases (literalPart_tree heq).1 with rfl | ⟨x, rfl⟩
      · exact hparts name c hp
      · exact .atom _
  · refine .node htype ?_ fun name c hc => hparts name c (hmem _ hc)
    rintro n rfl
    exact hliteral (Option.some.inj htype).symm

mutual

/-- What is read is plain. -/
theorem plain_of_decode : ∀ (o : Json) {t : Tree}, decode o = .ok t → Plain t
  | .atom a, t, h => by
    cases h
    exact .atom a
  | .arr items, t, h => by
    rw [decode] at h
    obtain ⟨ts, hts, rfl⟩ := exists_of_map_eq_ok h
    exact .list (plain_of_decodeItems items hts)
  | .obj fields, t, h => by
    rw [decode] at h
    -- an object is read as a token or as a node, by its type
    split at h
    · obtain ⟨t', -, rfl⟩ := exists_of_map_eq_ok h
      exact .token t'
    · obtain ⟨type, -, h⟩ := exists_of_bind_eq_ok h
      obtain ⟨parts, hparts, h⟩ := exists_of_bind_eq_ok h
      exact plain_of_assemble (plain_of_decodeFields fields hparts) h

theorem plain_of_decodeItems :
    ∀ (items : List Json) {ts : List Tree}, decodeItems items = .ok ts → ∀ t ∈ ts, Plain t
  | [], ts, h => by
    cases h
    exact nofun
  | v :: rest, ts, h => by
    rw [decodeItems] at h
    obtain ⟨t, ht, h⟩ := exists_of_bind_eq_ok h
    obtain ⟨ts', hts', h⟩ := exists_of_bind_eq_ok h
    cases h
    rw [List.forall_mem_cons]
    exact ⟨plain_of_decode v ht, plain_of_decodeItems rest hts'⟩

theorem plain_of_decodeFields :
    ∀ (fields : List (String × Json)) {label : String} {parts : List (String × Part)},
      decodeFields label fields = .ok parts → ∀ name t, (name, .tree t) ∈ parts → Plain t
  | [], label, parts, h => by
    cases h
    exact nofun
  | (field, v) :: rest, label, parts, h => by
    rw [decodeFields] at h
    -- the type is skipped; the other names tell tokens from trees, and unknown ones are errors
    split at h
    · exact plain_of_decodeFields rest h
    · split at h
      · obtain ⟨t, -, h⟩ := exists_of_bind_eq_ok h
        obtain ⟨parts', hparts', h⟩ := exists_of_bind_eq_ok h
        cases h
        intro name c hc
        rcases List.mem_cons.1 hc with heq | hc
        · cases heq
        · exact plain_of_decodeFields rest hparts' name c hc
      · split at h
        · obtain ⟨t, ht, h⟩ := exists_of_bind_eq_ok h
          obtain ⟨parts', hparts', h⟩ := exists_of_bind_eq_ok h
          cases h
          intro name c hc
          rcases List.mem_cons.1 hc with heq | hc
          · cases heq
            exact plain_of_decode v ht
          · exact plain_of_decodeFields rest hparts' name c hc
        · cases h

end

/-- Encoding and decoding are inverse to each other on all that they can produce: every plain tree
has a file form that is read as the same tree, whatever is read is plain, and so what was read once
is read again from its file form. -/
theorem encode_decode_inverse :
    (∀ t, Plain t → ∃ o, encode t = .ok o ∧ decode o = .ok t) ∧
      (∀ o t, decode o = .ok t → Plain t) ∧
      (∀ o t, decode o = .ok t → ∃ o', encode t = .ok o' ∧ decode o' = .ok t) :=
  ⟨fun _ h => decode_encode h, fun o _ h => plain_of_decode o h,
    fun o _ h => decode_encode (plain_of_decode o h)⟩

/-- The file form of an assignment in which the lexeme of the name is an array, the literal of the
name is missing and the value is a list. -/
def oddAssignment : Json :=
  .obj [("value", .arr [.obj [("value", .atom (.bool true)), ("type", .text "Literal")]]),
    ("type", .text "Assign"), ("name", .obj [("lexeme", .arr [.int 1]), ("line", .null),
      ("kind", .text "IDENTIFIER")])]

/-- It is read, and what was read comes back from a file form in which nothing is missing. -/
theorem encode_decode_oddAssignment :
    ∃ t, decode oddAssignment = .ok t ∧ Plain t ∧ ∃ o, encode t = .ok o ∧ decode o = .ok t := by
  let name : Token :=
    { kind := .identifier, lexeme := .arr [.int 1], literal := .null, line := .null }
  let t : Tree := .assign name (.list [.literal (.atom (.bool true))])
  have hdecode : decode oddAssignment = .ok t := rfl
  have hplain : Plain t := encode_decode_inverse.2.1 _ _ hdecode
  exact ⟨t, hdecode, hplain, encode_decode_inverse.1 t hplain⟩

end Tree

end Scriptlet
