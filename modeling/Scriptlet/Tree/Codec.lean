import Scriptlet.Tree.Inspect

/-!
# The file form of trees

Trees are kept in files as JSON. A node is an object whose field `type` holds its label and whose
other fields hold its children under fixed names; a token is an object of type `Token`. Atoms and
lists stand for themselves, so every JSON value without raw objects is the file form of a tree.

Reading goes through the fields of an object in order. The label is looked up first, then each
field is read, and only then is the set of fields compared with the ones that the node has. An
integer that stands directly in a literal is read as a float; nothing else is converted.

## Main definitions

* `Tree.encode` — the file form of a tree
* `Tree.decode` — the tree of a file form
* `DecodeError`, `DecodeError.message` — why a JSON value is no file form
* `NodeType.fields` — the fields of each kind of node
-/

namespace Scriptlet

/-- Why a tree has no file form: it holds a raw object. -/
inductive EncodeError
  | rawObject
  deriving DecidableEq

/-- Why a JSON value is not the file form of a tree. -/
inductive DecodeError
  /-- The type is no label of a node. -/
  | unknownType (type : Json)
  /-- The type is an array or an object. -/
  | compoundType
  /-- A field that no node has. -/
  | unexpectedField (field label : String)
  /-- The fields are not the ones of the node. -/
  | wrongFields (label : String)
  /-- A token is not an object. -/
  | tokenNotObject
  /-- A token lacks a field. -/
  | missingPart (part : String)
  /-- The kind of a token is not one of the labels. -/
  | unknownKind (kind : Json)
  /-- The kind of a token is an array or an object. -/
  | compoundKind
  /-- The integer in a literal is beyond the range of floats. -/
  | literalTooLarge

/-- The wording of each cause. -/
def DecodeError.message : DecodeError → String
  | unknownType type => "Unknown AST node type in JSON: " ++ type.plain
  | compoundType => "the type of a node must be a name"
  | unexpectedField field label => "Unexpected field " ++ Text.quoted field ++ " for " ++ label
  | wrongFields label => "a " ++ label ++ " has other fields"
  | tokenNotObject => "a token must be an object"
  | missingPart part => Text.quoted part
  | unknownKind kind => kind.inspect
  | compoundKind => "the kind of a token must be a name"
  | literalTooLarge => "int too large to convert to float"

/-- The fields of each kind of node, in order. -/
def NodeType.fields : NodeType → List String
  | .literal => ["value"]
  | .grouping => ["expression"]
  | .unary => ["operator", "right"]
  | .binary => ["left", "operator", "right"]
  | .logical => ["left", "operator", "right"]
  | .varRef => ["name"]
  | .assign => ["name", "value"]
  | .call => ["callee", "paren", "arguments"]
  | .index => ["target", "bracket", "index"]
  | .assignIndex => ["target", "bracket", "index", "value"]
  | .exprStmt => ["expression"]
  | .printStmt => ["expression"]
  | .varDecl => ["name", "initializer"]
  | .block => ["statements"]
  | .ifStmt => ["condition", "then_branch", "else_branch"]
  | .whileStmt => ["condition", "body"]
  | .forStmt => ["initializer", "condition", "increment", "body"]
  | .funDecl => ["name", "params", "body"]
  | .returnStmt => ["keyword", "value"]

/-- The names of the fields that hold tokens. -/
def tokenFields : List String := ["operator", "name", "paren", "bracket", "keyword"]

/-- The names of the fields that hold trees. -/
def treeFields : List String :=
  ["expression", "right", "left", "value", "callee", "target", "index", "initializer", "condition",
   "then_branch", "else_branch", "body", "increment", "arguments", "statements", "params"]

/-- The file form of a token. -/
def Token.encode (t : Token) : Json :=
  .obj [("type", .text "Token"), ("kind", .text t.kind.label), ("lexeme", t.lexeme),
    ("literal", t.literal), ("line", t.line)]

/-- The kind that a label names. -/
def Kind.decode : Json → Except DecodeError Kind
  | .atom (.text label) =>
    match ofLabel? label with
    | some kind => .ok kind
    | none => .error (.unknownKind (.text label))
  | .atom a => .error (.unknownKind (.atom a))
  | _ => .error .compoundKind

/-- The token of an object: kind, lexeme and line are required, the literal is not. -/
def Token.decode : Json → Except DecodeError Token
  | .obj fields =>
    match Json.lookup "kind" fields with
    | none => .error (.missingPart "kind")
    | some kind =>
      match Kind.decode kind with
      | .error e => .error e
      | .ok kind =>
        match Json.lookup "lexeme" fields with
        | none => .error (.missingPart "lexeme")
        | some lexeme =>
          match Json.lookup "line" fields with
          | none => .error (.missingPart "line")
          | some line =>
            .ok { kind, lexeme, literal := (Json.lookup "literal" fields).getD .null, line }
  | _ => .error .tokenNotObject

namespace Tree

/-- The file form of a node. -/
def nodeObject (type : NodeType) (fields : List (String × Json)) : Json :=
  .obj (("type", .text type.label) :: fields)

mutual

/-- The file form of a tree. -/
def encode : Tree → Except EncodeError Json
  | atom a => .ok (.atom a)
  | object _ => .error .rawObject
  | token t => .ok t.encode
  | list items => (encodeItems items).map .arr
  | literal v => do
    let v ← encode v
    return nodeObject .literal [("value", v)]
  | grouping e => do
    let e ← encode e
    return nodeObject .grouping [("expression", e)]
  | unary op r => do
    let r ← encode r
    return nodeObject .unary [("operator", op.encode), ("right", r)]
  | binary l op r => do
    let l ← encode l
    let r ← encode r
    return nodeObject .binary [("left", l), ("operator", op.encode), ("right", r)]
  | logical l op r => do
    let l ← encode l
    let r ← encode r
    return nodeObject .logical [("left", l), ("operator", op.encode), ("right", r)]
  | varRef name => .ok (nodeObject .varRef [("name", name.encode)])
  | assign name v => do
    let v ← encode v
    return nodeObject .assign [("name", name.encode), ("value", v)]
  | call f paren args => do
    let f ← encode f
    let args ← encode args
    return nodeObject .call [("callee", f), ("paren", paren.encode), ("arguments", args)]
  | index t bracket i => do
    let t ← encode t
    let i ← encode i
    return nodeObject .index [("target", t), ("bracket", bracket.encode), ("index", i)]
  | assignIndex t bracket i v => do
    let t ← encode t
    let i ← encode i
    let v ← encode v
    return nodeObject .assignIndex
      [("target", t), ("bracket", bracket.encode), ("index", i), ("value", v)]
  | exprStmt e => do
    let e ← encode e
    return nodeObject .exprStmt [("expression", e)]
  | printStmt e => do
    let e ← encode e
    return nodeObject .printStmt [("expression", e)]
  | varDecl name e => do
    let e ← encode e
    return nodeObject .varDecl [("name", name.encode), ("initializer", e)]
  | block ss => do
    let ss ← encode ss
    return nodeObject .block [("statements", ss)]
  | ifStmt c t e => do
    let c ← encode c
    let t ← encode t
    let e ← encode e
    return nodeObject .ifStmt [("condition", c), ("then_branch", t), ("else_branch", e)]
  | whileStmt c b => do
    let c ← encode c
    let b ← encode b
    return nodeObject .whileStmt [("condition", c), ("body", b)]
  | forStmt i c n b => do
    let i ← encode i
    let c ← encode c
    let n ← encode n
    let b ← encode b
    return nodeObject .forStmt
      [("initializer", i), ("condition", c), ("increment", n), ("body", b)]
  | funDecl name ps b => do
    let ps ← encode ps
    let b ← encode b
    return nodeObject .funDecl [("name", name.encode), ("params", ps), ("body", b)]
  | returnStmt keyword v => do
    let v ← encode v
    return nodeObject .returnStmt [("keyword", keyword.encode), ("value", v)]

/-- The file forms of the items of a list. -/
def encodeItems : List Tree → Except EncodeError (List Json)
  | [] => .ok []
  | t :: rest => do
    let v ← encode t
    let vs ← encodeItems rest
    return v :: vs

end

/-- What a field of a node holds. -/
inductive Part
  | token (t : Token)
  | tree (t : Tree)

/-- The tree in the field of the given name. -/
def treePart? (name : String) (parts : List (String × Part)) : Option Tree :=
  match parts.lookup name with
  | some (.tree t) => some t
  | _ => none

/-- The token in the field of the given name. -/
def tokenPart? (name : String) (parts : List (String × Part)) : Option Token :=
  match parts.lookup name with
  | some (.token t) => some t
  | _ => none

/-- The node with the given parts, if they are exactly its fields. -/
def assemble? (type : NodeType) (parts : List (String × Part)) : Option Tree :=
  if parts.all fun (name, _) => type.fields.contains name then
    let tree (name : String) := treePart? name parts
    let token (name : String) := tokenPart? name parts
    match type with
    | .literal => do return literal (← tree "value")
    | .grouping => do return grouping (← tree "expression")
    | .unary => do return unary (← token "operator") (← tree "right")
    | .binary => do return binary (← tree "left") (← token "operator") (← tree "right")
    | .logical => do return logical (← tree "left") (← token "operator") (← tree "right")
    | .varRef => do return varRef (← token "name")
    | .assign => do return assign (← token "name") (← tree "value")
    | .call => do return call (← tree "callee") (← token "paren") (← tree "arguments")
    | .index => do return index (← tree "target") (← token "bracket") (← tree "index")
    | .assignIndex => do
      return assignIndex (← tree "target") (← token "bracket") (← tree "index") (← tree "value")
    | .exprStmt => do return exprStmt (← tree "expression")
    | .printStmt => do return printStmt (← tree "expression")
    | .varDecl => do return varDecl (← token "name") (← tree "initializer")
    | .block => do return block (← tree "statements")
    | .ifStmt => do
      return ifStmt (← tree "condition") (← tree "then_branch") (← tree "else_branch")
    | .whileStmt => do return whileStmt (← tree "condition") (← tree "body")
    | .forStmt => do
      return forStmt (← tree "initializer") (← tree "condition") (← tree "increment")
        (← tree "body")
    | .funDecl => do return funDecl (← token "name") (← tree "params") (← tree "body")
    | .returnStmt => do return returnStmt (← token "keyword") (← tree "value")
  else none

/-- The value of a literal with an integer in it turned into a float. -/
def literalPart : String × Part → Except DecodeError (String × Part)
  | (name, .tree (atom (.int n))) =>
    if name == "value" then
      match Number.ofInt? n with
      | some x => .ok (name, .tree (atom (.float x)))
      | none => .error .literalTooLarge
    else .ok (name, .tree (atom (.int n)))
  | part => .ok part

/-- The node of the given kind with the given parts. -/
def assemble (type : NodeType) (parts : List (String × Part)) : Except DecodeError Tree := do
  let parts ← if type = .literal then parts.mapM literalPart else pure parts
  match assemble? type parts with
  | some t => return t
  | none => throw (.wrongFields type.label)

/-- The kind of node that the type field of an object names. -/
def decodeType (type : Json) : Except DecodeError NodeType :=
  match type with
  | .atom (.text label) =>
    match NodeType.ofLabel? label with
    | some type => .ok type
    | none => .error (.unknownType type)
  | .atom _ => .error (.unknownType type)
  | _ => .error .compoundType

/-- Whether the type field of an object says that it is a token. -/
def isTokenType : Json → Bool
  | .atom (.text s) => s == "Token"
  | _ => false

mutual

/-- The tree of a file form. -/
def decode : Json → Except DecodeError Tree
  | .atom a => .ok (atom a)
  | .arr items => (decodeItems items).map list
  | .obj fields =>
    let type := (Json.lookup "type" fields).getD .null
    if isTokenType type then (Token.decode (.obj fields)).map token
    else do
      let type ← decodeType type
      let parts ← decodeFields type.label fields
      assemble type parts

/-- The trees of the items of an array. -/
def decodeItems : List Json → Except DecodeError (List Tree)
  | [] => .ok []
  | v :: rest => do
    let t ← decode v
    let ts ← decodeItems rest
    return t :: ts

/-- The parts in the fields of an object other than its type. -/
def decodeFields (label : String) : List (String × Json) → Except DecodeError (List (String × Part))
  | [] => .ok []
  | (name, v) :: rest =>
    if name == "type" then decodeFields label rest
    else if tokenFields.contains name then do
      let t ← Token.decode v
      let parts ← decodeFields label rest
      return (name, .token t) :: parts
    else if treeFields.contains name then do
      let t ← decode v
      let parts ← decodeFields label rest
      return (name, .tree t) :: parts
    else .error (.unexpectedField name label)

end

end Tree

end Scriptlet
