import Scriptlet.Token

/-!
# Trees

A program is a list of trees. Trees are dynamic: a node that was read from a file may hold any
tree where a front end would put an expression, a statement or a list, so every child that is not
a token is a `Tree`. The front ends build only well-formed trees; the printer, the file form and
the evaluator are defined on all of them. An optional child that is missing is `Tree.null`.

## Main definitions

* `Tree` — atoms, raw objects, tokens, lists and the nineteen kinds of nodes
* `NodeType` — the kinds of nodes and their labels
* `Tree.label` — the label of a tree's kind
* `Tree.items?` — the trees that going through a tree yields
* `Tree.desugarFor` — a `for` loop in terms of blocks and `while`
-/

namespace Scriptlet

/-- Trees of a program, as built by a front end or read from a file. -/
inductive Tree
  | atom (a : Atom)
  /-- An object that is no node. -/
  | object (fields : List (String × Json))
  | token (t : Token)
  | list (items : List Tree)
  | literal (value : Tree)
  | grouping (expression : Tree)
  | unary (operator : Token) (right : Tree)
  | binary (left : Tree) (operator : Token) (right : Tree)
  | logical (left : Tree) (operator : Token) (right : Tree)
  | varRef (name : Token)
  | assign (name : Token) (value : Tree)
  /-- `paren` is the closing parenthesis, where errors of the call are located. -/
  | call (callee : Tree) (paren : Token) (arguments : Tree)
  /-- `bracket` is the closing bracket. -/
  | index (target : Tree) (bracket : Token) (index : Tree)
  | assignIndex (target : Tree) (bracket : Token) (index value : Tree)
  | exprStmt (expression : Tree)
  | printStmt (expression : Tree)
  | varDecl (name : Token) (initializer : Tree)
  | block (statements : Tree)
  | ifStmt (condition thenBranch elseBranch : Tree)
  | whileStmt (condition body : Tree)
  | forStmt (initializer condition increment body : Tree)
  | funDecl (name : Token) (params body : Tree)
  | returnStmt (keyword : Token) (value : Tree)

/-- The kinds of nodes. -/
inductive NodeType
  | literal | grouping | unary | binary | logical | varRef | assign | call | index | assignIndex
  | exprStmt | printStmt | varDecl | block | ifStmt | whileStmt | forStmt | funDecl | returnStmt
  deriving DecidableEq

namespace NodeType

/-- The label of each kind of node in files and texts. -/
def labels : List (NodeType × String) :=
  [(.literal, "Literal"), (.grouping, "Grouping"), (.unary, "Unary"), (.binary, "Binary"),
   (.logical, "Logical"), (.varRef, "Variable"), (.assign, "Assign"), (.call, "Call"),
   (.index, "Index"), (.assignIndex, "AssignIndex"), (.exprStmt, "Expression"),
   (.printStmt, "Print"), (.varDecl, "Var"), (.block, "Block"), (.ifStmt, "If"),
   (.whileStmt, "While"), (.forStmt, "For"), (.funDecl, "Function"), (.returnStmt, "Return")]

/-- The label of a kind of node. -/
def label (type : NodeType) : String := (labels.lookup type).getD ""

/-- The kind of node with the given label. -/
def ofLabel? (label : String) : Option NodeType :=
  (labels.find? fun entry => entry.2 == label).map (·.1)

/-- Every kind of node is found by its label. -/
theorem ofLabel?_label (type : NodeType) : ofLabel? type.label = some type := by
  cases type <;> rfl

/-- The kinds of nodes that are statements. -/
def isStatement : NodeType → Bool
  | .exprStmt | .printStmt | .varDecl | .block | .ifStmt | .whileStmt | .forStmt | .funDecl
  | .returnStmt => true
  | _ => false

end NodeType

namespace Tree

/-- The missing child. -/
abbrev null : Tree := .atom .null

/-- The kind of a node; other trees have none. -/
def nodeType? : Tree → Option NodeType
  | literal .. => some .literal
  | grouping .. => some .grouping
  | unary .. => some .unary
  | binary .. => some .binary
  | logical .. => some .logical
  | varRef .. => some .varRef
  | assign .. => some .assign
  | call .. => some .call
  | index .. => some .index
  | assignIndex .. => some .assignIndex
  | exprStmt .. => some .exprStmt
  | printStmt .. => some .printStmt
  | varDecl .. => some .varDecl
  | block .. => some .block
  | ifStmt .. => some .ifStmt
  | whileStmt .. => some .whileStmt
  | forStmt .. => some .forStmt
  | funDecl .. => some .funDecl
  | returnStmt .. => some .returnStmt
  | _ => none

/-- The label of a tree's kind. -/
def label (t : Tree) : String :=
  match t with
  | atom .null => "NoneType"
  | atom (.bool _) => "bool"
  | atom (.int _) => "int"
  | atom (.float _) => "float"
  | atom (.nan _) => "float"
  | atom (.text _) => "str"
  | object _ => "dict"
  | token _ => "Token"
  | list _ => "list"
  | node => (node.nodeType?.map NodeType.label).getD ""

/-- Whether a tree is a statement node. -/
def isStatement (t : Tree) : Bool := t.nodeType?.any NodeType.isStatement

/-- Whether a child is missing. -/
def isNull : Tree → Bool
  | atom .null => true
  | _ => false

/-- The trees that going through a tree yields: the items of a list, the characters of a text, the
keys of a raw object. Other trees cannot be gone through. -/
def items? : Tree → Option (List Tree)
  | list items => some items
  | atom (.text s) => some (s.toList.map fun c => atom (.text c.toString))
  | object fields => some (fields.map fun (key, _) => atom (.text key))
  | _ => none

mutual

/-- A JSON value as a tree in which no object is taken for a node. -/
def ofJson : Json → Tree
  | .atom a => atom a
  | .arr items => list (ofJsonItems items)
  | .obj fields => object fields

/-- The items of an array as trees. -/
def ofJsonItems : List Json → List Tree
  | [] => []
  | v :: rest => ofJson v :: ofJsonItems rest

end

/-- A `for` loop as a block: the initializer, if there is one, then a `while` loop whose body runs
the increment last. A missing condition is `true`. -/
def desugarFor (initializer condition increment body : Tree) : Tree :=
  let body := if increment.isNull then body else block (list [body, exprStmt increment])
  let condition := if condition.isNull then literal (atom (.bool true)) else condition
  let loop := whileStmt condition body
  block (list (if initializer.isNull then [loop] else [initializer, loop]))

end Tree

end Scriptlet
