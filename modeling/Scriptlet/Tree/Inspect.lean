import Scriptlet.Tree.Basic

/-!
# The inspect text and the sameness of trees

A tree that is held by a program as a value has a text, which names every node with its fields, and
can be compared with another tree: numbers by their value whatever their kind, NaNs by their marks,
texts by their characters, objects without regard to the order of their fields, all else part by
part.

## Main definitions

* `Tree.inspect` — the text of a tree
* `Atom.key` — the form in which equal numbers of different kinds are one atom
* `Tree.same` — sameness
-/

namespace Scriptlet

/-- Booleans and whole floats as integers, so that numbers of equal value are equal atoms. -/
def Atom.key : Atom → Atom
  | bool b => int (if b then 1 else 0)
  | float x =>
    if x.isNaN then float Number.notANumber
    else match Number.whole? x with
      | some n => int n
      | none => float x
  | a => a

/-- Whether two atoms are the same value. -/
def Atom.same (a b : Atom) : Bool := a.key == b.key

theorem Atom.same_iff {a b : Atom} : a.same b ↔ a.key = b.key := by
  simp [Atom.same]

namespace Json

mutual

/-- Whether two JSON values are the same. -/
def same : Json → Json → Bool
  | atom a, atom b => a.same b
  | arr as, arr bs => sameItems as bs
  | obj as, obj bs => as.length == bs.length && sameFields as bs
  | _, _ => false

/-- Whether two arrays have the same items. -/
def sameItems : List Json → List Json → Bool
  | [], [] => true
  | a :: as, b :: bs => same a b && sameItems as bs
  | _, _ => false

/-- Whether every field of the first object is a field of the second. -/
def sameFields : List (String × Json) → List (String × Json) → Bool
  | [], _ => true
  | (k, a) :: rest, bs =>
    (match lookup k bs with
      | some b => same a b
      | none => false) && sameFields rest bs

end

end Json

/-- Whether two tokens are the same in kind, lexeme, literal and line. -/
def Token.same (s t : Token) : Bool :=
  s.kind == t.kind && s.lexeme.same t.lexeme && s.literal.same t.literal && s.line.same t.line

namespace Tree

/-- The text of a node: its label and its fields. -/
def nodeText (type : NodeType) (fields : List (String × String)) : String :=
  type.label ++ "(" ++ ", ".intercalate (fields.map fun (name, text) => name ++ "=" ++ text) ++ ")"

mutual

/-- The text of a tree. -/
def inspect : Tree → String
  | atom a => a.inspect
  | object fields => (Json.obj fields).inspect
  | token t => t.inspect
  | list items => "[" ++ ", ".intercalate (inspectItems items) ++ "]"
  | literal value => nodeText .literal [("value", inspect value)]
  | grouping e => nodeText .grouping [("expression", inspect e)]
  | unary op r => nodeText .unary [("operator", op.inspect), ("right", inspect r)]
  | binary l op r =>
    nodeText .binary [("left", inspect l), ("operator", op.inspect), ("right", inspect r)]
  | logical l op r =>
    nodeText .logical [("left", inspect l), ("operator", op.inspect), ("right", inspect r)]
  | varRef name => nodeText .varRef [("name", name.inspect)]
  | assign name v => nodeText .assign [("name", name.inspect), ("value", inspect v)]
  | call f paren args =>
    nodeText .call [("callee", inspect f), ("paren", paren.inspect), ("arguments", inspect args)]
  | index t bracket i =>
    nodeText .index [("target", inspect t), ("bracket", bracket.inspect), ("index", inspect i)]
  | assignIndex t bracket i v =>
    nodeText .assignIndex
      [("target", inspect t), ("bracket", bracket.inspect), ("index", inspect i),
       ("value", inspect v)]
  | exprStmt e => nodeText .exprStmt [("expression", inspect e)]
  | printStmt e => nodeText .printStmt [("expression", inspect e)]
  | varDecl name e => nodeText .varDecl [("name", name.inspect), ("initializer", inspect e)]
  | block ss => nodeText .block [("statements", inspect ss)]
  | ifStmt c t e =>
    nodeText .ifStmt
      [("condition", inspect c), ("then_branch", inspect t), ("else_branch", inspect e)]
  | whileStmt c b => nodeText .whileStmt [("condition", inspect c), ("body", inspect b)]
  | forStmt i c n b =>
    nodeText .forStmt
      [("initializer", inspect i), ("condition", inspect c), ("increment", inspect n),
       ("body", inspect b)]
  | funDecl name ps b =>
    nodeText .funDecl [("name", name.inspect), ("params", inspect ps), ("body", inspect b)]
  | returnStmt k v => nodeText .returnStmt [("keyword", k.inspect), ("value", inspect v)]

/-- The texts of the items of a list. -/
def inspectItems : List Tree → List String
  | [] => []
  | t :: rest => inspect t :: inspectItems rest

end

mutual

/-- Whether two trees are the same. -/
def same : Tree → Tree → Bool
  | atom a, atom b => a.same b
  | object as, object bs => (Json.obj as).same (.obj bs)
  | token s, token t => s.same t
  | list as, list bs => sameItems as bs
  | literal a, literal b => same a b
  | grouping a, grouping b => same a b
  | unary op a, unary op' b => op.same op' && same a b
  | binary l op r, binary l' op' r' => same l l' && op.same op' && same r r'
  | logical l op r, logical l' op' r' => same l l' && op.same op' && same r r'
  | varRef a, varRef b => a.same b
  | assign n a, assign n' b => n.same n' && same a b
  | call f p as, call f' p' bs => same f f' && p.same p' && same as bs
  | index t k i, index t' k' i' => same t t' && k.same k' && same i i'
  | assignIndex t k i v, assignIndex t' k' i' v' =>
    same t t' && k.same k' && same i i' && same v v'
  | exprStmt a, exprStmt b => same a b
  | printStmt a, printStmt b => same a b
  | varDecl n a, varDecl n' b => n.same n' && same a b
  | block as, block bs => same as bs
  | ifStmt c t e, ifStmt c' t' e' => same c c' && same t t' && same e e'
  | whileStmt c b, whileStmt c' b' => same c c' && same b b'
  | forStmt i c n b, forStmt i' c' n' b' => same i i' && same c c' && same n n' && same b b'
  | funDecl n ps b, funDecl n' ps' b' => n.same n' && same ps ps' && same b b'
  | returnStmt k v, returnStmt k' v' => k.same k' && same v v'
  | _, _ => false

/-- Whether two lists have the same items. -/
def sameItems : List Tree → List Tree → Bool
  | [], [] => true
  | a :: as, b :: bs => same a b && sameItems as bs
  | _, _ => false

end

end Tree

end Scriptlet
