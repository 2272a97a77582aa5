import Scriptlet.Scan.Basic
import Scriptlet.Strict.Grammar
import Scriptlet.Tree.Basic

/-!
# From parse trees to statements

What the strict front end makes of the trees of its grammar. A node is replaced by what its children
were made of, from the leaves up: each name of a node has an action of its own. The closing
parenthesis of a call and the closing bracket of an indexing are no children of their nodes, so that
their tokens are made anew, on the line on which the node ends.

An action that is given other children than the grammar has for the node makes nothing.

## Main definitions

* `Strict.Item` — what a tree is made into
* `Strict.NodeName.act` — the actions
* `Strict.ParseTree.build`, `Strict.ParseTree.statements?` — what a tree is made into
-/

namespace Scriptlet.Strict

/-- What a tree of the grammar is made into. -/
inductive Item
  | token (l : Lexeme)
  | tree (t : Tree)
  | trees (ts : List Tree)
  | names (ns : List Token)

namespace Item

/-- A single tree. -/
def tree? : Item → Option Tree
  | tree t => some t
  | _ => none

/-- The tree that stands for an optional part that was left out. -/
def absent : Item := tree .null

/-- Several trees; none if they were left out. -/
def trees? : Item → Option (List Tree)
  | trees ts => some ts
  | tree t => if t.isNull then some [] else none
  | _ => none

/-- Several names; none if they were left out. -/
def names? : Item → Option (List Token)
  | names ns => some ns
  | tree t => if t.isNull then some [] else none
  | _ => none

end Item

/-! ### Tokens -/

/-- The token of a name. -/
def Lexeme.nameToken (l : Lexeme) : Token := .make .identifier l.text .null l.line

/-- The token of an operator or a keyword. -/
def Lexeme.operatorToken (l : Lexeme) : Token := .make l.kind l.text .null l.line

/-- A closing parenthesis. -/
def closingParen (line : Nat) : Token := .make .rightParen ")" .null line

/-- A closing bracket. -/
def closingBracket (line : Nat) : Token := .make .rightBracket "]" .null line

/-- The value of a numeral or of a quoted text. -/
def Lexeme.value (l : Lexeme) : Tree := .atom (Segment.literal l.kind l.text.toList)

/-! ### Actions -/

/-- A token that is a name. -/
def Item.nameToken? : Item → Option Token
  | token l => some l.nameToken
  | _ => none

/-- Operands with operators between them, folded to the left. -/
def foldItems (join : Tree → Token → Tree → Tree) : Tree → List Item → Option Tree
  | left, [] => some left
  | left, .token op :: .tree right :: items =>
    foldItems join (join left op.operatorToken right) items
  | _, _ => none

/-- A node that operators of one level build. -/
def foldNode (join : Tree → Token → Tree → Tree) : List Item → Option Item
  | .tree left :: items => (foldItems join left items).map .tree
  | _ => none

/-- What the rule's own node is made into. -/
def Rule.act (r : Rule) (items : List Item) (endLine : Option Nat) : Option Item :=
  match r, items with
  | .start, items => (items.mapM Item.tree?).map .trees
  | .varDecl, [.token name, .tree value] => some (.tree (.varDecl name.nameToken value))
  | .funDecl, [.token name, params, .tree (.block (.list body))] =>
    params.names?.map fun names =>
      .tree (.funDecl name.nameToken (.list (names.map .token)) (.list body))
  | .parameters, items => (items.mapM Item.nameToken?).map .names
  | .printStmt, [.tree e] => some (.tree (.printStmt e))
  | .ifStmt, [.tree condition, .tree thenBranch, .tree elseBranch] =>
    some (.tree (.ifStmt condition thenBranch elseBranch))
  | .whileStmt, [.tree condition, .tree body] => some (.tree (.whileStmt condition body))
  | .forStmt, [.tree initializer, .tree condition, .tree increment, .tree body] =>
    some (.tree (.desugarFor initializer condition increment body))
  | .forInit, [] => some .absent
  | .forInit, item :: _ => some item
  | .returnStmt, [.token keyword, .tree value] =>
    some (.tree (.returnStmt keyword.operatorToken value))
  | .block, items => (items.mapM Item.tree?).map fun ss => .tree (.block (.list ss))
  | .exprStmt, [.tree e] => some (.tree (.exprStmt e))
  | .indexTarget, [.tree target, .tree index] =>
    endLine.map fun line => .tree (.index target (closingBracket line) index)
  | .logicOr, items | .logicAnd, items => foldNode .logical items
  | .equality, items | .comparison, items | .term, items | .factor, items =>
    foldNode .binary items
  | .arguments, items => (items.mapM Item.tree?).map .trees
  | _, _ => none

/-- What a node is made into, given what its children were made into. -/
def NodeName.act (name : NodeName) (items : List Item) (endLine : Option Nat) : Option Item :=
  match name, items with
  | .rule r, items => r.act items endLine
  | .assign, [.token name, .tree value] => some (.tree (.assign name.nameToken value))
  | .assignIndex, [.tree (.index target bracket index), .tree value] =>
    some (.tree (.assignIndex target bracket index value))
  | .unaryOp, [.token op, .tree operand] => some (.tree (.unary op.operatorToken operand))
  | .callExpr, [.tree callee, arguments] =>
    endLine.bind fun line => arguments.trees?.map fun args =>
      .tree (.call callee (closingParen line) (.list args))
  | .indexExpr, [.tree target, .tree index] =>
    endLine.map fun line => .tree (.index target (closingBracket line) index)
  | .number, [.token l] | .string, [.token l] => some (.tree (.literal l.value))
  | .trueLit, [] => some (.tree (.literal (.atom (.bool true))))
  | .falseLit, [] => some (.tree (.literal (.atom (.bool false))))
  | .nilLit, [] => some (.tree (.literal .null))
  | .variable, [.token name] => some (.tree (.varRef name.nameToken))
  | .grouping, [.tree e] => some (.tree (.grouping e))
  | _, _ => none

/-! ### Trees -/

namespace ParseTree

mutual

/-- What a tree is made into, from the leaves up. -/
def build : ParseTree → Option Item
  | .token l => some (.token l)
  | .absent => some .absent
  | .node name children endLine =>
    (buildAll children).bind fun items => name.act items endLine

/-- What trees are made into. -/
def buildAll : List ParseTree → Option (List Item)
  | [] => some []
  | t :: ts => (build t).bind fun item => (buildAll ts).map (item :: ·)

end

/-- The statements of the tree of a program. -/
def statements? (t : ParseTree) : Option (List Tree) :=
  match t.build with
  | some (.trees ss) => some ss
  | _ => none

end ParseTree

end Scriptlet.Strict
