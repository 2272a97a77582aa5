import Scriptlet.Tree.Inspect

/-!
# The prefix text of trees

Every node is written in parentheses, its head first and its parts after it: `1 + 2` becomes `(+
1.0 2.0)`. Texts are quoted as they are, without escapes, and a `for` loop is written as the block
that it stands for.

A tree that was read from a file can be impossible to write. `RenderFault` tells the causes apart;
the parts of a node are gone through before any of them is written, and whether the pieces are texts
is looked at last. A variable is written as its lexeme, which in such a tree may be any JSON value.

## Main definitions

* `RenderFault` — why a tree has no prefix text
* `parenthesized` — pieces put together
* `Tree.render` — the prefix text
-/

namespace Scriptlet

/-- Why a tree has no prefix text. -/
inductive RenderFault
  /-- A part is no node; the label tells what it is. -/
  | notNode (label : String)
  /-- A child that should be a list cannot be gone through. -/
  | notSequence
  /-- A parameter is no token. -/
  | notToken
  /-- A lexeme that stands in the text is no text. -/
  | notText
  deriving DecidableEq

/-- The texts that pieces are. -/
def textPieces : List Json → Except RenderFault (List String)
  | [] => .ok []
  | .atom (.text s) :: rest => (textPieces rest).map (s :: ·)
  | _ :: _ => .error .notText

/-- Pieces in parentheses, divided by blanks. -/
def parenthesized (pieces : List Json) : Except RenderFault Json :=
  (textPieces pieces).map fun texts => .text ("(" ++ " ".intercalate texts ++ ")")

namespace Tree

/-- The text of a literal. -/
def literalText : Tree → String
  | atom .null => "nil"
  | atom (.bool true) => "true"
  | atom (.bool false) => "false"
  | atom (.text s) => "\"" ++ s ++ "\""
  | t => t.inspect

/-- Fails unless a tree can be gone through. -/
def sequence (t : Tree) : Except RenderFault Unit :=
  if t.items?.isSome then .ok () else .error .notSequence

/-- The lexemes of a parameter list. -/
def paramLexemes : List Tree → Except RenderFault (List Json)
  | [] => .ok []
  | token t :: rest => (paramLexemes rest).map (t.lexeme :: ·)
  | _ :: _ => .error .notToken

/-- The parameters of a function, divided by blanks. -/
def paramText (params : Tree) : Except RenderFault String :=
  match params.items? with
  | none => .error .notSequence
  | some items => do
    let lexemes ← paramLexemes items
    let words ← textPieces lexemes
    return " ".intercalate words

mutual

/-- The prefix text of a tree. It is a text for every node but a variable. -/
def render : Tree → Except RenderFault Json
  | literal value => return .text (literalText value)
  | grouping e => do
    let e ← render e
    parenthesized [.text "group", e]
  | unary op r => do
    let r ← render r
    parenthesized [op.lexeme, r]
  | binary l op r => do
    let l ← render l
    let r ← render r
    parenthesized [op.lexeme, l, r]
  | logical l op r => do
    let l ← render l
    let r ← render r
    parenthesized [op.lexeme, l, r]
  | varRef name => .ok name.lexeme
  | assign name v => do
    let v ← render v
    parenthesized [.text ("= " ++ name.text), v]
  | call f _ args => do
    sequence args
    let f ← render f
    let parts ← renderParts args
    parenthesized (.text "call" :: f :: parts)
  | index t _ i => do
    let t ← render t
    let i ← render i
    parenthesized [.text "index", t, i]
  | assignIndex t _ i v => do
    let t ← render t
    let i ← render i
    let v ← render v
    parenthesized [.text "index=", t, i, v]
  | exprStmt e => do
    let e ← render e
    parenthesized [.text ";", e]
  | printStmt e => do
    let e ← render e
    parenthesized [.text "print", e]
  | varDecl name e =>
    if e.isNull then parenthesized [.text ("var " ++ name.text)]
    else do
      let e ← render e
      parenthesized [.text ("var " ++ name.text), e]
  | block ss => do
    let parts ← renderParts ss
    parenthesized (.text "block" :: parts)
  | ifStmt c t e => do
    let c ← render c
    let t ← render t
    if e.isNull then parenthesized [.text "if", c, t]
    else
      let e ← render e
      parenthesized [.text "if-else", c, t, e]
  | whileStmt c b => do
    let c ← render c
    let b ← render b
    parenthesized [.text "while", c, b]
  | forStmt i c n b => do
    let before ← if i.isNull then pure [] else do
      let i ← render i
      pure [i]
    let c ← if c.isNull then pure (.text (literalText (atom (.bool true)))) else render c
    let b ← render b
    let body ← if n.isNull then pure b else do
      let n ← render n
      let step ← parenthesized [.text ";", n]
      parenthesized [.text "block", b, step]
    let loop ← parenthesized [.text "while", c, body]
    parenthesized (.text "block" :: before ++ [loop])
  | funDecl name ps b => do
    let ps ← paramText ps
    let parts ← renderParts b
    parenthesized (.text ("fun " ++ name.text ++ " (" ++ ps ++ ")") :: parts)
  | returnStmt _ v =>
    if v.isNull then parenthesized [.text "return"]
    else do
      let v ← render v
      parenthesized [.text "return", v]
  | t => .error (.notNode t.label)

/-- The texts of the parts that going through a tree yields. A text or a raw object yields texts,
which are no nodes. -/
def renderParts : Tree → Except RenderFault (List Json)
  | list items => renderItems items
  | atom (.text s) => if s.isEmpty then .ok [] else .error (.notNode (atom (.text s)).label)
  | object fields =>
    if fields.isEmpty then .ok [] else .error (.notNode (atom (.text "")).label)
  | _ => .error .notSequence

/-- The texts of several trees. -/
def renderItems : List Tree → Except RenderFault (List Json)
  | [] => return []
  | t :: rest => do
    let text ← render t
    let texts ← renderItems rest
    return text :: texts

end

/-- A `for` loop is written as the block that it stands for. -/
theorem render_forStmt (i c n b : Tree) :
    render (forStmt i c n b) = render (desugarFor i c n b) := by
  simp only [desugarFor]
  split <;> split <;> split <;>
    simp [render, renderParts, renderItems, *]

end Tree

end Scriptlet
