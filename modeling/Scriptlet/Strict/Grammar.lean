import Scriptlet.Strict.Terminal

/-!
# The grammar of the strict front end

The grammar from which the strict front end is generated, as data, and the trees that it gives to
lists of lexemes.

A production is a sequence of parts: tokens, rules, optional parts and repeated parts. A part that
is a token keeps it as a child of the tree, or is a mark, which leaves nothing in the tree. An
optional part that is left out leaves a child that says so. A rule makes a node of its children,
with the name of the rule or the name that the production gives; a rule that is inlined makes no
node where it has one child and the production gives no name.

The grammar leaves open to which of several conditionals an `else` belongs. A generated parser
takes a token that it can take rather than leave out an optional part that begins with it.

## Main definitions

* `Strict.Rule`, `Strict.Part`, `Strict.Production`, `Strict.Rule.productions` — the grammar
* `Strict.ParseTree`, `Strict.Rule.node` — trees
* `Strict.Derives` — the trees of lists of lexemes
* `Strict.Viable` — lexemes with which a program can begin
-/

namespace Scriptlet.Strict

/-! ### Productions -/

/-- The rules of the grammar. -/
inductive Rule
  | start | declaration | varDecl | funDecl | parameters
  | statement | printStmt | ifStmt | whileStmt | forStmt | forInit | returnStmt | block | exprStmt
  | expression | assignment | indexTarget
  | logicOr | logicAnd | equality | comparison | term | factor | unary | call | arguments | primary
  deriving DecidableEq

/-- The names of nodes. -/
inductive NodeName
  | rule (r : Rule)
  | assign | assignIndex | unaryOp | callExpr | indexExpr
  | number | string | trueLit | falseLit | nilLit | variable | grouping
  deriving DecidableEq

/-- What productions are made of. -/
inductive Part
  /-- A token of one of the kinds; if it is not kept, it leaves nothing in the tree. -/
  | token (kinds : List Kind) (kept : Bool)
  | rule (r : Rule)
  | optional (parts : List Part)
  | many (parts : List Part)

namespace Part

/-- A token that leaves nothing in the tree. -/
def mark (kind : Kind) : Part := token [kind] false

/-- A token that is kept. -/
def keep (kind : Kind) : Part := token [kind] true

/-- Operands with operators between them. -/
def chain (operators : List Kind) (operand : Rule) : List Part :=
  [rule operand, many [token operators true, rule operand]]

end Part

/-- A sequence of parts, and the name of the node that it makes if this is not the rule's. -/
structure Production where
  parts : List Part
  name : Option NodeName

/-- The rules that make no node where they have one child. -/
def Rule.isInlined : Rule → Bool
  | declaration | statement | expression | assignment | logicOr | logicAnd | equality | comparison
  | term | factor | unary | call | primary => true
  | _ => false

open Scriptlet.Strict.Part in
/-- The productions of a rule. -/
def Rule.productions : Rule → List Production
  | start => [⟨[many [rule declaration]], none⟩]
  | declaration => [⟨[rule varDecl], none⟩, ⟨[rule funDecl], none⟩, ⟨[rule statement], none⟩]
  | varDecl =>
    [⟨[mark .varKey, keep .identifier, optional [mark .equal, rule expression], mark .semicolon],
      none⟩]
  | funDecl =>
    [⟨[mark .funKey, keep .identifier, mark .leftParen, optional [rule parameters],
      mark .rightParen, rule block], none⟩]
  | parameters => [⟨[keep .identifier, many [mark .comma, keep .identifier]], none⟩]
  | statement =>
    [⟨[rule printStmt], none⟩, ⟨[rule ifStmt], none⟩, ⟨[rule whileStmt], none⟩,
     ⟨[rule forStmt], none⟩, ⟨[rule returnStmt], none⟩, ⟨[rule block], none⟩,
     ⟨[rule exprStmt], none⟩]
  | printStmt => [⟨[mark .printKey, rule expression, mark .semicolon], none⟩]
  | ifStmt =>
    [⟨[mark .ifKey, mark .leftParen, rule expression, mark .rightParen, rule statement,
      optional [mark .elseKey, rule statement]], none⟩]
  | whileStmt =>
    [⟨[mark .whileKey, mark .leftParen, rule expression, mark .rightParen, rule statement], none⟩]
  | forStmt =>
    [⟨[mark .forKey, mark .leftParen, rule forInit, optional [rule expression], mark .semicolon,
      optional [rule expression], mark .rightParen, rule statement], none⟩]
  | forInit => [⟨[rule varDecl], none⟩, ⟨[rule exprStmt], none⟩, ⟨[mark .semicolon], none⟩]
  | returnStmt => [⟨[keep .returnKey, optional [rule expression], mark .semicolon], none⟩]
  | block => [⟨[mark .leftBrace, many [rule declaration], mark .rightBrace], none⟩]
  | exprStmt => [⟨[rule expression, mark .semicolon], none⟩]
  | expression => [⟨[rule assignment], none⟩]
  | assignment =>
    [⟨[keep .identifier, mark .equal, rule assignment], some .assign⟩,
     ⟨[rule indexTarget, mark .equal, rule assignment], some .assignIndex⟩,
     ⟨[rule logicOr], none⟩]
  | indexTarget => [⟨[rule call, mark .leftBracket, rule expression, mark .rightBracket], none⟩]
  | logicOr => [⟨chain [.orKey] logicAnd, none⟩]
  | logicAnd => [⟨chain [.andKey] equality, none⟩]
  | equality => [⟨chain [.bangEqual, .equalEqual] comparison, none⟩]
  | comparison => [⟨chain [.greater, .greaterEqual, .less, .lessEqual] term, none⟩]
  | term => [⟨chain [.minus, .plus] factor, none⟩]
  | factor => [⟨chain [.slash, .star] unary, none⟩]
  | unary => [⟨[token [.bang, .minus] true, rule unary], some .unaryOp⟩, ⟨[rule call], none⟩]
  | call =>
    [⟨[rule primary], none⟩,
     ⟨[rule call, mark .leftParen, optional [rule arguments], mark .rightParen], some .callExpr⟩,
     ⟨[rule call, mark .leftBracket, rule expression, mark .rightBracket], some .indexExpr⟩]
  | arguments => [⟨[rule expression, many [mark .comma, rule expression]], none⟩]
  | primary =>
    [⟨[keep .number], some .number⟩, ⟨[keep .string], some .string⟩,
     ⟨[mark .trueKey], some .trueLit⟩, ⟨[mark .falseKey], some .falseLit⟩,
     ⟨[mark .nilKey], some .nilLit⟩, ⟨[keep .identifier], some .variable⟩,
     ⟨[mark .leftParen, rule expression, mark .rightParen], some .grouping⟩]

/-! ### Trees -/

/-- What a generated parser makes of a text. -/
inductive ParseTree
  | token (l : Lexeme)
  /-- An optional part was left out. -/
  | absent
  /-- A node with its children and the line on which its last lexeme ends, if it has one. -/
  | node (name : NodeName) (children : List ParseTree) (endLine : Option Nat)

/-- What a rule makes of the children that one of its productions has, and of the lexemes that it
covers. -/
def Rule.node (r : Rule) (p : Production) (ls : List Lexeme) (children : List ParseTree) :
    ParseTree :=
  let own (name : NodeName) : ParseTree := .node name children (ls.getLast?.map Lexeme.endLine)
  match p.name, children with
  | some name, _ => own name
  | none, [child] => if r.isInlined then child else own (.rule r)
  | none, _ => own (.rule r)

/-- The kinds of tokens that some parts begin with, if they begin with a token. -/
def firstKinds : List Part → List Kind
  | .token kinds _ :: _ => kinds
  | _ => []

/-- The lexemes that parts of a production cover, what follows these, and the children. An optional
part is not left out in front of a token that it begins with. -/
inductive Derives : List Part → List Lexeme → List Lexeme → List ParseTree → Prop
  | nil {rest : List Lexeme} : Derives [] [] rest []
  | token {kinds : List Kind} {kept : Bool} {parts : List Part} {l : Lexeme}
      {ls rest : List Lexeme} {children : List ParseTree} :
      l.kind ∈ kinds → Derives parts ls rest children →
      Derives (.token kinds kept :: parts) (l :: ls) rest
        (if kept then .token l :: children else children)
  | rule {r : Rule} {p : Production} {parts : List Part} {ls ms rest : List Lexeme}
      {own children : List ParseTree} :
      p ∈ r.productions → Derives p.parts ls (ms ++ rest) own → Derives parts ms rest children →
      Derives (.rule r :: parts) (ls ++ ms) rest (r.node p ls own :: children)
  | absent {optional parts : List Part} {ls rest : List Lexeme} {children : List ParseTree} :
      (∀ l ∈ (ls ++ rest).head?, l.kind ∉ firstKinds optional) → Derives parts ls rest children →
      Derives (.optional optional :: parts) ls rest (.absent :: children)
  | present {optional parts : List Part} {ls ms rest : List Lexeme}
      {own children : List ParseTree} :
      Derives optional ls (ms ++ rest) own → Derives parts ms rest children →
      Derives (.optional optional :: parts) (ls ++ ms) rest (own ++ children)
  | done {repeated parts : List Part} {ls rest : List Lexeme} {children : List ParseTree} :
      Derives parts ls rest children → Derives (.many repeated :: parts) ls rest children
  | again {repeated parts : List Part} {ls ms rest : List Lexeme}
      {own children : List ParseTree} :
      Derives repeated ls (ms ++ rest) own → Derives (.many repeated :: parts) ms rest children →
      Derives (.many repeated :: parts) (ls ++ ms) rest (own ++ children)

/-- The lexemes of a rule, what follows them, and their tree. -/
def Rule.Derives (r : Rule) (ls rest : List Lexeme) (t : ParseTree) : Prop :=
  Strict.Derives [.rule r] ls rest [t]

/-- A program can begin with these lexemes. -/
def Viable (ls : List Lexeme) : Prop := ∃ more t, Rule.start.Derives (ls ++ more) [] t

end Scriptlet.Strict
