import Scriptlet.Tree.Basic

/-!
# The tokens of a tree

Running a tree locates errors at the tokens in it. Those that a tree holds in the place of a node or
of a name count; a token inside of a literal is a value, which no error is located at. Going through
the items of a tree and desugaring a loop bring up no other tokens.

## Main definitions

* `Tree.Within` — every token of a tree satisfies a property

## Main results

* `Tree.Within.items`, `Tree.within_desugarFor` — the trees that come out of a tree
-/

namespace Scriptlet.Tree

variable {P : Token → Prop}

mutual

/-- Every token of a tree satisfies `P`, except for those inside of literals, which are values. -/
def Within (P : Token → Prop) : Tree → Prop
  | atom _ | object _ | literal _ => True
  | token t => P t
  | list items => WithinItems P items
  | grouping e => Within P e
  | unary op r => P op ∧ Within P r
  | binary l op r => Within P l ∧ P op ∧ Within P r
  | logical l op r => Within P l ∧ P op ∧ Within P r
  | varRef name => P name
  | assign name v => P name ∧ Within P v
  | call f paren args => Within P f ∧ P paren ∧ Within P args
  | index t bracket i => Within P t ∧ P bracket ∧ Within P i
  | assignIndex t bracket i v => Within P t ∧ P bracket ∧ Within P i ∧ Within P v
  | exprStmt e => Within P e
  | printStmt e => Within P e
  | varDecl name e => P name ∧ Within P e
  | block ss => Within P ss
  | ifStmt c t e => Within P c ∧ Within P t ∧ Within P e
  | whileStmt c b => Within P c ∧ Within P b
  | forStmt i c n b => Within P i ∧ Within P c ∧ Within P n ∧ Within P b
  | funDecl name ps b => P name ∧ Within P ps ∧ Within P b
  | returnStmt keyword v => P keyword ∧ Within P v

/-- Every token of several trees satisfies `P`. -/
def WithinItems (P : Token → Prop) : List Tree → Prop
  | [] => True
  | t :: rest => Within P t ∧ WithinItems P rest

end

theorem withinItems_iff {items : List Tree} : WithinItems P items ↔ ∀ t ∈ items, t.Within P := by
  induction items with
  | nil => simp [WithinItems]
  | cons t rest ih => rw [WithinItems, ih, List.forall_mem_cons]

@[simp]
theorem within_list {items : List Tree} : (list items).Within P ↔ ∀ t ∈ items, t.Within P := by
  rw [Within, withinItems_iff]

/-- Going through a tree brings up no other tokens. -/
theorem Within.items {t : Tree} {items : List Tree} (h : t.Within P)
    (hitems : t.items? = some items) : ∀ i ∈ items, i.Within P := by
  cases t with
  | list =>
    cases hitems
    exact within_list.1 h
  -- the characters of a text and the keys of an object are texts, which hold no tokens
  | atom a =>
    cases a with
    | text s =>
      cases hitems
      intro i hi
      obtain ⟨c, -, rfl⟩ := List.mem_map.1 hi
      trivial
    | _ => cases hitems
  | object fields =>
    cases hitems
    intro i hi
    obtain ⟨field, -, rfl⟩ := List.mem_map.1 hi
    trivial
  | _ => cases hitems

theorem within_desugarFor {i c n b : Tree} (h : (forStmt i c n b).Within P) :
    (desugarFor i c n b).Within P := by
  obtain ⟨hi, hc, hn, hb⟩ := h
  have hbody : (if n.isNull then b else block (list [b, exprStmt n])).Within P := by
    split
    · exact hb
    · exact ⟨hb, hn, trivial⟩
  have hcondition : (if c.isNull then literal (atom (.bool true)) else c).Within P := by
    split
    · trivial
    · exact hc
  have hloop : (whileStmt _ _).Within P := ⟨hcondition, hbody⟩
  rw [desugarFor, Within]
  split
  · exact ⟨hloop, trivial⟩
  · exact ⟨hi, hloop, trivial⟩

/-- Trees are within all tokens. -/
theorem within_true (t : Tree) : t.Within fun _ => True := by
  induction t using Tree.rec (motive_2 := fun items => WithinItems (fun _ => True) items) <;>
    simp_all [Within, WithinItems]

end Scriptlet.Tree
