import Scriptlet.Diagnostic
import Scriptlet.Tree.Basic

/-!
# Tokens and trees without lines

What is left of a token when its line is forgotten, and of a tree when the lines of its tokens are.
A literal is left as it is: what it holds is a value of the program and no part of its text.

That a function depends on lines only in order to report them is said by way of this erasure: the
function commutes with it. The contract for steps with a state says so of the result, of the state
and of the reason for which a step ends early at once, and composes along the way steps do.

## Main definitions

* `Token.withoutLine`, `Tree.withoutLines`, `Diagnostic.withoutLine` — what is left without lines
* `Commutes` — a step on images of states yields the image of what the other step yields

## Main results

* `Commutes.bind` — the rule for steps one after the other
-/

namespace Scriptlet

/-! ### Erasing lines -/

/-- A token whose line is forgotten. -/
def Token.withoutLine (t : Token) : Token := { t with line := .null }

namespace Token

@[simp]
theorem kind_withoutLine (t : Token) : t.withoutLine.kind = t.kind := rfl

@[simp]
theorem lexeme_withoutLine (t : Token) : t.withoutLine.lexeme = t.lexeme := rfl

@[simp]
theorem literal_withoutLine (t : Token) : t.withoutLine.literal = t.literal := rfl

@[simp]
theorem text_withoutLine (t : Token) : t.withoutLine.text = t.text := rfl

end Token

/-- A diagnostic whose line is forgotten. -/
def Diagnostic.withoutLine (d : Diagnostic) : Diagnostic := { d with line := .null }

namespace Tree

mutual

/-- A tree whose tokens have forgotten their lines; literals keep what they hold. -/
def withoutLines : Tree → Tree
  | atom a => atom a
  | object fields => object fields
  | token t => token t.withoutLine
  | list items => list (withoutLinesItems items)
  | literal v => literal v
  | grouping e => grouping (withoutLines e)
  | unary op r => unary op.withoutLine (withoutLines r)
  | binary l op r => binary (withoutLines l) op.withoutLine (withoutLines r)
  | logical l op r => logical (withoutLines l) op.withoutLine (withoutLines r)
  | varRef name => varRef name.withoutLine
  | assign name v => assign name.withoutLine (withoutLines v)
  | call f paren args => call (withoutLines f) paren.withoutLine (withoutLines args)
  | index t bracket i => index (withoutLines t) bracket.withoutLine (withoutLines i)
  | assignIndex t bracket i v =>
    assignIndex (withoutLines t) bracket.withoutLine (withoutLines i) (withoutLines v)
  | exprStmt e => exprStmt (withoutLines e)
  | printStmt e => printStmt (withoutLines e)
  | varDecl name e => varDecl name.withoutLine (withoutLines e)
  | block ss => block (withoutLines ss)
  | ifStmt c t e => ifStmt (withoutLines c) (withoutLines t) (withoutLines e)
  | whileStmt c b => whileStmt (withoutLines c) (withoutLines b)
  | forStmt i c n b =>
    forStmt (withoutLines i) (withoutLines c) (withoutLines n) (withoutLines b)
  | funDecl name ps b => funDecl name.withoutLine (withoutLines ps) (withoutLines b)
  | returnStmt keyword v => returnStmt keyword.withoutLine (withoutLines v)

/-- The items of a list whose tokens have forgotten their lines. -/
def withoutLinesItems : List Tree → List Tree
  | [] => []
  | t :: rest => withoutLines t :: withoutLinesItems rest

end

theorem withoutLinesItems_eq (ts : List Tree) : withoutLinesItems ts = ts.map withoutLines := by
  induction ts with
  | nil => rfl
  | cons t rest ih => rw [withoutLinesItems, List.map_cons, ih]

@[simp]
theorem withoutLines_list (items : List Tree) :
    (list items).withoutLines = list (items.map withoutLines) := by
  rw [withoutLines, withoutLinesItems_eq]

/-- The kind of a tree has nothing to do with lines. -/
@[simp]
theorem label_withoutLines (t : Tree) : t.withoutLines.label = t.label := by
  cases t <;> rfl

@[simp]
theorem isNull_withoutLines (t : Tree) : t.withoutLines.isNull = t.isNull := by
  cases t <;> rfl

theorem items?_withoutLines (t : Tree) :
    t.withoutLines.items? = t.items?.map (·.map withoutLines) := by
  cases t with
  | list items => simp [items?]
  -- a text and a raw object are gone through as texts, which have no lines
  | atom a => cases a <;> simp [withoutLines, items?, Function.comp_def]
  | object fields => simp [withoutLines, items?, Function.comp_def]
  | _ => rfl

/-- A `for` loop without lines stands for the block without lines. -/
theorem withoutLines_desugarFor (i c n b : Tree) :
    (desugarFor i c n b).withoutLines =
      desugarFor i.withoutLines c.withoutLines n.withoutLines b.withoutLines := by
  simp only [desugarFor, isNull_withoutLines]
  cases i.isNull <;> cases c.isNull <;> cases n.isNull <;> simp [withoutLines, withoutLinesItems]

end Tree

/-! ### Commuting steps -/

section Commutes

variable {ε σ α β γ δ : Type}

/-- Where `p` ends with a result, `q` on the image of the state ends with the image of the result;
where `p` ends early, so does `q`. The state that `q` leaves is the image of the one `p` leaves. -/
def Commutes (onError : ε → ε) (onState : σ → σ) (g : α → β) (p : EStateM ε σ α)
    (q : EStateM ε σ β) : Prop :=
  ∀ s, q (onState s) = match p s with
    | .ok a s' => .ok (g a) (onState s')
    | .error e s' => .error (onError e) (onState s')

namespace Commutes

variable {onError : ε → ε} {onState : σ → σ} {g : α → β} {k : γ → δ} {p p' : EStateM ε σ α}
  {q q' : EStateM ε σ β}

theorem pure (a : α) : Commutes onError onState g (pure a) (pure (g a)) := fun _ => rfl

theorem throw (e : ε) :
    Commutes onError onState g (throw e : EStateM ε σ α) (throw (onError e)) := fun _ => rfl

/-- Steps one after the other commute if each does, the second for every result of the first. -/
theorem bind {f : α → EStateM ε σ γ} {f' : β → EStateM ε σ δ}
    (h : Commutes onError onState g p q) (hf : ∀ a, Commutes onError onState k (f a) (f' (g a))) :
    Commutes onError onState k (p >>= f) (q >>= f') := by
  intro s
  change EStateM.bind q f' (onState s) = match EStateM.bind p f s with
    | .ok a s' => .ok (k a) (onState s')
    | .error e s' => .error (onError e) (onState s')
  simp only [EStateM.bind, h s]
  cases p s with
  | ok a s' => exact hf a s'
  | error e s' => rfl

/-- A step whose result is only put into shape. -/
theorem map {f : α → γ} {f' : β → δ} (h : Commutes onError onState g p q)
    (hf : ∀ a, f' (g a) = k (f a)) :
    Commutes onError onState k (p >>= fun a => Pure.pure (f a))
      (q >>= fun b => Pure.pure (f' b)) := by
  refine h.bind fun a => ?_
  rw [hf a]
  exact pure (f a)

theorem ite {c : Prop} [Decidable c] (h : Commutes onError onState g p q)
    (h' : Commutes onError onState g p' q') :
    Commutes onError onState g (if c then p else p') (if c then q else q') := by
  split
  · exact h
  · exact h'

theorem modify {f f' : σ → σ} (h : ∀ s, f' (onState s) = onState (f s)) :
    Commutes onError onState id (modify f : EStateM ε σ Unit) (modify f') := by
  intro s
  change EStateM.Result.ok () (f' (onState s)) = .ok () (onState (f s))
  rw [h]

theorem modifyGet {f f' : σ → α × σ} (h : ∀ s, f' (onState s) = ((f s).1, onState (f s).2)) :
    Commutes onError onState id (modifyGet f : EStateM ε σ α) (modifyGet f') := by
  intro s
  change EStateM.Result.ok (f' (onState s)).1 (f' (onState s)).2 =
    .ok (f s).1 (onState (f s).2)
  rw [h]

end Commutes

end Commutes

end Scriptlet
