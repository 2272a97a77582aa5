import Scriptlet.Proofs.Eval.Frame

/-!
# Assigning to a position of a text

A text is never changed in place: assigning to a position of a variable builds a new text and binds
the variable to it. The text is read before the index and the value are evaluated and written back
afterwards. What the two operands do to the variable in between is therefore undone, save at the
position itself. The new text is the current one with a single character replaced exactly if the
operands left all other characters as they were.

## Main definitions

* `SameExcept` — texts that agree at all positions but one

## Main results

* `Eval.eval_assignIndex_eq_ok` — what a successful assignment to a position did
* `Eval.assignIndex_replaces_one_iff` — when it replaces one character of the current text
-/

namespace Scriptlet

/-! ### Texts that differ at one position -/

/-- The texts are equally long and agree at all positions but the given one. -/
def SameExcept (position : Nat) (s t : String) : Prop :=
  s.length = t.length ∧ ∀ k, k ≠ position → s.toList[k]? = t.toList[k]?

/-- Texts agree but for a position exactly if they are the same once it holds the same character. -/
theorem sameExcept_iff_set_eq {position : Nat} {s t : String} (c : Char)
    (hposition : position < t.length) :
    SameExcept position s t ↔ s.toList.set position c = t.toList.set position c := by
  constructor
  · intro ⟨hlength, hsame⟩
    have hlength' : s.toList.length = t.toList.length := by
      rw [String.length_toList, String.length_toList, hlength]
    apply List.ext_getElem?
    intro k
    by_cases hk : k = position
    · have ht : position < t.toList.length := by rwa [String.length_toList]
      subst hk
      rw [List.getElem?_set_self (hlength' ▸ ht), List.getElem?_set_self ht]
    · rw [List.getElem?_set_ne (Ne.symm hk), List.getElem?_set_ne (Ne.symm hk)]
      exact hsame k hk
  · intro heq
    have hlength := congrArg List.length heq
    rw [List.length_set, List.length_set, String.length_toList, String.length_toList] at hlength
    refine ⟨hlength, fun k hk => ?_⟩
    rw [← List.getElem?_set_ne (Ne.symm hk) (a := c), heq, List.getElem?_set_ne (Ne.symm hk)]

namespace Eval

/-! ### Successful steps -/

/-- Steps one after the other succeed one after the other. -/
theorem exists_of_bind_eq_ok {α β : Type} {step : Eval α} {f : α → Eval β} {m m' : Machine} {b : β}
    (h : (step >>= f) m = .ok b m') : ∃ a m₁, step m = .ok a m₁ ∧ f a m₁ = .ok b m' := by
  change EStateM.bind step f m = _ at h
  rw [EStateM.bind] at h
  cases hstep : step m with
  | ok a m₁ =>
    rw [hstep] at h
    exact ⟨a, m₁, rfl, h⟩
  | error abort m₁ =>
    rw [hstep] at h
    cases h

theorem eq_ok_of_located {α : Type} {t : Token} {result : Except RuntimeCause α} {m m' : Machine}
    {a : α} (h : located t result m = .ok a m') : result = .ok a ∧ m' = m := by
  cases result with
  | ok b =>
    cases h
    exact ⟨rfl, rfl⟩
  | error cause => cases h

/-- A position is found in a text, by a whole number inside it. -/
theorem eq_text_of_indexPosition {a i : Value} {cs : List Char} {position : Nat}
    (h : indexPosition a i = .ok (cs, position)) :
    ∃ s : String, a = .text s ∧ cs = s.toList ∧ position < s.length ∧
      i.number?.bind Number.whole? = some (position : Int) := by
  unfold indexPosition at h
  split at h
  · cases h
  · next s hs =>
    split at h
    · cases h
    · next k hk =>
      split at h
      · next hbounds =>
        cases h
        have hnat : ((k.toNat : Nat) : Int) = k := Int.toNat_of_nonneg hbounds.1
        refine ⟨s, ?_, rfl, by omega, by rw [hk, hnat]⟩
        unfold Value.text? at hs
        split at hs
        · cases hs
          rfl
        · cases hs
      · cases h

theorem eq_text_of_singleChar? {v : Value} {c : Char} (h : singleChar? v = some c) :
    v = .text (String.singleton c) := by
  unfold singleChar? at h
  split at h
  · next c' hc =>
    cases h
    obtain ⟨s, hs, hlist⟩ := Option.map_eq_some_iff.1 hc
    have htext : s = String.singleton c := by
      rw [← String.toList_inj, hlist, String.toList_singleton]
    unfold Value.text? at hs
    split at hs
    · cases hs
      rw [htext]
    · cases hs
  · cases h

variable {settings : Settings} {d scope : Nat} {name bracket : Token} {index value : Tree}
  {m m' : Machine} {v : Value}

/-- What a successful assignment to a position did: it read a text, evaluated the index and the
value in this order, and bound the name to the text that it had read with the character at the
position replaced. -/
theorem eval_assignIndex_eq_ok
    (h : eval settings (d + 1) (.assignIndex (.varRef name) bracket index value) scope m =
      .ok v m') :
    ∃ (x : Atom) (before : String) (i : Value) (m₁ m₂ : Machine) (position target : Nat) (c : Char),
      name.name? = some x ∧ m.heap.get? scope x = some (.text before) ∧
      eval settings d index scope m = .ok i m₁ ∧ eval settings d value scope m₁ = .ok v m₂ ∧
      i.number?.bind Number.whole? = some (position : Int) ∧ position < before.length ∧
      v = .text (String.singleton c) ∧ m₂.heap.resolve? x scope = some target ∧
      m' = { m₂ with heap := m₂.heap.define target x (replaceAt before.toList position c) } := by
  simp only [eval] at h
  obtain ⟨a, m₀, hread, h⟩ := exists_of_bind_eq_ok h
  obtain ⟨i, m₁, hindex, h⟩ := exists_of_bind_eq_ok h
  obtain ⟨w, m₂, hvalue, h⟩ := exists_of_bind_eq_ok h
  obtain ⟨⟨cs, position⟩, m₃, hlocated, h⟩ := exists_of_bind_eq_ok h
  obtain ⟨hposition, rfl⟩ := eq_ok_of_located hlocated
  obtain ⟨before, rfl, rfl, hlt, hwhole⟩ := eq_text_of_indexPosition hposition
  cases hc : singleChar? w with
  | none =>
    simp only [hc] at h
    cases h
  | some c =>
    simp only [hc] at h
    obtain ⟨_, m₄, hassign, h⟩ := exists_of_bind_eq_ok h
    cases h
    rw [read_apply] at hread
    rw [assign_apply] at hassign
    cases hx : name.name? with
    | none =>
      rw [hx] at hread
      cases hread
    | some x =>
      simp only [hx] at hread hassign
      cases hget : m.heap.get? scope x with
      | none =>
        rw [hget] at hread
        cases hread
      | some b =>
        rw [hget] at hread
        cases hread
        cases hresolve : m₃.heap.resolve? x scope with
        | none =>
          rw [hresolve] at hassign
          cases hassign
        | some target =>
          rw [hresolve] at hassign
          cases hassign
          exact ⟨x, before, i, m₁, m₃, position, target, c, rfl, hget, hindex, hvalue, hwhole, hlt,
            eq_text_of_singleChar? hc, hresolve, rfl⟩

/-- An assignment to a position of a text that succeeds binds the name to the text that it was bound
to before the operands were evaluated, with the character at the index replaced by the value. This
is the text that the name was bound to after the operands were evaluated, with one character
replaced, exactly if the operands left the text as it was at all other positions. -/
theorem assignIndex_replaces_one_iff
    (h : eval settings (d + 1) (.assignIndex (.varRef name) bracket index value) scope m =
      .ok v m') :
    ∃ (x : Atom) (before : String) (i : Value) (m₁ m₂ : Machine) (position : Nat) (c : Char),
      name.name? = some x ∧ m.heap.get? scope x = some (.text before) ∧
      eval settings d index scope m = .ok i m₁ ∧ eval settings d value scope m₁ = .ok v m₂ ∧
      i.number?.bind Number.whole? = some (position : Int) ∧ position < before.length ∧
      v = .text (String.singleton c) ∧
      m'.heap.get? scope x = some (replaceAt before.toList position c) ∧
      ((∃ current, m₂.heap.get? scope x = some (.text current) ∧
          m'.heap.get? scope x = some (replaceAt current.toList position c)) ↔
        ∃ current, m₂.heap.get? scope x = some (.text current) ∧
          SameExcept position current before) := by
  obtain ⟨x, before, i, m₁, m₂, position, target, c, hx, hget, hindex, hvalue, hwhole, hlt, hv,
    hresolve, rfl⟩ := eval_assignIndex_eq_ok h
  have hfinal := Heap.get?_define_of_resolve? hresolve (replaceAt before.toList position c)
  refine ⟨x, before, i, m₁, m₂, position, c, hx, hget, hindex, hvalue, hwhole, hlt, hv, hfinal, ?_⟩
  have hcurrent (current : String) :
      some (replaceAt before.toList position c) = some (replaceAt current.toList position c) ↔
        SameExcept position current before := by
    rw [sameExcept_iff_set_eq c hlt]
    simp only [replaceAt, Option.some.injEq, Value.tree.injEq, Tree.atom.injEq, Atom.text.injEq,
      String.ofList_inj]
    exact eq_comm
  simp only [hfinal, hcurrent]

/-! ### Assignments inside one another -/

/-- A state in which the global name `s` is bound to a text. -/
def withText (s : String) : Machine :=
  { Machine.fresh 0 with
    heap := Machine.freshHeap.define Machine.globalScope (.text "s") (.text s) }

/-- Assigns to a position of the text that `s` is bound to. -/
def assignAt (position : Float) (value : Tree) : Tree :=
  .assignIndex (.varRef (.make .identifier "s" .null 1)) (.make .rightBracket "]" .null 1)
    (.literal (.atom (.float position))) value

/-- The text that `s` is bound to after a step that succeeded. -/
def textAfter? {α : Type} : EStateM.Result Abort Machine α → Option String
  | .ok _ m => (m.heap.get? Machine.globalScope (.text "s")).bind Value.text?
  | .error _ _ => none

theorem exists_of_textAfter? {α : Type} {result : EStateM.Result Abort Machine α} {s : String}
    (h : textAfter? result = some s) :
    ∃ a m, result = .ok a m ∧ m.heap.get? Machine.globalScope (.text "s") = some (.text s) := by
  cases result with
  | error abort m => cases h
  | ok a m =>
    obtain ⟨w, hw, htext⟩ := Option.bind_eq_some_iff.1 h
    refine ⟨a, m, rfl, hw.trans (congrArg some ?_)⟩
    unfold Value.text? at htext
    split at htext
    · cases htext
      rfl
    · cases htext

theorem eq_of_eval_literal {literal : Tree} {i : Value} {m₁ : Machine}
    (h : eval settings (d + 1) (.literal literal) scope m = .ok i m₁) :
    i = .tree literal ∧ m₁ = m := by
  rw [eval] at h
  cases h
  exact ⟨rfl, rfl⟩

theorem whole?_zero : (Value.number 0).number?.bind Number.whole? = some 0 := by decide +kernel

/-- An assignment in the value of an assignment to the same position loses nothing. -/
theorem assignIndex_replaces_one_iff_nested :
    let settings : Settings := { traceLevel := 0, hook := .absent, clock := fun _ => 0 }
    let inner := assignAt 0 (.literal (.atom (.text "z")))
    ∃ v m' current c,
      eval settings 4 (assignAt 0 inner) Machine.globalScope (withText "cat") = .ok v m' ∧
      textAfter? (eval settings 3 inner Machine.globalScope (withText "cat")) = some current ∧
      v = .text (String.singleton c) ∧
      m'.heap.get? Machine.globalScope (.text "s") = some (replaceAt current.toList 0 c) := by
  intro settings inner
  have hinner : textAfter? (eval settings 3 inner Machine.globalScope (withText "cat")) =
      some "zat" := by decide +kernel
  have houter : textAfter? (eval settings 4 (assignAt 0 inner) Machine.globalScope
      (withText "cat")) = some "zat" := by decide +kernel
  obtain ⟨v, m', hrun, -⟩ := exists_of_textAfter? houter
  obtain ⟨x, before, i, m₁, m₂, position, c, hx, hget, hindex, hvalue, hwhole, -, hv, -, hiff⟩ :=
    assignIndex_replaces_one_iff hrun
  obtain rfl : .text "s" = x := Option.some.inj hx
  obtain ⟨rfl, rfl⟩ := eq_of_eval_literal hindex
  obtain ⟨w, m, hrun', hcurrent⟩ := exists_of_textAfter? hinner
  obtain ⟨rfl, rfl⟩ := EStateM.Result.ok.inj (hrun'.symm.trans hvalue)
  obtain rfl : position = 0 := by simpa using hwhole.symm.trans whole?_zero
  have hbefore : textAfter? (.ok () (withText "cat")) = some before := by
    rw [textAfter?, hget]
    rfl
  have hcat : textAfter? (.ok () (withText "cat")) = some "cat" := by decide +kernel
  obtain rfl : "cat" = before := Option.some.inj (hcat.symm.trans hbefore)
  have hsame : SameExcept 0 "zat" "cat" := (sameExcept_iff_set_eq 'z' (by decide)).2 rfl
  obtain ⟨current, hget', hfinal⟩ := hiff.2 ⟨"zat", hcurrent, hsame⟩
  obtain rfl : "zat" = current := by simpa using hcurrent.symm.trans hget'
  exact ⟨_, m', "zat", c, hrun, hinner, hv, hfinal⟩

/-- An assignment in the value of an assignment to another position is lost: not every assignment
that succeeds leaves the current text with a single character replaced. -/
theorem assignIndex_loses_update :
    ¬ ∀ (settings : Settings) (d scope : Nat) (name bracket : Token) (index value : Tree)
        (m m' : Machine) (v : Value),
      eval settings (d + 1) (.assignIndex (.varRef name) bracket index value) scope m = .ok v m' →
      ∃ (x : Atom) (i : Value) (m₁ m₂ : Machine) (position : Nat) (c : Char) (current : String),
        name.name? = some x ∧ eval settings d index scope m = .ok i m₁ ∧
        eval settings d value scope m₁ = .ok v m₂ ∧
        i.number?.bind Number.whole? = some (position : Int) ∧
        m₂.heap.get? scope x = some (.text current) ∧
        m'.heap.get? scope x = some (replaceAt current.toList position c) := by
  intro hall
  let settings : Settings := { traceLevel := 0, hook := .absent, clock := fun _ => 0 }
  let inner := assignAt 1 (.literal (.atom (.text "z")))
  have hinner : textAfter? (eval settings 3 inner Machine.globalScope (withText "ab")) =
      some "az" := by decide +kernel
  have houter : textAfter? (eval settings 4 (assignAt 0 inner) Machine.globalScope
      (withText "ab")) = some "zb" := by decide +kernel
  obtain ⟨v, m', hrun, hfinal⟩ := exists_of_textAfter? houter
  obtain ⟨x, i, m₁, m₂, position, c, current, hx, hindex, hvalue, hwhole, hget, hfinal'⟩ :=
    hall _ _ _ _ _ _ _ _ _ _ hrun
  obtain rfl : .text "s" = x := Option.some.inj hx
  obtain ⟨rfl, rfl⟩ := eq_of_eval_literal hindex
  obtain ⟨w, m, hrun', hcurrent⟩ := exists_of_textAfter? hinner
  obtain ⟨rfl, rfl⟩ := EStateM.Result.ok.inj (hrun'.symm.trans hvalue)
  obtain rfl : position = 0 := by simpa using hwhole.symm.trans whole?_zero
  obtain rfl : "az" = current := by simpa using hcurrent.symm.trans hget
  have hlost : "zb" = String.ofList ("az".toList.set 0 c) := by
    simpa [replaceAt] using hfinal.symm.trans hfinal'
  have hsecond := congrArg (fun s : String => s.toList[1]?) hlost
  simp at hsecond

end Eval

end Scriptlet
