import Scriptlet.Eval.Scope

/-!
# Looking names up

A name is looked up along the chain of parents. What it resolves to depends only on the parents of
the scopes and on which of them bind the name, so setting a name that is bound changes what a scope
binds it to and nothing else: no other binding, and not where any name is found.

## Main definitions

* `Heap.own?` — what a scope itself binds a name to
* `Heap.Sets` — one heap is the other with a single binding set

## Main results

* `Heap.resolve?_define` — setting a name that is bound changes what no name resolves to
* `Heap.get?_define_of_resolve?` — a name that was assigned to has its new value
* `Heap.sets_define` — defining a name sets a single binding
-/

namespace Scriptlet

variable {V : Type}

/-! ### Bindings of a scope -/

theorem Scope.binds_define (s : Scope V) (x y : Atom) (v : V) :
    (s.define x v).binds y = (x.same y || s.binds y) := by
  rw [Scope.binds, Scope.get?_define]
  split
  · next hsame => simp [hsame]
  · next hsame => simp [hsame, Scope.binds]

/-- A name that is the same as one that is bound is bound. -/
theorem Scope.binds_of_same {s : Scope V} {x y : Atom} (hsame : x.same y) (hx : s.binds x = true) :
    s.binds y = true := by
  rw [Scope.binds, Scope.get?, ← Scope.find?_congr hsame]
  exact hx

/-- What looking up a name sees of a scope: the parent, and whether the scope binds the name. -/
def Scope.outline (x : Atom) (s : Scope V) : Option Nat × Bool := (s.parent, s.binds x)

namespace Heap

variable {h : Heap V} {x : Atom} {i j : Nat}

/-! ### Where a name is found -/

/-- A name is bound in the scope that it resolves to. -/
theorem binds_of_resolve? (hresolve : h.resolve? x i = some j) :
    ∃ s, h.scopes[j]? = some s ∧ s.binds x = true := by
  fun_induction resolve? h x i with
  | case1 => cases hresolve
  | case2 i s hs hbinds =>
    cases hresolve
    exact ⟨s, hs, hbinds⟩
  | case3 => cases hresolve
  | case4 _ _ _ _ _ _ _ ih => exact ih hresolve
  | case5 => cases hresolve

/-- What a name resolves to depends only on the parents of the scopes and on which of them bind the
name. -/
theorem resolve?_congr {h' : Heap V} {y : Atom}
    (hsame : ∀ i : Nat, h'.scopes[i]?.map (Scope.outline y) = h.scopes[i]?.map (Scope.outline y))
    (i : Nat) : h'.resolve? y i = h.resolve? y i := by
  have hscope {i : Nat} {s : Scope V} (hs : h.scopes[i]? = some s) :
      ∃ s', h'.scopes[i]? = some s' ∧ s'.parent = s.parent ∧ s'.binds y = s.binds y := by
    have houtline := hsame i
    rw [hs, Option.map_some] at houtline
    obtain ⟨s', hs', heq⟩ := Option.map_eq_some_iff.1 houtline
    exact ⟨s', hs', Prod.mk.inj heq⟩
  fun_induction resolve? h y i with
  | case1 i hnone =>
    have hnone' : h'.scopes[i]? = none := by simpa [hnone] using hsame i
    rw [resolve?, hnone']
  | case2 i s hs hbinds =>
    obtain ⟨s', hs', -, hbinds'⟩ := hscope hs
    rw [resolve?, hs']
    exact if_pos (hbinds'.trans hbinds)
  | case3 i s hs hbinds hparent =>
    obtain ⟨s', hs', hparent', hbinds'⟩ := hscope hs
    rw [resolve?, hs']
    simp [hparent', hbinds', hparent, hbinds]
  | case4 i s hs hbinds p hparent hlt ih =>
    obtain ⟨s', hs', hparent', hbinds'⟩ := hscope hs
    rw [resolve?, hs']
    simp [hparent', hbinds', hparent, hbinds, hlt, ih]
  | case5 i s hs hbinds p hparent hlt =>
    obtain ⟨s', hs', hparent', hbinds'⟩ := hscope hs
    rw [resolve?, hs']
    simp [hparent', hbinds', hparent, hbinds, hlt]

/-- Setting a name in a scope that binds it changes what no name resolves to. -/
theorem resolve?_define {s : Scope V} (hs : h.scopes[j]? = some s) (hbinds : s.binds x = true)
    (v : V) (y : Atom) (i : Nat) : (h.define j x v).resolve? y i = h.resolve? y i := by
  apply resolve?_congr
  intro k
  rw [Heap.define, Array.getElem?_modify]
  by_cases hk : j = k
  · subst hk
    have hsame : (s.define x v).binds y = s.binds y := by
      rw [Scope.binds_define]
      cases hxy : x.same y with
      | false => rfl
      | true => exact (Scope.binds_of_same hxy hbinds).symm
    rw [if_pos rfl, hs]
    exact congrArg some (Prod.ext rfl hsame)
  · rw [if_neg hk]

/-! ### Single bindings -/

/-- What the scope with number `i` itself binds a name to. -/
def own? (h : Heap V) (i : Nat) (x : Atom) : Option V := (h.scopes[i]?).bind (·.get? x)

theorem get?_eq (h : Heap V) (i : Nat) (x : Atom) :
    h.get? i x = (h.resolve? x i).bind (h.own? · x) := rfl

theorem binds_eq_isSome_own? (h : Heap V) (i : Nat) (x : Atom) :
    h.binds i x = (h.own? i x).isSome := by
  rw [binds, own?]
  cases h.scopes[i]? <;> rfl

/-- A new scope binds nothing. -/
theorem own?_create (h : Heap V) (parent : Option Nat) (i : Nat) (x : Atom) :
    (h.create parent).own? i x = h.own? i x := by
  rw [own?, own?, create, Array.getElem?_push]
  split
  · next hi =>
    rw [hi, Array.getElem?_eq_none (Nat.le_refl _)]
    rfl
  · rfl

theorem parent_create (h : Heap V) (parent : Option Nat) (i : Nat) :
    ((h.create parent).scopes[i]?).map Scope.parent =
      if i = h.scopes.size then some parent else (h.scopes[i]?).map Scope.parent := by
  rw [create, Array.getElem?_push]
  split <;> rfl

/-- The second heap is the first with a single binding set, that of `x` in the scope with number
`j`. -/
structure Sets (h h' : Heap V) (j : Nat) (x : Atom) (v : V) : Prop where
  parent : ∀ i : Nat, (h'.scopes[i]?).map Scope.parent = (h.scopes[i]?).map Scope.parent
  own : ∀ i y, h'.own? i y = if i = j ∧ x.same y then some v else h.own? i y

/-- Defining a name sets a single binding. -/
theorem sets_define (hj : j < h.scopes.size) (x : Atom) (v : V) :
    h.Sets (h.define j x v) j x v := by
  constructor
  · intro i
    rw [define, Array.getElem?_modify]
    split
    · rw [Option.map_map]
      rfl
    · rfl
  · intro i y
    rw [own?, own?, define, Array.getElem?_modify]
    by_cases hij : j = i
    · subst hij
      rw [if_pos rfl, Array.getElem?_eq_getElem hj, Option.map_some, Option.bind_some,
        Option.bind_some, Scope.get?_define]
      simp
    · rw [if_neg hij, if_neg fun hboth => hij hboth.1.symm]

/-- Setting a name that is bound changes what is read where the name stands for that binding, and
nowhere else. -/
theorem get?_define {s : Scope V} (hs : h.scopes[j]? = some s) (hbinds : s.binds x = true) (v : V)
    (i : Nat) (y : Atom) : (h.define j x v).get? i y =
      if x.same y ∧ h.resolve? y i = some j then some v else h.get? i y := by
  have hsets := h.sets_define (Array.getElem?_eq_some_iff.1 hs).1 x v
  rw [get?_eq, get?_eq, resolve?_define hs hbinds]
  cases hresolve : h.resolve? y i with
  | none => simp
  | some k =>
    rw [Option.bind_some, Option.bind_some, hsets.own]
    simp [and_comm]

/-- A name has the value that was given to it where it resolves to. -/
theorem get?_define_of_resolve? (hresolve : h.resolve? x i = some j) (v : V) :
    (h.define j x v).get? i x = some v := by
  obtain ⟨s, hs, hbinds⟩ := binds_of_resolve? hresolve
  rw [get?_define hs hbinds, if_pos ⟨Atom.same_iff.2 rfl, hresolve⟩]

end Heap

end Scriptlet
