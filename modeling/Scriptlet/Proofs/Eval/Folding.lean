import Mathlib.Data.List.Forall2
import Scriptlet.Proofs.Eval.Contract

/-!
# Folding scopes away

A scope that binds nothing and never will is of no use: whoever looks into it finds what its parent
sees. Two heaps can therefore serve a program alike although one has such scopes and the other does
not. The first heap is folded into the second: each of its scopes stands at a place in the second
heap. The first scope at a place has the same bindings as what is there; each further one is hollow,
that is, it binds nothing and its parent stands at the same place.

Names resolve alike in both heaps, making a scope and binding a name in the first scope of a place
keep them folded, and so does making a hollow scope in the first heap alone.

## Main definitions

* `Leads` — a scope is the first at its place
* `Value.Moved` — values that are the same but for the numbers of scopes
* `Heap.Folds`, `Machine.Folds` — a heap or a state that is folded into another
* `Heap.Closed` — heaps in which everything that is referred to is there

## Main results

* `Heap.Folds.resolve`, `Heap.Folds.get` — names are resolved alike
* `Heap.Folds.create`, `Heap.Folds.hollow`, `Heap.Folds.define` — what keeps heaps folded
* `Heap.Closed.folds` — a closed heap is folded into itself
-/

namespace Scriptlet

/-! ### Places -/

/-- Scope `i` stands at place `j`, and no scope before it does. -/
structure Leads (places : List Nat) (i j : Nat) : Prop where
  place : places[i]? = some j
  first : ∀ k < i, places[k]? ≠ some j

section Places

variable {places later : List Nat} {i j k : Nat}

theorem place_later (hlater : places <+: later) (hi : places[i]? = some j) :
    later[i]? = some j := by
  obtain ⟨new, rfl⟩ := hlater
  rw [List.getElem?_append_left (List.getElem?_eq_some_iff.1 hi).1]
  exact hi

/-- A new place comes last, and the others stay. -/
theorem getElem?_append_singleton (hi : (places ++ [k])[i]? = some j) :
    places[i]? = some j ∨ (i = places.length ∧ j = k) := by
  rw [List.getElem?_append] at hi
  split at hi
  · exact .inl hi
  · next hlt =>
    rw [List.getElem?_singleton] at hi
    split at hi
    · next hzero => exact .inr ⟨by omega, (Option.some.inj hi).symm⟩
    · cases hi

theorem Leads.mono (h : Leads places i j) (hlater : places <+: later) : Leads later i j := by
  refine ⟨place_later hlater h.place, fun k hk heq => ?_⟩
  have hlt : k < places.length := Nat.lt_trans hk (List.getElem?_eq_some_iff.1 h.place).1
  have hkept := place_later hlater (List.getElem?_eq_getElem hlt)
  rw [hkept] at heq
  exact h.first k hk ((List.getElem?_eq_getElem hlt).trans heq)

theorem Leads.eq (h : Leads places i j) (h' : Leads places k j) : i = k := by
  rcases Nat.lt_trichotomy i k with hlt | heq | hgt
  · exact absurd h.place (h'.first i hlt)
  · exact heq
  · exact absurd h'.place (h.first k hgt)

end Places

/-! ### Values and bindings -/

/-- Values that are the same but for the scopes of functions, which have moved to their places. -/
inductive Value.Moved (places : List Nat) : Value → Value → Prop
  | tree (t : Tree) : Moved places (.tree t) (.tree t)
  | native (n : Native) : Moved places (.native n) (.native n)
  | closure {c : Closure} {j : Nat} : places[c.scope]? = some j →
      Moved places (.closure c) (.closure { c with scope := j })

namespace Value.Moved

variable {places later : List Nat} {v v' w w' : Value}

theorem mono (h : Value.Moved places v v') (hlater : places <+: later) :
    Value.Moved later v v' := by
  cases h with
  | tree t => exact .tree t
  | native n => exact .native n
  | closure hplace => exact .closure (place_later hlater hplace)

theorem scope_lt {c : Closure} (h : Value.Moved places (.closure c) v) :
    c.scope < places.length := by
  cases h with
  | closure hplace => exact (List.getElem?_eq_some_iff.1 hplace).1

theorem isTruthy_eq (h : Value.Moved places v v') : v'.isTruthy = v.isTruthy := by
  cases h <;> rfl

theorem number?_eq (h : Value.Moved places v v') : v'.number? = v.number? := by
  cases h <;> rfl

theorem text?_eq (h : Value.Moved places v v') : v'.text? = v.text? := by
  cases h <;> rfl

theorem typeName_eq (h : Value.Moved places v v') : v'.typeName = v.typeName := by
  cases h <;> rfl

theorem display_eq (h : Value.Moved places v v') : v'.display = v.display := by
  cases h <;> rfl

theorem isEqual_eq (h : Value.Moved places v v') (hw : Value.Moved places w w') :
    v'.isEqual w' = v.isEqual w := by
  cases h <;> cases hw <;> rfl

end Value.Moved

/-- Bindings of the same names, in the same order, to values that have moved. -/
def BindingsMoved (places : List Nat) : List (Atom × Value) → List (Atom × Value) → Prop :=
  List.Forall₂ fun b b' => b.1 = b'.1 ∧ b.2.Moved places b'.2

namespace BindingsMoved

variable {places later : List Nat} {bs bs' : List (Atom × Value)}

theorem mono (h : BindingsMoved places bs bs') (hlater : places <+: later) :
    BindingsMoved later bs bs' :=
  List.Forall₂.imp (fun _ _ hb => ⟨hb.1, hb.2.mono hlater⟩) h

theorem exists_of_mem {b : Atom × Value} (h : BindingsMoved places bs bs') (hb : b ∈ bs) :
    ∃ b' ∈ bs', b.1 = b'.1 ∧ b.2.Moved places b'.2 := by
  induction h with
  | nil => cases hb
  | @cons c c' cs cs' hc _ ih =>
    obtain rfl | hmem := List.mem_cons.1 hb
    · exact ⟨c', List.mem_cons_self, hc⟩
    · obtain ⟨b', hb', hmoved⟩ := ih hmem
      exact ⟨b', List.mem_cons_of_mem _ hb', hmoved⟩

/-- A name has the same value in both, but for the numbers of scopes. -/
theorem find (h : BindingsMoved places bs bs') (x : Atom) :
    Option.Rel (Value.Moved places) (Scope.find? x bs) (Scope.find? x bs') := by
  induction h with
  | nil => exact .none
  | @cons b b' _ _ hb _ ih =>
    obtain ⟨y, v⟩ := b
    obtain ⟨y', v'⟩ := b'
    obtain ⟨rfl, hv⟩ := hb
    simp only [Scope.find?]
    split
    · exact .some hv
    · exact ih

theorem put (h : BindingsMoved places bs bs') (x : Atom) {v v' : Value}
    (hv : v.Moved places v') : BindingsMoved places (Scope.put x v bs) (Scope.put x v' bs') := by
  induction h with
  | nil => exact .cons ⟨rfl, hv⟩ .nil
  | @cons b b' _ _ hb hrest ih =>
    obtain ⟨y, w⟩ := b
    obtain ⟨y', w'⟩ := b'
    obtain ⟨rfl, hw⟩ := hb
    simp only [Scope.put]
    split
    · exact .cons ⟨rfl, hv⟩ hrest
    · exact .cons ⟨rfl, hw⟩ ih

end BindingsMoved

/-! ### Heaps -/

/-- The parents of a scope with number `i` and of one with number `j`: none, or scopes that were
made before, of which the second is the place of the first. -/
inductive ParentMoved (places : List Nat) (i j : Nat) : Option Nat → Option Nat → Prop
  | none : ParentMoved places i j none none
  | some {p q : Nat} : p < i → q < j → places[p]? = some q →
      ParentMoved places i j (some p) (some q)

theorem ParentMoved.mono {places later : List Nat} {i j : Nat} {p q : Option Nat}
    (h : ParentMoved places i j p q) (hlater : places <+: later) : ParentMoved later i j p q := by
  cases h with
  | none => exact .none
  | some hp hq hplace => exact .some hp hq (place_later hlater hplace)

theorem ParentMoved.lt {places : List Nat} {i j p : Nat} {q : Option Nat}
    (h : ParentMoved places i j (.some p) q) : p < i := by
  cases h with
  | some hp _ _ => exact hp

/-- How scope `i`, whose content is `s`, is folded into a heap in which it stands at place `j`. -/
inductive Scope.Folded (places : List Nat) (h : Heap Value) (i j : Nat) (s : Scope Value) : Prop
  /-- It binds nothing, and its parent stands at the same place. -/
  | hollow {p : Nat} : s.parent = some p → s.bindings = [] → p < i → places[p]? = some j →
      Folded places h i j s
  /-- It is the first at its place, and what is there binds the same. -/
  | own {s' : Scope Value} : Leads places i j → h.scopes[j]? = some s' →
      ParentMoved places i j s.parent s'.parent → BindingsMoved places s.bindings s'.bindings →
      Folded places h i j s

/-- The first heap is folded into the second: each of its scopes stands at its place, and there is
nothing else in the second. -/
structure Heap.Folds (places : List Nat) (h h' : Heap Value) : Prop where
  size : h.scopes.size = places.length
  mem_iff (j : Nat) : j ∈ places ↔ j < h'.scopes.size
  scope {i j : Nat} {s : Scope Value} : places[i]? = some j → h.scopes[i]? = some s →
    s.Folded places h' i j

/-- Parents were made before their children, and functions were declared in scopes that are
there. -/
structure Heap.Closed (h : Heap Value) : Prop where
  parent {i p : Nat} {s : Scope Value} : h.scopes[i]? = some s → s.parent = some p → p < i
  captured {i : Nat} {s : Scope Value} {x : Atom} {c : Closure} : h.scopes[i]? = some s →
    (x, .closure c) ∈ s.bindings → c.scope < h.scopes.size

namespace Scope.Folded

variable {places later : List Nat} {h h' : Heap Value} {i j : Nat} {s : Scope Value}

/-- A scope stays folded when there are more places, and the second heap keeps what it has. -/
theorem mono (hs : s.Folded places h i j) (hlater : places <+: later)
    (hkept : ∀ s' : Scope Value, h.scopes[j]? = some s' → h'.scopes[j]? = some s') :
    s.Folded later h' i j := by
  cases hs with
  | hollow hparent hbindings hp hplace =>
    exact .hollow hparent hbindings hp (place_later hlater hplace)
  | own hleads hs' hparent hbindings =>
    exact .own (hleads.mono hlater) (hkept _ hs') (hparent.mono hlater) (hbindings.mono hlater)

end Scope.Folded

namespace Heap

theorem getElem?_create_of_lt {h : Heap Value} {i : Nat} (hi : i < h.scopes.size)
    (parent : Option Nat) : (h.create parent).scopes[i]? = h.scopes[i]? := by
  rw [create, Array.getElem?_push, if_neg (Nat.ne_of_lt hi)]

theorem getElem?_create_size (h : Heap Value) (parent : Option Nat) :
    (h.create parent).scopes[h.scopes.size]? = some { parent, bindings := [] } := by
  rw [create, Array.getElem?_push, if_pos rfl]

namespace Folds

variable {places : List Nat} {h h' : Heap Value} {i j : Nat}

/-- A scope that stands somewhere is there. -/
theorem exists_scope (hh : h.Folds places h') (hi : places[i]? = some j) :
    ∃ s, h.scopes[i]? = some s := by
  have hlt : i < h.scopes.size := hh.size ▸ (List.getElem?_eq_some_iff.1 hi).1
  exact ⟨_, Array.getElem?_eq_getElem hlt⟩

theorem place_lt (hh : h.Folds places h') (hi : places[i]? = some j) : j < h'.scopes.size :=
  (hh.mem_iff j).1 (List.mem_of_getElem? hi)

/-- The first scope at a place has the same bindings as what is there. -/
theorem own_of_leads (hh : h.Folds places h') (hi : Leads places i j) :
    ∃ s s', h.scopes[i]? = some s ∧ h'.scopes[j]? = some s' ∧
      ParentMoved places i j s.parent s'.parent ∧
      BindingsMoved places s.bindings s'.bindings := by
  obtain ⟨s, hs⟩ := hh.exists_scope hi.place
  cases hh.scope hi.place hs with
  | hollow _ _ hp hplace => exact absurd hplace (hi.first _ hp)
  | own _ hs' hparent hbindings => exact ⟨s, _, hs, hs', hparent, hbindings⟩

/-- A name that is seen from a scope is bound by the first scope at some place, and as seen from
the place of the scope by what is there. -/
theorem resolve (hh : h.Folds places h') (x : Atom) (hi : places[i]? = some j) :
    Option.Rel (Leads places) (h.resolve? x i) (h'.resolve? x j) := by
  induction i using Nat.strongRecOn generalizing j with
  | ind i ih =>
    obtain ⟨s, hs⟩ := hh.exists_scope hi
    rw [resolve?, hs]
    cases hh.scope hi hs with
    -- a hollow scope passes the name on to its parent, which stands at the same place
    | hollow hparent hbindings hp hplace =>
      have hnone : s.binds x = false := by simp [Scope.binds, Scope.get?, hbindings, Scope.find?]
      simpa [hnone, hparent, hp] using ih _ hp hplace
    | @own s' hleads hs' hparent hbindings =>
      have hsame : s'.binds x = s.binds x := by
        have hfound := hbindings.find x
        simp only [Scope.binds, Scope.get?]
        generalize Scope.find? x s.bindings = found at hfound
        generalize Scope.find? x s'.bindings = found' at hfound
        cases hfound <;> rfl
      rw [resolve?, hs']
      simp only [hsame]
      cases s.binds x with
      | true => exact .some hleads
      | false =>
        generalize s.parent = parent at hparent
        generalize s'.parent = parent' at hparent
        cases hparent with
        | none => exact .none
        | some hp hq hplace => simpa [hp, hq] using ih _ hp hplace

theorem get (hh : h.Folds places h') (x : Atom) (hi : places[i]? = some j) :
    Option.Rel (Value.Moved places) (h.get? i x) (h'.get? j x) := by
  have htarget := hh.resolve x hi
  rw [get?, get?]
  generalize h.resolve? x i = target at htarget
  generalize h'.resolve? x j = target' at htarget
  cases htarget with
  | none => exact .none
  | some hleads =>
    obtain ⟨s, s', hs, hs', -, hbindings⟩ := hh.own_of_leads hleads
    simpa [hs, hs', Scope.get?] using hbindings.find x

/-- Binding a name in the first scope of a place and at the place itself. -/
theorem define (hh : h.Folds places h') (hi : Leads places i j) (x : Atom) {v v' : Value}
    (hv : v.Moved places v') : (h.define i x v).Folds places (h'.define j x v') where
  size := by simpa using hh.size
  mem_iff := by simpa using hh.mem_iff
  scope := by
    intro k l t hk ht
    rw [Heap.define, Array.getElem?_modify] at ht
    split at ht
    · next heq =>
      subst heq
      obtain ⟨s, s', hs, hs', hparent, hbindings⟩ := hh.own_of_leads hi
      obtain rfl : j = l := Option.some.inj (hi.place.symm.trans hk)
      obtain rfl : s.define x v = t := by simpa [hs] using ht
      have hdefined : (h'.define j x v').scopes[j]? = some (s'.define x v') := by
        rw [Heap.define, Array.getElem?_modify, if_pos rfl, hs']
        rfl
      exact .own hi hdefined hparent (hbindings.put x hv)
    · next hne =>
      cases hh.scope hk ht with
      | hollow hparent hbindings hp hplace => exact .hollow hparent hbindings hp hplace
      | own hleads hs' hparent hbindings =>
        -- two scopes do not lead at one place
        have hother : j ≠ l := by
          rintro rfl
          exact hne (hi.eq hleads)
        refine .own hleads ?_ hparent hbindings
        rw [Heap.define, Array.getElem?_modify, if_neg hother, hs']

section Create

variable {p q : Nat} (hh : h.Folds places h') (hp : places[p]? = some q)

include hh hp

/-- Making a scope in both heaps. -/
theorem create :
    (h.create (some p)).Folds (places ++ [h'.scopes.size]) (h'.create (some q)) ∧
      Leads (places ++ [h'.scopes.size]) h.scopes.size h'.scopes.size := by
  have hlt : p < h.scopes.size := hh.size ▸ (List.getElem?_eq_some_iff.1 hp).1
  have hleads : Leads (places ++ [h'.scopes.size]) h.scopes.size h'.scopes.size := by
    refine ⟨by rw [hh.size, List.getElem?_concat_length], fun k hk heq => ?_⟩
    obtain hold | ⟨rfl, -⟩ := getElem?_append_singleton heq
    · exact Nat.lt_irrefl _ (hh.place_lt hold)
    · exact Nat.lt_irrefl _ (hh.size ▸ hk)
  refine ⟨⟨by simp [hh.size], fun k => ?_, ?_⟩, hleads⟩
  · rw [List.mem_append, hh.mem_iff, List.mem_singleton, size_create]
    omega
  · intro k l s hk hs
    obtain hold | ⟨rfl, rfl⟩ := getElem?_append_singleton hk
    · have hkept := getElem?_create_of_lt (hh.place_lt hold) (some q)
      rw [getElem?_create_of_lt (hh.size ▸ (List.getElem?_eq_some_iff.1 hold).1)] at hs
      exact (hh.scope hold hs).mono (List.prefix_append _ _) fun s' hs' => hkept.trans hs'
    · rw [← hh.size] at hs ⊢
      obtain rfl := Option.some.inj ((getElem?_create_size h (some p)).symm.trans hs)
      refine .own hleads (getElem?_create_size h' (some q)) ?_ .nil
      exact .some hlt (hh.place_lt hp) (place_later (List.prefix_append _ _) hp)

/-- Making a scope in the first heap alone. -/
theorem hollow : (h.create (some p)).Folds (places ++ [q]) h' := by
  have hlt : p < h.scopes.size := hh.size ▸ (List.getElem?_eq_some_iff.1 hp).1
  refine ⟨by simp [hh.size], fun k => ?_, ?_⟩
  · rw [List.mem_append, hh.mem_iff, List.mem_singleton]
    exact or_iff_left_of_imp fun heq => heq ▸ hh.place_lt hp
  · intro k l s hk hs
    obtain hold | ⟨rfl, rfl⟩ := getElem?_append_singleton hk
    · rw [getElem?_create_of_lt (hh.size ▸ (List.getElem?_eq_some_iff.1 hold).1)] at hs
      exact (hh.scope hold hs).mono (List.prefix_append _ _) fun s' hs' => hs'
    · rw [← hh.size] at hs ⊢
      obtain rfl := Option.some.inj ((getElem?_create_size h (some p)).symm.trans hs)
      exact .hollow rfl rfl hlt (place_later (List.prefix_append _ _) hp)

end Create

/-- A heap that is folded into another one is closed. -/
theorem closed (hh : h.Folds places h') : h.Closed where
  parent := by
    intro i p s hs hp
    have hlt : i < places.length := hh.size ▸ (Array.getElem?_eq_some_iff.1 hs).1
    cases hh.scope (List.getElem?_eq_getElem hlt) hs with
    | hollow hparent _ hlt _ =>
      obtain rfl := Option.some.inj (hparent.symm.trans hp)
      exact hlt
    | own _ _ hparent _ =>
      rw [hp] at hparent
      exact hparent.lt
  captured := by
    intro i s x c hs hc
    have hlt : i < places.length := hh.size ▸ (Array.getElem?_eq_some_iff.1 hs).1
    cases hh.scope (List.getElem?_eq_getElem hlt) hs with
    | hollow _ hbindings _ _ =>
      rw [hbindings] at hc
      cases hc
    | own _ _ _ hbindings =>
      obtain ⟨b', -, -, hmoved⟩ := hbindings.exists_of_mem hc
      exact hh.size ▸ hmoved.scope_lt

end Folds

theorem leads_range {n i : Nat} (hi : i < n) : Leads (List.range n) i i := by
  refine ⟨List.getElem?_range hi, fun k hk heq => ?_⟩
  rw [List.getElem?_range (Nat.lt_trans hk hi)] at heq
  exact Nat.ne_of_lt hk (Option.some.inj heq)

/-- A closed heap is folded into itself, with every scope at its own place. -/
theorem Closed.folds {h : Heap Value} (hh : h.Closed) :
    h.Folds (List.range h.scopes.size) h where
  size := List.length_range.symm
  mem_iff _ := List.mem_range
  scope := by
    intro i j s hi hs
    have hlt : i < h.scopes.size := (Array.getElem?_eq_some_iff.1 hs).1
    obtain rfl : i = j := Option.some.inj ((List.getElem?_range hlt).symm.trans hi)
    refine .own (leads_range hlt) hs ?_ ?_
    · cases hparent : s.parent with
      | none => exact .none
      | some p =>
        have hp := hh.parent hs hparent
        exact .some hp hp (List.getElem?_range (Nat.lt_trans hp hlt))
    · refine List.forall₂_same.2 fun b hb => ⟨rfl, ?_⟩
      obtain ⟨x, v⟩ := b
      cases v with
      | tree t => exact .tree t
      | native n => exact .native n
      | closure c => exact .closure (List.getElem?_range (hh.captured hs hb))

/-- The scopes that kept their own places have the same bindings in both heaps. -/
theorem Folds.kept {places : List Nat} {h h' : Heap Value} {n i : Nat} (hh : h.Folds places h')
    (hplaces : List.range n <+: places) (hi : i < n) :
    ∃ s s', h.scopes[i]? = some s ∧ h'.scopes[i]? = some s' ∧
      BindingsMoved places s.bindings s'.bindings := by
  obtain ⟨s, s', hs, hs', -, hbindings⟩ := hh.own_of_leads ((leads_range hi).mono hplaces)
  exact ⟨s, s', hs, hs', hbindings⟩

end Heap

end Scriptlet
