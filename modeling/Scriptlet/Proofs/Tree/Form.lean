import Scriptlet.Proofs.Scan.Lexeme

/-!
# Forms can be read in one way

The prefix text of a tree is made of words and of groups in parentheses, with blanks between them.
Nothing is escaped: a quoted word may hold parentheses and blanks. It may hold no quote, though, so
its end is found, and a word without quotes ends where a blank or a parenthesis follows. So a text
is the text of one form at most.

## Main definitions

* `Form` — words and groups
* `Form.text` — the text of a form
* `Form.Proper` — the words can be told apart

## Main results

* `Form.Proper.unique` — what stands in front of a blank, a closing parenthesis or nothing tells the
  form
* `Form.text_injective` — forms with the same text are the same
-/

namespace Scriptlet

/-- A word, or forms in parentheses. -/
inductive Form
  | word (text : String)
  | group (parts : List Form)

namespace Form

mutual

/-- The text of a form; parts are divided by blanks. -/
def text : Form → String
  | word s => s
  | group parts => "(" ++ " ".intercalate (texts parts) ++ ")"

/-- The texts of several forms. -/
def texts : List Form → List String
  | [] => []
  | f :: fs => text f :: texts fs

end

theorem texts_eq_map (fs : List Form) : texts fs = fs.map text := by
  induction fs with
  | nil => rfl
  | cons f fs ih => rw [texts, ih, List.map_cons]

/-- A character that may stand in a word without quotes. -/
def isPlain (c : Char) : Bool := c != '(' && c != ')' && c != ' ' && c != '"'

/-- Every word is either quoted, with no quote inside, or has no character that ends it. -/
inductive Proper : Form → Prop
  | plain {s : String} : s.toList ≠ [] → (∀ c ∈ s.toList, isPlain c = true) → Proper (word s)
  | quoted {s : String} {body : List Char} :
      s.toList = '"' :: body ++ ['"'] → '"' ∉ body → Proper (word s)
  | group {parts : List Form} : (∀ f ∈ parts, Proper f) → Proper (group parts)

/-- A word without blanks, parentheses and quotes. -/
theorem proper_word {s : String} (hne : s.toList ≠ []) (h : s.toList.all isPlain = true) :
    (word s).Proper := .plain hne (List.all_eq_true.1 h)

/-- Nothing follows, or a blank or a closing parenthesis does. -/
def Ends (rest : List Char) : Prop := ∀ c ∈ rest.head?, c = ' ' ∨ c = ')'

/-! ### The characters of a form -/

/-- The characters of forms that follow another one. -/
def behind (fs : List Form) : List Char := fs.flatMap fun f => ' ' :: f.text.toList

/-- The characters between the parentheses of a group. -/
def inside : List Form → List Char
  | [] => []
  | f :: fs => f.text.toList ++ behind fs

theorem toList_intercalate (s : String) (ss : List String) :
    (" ".intercalate (s :: ss)).toList = s.toList ++ ss.flatMap fun s => ' ' :: s.toList := by
  induction ss generalizing s with
  | nil => simp
  | cons s' ss ih => simp [String.intercalate_cons_cons, ih]

theorem toList_group (parts : List Form) (rest : List Char) :
    (group parts).text.toList ++ rest = '(' :: (inside parts ++ ')' :: rest) := by
  have hinside : (" ".intercalate (texts parts)).toList = inside parts := by
    cases parts with
    | nil => rfl
    | cons f fs =>
      rw [texts, toList_intercalate, texts_eq_map, List.flatMap_map]
      rfl
  rw [text, String.toList_append, String.toList_append, hinside]
  simp

theorem behind_cons (f : Form) (fs : List Form) (rest : List Char) :
    behind (f :: fs) ++ rest = ' ' :: (f.text.toList ++ (behind fs ++ rest)) := by
  simp [behind]

theorem ends_behind (fs : List Form) (rest : List Char) : Ends (behind fs ++ ')' :: rest) := by
  intro c hc
  cases fs with
  | nil => exact .inr (Option.some.inj hc).symm
  | cons f fs => exact .inl (Option.some.inj hc).symm

/-! ### Words -/

section Words

variable {cs ds rest rest' : List Char}

theorem stops_of_ends (hrest : Ends rest) : Segment.Stops isPlain rest := by
  intro c hc
  rcases hrest c hc with rfl | rfl <;> rfl

/-- A word without quotes is as long as it can be. -/
theorem plain_unique (hcs : ∀ c ∈ cs, isPlain c = true) (hds : ∀ c ∈ ds, isPlain c = true)
    (hrest : Ends rest) (hrest' : Ends rest') (h : cs ++ rest = ds ++ rest') :
    cs = ds ∧ rest = rest' := by
  have htake := congrArg (List.takeWhile isPlain) h
  have hdrop := congrArg (List.dropWhile isPlain) h
  rw [Segment.takeWhile_of_stops hcs (stops_of_ends hrest),
    Segment.takeWhile_of_stops hds (stops_of_ends hrest')] at htake
  rw [Segment.dropWhile_of_stops hcs (stops_of_ends hrest),
    Segment.dropWhile_of_stops hds (stops_of_ends hrest')] at hdrop
  exact ⟨htake, hdrop⟩

/-- A word without quotes does not start with a character that ends one. -/
theorem plain_ne_cons {d : Char} (hne : cs ≠ []) (hcs : ∀ c ∈ cs, isPlain c = true)
    (hd : isPlain d = false) : cs ++ rest ≠ d :: ds := by
  obtain ⟨c, cs, rfl⟩ := List.exists_cons_of_ne_nil hne
  rintro heq
  obtain ⟨rfl, -⟩ := List.cons.inj heq
  rw [hcs c List.mem_cons_self] at hd
  cases hd

/-- A quoted word ends with the first quote inside. -/
theorem quoted_unique (hcs : '"' ∉ cs) (hds : '"' ∉ ds)
    (h : cs ++ '"' :: rest = ds ++ '"' :: rest') : cs = ds ∧ rest = rest' := by
  have hsplit := congrArg Segment.untilQuote? h
  rw [Segment.untilQuote?_of_notMem hcs, Segment.untilQuote?_of_notMem hds] at hsplit
  exact Prod.mk.inj (Option.some.inj hsplit)

theorem toList_quoted {s : String} (hs : s.toList = '"' :: cs ++ ['"']) :
    (word s).text.toList ++ rest = '"' :: (cs ++ '"' :: rest) := by
  rw [text, hs]
  simp

end Words

/-! ### Reading in one way -/

/-- No form starts with a closing parenthesis. -/
theorem Proper.ne_close {f : Form} (hf : f.Proper) (rest cs : List Char) :
    f.text.toList ++ rest ≠ ')' :: cs := by
  cases hf with
  | plain hne hs => exact plain_ne_cons hne hs rfl
  | quoted hs _ =>
    rw [toList_quoted hs]
    exact nofun
  | group =>
    rw [toList_group]
    exact nofun

/-- What stands in front of an end tells the form. -/
def Unique (f : Form) : Prop :=
  ∀ (g : Form) (rest rest' : List Char), g.Proper → Ends rest → Ends rest' →
    f.text.toList ++ rest = g.text.toList ++ rest' → f = g ∧ rest = rest'

theorem behind_unique {fs gs : List Form} (hfs : ∀ f ∈ fs, f.Unique) (hgs : ∀ g ∈ gs, g.Proper)
    {rest rest' : List Char} (h : behind fs ++ ')' :: rest = behind gs ++ ')' :: rest') :
    fs = gs ∧ rest = rest' := by
  induction fs generalizing gs with
  | nil =>
    cases gs with
    | nil => exact ⟨rfl, (List.cons.inj h).2⟩
    | cons g gs =>
      rw [behind_cons] at h
      exact absurd (List.cons.inj h).1 (by decide)
  | cons f fs ih =>
    cases gs with
    | nil =>
      rw [behind_cons] at h
      exact absurd (List.cons.inj h).1 (by decide)
    | cons g gs =>
      rw [List.forall_mem_cons] at hfs hgs
      rw [behind_cons, behind_cons] at h
      obtain ⟨rfl, hbehind⟩ := hfs.1 g _ _ hgs.1 (ends_behind fs rest) (ends_behind gs rest')
        (List.cons.inj h).2
      obtain ⟨rfl, hrest⟩ := ih hfs.2 hgs.2 hbehind
      exact ⟨rfl, hrest⟩

theorem inside_unique {fs gs : List Form} (hfs : ∀ f ∈ fs, f.Proper ∧ f.Unique)
    (hgs : ∀ g ∈ gs, g.Proper) {rest rest' : List Char}
    (h : inside fs ++ ')' :: rest = inside gs ++ ')' :: rest') : fs = gs ∧ rest = rest' := by
  cases fs with
  | nil =>
    cases gs with
    | nil => exact ⟨rfl, (List.cons.inj h).2⟩
    | cons g gs =>
      rw [inside, inside, List.append_assoc] at h
      exact absurd h.symm ((hgs g List.mem_cons_self).ne_close _ _)
  | cons f fs =>
    cases gs with
    | nil =>
      rw [inside, inside, List.append_assoc] at h
      exact absurd h ((hfs f List.mem_cons_self).1.ne_close _ _)
    | cons g gs =>
      -- with a blank in front the parts are all alike
      refine behind_unique (fun f hf => (hfs f hf).2) hgs ?_
      rw [inside, inside, List.append_assoc, List.append_assoc] at h
      rw [behind_cons, behind_cons, h]

/-- What stands in front of a blank, a closing parenthesis or nothing tells the form. -/
theorem Proper.unique {f : Form} (hf : f.Proper) : f.Unique := by
  induction hf with
  | plain hne hs =>
    intro g rest rest' hg hrest hrest' h
    cases hg with
    | plain _ hs' =>
      obtain ⟨htext, hrest⟩ := plain_unique hs hs' hrest hrest' h
      exact ⟨congrArg word (String.toList_inj.1 htext), hrest⟩
    | quoted hs' _ =>
      rw [toList_quoted hs'] at h
      exact absurd h (plain_ne_cons hne hs rfl)
    | group =>
      rw [toList_group] at h
      exact absurd h (plain_ne_cons hne hs rfl)
  | quoted hs hbody =>
    intro g rest rest' hg hrest hrest' h
    rw [toList_quoted hs] at h
    cases hg with
    | plain hne hs' => exact absurd h.symm (plain_ne_cons hne hs' rfl)
    | quoted hs' hbody' =>
      rw [toList_quoted hs'] at h
      obtain ⟨rfl, hrest⟩ := quoted_unique hbody hbody' (List.cons.inj h).2
      exact ⟨congrArg word (String.toList_inj.1 (hs.trans hs'.symm)), hrest⟩
    | group =>
      rw [toList_group] at h
      exact absurd (List.cons.inj h).1 (by decide)
  | group hparts ih =>
    intro g rest rest' hg hrest hrest' h
    rw [toList_group] at h
    cases hg with
    | plain hne hs' => exact absurd h.symm (plain_ne_cons hne hs' rfl)
    | quoted hs' _ =>
      rw [toList_quoted hs'] at h
      exact absurd (List.cons.inj h).1 (by decide)
    | group hparts' =>
      rw [toList_group] at h
      obtain ⟨rfl, hrest⟩ := inside_unique (fun f hf => ⟨hparts f hf, ih f hf⟩) hparts'
        (List.cons.inj h).2
      exact ⟨rfl, hrest⟩

/-- Forms with the same text are the same. -/
theorem text_injective {f g : Form} (hf : f.Proper) (hg : g.Proper) (h : f.text = g.text) :
    f = g :=
  (hf.unique g [] [] hg nofun nofun (by rw [h])).1

end Form

end Scriptlet
