import Scriptlet.Proofs.Json.Atom

/-!
# Values and their texts

A value that is written with one part per line is read back as the same value. Reading is bounded by
a number that goes down by one from each value to its parts and from each part to the next, and the
length of the text is always enough. The only values that are lost are objects in which a key occurs
twice, since reading keeps one field for each key, and those that hold an atom that is lost.

## Main definitions

* `Json.Readable` — the values that come back from their text
* `Json.ReadsBack` — the text of a value is read as the value, whatever follows it

## Main results

* `Json.Readable.readsBack` — readable values, at every level
* `Json.parse?_indented` — readable values, as the text of a file
-/

namespace Scriptlet.Json

open Number

/-- The values that are read back from the text that is written for them. -/
inductive Readable : Json → Prop
  | atom {a : Atom} : a.Readable → Readable (.atom a)
  | arr {items : List Json} : (∀ v ∈ items, Readable v) → Readable (.arr items)
  | obj {fields : List (String × Json)} : (fields.map Prod.fst).Nodup →
      (∀ field ∈ fields, Readable field.2) → Readable (.obj fields)

/-- The text of a value is read as the value, at every level and whatever follows it. -/
def ReadsBack (v : Json) : Prop :=
  ∀ (level n : Nat) (rest : List Char), (indentedAt level v).toList.length < n → Closes rest →
    value? n ((indentedAt level v).toList ++ rest) = some (v, rest)

/-! ### White space -/

section Gap

variable {gap : List Char} (hgap : ∀ c ∈ gap, isGap c = true) (n : Nat) (cs : List Char)

include hgap in
theorem skipGap_append : skipGap (gap ++ cs) = skipGap cs := List.dropWhile_append_of_pos hgap

include hgap in
theorem value?_gap : value? n (gap ++ cs) = value? n cs := by
  cases n with
  | zero => rw [value?, value?]
  | succ n => rw [value?, value?, skipGap_append hgap]

include hgap in
theorem items?_gap (acc : List Json) : items? n acc (gap ++ cs) = items? n acc cs := by
  cases n with
  | zero => rw [items?, items?]
  | succ n => rw [items?, items?, value?_gap hgap]

include hgap in
theorem fields?_gap (acc : List (String × Json)) :
    fields? n acc (gap ++ cs) = fields? n acc cs := by
  cases n with
  | zero => rw [fields?, fields?]
  | succ n => rw [fields?, fields?, skipGap_append hgap]

end Gap

theorem isGap_of_mem_newLine {level : Nat} {c : Char} (h : c ∈ (newLine level).toList) :
    isGap c = true := by
  simp only [newLine, String.toList_ofList, List.mem_cons, List.mem_replicate] at h
  rcases h with rfl | ⟨-, rfl⟩ <;> rfl

theorem skipGap_newLine (level : Nat) (cs : List Char) :
    skipGap ((newLine level).toList ++ cs) = skipGap cs :=
  skipGap_append (fun _ hc => isGap_of_mem_newLine hc) cs

theorem skipGap_cons {c : Char} (h : isGap c = false) (cs : List Char) :
    skipGap (c :: cs) = c :: cs := List.dropWhile_cons_of_neg (by simp [h])

theorem closes_newLine (level : Nat) (cs : List Char) :
    Closes ((newLine level).toList ++ cs) := by
  intro c hc
  simp only [newLine, String.toList_ofList, List.cons_append, List.head?_cons,
    Option.mem_some_iff] at hc
  rw [← hc]
  decide

theorem closes_cons {c : Char} (h : c.isDigit = false ∧ c ≠ '.' ∧ c ≠ 'e' ∧ c ≠ 'E')
    (cs : List Char) : Closes (c :: cs) := by
  rintro c' hc'
  cases hc'
  exact h

/-! ### Atoms -/

/-- An atom other than a text begins with none of the marks of the other values. -/
theorem head_of_bareAtom? {cs : List Char} {found : Atom × List Char}
    (h : bareAtom? cs = some found) :
    ∃ c rest, cs = c :: rest ∧ isGap c = false ∧ c ∉ ['"', '[', '{', ']'] := by
  cases cs with
  | nil => cases h
  | cons c rest =>
    have hmark : c ∉ [' ', '\t', '\n', '\r', '"', '[', '{', ']'] := by
      intro hc
      simp only [List.mem_cons, List.not_mem_nil, or_false] at hc
      rcases hc with rfl | rfl | rfl | rfl | rfl | rfl | rfl | rfl <;> cases h
    refine ⟨c, rest, rfl, ?_, ?_⟩
    · simp_all [isGap]
    · simp_all

theorem value?_bareAtom {cs rest : List Char} {a : Atom} (h : bareAtom? cs = some (a, rest))
    (n : Nat) : value? (n + 1) cs = some (.atom a, rest) := by
  obtain ⟨c, cs, rfl, hgap, hmark⟩ := head_of_bareAtom? h
  simp only [List.mem_cons, List.not_mem_nil, or_false, not_or] at hmark
  rw [value?, skipGap_cons hgap]
  simp [hmark, h]

theorem readsBack_atom {a : Atom} (ha : a.Readable) : ReadsBack (.atom a) := by
  intro level n rest hn hrest
  obtain ⟨n, rfl⟩ := Nat.exists_eq_add_one_of_ne_zero (Nat.ne_zero_of_lt hn)
  rw [indentedAt]
  by_cases htext : ∃ s, a = .text s
  · obtain ⟨s, rfl⟩ := htext
    have hcs : (atomText rawChar (.text s)).toList ++ rest =
        '"' :: (s.toList.flatMap rawChar ++ '"' :: rest) := by
      simp [atomText, stringText]
    rw [hcs, value?, skipGap_cons (by decide)]
    simp [string?_rawChar]
  · exact value?_bareAtom (bareAtom?_atomText ha (fun s hs => htext ⟨s, hs⟩) hrest) n

/-! ### Parts on lines of their own -/

/-- Parts, each on a line of its own at the given level. -/
def lines (level : Nat) (parts : List String) : List Char :=
  (("," ++ newLine level).intercalate parts).toList

theorem lines_singleton (level : Nat) (part : String) : lines level [part] = part.toList := by
  simp [lines]

theorem lines_cons_cons (level : Nat) (part next : String) (parts : List String) :
    lines level (part :: next :: parts) =
      part.toList ++ ',' :: ((newLine level).toList ++ lines level (next :: parts)) := by
  simp [lines, String.toList_intercalate]

theorem toList_bracketed {opening closing : String} {o c : Char} (ho : opening.toList = [o])
    (hc : closing.toList = [c]) (level : Nat) {parts : List String} (h : parts ≠ []) :
    (bracketed opening closing level parts).toList =
      o :: ((newLine (level + 1)).toList ++ (lines (level + 1) parts ++
        ((newLine level).toList ++ [c]))) := by
  have hsome : parts.isEmpty = false := by simpa using h
  simp [bracketed, hsome, lines, ho, hc]

/-! ### Arrays -/

section Items

variable {n level : Nat} {v : Json} {cs rest : List Char} {acc : List Json}

theorem items?_last (h : value? n cs = some (v, (newLine level).toList ++ ']' :: rest)) :
    items? (n + 1) acc cs = some (.arr (acc.reverse ++ [v]), rest) := by
  rw [items?, h]
  simp only [skipGap_newLine, skipGap_cons (c := ']') rfl]
  simp

theorem items?_more (h : value? n cs = some (v, ',' :: ((newLine level).toList ++ rest))) :
    items? (n + 1) acc cs = items? n (v :: acc) rest := by
  rw [items?, h]
  simp only [skipGap_cons (c := ',') rfl]
  exact items?_gap (fun _ hc => isGap_of_mem_newLine hc) n rest (v :: acc)

/-- The items of an array are read back, behind those that were read before. -/
theorem items?_lines {items : List Json} (hne : items ≠ []) (hitems : ∀ v ∈ items, ReadsBack v)
    (hn : (lines (level + 1) (indentedItems (level + 1) items)).length + 1 < n) :
    items? n acc (lines (level + 1) (indentedItems (level + 1) items) ++
        ((newLine level).toList ++ ']' :: rest)) =
      some (.arr (acc.reverse ++ items), rest) := by
  induction items generalizing n acc with
  | nil => exact absurd rfl hne
  | cons v items ih =>
    obtain ⟨n, rfl⟩ := Nat.exists_eq_add_one_of_ne_zero (Nat.ne_zero_of_lt hn)
    rw [List.forall_mem_cons] at hitems
    cases items with
    | nil =>
      simp only [indentedItems, lines_singleton] at hn ⊢
      exact items?_last (hitems.1 _ n _ (by omega) (closes_newLine _ _))
    | cons w items =>
      simp only [indentedItems, lines_cons_cons, List.append_assoc, List.cons_append,
        List.length_append, List.length_cons] at hn ⊢
      rw [items?_more (hitems.1 _ n _ (by omega) (closes_cons (by decide) _)),
        ← indentedItems, ih nofun hitems.2]
      · simp
      · rw [indentedItems]
        omega

end Items

/-- Where the items of an array are read, it does not end at once. -/
theorem value?_of_items? {n : Nat} {cs : List Char} {found : Json × List Char}
    (h : items? n [] cs = some found) : value? (n + 1) ('[' :: cs) = some found := by
  have hopen (after : List Char) : skipGap cs ≠ ']' :: after := by
    intro hclosing
    obtain _ | _ | n := n
    · cases h
    · cases h
    · rw [items?, value?, hclosing] at h
      cases h
  rw [value?, skipGap_cons (by decide)]
  simp only
  exact h

theorem readsBack_arr {items : List Json} (hitems : ∀ v ∈ items, ReadsBack v) :
    ReadsBack (.arr items) := by
  intro level n rest hn hrest
  obtain ⟨n, rfl⟩ := Nat.exists_eq_add_one_of_ne_zero (Nat.ne_zero_of_lt hn)
  rw [indentedAt] at hn ⊢
  by_cases hne : items = []
  · have htext : bracketed "[" "]" level (indentedItems (level + 1) items) = "[]" := by
      simp [hne, indentedItems, bracketed]
    rw [htext, hne]
    rfl
  · have hparts : indentedItems (level + 1) items ≠ [] := by
      cases items with
      | nil => exact absurd rfl hne
      | cons v items => exact List.cons_ne_nil _ _
    rw [toList_bracketed (o := '[') (c := ']') rfl rfl level hparts] at hn ⊢
    simp only [List.length_cons, List.length_append] at hn
    simp only [List.cons_append, List.append_assoc, List.nil_append]
    apply value?_of_items?
    rw [items?_gap fun _ hc => isGap_of_mem_newLine hc]
    exact items?_lines hne hitems (by omega)

/-! ### Objects -/

theorem putField_of_notMem {key : String} {v : Json} {fields : List (String × Json)}
    (h : key ∉ fields.map Prod.fst) : putField key v fields = fields ++ [(key, v)] := by
  induction fields with
  | nil => rfl
  | cons field fields ih =>
    rw [List.map_cons, List.mem_cons, not_or] at h
    have hne : (field.1 == key) = false := beq_eq_false_iff_ne.2 (Ne.symm h.1)
    rw [putField, hne, ih h.2]
    rfl

/-- Fields with different keys are kept as they are. -/
theorem mergeFields_of_nodup {fields : List (String × Json)} (h : (fields.map Prod.fst).Nodup) :
    mergeFields fields = fields := by
  suffices hfold : ∀ acc : List (String × Json), ((acc ++ fields).map Prod.fst).Nodup →
      fields.foldl (fun acc field => putField field.1 field.2 acc) acc = acc ++ fields from
    hfold [] h
  clear h
  induction fields with
  | nil => simp
  | cons field fields ih =>
    obtain ⟨key, v⟩ := field
    intro acc h
    have hnew : key ∉ acc.map Prod.fst := by
      rw [List.map_append, List.nodup_append] at h
      intro hmem
      exact h.2.2 _ hmem _ List.mem_cons_self rfl
    simp only [List.foldl_cons, putField_of_notMem hnew]
    rw [ih _ (by simpa using h)]
    simp

section Fields

variable {n level : Nat} {key : String} {v : Json} {cs rest : List Char}
  {acc : List (String × Json)}

/-- The text of a field up to its value. -/
theorem toList_key (key : String) (cs : List Char) :
    (stringText rawChar key ++ ": ").toList ++ cs =
      '"' :: (key.toList.flatMap rawChar ++ '"' :: ':' :: ' ' :: cs) := by
  simp [stringText]

theorem value?_blank (n : Nat) (cs : List Char) : value? n (' ' :: cs) = value? n cs := by
  have hgap : ∀ c ∈ [' '], isGap c = true := by
    intro c hc
    rw [List.mem_singleton.1 hc]
    rfl
  exact value?_gap hgap n cs

theorem fields?_last (h : value? n cs = some (v, (newLine level).toList ++ '}' :: rest)) :
    fields? (n + 1) acc ((stringText rawChar key ++ ": ").toList ++ cs) =
      some (.obj (mergeFields (acc.reverse ++ [(key, v)])), rest) := by
  rw [toList_key, fields?, skipGap_cons (by decide)]
  simp only [string?_rawChar, skipGap_cons (c := ':') rfl, value?_blank, h,
    skipGap_newLine, skipGap_cons (c := '}') rfl]
  rw [List.reverse_cons]

theorem fields?_more (h : value? n cs = some (v, ',' :: ((newLine level).toList ++ rest))) :
    fields? (n + 1) acc ((stringText rawChar key ++ ": ").toList ++ cs) =
      fields? n ((key, v) :: acc) rest := by
  rw [toList_key, fields?, skipGap_cons (by decide)]
  simp only [string?_rawChar, skipGap_cons (c := ':') rfl, value?_blank, h,
    skipGap_cons (c := ',') rfl]
  exact fields?_gap (fun _ hc => isGap_of_mem_newLine hc) n rest ((key, v) :: acc)

/-- The fields of an object are read back, behind those that were read before. -/
theorem fields?_lines {fields : List (String × Json)} (hne : fields ≠ [])
    (hfields : ∀ field ∈ fields, ReadsBack field.2)
    (hn : (lines (level + 1) (indentedFields (level + 1) fields)).length + 1 < n) :
    fields? n acc (lines (level + 1) (indentedFields (level + 1) fields) ++
        ((newLine level).toList ++ '}' :: rest)) =
      some (.obj (mergeFields (acc.reverse ++ fields)), rest) := by
  induction fields generalizing n acc with
  | nil => exact absurd rfl hne
  | cons field fields ih =>
    obtain ⟨key, v⟩ := field
    obtain ⟨n, rfl⟩ := Nat.exists_eq_add_one_of_ne_zero (Nat.ne_zero_of_lt hn)
    rw [List.forall_mem_cons] at hfields
    have hv : ReadsBack v := hfields.1
    cases fields with
    | nil =>
      simp only [indentedFields, lines_singleton] at hn ⊢
      rw [String.toList_append, List.length_append] at hn
      rw [String.toList_append, List.append_assoc]
      exact fields?_last (hv _ n _ (by omega) (closes_newLine _ _))
    | cons w fields =>
      obtain ⟨key', w⟩ := w
      simp only [indentedFields, lines_cons_cons, List.append_assoc, List.cons_append,
        List.length_append, List.length_cons] at hn ⊢
      rw [String.toList_append, List.length_append] at hn
      rw [String.toList_append, List.append_assoc,
        fields?_more (hv _ n _ (by omega) (closes_cons (by decide) _)),
        ← indentedFields, ih nofun hfields.2]
      · simp
      · rw [indentedFields]
        omega

end Fields

/-- Where the fields of an object are read, it does not end at once. -/
theorem value?_of_fields? {n : Nat} {cs : List Char} {found : Json × List Char}
    (h : fields? n [] cs = some found) : value? (n + 1) ('{' :: cs) = some found := by
  have hopen (after : List Char) : skipGap cs ≠ '}' :: after := by
    intro hclosing
    cases n with
    | zero => cases h
    | succ n =>
      rw [fields?, hclosing] at h
      cases h
  rw [value?, skipGap_cons (by decide)]
  simp only
  exact h

theorem readsBack_obj {fields : List (String × Json)} (hkeys : (fields.map Prod.fst).Nodup)
    (hfields : ∀ field ∈ fields, ReadsBack field.2) : ReadsBack (.obj fields) := by
  intro level n rest hn hrest
  obtain ⟨n, rfl⟩ := Nat.exists_eq_add_one_of_ne_zero (Nat.ne_zero_of_lt hn)
  rw [indentedAt] at hn ⊢
  by_cases hne : fields = []
  · have htext : bracketed "\x7b" "\x7d" level (indentedFields (level + 1) fields) =
        "\x7b\x7d" := by
      simp [hne, indentedFields, bracketed]
    rw [htext, hne]
    rfl
  · have hparts : indentedFields (level + 1) fields ≠ [] := by
      cases fields with
      | nil => exact absurd rfl hne
      | cons field fields => exact List.cons_ne_nil _ _
    rw [toList_bracketed (o := '{') (c := '}') rfl rfl level hparts] at hn ⊢
    simp only [List.length_cons, List.length_append] at hn
    simp only [List.cons_append, List.append_assoc, List.nil_append]
    apply value?_of_fields?
    rw [fields?_gap fun _ hc => isGap_of_mem_newLine hc]
    refine (fields?_lines hne hfields (by omega)).trans ?_
    rw [List.reverse_nil, List.nil_append, mergeFields_of_nodup hkeys]

/-! ### All values -/

/-- A readable value is read back from its text. -/
theorem Readable.readsBack {v : Json} (h : v.Readable) : ReadsBack v := by
  induction h with
  | atom ha => exact readsBack_atom ha
  | arr _ ih => exact readsBack_arr ih
  | obj hkeys _ ih => exact readsBack_obj hkeys ih

/-- A readable value is what the text of its file holds. -/
theorem parse?_indented {v : Json} (h : v.Readable) : parse? v.indented = some v := by
  have hread := h.readsBack 0 (v.indented.toList.length + 1) [] (Nat.lt_succ_self _) closes_nil
  rw [List.append_nil] at hread
  rw [parse?]
  simp only [indented] at hread ⊢
  rw [hread]
  rfl

end Scriptlet.Json
