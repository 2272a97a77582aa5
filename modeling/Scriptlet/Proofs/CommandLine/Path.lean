import Scriptlet.CommandLine.File

/-!
# Names of files

A name that is shown consists of its slashes at the start, and of parts with single slashes between
them, none empty and none a dot. Such a name is shown as it is. What is put behind the last part of
a shown name becomes part of it, so that the name of a file that goes with another one is a shown
name too.

## Main definitions

* `CommandLine.IsPart` — what stands between the slashes of a shown name
* `CommandLine.IsShown` — names that are shown as they are

## Main results

* `CommandLine.IsShown.normalizePath_eq` — they are
* `CommandLine.isShown_append` — a shown name with something behind it
-/

namespace Scriptlet.CommandLine

/-! ### Parts -/

/-- What stands between the slashes of a shown name. -/
structure IsPart (part : String) : Prop where
  slash : '/' ∉ part.toList
  ne_empty : part ≠ ""
  ne_dot : part ≠ "."

theorem slash_notMem_splitOn {cs part : List Char} (h : part ∈ cs.splitOn '/') : '/' ∉ part := by
  induction cs generalizing part with
  | nil => simp_all
  | cons c cs ih =>
    rw [List.splitOn, List.splitOnP_cons_eq_if_modifyHead] at h
    split at h
    · rcases List.mem_cons.1 h with rfl | h
      · exact List.not_mem_nil
      · exact ih h
    · next hc =>
      rw [← List.splitOn] at h
      cases hsplit : cs.splitOn '/' with
      | nil => exact absurd hsplit (List.splitOn_ne_nil _ _)
      | cons first rest =>
        rw [hsplit] at h ih
        rcases List.mem_cons.1 h with rfl | h
        · rw [List.mem_cons, not_or]
          exact ⟨fun heq => hc (beq_iff_eq.2 heq.symm), ih List.mem_cons_self⟩
        · exact ih (List.mem_cons_of_mem _ h)

theorem isPart_of_mem_pathParts {name part : String} (h : part ∈ pathParts name) : IsPart part := by
  rw [pathParts, List.mem_filter, List.mem_map] at h
  obtain ⟨⟨cs, hcs, rfl⟩, hne⟩ := h
  have hslash := slash_notMem_splitOn hcs
  simp only [bne_iff_ne, Bool.and_eq_true] at hne
  exact ⟨by simpa using hslash, hne.1, hne.2⟩

/-- A part with something other than slashes in front of it. -/
theorem IsPart.append {s part : String} (hslash : '/' ∉ s.toList) (hs : s ≠ "")
    (h : IsPart part) : IsPart (s ++ part) := by
  obtain ⟨c, cs, hcons⟩ := List.exists_cons_of_ne_nil (by simpa using hs : s.toList ≠ [])
  obtain ⟨d, ds, hcons'⟩ :=
    List.exists_cons_of_ne_nil (by simpa using h.ne_empty : part.toList ≠ [])
  refine ⟨?_, ?_, ?_⟩
  · rw [String.toList_append, List.mem_append, not_or]
    exact ⟨hslash, h.slash⟩
  · intro heq
    have hlist := congrArg String.toList heq
    simp [hcons] at hlist
  · intro heq
    have hlist := congrArg String.toList heq
    simp [hcons, hcons'] at hlist

/-! ### Shown names -/

/-- Names that are shown as they are. -/
def IsShown (path : String) : Prop :=
  ∃ root parts, root ∈ ["", "/", "//"] ∧ parts ≠ [] ∧ (∀ part ∈ parts, IsPart part) ∧
    path = root ++ "/".intercalate parts

theorem startsWith_eq (s start : String) :
    s.startsWith start = start.toList.isPrefixOf s.toList := by
  rw [Bool.eq_iff_iff, String.startsWith_string_iff, List.isPrefixOf_iff_prefix]

section Joined

variable {root : String} {parts : List String} (hroot : root ∈ ["", "/", "//"])
  (hne : parts ≠ []) (hparts : ∀ part ∈ parts, IsPart part)

include hne hparts in
/-- Behind its root a shown name goes on with something other than a slash. -/
theorem exists_cons_intercalate :
    ∃ c cs, ("/".intercalate parts).toList = c :: cs ∧ c ≠ '/' := by
  cases parts with
  | nil => exact absurd rfl hne
  | cons part parts =>
    rw [List.forall_mem_cons] at hparts
    obtain ⟨c, cs, hcons⟩ := List.exists_cons_of_ne_nil
      (by simpa using hparts.1.ne_empty : part.toList ≠ [])
    have hc : c ≠ '/' := by
      rintro rfl
      exact hparts.1.slash (by simp [hcons])
    cases parts with
    | nil => exact ⟨c, cs, by simpa using hcons, hc⟩
    | cons next parts =>
      exact ⟨c, _, by simp [String.toList_intercalate, hcons]; rfl, hc⟩

include hne hparts in
theorem isEmpty_joined (root : String) : (root ++ "/".intercalate parts).isEmpty = false := by
  obtain ⟨c, cs, hcons, -⟩ := exists_cons_intercalate hne hparts
  rw [Bool.eq_false_iff]
  intro hempty
  have hlist := congrArg String.toList (String.isEmpty_iff.1 hempty)
  simp [hcons] at hlist

include hroot hne hparts in
theorem pathRoot_joined : pathRoot (root ++ "/".intercalate parts) = root := by
  obtain ⟨c, cs, hcons, hc⟩ := exists_cons_intercalate hne hparts
  simp only [List.mem_cons, List.not_mem_nil, or_false] at hroot
  rcases hroot with rfl | rfl | rfl <;>
    simp [pathRoot, startsWith_eq, hcons, List.isPrefixOf, hc.symm]

include hroot hne hparts in
theorem pathParts_joined : pathParts (root ++ "/".intercalate parts) = parts := by
  have hsplit : (['/'].intercalate (parts.map String.toList)).splitOn '/' =
      parts.map String.toList := by
    refine List.splitOn_intercalate '/' ?_ (by simpa using hne)
    intro cs hcs
    obtain ⟨part, hpart, rfl⟩ := List.mem_map.1 hcs
    exact (hparts part hpart).slash
  have hkept : parts.filter (fun part => part != "" && part != ".") = parts := by
    refine List.filter_eq_self.2 fun part hpart => ?_
    simp [(hparts part hpart).ne_empty, (hparts part hpart).ne_dot]
  -- the slashes of the root add empty parts
  obtain ⟨k, hk⟩ : ∃ k, (root ++ "/".intercalate parts).toList.splitOn '/' =
      List.replicate k [] ++ parts.map String.toList := by
    have hslash (cs : List Char) : ('/' :: cs).splitOn '/' = [] :: cs.splitOn '/' :=
      List.splitOn_append_cons_self_of_not_mem List.not_mem_nil cs
    simp only [List.mem_cons, List.not_mem_nil, or_false] at hroot
    rcases hroot with rfl | rfl | rfl
    · exact ⟨0, by simpa using hsplit⟩
    · exact ⟨1, by simp [hslash, hsplit]⟩
    · exact ⟨2, by simp [hslash, hsplit, List.replicate_succ]⟩
  rw [pathParts, hk]
  simp [hkept]

end Joined

/-- A shown name is shown as it is. -/
theorem IsShown.normalizePath_eq {path : String} (h : IsShown path) :
    normalizePath path = path := by
  obtain ⟨root, parts, hroot, hne, hparts, rfl⟩ := h
  simp only [normalizePath, pathRoot_joined hroot hne hparts, pathParts_joined hroot hne hparts,
    isEmpty_joined hne hparts]
  rfl

/-! ### Names that go with others -/

theorem intercalate_concat_append (init : List String) (last s : String) :
    "/".intercalate (init ++ [last]) ++ s = "/".intercalate (init ++ [last ++ s]) := by
  induction init with
  | nil => simp
  | cons part init ih =>
    have hne (last : String) : init ++ [last] ≠ [] := by simp
    rw [List.cons_append, List.cons_append, String.intercalate_cons_of_ne_nil (hne _),
      String.intercalate_cons_of_ne_nil (hne _), ← ih, String.append_assoc]

theorem pathRoot_mem (name : String) : pathRoot name ∈ ["", "/", "//"] := by
  unfold pathRoot
  split
  · simp
  · split <;> simp

/-- What is put behind a shown name becomes part of it. -/
theorem isShown_append (name : String) {s : String} (hs : IsPart s) :
    IsShown (normalizePath name ++ s) := by
  have hroot := pathRoot_mem name
  rcases List.eq_nil_or_concat (pathParts name) with hnil | ⟨init, last, hconcat⟩
  · by_cases hempty : pathRoot name = ""
    · -- the name is a dot, which stands in front of the new part
      have hdot : normalizePath name = "." := by simp [normalizePath, hnil, hempty]
      have hpart : IsPart ("." ++ s) := hs.append (by simp) (by simp)
      exact ⟨"", ["." ++ s], by simp, nofun, by simpa using hpart, by simp [hdot]⟩
    · have hpath : normalizePath name = pathRoot name := by simp [normalizePath, hnil, hempty]
      exact ⟨pathRoot name, [s], hroot, nofun, by simpa using hs, by simp [hpath]⟩
  · rw [List.concat_eq_append] at hconcat
    have hparts : ∀ part ∈ init ++ [last], IsPart part := by
      rw [← hconcat]
      exact fun part => isPart_of_mem_pathParts
    have hpath : normalizePath name = pathRoot name ++ "/".intercalate (init ++ [last]) := by
      simp only [normalizePath, hconcat, isEmpty_joined (by simp) hparts]
      rfl
    rw [List.forall_mem_append, List.forall_mem_singleton] at hparts
    have hlast : IsPart (last ++ s) := hs.append hparts.2.slash hparts.2.ne_empty
    refine ⟨pathRoot name, init ++ [last ++ s], hroot, by simp, ?_, ?_⟩
    · rw [List.forall_mem_append, List.forall_mem_singleton]
      exact ⟨hparts.1, hlast⟩
    · rw [hpath, String.append_assoc, intercalate_concat_append]

end Scriptlet.CommandLine
