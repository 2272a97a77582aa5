import Scriptlet.CommandLine.File
import Scriptlet.Proofs.Json.RoundTrip

/-!
# Files that were written

Reading a file turns every line end into a newline, which changes a text only where it holds a
carriage return. The texts of JSON values hold none: inside strings it is escaped, and lines end
with newlines. So the text of a value is what is read from the file that it was written to.

## Main definitions

* `CommandLine.Entry.ofText` — the file that holds a text

## Main results

* `CommandLine.readText_ofText_indented` — the text of a JSON value is read from its file
-/

namespace Scriptlet

/-! ### Carriage returns -/

/-- A text without carriage returns. -/
def NoReturn (s : String) : Prop := '\r' ∉ s.toList

instance (s : String) : Decidable (NoReturn s) := inferInstanceAs (Decidable ('\r' ∉ s.toList))

namespace NoReturn

theorem append {s t : String} (hs : NoReturn s) (ht : NoReturn t) : NoReturn (s ++ t) := by
  rw [NoReturn, String.toList_append, List.mem_append, not_or]
  exact ⟨hs, ht⟩

theorem natText (n : Nat) : NoReturn (natText n) := by
  rw [NoReturn, Scriptlet.natText, String.toList_ofList]
  intro h
  cases Number.isDigit_of_mem_toDigits h

theorem write (l : Layout) (d : Decimal) : NoReturn (String.ofList (l.write d)) := by
  obtain ⟨p, hp⟩ := l.exists_parts d
  rw [NoReturn, String.toList_ofList, hp.text]
  intro h
  rcases hp.proper.mem_text h with h | h
  · cases h
  · exact absurd h (by decide)

theorem floatText (x : Float) : NoReturn (Json.floatText x) := by
  unfold Json.floatText Number.inspect
  split
  · simp [NoReturn]
  split
  · split <;> simp [NoReturn]
  refine append ?_ (write _ _)
  split <;> simp [NoReturn]

theorem stringText (s : String) : NoReturn (Json.stringText Json.rawChar s) := by
  have hchar (c : Char) : '\r' ∉ Json.rawChar c := by
    rcases Json.rawChar_cases c with ⟨escape, hraw, hreturn, -⟩ | ⟨hraw, -, -, hcontrol⟩
    · simpa [hraw] using hreturn
    · rw [hraw, List.mem_singleton]
      rintro rfl
      exact absurd hcontrol (by decide)
  simp [NoReturn, Json.stringText, hchar]

theorem intText (n : Int) : NoReturn (intText n) := by
  unfold Scriptlet.intText
  split
  · exact append (by simp [NoReturn]) (natText _)
  · exact natText _

theorem atomText (a : Atom) : NoReturn (Json.atomText Json.rawChar a) := by
  cases a with
  | null => simp [NoReturn, Json.atomText]
  | bool b => cases b <;> simp [NoReturn, Json.atomText]
  | int n =>
    rw [Json.atomText]
    exact intText n
  | float x =>
    rw [Json.atomText]
    exact floatText x
  | nan mark =>
    rw [Json.atomText]
    exact floatText _
  | text s =>
    rw [Json.atomText]
    exact stringText s

theorem newLine (level : Nat) : NoReturn (Json.newLine level) := by simp [NoReturn, Json.newLine]

theorem bracketed {opening closing : String} {level : Nat} {parts : List String}
    (ho : NoReturn opening) (hc : NoReturn closing) (h : ∀ part ∈ parts, NoReturn part) :
    NoReturn (Json.bracketed opening closing level parts) := by
  unfold Json.bracketed
  split
  · exact append ho hc
  refine append (append (append (append ho (newLine _)) ?_) (newLine _)) hc
  induction parts with
  | nil => simp [NoReturn]
  | cons part parts ih =>
    rw [List.forall_mem_cons] at h
    cases parts with
    | nil => simpa using h.1
    | cons next parts =>
      rw [String.intercalate_cons_of_ne_nil (List.cons_ne_nil _ _)]
      exact append (append h.1 (append (by simp [NoReturn]) (newLine _))) (ih h.2 (by simp))

mutual

theorem indentedAt (level : Nat) : ∀ v : Json, NoReturn (v.indentedAt level)
  | .atom a => by
    rw [Json.indentedAt]
    exact atomText a
  | .arr items => by
    rw [Json.indentedAt]
    exact bracketed (by simp [NoReturn]) (by simp [NoReturn]) (indentedItems (level + 1) items)
  | .obj fields => by
    rw [Json.indentedAt]
    exact bracketed (by simp [NoReturn]) (by simp [NoReturn]) (indentedFields (level + 1) fields)

theorem indentedItems (level : Nat) :
    ∀ (items : List Json), ∀ part ∈ Json.indentedItems level items, NoReturn part
  | [] => nofun
  | v :: rest => by
    rw [Json.indentedItems, List.forall_mem_cons]
    exact ⟨indentedAt level v, indentedItems level rest⟩

theorem indentedFields (level : Nat) :
    ∀ (fields : List (String × Json)), ∀ part ∈ Json.indentedFields level fields, NoReturn part
  | [] => nofun
  | (key, v) :: rest => by
    rw [Json.indentedFields, List.forall_mem_cons]
    have hkey : NoReturn (Json.stringText Json.rawChar key ++ ": ") :=
      append (stringText key) (by simp [NoReturn])
    exact ⟨append hkey (indentedAt level v), indentedFields level rest⟩

end

end NoReturn

/-! ### Reading what was written -/

namespace CommandLine

theorem newlinesOnto_eq {cs : List Char} (h : '\r' ∉ cs) (acc : List Char) :
    newlinesOnto acc cs = acc.reverse ++ cs := by
  induction cs generalizing acc with
  | nil => simp [newlinesOnto]
  | cons c cs ih =>
    rw [List.mem_cons, not_or] at h
    rw [newlinesOnto, ih h.2]
    · simp
    · exact fun _ hc _ => h.1 hc.symm
    · exact fun hc => h.1 hc.symm

/-- A text without carriage returns keeps its line ends. -/
theorem universalNewlines_eq {s : String} (h : NoReturn s) : universalNewlines s = s := by
  rw [universalNewlines, newlinesOnto_eq h]
  simp

/-- The file that holds a text. -/
def Entry.ofText (s : String) : Entry := .file s.toUTF8

theorem readText_ofText (s : String) : (Entry.ofText s).readText = .ok (universalNewlines s) := by
  have hutf8 : String.fromUTF8? s.toUTF8 = some s := dif_pos s.isValidUTF8
  simp only [Entry.ofText, Entry.readText, hutf8]

/-- The text of a JSON value is read from the file that it was written to. -/
theorem readText_ofText_indented (v : Json) :
    (Entry.ofText v.indented).readText = .ok v.indented := by
  have hnone : NoReturn v.indented := NoReturn.indentedAt 0 v
  rw [readText_ofText, universalNewlines_eq hnone]

end CommandLine

end Scriptlet
