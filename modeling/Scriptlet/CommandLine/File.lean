/-!
# Files of the command line

How names of files are shown, and how the bytes of a file become text.

## Main definitions

* `normalizePath` — the name of a file as messages show it
* `Entry` — what a name stands for
* `universalNewlines` — line ends of every system as newlines
* `Entry.readText` — the text of a file
-/

namespace Scriptlet.CommandLine

/-- The parts between the slashes of a name, without empty and `.` parts. -/
def pathParts (name : String) : List String :=
  ((name.toList.splitOn '/').map String.ofList).filter fun part => part != "" && part != "."

/-- The slashes that a name starts with: one or two; more count as one. -/
def pathRoot (name : String) : String :=
  if name.startsWith "//" && !name.startsWith "///" then "//"
  else if name.startsWith "/" then "/"
  else ""

/-- The name of a file without empty and `.` parts. -/
def normalizePath (name : String) : String :=
  let path := pathRoot name ++ "/".intercalate (pathParts name)
  if path.isEmpty then "." else path

/-- What the name of a file stands for. -/
inductive Entry
  | missing
  | directory
  | file (bytes : ByteArray)

/-- The characters with every line end written as a newline; those before are given newest first. -/
def newlinesOnto (acc : List Char) : List Char → List Char
  | [] => acc.reverse
  | '\r' :: '\n' :: rest => newlinesOnto ('\n' :: acc) rest
  | '\r' :: rest => newlinesOnto ('\n' :: acc) rest
  | c :: rest => newlinesOnto (c :: acc) rest

/-- A text in which a carriage return, alone or before a newline, is a newline. -/
def universalNewlines (s : String) : String := String.ofList (newlinesOnto [] s.toList)

/-- Why a file cannot be read. -/
inductive ReadFault
  | missing
  | directory
  /-- The bytes are not UTF-8. -/
  | notText
  deriving DecidableEq

/-- The text of a file. -/
def Entry.readText : Entry → Except ReadFault String
  | missing => .error .missing
  | directory => .error .directory
  | file bytes =>
    match String.fromUTF8? bytes with
    | some s => .ok (universalNewlines s)
    | none => .error .notText

/-- The lines of a text; a newline at the end starts no further line. -/
def linesOf (s : String) : List String :=
  let lines := s.splitOn "\n"
  if lines.getLast? == some "" then lines.dropLast else lines

end Scriptlet.CommandLine
