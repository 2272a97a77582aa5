import Scriptlet.Text.Range

/-!
# Blank characters

White space of every script, the separators U+001C to U+001F among it, and the removal of blanks
from both ends of a text.

## Main definitions

* `Text.isBlank` — the white space test
* `Text.trim` — a text without the blanks at its ends
-/

namespace Scriptlet.Text

/-- White space, as inclusive ranges of code points in increasing order. -/
def blankRanges : List (Nat × Nat) :=
  [(0x9, 0xd), (0x1c, 0x20), (0x85, 0x85), (0xa0, 0xa0), (0x1680, 0x1680), (0x2000, 0x200a),
   (0x2028, 0x2029), (0x202f, 0x202f), (0x205f, 0x205f), (0x3000, 0x3000)]

/-- White space of any script. -/
def isBlank (c : Char) : Bool := inRanges blankRanges c

/-- The text without the blanks at both ends. -/
def trim (s : String) : String :=
  String.ofList (((s.toList.dropWhile isBlank).reverse.dropWhile isBlank).reverse)

end Scriptlet.Text
