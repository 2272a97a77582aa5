import Scriptlet.Parse.Statement
import Scriptlet.Scan.Basic

/-!
# Programs from text

Scanning and parsing put together: the statements of a program text with all diagnostics, those of
the scanner before those of the parser.

## Main definitions

* `parseSource` — statements and diagnostics of a program text
-/

namespace Scriptlet

/-- The statements of a program text that survived, and the diagnostics. -/
def parseSource (source : String) : Parsed :=
  let scanned := scan source
  match parseTokens? scanned.tokens with
  | some parsed => { parsed with diagnostics := scanned.diagnostics ++ parsed.diagnostics }
  | none => { statements := [], diagnostics := scanned.diagnostics }

end Scriptlet
