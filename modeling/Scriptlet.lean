import Scriptlet.Main
import Scriptlet.Proofs.Grammar.Expression
import Scriptlet.Proofs.Grammar.Statement
import Scriptlet.Proofs.Parse.Contract
import Scriptlet.Proofs.Parse.Soundness
import Scriptlet.Proofs.Eval.Contract
import Scriptlet.Proofs.Eval.Fuel
import Scriptlet.Proofs.Eval.Progress
import Scriptlet.Proofs.Tree.RoundTrip
import Scriptlet.Proofs.Eval.Lookup
import Scriptlet.Proofs.Eval.Frame
import Scriptlet.Proofs.Eval.IndexAssignment
import Scriptlet.Proofs.Eval.LexicalScope
import Scriptlet.Proofs.Eval.SingleWrite
import Scriptlet.Proofs.Eval.Captured
import Scriptlet.Proofs.Eval.Located
import Scriptlet.Proofs.Eval.Tracing
import Scriptlet.Proofs.Lines.Erasure
import Scriptlet.Proofs.Lines.Parse
import Scriptlet.Proofs.Lines.Eval
import Scriptlet.Proofs.Lines.Layout
import Scriptlet.Proofs.Parse.Locality
import Scriptlet.Proofs.Scan.Join
import Scriptlet.Proofs.Scan.Lexeme
import Scriptlet.Proofs.Scan.Lossless
import Scriptlet.Proofs.Session.Sequence
import Scriptlet.Proofs.Decimal.NotNan
import Scriptlet.Proofs.Decimal.Numeral
import Scriptlet.Proofs.Json.Atom
import Scriptlet.Proofs.Json.RoundTrip
import Scriptlet.Proofs.CommandLine.File
import Scriptlet.Proofs.Tree.Readable
import Scriptlet.Proofs.Grammar.Readable
import Scriptlet.Proofs.CommandLine.Emitted
import Scriptlet.Proofs.CommandLine.Path
import Scriptlet.Proofs.Parse.Closed
import Scriptlet.Proofs.Parse.Blame
import Scriptlet.Proofs.Parse.Progress
import Scriptlet.Proofs.Parse.Depth
import Scriptlet.Proofs.Parse.Position
import Scriptlet.Proofs.Parse.Distinct
import Scriptlet.Proofs.Parse.Resume
import Scriptlet.Proofs.Parse.Cursor
import Scriptlet.Proofs.Parse.Tied
import Scriptlet.Proofs.Parse.InBounds
import Scriptlet.Proofs.Strict.Fork
import Scriptlet.Proofs.Strict.Tracking
import Scriptlet.Proofs.Strict.FirstFault
import Scriptlet.Proofs.Strict.Generated
import Scriptlet.Proofs.CommandLine.TreeFile
import Scriptlet.Proofs.Eval.Folding
import Scriptlet.Proofs.Eval.Lockstep
import Scriptlet.Proofs.Eval.Loop
import Scriptlet.Proofs.Lines.Spacing
import Scriptlet.Proofs.Parse.Succession
import Scriptlet.Proofs.Parse.BrokenStatement
import Scriptlet.Proofs.Scan.Spelling
import Scriptlet.Proofs.Tree.Form
import Scriptlet.Proofs.Tree.Legible
import Scriptlet.Proofs.Decimal.Shortest
import Scriptlet.Proofs.Decimal.Injective
import Scriptlet.Proofs.Grammar.Legible
