import ParseTree.Text.Basic
import ParseTree.Text.Blank
import ParseTree.Text.Position
import ParseTree.Text.Quoted
import ParseTree.Text.Change
import ParseTree.Text.Document
import ParseTree.Language
import ParseTree.Grammar
import ParseTree.Error
import ParseTree.Settings
import ParseTree.Rose
import ParseTree.Tree
import ParseTree.Arena.Basic
import ParseTree.Arena.Lowering
import ParseTree.Arena.Navigation
import ParseTree.Arena.Sexp
import ParseTree.Arena.Describe
import ParseTree.Text.Scan
import ParseTree.Text.Ruler
import ParseTree.Arith.Token
import ParseTree.Arith.Expression
import ParseTree.Query.Token
import ParseTree.Query.Pattern
import ParseTree.Query.Fault
import ParseTree.Query.Compile
import ParseTree.Query.Match
import ParseTree.Query.Run
import ParseTree.Engine
import ParseTree.Parsed
import ParseTree.Session
import ParseTree.Visit
import ParseTree.Proofs.Text.Boundary
import ParseTree.Proofs.Text.Scan
import ParseTree.Proofs.Arena.Numbering
import ParseTree.Proofs.Arena.Geometry
import ParseTree.Proofs.Arena.Sexp
import ParseTree.Proofs.Query.Embedding
import ParseTree.Proofs.Query.SearchOrder
import ParseTree.Proofs.Query.Reading
import ParseTree.Proofs.Query.Slots
import ParseTree.Proofs.Query.Captures
import ParseTree.Proofs.Query.Matching
import ParseTree.Proofs.Arith.Tokens
import ParseTree.Proofs.Arith.Reading
import ParseTree.Proofs.Arith.Geometry
import ParseTree.Proofs.Arith.Leaves
import ParseTree.Proofs.Arith.Grammar
import ParseTree.Proofs.Arith.Words
import ParseTree.Proofs.Arith.RoundTrip
import ParseTree.Proofs.Arith.Vocabulary
import ParseTree.Proofs.Query.Grammar
import ParseTree.Proofs.Query.Consuming
import ParseTree.Proofs.Query.Derivation
import ParseTree.Proofs.Query.Recognition
import ParseTree.Proofs.Query.Acceptance
import ParseTree.Proofs.Query.Fields
import ParseTree.Proofs.Query.Replay
import ParseTree.Proofs.Query.WellFormed
import ParseTree.Proofs.Query.Words
import ParseTree.Proofs.Query.Printing
import ParseTree.Proofs.Query.RoundTrip
import ParseTree.Proofs.Query.Sexp
import ParseTree.Proofs.Session.Editing
import ParseTree.Proofs.Session.Coherence
import ParseTree.Proofs.Text.Change
import ParseTree.Proofs.Arith.Shape
import ParseTree.Proofs.Arith.Cutoff
import ParseTree.Proofs.Arena.Grafting
import ParseTree.Proofs.Arith.Binding
import ParseTree.Proofs.Arith.Splicing
import ParseTree.Proofs.Arith.Substitution
import ParseTree.Proofs.Text.Position
import ParseTree.Proofs.Text.Lines
import ParseTree.Proofs.Text.Replacement
import ParseTree.Proofs.Query.Selection
import ParseTree.Proofs.Query.Locality
import ParseTree.Proofs.Query.Literals
import ParseTree.Proofs.Query.Declarations
import ParseTree.Proofs.Query.Relocation
import ParseTree.Proofs.Query.Concatenation
import ParseTree.Proofs.Query.Boundness
import ParseTree.Proofs.Arith.Faults
import ParseTree.Proofs.Arith.Kinds
import ParseTree.Proofs.Arith.Layout
import ParseTree.Proofs.Session.Diagnostics
import ParseTree.Proofs.Session.Contexts
import ParseTree.Proofs.Arena.Links
import ParseTree.Proofs.Arena.Lowering
import ParseTree.Proofs.Visit.Trace
import ParseTree.Proofs.Visit.Counting
import ParseTree.Proofs.Visit.Dispatch
import ParseTree.Proofs.Visit.Preorder
import ParseTree.Proofs.Arith.Progress
import ParseTree.Proofs.Query.Tiling
import ParseTree.Proofs.Query.Progress
import ParseTree.Proofs.Query.Counted
import ParseTree.Proofs.Query.Turns
