import Lineage.Variance
import Lineage.Ty.Basic
import Lineage.Ty.Subst
import Lineage.Ty.Text
import Lineage.Ty.Merge
import Lineage.Ty.Encode
import Lineage.Ty.Decode
import Lineage.Ty.Reader
import Lineage.Roster
import Lineage.Text.Bytes
import Lineage.Text.Ranges
import Lineage.Text.Blank
import Lineage.Text.Width
import Lineage.Text.Glyph
import Lineage.Text.Printable
import Lineage.Text.Quoted
import Lineage.Text.Shortest
import Lineage.Diagnostic
import Lineage.Diagnostic.Canvas
import Lineage.Diagnostic.Lines
import Lineage.Diagnostic.Mark
import Lineage.Diagnostic.Rows
import Lineage.Diagnostic.Drawing
import Lineage.Diagnostic.Layout
import Lineage.Expr.Token
import Lineage.Expr.Lexer
import Lineage.Expr.Fault
import Lineage.Expr.Parser
import Lineage.Json.Fault
import Lineage.Json.Cursor
import Lineage.Json.Quote
import Lineage.Json.Number
import Lineage.Json.Scalar
import Lineage.Json.Value
import Lineage.Json.Skip
import Lineage.Json.Record
import Lineage.Json.Writer
import Lineage.Listing
import Lineage.Hierarchy.Node
import Lineage.Hierarchy.Error
import Lineage.Hierarchy.Basic
import Lineage.Hierarchy.Normal
import Lineage.Hierarchy.Build
import Lineage.Hierarchy.Fulfill
import Lineage.Nearest.Direction
import Lineage.Nearest.Order
import Lineage.Nearest.Table
import Lineage.Nearest.Constraint
import Lineage.Nearest.Solve
import Lineage.Nearest.Common
import Lineage.Hierarchy.Query
import Lineage.Manifest
import Lineage.Hierarchy.Dump
import Lineage.Command.Arguments
import Lineage.Command.Outcome
import Lineage.Main
import Lineage.Proofs.Substitution
import Lineage.Proofs.Covering
import Lineage.Proofs.Monadic
import Lineage.Proofs.Normal
import Lineage.Proofs.Reachable
import Lineage.Proofs.Extension
import Lineage.Proofs.Invariant
import Lineage.Proofs.Construction
import Lineage.Proofs.Order
import Lineage.Proofs.Table
import Lineage.Proofs.Coherence
import Lineage.Proofs.Confluence
import Lineage.Proofs.Alike
import Lineage.Proofs.Lawful
import Lineage.Proofs.Subtyping
import Lineage.Proofs.Raising
import Lineage.Proofs.Narrowing
import Lineage.Proofs.GroundOrder
import Lineage.Proofs.Matching
import Lineage.Proofs.Search
import Lineage.Proofs.CommonBound
import Lineage.Proofs.FirstCommon
import Lineage.Proofs.Parameterless
import Lineage.Proofs.Lexing
import Lineage.Proofs.Scanning
import Lineage.Proofs.Partition
import Lineage.Proofs.Reading
import Lineage.Proofs.Cursor
import Lineage.Proofs.Wrapping
import Lineage.Proofs.FaultPlaces
import Lineage.Proofs.Grammar
import Lineage.Proofs.Printable
import Lineage.Proofs.Derivation
import Lineage.Proofs.LongTexts
import Lineage.Proofs.RoundTrip
import Lineage.Proofs.Rounds
import Lineage.Proofs.Closure
import Lineage.Proofs.Validity
import Lineage.Proofs.Pair
import Lineage.Proofs.Meeting
import Lineage.Proofs.Exposure
import Lineage.Proofs.Absorption
import Lineage.Proofs.BareNames
import Lineage.Proofs.Duality
import Lineage.Proofs.Renaming
import Lineage.Proofs.RenamedCalls
import Lineage.Proofs.Hygiene
import Lineage.Proofs.Composition
import Lineage.Proofs.Outline
import Lineage.Proofs.Rebuild
import Lineage.Proofs.Legible
import Lineage.Proofs.Reload
import Lineage.Proofs.JsonText
import Lineage.Proofs.JsonInstances
import Lineage.Proofs.Ending
import Lineage.Proofs.Termination
import Lineage.Proofs.Flat
import Lineage.Proofs.FlatSearch
import Lineage.Proofs.AncestorOrder
import Lineage.Proofs.Contexts
import Lineage.Proofs.SubtypeOrder
import Lineage.Proofs.Adjunction
import Lineage.Proofs.Exchange
import Lineage.Proofs.Antichain
import Lineage.Proofs.NeutralOperands
import Lineage.Proofs.UpperBounds
import Lineage.Proofs.Specificity
import Lineage.Proofs.VisitOrder
