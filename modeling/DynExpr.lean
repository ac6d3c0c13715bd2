import DynExpr.Main
import DynExpr.Projection
import DynExpr.Proofs.Channel.Tag
import DynExpr.Proofs.Channel.RoundTrip
import DynExpr.Proofs.Evaluation.Everywhere
import DynExpr.Proofs.Evaluation.Symbols
import DynExpr.Proofs.Channel.Carries
import DynExpr.Proofs.Expression.Evaluators
import DynExpr.Proofs.Expression.Restored
import DynExpr.Proofs.Token.Scanned
import DynExpr.Proofs.Expression.Realizes
import DynExpr.Proofs.Node.Shape
import DynExpr.Proofs.Expression.Meanings
import DynExpr.Proofs.Expression.Tracks
import DynExpr.Proofs.Expression.Transparency
import DynExpr.Proofs.Channel.Lifetime
import DynExpr.Proofs.Token.Boundary
import DynExpr.Proofs.Token.Names
import DynExpr.Proofs.Node.Builds
import DynExpr.Proofs.Node.Reads
import DynExpr.Proofs.Node.Outcomes
import DynExpr.Proofs.Token.Joined
import DynExpr.Proofs.Node.Context
import DynExpr.Proofs.Node.Yield
import DynExpr.Proofs.Node.Enclosed
import DynExpr.Proofs.Double.Written
import DynExpr.Proofs.Node.Spells
import DynExpr.Proofs.Node.Spelled
import DynExpr.Proofs.Node.ReadBack
import DynExpr.Proofs.Node.Fragments
import DynExpr.Proofs.Evaluation.Folding
import DynExpr.Proofs.Evaluation.Foldings
import DynExpr.Proofs.Expression.Unfolded
import DynExpr.Proofs.Expression.Kept
import DynExpr.Proofs.Expression.Remembered
import DynExpr.Proofs.Expression.Supplied
import DynExpr.Proofs.Expression.Operands
import DynExpr.Proofs.Value.FiniteMap
import DynExpr.Proofs.Subscript.Slice
import DynExpr.Proofs.Subscript.Characters
import DynExpr.Proofs.Subscript.Outside
import DynExpr.Proofs.Text.Segments
import DynExpr.Proofs.Channel.Arithmetic
import DynExpr.Proofs.Expression.Quotation
import DynExpr.Proofs.Expression.Shadowing
import DynExpr.Proofs.Expression.Arities
import DynExpr.Proofs.Double.Nearest
import DynExpr.Proofs.Double.Distance
import DynExpr.Proofs.Double.Shortest
import DynExpr.Proofs.Double.ReadBack
import DynExpr.Proofs.Double.Truncation
import DynExpr.Proofs.Expression.Constants
import DynExpr.Proofs.Projection.Integers
import DynExpr.Proofs.Token.Tiling
import DynExpr.Proofs.Token.Numerals
import DynExpr.Proofs.Token.Respaced
import DynExpr.Proofs.Token.Hexadecimal
import DynExpr.Proofs.Value.Comparable
import DynExpr.Proofs.Report.Table
import DynExpr.Proofs.Report.Files
