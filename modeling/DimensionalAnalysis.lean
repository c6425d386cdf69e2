import DimensionalAnalysis.Interchange
import DimensionalAnalysis.Proofs.Catalog.Offences
import DimensionalAnalysis.Proofs.Interchange
import DimensionalAnalysis.Proofs.Quantity.Order
import DimensionalAnalysis.Proofs.Resolution.Order
import DimensionalAnalysis.Quantity.Comparison
import DimensionalAnalysis.Resolution.Trace
import DimensionalAnalysis.Proofs.Expression.Cutting
import DimensionalAnalysis.Proofs.Expression.Composed
import DimensionalAnalysis.Proofs.Quantity.Compatibility
import DimensionalAnalysis.Proofs.Quantity.Untyped
import DimensionalAnalysis.Proofs.Quantity.Rereading
import DimensionalAnalysis.Proofs.Quantity.Scale
import DimensionalAnalysis.Proofs.Quantity.Swapping
import DimensionalAnalysis.Proofs.Catalog.Symbols
import DimensionalAnalysis.Proofs.Expression.Signed
import DimensionalAnalysis.Proofs.Number.Nearest
import DimensionalAnalysis.Proofs.Resolution.Transparency
import DimensionalAnalysis.Proofs.Resolution.Literal
import DimensionalAnalysis.Proofs.Resolution.Factor
import DimensionalAnalysis.Proofs.Quantity.Commuting
import DimensionalAnalysis.Proofs.Quantity.Coherence
import DimensionalAnalysis.Proofs.Quantity.Division
import DimensionalAnalysis.Proofs.Quantity.Negation
import DimensionalAnalysis.Proofs.Signature.NormalForm
import DimensionalAnalysis.Proofs.Signature.Arithmetic
import DimensionalAnalysis.Proofs.Expression.Numeral
