import ComplexFormula.Accumulation
import ComplexFormula.Binary64.Bits
import ComplexFormula.Proofs.Binary64.Bits
import ComplexFormula.Proofs.Binary64.Order
import ComplexFormula.Proofs.Binary64.Rational
import ComplexFormula.Proofs.Binary64.Shortest
import ComplexFormula.Proofs.Complex.Accuracy
import ComplexFormula.Proofs.Complex.Exact
import ComplexFormula.Proofs.Complex.Inverse
import ComplexFormula.Proofs.Complex.Range
import ComplexFormula.Proofs.Complex.Scaling
import ComplexFormula.Proofs.Complex.SelfQuotient
import ComplexFormula.Proofs.Complex.Text
import ComplexFormula.Proofs.Complex.Tolerance
import ComplexFormula.Proofs.Formula.Accumulation
import ComplexFormula.Proofs.Formula.Agreement
import ComplexFormula.Proofs.Formula.Brackets
import ComplexFormula.Proofs.Formula.Closeness
import ComplexFormula.Proofs.Formula.Exchange
import ComplexFormula.Proofs.Formula.Integer
import ComplexFormula.Proofs.Formula.Locality
import ComplexFormula.Proofs.Formula.Propagation
import ComplexFormula.Proofs.Formula.Reading
import ComplexFormula.Proofs.Formula.SameNumber
import ComplexFormula.Proofs.Formula.SignRewriting
import ComplexFormula.Proofs.Formula.Substitution
import ComplexFormula.Proofs.Formula.Variables
import ComplexFormula.Proofs.Nearest
import ComplexFormula.Proofs.SignificantDigits
import ComplexFormula.Proofs.Workspace
