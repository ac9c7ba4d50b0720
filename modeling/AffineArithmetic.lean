import AffineArithmetic.AffineForm.Assign
import AffineArithmetic.AffineForm.Operators
import AffineArithmetic.AffineForm.Reachable
import AffineArithmetic.AffineForm.Symbol
import AffineArithmetic.AffineForm.Text
import AffineArithmetic.AffineForm.Value
import AffineArithmetic.Enclosure
import AffineArithmetic.Interval.Grammar
import AffineArithmetic.Interval.Proper
import AffineArithmetic.Program.Basic
import AffineArithmetic.Program.Value
import AffineArithmetic.Proofs.AffineForm.Conversion
import AffineArithmetic.Proofs.AffineForm.Laws
import AffineArithmetic.Proofs.AffineForm.Operand
import AffineArithmetic.Proofs.AffineForm.Overflow
import AffineArithmetic.Proofs.AffineForm.Projection
import AffineArithmetic.Proofs.AffineForm.Range
import AffineArithmetic.Proofs.AffineForm.Reachable
import AffineArithmetic.Proofs.AffineForm.Square
import AffineArithmetic.Proofs.AffineForm.State
import AffineArithmetic.Proofs.AffineForm.Stepwise
import AffineArithmetic.Proofs.AffineForm.Text
import AffineArithmetic.Proofs.AffineForm.Tightness
import AffineArithmetic.Proofs.AffineForm.Widening
import AffineArithmetic.Proofs.Interval.Hull
import AffineArithmetic.Proofs.Interval.Isotone
import AffineArithmetic.Proofs.Interval.Padding
import AffineArithmetic.Proofs.Interval.Text
import AffineArithmetic.Proofs.Program.Value
