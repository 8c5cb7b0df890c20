import LiftedCode.Access
import LiftedCode.Data.KeySet
import LiftedCode.Expr.Fold
import LiftedCode.Expr.Reach
import LiftedCode.Flow.Dot
import LiftedCode.Flow.Postorder
import LiftedCode.Lowering.Assembly
import LiftedCode.Trace.Block
import LiftedCode.Proofs.Lowering.SingleAssignment
import LiftedCode.Proofs.Lowering.WellTyped
import LiftedCode.Proofs.Trace.Refinement
import LiftedCode.Proofs.Trace.Sorted
import LiftedCode.Proofs.Flow.Transpose
import LiftedCode.Proofs.Flow.Range
import LiftedCode.Proofs.Flow.Postorder
import LiftedCode.Proofs.Lowering.Graph
import LiftedCode.Proofs.Lowering.Phis
import LiftedCode.Proofs.Lowering.References
import LiftedCode.Proofs.Lowering.Declarations
import LiftedCode.Proofs.Lowering.Assembly
import LiftedCode.Proofs.Lowering.Leftover
import LiftedCode.Proofs.Trace.Operands
import LiftedCode.Proofs.Trace.Classification
import LiftedCode.Proofs.Lowering.Linked
import LiftedCode.Proofs.Lowering.Options.Routine
import LiftedCode.Proofs.Scan
import LiftedCode.Proofs.Lowering.Overflow
import LiftedCode.Proofs.Expr.Built
import LiftedCode.Proofs.Expr.Fold
import LiftedCode.Proofs.Expr.Reach
import LiftedCode.Proofs.Expr.Same
import LiftedCode.Proofs.Faultless
import LiftedCode.Proofs.Lowering.Comments.Module
import LiftedCode.Proofs.Lowering.Types.Block
import LiftedCode.Proofs.Lowering.Access.RoundTrip
import LiftedCode.Proofs.Lowering.Refusals
import LiftedCode.Proofs.MachineOperands
import LiftedCode.Proofs.Smt.RoundTrip
import LiftedCode.Proofs.Reads
import LiftedCode.Proofs.Expr.Order
import LiftedCode.Proofs.Data.OrderedSet
