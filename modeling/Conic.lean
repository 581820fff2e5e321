import Conic.Json.Reader
import Conic.Json.Writer
import Conic.Output.Target
import Conic.Program.Builder
import Conic.Program.File
import Conic.Proofs.Arrays
import Conic.Proofs.Cone.Blocks
import Conic.Proofs.Cone.Boundary
import Conic.Proofs.Cone.Jordan
import Conic.Proofs.Cone.LargestStep
import Conic.Proofs.Cone.NesterovTodd
import Conic.Proofs.Cone.Points
import Conic.Proofs.Cone.Rays
import Conic.Proofs.Embedding.Denominator
import Conic.Proofs.Embedding.Descent
import Conic.Proofs.Embedding.Interior
import Conic.Proofs.Exact.Reals
import Conic.Proofs.Exact.Vectors
import Conic.Proofs.Ldl.Candidates
import Conic.Proofs.Ldl.Criterion
import Conic.Proofs.Ldl.Factors
import Conic.Proofs.Ldl.Interrupted
import Conic.Proofs.Ldl.Paths
import Conic.Proofs.Ldl.Places
import Conic.Proofs.Loops
import Conic.Proofs.Program.Building
import Conic.Proofs.Program.Order
import Conic.Proofs.Program.Validity
import Conic.Proofs.Program.Writing
import Conic.Proofs.Schur.Complement
import Conic.Proofs.Solver.Certificate
import Conic.Proofs.Solver.Columns
import Conic.Proofs.Solver.Failures
import Conic.Proofs.Solver.Independence
import Conic.Proofs.Solver.Lifetime
import Conic.Proofs.Solver.Names
import Conic.Proofs.Solver.Refinement
import Conic.Proofs.Solver.Solution
import Conic.Proofs.Solver.Timing
import Conic.Proofs.Sparse.Dense
import Conic.Proofs.Sparse.Layout
import Conic.Proofs.Sparse.Product
import Conic.Proofs.Timers.Nesting
import Conic.Solver.Basic
