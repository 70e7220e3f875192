import AffineIR.Proofs.Constraint.Rounds
import AffineIR.Proofs.Constraint.Completeness
import AffineIR.Proofs.Constraint.Exactness
import AffineIR.Proofs.Affine.Folding
import AffineIR.Proofs.Affine.Reading
import AffineIR.Proofs.Flow.Reversal
import AffineIR.Proofs.Memory.Merging
import AffineIR.Proofs.Memory.Forwarding
import AffineIR.Proofs.Memory.Freshness
import AffineIR.Proofs.Nest.Stability
import AffineIR.Proofs.Nest.Firing
import AffineIR.Proofs.Run.Addressing
import AffineIR.Proofs.Run.Limits
import AffineIR.Proofs.Memory.Summaries
import AffineIR.Proofs.Memory.Descent
import AffineIR.Proofs.Memory.Retries
import AffineIR.Proofs.Graph.Pruning
import AffineIR.Proofs.Run.Iteration
import AffineIR.Proofs.Graph.Arenas
