import NarrowVec.Address.Lemmas
import NarrowVec.Buffer.Op
import NarrowVec.Dense.Op
import NarrowVec.Proofs.Backings
import NarrowVec.Proofs.Buffers
import NarrowVec.Proofs.ByteViews
import NarrowVec.Proofs.Capacities
import NarrowVec.Proofs.CellModels
import NarrowVec.Proofs.Comparisons
import NarrowVec.Proofs.Counts
import NarrowVec.Proofs.Deques
import NarrowVec.Proofs.Distances
import NarrowVec.Proofs.Elements
import NarrowVec.Proofs.Erasing
import NarrowVec.Proofs.Extents
import NarrowVec.Proofs.FieldAccess
import NarrowVec.Proofs.FieldPairs
import NarrowVec.Proofs.FieldRuns
import NarrowVec.Proofs.Fitting
import NarrowVec.Proofs.Grids
import NarrowVec.Proofs.Growth
import NarrowVec.Proofs.GrowthNotes
import NarrowVec.Proofs.Histories
import NarrowVec.Proofs.Holding
import NarrowVec.Proofs.Indices
import NarrowVec.Proofs.ListLaws
import NarrowVec.Proofs.ListModel
import NarrowVec.Proofs.LowBits
import NarrowVec.Proofs.Moves
import NarrowVec.Proofs.Narrowing
import NarrowVec.Proofs.Padding
import NarrowVec.Proofs.Refinement
import NarrowVec.Proofs.Regrowth
import NarrowVec.Proofs.Rooms
import NarrowVec.Proofs.Safety
import NarrowVec.Proofs.Scanning
import NarrowVec.Proofs.Simulations
import NarrowVec.Proofs.SingleSteps
import NarrowVec.Proofs.VectorLaws
import NarrowVec.Proofs.Vectors
import NarrowVec.Proofs.Visiting
import NarrowVec.Proofs.Walks
import NarrowVec.Registers
import NarrowVec.UIntVec.Op
import NarrowVec.Words.Lemmas
import NarrowVec.Words.Op
