import CubeRouting.Config.Document
import CubeRouting.Proofs.Run.Overlap
import CubeRouting.Torus.Sphere
import CubeRouting.Proofs.Run.Addresses
import CubeRouting.Proofs.Run.Coverage
import CubeRouting.Proofs.Run.Lookup
import CubeRouting.Proofs.Run.Neighborhood
import CubeRouting.Proofs.Identifier.Bytes
import CubeRouting.Proofs.Policy.Balanced
import CubeRouting.Proofs.Run.Bookkeeping
import CubeRouting.Proofs.Run.Skipped
import CubeRouting.Proofs.Run.Retention
import CubeRouting.Proofs.Run.Repetition
import CubeRouting.Proofs.Run.Levels
import CubeRouting.Proofs.Run.Sweeps
import CubeRouting.Proofs.Run.Turnover
import CubeRouting.Proofs.Run.Commutation
import CubeRouting.Proofs.Placement.Mutual
import CubeRouting.Proofs.Policy.MaskWindow
import CubeRouting.Proofs.Run.Removal
import CubeRouting.Proofs.Identifier.Ring
import CubeRouting.Proofs.Number.Exact
import CubeRouting.Proofs.Identifier.EncodingOrder
import CubeRouting.Proofs.Identifier.Digest
import CubeRouting.Proofs.Identifier.Writes
import CubeRouting.Proofs.Torus.Ring
import CubeRouting.Proofs.Torus.Metrics
import CubeRouting.Proofs.Torus.Steinhaus
import CubeRouting.Proofs.Identifier.Carry
import CubeRouting.Proofs.Torus.Orthants
import CubeRouting.Proofs.Torus.Translation
import CubeRouting.Proofs.Policy.Evenness
import CubeRouting.Proofs.Run.Ordered
import CubeRouting.Proofs.Run.BucketOrder
