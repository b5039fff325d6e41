import Tenure.Mutator
import Tenure.Proofs.Exhaustion
import Tenure.Proofs.Invariants
import Tenure.Proofs.Packing
import Tenure.Proofs.Preservation
import Tenure.Proofs.Refinement
import Tenure.Proofs.Redirection
import Tenure.Proofs.Vacancy
import Tenure.Snapshot
import Tenure.Proofs.Selection
import Tenure.Proofs.Confluence
import Tenure.Proofs.Arrangement
import Tenure.Proofs.Twins
import Tenure.Proofs.Image
import Tenure.Proofs.Canonical
import Tenure.Proofs.Atomicity
import Tenure.Proofs.Maximum
import Tenure.Proofs.Permanence
import Tenure.Proofs.Codec
import Tenure.Proofs.Freshness
import Tenure.Proofs.Compaction
import Tenure.Proofs.Forwarding
import Tenure.Proofs.Guards
import Tenure.Proofs.Patches
import Tenure.Proofs.Audit
import Tenure.Proofs.Updates
import Tenure.Proofs.Layout
import Tenure.Proofs.Sweeps
import Tenure.Proofs.Enumeration
import Tenure.Proofs.Following
