import Qirc.Main
import Qirc.Proofs.Emission.Preservation
import Qirc.Proofs.Emission.Verified
import Qirc.Proofs.Graph.CallWaves
import Qirc.Proofs.Graph.CopyEnds
import Qirc.Proofs.Graph.RegionOrder
import Qirc.Proofs.IR.Branches.Alike
import Qirc.Proofs.IR.DeadRuns
import Qirc.Proofs.IR.Dominators
import Qirc.Proofs.IR.Executions
import Qirc.Proofs.IR.FoldedIntegers
import Qirc.Proofs.IR.Optimizer
import Qirc.Proofs.IR.Pointers
import Qirc.Proofs.IR.TableEdits
import Qirc.Proofs.Pipeline.Builds
import Qirc.Proofs.Pipeline.Independence
import Qirc.Proofs.Pipeline.Outputs
import Qirc.Proofs.Pipeline.Stamping
import Qirc.Proofs.Pipeline.ValidGraphs
import Qirc.Proofs.Trace.Rings
