import Oryx.Lib.A64.Exec
import Oryx.CacheRuns
import Oryx.CacheBinding
import Oryx.CacheKey
import Oryx.Lowering
import Oryx.LockedOps
import Oryx.Simulation
import Oryx.Preservation
import Oryx.Dispatch
import Oryx.FlagRuns
import Oryx.Granted
import Oryx.CachePuts
import Oryx.ShellEnv
import Oryx.CacheFaults
import Oryx.Classifier
import Oryx.Acceptance
import Oryx.Immediates
import Oryx.LockedFlags
import Oryx.RegisterFrame
import Oryx.BranchLinking
import Oryx.Pipeline
import Oryx.MapCodec
import Oryx.Resolution
import Oryx.ProfileReload
import Oryx.Accounting
import Oryx.Sha256Stream
import Oryx.ProgramMeaning
import Oryx.SharedMemory
import Oryx.CacheReads
import Oryx.CodePages
import Oryx.PolicyRuns
import Oryx.StoredBlocks
import Oryx.StoredMaps
import Oryx.CacheTool
import Oryx.Launch
import Oryx.Unconfirmed
import Oryx.Crashes
import Oryx.PutOrder
