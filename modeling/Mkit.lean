import Mkit.HistoryPaging
import Mkit.Gc
import Mkit.DeltaWriter
import Mkit.Chunker
import Mkit.StagingIndex
import Mkit.Decision.ClearanceRuns
import Mkit.Evidence.Tree
import Mkit.Decision.StorageRuns
import Mkit.Decision.ForkRuns
import Mkit.MerkleBuild
import Mkit.Server.OutboxAccounts
import Mkit.Staging
import Mkit.UnifiedHunks
import Mkit.TreeMergeSymmetry
import Mkit.TreeDiff
import Mkit.HistorySnapshots
import Mkit.ScrubSchedule
import Mkit.PackAttempts
import Mkit.PackWalkers
import Mkit.RefReaders
import Mkit.Shallow
import Mkit.PackShard
import Mkit.IndexCodec
import Mkit.Decision.GuardSets
import Mkit.IgnoreLanguage
import Mkit.Journal
import Mkit.WriteAuth
import Mkit.UploadParts
import Mkit.Decision.VerifiedBasis
import Mkit.Server.Increments
import Mkit.LineDiffSearch
import Mkit.Server.RelayDelivery
import Mkit.PushPlan
import Mkit.Packmap
