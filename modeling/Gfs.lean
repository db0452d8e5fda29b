import Gfs.Lib.Transition
import Gfs.Common.Subnets
import Gfs.Cluster.Rebuild
import Gfs.Master.Timers
import Gfs.Master.GroupCommit
import Gfs.Lib.History
import Gfs.Client.Model
import Gfs.Client.Retries
import Gfs.Client.FlatFile
import Gfs.Chunkserver.Fence
import Gfs.Chunkserver.Order
import Gfs.Chunkserver.Damage
import Gfs.Chunkserver.Ranges
import Gfs.Chunkserver.Atomic
import Gfs.Chunkserver.Evictions
import Gfs.Chunkserver.Push
import Gfs.Chunkserver.Leftovers
import Gfs.Cluster.Deletion
import Gfs.Cluster.Grant
import Gfs.Cluster.Primary
import Gfs.Cluster.Acknowledged
import Gfs.Cluster.Granted
import Gfs.Cluster.Renewal
import Gfs.Master.Checkpoint
import Gfs.Master.Names
import Gfs.Master.Counts
import Gfs.Master.Answers
import Gfs.Master.Replayed
import Gfs.Master.Shared
import Gfs.Master.Reports
import Gfs.Master.Registry
import Gfs.Master.WorkerPool
import Gfs.Master.Handles
import Gfs.Master.Fallback
import Gfs.Master.Listing
import Gfs.Master.FileNames
import Gfs.Master.Copies
import Gfs.Master.NoTrace
import Gfs.Master.Placement
import Gfs.Master.Retention
import Gfs.Common.PathStrings
