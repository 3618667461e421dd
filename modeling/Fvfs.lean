import Fvfs.Lib.Protocol
import Fvfs.Requests
import Fvfs.Crash
import Fvfs.ConcurrentWrites
import Fvfs.Promotion
import Fvfs.Eviction
import Fvfs.Upload
import Fvfs.TierBits
import Fvfs.ReusedIds
import Fvfs.FailedWrite
import Fvfs.Reads
import Fvfs.LocalDisk
import Fvfs.Inodes
import Fvfs.Namespace
import Fvfs.Orphans
import Fvfs.MigratedRows
import Fvfs.ReplayCrashes
import Fvfs.ClientUrl
import Fvfs.ClientCache
import Fvfs.ClientInodes
import Fvfs.EvictionTask
import Fvfs.LostCopies
import Fvfs.Shipping
import Fvfs.ReplayAttempts
import Fvfs.Flushing
import Fvfs.ReplayCompletes
import Fvfs.Listing
import Fvfs.FuseWrite
import Fvfs.PromotionQueue
import Fvfs.EvictionOrder
import Fvfs.S3Keys
import Fvfs.PathSources
import Fvfs.CacheEviction
import Fvfs.Readdir
import Fvfs.MigrationReport
import Fvfs.AccessStats
import Fvfs.Steady
import Fvfs.ConcurrentTree
import Fvfs.FuseDaemon
import Fvfs.Turns
import Fvfs.HttpClient
