import Ytsaurus.TableClient.KeyBoundCompressor
import Ytsaurus.Query.LightRangeInferrer
import Ytsaurus.Query.RangeUnion
import Ytsaurus.Query.TrieCover
import Ytsaurus.Query.EliminateSoundness
import Ytsaurus.Query.SplitSoundness
import Ytsaurus.Query.DivisorsCollector
import Ytsaurus.ChunkClient.ExactReadRange
import Ytsaurus.ChaosClient.ScatterGather
import Ytsaurus.ChaosClient.SyncProgress
import Ytsaurus.ChaosClient.ReplicationLag
import Ytsaurus.Flow.WatermarkReach
import Ytsaurus.Flow.WatermarkGenerator
import Ytsaurus.Flow.KeyVisitorInit
import Ytsaurus.Flow.KeyRange
import Ytsaurus.Flow.TimerRun
import Ytsaurus.Rpc.StreamDelivery
import Ytsaurus.ComplexTypes.CompatibilityOrder
import Ytsaurus.TableClient.TruncateYson
import Ytsaurus.Concurrency.AsyncBarrier
import Ytsaurus.Concurrency.AsyncSemaphore
import Ytsaurus.Concurrency.CombinedThrottler
import Ytsaurus.Misc.AlgorithmHelpers
import Ytsaurus.Misc.TopologicalOrdering
import Ytsaurus.Misc.DecimalBinary
import Ytsaurus.TableClient.UnversionedValue
