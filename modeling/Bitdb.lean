import Bitdb.Co.ThreadPool
import Bitdb.Common.Json.AcceptanceProperties
import Bitdb.Common.QueueBufferProperties
import Bitdb.Common.RingBufferProperties
import Bitdb.Common.ThreadPool
import Bitdb.HintProperties
import Bitdb.Index.SkipListIndexer
import Bitdb.InstallProperties
import Bitdb.Net.BlockingRpcClientProperties
import Bitdb.Net.Http.HttpServer
import Bitdb.Net.RequestDecodingProperties
import Bitdb.Net.RpcClientProperties
import Bitdb.Raft.Protocol
import Bitdb.Raft.ReplicationProperties
import Bitdb.RecommitProperties
import Bitdb.RecoveryProperties
import Bitdb.RestartProperties
import Bitdb.RotationProperties
import Bitdb.ShortWriteProperties
import Bitdb.Timer.TimerHeapProperties
import Bitdb.Utils.Arena
