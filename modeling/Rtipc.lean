import Rtipc.NoError
import Rtipc.Exclusivity
import Rtipc.Linearization
import Rtipc.ConsumerSafety
import Rtipc.ProducerSafety
import Rtipc.EventfdCount
import Rtipc.Layout
import Rtipc.RequestWalks
import Rtipc.Construction
import Rtipc.Mapping
import Rtipc.DataCopy
import Rtipc.RequestTable
import Rtipc.HandOver
import Rtipc.Agreement
import Rtipc.RequestLimits
import Rtipc.ReportedLength
import Rtipc.AttrEqual
import Rtipc.DeepCopy
import Rtipc.SizeLimits
import Rtipc.Connect
import Rtipc.Lifetime
import Rtipc.MessageCount
import Rtipc.Fullness
import Rtipc.CacheTransparency
import Rtipc.FlushAgreement
import Rtipc.FlushFreshness
import Rtipc.ChainPath
import Rtipc.Balance
import Rtipc.Benchmark
import Rtipc.PeerGroup
import Rtipc.FlushApart
import Rtipc.ConcurrentCount
import Rtipc.ChannelLinearization
import Rtipc.ConnectionLedger
import Rtipc.RpcSafety
import Rtipc.CallLength
import Rtipc.RpcTermination
