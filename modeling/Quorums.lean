import Quorums.BaseRun
import Quorums.ServerDispatch
import Quorums.ServerTermination
import Quorums.ServerStream
import Quorums.ServerFifo
import Quorums.BaseMailbox
import Quorums.ClientRouter
import Quorums.NodeSystem
import Quorums.NodeQueue
import Quorums.NodeRouting
import Quorums.ServerReplies
import Quorums.ServerGuard
import Quorums.NodeReplies
import Quorums.NodeDelivery
import Quorums.NodeStranded
import Quorums.CallEnvelope
import Quorums.ConfigManager
import Quorums.BaseLoop
import Quorums.HandleLoops
import Quorums.CallSystem
import Quorums.CallInvariant
import Quorums.CallQuorum
import Quorums.CallCover
import Quorums.CallFrame
import Quorums.CallOrder
import Quorums.EpaxosHandlers
import Quorums.EpaxosSystem
import Quorums.EpaxosAgreement
import Quorums.CallChannel
import Quorums.HandleThresholds
import Quorums.HandleCorrectable
import Quorums.CallMulticast
import Quorums.BaseGraph
import Quorums.EpaxosSearch
import Quorums.EpaxosLog
import Quorums.EpaxosConverge
import Quorums.EpaxosLocal
import Quorums.EpaxosWellFormed
import Quorums.EpaxosRound
import Quorums.EpaxosBacking
import Quorums.EpaxosOrdering
import Quorums.ConfigAlgebra
import Quorums.ConfigFresh
import Quorums.CallDefined
import Quorums.BaseMap
import Quorums.ServerMetadata
import Quorums.HandleStream
import Quorums.HealthProbe
import Quorums.NodeShutdown
import Quorums.BuildNames
import Quorums.EpaxosJobs
import Quorums.EpaxosRecords
import Quorums.EpaxosIdle
import Quorums.EpaxosConflicts
import Quorums.EpaxosQuorums
import Quorums.ClientTrace
import Quorums.ConfigPool
import Quorums.EpaxosHarmless
import Quorums.EpaxosThrifty
import Quorums.BaseWatch
import Quorums.NodeStatus
import Quorums.ConfigCallbacks
import Quorums.BaseTokens
import Quorums.CallContext
import Quorums.CallCancel
import Quorums.BaseSchedule
import Quorums.EpaxosHistories
import Quorums.BuildCode
import Quorums.BuildServices
import Quorums.NodeStarts
import Quorums.KeyValueStore
