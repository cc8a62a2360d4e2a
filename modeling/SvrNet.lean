import SvrNet.Reach
import SvrNet.Framing
import SvrNet.Mutex
import SvrNet.JobBoard
import SvrNet.CData
import SvrNet.Config
import SvrNet.Pack
import SvrNet.ParseExact
import SvrNet.Conn
import SvrNet.RecvHelper
import SvrNet.SendHelper
import SvrNet.Loop
import SvrNet.LoopSpec
import SvrNet.Reactor
import SvrNet.PackStream
import SvrNet.RecvPath
import SvrNet.RecvBounds
import SvrNet.Reassembly
import SvrNet.SendParts
import SvrNet.SendHistory
import SvrNet.SendOrder
import SvrNet.Outbound
import SvrNet.Server
import SvrNet.WorkProc
import SvrNet.ServerSpec
import SvrNet.ServerTable
import SvrNet.Sentinels
import SvrNet.Registration
import SvrNet.Wakeup
import SvrNet.DeadFront
import SvrNet.Teardown
import SvrNet.Isolation
import SvrNet.Gqueue
import SvrNet.ThreadPool
import SvrNet.ThreadPoolSpec
import SvrNet.Shutdown
import SvrNet.HandledOnce
import SvrNet.PoolCallers
import SvrNet.PoolAwake
import SvrNet.Ndebug
import SvrNet.Linked
import SvrNet.GqueueNodes
import SvrNet.GqueueCells
import SvrNet.GqueueFifo
import SvrNet.Service
import SvrNet.ServiceRequests
import SvrNet.Selection
import SvrNet.ServiceAccounts
import SvrNet.ServiceResponses
import SvrNet.Locked
import SvrNet.SendLocked
import SvrNet.ConnLocked
import SvrNet.GenConnId
import SvrNet.ServiceLedger
import SvrNet.PoolDrain
import SvrNet.Trace
import SvrNet.Timely
import SvrNet.LoopReturns
import SvrNet.FrontLeaves
import SvrNet.Serving
import SvrNet.Unstarved
import SvrNet.PoolFair
import SvrNet.PoolShutdown
