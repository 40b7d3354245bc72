import Reckoning.L1Bytes.ArgsInteger
import Reckoning.L1Bytes.Path
import Reckoning.L1Bytes.SerializerRef
import Reckoning.L1Bytes.Wait
import Reckoning.L2Event.Closing
import Reckoning.L2Event.Interest
import Reckoning.L2Event.Kqueue
import Reckoning.L2Event.Logging
import Reckoning.L2Event.ProcessFd
import Reckoning.L2Event.SignalArgs
import Reckoning.L2Event.SignalOrder
import Reckoning.L2Event.TimerRuns
import Reckoning.L2Event.TimerStop
import Reckoning.L2Event.WaitTime
import Reckoning.L2Event.Wakeup
import Reckoning.L3Then.AdoptionRuns
import Reckoning.L3Then.ChainRuns
import Reckoning.L3Then.Order
import Reckoning.L4Net.ResolverLive
import Reckoning.L4Net.TcpWrite
import Reckoning.L4Net.TcpConnected
import Reckoning.L4Net.TcpConnect
import Reckoning.L4Net.TcpLoss
import Reckoning.L4Net.TcpTls
import Reckoning.L4Net.TcpDrain
import Reckoning.L4Net.TcpServer
import Reckoning.L4Net.TcpKernel
import Reckoning.L5App.Decoder
import Reckoning.L5App.DecodeWorker
import Reckoning.L5App.Fetch
import Reckoning.L5App.HeaderLine
import Reckoning.L5App.HeaderSearch
import Reckoning.L5App.HttpPolling
import Reckoning.L5App.HttpTransfers
import Reckoning.L5App.JobPool
import Reckoning.L5App.Upload
import Reckoning.L5App.WsRecv
import Reckoning.L5App.WsWrite
