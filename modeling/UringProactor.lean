import UringProactor.Prelude.Circular
import UringProactor.Prelude.Layout
import UringProactor.Prelude.Lines
import UringProactor.Prelude.Machine
import UringProactor.Prelude.Monitor
import UringProactor.Prelude.Ownership
import UringProactor.Prelude.Program
import UringProactor.Prelude.Run
import UringProactor.Prelude.SeqLock
import UringProactor.Prelude.TicketQueue
import UringProactor.Buffer.Addresses
import UringProactor.Buffer.Append
import UringProactor.Buffer.BufPool
import UringProactor.Buffer.ByteQueue
import UringProactor.Buffer.Conservation
import UringProactor.Buffer.DgramMsg
import UringProactor.Buffer.Exchange
import UringProactor.Buffer.Filled
import UringProactor.Buffer.MsghdrPool
import UringProactor.Buffer.Peek
import UringProactor.Buffer.Prepend
import UringProactor.Buffer.ReadBuf
import UringProactor.Buffer.ReadSystem
import UringProactor.Buffer.Receive
import UringProactor.Buffer.Room
import UringProactor.Buffer.Stream
import UringProactor.Buffer.WriteBuf
import UringProactor.Buffer.WriteBufDgram
import UringProactor.Net.Channel
import UringProactor.Net.Descriptors
import UringProactor.Net.Lifecycle
import UringProactor.Net.Outcome
import UringProactor.Net.Progress
import UringProactor.Net.Protocol
import UringProactor.Net.ReadSide
import UringProactor.Net.Refinement
import UringProactor.Net.Server
import UringProactor.Net.UdpChannel
import UringProactor.Net.UdpSubmit
import UringProactor.Net.WriteSide
import UringProactor.Net.WriteStream
import UringProactor.Core.Abandoned
import UringProactor.Core.Armed
import UringProactor.Core.BufRing
import UringProactor.Core.ByteStream
import UringProactor.Core.Callbacks
import UringProactor.Core.Connections
import UringProactor.Core.Crashes
import UringProactor.Core.Datagrams
import UringProactor.Core.Delivery
import UringProactor.Core.Descriptors
import UringProactor.Core.Destruction
import UringProactor.Core.Drain
import UringProactor.Core.Exactness
import UringProactor.Core.Exhaustion
import UringProactor.Core.Idle
import UringProactor.Core.Inbox
import UringProactor.Core.Input
import UringProactor.Core.Invariant
import UringProactor.Core.IoRing
import UringProactor.Core.Isolation
import UringProactor.Core.Leaks
import UringProactor.Core.Loans
import UringProactor.Core.LoopRefinement
import UringProactor.Core.Outbox
import UringProactor.Core.OwnSocket
import UringProactor.Core.UringRing
import UringProactor.Core.ProvidedRing
import UringProactor.Core.Quiet
import UringProactor.Core.ReadSteps
import UringProactor.Core.Release
import UringProactor.Core.Rewind
import UringProactor.Core.RunLoop
import UringProactor.Core.Simulation
import UringProactor.Core.Steps
import UringProactor.Core.Stop
import UringProactor.Core.StopTokens
import UringProactor.Core.Stranded
import UringProactor.Core.TcpThread
import UringProactor.Core.UdpFailures
import UringProactor.Core.UdpSteps
import UringProactor.Core.UdpThread
import UringProactor.Core.WriteSteps
import UringProactor.Core.WriteStreams
import UringProactor.Core.ZeroWrites
import UringProactor.Util.Log
import UringProactor.Util.LogDeadlock
import UringProactor.Util.LogDisk
import UringProactor.Util.LogFiles
import UringProactor.Util.LogLines
import UringProactor.Util.LogOwnership
import UringProactor.Util.LogQueue
import UringProactor.Util.LogRecords
import UringProactor.Util.LogRefinement
import UringProactor.Util.LogShutdown
import UringProactor.Util.LogSqes
import UringProactor.Util.LogSteps
import UringProactor.Util.LogThreads
import UringProactor.Util.MpscCalls
import UringProactor.Util.MpscQueue
import UringProactor.Util.MpscRuns
import UringProactor.Util.MpscSafety
import UringProactor.Util.Timestamp
import UringProactor.Util.TimestampReads
import UringProactor.Benchmarks.EchoServer
import UringProactor.Benchmarks.UdpEchoServer
