import Hatch.TransitionSystem
import Hatch.FaultProgram
import Hatch.ByteLayout
import Hatch.ThreadCount
import Hatch.NetCommon
import Hatch.NetProcess
import Hatch.NetUserList
import Hatch.NetServices
import Hatch.NetProtocol
import Hatch.NetWire
import Hatch.NetLayout
import Hatch.NetOutcome
import Hatch.NetEffect
import Hatch.NetRoster
import Hatch.NetLogin
import Hatch.NetDatagram
import Hatch.NetLock
import Hatch.NetOwnership
import Hatch.NetQueue
import Hatch.ThreadPool
import Hatch.Roster
import Hatch.RosterOrdered
import Hatch.RosterGhost
import Hatch.NetSystem
import Hatch.NetPipe
import Hatch.NetReceipt
import Hatch.NetView
import Hatch.NetSimulation
import Hatch.NetTransport
import Hatch.NetHandling
import Hatch.NetRefinement
import Hatch.NetAgreement
import Hatch.Inevitability
import Hatch.NetRunners
import Hatch.NetDrain
import Hatch.NetShutdown
import Hatch.NetTalk
import Hatch.NetWords
import Hatch.NetLines
import Hatch.NetHeard
import Hatch.BitString
import Hatch.CountedLoop
import Hatch.Feistel
import Hatch.Fips46
import Hatch.Des
import Hatch.DesBits
import Hatch.DesBlock
import Hatch.DesSchedule
import Hatch.DesComplement
import Hatch.BlockStream
import Hatch.DesFile
import Hatch.DesRoundTrip
import Hatch.DesTermination
import Hatch.Md5
import Hatch.Rfc1321
import Hatch.Md5Transform
import Hatch.Md5Stream
import Hatch.Md5Bounds
import Hatch.Sm4
import Hatch.Sm4Standard
import Hatch.Sm4Block
import Hatch.Sm4Stream
import Hatch.Convert
import Hatch.Sm4Text
import Hatch.BlockChaining
import Hatch.JavaLatin1
import Hatch.BigEndian
import Hatch.IntegerCodec
import Hatch.HexText
import Hatch.HexCodecs
import Hatch.Sm4RoundTrip
import Hatch.PackFile
import Hatch.PackTruncated
import Hatch.PackCalls
import Hatch.ReadDir
import Hatch.ServerRequest
import Hatch.SocketEvents
import Hatch.Dispatcher
import Hatch.CallScript
import Hatch.FileCalls
import Hatch.FileMng
import Hatch.ShortTransfers
import Hatch.AddExits
import Hatch.AddFile
import Hatch.AddDir
import Hatch.WriteExits
import Hatch.WriteFile
import Hatch.WriteErrors
import Hatch.CString
import Hatch.LineReader
import Hatch.Sqlite3Split
import Hatch.SplitText
import Hatch.SplitLines
import Hatch.SplitRouting
import Hatch.SplitNesting
import Hatch.Squeeze
import Hatch.TypesTransform
import Hatch.TypeRewriting
import Hatch.TypeStatement
import Hatch.TypeColumns
import Hatch.TypeBounds
import Hatch.TypeSizes
import Hatch.TypesLoad
import Hatch.TypesReload
import Hatch.TypesLookup
import Hatch.NetCapture
import Hatch.CaptureRun
import Hatch.SocketHandle
import Hatch.TcpSink
import Hatch.CMachine
import Hatch.HeapOrder
import Hatch.HeapSort
import Hatch.HeapSortChain
import Hatch.Calculate
import Hatch.CalculateValue
import Hatch.PortSearch
import Hatch.HatchLoop
import Hatch.GroupSend
import Hatch.BigDecimal
import Hatch.MachinSeries
import Hatch.CpuTest
import Hatch.ConcurrentExcutor
import Hatch.SingletonContainer
import Hatch.DoubleCheck
import Hatch.FloatFormat
import Hatch.ConvertNumbers
import Hatch.ConvertRoundTrips
import Hatch.DesKeys
import Hatch.DispatcherShutdown
import Hatch.DirRequestDispatcher
