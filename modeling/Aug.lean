import Aug.Lib.Blocks
import Aug.Lib.Call
import Aug.Lib.BigEndian
import Aug.Lib.Machine
import Aug.Lib.Memory
import Aug.Lib.KeyedList
import Aug.Lib.ZeroFill
import Aug.Mar.Seq
import Aug.Mar.Archive
import Aug.Mar.SeqSpec
import Aug.Mar.Encoding
import Aug.Mar.HeaderSpec
import Aug.Mar.HeaderPut
import Aug.Mar.BodySpec
import Aug.Mar.Refinement
import Aug.Mar.MemoryArchive
import Aug.Mar.WriteLimits
import Aug.Mar.BodyAccess
import Aug.Marpp.StreamBuf
import Aug.Marpp.StreamDirect
import Aug.Marpp.StreamReading
import Aug.Marpp.StreamGet
import Aug.Marpp.StreamWriting
import Aug.Marpp.StreamAgrees
import Aug.Mar.MFile
import Aug.Mar.MFileSpec
import Aug.Mar.SeqSizes
import Aug.Mar.SeqRefinement
import Aug.Mar.Reading
import Aug.Mar.ReadingSafety
import Aug.Mar.ReadingFiles
import Aug.Lib.Heap
import Aug.Util.Xstr
import Aug.Util.XstrRun
import Aug.Util.XstrInvariant
import Aug.Util.XstrRepresentation
import Aug.Util.Words
import Aug.Util.Lexer
import Aug.Util.LexerTransparency
import Aug.Util.NetLexer
import Aug.Util.Collecting
import Aug.Util.ShellQuoting
import Aug.Util.Conf
import Aug.Util.ConfLines
import Aug.Util.ConfSettings
import Aug.Util.ConfReading
import Aug.Util.ConfStray
import Aug.Util.ConfFile
import Aug.Util.NetValue
import Aug.Util.NetTrimming
import Aug.Util.NetUnfolding
import Aug.Util.NetField
import Aug.Util.Conv
import Aug.Net.Writer
import Aug.Net.WriterIntegrity
import Aug.Net.WriterDrains
import Aug.Net.Base64
import Aug.Net.Base64Encode
import Aug.Net.Base64Decode
import Aug.Net.Base64RoundTrip
import Aug.Net.Base64Reference
import Aug.Net.Base64Validity
import Aug.Net.Base64Reuse
import Aug.Net.Base64Refusal
import Aug.Net.Fix
import Aug.Net.FixHeader
import Aug.Net.FixSplit
import Aug.Net.FixCheck
import Aug.Net.FixField
import Aug.Net.Chans
import Aug.Net.ChansShape
import Aug.Net.ChansTurns
import Aug.Net.ChansReentrancy
import Aug.Net.Http
import Aug.Net.HttpReference
import Aug.Net.HttpReset
import Aug.Net.HttpFragment
import Aug.Net.HttpFraming
import Aug.Net.HttpLexing
import Aug.Net.HttpMessage
import Aug.Net.HttpTruncation
import Aug.Net.MarParser
import Aug.Lib.Transition
import Aug.Lib.StackRun
import Aug.Lib.Dialogue
import Aug.Lib.Carry
import Aug.Lib.LinkedList
import Aug.Util.Event
import Aug.Util.EventDelivery
import Aug.Util.EventWakeup
import Aug.Util.EventDestroy
import Aug.Sys.Time
import Aug.Sys.TimeArithmetic
import Aug.Subpp.Rejected
import Aug.Subpp.Views
import Aug.Subpp.Exact
import Aug.Utilpp.Url
import Aug.Utilpp.UrlRoundTrip
import Aug.Subpp.Traversal
import Aug.Sys.Endian
import Aug.Sys.Muxer
import Aug.Sys.Sticky
import Aug.Net.Client
import Aug.Net.ClientSockets
import Aug.Net.ClientOwnership
import Aug.Util.TmSpec
import Aug.Util.TmSpecNext
import Aug.Util.TmSpecWeek
import Aug.Util.TmSpecParse
import Aug.Util.TmSpecLeap
import Aug.Util.Timer
import Aug.Util.TimerInvariant
import Aug.Util.TimerExpiry
import Aug.Util.TimerBlocks
import Aug.Util.TimerOwnership
import Aug.Net.SslBuffer
import Aug.Net.SslFifo
import Aug.Net.Ssl
import Aug.Net.SslTerminal
import Aug.Net.Packet
import Aug.Net.PacketCodec
import Aug.Lib.OrderedMap
import Aug.Aspp.Window
import Aug.Aspp.Cluster
import Aug.Aspp.WindowOrder
import Aug.Aspp.Conn
import Aug.Aspp.Buffer
import Aug.Aspp.ConnBlock
import Aug.Aspp.ConnShutdown
import Aug.Aspp.ClusterNodes
import Aug.Aspp.ClusterOrder
import Aug.Aspp.Multicast
import Aug.Aspp.MulticastSending
import Aug.Aspp.MulticastDelivery
import Aug.Aspp.MulticastSpeech
import Aug.Aspp.ClusterMembership
import Aug.Aspp.BufferStream
import Aug.Sys.StickyVisible
import Aug.Aspp.ClusterExpiry
import Aug.Aspp.Sessions
import Aug.Aspp.SessionTopics
import Aug.Aspp.SessionTimers
import Aug.Aspp.SessionTimerTable
import Aug.Aspp.ConnState
import Aug.Aspp.SockEngine
import Aug.Aspp.SockLives
import Aug.Aspp.SockConnections
import Aug.Util.Md5
import Aug.Util.Md5Spec
import Aug.Util.Md5Digest
import Aug.Aught.Passwd
import Aug.Net.Auth
import Aug.Aught.Auth
