import Wasapi.Library.Framing
import Wasapi.Library.Transitions
import Wasapi.Library.Interruptible
import Wasapi.Library.Search
import Wasapi.Library.WeightedMap
import Wasapi.Library.BigEndian
import Wasapi.Library.Base64
import Wasapi.Library.Alignment
import Wasapi.Library.Pieces
import Wasapi.Library.Trimming
import Wasapi.Library.Significand
import Wasapi.Ctype
import Wasapi.DynamicVariable
import Wasapi.Memory
import Wasapi.Memory.Blocks
import Wasapi.Memory.Pool
import Wasapi.Request
import Wasapi.Config
import Wasapi.KvFile
import Wasapi.Sockets
import Wasapi.WorkerPool
import Wasapi.WorkerPool.Shutdown
import Wasapi.FileIo.Cache
import Wasapi.FileIo.Accounting
import Wasapi.FileIo.Threads
import Wasapi.FileIo.SharedAccounting
import Wasapi.FileIo.Staleness
import Wasapi.FileIo.Overwriting
import Wasapi.FileIo.Provenance
import Wasapi.FileIo.Eviction
import Wasapi.Json.Numbers
import Wasapi.Json.Printer
import Wasapi.Json.Parser
import Wasapi.Json.Grammar
import Wasapi.Json.Completeness
import Wasapi.Json.LooseGrammar
import Wasapi.Json.LooseTokens
import Wasapi.Json.Language
import Wasapi.Json.PrintedText
import Wasapi.Json.RoundTrip
import Wasapi.Json.IntegerText
import Wasapi.Json.Integers
import Wasapi.Json.SixDigits
import Wasapi.Json.Stability
import Wasapi.Json.Unicode
import Wasapi.Json.Cursor
import Wasapi.Json.Termination
import Wasapi.Session.Session
import Wasapi.Session.Files
import Wasapi.Session.Continuity
import Wasapi.Session.Clearing
import Wasapi.Fastcgi.Wire
import Wasapi.Fastcgi.Params
import Wasapi.Fastcgi.ProcessBuffer
import Wasapi.Fastcgi.Chunking
import Wasapi.Fastcgi.Deferral
import Wasapi.Fastcgi.RoundTrip
import Wasapi.Fastcgi.Isolation
import Wasapi.Fastcgi.Dispatch
import Wasapi.Fastcgi.ParamsCuts
import Wasapi.Fastcgi.TruncatedPairs
import Wasapi.Fastcgi.Strays
import Wasapi.Fastcgi.Invariants
import Wasapi.Fastcgi.Limits
import Wasapi.FcgiConn.World
import Wasapi.FcgiConn.Handlers
import Wasapi.FcgiConn.Serve
import Wasapi.FcgiConn.EventCases
import Wasapi.FcgiConn.Ownership
import Wasapi.FcgiConn.Release
import Wasapi.FcgiConn.ResponseQueue
import Wasapi.FcgiConn.Descriptors
import Wasapi.FcgiConn.Actions
import Wasapi.FcgiConn.Answers
import Wasapi.FcgiConn.Closing
import Wasapi.FcgiConn.Balance
import Wasapi.FcgiConn.Reentry
import Wasapi.FcgiConn.Armed
import Wasapi.FcgiConn.Housing
import Wasapi.FcgiConn.Interruptions
import Wasapi.FcgiConn.Accepting
import Wasapi.FcgiConn.Supply
import Wasapi.FcgiConn.Calm
import Wasapi.FcgiConn.Waiting
import Wasapi.FcgiConn.Conserving
import Wasapi.FcgiConn.Pipeline
import Wasapi.FcgiConn.Promptness
import Wasapi.FcgiConn.OutputStream
import Wasapi.FcgiConn.Reaping
import Wasapi.FcgiConn.DecoderCalls
import Wasapi.FcgiConn.Reuse
import Wasapi.FcgiConn.Retention
import Wasapi.FcgiConn.Engaged
import Wasapi.Websockets.Http
import Wasapi.Websockets.Frames
import Wasapi.Websockets.Server
import Wasapi.Websockets.Bookkeeping
import Wasapi.Websockets.Routing
import Wasapi.Websockets.Interest
import Wasapi.Websockets.OutputStream
import Wasapi.Websockets.Tasks
import Wasapi.Websockets.PlainHttp
import Wasapi.Websockets.FrameChunking
import Wasapi.Websockets.BodyCuts
import Wasapi.Websockets.SentFrames
import Wasapi.Websockets.Reassembly
import Wasapi.Websockets.AfterClose
import Wasapi.Websockets.Handshake
import Wasapi.Websockets.FrameCodec
import Wasapi.Http.Base64
import Wasapi.Http.Response
import Wasapi.Http.FormData
import Wasapi.Http.PartLoop
import Wasapi.Http.Dispositions
import Wasapi.Http.Multipart
import Wasapi.Http.Query
import Wasapi.Http.Cookies
import Wasapi.Http.PartHeaders
import Wasapi.Http.Forms
import Wasapi.Http.PathPrefix
import Wasapi.Http.Submission
import Wasapi.FcgiConn.Prepare
import Wasapi.Websockets.UpgradeDecision
import Wasapi.Websockets.HeaderCase
import Wasapi.Websockets.Adapters
import Wasapi.Websockets.HttpAdapter
import Wasapi.Websockets.HandlerText
import Wasapi.Websockets.Submissions
