import MailruHttp.Foundation.Bytes
import MailruHttp.Library.BlockExchange
import MailruHttp.Library.Bracketing
import MailruHttp.Library.Chain
import MailruHttp.Library.CriticalSection
import MailruHttp.Library.Delimited
import MailruHttp.Library.LexicalPath
import MailruHttp.Library.Outcome
import MailruHttp.Library.Run
import MailruHttp.Regex.DFA
import MailruHttp.Regex.Capture
import MailruHttp.Regex.Ints
import MailruHttp.Regex.Implements
import MailruHttp.Regex.Compile
import MailruHttp.Regex.Correctness
import MailruHttp.Regex.Bounds
import MailruHttp.Regex.IntRange
import MailruHttp.Regex.Groups
import MailruHttp.Regex.Unambiguous
import MailruHttp.Cmd.Options
import MailruHttp.Cmd.Parse
import MailruHttp.Cmd.Getopt
import MailruHttp.Cmd.Scan
import MailruHttp.Cmd.ScanRefinement
import MailruHttp.Cmd.ParseLoop
import MailruHttp.Cmd.CommandLine
import MailruHttp.Server.ParseRequest
import MailruHttp.Server.Grammar
import MailruHttp.Server.Response
import MailruHttp.Server.Framing
import MailruHttp.Server.StateToResponse
import MailruHttp.Server.Connection
import MailruHttp.Server.CallbackSpec
import MailruHttp.Server.Answering
import MailruHttp.Server.OneAnswer
import MailruHttp.Server.FileAnswers
import MailruHttp.Server.BadRequests
import MailruHttp.Server.OpenedPath
import MailruHttp.Server.ReadCases
import MailruHttp.Server.Lifetime
import MailruHttp.Server.Session
import MailruHttp.Server.Reply
import MailruHttp.Server.Arrival
import MailruHttp.Server.Ownership
import MailruHttp.Server.Closing
import MailruHttp.Server.ReadBuffers
import MailruHttp.Server.PathConfinement
import MailruHttp.Sys.Worker
import MailruHttp.Sys.Signals
import MailruHttp.Sys.Callers
import MailruHttp.Sys.Log
import MailruHttp.Sys.QueueLock
import MailruHttp.Sys.ThreadPool
import MailruHttp.Sys.Conservation
import MailruHttp.Sys.Balance
import MailruHttp.Sys.Service
import MailruHttp.Sys.WholeServer
import MailruHttp.Sys.Composition
import MailruHttp.Sys.Isolation
import MailruHttp.Sys.Rest
import MailruHttp.Sys.Stranding
import MailruHttp.Sys.Shutdown
import MailruHttp.Sys.Program
import MailruHttp.Sys.Main
