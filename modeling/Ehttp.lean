import Ehttp.Lib.CString
import Ehttp.Lib.StringStream
import Ehttp.Lib.Containers
import Ehttp.Lib.Callbacks
import Ehttp.StringUtils
import Ehttp.Request
import Ehttp.Lib.Cursor
import Ehttp.Response
import Ehttp.ResponseCursor
import Ehttp.Writer
import Ehttp.WriteRun
import Ehttp.Lib.Scan
import Ehttp.Parse.Query
import Ehttp.Parse.Url
import Ehttp.Multipart.Parser
import Ehttp.Multipart.Callbacks
import Ehttp.Parse.Driver
import Ehttp.Parse.Feed
import Ehttp.Parse.Trace
import Ehttp.Parse.Outcome
import Ehttp.Parse.Headers
import Ehttp.Lib.Slices
import Ehttp.Parse.Memory
import Ehttp.Lib.Delimiter
import Ehttp.Lib.PushParser
import Ehttp.Multipart.PartData
import Ehttp.Multipart.Encode
import Ehttp.Multipart.Disposition
import Ehttp.Multipart.Decode
import Ehttp.Multipart.Headers
import Ehttp.Parse.Body
import Ehttp.Parse.RoundTrip
import Ehttp.Multipart.Items
import Ehttp.Multipart.Variants
import Ehttp.Multipart.Kept
import Ehttp.Parse.PartHeaders
import Ehttp.Parse.Separate
import Ehttp.Multipart.Refusal
import Ehttp.Parse.Complete
import Ehttp.Epoll.Socket
import Ehttp.Lib.Transition
import Ehttp.Epoll.Ownership
import Ehttp.Epoll.Lifetime
import Ehttp.Lib.Census
import Ehttp.Pool.ThreadPool
import Ehttp.Pool.WakeUp
import Ehttp.Pool.Limit
import Ehttp.Pool.Joins
import Ehttp.Server.Mapping
import Ehttp.Server.Routing
import Ehttp.Lib.FormEncoding
import Ehttp.Unescape
import Ehttp.Parse.Form
import Ehttp.Lib.HttpResponse
import Ehttp.Parse.ContentType
import Ehttp.ResponseText
import Ehttp.Epoll.Clients
import Ehttp.Epoll.Table
import Ehttp.Epoll.Shutdown
import Ehttp.Epoll.Status
import Ehttp.Epoll.Sweep
import Ehttp.Epoll.Dispatch
import Ehttp.Epoll.Drain
import Ehttp.Lib.Calendar
import Ehttp.Lib.Printf
import Ehttp.Lib.Directory
import Ehttp.Lib.History
import Ehttp.Log.FileAppender
import Ehttp.Log.Rotation
import Ehttp.Log.Retention
import Ehttp.Lib.Fragments
import Ehttp.Lib.Marks
import Ehttp.Http.State
import Ehttp.Http.Execute
import Ehttp.Http.Step
import Ehttp.Http.Invariant
import Ehttp.Http.Bulk
import Ehttp.Http.Marking
import Ehttp.Http.Cuts
import Ehttp.Http.Grammar
import Ehttp.Http.Traces
import Ehttp.Http.Serve
import Ehttp.Http.Names
import Ehttp.Lib.Tells
import Ehttp.Http.Sizes
import Ehttp.Http.Lines
import Ehttp.Http.Wire
import Ehttp.Http.Connection
import Ehttp.Http.Apart
