import Asyncd.Lib.Interleave
import Asyncd.Lib.Loop
import Asyncd.Lib.Squeeze
import Asyncd.Lib.Runs
import Asyncd.Lib.Push
import Asyncd.Lib.ByteLines
import Asyncd.Lib.CString
import Asyncd.Lib.Tokens
import Asyncd.Lib.Serving
import Asyncd.Lib.Cells
import Asyncd.Qlibc
import Asyncd.Evbuffer
import Asyncd.Http.State
import Asyncd.Http.RequestLine
import Asyncd.Http.Parser
import Asyncd.Http.Chunks
import Asyncd.Http.Taking
import Asyncd.Http.Phases
import Asyncd.Http.ChunkCuts
import Asyncd.Http.HeaderEnd
import Asyncd.Http.Head
import Asyncd.Http.Fields
import Asyncd.Http.Segmentation
import Asyncd.Http.ContentLength
import Asyncd.Http.ChunkedBody
import Asyncd.Http.ChunkExact
import Asyncd.Http.Trailers
import Asyncd.Http.BodyLength
import Asyncd.Http.Message
import Asyncd.Http.Refused
import Asyncd.Http.Streaming
import Asyncd.Http.Response
import Asyncd.Http.ChunkRoundTrip
import Asyncd.Http.HeaderLines
import Asyncd.Http.Framing
import Asyncd.Http.Freeze
import Asyncd.Http.Accounting
import Asyncd.Http.HeaderRoundTrip
import Asyncd.Http.Exits
import Asyncd.Http.Advance
import Asyncd.Http.Strings
import Asyncd.Http.Grammar
import Asyncd.Http.Pathname
import Asyncd.Http.Target
import Asyncd.Server.Conn
import Asyncd.Server.Moves
import Asyncd.Server.Rule
import Asyncd.Server.Exchange
import Asyncd.Server.Lifecycle
import Asyncd.Server.Callbacks
import Asyncd.Server.Failure
import Asyncd.Server.Timeout
import Asyncd.Server.Userdata
import Asyncd.Server.World
import Asyncd.Server.Interleaving
import Asyncd.Server.Shutdown
import Asyncd.Server.Accepting
import Asyncd.Server.Start
import Asyncd.Server.Contexts
import Asyncd.Server.Stopping
import Asyncd.Server.Handler
import Asyncd.Server.Refusal
import Asyncd.Server.Isolation
import Asyncd.Server.Routing
import Asyncd.Server.Pairing
import Asyncd.Server.Pipelining
import Asyncd.Server.Survival
import Asyncd.Server.Delivery
import Asyncd.Server.Helloworld
import Asyncd.Server.Responses
import Asyncd.Server.Service
import Asyncd.Server.Malformed
import Asyncd.Server.Unpipelined
import Asyncd.Server.Clients
import Asyncd.Server.Echo
import Asyncd.Server.EchoHttp
