import AgcFramework.Types
import AgcFramework.Lib.Exec
import AgcFramework.Lib.CString
import AgcFramework.Lib.Buffer
import AgcFramework.Lib.Composer
import AgcFramework.Lib.Memory
import AgcFramework.Lib.Decimal
import AgcFramework.Lib.Chain
import AgcFramework.Lib.Trace
import AgcFramework.Lib.Ledger
import AgcFramework.Lib.Command
import AgcFramework.Lib.Places
import AgcFramework.Lib.Prog
import AgcFramework.Lib.Mutex
import AgcFramework.Lib.Circular
import AgcFramework.Lib.RedBlack
import AgcFramework.Lib.Ring
import AgcFramework.Lib.Condition
import AgcFramework.Core.Memory
import AgcFramework.Utils.Separate
import AgcFramework.Utils.Clean
import AgcFramework.Utils.Tokens
import AgcFramework.Utils.Words
import AgcFramework.Api.Stream
import AgcFramework.Api.Execute
import AgcFramework.Rbtree.Model
import AgcFramework.Rbtree.Shape
import AgcFramework.Rbtree.Repair
import AgcFramework.Rbtree.Insert
import AgcFramework.Rbtree.Delete
import AgcFramework.Rbtree.Store
import AgcFramework.Rbtree.Walk
import AgcFramework.Timer.Model
import AgcFramework.Timer.Run
import AgcFramework.Timer.Firing
import AgcFramework.Timer.Order
import AgcFramework.Timer.Threads
import AgcFramework.Event.Header
import AgcFramework.Event.HeaderRun
import AgcFramework.Event.Dispatch
import AgcFramework.Event.Dup
import AgcFramework.Event.Relay
import AgcFramework.Event.Bind
import AgcFramework.Event.Deliver
import AgcFramework.Event.Ids
import AgcFramework.Event.Fast
import AgcFramework.Event.Payload
import AgcFramework.Event.Pooled
import AgcFramework.Event.Reuse
import AgcFramework.Event.Heap
import AgcFramework.Event.Ledger
import AgcFramework.Driver.Epoll
import AgcFramework.Driver.Dispatch
import AgcFramework.Driver.Connection
import AgcFramework.Mq.Connection
import AgcFramework.Mq.Threads
import AgcFramework.Mq.Messages
import AgcFramework.Mq.Breaker
import AgcFramework.Json.Model
import AgcFramework.Json.Strings
import AgcFramework.Json.RoundTrip
import AgcFramework.Json.Grammar
import AgcFramework.Json.Safety
import AgcFramework.Json.Buffers
import AgcFramework.Event.Json
import AgcFramework.Mq.Fanout
import AgcFramework.EventSocket.ReadPacket
import AgcFramework.EventSocket.Receive
import AgcFramework.EventSocket.Lines
import AgcFramework.EventSocket.Framing
import AgcFramework.EventSocket.Subscribe
import AgcFramework.Event.Registry
import AgcFramework.EventSocket.Connections
import AgcFramework.EventSocket.Teardown
import AgcFramework.Db.Trans
import AgcFramework.Odbc.Model
import AgcFramework.Odbc.Link
import AgcFramework.Odbc.LifeCycle
import AgcFramework.Odbc.Query
import AgcFramework.Sql.Pool
import AgcFramework.Sql.Bound
import AgcFramework.Sql.Wait
import AgcFramework.Sql.Chunks
import AgcFramework.Redis.Model
import AgcFramework.Redis.Pool
import AgcFramework.Redis.Operations
import AgcFramework.Redis.Run
import AgcFramework.Redis.Backoff
import AgcFramework.Redis.Shutdown
import AgcFramework.Redis.Server
import AgcFramework.Redis.Values
import AgcFramework.Redis.Ending
import AgcFramework.Redis.Watch
import AgcFramework.Redis.Pipeline
import AgcFramework.Redis.Replies
import AgcFramework.Log.Dispatch
import AgcFramework.Logfile.Model
import AgcFramework.Logfile.Rotate
import AgcFramework.Logfile.Handle
import AgcFramework.Lib.Lanes
import AgcFramework.Utils.Case
import AgcFramework.Apr.Queue
import AgcFramework.Apr.QueueWait
import AgcFramework.Apr.QueueTerm
import AgcFramework.Mprintf.Directive
import AgcFramework.Mprintf.Real
import AgcFramework.Mprintf.Model
import AgcFramework.Mprintf.Return
import AgcFramework.Mprintf.Integer
import AgcFramework.Mprintf.Memory
import AgcFramework.Mprintf.Statement
import AgcFramework.Mprintf.Fault
import AgcFramework.Apr.Send
import AgcFramework.Event.Delete
import AgcFramework.Event.Layout
import AgcFramework.Lib.Yaml
import AgcFramework.Module.Config
import AgcFramework.Module.Load
import AgcFramework.Module.Items
import AgcFramework.Mq.Profile
import AgcFramework.Mq.ProfileItems
