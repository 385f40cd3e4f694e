import TinyWorld.Async.Compose
import TinyWorld.Async.Relay
import TinyWorld.Async.Series
import TinyWorld.Async.Terminal
import TinyWorld.Cache.Levels
import TinyWorld.Callback.Composite
import TinyWorld.Callback.Lock
import TinyWorld.Callback.Outcome
import TinyWorld.Fsm.TimerFSM
import TinyWorld.Hashkit.Genkey
import TinyWorld.Login.Account
import TinyWorld.Message.Framing
import TinyWorld.MyCache.Coherence
import TinyWorld.MyCache.Reply
import TinyWorld.MyCache.Rotation
import TinyWorld.MyCache.Routing
import TinyWorld.NetAsio.Delivery
import TinyWorld.NetAsio.Dispatcher
import TinyWorld.NetAsio.Manager
import TinyWorld.NetAsio.Reconnect
import TinyWorld.NetAsio.Stopped
import TinyWorld.NetAsio.Writing
import TinyWorld.Orm.Clause
import TinyWorld.Orm.Records
import TinyWorld.Orm.Select
import TinyWorld.Orm.Update
import TinyWorld.Pool.Accounting
import TinyWorld.Pool.Home
import TinyWorld.Pool.Reuse
import TinyWorld.Pool.Sharding
import TinyWorld.Pool.Threads
import TinyWorld.Redis.Clone
import TinyWorld.Redis.Command
import TinyWorld.Redis.Delimiter
import TinyWorld.Redis.Replies
import TinyWorld.Redis.Submit
import TinyWorld.Rpc.RoundTrip
import TinyWorld.Serializer.Archiver
import TinyWorld.Serializer.Loss
import TinyWorld.Serializer.Overwrite
import TinyWorld.Serializer.Registry
import TinyWorld.Table.Atomic
import TinyWorld.Table.Coherence
import TinyWorld.Table.Memory
import TinyWorld.Table.Outcome
import TinyWorld.TinyObj.Registration
import TinyWorld.Url.Accept
import TinyWorld.Url.Grammar
import TinyWorld.Url.Make
import TinyWorld.Xml.Load
import TinyWorld.Zmq.AsyncServer
import TinyWorld.Zmq.Worker
