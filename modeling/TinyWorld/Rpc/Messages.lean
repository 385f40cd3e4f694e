import TinyWorld.Message.Header

/-! # Requests, replies and their handlers

The types of the messages, with their names and their codec, are given as one
`Schema`. A callback is kept as the fact that it is set; running it leaves a
`Ran` with its arguments. -/
namespace TinyWorld.Rpc

abbrev Bytes := Message.Bytes

structure Schema where
  Msg : Type
  Val : Msg → Type
  name : Msg → Bytes
  serialize : {m : Msg} → Val m → Bytes
  deserialize : (m : Msg) → Bytes → Option (Val m)

inductive ErrorCode
  | noError
  | requestInvalid
  | requestNotMatched
  | requestParseError
  | replyPackError
  | replyNotMatched
  | replyParseError
  deriving DecidableEq

/-- `rpc::Request`; a field that is not set reads as its default. -/
structure Request where
  id : UInt64
  request : Bytes
  reply : Bytes
  body : Bytes

def Request.empty : Request := ⟨0, [], [], []⟩

/-- `rpc::Reply` -/
structure Reply where
  id : UInt64
  request : Bytes
  reply : Bytes
  body : Bytes
  errcode : ErrorCode

variable (S : Schema)

/-! ## The client's side -/

inductive Ran
  | done (reply : S.Msg) (value : S.Val reply)
  | error (request : S.Msg) (value : S.Val request) (errcode : ErrorCode)
  | timeout (request : S.Msg) (value : S.Val request)

/-- Times are in nanoseconds, the interval in milliseconds. -/
structure RPCHolder where
  Req : S.Msg
  Rep : S.Msg
  id : UInt64
  createtime : Int
  timeoutMs : Int
  request : S.Val Req
  cbDone : Bool
  cbTimeout : Bool
  cbError : Bool

namespace RPCHolder

variable {S} (h : RPCHolder S)

def elapsedMs (now : Int) : Int := (now - h.createtime).tdiv 1000000

def isTimeout (now : Int) : Bool :=
  if h.timeoutMs < 0 then false else decide (h.timeoutMs < h.elapsedMs now)

/-- Whether it succeeds, and the message, which starts out empty. -/
def pack : Bool × Request :=
  if (S.serialize h.request).isEmpty then (false, .empty)
  else (true, ⟨h.id, S.name h.Req, S.name h.Rep, S.serialize h.request⟩)

def runError (errcode : ErrorCode) : Option (Ran S) :=
  if h.cbError then some (.error h.Req h.request errcode) else none

def replied (reply : Reply) : Option (Ran S) :=
  if reply.errcode ≠ .noError then h.runError reply.errcode
  else if reply.request ≠ S.name h.Req ∨ reply.reply ≠ S.name h.Rep then
    h.runError .replyNotMatched
  else
    match S.deserialize h.Rep reply.body with
    | none => h.runError .replyParseError
    | some value => if h.cbDone then some (.done h.Rep value) else none

def timeouted : Option (Ran S) := if h.cbTimeout then some (.timeout h.Req h.request) else none

end RPCHolder

/-! ## The server's side -/

structure RPCCallback where
  Req : S.Msg
  Rep : S.Msg
  callback : S.Val Req → S.Val Rep

variable {S}

def makeReply (request : Request) (body : Bytes) (errcode : ErrorCode) : Reply :=
  ⟨request.id, request.request, request.reply, body, errcode⟩

def RPCCallback.requested (c : RPCCallback S) (request : Request) : Reply :=
  if request.request = S.name c.Req ∧ request.reply = S.name c.Rep then
    match S.deserialize c.Req request.body with
    | some value =>
      if (S.serialize (c.callback value)).isEmpty then makeReply request [] .replyPackError
      else makeReply request (S.serialize (c.callback value)) .noError
    | none => makeReply request [] .requestParseError
  else makeReply request [] .requestNotMatched

/-- `callbacks_`, filed under the name of the request. -/
structure RPCDispatcher (S : Schema) where
  callbacks : Bytes → Option (RPCCallback S)
  filed : ∀ n c, callbacks n = some c → S.name c.Req = n

namespace RPCDispatcher

def empty : RPCDispatcher S := ⟨fun _ => none, by simp⟩

/-- The first callback for a request stays. -/
def on (d : RPCDispatcher S) (c : RPCCallback S) : RPCDispatcher S :=
  if (d.callbacks (S.name c.Req)).isSome then d
  else
    { callbacks := fun n => if n = S.name c.Req then some c else d.callbacks n
      filed := fun n e he => by
        split at he
        · cases he
          exact Eq.symm ‹_›
        · exact d.filed n e he }

def requested (d : RPCDispatcher S) (request : Request) : Reply :=
  match d.callbacks request.request with
  | none => makeReply request [] .requestInvalid
  | some c => c.requested request

end RPCDispatcher

end TinyWorld.Rpc
