import TinyWorld.Rpc.Messages
import TinyWorld.Table.Factory

/-! # The client's request handlers

Each request has a handler object that keeps its key or value; it is called
back by the RPC layer and calls the user's functions. What those are called
with is recorded. -/
namespace TinyWorld.Table
open TinyWorld.Rpc (ErrorCode)

/-- The object types of a program, each with its table. -/
structure Catalogue where
  Ty : Type
  Obj : Ty → Type
  Key : Ty → Type
  tableMeta : ∀ i, TableMeta (Obj i) (Key i)

/-- The call of a callback of the user. -/
inductive Called (C : Catalogue)
  | done (i : C.Ty) (value : C.Obj i)
  | doneKey (i : C.Ty) (key : C.Key i)
  | nonexist (i : C.Ty) (key : C.Key i)
  | timeoutKey (i : C.Ty) (key : C.Key i)
  | timeoutValue (i : C.Ty) (value : C.Obj i)

def Called.isDone {C : Catalogue} : Called C → Bool
  | .done _ _ | .doneKey _ _ => true
  | _ => false

variable {C : Catalogue}

/-! ## The three kinds of handlers -/

structure TableGetHandler (C : Catalogue) where
  type : C.Ty
  key : C.Key type
  cbDone : Bool
  cbTimeout : Bool
  cbNonexist : Bool

namespace TableGetHandler

def request (h : TableGetHandler C) : Get :=
  ⟨(C.tableMeta h.type).name, (C.tableMeta h.type).serializeKey h.key⟩

/-- `none` when an exception leaves it. What `deserialize` returns is not
looked at. -/
def rpcDone (h : TableGetHandler C) (reply : GetReply) : Option (List (Called C)) :=
  if h.cbDone then
    if reply.retcode = 0 then
      match (C.tableMeta h.type).deserialize reply.value with
      | .accepted value | .refused value => some [.done h.type value]
      | .thrown _ => none
    else some (if h.cbNonexist then [.nonexist h.type h.key] else [])
  else some []

/-- The key passed on is a new one, which nobody sets: it is `unset`. -/
def rpcTimeout (h : TableGetHandler C) (unset : C.Key h.type) : List (Called C) :=
  if h.cbTimeout then [.timeoutKey h.type unset] else []

def rpcError (_h : TableGetHandler C) (_errcode : ErrorCode) : List (Called C) := []

end TableGetHandler

structure TableSetHandler (C : Catalogue) where
  type : C.Ty
  value : C.Obj type
  cbDone : Bool
  cbTimeout : Bool

namespace TableSetHandler

def request (h : TableSetHandler C) : Set :=
  ⟨(C.tableMeta h.type).name,
    (C.tableMeta h.type).serializeKey ((C.tableMeta h.type).tableKey h.value),
    (C.tableMeta h.type).serialize h.value⟩

/-- Both branches on the retcode are empty. -/
def rpcDone (h : TableSetHandler C) (_reply : SetReply) : List (Called C) :=
  if h.cbDone then [.done h.type h.value] else []

def rpcTimeout (h : TableSetHandler C) : List (Called C) :=
  if h.cbTimeout then [.timeoutValue h.type h.value] else []

def rpcError (_h : TableSetHandler C) (_errcode : ErrorCode) : List (Called C) := []

end TableSetHandler

structure TableDelHandler (C : Catalogue) where
  type : C.Ty
  key : C.Key type
  cbDone : Bool
  cbTimeout : Bool

namespace TableDelHandler

def request (h : TableDelHandler C) : Del :=
  ⟨(C.tableMeta h.type).name, (C.tableMeta h.type).serializeKey h.key⟩

/-- Both branches on the retcode are empty. -/
def rpcDone (h : TableDelHandler C) (_reply : DelReply) : List (Called C) :=
  if h.cbDone then [.doneKey h.type h.key] else []

def rpcTimeout (h : TableDelHandler C) : List (Called C) :=
  if h.cbTimeout then [.timeoutKey h.type h.key] else []

def rpcError (_h : TableDelHandler C) (_errcode : ErrorCode) : List (Called C) := []

end TableDelHandler

/-! ## Any handler -/

/-- `TableRequestHandlerPtr` -/
inductive Handler (C : Catalogue)
  | get (h : TableGetHandler C)
  | set (h : TableSetHandler C)
  | del (h : TableDelHandler C)

/-- A reply of the server, and whether it had a table for the request. -/
structure Answer where
  found : Bool
  reply : Reply

/-- How an RPC ends. In a timeout, `unset` is what an uninitialised key holds. -/
inductive Outcome (C : Catalogue)
  | reply (answer : Answer)
  | timeout (unset : ∀ i, C.Key i)
  | error (errcode : ErrorCode)

namespace Handler

def request : Handler C → Request
  | get h => .get h.request
  | set h => .set h.request
  | del h => .del h.request

/-- The user has given all the callbacks the handler has. -/
def AllSet : Handler C → Prop
  | get h => h.cbDone = true ∧ h.cbTimeout = true ∧ h.cbNonexist = true
  | set h => h.cbDone = true ∧ h.cbTimeout = true
  | del h => h.cbDone = true ∧ h.cbTimeout = true

/-- A reply of another kind reaches no handler. -/
def rpc : Handler C → Outcome C → Option (List (Called C))
  | get h, .reply ⟨_, .get reply⟩ => h.rpcDone reply
  | set h, .reply ⟨_, .set reply⟩ => some (h.rpcDone reply)
  | del h, .reply ⟨_, .del reply⟩ => some (h.rpcDone reply)
  | get h, .timeout unset => some (h.rpcTimeout (unset h.type))
  | set h, .timeout _ => some h.rpcTimeout
  | del h, .timeout _ => some h.rpcTimeout
  | get h, .error errcode => some (h.rpcError errcode)
  | set h, .error errcode => some (h.rpcError errcode)
  | del h, .error errcode => some (h.rpcError errcode)
  | _, _ => some []

end Handler

/-! ## Client, server and the messages between them -/

/-- `issued` are the handlers in the order of their ids, `handlers_` those that
still wait for an outcome, `inFlight` the replies on their way. -/
structure System (C : Catalogue) where
  factory : TinyTableFactory
  issued : List (Handler C)
  handlers : Nat → Option (Handler C)
  inFlight : Nat → Option Answer
  log : List (Nat × Called C)

inductive Event (C : Catalogue)
  | issue (h : Handler C)
  /-- the server handles a request; `ok` is the fate of its statement -/
  | served (id : Nat) (ok : Bool)
  | replied (id : Nat)
  | timedOut (id : Nat) (unset : ∀ i, C.Key i)
  | failed (id : Nat) (errcode : ErrorCode)

namespace System

def init (factory : TinyTableFactory) : System C := ⟨factory, [], fun _ => none, fun _ => none, []⟩

def issue (s : System C) (h : Handler C) : System C :=
  { s with
    issued := s.issued ++ [h]
    handlers := Function.update s.handlers s.issued.length (some h) }

def served (s : System C) (id : Nat) (ok : Bool) : System C :=
  match s.issued[id]? with
  | none => s
  | some h =>
    { s with
      factory := (TableServer.requested s.factory ok h.request).1
      inFlight := Function.update s.inFlight id
        ((TableServer.requested s.factory ok h.request).2.map fun reply =>
          ⟨(s.factory.getTableByName h.request.type).isSome, reply⟩) }

/-- What an event brings to which waiting handler. -/
def outcome (s : System C) : Event C → Option (Nat × Handler C × Outcome C)
  | .replied id =>
    match s.handlers id, s.inFlight id with
    | some h, some answer => some (id, h, .reply answer)
    | _, _ => none
  | .timedOut id unset => (s.handlers id).map fun h => (id, h, .timeout unset)
  | .failed id errcode => (s.handlers id).map fun h => (id, h, .error errcode)
  | _ => none

/-- The handler runs, and removes itself unless an exception leaves it. -/
def finish (s : System C) (id : Nat) (h : Handler C) (o : Outcome C) : System C :=
  match h.rpc o with
  | some called =>
    { s with
      handlers := Function.update s.handlers id none
      log := s.log ++ called.map (id, ·) }
  | none => s

def step (s : System C) : Event C → Option (System C)
  | .issue h => some (s.issue h)
  | .served id ok => some (s.served id ok)
  | e =>
    match s.outcome e with
    | some (id, h, o) => some (s.finish id h o)
    | none => some s

end System

end TinyWorld.Table
