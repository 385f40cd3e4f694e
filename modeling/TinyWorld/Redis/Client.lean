import TinyWorld.Async.Ends

/-! # AsyncRedisClient and its commands

The client is a scheduler whose leaf tasks are `RedisCommand`s. What the
scheduler does does not depend on whether a command can be sent, so each step
is the scheduler's, followed by what the commands that it called, completed and
timed out do themselves, in that order. -/
namespace TinyWorld.Redis
open Async

inductive RedisCmdStatus
  | no | okay | nil | error | sendError | wrongType | timeout
  deriving DecidableEq

/-- `reply_obj_` is the number of a reply object; `invoked` counts the calls of `callback_`. -/
structure RedisCommand where
  replyObj : Option Nat
  replyStatus : RedisCmdStatus
  invoked : Nat

/-- What happens to a reply object. -/
inductive Use
  | read (obj : Nat)
  | release (obj : Nat)
  deriving DecidableEq

def Use.obj : Use → Nat
  | read obj => obj
  | release obj => obj

/-- A reply object, and the status that `parseReplyObject` gives a command for it. -/
structure Reply where
  obj : Nat
  status : RedisCmdStatus

/-- What the world does with a command: whether a connection can be made for it and whether it is
taken, and whether its task has an `on_timeout_` callback. -/
structure World where
  connects : Nat → Bool
  takes : Nat → Bool
  onTimeout : Nat → Bool

/-- `pending`: the commands whose callback is still to be called. `uses` has the latest last,
`replies` is the number of reply objects so far. -/
structure AsyncRedisClient where
  scheduler : AsyncScheduler
  connected : Bool
  commands : Nat → RedisCommand
  pending : List Nat
  accepted : List Nat
  failed : List Nat
  replies : Nat
  uses : List Use

namespace AsyncRedisClient

def start : AsyncRedisClient := ⟨.new, false, fun _ => ⟨none, .no, 0⟩, [], [], [], 0, []⟩

variable (c : AsyncRedisClient)

def update (t : Nat) (command : RedisCommand) : AsyncRedisClient :=
  { c with commands := Function.update c.commands t command }

/-- Freeing no reply does nothing. -/
def freeReplyObject (reply : Option Reply) : AsyncRedisClient :=
  match reply with
  | some reply => { c with uses := c.uses ++ [.release reply.obj] }
  | none => c

variable (w : World)

/-- Connects first if need be. -/
def submitToServer (taskid : Nat) : Bool × AsyncRedisClient :=
  if c.connected || w.connects taskid then
    if w.takes taskid then
      (true, { c with
        connected := true
        pending := c.pending ++ [taskid]
        accepted := c.accepted ++ [taskid] })
    else (false, { c with connected := true })
  else (false, c)

end AsyncRedisClient

/-! ## The methods of a command -/

namespace RedisCommand

variable (w : World) (c : AsyncRedisClient) (t : Nat)

def call : AsyncRedisClient :=
  let r := c.submitToServer w t
  if r.1 then r.2
  else
    AsyncRedisClient.update { r.2 with failed := r.2.failed ++ [t] } t
      { r.2.commands t with replyStatus := .sendError }

/-- The reply is read, then `callback_` is invoked. -/
def processReply (r : Option Reply) : AsyncRedisClient :=
  match r with
  | some reply =>
    AsyncRedisClient.update { c with uses := c.uses ++ [.read reply.obj] } t
      ⟨some reply.obj, reply.status, (c.commands t).invoked + 1⟩
  | none => c.update t ⟨none, .error, (c.commands t).invoked + 1⟩

def timeout : AsyncRedisClient :=
  if w.onTimeout t then c else c.update t { c.commands t with replyStatus := .timeout }

end RedisCommand

/-! ## Steps -/

/-- The methods of the tasks in an event of the scheduler; composites have none of their own. -/
def observe (w : World) (s : AsyncScheduler) (data : Option Reply) (c : AsyncRedisClient) :
    Event → AsyncRedisClient
  | .call t => if IsLeaf s t then RedisCommand.call w c t else c
  | .done t => if IsLeaf s t then RedisCommand.processReply c t data else c
  | .timeout t => if IsLeaf s t then RedisCommand.timeout w c t else c
  | _ => c

/-- The events from `s` to `s'`, the earliest first. -/
def newEvents (s s' : AsyncScheduler) : List Event :=
  (s'.trace.take (s'.trace.length - s.trace.length)).reverse

namespace AsyncRedisClient

variable (w : World) (c : AsyncRedisClient)

def advance (data : Option Reply) (s : AsyncScheduler) : AsyncRedisClient :=
  (newEvents c.scheduler s).foldl (observe w s data) { c with scheduler := s }

/-- The library frees the reply when the callback has returned. -/
def redisCommandCallback (id : Nat) (reply : Option Reply) : Option AsyncRedisClient :=
  (if id ∈ c.scheduler.queueWait then
    (c.scheduler.triggerDone id).map (c.advance w reply)
  else some (c.freeReplyObject reply)).map fun c => c.freeReplyObject reply

/-- `reply` comes with a status for a new object, or without for the null reply. -/
inductive Op
  | emit (tree : TaskTree) (commands : tree.NoSelfDone)
  | run (now : Int)
  | reply (id : Nat) (status : Option RedisCmdStatus)
  | disconnected

def newReply (status : Option RedisCmdStatus) : AsyncRedisClient × Option Reply :=
  match status with
  | some status => ({ c with replies := c.replies + 1 }, some ⟨c.replies, status⟩)
  | none => (c, none)

def step : Op → Option AsyncRedisClient
  | .emit tree _ => some { c with scheduler := c.scheduler.emit tree }
  | .run now => (c.scheduler.run now).map (c.advance w none)
  | .reply id status =>
    if id ∈ c.pending then
      let r := newReply { c with pending := c.pending.erase id } status
      r.1.redisCommandCallback w id r.2
    else none
  | .disconnected => some { c with connected := false }

def exec (ops : List Op) : Option AsyncRedisClient := Lib.Run.run (step w) start ops

/-- A single command. -/
theorem noSelfDone_leaf (createtime : Int) (timeoutMs : UInt32) :
    (TaskTree.leaf createtime timeoutMs false).NoSelfDone := by
  simp [TaskTree.NoSelfDone, TaskTree.All]

end AsyncRedisClient

end TinyWorld.Redis
