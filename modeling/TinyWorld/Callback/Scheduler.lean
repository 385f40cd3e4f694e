import TinyWorld.Callback.Rpc
import TinyWorld.Lib.Run

/-! # AsyncRPCScheduler: calls, replies and timeouts

RPC methods call back into the scheduler while the scheduler is calling them,
as in `Async`: the entry points are a parameter, and `reentry` bounds the depth
of nested calls. `none` is a call that is nested too deep, a use of a composite
that is gone, or a step of an iterator that is no longer valid. -/
namespace TinyWorld.Callback

/-- The entry points of the scheduler that RPC methods use. `triggerCall` is the one by id. -/
structure Reentry where
  triggerRequest : AsyncRPCScheduler → Nat → Option AsyncRPCScheduler
  triggerCall : AsyncRPCScheduler → Nat → Option AsyncRPCScheduler
  triggerCancel : AsyncRPCScheduler → Nat → Option AsyncRPCScheduler

section
variable (r : Reentry) (s : AsyncRPCScheduler)

/-! ## RPC methods -/

def AsyncRPC.canceled (t : Nat) : Option AsyncRPCScheduler := do
  let s ← (s.rpcs t).children.foldlM r.triggerCancel s
  some (s.storeChildren t [])

namespace SerialsCallBack

def triggerFirstRequest (p : Nat) : Option AsyncRPCScheduler :=
  match (s.rpcs p).children.head? with
  | some first => r.triggerRequest s first
  | none => some s

def request (p : Nat) : Option AsyncRPCScheduler := triggerFirstRequest r s p

def timeouted (p : Nat) : Option AsyncRPCScheduler := AsyncRPC.canceled r s p

def childCalled (p c : Nat) : Option AsyncRPCScheduler := do
  let s ←
    if (s.rpcs p).children.head? = some c then
      triggerFirstRequest r (s.storeChildren p ((s.rpcs p).children.erase c)) p
    else some s
  -- the nested calls may have completed this very composite
  if s.alive p then
    if (s.rpcs p).children = [] then r.triggerCall s p else some s
  else none

def childTimeouted (p : Nat) : AsyncRPCScheduler := s.setTimeout p 0

end SerialsCallBack

namespace ParallelCallBack

/-- One turn of the loop in `request`; its iterator has to survive the call. -/
def requestChild (p : Nat) (s : AsyncRPCScheduler) (c : Nat) : Option AsyncRPCScheduler := do
  let s ← r.triggerRequest s c
  if s.alive p ∧ c ∈ (s.rpcs p).children then some s else none

def request (p : Nat) : Option AsyncRPCScheduler :=
  (s.rpcs p).children.foldlM (requestChild r p) s

def timeouted (p : Nat) : Option AsyncRPCScheduler := AsyncRPC.canceled r s p

def childCalled (p c : Nat) : Option AsyncRPCScheduler :=
  let s := s.storeChildren p ((s.rpcs p).children.erase c)
  if (s.rpcs p).children = [] then r.triggerCall s p else some s

def childTimeouted (p : Nat) : AsyncRPCScheduler := s.setTimeout p 0

end ParallelCallBack

/-! The virtual methods. -/

def request (t : Nat) : Option AsyncRPCScheduler :=
  match (s.rpcs t).kind with
  | .leaf false => some (s.record (.request t))
  | .leaf true => r.triggerCall (s.record (.request t)) t
  | .composite .serials => SerialsCallBack.request r (s.record (.request t)) t
  | .composite .parallel => ParallelCallBack.request r (s.record (.request t)) t

def timeouted (t : Nat) : Option AsyncRPCScheduler :=
  match (s.rpcs t).kind with
  | .leaf _ => some (s.record (.timeouted t))
  | .composite .serials => SerialsCallBack.timeouted r (s.record (.timeouted t)) t
  | .composite .parallel => ParallelCallBack.timeouted r (s.record (.timeouted t)) t

def childCalled (p c : Nat) : Option AsyncRPCScheduler :=
  match (s.rpcs p).kind with
  | .leaf _ => some s
  | .composite .serials => SerialsCallBack.childCalled r s p c
  | .composite .parallel => ParallelCallBack.childCalled r s p c

def childTimeouted (p : Nat) : AsyncRPCScheduler :=
  match (s.rpcs p).kind with
  | .leaf _ => s
  | .composite .serials => SerialsCallBack.childTimeouted s p
  | .composite .parallel => ParallelCallBack.childTimeouted s p

/-! ## Scheduler methods -/

def triggerRequest (t : Nat) : Option AsyncRPCScheduler :=
  let s := { s with queueWait := insert t s.queueWait }
  let s :=
    if (s.rpcs t).timeoutms = AsyncRPC.never then s
    else { s with
      waitByTime := Lib.Ordered.insertEntry ((s.rpcs t).createtime, t) s.waitByTime }
  request r s t

/-- `triggerCall(const AsyncRPC::SharedPtr&, void*)`. -/
def triggerCall (t : Nat) : Option AsyncRPCScheduler := do
  let s := s.record (.called t)
  let s ← match (s.rpcs t).parent with
    | some p => if s.alive p then childCalled r s p t else none
    | none => some s
  some (s.unwait t)

/-- `triggerCall(uint64_t, void*)`. -/
def triggerCallById (id : Nat) : Option AsyncRPCScheduler :=
  if id ∈ s.queueWait then triggerCall r s id else some s

def triggerCancel (t : Nat) : Option AsyncRPCScheduler := do
  let s ← AsyncRPC.canceled r (s.record (.canceled t)) t
  some (s.unwait t)

def triggerTimeout (t : Nat) : Option AsyncRPCScheduler := do
  let s ← timeouted r s t
  let s ← match (s.rpcs t).parent with
    | some p => if s.alive p then some (childTimeouted s p) else none
    | none => some s
  some (s.unwait t)

end

def reentry : Nat → Reentry
  | 0 => ⟨fun _ _ => none, fun _ _ => none, fun _ _ => none⟩
  | depth + 1 => ⟨triggerRequest (reentry depth), triggerCallById (reentry depth),
      triggerCancel (reentry depth)⟩

namespace AsyncRPCScheduler

/-- Nested calls do not go this deep. -/
def depth (s : AsyncRPCScheduler) : Nat := 2 * s.total + 4

def generateID (s : AsyncRPCScheduler) : AsyncRPCScheduler × Nat :=
  ({ s with total := s.total + 1 }, s.total + 1)

/-- The constructor of an RPC. -/
def construct (s : AsyncRPCScheduler) : AsyncRPCScheduler :=
  let (s, id) := s.generateID
  { s with made := insert id s.made }

/-- `AsyncRPC::setChildren`. Children get a new id; null pointers are passed over. -/
def setChildren (p : Nat) : AsyncRPCScheduler → List (Option Leaf) → AsyncRPCScheduler
  | s, [] => s
  | s, none :: rpcs => setChildren p s rpcs
  | s, some rpc :: rpcs =>
    let (s, id) := s.generateID
    let s := s.store id (rpc.object rpc.timeoutms (some p))
    setChildren p (s.storeChildren p (Lib.Ordered.insertKey id (s.rpcs p).children)) rpcs

/-- The argument of the caller replaces the timeout of the RPC if it is positive. -/
def timeoutArg (timeoutms : Int32) (own : UInt32) : UInt32 :=
  if 0 < timeoutms then timeoutms.toUInt32 else own

/-- The end of the three `call` methods: the object goes into the ready queue. -/
def handOver (s : AsyncRPCScheduler) (id : Nat) : AsyncRPCScheduler :=
  { s with queueReady := Lib.Ordered.insertKey id s.queueReady }

/-- An id that is not among `made` stands for a null pointer. -/
def call (s : AsyncRPCScheduler) (id : Nat) (rpc : Leaf) (timeoutms : Int32) : AsyncRPCScheduler :=
  if id ∈ s.made then
    ({ s with made := s.made.erase id }.store id
      (rpc.object (timeoutArg timeoutms rpc.timeoutms) none)).handOver id
  else s

/-- `callBySerials` and `callByParallel`. -/
def callByComposite (c : Composite) (s : AsyncRPCScheduler) (id : Nat) (rpc : Parent)
    (rpcs : List (Option Leaf)) (timeoutms : Int32) : AsyncRPCScheduler :=
  if id ∈ s.made then
    (setChildren id ({ s with made := s.made.erase id }.store id
      (rpc.object c (timeoutArg timeoutms rpc.timeoutms))) rpcs).handOver id
  else s

def callBySerials := callByComposite .serials

def callByParallel := callByComposite .parallel

/-- The timeout loop of `run` over the entries still ahead of its iterator; the entries it does
not erase are returned. `now t` is what the clock shows when the entry of `t` is looked at. -/
def checkTimeout (now : Nat → Int) (s : AsyncRPCScheduler) :
    List (Int × Nat) → Option (AsyncRPCScheduler × List (Int × Nat))
  | [] => some (s, [])
  | it :: its =>
    if it.2 ∈ s.queueWait then
      if (s.rpcs it.2).isTimeout (now it.2) then do
        let s ← triggerTimeout (reentry s.depth) s it.2
        checkTimeout now s its
      else do
        let (s, kept) ← checkTimeout now s its
        some (s, it :: kept)
    else checkTimeout now s its

def run (s : AsyncRPCScheduler) (now : Nat → Int) : Option AsyncRPCScheduler := do
  let (s, kept) ← checkTimeout now s s.waitByTime
  let s := { s with waitByTime := kept }
  let s ← s.queueReady.foldlM (reentry s.depth).triggerRequest s
  some { s with queueReady := [] }

def triggerCall (s : AsyncRPCScheduler) (id : Nat) : Option AsyncRPCScheduler :=
  (reentry s.depth).triggerCall s id

end AsyncRPCScheduler

/-- What is done to a scheduler from outside. -/
inductive Op
  | construct
  | call (id : Nat) (rpc : Leaf) (timeoutms : Int32)
  | callBySerials (id : Nat) (rpc : Parent) (rpcs : List (Option Leaf)) (timeoutms : Int32)
  | callByParallel (id : Nat) (rpc : Parent) (rpcs : List (Option Leaf)) (timeoutms : Int32)
  | run (now : Nat → Int)
  | triggerCall (id : Nat)

def step (s : AsyncRPCScheduler) : Op → Option AsyncRPCScheduler
  | .construct => some s.construct
  | .call id rpc timeoutms => some (s.call id rpc timeoutms)
  | .callBySerials id rpc rpcs timeoutms => some (s.callBySerials id rpc rpcs timeoutms)
  | .callByParallel id rpc rpcs timeoutms => some (s.callByParallel id rpc rpcs timeoutms)
  | .run now => s.run now
  | .triggerCall id => s.triggerCall id

/-- A run from a scheduler that has done nothing yet. -/
def exec (ops : List Op) : Option AsyncRPCScheduler := Lib.Run.run step .new ops

end TinyWorld.Callback
