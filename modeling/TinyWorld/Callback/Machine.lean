import TinyWorld.Callback.Hooks

/-! # The mutex of the ready queue

The three `call` methods lock `mutex_rq_` to insert, and `run` holds it while it
requests what is ready. The mutex is not recursive: a thread that locks it twice
waits for itself. Thread 0 calls `run` and delivers the replies, the others submit.

The hooks of RPCs run on thread 0. `submits` says what each of them hands over, null
pointers apart. That is taken up in order as soon as the call they were made from is
back: it only adds to the ready queue, which nothing but `run` goes through. -/
namespace TinyWorld.Callback
open Lib.Run

inductive Submission
  | call (id : Nat) (rpc : Leaf) (timeoutms : Int32)
  | callByComposite (c : Composite) (id : Nat) (rpc : Parent) (rpcs : List (Option Leaf))
      (timeoutms : Int32)

namespace Submission

def id : Submission → Nat
  | call id _ _ => id
  | callByComposite _ id _ _ _ => id

/-- What a `call` method does. The fields of the object and of its children are set before
the lock is taken; no other thread has these objects yet. -/
def insert (s : AsyncRPCScheduler) : Submission → AsyncRPCScheduler
  | call id rpc timeoutms => s.call id rpc timeoutms
  | callByComposite c id rpc rpcs timeoutms =>
    AsyncRPCScheduler.callByComposite c s id rpc rpcs timeoutms

end Submission

/-- Where a thread is in its call of a `call` method. -/
inductive Phase
  | idle
  | atLock (sub : Submission)
  | inside (sub : Submission)

/-- Where `run` is: before or behind it, about to lock, or with these left to request. -/
inductive Stage
  | outside
  | atLock
  | draining (batch : List Nat)

/-- `todo` is what the hooks that were called last still have to submit. -/
structure Machine where
  sched : AsyncRPCScheduler
  owner : Option Nat
  phase : Nat → Phase
  todo : List Submission
  stage : Stage

inductive Move
  | construct
  | submit (t : Nat) (sub : Submission)
  | hook
  | lock (t : Nat)
  | insert (t : Nat)
  | tick (now : Nat → Int)
  | lockRun
  | request
  | unlockRun
  | reply (id : Nat)

namespace Machine

def start : Machine := ⟨.new, none, fun _ => .idle, [], .outside⟩

/-- Thread 0 is not inside a submission, and its hooks are through. -/
def free (m : Machine) : Bool :=
  match m.phase 0, m.todo with
  | .idle, [] => true
  | _, _ => false

/-- The RPCs that are handed over and not requested. -/
def pending (m : Machine) : List Nat :=
  match m.stage with
  | .draining batch => batch
  | _ => m.sched.queueReady

def setPhase (m : Machine) (t : Nat) (phase : Phase) : Machine :=
  { m with phase := Function.update m.phase t phase }

/-- A null pointer is sent back at once. -/
def begin (m : Machine) (t : Nat) (sub : Submission) : Machine :=
  if sub.id ∈ m.sched.made then m.setPhase t (.atLock sub) else m

/-- What the hooks do that were called between the two states. -/
def submitted (submits : Event → List Submission) (s s' : AsyncRPCScheduler) : List Submission :=
  (s'.trace.take (s'.trace.length - s.trace.length)).reverse.flatMap submits

def submit (m : Machine) (t : Nat) (sub : Submission) : Option Machine :=
  match m.phase t, t, m.todo, m.stage with
  | .idle, 0, [], .outside => some (m.begin 0 sub)
  | .idle, t + 1, _, _ => some (m.begin (t + 1) sub)
  | _, _, _, _ => none

def hook (m : Machine) : Option Machine :=
  match m.phase 0, m.todo with
  | .idle, sub :: todo => some ({ m with todo := todo }.begin 0 sub)
  | _, _ => none

def lock (m : Machine) (t : Nat) : Option Machine :=
  match m.phase t, m.owner with
  | .atLock sub, none => some ({ m with owner := some t }.setPhase t (.inside sub))
  | _, _ => none

def insert (m : Machine) (t : Nat) : Option Machine :=
  match m.phase t with
  | .inside sub => some ({ m with sched := sub.insert m.sched, owner := none }.setPhase t .idle)
  | _ => none

def lockRun (m : Machine) : Option Machine :=
  match m.free, m.stage, m.owner with
  | true, .atLock, none =>
    some { m with owner := some 0, stage := .draining m.sched.queueReady }
  | _, _, _ => none

def unlockRun (m : Machine) : Option Machine :=
  match m.free, m.stage with
  | true, .draining [] =>
    some { m with
      sched := { m.sched with queueReady := [] }
      owner := none
      stage := .outside }
  | _, _ => none

variable (submits : Event → List Submission)

/-- The scheduler has called hooks. -/
def ran (m : Machine) (s : AsyncRPCScheduler) (stage : Stage) : Machine :=
  { m with sched := s, todo := submitted submits m.sched s, stage := stage }

/-- The timeout loop of `run`. -/
def tick (m : Machine) (now : Nat → Int) : Option Machine :=
  match m.free, m.stage with
  | true, .outside => do
    let (s, kept) ← AsyncRPCScheduler.checkTimeout now m.sched m.sched.waitByTime
    some (m.ran submits { s with waitByTime := kept } .atLock)
  | _, _ => none

/-- One turn of the loop over the ready queue. -/
def request (m : Machine) : Option Machine :=
  match m.free, m.stage with
  | true, .draining (t :: batch) => do
    let s ← (reentry m.sched.depth).triggerRequest m.sched t
    some (m.ran submits s (.draining batch))
  | _, _ => none

def reply (m : Machine) (id : Nat) : Option Machine :=
  match m.free, m.stage with
  | true, .outside => do
    let s ← m.sched.triggerCall id
    some (m.ran submits s .outside)
  | _, _ => none

def step (m : Machine) : Move → Option Machine
  | .construct => some { m with sched := m.sched.construct }
  | .submit t sub => m.submit t sub
  | .hook => m.hook
  | .lock t => m.lock t
  | .insert t => m.insert t
  | .tick now => m.tick submits now
  | .lockRun => m.lockRun
  | .request => m.request submits
  | .unlockRun => m.unlockRun
  | .reply id => m.reply submits id

/-- No hook that the next request calls submits anything. -/
def Quiet (m : Machine) : Move → Prop
  | .request =>
    match m.stage with
    | .draining (t :: _) => ∀ e ∈ requestHooks m.sched t, submits e = []
    | _ => True
  | _ => True

end Machine

end TinyWorld.Callback
