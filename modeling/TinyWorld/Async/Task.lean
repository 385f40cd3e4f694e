import Mathlib.Data.Finset.Basic
import TinyWorld.Lib.Ordered

/-! # Asynchronous tasks

A task tree is what the caller builds with `AsyncTask::S`, `AsyncTask::P` and
tasks of its own; `AsyncTask` is the object the scheduler works on. Objects
refer to each other by id, the `parent` pointer included. They stay readable
after the scheduler has released them, as for a caller that keeps its
`AsyncTaskPtr`; a use of a released parent is seen in the events. -/
namespace TinyWorld.Async

inductive Composite
  | serials | parallel
  deriving DecidableEq

/-- The dynamic class of a task. A leaf is a task of the caller; `selfDone`
says that its `call()` ends with `emit_done()`. -/
inductive Kind
  | leaf (selfDone : Bool)
  | composite (c : Composite)
  deriving DecidableEq

def Kind.isLeaf : Kind → Bool
  | .leaf _ => true
  | .composite _ => false

inductive TaskTree
  | leaf (createtime : Int) (timeoutMs : UInt32) (selfDone : Bool)
  | composite (c : Composite) (createtime : Int) (timeoutMs : UInt32) (children : List TaskTree)

/-- `children` are the keys of the map `children_`, ascending. Times are in
nanoseconds. A task that nobody holds any more is not taken away: where the code
would go through a `parent_` that dangles, the model still finds the parent. -/
structure AsyncTask where
  kind : Kind
  createtime : Int
  timeoutMs : UInt32
  parent : Option Nat
  children : List Nat
  childrenByOrder : List Nat

namespace AsyncTask

/-- The default of `timeout_ms_`. -/
def never : UInt32 := 0xFFFFFFFF

def blank : AsyncTask := ⟨.leaf false, 0, never, none, [], []⟩

/-- The count of milliseconds is cast to 32 bits. -/
def elapsedMs (task : AsyncTask) (now : Int) : UInt32 :=
  UInt32.ofInt ((now - task.createtime).tdiv 1000000)

def isTimeout (task : AsyncTask) (now : Int) : Bool := task.timeoutMs ≤ task.elapsedMs now

def isNeverTimeout (task : AsyncTask) : Bool := task.timeoutMs = never

end AsyncTask

/-- The calls of task methods that a caller can observe. -/
inductive Event
  | call (t : Nat)
  | done (t : Nat)
  | timeout (t : Nat)
  | childDone (p c : Nat)
  | childTimeout (p c : Nat)
  deriving DecidableEq

/-- `total` is the id counter, `trace` holds the latest event first. The
counters in `stat_` are only ever written here and are left out. -/
structure AsyncScheduler where
  total : Nat
  tasks : Nat → AsyncTask
  queueReady : List Nat
  queueWait : Finset Nat
  waitByTime : List (Int × Nat)
  trace : List Event

namespace AsyncScheduler

def new : AsyncScheduler := ⟨1, fun _ => .blank, [], ∅, [], []⟩

variable (s : AsyncScheduler)

def record (e : Event) : AsyncScheduler := { s with trace := e :: s.trace }

def store (t : Nat) (task : AsyncTask) : AsyncScheduler :=
  { s with tasks := Function.update s.tasks t task }

theorem store_self (t : Nat) (task : AsyncTask) : (s.store t task).tasks t = task :=
  Function.update_self ..

theorem store_ne {t x : Nat} (task : AsyncTask) (h : x ≠ t) :
    (s.store t task).tasks x = s.tasks x :=
  Function.update_of_ne h ..

/-- `children_.erase(c)` on the task `p`. -/
def eraseChild (p c : Nat) : AsyncScheduler :=
  s.store p { s.tasks p with children := (s.tasks p).children.erase c }

theorem eraseChild_self (p c : Nat) : (s.eraseChild p c).tasks p =
    { s.tasks p with children := (s.tasks p).children.erase c } := Function.update_self ..

theorem eraseChild_ne {p x : Nat} (c : Nat) (h : x ≠ p) :
    (s.eraseChild p c).tasks x = s.tasks x := Function.update_of_ne h ..

def setTimeout (p : Nat) (ms : UInt32) : AsyncScheduler :=
  s.store p { s.tasks p with timeoutMs := ms }

def unwait (t : Nat) : AsyncScheduler := { s with queueWait := s.queueWait.erase t }

def queueWaitInsert (t : Nat) : AsyncScheduler :=
  { s with queueWait := insert t s.queueWait }

def waitByTimeInsert (t : Nat) : AsyncScheduler :=
  { s with waitByTime := Lib.Ordered.insertEntry ((s.tasks t).createtime, t) s.waitByTime }

end AsyncScheduler

end TinyWorld.Async
