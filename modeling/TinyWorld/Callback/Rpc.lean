import Mathlib.Data.Finset.Basic
import TinyWorld.Lib.Ordered

/-! # Asynchronous RPCs

`AsyncRPC` is the object the scheduler works on. Objects refer to each other by
id, the raw `parent` pointer included. The scheduler's maps are the only owners
of an object, so a composite that is in none of them is gone (`alive`). -/
namespace TinyWorld.Callback

inductive Composite
  | serials | parallel
  deriving DecidableEq

/-- The dynamic class of an RPC. A leaf is an RPC of the caller; `selfReply`
says that its `request()` ends with `triggerCall(id, ..)`. -/
inductive Kind
  | leaf (selfReply : Bool)
  | composite (c : Composite)
  deriving DecidableEq

def Kind.isLeaf : Kind → Bool
  | .leaf _ => true
  | .composite _ => false

theorem Kind.eq_leaf {k : Kind} (h : k.isLeaf) : ∃ selfReply, k = .leaf selfReply := by
  cases k with
  | leaf selfReply => exact ⟨selfReply, rfl⟩
  | composite c => cases h

theorem Kind.eq_composite {k : Kind} (h : k.isLeaf = false) : ∃ c, k = .composite c := by
  cases k with
  | leaf selfReply => cases h
  | composite c => exact ⟨c, rfl⟩

/-- `children` are the keys of the map `children`, ascending. Times are in
microseconds. `context` and `scheduler` are handed on, never looked at. -/
structure AsyncRPC where
  kind : Kind
  timeoutms : UInt32
  createtime : Int
  parent : Option Nat
  children : List Nat

namespace AsyncRPC

/-- `(uint32_t)-1`, the default of `timeoutms`. -/
def never : UInt32 := 0xFFFFFFFF

def blank : AsyncRPC := ⟨.leaf false, never, 0, none, []⟩

def elapsedms (rpc : AsyncRPC) (now : Int) : Int := (now - rpc.createtime).tdiv 1000

/-- The count of milliseconds is 64 bits wide and `timeoutms` is widened to it. -/
def isTimeout (rpc : AsyncRPC) (now : Int) : Bool := rpc.timeoutms.toNat ≤ rpc.elapsedms now

end AsyncRPC

/-- What the caller has set in an RPC of its own before it hands it over. -/
structure Leaf where
  createtime : Int
  timeoutms : UInt32
  selfReply : Bool

def Leaf.object (rpc : Leaf) (timeoutms : UInt32) (parent : Option Nat) : AsyncRPC :=
  ⟨.leaf rpc.selfReply, timeoutms, rpc.createtime, parent, []⟩

/-- The same for a composite. -/
structure Parent where
  createtime : Int
  timeoutms : UInt32

def Parent.object (rpc : Parent) (c : Composite) (timeoutms : UInt32) : AsyncRPC :=
  ⟨.composite c, timeoutms, rpc.createtime, none, []⟩

/-- The calls of RPC methods that a caller can observe. -/
inductive Event
  | request (t : Nat)
  | called (t : Nat)
  | timeouted (t : Nat)
  | canceled (t : Nat)
  deriving DecidableEq

/-- The RPC that an event is an outcome of. -/
def Event.outcome : Event → Option Nat
  | .request _ => none
  | .called t | .timeouted t | .canceled t => some t

/-- `total` is `s_total_rpc`; `made` holds the ids of objects that are not handed over yet;
`trace` holds the latest event first. The counters in `stat_` are only ever written here and are
left out. -/
structure AsyncRPCScheduler where
  total : Nat
  made : Finset Nat
  rpcs : Nat → AsyncRPC
  queueReady : List Nat
  queueWait : Finset Nat
  waitByTime : List (Int × Nat)
  trace : List Event

namespace AsyncRPCScheduler

def new : AsyncRPCScheduler := ⟨0, ∅, fun _ => .blank, [], ∅, [], []⟩

variable (s : AsyncRPCScheduler)

/-- Some map of the scheduler still owns the composite. -/
def alive (p : Nat) : Prop := p ∈ s.queueWait ∨ p ∈ s.queueReady

instance (p : Nat) : Decidable (s.alive p) := inferInstanceAs (Decidable (_ ∨ _))

def record (e : Event) : AsyncRPCScheduler := { s with trace := e :: s.trace }

def store (t : Nat) (rpc : AsyncRPC) : AsyncRPCScheduler :=
  { s with rpcs := Function.update s.rpcs t rpc }

theorem store_self (t : Nat) (rpc : AsyncRPC) : (s.store t rpc).rpcs t = rpc :=
  Function.update_self ..

theorem store_ne {t x : Nat} (rpc : AsyncRPC) (h : x ≠ t) : (s.store t rpc).rpcs x = s.rpcs x :=
  Function.update_of_ne h ..

def storeChildren (p : Nat) (children : List Nat) : AsyncRPCScheduler :=
  s.store p { s.rpcs p with children := children }

theorem storeChildren_self (p : Nat) (children : List Nat) :
    (s.storeChildren p children).rpcs p = { s.rpcs p with children := children } :=
  Function.update_self ..

theorem storeChildren_ne {p x : Nat} (children : List Nat) (h : x ≠ p) :
    (s.storeChildren p children).rpcs x = s.rpcs x := Function.update_of_ne h ..

def setTimeout (p : Nat) (ms : UInt32) : AsyncRPCScheduler :=
  s.store p { s.rpcs p with timeoutms := ms }

theorem setTimeout_children (p : Nat) (ms : UInt32) (x : Nat) :
    ((s.setTimeout p ms).rpcs x).children = (s.rpcs x).children := by
  by_cases h : x = p
  · rw [h, setTimeout, store_self]
  · rw [setTimeout, store_ne _ _ h]

def unwait (t : Nat) : AsyncRPCScheduler := { s with queueWait := s.queueWait.erase t }

/-- How many outcomes an RPC has had. -/
def outcomes (t : Nat) : Nat := s.trace.countP fun e => e.outcome = some t

end AsyncRPCScheduler

end TinyWorld.Callback
