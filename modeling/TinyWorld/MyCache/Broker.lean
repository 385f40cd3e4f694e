import TinyWorld.Lib.Run
import TinyWorld.MyCache.Frames

/-! # The mycached broker and its workers

`MyCacheServer::run` takes frame after frame from its two ROUTER sockets, and
chooses workers by rotation among those that have said READY. A worker's REQ
socket drops what it finds in its inbox when it sends. Clients and workers stay
connected. -/
namespace TinyWorld.MyCache
open Lib

/-- `MyCacheWorker` and its socket. `serving` has been received and not answered. -/
structure Worker where
  ready : Bool
  inbox : List Request
  serving : Option Request
  answered : List Request

namespace Worker

def new : Worker := ⟨false, [], none, []⟩

variable (w : Worker)

def outstanding : List Request := w.serving.toList ++ w.inbox

/-- Without READY the worker is not known. -/
def put (r : Request) : Worker := if w.ready then { w with inbox := w.inbox ++ [r] } else w

def take : Option Worker :=
  match w.serving, w.inbox with
  | none, r :: inbox => some { w with serving := some r, inbox := inbox }
  | _, _ => none

def answer : Option (Request × Worker) :=
  w.serving.map fun r => (r, { w with serving := none, inbox := [], answered := w.answered ++ [r] })

variable {w} in
theorem take_fields {w' : Worker} (h : w.take = some w') :
    w'.answered = w.answered ∧ w'.outstanding = w.outstanding := by
  rw [take] at h
  split at h
  · next r inbox hs hi =>
    cases h
    refine ⟨rfl, ?_⟩
    rw [outstanding, outstanding, hs, hi]
    rfl
  · cases h

end Worker

/-- `got` are the frames that the branch has received, `clients` tells whether the other branch is
next. -/
inductive Pc
  | poll
  | workers (got : List Bytes) (clients : Bool)
  | clients (got : List Bytes)

/-- The broker with its sockets, and the workers by their address. Of the client requests it has
`received` some are `forwarded`, each to a worker; `toClients` is what it has sent to clients. -/
structure Broker where
  pc : Pc
  workerQueue : List Bytes
  workerQueueSelector : UInt64
  workersSocket : Router Bytes WorkerMessage
  clientsSocket : Router Bytes ClientMessage
  workers : Bytes → Worker
  received : List Request
  forwarded : List (Bytes × Request)
  toClients : List (Bytes × List Bytes)

namespace Broker

def start : Broker := ⟨.poll, [], 0, .empty, .empty, fun _ => .new, [], [], []⟩

variable (clients : Clients) (s : Broker)

/-- The front-end is polled only if there are available workers. -/
def poll : Pc :=
  let readable := !s.workerQueue.isEmpty && !s.clientsSocket.stream.isEmpty
  if s.workersSocket.stream.isEmpty then if readable then .clients [] else .poll
  else .workers [] readable

/-- `worker_queue[(worker_queue_selector++) % worker_queue.size()]` -/
def next : Option Bytes := s.workerQueue[s.workerQueueSelector.toNat % s.workerQueue.length]?

def forward (r : Request) : Broker :=
  match s.next with
  | some workerAddr => { s with
      workerQueueSelector := s.workerQueueSelector + 1
      workers := Function.update s.workers workerAddr ((s.workers workerAddr).put r)
      received := s.received ++ [r]
      forwarded := s.forwarded ++ [(workerAddr, r)] }
  | none => { s with received := s.received ++ [r] }

variable {s} in
/-- What does not depend on the next worker. -/
theorem forward_frame (r : Request) : (s.forward r).pc = s.pc ∧
    (s.forward r).workerQueue = s.workerQueue ∧ (s.forward r).workersSocket = s.workersSocket ∧
    (s.forward r).clientsSocket = s.clientsSocket ∧ (s.forward r).received = s.received ++ [r] ∧
    (s.forward r).toClients = s.toClients := by
  rw [forward]
  split <;> exact ⟨rfl, rfl, rfl, rfl, rfl, rfl⟩

def recvWorkers (got : List Bytes) (after : Bool) : Option Broker :=
  s.workersSocket.recv.map fun r =>
    let s := { s with workersSocket := r.2, pc := if after then .clients [] else .poll }
    match workerTurn (got ++ [r.1]) with
    | some (.ready workerAddr) => { s with workerQueue := s.workerQueue ++ [workerAddr] }
    | some (.reply clientAddr reply) =>
      { s with toClients := s.toClients ++ [(clientAddr, replyFrames clientAddr reply)] }
    | none => { s with pc := .workers (got ++ [r.1]) after }

def recvClients (got : List Bytes) : Option Broker :=
  s.clientsSocket.recv.map fun r =>
    match clientTurn (got ++ [r.1]) with
    | some request => { s with clientsSocket := r.2, pc := .poll }.forward request
    | none => { s with clientsSocket := r.2, pc := .clients (got ++ [r.1]) }

inductive Op
  | request (clientAddr : Bytes) (m : ClientMessage)
  | requestArrives (clientAddr : Bytes)
  | ready (workerAddr : Bytes)
  | take (workerAddr : Bytes)
  | answer (workerAddr body : Bytes)
  | workerArrives (workerAddr : Bytes)
  | poll
  | recv

def step : Op → Option Broker
  | .request a m =>
    if (clients.peer a).isSome then some { s with clientsSocket := s.clientsSocket.send a m }
    else none
  | .requestArrives a =>
    (s.clientsSocket.arrive clients.frames a).map fun socket => { s with clientsSocket := socket }
  | .ready w =>
    if (s.workers w).ready then none
    else some { s with
      workers := Function.update s.workers w { s.workers w with ready := true }
      workersSocket := s.workersSocket.send w .ready }
  | .take w =>
    (s.workers w).take.map fun worker => { s with workers := Function.update s.workers w worker }
  | .answer w body =>
    (s.workers w).answer.map fun r => { s with
      workers := Function.update s.workers w r.2
      workersSocket := s.workersSocket.send w (.reply r.1 body) }
  | .workerArrives w =>
    (s.workersSocket.arrive (fun _ => WorkerMessage.frames) w).map fun socket =>
      { s with workersSocket := socket }
  | .poll =>
    match s.pc with
    | .poll => some { s with pc := s.poll }
    | _ => none
  | .recv =>
    match s.pc with
    | .poll => none
    | .workers got after => s.recvWorkers got after
    | .clients got => s.recvClients got

def exec (ops : List Op) : Option Broker := Run.run (step clients) start ops

/-! Parts of runs, each a message sent and read at once. -/

def greeted (workerAddr : Bytes) : List Op :=
  [.ready workerAddr, .workerArrives workerAddr, .poll, .recv, .recv, .recv]

def asked (clientAddr : Bytes) (m : ClientMessage) (frames : Nat) : List Op :=
  [.request clientAddr m, .requestArrives clientAddr, .poll] ++ List.replicate frames .recv

def answered (workerAddr body : Bytes) (frames : Nat) : List Op :=
  [.take workerAddr, .answer workerAddr body, .workerArrives workerAddr, .poll] ++
    List.replicate frames .recv

end Broker

end TinyWorld.MyCache
