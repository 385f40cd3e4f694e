import TinyWorld.Lib.Run
import TinyWorld.NetAsio.ReadLoop

/-! # Client: resolve, connect, read, and try again

The handlers of one client run one at a time, in any order the completions of
its operations arrive in. Its single `Connection` is used for every connection
it makes: the socket is opened anew, the read buffer stays. -/
namespace TinyWorld.NetAsio
open TinyWorld.Lib.Framing

inductive Operation
  | resolve | connect | read
  deriving DecidableEq

/-- The counts are of the operations under way; a read carries the number of
the connection it was started on. `waiting` is a wait on the retry timer,
`looping` a `readMessages` that never returns, `started` what was started so
far. `number` counts the connections made. Of the current one, `base` counts
the frames handed over before it, `stream` is what its reads have delivered,
and `refused` says that one of them has met a header it refuses. -/
structure Client where
  conn : Connection
  retryInterval : UInt32
  waiting : Bool
  resolving : Nat
  connecting : Nat
  reading : List Nat
  writing : Nat
  looping : Bool
  started : List Operation
  number : Nat
  base : Nat
  stream : Bytes
  refused : Bool

namespace Client

/-- The constructor waits on the retry timer. -/
def init (retryInterval : UInt32) : Client where
  conn := ⟨.closed, [], true, [], [], 0⟩
  retryInterval := retryInterval
  waiting := 0 < retryInterval
  resolving := 0
  connecting := 0
  reading := []
  writing := 0
  looping := false
  started := []
  number := 0
  base := 0
  stream := []
  refused := false

def setState (s : Client) (state : ConnectionState) : Client :=
  { s with conn := { s.conn with state } }

def asyncRead (s : Client) : Client :=
  { s with reading := s.number :: s.reading, started := s.started ++ [.read] }

def start (s : Client) : Client :=
  setState { s with resolving := s.resolving + 1, started := s.started ++ [.resolve] } .resolving

/-- The state, and nothing else: neither the socket nor the timer. -/
def stop (s : Client) : Client := s.setState .closed

def startConnect (s : Client) : Client :=
  setState { s with connecting := s.connecting + 1, started := s.started ++ [.connect] } .connecting

def handleResolve (s : Client) (ok : Bool) : Client :=
  if ok then (s.setState .resolved).startConnect else s.setState .closed

/-- A new connection begins. -/
def established (s : Client) : Client :=
  { s with
    number := s.number + 1
    base := s.conn.handed.length
    stream := []
    refused := false }

/-- `Connection::start` starts the first read. -/
def handleConnect (s : Client) (ok : Bool) : Client :=
  if ok then s.established.asyncRead.setState .connected else s.setState .closed

/-- `onReadError` and `onWriteError`. -/
def onError (s : Client) : Client := s.setState .closed

/-- What a read delivers is the current connection's if the read is. -/
def received (s : Client) (k : Nat) (chunk : Bytes) : Client :=
  if k = s.number then { s with stream := s.stream ++ chunk } else s

/-- A pass of the loop takes a byte at least, so that these are enough. -/
def passes (b : Bytes) : Nat := b.length + 1

def handleData (s : Client) (chunk : Bytes) : Client :=
  match Connection.readMessages (passes (s.conn.readbuf ++ chunk))
    { s.conn with readbuf := s.conn.readbuf ++ chunk } with
  | (c, some true) => { s with conn := c }.asyncRead
  | (c, some false) => { s with conn := c, refused := true }.onError
  | (c, none) => { s with conn := c, looping := true }

def handleRead (s : Client) (k : Nat) : Connection.ReadEvent → Client
  | .data chunk => (s.received k chunk).handleData chunk
  | .error => s.onError

def handleWrite (s : Client) (ok : Bool) : Client := if ok then s else s.onError

/-- The error code of the timer is not looked at. -/
def handleRetry (s : Client) : Client :=
  { (if s.conn.isClosed then s.start else s) with waiting := true }

def send (s : Client) (fresh : Nat → UInt8) (proto : Proto) : Client :=
  { s with
    conn := (s.conn.send fresh proto).1
    writing := if (s.conn.send fresh proto).2 then s.writing + 1 else s.writing }

/-- Calls from outside, and completions with what they bring. -/
inductive Event
  | start
  | stop
  | send (fresh : Nat → UInt8) (proto : Proto)
  | resolved (ok : Bool)
  | connected (ok : Bool)
  | read (k : Nat) (e : Connection.ReadEvent)
  | wrote (ok : Bool)
  | retry (ok : Bool)

/-- The completion of an operation that is under way. -/
def complete (s : Client) : Event → Option Client
  | .resolved ok =>
    if 0 < s.resolving then some ({ s with resolving := s.resolving - 1 }.handleResolve ok)
    else none
  | .connected ok =>
    if 0 < s.connecting then some ({ s with connecting := s.connecting - 1 }.handleConnect ok)
    else none
  | .read k e =>
    if k ∈ s.reading then some ({ s with reading := s.reading.erase k }.handleRead k e) else none
  | .wrote ok =>
    if 0 < s.writing then some ({ s with writing := s.writing - 1 }.handleWrite ok) else none
  | .retry _ => if s.waiting then some { s with waiting := false }.handleRetry else none
  | _ => none

/-- `none` when no such operation is under way, or when the thread of the
handlers is lost in a loop. -/
def step (s : Client) : Event → Option Client
  | .start => some s.start
  | .stop => some s.stop
  | .send fresh proto => some (s.send fresh proto)
  | e => if s.looping then none else s.complete e

/-! ## What one completed read leaves -/

theorem splits_length_le {b rest : Bytes} {fs : List Bytes} (h : format.Splits b fs rest) :
    fs.length < passes b := by
  have hle : ∀ gs : List Bytes, (∀ f ∈ gs, format.IsFrame f) → gs.length ≤ gs.flatten.length := by
    intro gs hg
    induction gs with
    | nil => exact Nat.le_refl _
    | cons f gs ih =>
      have hf := (hg f (by simp)).length_pos
      have := ih fun g hm => hg g (List.mem_cons_of_mem _ hm)
      simp only [List.length_cons, List.flatten_cons, List.length_append]
      omega
  have := hle fs h.frames
  have hlen := congrArg List.length h.eq
  rw [List.length_append] at hlen
  unfold passes
  omega

/-- The whole frames are handed over; the rest decides how it goes on. -/
theorem handleData_cases {s : Client} {chunk rest : Bytes} {fs : List Bytes}
    (h : format.Splits (s.conn.readbuf ++ chunk) fs rest) :
    format.Short rest ∧
        s.handleData chunk = { s with conn := s.conn.after fs rest }.asyncRead ∨
      format.Refused rest ∧
        s.handleData chunk = { s with conn := s.conn.after fs rest, refused := true }.onError ∨
      format.Incomplete rest ∧
        s.handleData chunk = { s with conn := s.conn.after fs rest, looping := true } := by
  have hloop := Connection.readMessages_enough
    (c := { s.conn with readbuf := s.conn.readbuf ++ chunk }) h (splits_length_le h)
  have hafter : ({ s.conn with readbuf := s.conn.readbuf ++ chunk } : Connection).after fs rest =
      s.conn.after fs rest := rfl
  rw [hafter] at hloop
  unfold handleData
  rcases h.stops with hs | hs | hs
  · rw [hloop, Connection.verdict_short hs]
    exact .inl ⟨hs, rfl⟩
  · rw [hloop, Connection.verdict_refused hs]
    exact .inr (.inl ⟨hs, rfl⟩)
  · rw [hloop, Connection.verdict_incomplete hs]
    exact .inr (.inr ⟨hs, rfl⟩)

end Client

end TinyWorld.NetAsio
