import TinyWorld.NetAsio.Message

/-! # Connection: sending frames, and reading them out of the stream

`readMessages` is the source's `while` loop with a bound on its passes; a loop
that has not returned within the bound gives `none`. -/
namespace TinyWorld.NetAsio

inductive ConnectionState
  | closed | resolving | resolved | connecting | connected | verifying | verified | running
  deriving DecidableEq

/-- A message as protobuf hands it over: the type code and the serialised body. -/
structure Proto where
  type1 : UInt8
  type2 : UInt8
  body : Bytes

namespace Proto

def byteSize (m : Proto) : Nat := m.body.length

/-- protobuf writes the whole body, or nothing when `size` is too small for it. -/
def serializeToArray (m : Proto) (dst : Bytes) (size : Nat) : Bytes :=
  if size < m.byteSize then dst else m.body ++ dst.drop m.byteSize

end Proto

/-- The fields of a connection that sending and reading use. `written` are the
buffers given to `asyncWrite`, `handed` the frames given to `message_handler_`,
`readErrors` the calls of `onReadError`. -/
structure Connection where
  state : ConnectionState
  readbuf : Bytes
  messageHandler : Bool
  written : List Bytes
  handed : List Bytes
  readErrors : Nat

namespace Connection

def isClosed (c : Connection) : Bool := c.state = .closed

/-! ## Sending -/

def asyncWrite (c : Connection) (buff : Bytes) : Connection :=
  { c with written := c.written ++ [buff] }

/-- The buffer `send` fills. `fresh` is what the new array holds before. -/
def frame (fresh : Nat → UInt8) (proto : Proto) : Bytes :=
  let sb := (List.range (sizeofMessageHeader + proto.byteSize)).map fresh
  let mh := { MessageHeader.init (fresh 4) (fresh 5) with
    typeFirst := proto.type1
    typeSecond := proto.type2
    size := BitVec.ofNat 24 proto.byteSize }
  mh.toBytes ++ proto.serializeToArray (sb.drop sizeofMessageHeader) mh.size.toNat

def send (c : Connection) (fresh : Nat → UInt8) (proto : Proto) : Connection × Bool :=
  if c.isClosed then (c, false) else (c.asyncWrite (frame fresh proto), true)

/-- A sequence of sends, and whether each returned true. -/
def sendAll (c : Connection) : List ((Nat → UInt8) × Proto) → Connection × Bool
  | [] => (c, true)
  | (fresh, proto) :: rest =>
    let (c', ok) := c.send fresh proto
    let (c'', oks) := c'.sendAll rest
    (c'', ok && oks)

/-! ## Reading -/

/-- `if (message_handler_) message_handler_(…)` on the first `msgsize` bytes. -/
def handle (c : Connection) (msgsize : Nat) : Connection :=
  if c.messageHandler then { c with handed := c.handed ++ [c.readbuf.take msgsize] } else c

def consume (c : Connection) (msgsize : Nat) : Connection :=
  { c with readbuf := c.readbuf.drop msgsize }

def readMessages : Nat → Connection → Connection × Option Bool
  | 0, c => (c, none)
  | passes + 1, c =>
    if sizeofMessageHeader ≤ c.readbuf.length then
      let mh := MessageHeader.ofBytes c.readbuf
      if maxBodySize < mh.size.toNat then (c, some false)
      else
        if mh.msgsize ≤ c.readbuf.length then
          readMessages passes ((c.handle mh.msgsize).consume mh.msgsize)
        else readMessages passes c
    else (c, some true)

def onReadError (c : Connection) : Connection := { c with readErrors := c.readErrors + 1 }

/-- What an asynchronous read ends with: bytes appended to the read buffer, or
an error. -/
inductive ReadEvent
  | data (chunk : Bytes)
  | error

/-- What a completed read leaves behind. -/
inductive Reading
  /-- `asyncRead` was called, the next read is under way -/
  | waiting
  /-- `onReadError` was called, no read is under way -/
  | stopped
  /-- the loop has not returned -/
  | looping
  deriving DecidableEq

def handleRead (passes : Nat) (c : Connection) : ReadEvent → Connection × Reading
  | .data chunk =>
    match readMessages passes { c with readbuf := c.readbuf ++ chunk } with
    | (c', some true) => (c', .waiting)
    | (c', some false) => (c'.onReadError, .stopped)
    | (c', none) => (c', .looping)
  | .error => (c.onReadError, .stopped)

/-- A run of reads: an event reaches `handle_read` only while a read is under
way. -/
def reads (passes : Nat) (c : Connection) : List ReadEvent → Connection × Reading
  | [] => (c, .waiting)
  | e :: es =>
    match c.handleRead passes e with
    | (c', .waiting) => c'.reads passes es
    | r => r

end Connection

end TinyWorld.NetAsio
