import TinyWorld.Lib.Router
import TinyWorld.MyCache.Handlers

/-! # Frames between clients, broker and workers

The broker tells READY from a client's address, and the socket type of a client
from the first byte of its address, and with these how many frames a message
has. -/
namespace TinyWorld.MyCache
open Lib Lib.Memory

/-! ## The binary message -/

/-- One byte for `cmd`, eight for `id`, which are copied from memory. -/
def packBinMsg (id : UInt64) (cmd : UInt8) (msg : Bytes) : Bytes :=
  cmd :: (littleEndian 8 id.toNat ++ msg)

def parseBinMsg (message : Bytes) : Option (UInt64 × UInt8 × Bytes) :=
  if message.length < 9 then none
  else some (UInt64.ofNat (ofLittleEndian ((message.drop 1).take 8)), message.headD 0,
    message.drop 9)

theorem parseBinMsg_packBinMsg (id : UInt64) (cmd : UInt8) (msg : Bytes) :
    parseBinMsg (packBinMsg id cmd msg) = some (id, cmd, msg) := by
  have hlen : (littleEndian 8 id.toNat).length = 8 := length_littleEndian ..
  have htake : (littleEndian 8 id.toNat ++ msg).take 8 = littleEndian 8 id.toNat :=
    List.take_left' hlen
  have hdrop : (littleEndian 8 id.toNat ++ msg).drop 8 = msg := List.drop_left' hlen
  have hid : UInt64.ofNat (ofLittleEndian (littleEndian 8 id.toNat)) = id := by
    have hlt : id.toNat < 256 ^ 8 := id.toNat_lt
    rw [ofLittleEndian_littleEndian, Nat.mod_eq_of_lt hlt, UInt64.ofNat_toNat]
  rw [parseBinMsg, if_neg, packBinMsg, List.drop_succ_cons, List.drop_zero, List.drop_succ_cons,
    htake, hdrop, hid, List.headD_cons]
  simp only [packBinMsg, List.length_cons, List.length_append, hlen]
  omega

/-! ## Clients -/

/-- `MyCacheClient` and `AsyncMyCacheClient` with the id that they are given; it may be empty. -/
inductive Client
  | sync (id automatic : Bytes)
  | async (id random : Bytes)

namespace Client

def underscore : UInt8 := 95

/-- What `connect` sets. A REQ socket without an identity gets one from the broker's socket, with a
NUL in front. -/
def identity : Client → Bytes
  | sync id automatic => if id = [] then 0 :: automatic else id
  | async id random => underscore :: if id = [] then random else id

/-- On the way to the client and back a REQ socket has an empty frame before the message. -/
def frames (c : Client) (message : Bytes) : List Bytes :=
  match c with
  | sync _ _ => [[], message]
  | async _ _ => [message]

end Client

/-- The connected clients; the broker's socket has one for an address. -/
structure Clients where
  peer : Bytes → Option Client
  identity : ∀ addr c, peer addr = some c → c.identity = addr

/-- One client alone. -/
def Clients.single (c : Client) : Clients where
  peer addr := if addr = c.identity then some c else none
  identity addr c' h := by
    split at h
    · next haddr =>
      cases h
      exact haddr.symm
    · cases h

/-- What `sendBinMsg` is called with. -/
structure ClientMessage where
  id : UInt64
  cmd : UInt8
  msg : Bytes

def ClientMessage.bin (m : ClientMessage) : Bytes := packBinMsg m.id m.cmd m.msg

def Clients.frames (clients : Clients) (addr : Bytes) (m : ClientMessage) : List Bytes :=
  (clients.peer addr).elim [] fun c => c.frames m.bin

/-! ## Workers -/

def READY : Bytes := [82, 69, 65, 68, 89]

/-- What the broker sends to a worker, each after an empty frame. -/
structure Request where
  clientAddr : Bytes
  request : Bytes
  deriving DecidableEq

/-- `body` is what the handler made of the request. -/
inductive WorkerMessage
  | ready
  | reply (request : Request) (body : Bytes)

/-- A request that cannot be parsed leaves `id` and `cmd` as they were. -/
def replymsg (request reply : Bytes) : Bytes :=
  match parseBinMsg request with
  | some (id, cmd, _) => packBinMsg id cmd reply
  | none => packBinMsg 0 0 reply

def WorkerMessage.frames : WorkerMessage → List Bytes
  | ready => [[], READY]
  | reply request body => [[], request.clientAddr, [], replymsg request.request body]

/-! ## What the broker reads -/

inductive WorkerTurn
  | ready (workerAddr : Bytes)
  | reply (clientAddr reply : Bytes)

/-- The frames of the backend so far; none if there are more to come. -/
def workerTurn : List Bytes → Option WorkerTurn
  | [workerAddr, _, clientAddr] => if clientAddr = READY then some (.ready workerAddr) else none
  | [_, _, clientAddr, _, reply] => some (.reply clientAddr reply)
  | _ => none

def clientTurn : List Bytes → Option Request
  | [id, request] => if id.head? = some Client.underscore then some ⟨id, request⟩ else none
  | [id, _, request] => some ⟨id, request⟩
  | _ => none

/-- The frames of a reply at the frontend, after the address. -/
def replyFrames (clientAddr reply : Bytes) : List Bytes :=
  if clientAddr.head? = some Client.underscore then [reply] else [[], reply]

end TinyWorld.MyCache
