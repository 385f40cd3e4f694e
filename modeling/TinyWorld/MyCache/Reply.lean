import TinyWorld.MyCache.Frames

/-! # What a client's variables hold after a reply

`parseBinMsg` writes to variables of its caller, and `MyCacheClient::get` hands
it the string that the value is wanted in. -/
namespace TinyWorld.MyCache
open Lib.Memory

/-- What `parseBinMsg` is given to write to. -/
structure Fields where
  id : UInt64
  cmd : UInt8
  msgbody : Bytes
  deriving DecidableEq

/-- The body is assigned only `if (bodylen > 0)`. -/
def Fields.parseBinMsg (held : Fields) (message : Bytes) : Bool × Fields :=
  if message.length < 9 then (false, held)
  else (true, {
    id := UInt64.ofNat (ofLittleEndian ((message.drop 1).take 8))
    cmd := message.headD 0
    msgbody := if message.length - 9 > 0 then message.drop 9 else held.msgbody })

/-- With nothing in the variables before, it reads what there is in the message. -/
theorem Fields.parseBinMsg_eq (held : Fields) (message : Bytes) :
    held.parseBinMsg message =
      match MyCache.parseBinMsg message with
      | none => (false, held)
      | some (id, cmd, body) => (true, ⟨id, cmd, if body = [] then held.msgbody else body⟩) := by
  unfold Fields.parseBinMsg MyCache.parseBinMsg
  split
  · rfl
  · by_cases hbody : message.drop 9 = []
    · have hlen : ¬message.length - 9 > 0 := by
        rw [List.drop_eq_nil_iff] at hbody
        omega
      simp only [if_pos hbody, if_neg hlen]
    · have hlen : message.length - 9 > 0 := by
        rw [List.drop_eq_nil_iff] at hbody
        omega
      simp only [if_neg hbody, if_pos hlen]

theorem Fields.parseBinMsg_packBinMsg (held : Fields) (id : UInt64) (cmd : UInt8) (body : Bytes) :
    held.parseBinMsg (packBinMsg id cmd body) =
      (true, ⟨id, cmd, if body = [] then held.msgbody else body⟩) := by
  rw [Fields.parseBinMsg_eq, MyCache.parseBinMsg_packBinMsg]

/-! ## The client -/

namespace MyCacheClient

def kMyCacheCmd_Get : UInt8 := 103

def REQUEST_RETRIES : Nat := 3

/-- `closed`: there is no socket, or a call on it throws. -/
inductive Poll
  | closed
  | timeout
  | ready
  deriving DecidableEq

/-- `polls n` is how the wait ends after which `n` retries are left, and `server` answers the
message that was sent last. -/
def request (polls : Nat → Poll) (server : Bytes → Bytes) (cmdtype : UInt8) (msg reply : Bytes) :
    Nat → Bool × Bytes
  | 0 => (false, reply)
  | retriesLeft + 1 =>
    match polls retriesLeft with
    | .closed => (false, reply)
    | .timeout => request polls server cmdtype msg reply retriesLeft
    | .ready =>
      let parsed := Fields.parseBinMsg ⟨0, 0, reply⟩ (server (packBinMsg 0 cmdtype msg))
      (parsed.1, parsed.2.msgbody)

def get (polls : Nat → Poll) (server : Bytes → Bytes) (key value : Bytes) : Bool × Bytes :=
  request polls server kMyCacheCmd_Get key value REQUEST_RETRIES

/-- A request changes the string of its caller only if it returns true. -/
theorem request_cases (polls : Nat → Poll) (body : Bytes) (cmdtype : UInt8) (msg reply : Bytes)
    (retriesLeft : Nat) :
    request polls (replymsg · body) cmdtype msg reply retriesLeft = (false, reply) ∨
      request polls (replymsg · body) cmdtype msg reply retriesLeft =
        (true, if body = [] then reply else body) := by
  induction retriesLeft with
  | zero => exact .inl rfl
  | succ retriesLeft ih =>
    unfold request
    split
    · exact .inl rfl
    · exact ih
    · right
      have hreply : replymsg (packBinMsg 0 cmdtype msg) body = packBinMsg 0 cmdtype body := by
        rw [replymsg, parseBinMsg_packBinMsg]
      simp only [hreply, Fields.parseBinMsg_packBinMsg]

end MyCacheClient

theorem kept_iff (body held : Bytes) :
    (if body = [] then held else body) = body ↔ body ≠ [] ∨ held = [] := by
  by_cases hbody : body = []
  · simp [hbody]
  · simp [hbody]

/-- **A message is read back except for an empty body**, in place of which the caller keeps what
its string held; so does `get` with a value that is empty. -/
theorem read_back_iff (held : Fields) (id : UInt64) (cmd : UInt8) (body : Bytes) :
    (held.parseBinMsg (packBinMsg id cmd body) = (true, ⟨id, cmd, body⟩) ↔
      body ≠ [] ∨ held.msgbody = []) ∧
    ∀ polls key, (MyCacheClient.get polls (replymsg · body) key held.msgbody).1 = true →
      ((MyCacheClient.get polls (replymsg · body) key held.msgbody).2 = body ↔
        body ≠ [] ∨ held.msgbody = []) := by
  constructor
  · rw [Fields.parseBinMsg_packBinMsg, ← kept_iff]
    simp
  · intro polls key hget
    rcases MyCacheClient.request_cases polls body MyCacheClient.kMyCacheCmd_Get key held.msgbody
      MyCacheClient.REQUEST_RETRIES with h | h
    · rw [MyCacheClient.get, h] at hget
      cases hget
    · rw [MyCacheClient.get, h]
      exact kept_iff body held.msgbody

/-- The value of the key is empty; the string still holds that of another key, and `get` says that
it is the answer. -/
theorem empty_value_stale :
    ¬∀ (held : Fields) (id : UInt64) (cmd : UInt8) (body : Bytes),
      held.parseBinMsg (packBinMsg id cmd body) = (true, ⟨id, cmd, body⟩) ∧
      ∀ polls key, (MyCacheClient.get polls (replymsg · body) key held.msgbody).1 = true →
        (MyCacheClient.get polls (replymsg · body) key held.msgbody).2 = body := by
  intro h
  have hget := (h ⟨0, 0, [120]⟩ 0 103 []).2 (fun _ => .ready) [107]
  revert hget
  decide

end TinyWorld.MyCache
