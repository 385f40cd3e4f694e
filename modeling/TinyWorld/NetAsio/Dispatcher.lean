import TinyWorld.Lib.Keyed
import TinyWorld.NetAsio.ReadLoop

/-! # Dispatching messages, at once and through the strand

`dispatch` parses the bytes and calls the handler. The acceptor and the client
parse first and post the call; three functions make the same decision. -/
namespace TinyWorld.NetAsio
open TinyWorld.Lib TinyWorld.Lib.Framing

variable {μ α : Type*}

/-- `newMessage` is a null pointer for a handler that does not override it. -/
structure ProtobufMsgHandler (μ : Type*) where
  msgtype : UInt16
  newMessage : Option μ

/-- A call of `process`. A message is `none` when the pointer is null. -/
structure Invocation (μ α : Type*) where
  msgtype : UInt16
  msg : Option μ
  args : Option α
  deriving DecidableEq

/-- What a dispatch does and what it returns. -/
structure Dispatched (μ α : Type*) where
  invoked : Option (Invocation μ α)
  returned : Bool
  deriving DecidableEq

namespace ProtobufMsgHandler

def process (h : ProtobufMsgHandler μ) (msg : Option μ) (args : Option α) : Invocation μ α :=
  ⟨h.msgtype, msg, args⟩

/-- `proto && proto->ParseFromArray(msg, msgsize)` on a new message. -/
def parse (h : ProtobufMsgHandler μ) (parseFromArray : μ → Bytes → μ × Bool) (body : Bytes) :
    Option μ :=
  h.newMessage.bind fun proto =>
    if (parseFromArray proto body).2 then some (parseFromArray proto body).1 else none

end ProtobufMsgHandler

/-- Handlers under their message types. `parseFromArray` is protobuf's. -/
structure ProtobufMsgDispatcher (μ : Type*) where
  handlers : Keyed (ProtobufMsgHandler.msgtype (μ := μ))
  parseFromArray : μ → Bytes → μ × Bool

namespace ProtobufMsgDispatcher

/-- A second handler for a type is refused. -/
def bindHandlerPtr (d : ProtobufMsgDispatcher μ) (handler : Option (ProtobufMsgHandler μ)) :
    Bool × ProtobufMsgDispatcher μ :=
  match handler with
  | none => (false, d)
  | some h =>
    if (d.handlers.find h.msgtype).isSome then (false, d)
    else (true, { d with handlers := d.handlers.insert h })

/-- `dispatch_` of bytes -/
def dispatchBytes (d : ProtobufMsgDispatcher μ) (msgtype : UInt16) (body : Bytes)
    (args : Option α) :
    Dispatched μ α :=
  match d.handlers.find msgtype with
  | none => ⟨none, false⟩
  | some h =>
    match h.parse d.parseFromArray body with
    | none => ⟨none, false⟩
    | some proto => ⟨some (h.process (some proto) args), true⟩

/-- `dispatch_` of a message, which is not looked at -/
def dispatchPtr (d : ProtobufMsgDispatcher μ) (msgtype : UInt16) (msg : Option μ)
    (args : Option α) : Dispatched μ α :=
  match d.handlers.find msgtype with
  | none => ⟨none, false⟩
  | some h => ⟨some (h.process msg args), false⟩

def dispatch (d : ProtobufMsgDispatcher μ) (msgtype : UInt16) (body : Bytes) (arg1 : α) :
    Dispatched μ α := d.dispatchBytes msgtype body (some arg1)

def dispatchMsg1 (d : ProtobufMsgDispatcher μ) (msgtype : UInt16) (msg : Option μ) (arg1 : α) :
    Dispatched μ α := d.dispatchPtr msgtype msg (some arg1)

def makeMessage (d : ProtobufMsgDispatcher μ) (msgtype : UInt16) (body : Bytes) : Option μ :=
  match d.handlers.find msgtype with
  | none => none
  | some h => h.parse d.parseFromArray body

end ProtobufMsgDispatcher

/-- A call posted to the strand, with the copy of the dispatcher `bind` makes. -/
structure Posted (μ α : Type*) where
  msgdispatcher : ProtobufMsgDispatcher μ
  msgtype : UInt16
  protomsg : Option μ
  conn : α

def Posted.run (p : Posted μ α) : Dispatched μ α :=
  p.msgdispatcher.dispatchMsg1 p.msgtype p.protomsg p.conn

/-- `type`, the two type bytes in one word -/
def MessageHeader.type (mh : MessageHeader) : UInt16 :=
  UInt16.ofNat (mh.typeFirst.toNat + 256 * mh.typeSecond.toNat)

/-- What the acceptor posts for a type and a body: the message, null or not. -/
def Acceptor.post (d : ProtobufMsgDispatcher μ) (msgtype : UInt16) (body : Bytes) (conn : α) :
    Option (Posted μ α) := some ⟨d, msgtype, d.makeMessage msgtype body, conn⟩

/-- The client posts no null message. -/
def Client.post (d : ProtobufMsgDispatcher μ) (msgtype : UInt16) (body : Bytes) (conn : α) :
    Option (Posted μ α) :=
  match d.makeMessage msgtype body with
  | none => none
  | some protomsg => some ⟨d, msgtype, some protomsg, conn⟩

/-- `handle_message`, of the acceptor and of the client. -/
def handleMessage (post : UInt16 → Bytes → α → Option (Posted μ α)) (conn : α) (msg : Bytes)
    (msgsize : Nat) : Option (Posted μ α) :=
  let mh := MessageHeader.ofBytes msg
  if mh.msgsize = msgsize then
    post mh.type ((msg.drop sizeofMessageHeader).take mh.size.toNat) conn
  else none

/-- Every frame the reader hands over passes the test of its size. -/
theorem handleMessage_frame (post : UInt16 → Bytes → α → Option (Posted μ α)) (conn : α)
    {msg : Bytes} (h : format.IsFrame msg) :
    handleMessage post conn msg msg.length =
      post (MessageHeader.ofBytes msg).type (msg.drop sizeofMessageHeader) conn := by
  obtain ⟨hs, -⟩ := format_announces_some h.whole
  have hlen : sizeofMessageHeader ≤ msg.length := h.header
  have hhead : format.headerLen = sizeofMessageHeader := rfl
  rw [hhead] at hs
  have hsize : (MessageHeader.ofBytes msg).msgsize = msg.length := by
    rw [MessageHeader.msgsize, hs]
    omega
  unfold handleMessage
  rw [if_pos hsize, hs, List.take_of_length_le (Nat.le_of_eq List.length_drop)]

namespace ProtobufMsgDispatcher

variable (d : ProtobufMsgDispatcher μ) (msgtype : UInt16) (body : Bytes) (arg : α)

/-- The call the bytes should lead to: the type is bound and they parse. -/
def expected : Option (Invocation μ α) :=
  (d.handlers.find msgtype).bind fun h =>
    (h.parse d.parseFromArray body).map fun proto => ⟨msgtype, some proto, some arg⟩

/-- The direct path and a posted call, if there is one, do the same: the
handler is called in the same cases with the same message, and they return the
same. -/
structure Agrees (posted : Option (Posted μ α)) : Prop where
  direct : (d.dispatch msgtype body arg).invoked = d.expected msgtype body arg
  deferred : posted.bind (·.run.invoked) = d.expected msgtype body arg
  returned : ∀ p, posted = some p → p.run.returned = (d.dispatch msgtype body arg).returned

variable {d msgtype body}

/-- The three ways a dispatch can go. -/
theorem parse_cases (d : ProtobufMsgDispatcher μ) (msgtype : UInt16) (body : Bytes) :
    d.handlers.find msgtype = none ∨
      ∃ h, d.handlers.find msgtype = some h ∧ h.msgtype = msgtype ∧
        (h.parse d.parseFromArray body = none ∨
          ∃ proto, h.parse d.parseFromArray body = some proto) := by
  cases hf : d.handlers.find msgtype with
  | none => exact .inl rfl
  | some h =>
    refine .inr ⟨h, rfl, d.handlers.filed msgtype h hf, ?_⟩
    cases hp : h.parse d.parseFromArray body with
    | none => exact .inl rfl
    | some proto => exact .inr ⟨proto, rfl⟩

theorem makeMessage_of_find {h : ProtobufMsgHandler μ} (hf : d.handlers.find msgtype = some h) :
    d.makeMessage msgtype body = h.parse d.parseFromArray body := by
  unfold makeMessage
  rw [hf]

/-- A bound handler is called with whatever message is given, and the answer
is no. -/
theorem dispatchMsg1_of_find {h : ProtobufMsgHandler μ} (hf : d.handlers.find msgtype = some h)
    (msg : Option μ) : d.dispatchMsg1 msgtype msg arg =
      ⟨some (h.process msg (some arg)), false⟩ := by
  unfold dispatchMsg1 dispatchPtr
  rw [hf]

theorem dispatchMsg1_of_not_find (hf : d.handlers.find msgtype = none) (msg : Option μ) :
    d.dispatchMsg1 msgtype msg arg = ⟨none, false⟩ := by
  unfold dispatchMsg1 dispatchPtr
  rw [hf]

theorem expected_of_not_parse (h : ∀ h, d.handlers.find msgtype = some h →
    h.parse d.parseFromArray body = none) : d.expected msgtype body arg = none := by
  unfold expected
  rw [Option.bind_eq_none_iff]
  intro h' hf
  rw [h h' hf]
  rfl

theorem expected_of_parse {h : ProtobufMsgHandler μ} {proto : μ}
    (hf : d.handlers.find msgtype = some h) (hp : h.parse d.parseFromArray body = some proto) :
    d.expected msgtype body arg = some ⟨msgtype, some proto, some arg⟩ := by
  unfold expected
  rw [hf, Option.bind_some, hp]
  rfl

/-- The direct path does what is expected, and says whether it has. -/
theorem dispatch_eq (d : ProtobufMsgDispatcher μ) (msgtype : UInt16) (body : Bytes) (arg : α) :
    d.dispatch msgtype body arg =
      ⟨d.expected msgtype body arg, (d.expected msgtype body arg).isSome⟩ := by
  unfold dispatch dispatchBytes
  rcases parse_cases d msgtype body with hf | ⟨h, hf, hid, hp | ⟨proto, hp⟩⟩
  · rw [hf, expected_of_not_parse arg (by simp [hf])]
    rfl
  · rw [expected_of_not_parse arg (by simp [hf, hp])]
    simp only [hf, hp, Option.isSome_none]
  · rw [expected_of_parse arg hf hp]
    simp only [hf, hp, Option.isSome_some, ProtobufMsgHandler.process, hid]

theorem agrees_iff {posted : Option (Posted μ α)} : d.Agrees msgtype body arg posted ↔
    posted.bind (·.run.invoked) = d.expected msgtype body arg ∧
      ∀ p, posted = some p → p.run.returned = (d.expected msgtype body arg).isSome := by
  constructor
  · intro h
    exact ⟨h.deferred, by simpa only [dispatch_eq] using h.returned⟩
  · intro h
    obtain ⟨hi, hr⟩ := h
    refine ⟨by rw [dispatch_eq], hi, ?_⟩
    rw [dispatch_eq]
    exact hr

/-- Nothing is called, nothing is promised. -/
theorem agrees_none (h : ∀ h, d.handlers.find msgtype = some h →
    h.parse d.parseFromArray body = none) : d.Agrees msgtype body arg none := by
  rw [agrees_iff, expected_of_not_parse arg h]
  exact ⟨rfl, by simp⟩

/-- A call that is posted for a bound type says no in any case, and calls the
handler in any case. -/
theorem not_agrees_posted {h : ProtobufMsgHandler μ} (hf : d.handlers.find msgtype = some h)
    (msg : Option μ) : ¬ d.Agrees msgtype body arg (some ⟨d, msgtype, msg, arg⟩) := by
  rw [agrees_iff]
  intro ha
  obtain ⟨hi, hr⟩ := ha
  have hrun : (⟨d, msgtype, msg, arg⟩ : Posted μ α).run =
      ⟨some (h.process msg (some arg)), false⟩ := dispatchMsg1_of_find arg hf msg
  have hret := hr _ rfl
  rw [Option.bind_some, hrun] at hi
  rw [hrun, ← hi] at hret
  cases hret

theorem acceptor_agrees_iff : d.Agrees msgtype body arg (Acceptor.post d msgtype body arg) ↔
    d.handlers.find msgtype = none := by
  constructor
  · intro ha
    cases hf : d.handlers.find msgtype with
    | none => rfl
    | some h => exact absurd ha (not_agrees_posted arg hf _)
  · intro hf
    have hrun : ∀ p, Acceptor.post d msgtype body arg = some p → p.run = ⟨none, false⟩ := by
      intro p hp
      obtain rfl := Option.some.inj hp
      exact dispatchMsg1_of_not_find arg hf _
    rw [agrees_iff, expected_of_not_parse arg (by simp [hf])]
    refine ⟨?_, fun p hp => by rw [hrun p hp]; rfl⟩
    unfold Acceptor.post
    rw [Option.bind_some, hrun _ rfl]

theorem client_agrees_iff : d.Agrees msgtype body arg (Client.post d msgtype body arg) ↔
    ∀ h, d.handlers.find msgtype = some h → h.parse d.parseFromArray body = none := by
  unfold Client.post
  rcases parse_cases d msgtype body with hf | ⟨h, hf, -, hp | ⟨proto, hp⟩⟩
  · have hnone : d.makeMessage msgtype body = none := by
      unfold makeMessage
      rw [hf]
    rw [hnone]
    exact iff_of_true (agrees_none arg (by simp [hf])) (by simp [hf])
  · rw [makeMessage_of_find hf, hp]
    exact iff_of_true (agrees_none arg (by simp [hf, hp])) (by simp [hf, hp])
  · rw [makeMessage_of_find hf, hp]
    exact iff_of_false (not_agrees_posted arg hf _) (by simp [hf, hp])

/-- **Direct and deferred dispatch agree** for the acceptor exactly when no
handler is bound for the type, and for the client exactly when none is bound or
the bytes do not parse. -/
theorem deferred_agrees_iff (d : ProtobufMsgDispatcher μ) (msgtype : UInt16) (body : Bytes)
    (arg : α) :
    (d.Agrees msgtype body arg (Acceptor.post d msgtype body arg) ↔
      d.handlers.find msgtype = none) ∧
    (d.Agrees msgtype body arg (Client.post d msgtype body arg) ↔
      ∀ h, d.handlers.find msgtype = some h → h.parse d.parseFromArray body = none) :=
  ⟨acceptor_agrees_iff arg, client_agrees_iff arg⟩

/-- A message with one required byte. -/
def oneByte : ProtobufMsgDispatcher Bytes :=
  (bindHandlerPtr ⟨.empty, fun _ body => (body, body.length = 1)⟩ (some ⟨258, some []⟩)).2

/-- A body that parses is dispatched by both paths and denied by the deferred
one; on an empty body the acceptor has the handler called with a null message. -/
theorem deferred_disagrees :
    oneByte.dispatch 258 [7] () = ⟨some ⟨258, some [7], some ()⟩, true⟩ ∧
    (Acceptor.post oneByte 258 [7] ()).map Posted.run =
      some ⟨some ⟨258, some [7], some ()⟩, false⟩ ∧
    (Client.post oneByte 258 [7] ()).map Posted.run =
      some ⟨some ⟨258, some [7], some ()⟩, false⟩ ∧
    oneByte.dispatch 258 [] () = ⟨none, false⟩ ∧
    (Acceptor.post oneByte 258 [] ()).map Posted.run = some ⟨some ⟨258, none, some ()⟩, false⟩ ∧
    ¬ oneByte.Agrees 258 [7] () (Acceptor.post oneByte 258 [7] ()) ∧
    ¬ oneByte.Agrees 258 [7] () (Client.post oneByte 258 [7] ()) ∧
    ¬ oneByte.Agrees 258 [] () (Acceptor.post oneByte 258 [] ()) := by
  refine ⟨by decide, by decide, by decide, by decide, by decide, ?_, ?_, ?_⟩
  · exact fun h => absurd (h.returned _ rfl) (by decide)
  · exact fun h => absurd (h.returned _ rfl) (by decide)
  · exact fun h => absurd h.deferred (by decide)

end ProtobufMsgDispatcher

end TinyWorld.NetAsio
