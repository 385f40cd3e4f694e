import Mathlib.Data.List.Forall2
import TinyWorld.Lib.Run
import TinyWorld.Message.Dispatcher
import TinyWorld.Rpc.Messages

/-! # The worker's REP socket

The socket takes turns: a request, then one answer. The answer is the reply
that the dispatcher returns, or an empty message; a handler can also call
`send` of the worker itself. -/
namespace TinyWorld.Zmq
open Lib.Run Message

/-- How a handler ends. A reply is the name of its type and its serialisation; `standard` tells
whether what is thrown is a `std::exception`. -/
inductive Ending
  | returns (reply : Option (Bytes × Bytes))
  | throws (standard : Bool)

/-- What a handler does: the buffers that `send` of the worker makes of its messages, and the
end. -/
structure Handled where
  sends : List Bytes
  ending : Ending

/-- What `process` comes to. -/
inductive Processed
  | reply (buff : Bytes)
  | noReply
  | throws (standard : Bool)

/-- `MessageHandlerT_N::process`; a request that cannot be deserialised has no handling. -/
def process : Option Handled → Processed
  | none => .throws true
  | some handled =>
    match handled.ending with
    | .returns (some (name, data)) =>
      if (packMsgByName id [] name data).1 then .reply (packMsgByName id [] name data).2
      else .throws true
    | .returns none => .noReply
    | .throws standard => .throws standard

/-- A handler leaves the answer to `on_recv`, and its reply can be packed; or it sends itself and
then throws what `on_recv` does not catch. -/
def Handled.Answers (handled : Handled) : Prop :=
  match handled.ending with
  | .returns (some (name, data)) => handled.sends = [] ∧ name ≠ [] ∧ data ≠ []
  | .returns none => handled.sends = []
  | .throws true => handled.sends = []
  | .throws false => handled.sends.length = 1

/-- `due`: a request has been received and not been answered. `refused` counts the sends in the
wrong state. -/
structure ZMQWorker where
  due : Bool
  received : List Bytes
  sent : List Bytes
  refused : Nat

namespace ZMQWorker

def start : ZMQWorker := ⟨false, [], [], 0⟩

def send (s : ZMQWorker) (msg : Bytes) : ZMQWorker :=
  if s.due then { s with due := false, sent := s.sent ++ [msg] }
  else { s with refused := s.refused + 1 }

variable (d : MessageNameDispatcher (Option Handled)) (s : ZMQWorker) (request : Bytes)

/-- A send in the wrong state throws a `std::exception`: after that of the reply the empty message
is tried. What is no `std::exception` leaves `on_recv` with nothing sent. -/
def onRecv : Option ZMQWorker :=
  match d.dispatch request with
  | .undefined => none
  | .throws _ => some (s.send [])
  | .processed _ _ handled =>
    let s := (handled.elim [] Handled.sends).foldl send s
    match process handled with
    | .reply buff => if s.due then some (s.send buff) else some ((s.send buff).send [])
    | .noReply => some (s.send [])
    | .throws true => some (s.send [])
    | .throws false => some s

/-- The socket is not readable while an answer is due. -/
def poll : Option ZMQWorker :=
  if s.due then some s
  else onRecv d { s with due := true, received := s.received ++ [request] } request

/-- The reply that the handler of a request returns. -/
def produced : Option (Bytes × Bytes) :=
  match d.dispatch request with
  | .processed _ _ (some ⟨_, .returns reply⟩) => reply
  | _ => none

/-- What is sent for a request is the reply, if there is one. -/
def Carries (msg : Bytes) : Prop := ∀ name data, produced d request = some (name, data) →
  packMsgByName id [] name data = (true, msg)

/-- Each request has been answered by one send that carries its reply, and no send was in the
wrong state. -/
structure Alternates : Prop where
  due : s.due = false
  answered : List.Forall₂ (Carries d) s.received s.sent
  refused : s.refused = 0

/-- The name in the request is not longer than its body, and its handler answers. -/
def Answered : Prop :=
  match d.dispatch request with
  | .undefined => False
  | .throws _ => True
  | .processed _ _ handled => ∀ h, handled = some h → Handled.Answers h

/-! ## What is attempted -/

/-- The sends of a handler, and those of `on_recv` after them. -/
def attemptsAfter (sends : List Bytes) : Processed → List Bytes
  | .reply buff => sends ++ if sends = [] then [buff] else [buff, []]
  | .noReply => sends ++ [[]]
  | .throws true => sends ++ [[]]
  | .throws false => sends

/-- The sends of one `on_recv`, in their order. -/
def attempts : Option (List Bytes) :=
  match d.dispatch request with
  | .undefined => none
  | .throws _ => some [[]]
  | .processed _ _ handled => some (attemptsAfter (handled.elim [] Handled.sends) (process handled))

variable {d s request}

theorem foldl_send_of_not_due (h : s.due = false) (msgs : List Bytes) :
    msgs.foldl send s = { s with refused := s.refused + msgs.length } := by
  induction msgs generalizing s with
  | nil => rfl
  | cons msg msgs ih =>
    have hsend : s.send msg = { s with refused := s.refused + 1 } := by
      simp only [send, h, Bool.false_eq_true, if_false]
    have hs : ({ s with refused := s.refused + 1 } : ZMQWorker).due = false := h
    rw [List.foldl_cons, hsend, ih hs, List.length_cons, Nat.add_assoc, Nat.add_comm 1]

theorem foldl_send_cons (h : s.due = true) (msg : Bytes) (msgs : List Bytes) :
    (msg :: msgs).foldl send s =
      { s with due := false, sent := s.sent ++ [msg], refused := s.refused + msgs.length } := by
  have hsend : s.send msg = { s with due := false, sent := s.sent ++ [msg] } := if_pos h
  rw [List.foldl_cons, hsend, foldl_send_of_not_due rfl]

theorem foldl_send_due (h : s.due = true) (msgs : List Bytes) :
    (msgs.foldl send s).due = decide (msgs = []) := by
  cases msgs with
  | nil => exact h
  | cons msg msgs => rw [foldl_send_cons h]; rfl

theorem onRecv_eq (h : s.due = true) :
    onRecv d s request = (attempts d request).map fun msgs => msgs.foldl send s := by
  rw [onRecv, attempts]
  cases d.dispatch request with
  | undefined => rfl
  | throws what => rfl
  | processed key msgbody handled =>
    simp only [Option.map_some]
    cases process handled with
    | reply buff =>
      simp only [foldl_send_due h, decide_eq_true_eq, attemptsAfter, List.foldl_append]
      split <;> rfl
    | noReply => simp only [attemptsAfter, List.foldl_append]; rfl
    | throws standard =>
      cases standard
      · rfl
      · simp only [attemptsAfter, List.foldl_append]; rfl

theorem forall₂_concat {α β : Type*} {R : α → β → Prop} {l : List α} {l' : List β} {a : α} {b : β} :
    List.Forall₂ R (l ++ [a]) (l' ++ [b]) ↔ List.Forall₂ R l l' ∧ R a b := by
  rw [← List.forall₂_reverse_iff, List.reverse_append, List.reverse_append]
  simp only [List.reverse_singleton, List.singleton_append, List.forall₂_cons,
    List.forall₂_reverse_iff, and_comm]

/-- One request more is answered well if and only if there is one send for it that carries its
reply. -/
theorem alternates_foldl_iff (hdue : s.due = false) (msgs : List Bytes) :
    Alternates d (msgs.foldl send { s with due := true, received := s.received ++ [request] }) ↔
      Alternates d s ∧ ∃ msg, msgs = [msg] ∧ Carries d request msg := by
  cases msgs with
  | nil =>
    refine iff_of_false (fun h => ?_) (fun h => ?_)
    · cases h.due
    · obtain ⟨-, msg, hmsg, -⟩ := h
      exact List.cons_ne_nil _ _ hmsg.symm
  | cons msg msgs =>
    rw [foldl_send_cons rfl]
    constructor
    · intro h
      obtain ⟨-, hanswered, hrefused⟩ := h
      obtain ⟨hs, hmsg⟩ := forall₂_concat.mp hanswered
      obtain ⟨hr, hlen⟩ := Nat.add_eq_zero_iff.mp hrefused
      obtain rfl := List.length_eq_zero_iff.mp hlen
      exact ⟨⟨hdue, hs, hr⟩, msg, rfl, hmsg⟩
    · intro h
      obtain ⟨hs, msg', heq, hmsg⟩ := h
      obtain ⟨rfl, rfl⟩ := List.cons.inj heq
      exact ⟨rfl, forall₂_concat.mpr ⟨hs.answered, hmsg⟩, hs.refused⟩

theorem carries_of_produced_eq_none (h : produced d request = none) (msg : Bytes) :
    Carries d request msg := by
  intro name data hreply
  rw [h] at hreply
  cases hreply

/-- `on_recv` sends the empty message itself, after the sends of the handler. -/
theorem empty_answer_iff {sends : List Bytes} (h : produced d request = none) :
    sends = [] ↔ ∃ msg, some (sends ++ [[]]) = some [msg] ∧ Carries d request msg := by
  constructor
  · rintro rfl
    exact ⟨[], rfl, carries_of_produced_eq_none h []⟩
  · intro hmsg
    obtain ⟨msg, hmsg, -⟩ := hmsg
    have hlen := congrArg List.length (Option.some.inj hmsg)
    rw [List.length_append] at hlen
    exact List.length_eq_zero_iff.mp (Nat.succ.inj hlen)

/-- The handler has returned a reply. -/
theorem reply_answer_iff {key msgbody name data : Bytes} {sends : List Bytes}
    (hd : d.dispatch request =
      .processed key msgbody (some ⟨sends, .returns (some (name, data))⟩)) :
    (sends = [] ∧ name ≠ [] ∧ data ≠ []) ↔
      ∃ msg, attempts d request = some [msg] ∧ Carries d request msg := by
  have hproduced : produced d request = some (name, data) := by rw [produced, hd]
  have hattempts {msg : Bytes} (hpack : packMsgByName id [] name data = (true, msg)) :
      attempts d request = some (sends ++ if sends = [] then [msg] else [msg, []]) := by
    have hprocess : process (some ⟨sends, .returns (some (name, data))⟩) = .reply msg := by
      simp only [process, hpack, if_true]
    rw [attempts, hd]
    exact congrArg (fun p => some (attemptsAfter sends p)) hprocess
  constructor
  · intro h
    obtain ⟨hsends, hn, hdata⟩ := h
    have hpack : packMsgByName id [] name data = (true, writeNamed [] name (id data)) :=
      packMsgByName_of_ne [] hn hdata
    refine ⟨writeNamed [] name (id data), ?_, fun name' data' h => ?_⟩
    · rw [hattempts hpack, hsends]
      rfl
    · rw [hproduced] at h
      cases h
      exact hpack
  · intro h
    obtain ⟨msg, hmsg, hcarries⟩ := h
    have hpack := hcarries name data hproduced
    obtain ⟨hn, hdata, -⟩ := packMsgByName_eq_true hpack
    refine ⟨?_, hn, hdata⟩
    rw [hattempts hpack, Option.some.injEq] at hmsg
    by_contra hsends
    rw [if_neg hsends] at hmsg
    have hlen := congrArg List.length hmsg
    simp at hlen

theorem answered_iff : Answered d request ↔
    ∃ msg, attempts d request = some [msg] ∧ Carries d request msg := by
  cases hd : d.dispatch request with
  | undefined => simp [Answered, attempts, hd]
  | throws what =>
    have hnone : produced d request = none := by rw [produced, hd]
    simp [Answered, attempts, hd, carries_of_produced_eq_none hnone]
  | processed key msgbody handled =>
    cases handled with
    | none =>
      have hnone : produced d request = none := by rw [produced, hd]
      simp [Answered, attempts, hd, process, attemptsAfter, carries_of_produced_eq_none hnone]
    | some handled =>
      obtain ⟨sends, ending⟩ := handled
      have hanswers : Answered d request ↔ Handled.Answers ⟨sends, ending⟩ := by
        simp [Answered, hd]
      rw [hanswers]
      cases ending with
      | throws standard =>
        have hnone : produced d request = none := by rw [produced, hd]
        cases standard
        · simp [attempts, hd, process, attemptsAfter, carries_of_produced_eq_none hnone,
            Handled.Answers, List.length_eq_one_iff]
        · rw [attempts, hd]
          exact empty_answer_iff hnone
      | returns reply =>
        cases reply with
        | none =>
          have hnone : produced d request = none := by rw [produced, hd]
          rw [attempts, hd]
          exact empty_answer_iff hnone
        | some reply => exact reply_answer_iff hd

/-! ## Runs -/

theorem poll_iff : (∃ s', poll d s request = some s' ∧ Alternates d s') ↔
    Alternates d s ∧ Answered d request := by
  by_cases hdue : s.due = true
  · rw [poll, if_pos hdue]
    refine iff_of_false (fun h => ?_) (fun h => ?_)
    · obtain ⟨s', hs', ha⟩ := h
      cases hs'
      exact absurd ha.due (by rw [hdue]; decide)
    · exact absurd h.1.due (by rw [hdue]; decide)
  · have hdue' : s.due = false := by simpa using hdue
    rw [poll, if_neg hdue, onRecv_eq rfl, answered_iff]
    cases attempts d request with
    | none => simp
    | some msgs =>
      simp only [Option.map_some, Option.some.injEq, exists_eq_left', alternates_foldl_iff hdue']

/-- **One answer for each request.** After a sequence of polls the socket has seen as many sends
as requests, if and only if every request is answered. -/
theorem run_poll_iff (requests : List Bytes) :
    (∃ s', run (poll d) s requests = some s' ∧ Alternates d s') ↔
      Alternates d s ∧ ∀ request ∈ requests, Answered d request := by
  induction requests generalizing s with
  | nil => simp [run_nil]
  | cons request requests ih =>
    rw [List.forall_mem_cons, ← and_assoc, ← poll_iff]
    constructor
    · intro h
      obtain ⟨s', hrun, ha⟩ := h
      rw [run_cons, Option.bind_eq_some_iff] at hrun
      obtain ⟨t, ht, hrun⟩ := hrun
      obtain ⟨hat, hrest⟩ := ih.mp ⟨s', hrun, ha⟩
      exact ⟨⟨t, ht, hat⟩, hrest⟩
    · intro h
      obtain ⟨⟨t, ht, hat⟩, hrest⟩ := h
      obtain ⟨s', hrun, ha⟩ := ih.mpr ⟨hat, hrest⟩
      exact ⟨s', by rw [run_cons, ht]; exact hrun, ha⟩

theorem alternates_start : Alternates d start := ⟨rfl, .nil, rfl⟩

theorem worker_alternates_iff (d : MessageNameDispatcher (Option Handled))
    (requests : List Bytes) :
    (∃ s, run (poll d) start requests = some s ∧ Alternates d s) ↔
      ∀ request ∈ requests, Answered d request := by
  rw [run_poll_iff, and_iff_right alternates_start]

/-! ## The RPC server -/

/-- `RPCServer::doMsgRequest`, a handler without reply that sends the reply itself. -/
def doMsgRequest {S : Rpc.Schema} (rpc : Rpc.RPCDispatcher S)
    (deserialize : Bytes → Option Rpc.Request) (serialize : Rpc.Reply → Bytes)
    (name msgbody : Bytes) :
    Option Handled :=
  (deserialize msgbody).map fun msg =>
    { sends := [(packMsgByName serialize [] name (rpc.requested msg)).2]
      ending := .returns none }

/-- No request that an RPC server can read is answered by one send. -/
theorem not_answered_rpc {S : Rpc.Schema} {rpc : Rpc.RPCDispatcher S}
    {deserialize : Bytes → Option Rpc.Request} {serialize : Rpc.Reply → Bytes}
    {key name msgbody : Bytes} (hread : (deserialize msgbody).isSome)
    (hd : d.dispatch request =
      .processed key msgbody (doMsgRequest rpc deserialize serialize name msgbody)) :
    ¬ Answered d request := by
  obtain ⟨msg, hmsg⟩ := Option.isSome_iff_exists.mp hread
  intro h
  rw [Answered, hd] at h
  have hsends := h _ (by rw [doMsgRequest, hmsg]; rfl)
  exact List.cons_ne_nil _ _ hsends

/-- An RPC server whose requests are of type `R`. -/
def rpcServer : MessageNameDispatcher (Option Handled) :=
  (MessageNameDispatcher.empty.bindHandlerPtr
    { msgtype := 0
      msgname := [82]
      process := doMsgRequest
        (S := ⟨Unit, fun _ => Unit, fun _ => [83], fun _ => [1], fun _ _ => some ()⟩)
        .empty (fun body => some ⟨0, [], [], body⟩) (fun reply => 1 :: reply.body) [80] }).2

/-- The reply is sent, then the empty message in the wrong state. -/
theorem rpcServer_refused :
    (run (poll rpcServer) start [[2, 0, 0, 8, 1, 0, 82, 1]]).map refused = some 1 ∧
      ¬ ∃ s, run (poll rpcServer) start [[2, 0, 0, 8, 1, 0, 82, 1]] = some s ∧
        Alternates rpcServer s := by
  have hrefused : (run (poll rpcServer) start [[2, 0, 0, 8, 1, 0, 82, 1]]).map refused =
      some 1 := by
    decide
  refine ⟨hrefused, fun h => ?_⟩
  obtain ⟨s, hs, ha⟩ := h
  rw [hs, Option.map_some, ha.refused] at hrefused
  cases hrefused

end ZMQWorker

end TinyWorld.Zmq
