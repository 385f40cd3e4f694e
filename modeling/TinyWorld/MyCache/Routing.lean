import Mathlib.Data.List.Forall2
import TinyWorld.MyCache.Broker

/-! # Replies and the clients they are for

As long as no REQ client has an id that begins like those of the DEALER clients
or is READY, the broker reads whole messages on both sides, and what it takes a
message for is what it is. -/
namespace TinyWorld.MyCache
open Lib Lib.Run

/-! ## Addresses -/

namespace Client

/-- The id of a REQ client says neither that it is a DEALER client nor that a worker is ready. -/
def Clear : Client → Prop
  | sync id _ => id.head? ≠ some underscore ∧ id ≠ READY
  | async _ _ => True

instance : ∀ c : Client, Decidable c.Clear
  | sync id _ => inferInstanceAs (Decidable (id.head? ≠ some underscore ∧ id ≠ READY))
  | async _ _ => .isTrue trivial

variable {c : Client}

theorem Clear.identity_ne (h : c.Clear) : c.identity ≠ READY := by
  cases c with
  | sync id automatic =>
    rw [identity]
    split
    · simp [READY]
    · exact h.2
  | async id random => simp [identity, READY, underscore]

theorem Clear.head? (h : c.Clear) :
    c.identity.head? = some underscore ↔ ∃ id random, c = async id random := by
  cases c with
  | sync id automatic =>
    rw [identity]
    split
    · simp [underscore]
    · simpa using h.1
  | async id random => simp [identity]

theorem Clear.replyFrames (h : c.Clear) (reply : Bytes) :
    replyFrames c.identity reply = c.frames reply := by
  rw [MyCache.replyFrames]
  cases c with
  | sync id automatic => rw [if_neg fun hu => by simpa using h.head?.mp hu, frames]
  | async id random => rw [if_pos (h.head?.mpr ⟨id, random, rfl⟩), frames]

/-- The broker reads the message of the client whole. -/
theorem Clear.turn (h : c.Clear) (message : Bytes) :
    clientTurn (c.identity :: c.frames message) = some ⟨c.identity, message⟩ ∧
      Router.Turn clientTurn (c.identity :: c.frames message) := by
  cases c with
  | sync id automatic =>
    have hgoes : clientTurn [(sync id automatic).identity, []] = none :=
      if_neg fun hu => by simpa using h.head?.mp hu
    refine ⟨rfl, ?_⟩
    change Router.Turn clientTurn ([(sync id automatic).identity, []] ++ [message])
    refine .concat rfl ?_
    simp only [List.inits, List.map_cons, List.map_nil, List.forall_mem_cons]
    exact ⟨rfl, rfl, hgoes, List.forall_mem_nil _⟩
  | async id random =>
    have hread : clientTurn [(async id random).identity, message] =
        some ⟨(async id random).identity, message⟩ := by
      rw [clientTurn, if_pos (h.head?.mpr ⟨id, random, rfl⟩)]
    refine ⟨hread, ?_⟩
    change Router.Turn clientTurn ([(async id random).identity] ++ [message])
    refine .concat (by rw [List.singleton_append, hread]; rfl) ?_
    simp only [List.inits, List.map_cons, List.map_nil, List.forall_mem_cons]
    exact ⟨rfl, rfl, List.forall_mem_nil _⟩

end Client

theorem ready_turn (w : Bytes) : Router.Turn workerTurn (w :: WorkerMessage.ready.frames) := by
  change Router.Turn workerTurn ([w, []] ++ [READY])
  refine .concat rfl ?_
  simp only [List.inits, List.map_cons, List.map_nil, List.forall_mem_cons]
  exact ⟨rfl, rfl, rfl, List.forall_mem_nil _⟩

theorem reply_turn (w : Bytes) {r : Request} (body : Bytes) (h : r.clientAddr ≠ READY) :
    Router.Turn workerTurn (w :: (WorkerMessage.reply r body).frames) := by
  have hgoes : workerTurn [w, [], r.clientAddr] = none := if_neg h
  change Router.Turn workerTurn ([w, [], r.clientAddr, []] ++ [replymsg r.request body])
  refine .concat rfl ?_
  simp only [List.inits, List.map_cons, List.map_nil, List.forall_mem_cons]
  exact ⟨rfl, rfl, rfl, hgoes, rfl, List.forall_mem_nil _⟩

theorem replymsg_packBinMsg (id : UInt64) (cmd : UInt8) (msg body : Bytes) :
    replymsg (packBinMsg id cmd msg) body = packBinMsg id cmd body := by
  rw [replymsg, parseBinMsg_packBinMsg]

/-! ## What is read and sent -/

def Pc.workersGot : Pc → List Bytes
  | .workers got _ => got
  | _ => []

def Pc.clientsGot : Pc → List Bytes
  | .clients got => got
  | _ => []

namespace Broker

def requestOf (p : Bytes × ClientMessage) : Request := ⟨p.1, p.2.bin⟩

def announced : Bytes × WorkerMessage → Option Bytes
  | (workerAddr, .ready) => some workerAddr
  | (_, .reply _ _) => none

def replied : Bytes × WorkerMessage → Option (Request × Bytes)
  | (_, .ready) => none
  | (_, .reply request body) => some (request, body)

/-- A reply goes to the client that asked for it, in the frames of that client's socket, with the
`id` and `cmd` of what it asked. -/
def Delivers (clients : Clients) (received : List Request) (reply : Request × Bytes)
    (sent : Bytes × List Bytes) : Prop :=
  reply.1 ∈ received ∧ ∃ c, ∃ m : ClientMessage,
    clients.peer reply.1.clientAddr = some c ∧ reply.1.request = m.bin ∧
    sent = (reply.1.clientAddr, c.frames (packBinMsg m.id m.cmd reply.2))

/-- The requests that have been received are the messages of the clients as they arrived. The
workers' messages are read as they arrived too, those that announce a worker into the queue, and
each of the replies has been sent to its client; what is not read is the rest of the messages. -/
structure Routed (clients : Clients) (s : Broker) : Prop where
  requests : ∃ done, s.clientsSocket.Done clientTurn clients.frames s.pc.clientsGot done ∧
    s.received = done.map requestOf
  replies : ∃ done,
    s.workersSocket.Done workerTurn (fun _ => WorkerMessage.frames) s.pc.workersGot done ∧
      s.workerQueue = done.filterMap announced ∧
      List.Forall₂ (Delivers clients s.received) (done.filterMap replied) s.toClients

/-- Requests come from clients with clear ids. -/
def ClearRequest (clients : Clients) (_ : Broker) : Op → Prop
  | .request clientAddr _ => ∀ c ∈ clients.peer clientAddr, c.Clear
  | _ => True

instance (clients : Clients) (s : Broker) : ∀ op, Decidable (ClearRequest clients s op)
  | .request clientAddr _ => inferInstanceAs (Decidable (∀ c ∈ clients.peer clientAddr, c.Clear))
  | .requestArrives _ | .ready _ | .take _ | .answer _ _ | .workerArrives _ | .poll | .recv =>
    .isTrue trivial

/-! ## Where messages come from -/

variable {clients : Clients} {s s' : Broker}

def ClearAt (clients : Clients) (addr : Bytes) : Prop := ∃ c, clients.peer addr = some c ∧ c.Clear

structure Requests (clients : Clients) (s : Broker) : Prop where
  read : ∃ done, s.clientsSocket.Done clientTurn clients.frames s.pc.clientsGot done ∧
    s.received = done.map requestOf
  flight : ∀ addr, ∀ m ∈ s.clientsSocket.flight addr, ClearAt clients addr
  arrived : ∀ p ∈ s.clientsSocket.arrived, ClearAt clients p.1

/-- Workers know received requests only. -/
structure Known (s : Broker) : Prop where
  outstanding : ∀ w, ∀ r ∈ (s.workers w).outstanding, r ∈ s.received
  flight : ∀ w r body, .reply r body ∈ s.workersSocket.flight w → r ∈ s.received
  arrived : ∀ w r body, (w, .reply r body) ∈ s.workersSocket.arrived → r ∈ s.received

structure Replies (clients : Clients) (s : Broker) : Prop where
  read : ∃ done,
    s.workersSocket.Done workerTurn (fun _ => WorkerMessage.frames) s.pc.workersGot done ∧
      s.workerQueue = done.filterMap announced ∧
      List.Forall₂ (Delivers clients s.received) (done.filterMap replied) s.toClients
  known : Known s

theorem Requests.congr (h : Requests clients s) (hs : s'.clientsSocket = s.clientsSocket)
    (hpc : s'.pc.clientsGot = s.pc.clientsGot) (hr : s'.received = s.received) :
    Requests clients s' where
  read := by rw [hs, hpc, hr]; exact h.read
  flight := by rw [hs]; exact h.flight
  arrived := by rw [hs]; exact h.arrived

theorem Known.congr (h : Known s) (hw : s'.workers = s.workers)
    (hf : s'.workersSocket.flight = s.workersSocket.flight)
    (ha : s'.workersSocket.arrived = s.workersSocket.arrived) (hr : s'.received = s.received) :
    Known s' where
  outstanding := by rw [hw, hr]; exact h.outstanding
  flight := by rw [hf, hr]; exact h.flight
  arrived := by rw [ha, hr]; exact h.arrived

theorem Replies.congr (h : Replies clients s) (hw : s'.workers = s.workers)
    (hs : s'.workersSocket = s.workersSocket) (hpc : s'.pc.workersGot = s.pc.workersGot)
    (hq : s'.workerQueue = s.workerQueue) (ht : s'.toClients = s.toClients)
    (hr : s'.received = s.received) : Replies clients s' where
  read := by rw [hs, hpc, hq, ht, hr]; exact h.read
  known := h.known.congr hw (by rw [hs]) (by rw [hs]) hr

theorem ClearAt.turn {addr : Bytes} (h : ClearAt clients addr) (m : ClientMessage) :
    clientTurn (Router.encode clients.frames (addr, m)) = some (requestOf (addr, m)) ∧
      Router.Turn clientTurn (Router.encode clients.frames (addr, m)) := by
  obtain ⟨c, hc, hclear⟩ := h
  have haddr := clients.identity addr c hc
  have hencode : Router.encode clients.frames (addr, m) = c.identity :: c.frames m.bin := by
    rw [Router.encode, Clients.frames, hc, haddr]
    rfl
  rw [hencode, requestOf, ← haddr]
  exact hclear.turn m.bin

/-- What has been received is from a client. -/
theorem Requests.received (h : Requests clients s) {r : Request} (hr : r ∈ s.received) :
    ∃ c, ∃ m : ClientMessage, clients.peer r.clientAddr = some c ∧ c.Clear ∧ r.request = m.bin := by
  obtain ⟨done, ⟨left, hleft, -⟩, hreceived⟩ := h.read
  rw [hreceived, List.mem_map] at hr
  obtain ⟨p, hp, rfl⟩ := hr
  obtain ⟨c, hc, hclear⟩ := h.arrived p (by rw [hleft]; exact List.mem_append_left _ hp)
  exact ⟨c, p.2, hc, hclear, rfl⟩

/-- One worker changes. -/
theorem Known.update (h : Known s) {w : Bytes} {worker : Worker}
    (hworkers : s'.workers = Function.update s.workers w worker)
    (hout : ∀ r ∈ worker.outstanding, r ∈ s'.received) (hr : ∀ r ∈ s.received, r ∈ s'.received)
    (hflight : ∀ w r body, .reply r body ∈ s'.workersSocket.flight w →
      .reply r body ∈ s.workersSocket.flight w ∨ r ∈ s'.received)
    (harrived : s'.workersSocket.arrived = s.workersSocket.arrived) : Known s' where
  outstanding := by
    rw [hworkers]
    exact (Function.forall_update_iff s.workers fun _ worker =>
      ∀ r ∈ worker.outstanding, r ∈ s'.received).mpr
        ⟨hout, fun x _ r hm => hr r (h.outstanding x r hm)⟩
  flight := fun w r body hm => (hflight w r body hm).elim (fun hm => hr r (h.flight w r body hm)) id
  arrived := by
    rw [harrived]
    exact fun w r body hm => hr r (h.arrived w r body hm)

/-! ## The clients -/

theorem Requests.request (h : Requests clients s) {a : Bytes} {m : ClientMessage}
    (hclear : ClearRequest clients s (.request a m))
    (hs : s.step clients (.request a m) = some s') : Requests clients s' := by
  rw [step] at hs
  split at hs
  · next hpeer =>
    cases hs
    obtain ⟨c, hc⟩ := Option.isSome_iff_exists.mp hpeer
    refine ⟨h.read, fun addr m' hm' => ?_, h.arrived⟩
    rcases Router.mem_send hm' with hm' | ⟨rfl, -⟩
    · exact h.flight addr m' hm'
    · exact ⟨c, hc, hclear c hc⟩
  · cases hs

theorem Requests.arrives (h : Requests clients s) {a : Bytes}
    (hs : s.step clients (.requestArrives a) = some s') : Requests clients s' := by
  obtain ⟨socket, harrive, rfl⟩ := Option.map_eq_some_iff.mp hs
  obtain ⟨m, hm, hflight, harrived, -⟩ := Router.arrive_eq harrive
  obtain ⟨done, hdone, hreceived⟩ := h.read
  refine ⟨⟨done, hdone.arrive (fun m hm => ((h.flight a m hm).turn m).2) harrive, hreceived⟩,
    fun addr m' hm' => h.flight addr m' (hflight addr m' hm'), ?_⟩
  rw [harrived]
  intro p hp
  rcases List.mem_append.mp hp with hp | hp
  · exact h.arrived p hp
  · cases List.mem_singleton.mp hp
    exact h.flight a m hm

/-! ## The workers -/

theorem Replies.ready (h : Replies clients s) {w : Bytes}
    (hs : s.step clients (.ready w) = some s') :
    Replies clients s' := by
  rw [step] at hs
  split at hs
  · cases hs
  · cases hs
    refine ⟨h.read, h.known.update rfl (h.known.outstanding w) (fun _ => id) ?_ rfl⟩
    intro x r body hm
    rcases Router.mem_send hm with hm | ⟨-, hm⟩
    · exact .inl hm
    · cases hm

theorem Replies.take (h : Replies clients s) {w : Bytes} (hs : s.step clients (.take w) = some s') :
    Replies clients s' := by
  obtain ⟨worker, htake, rfl⟩ := Option.map_eq_some_iff.mp hs
  refine ⟨h.read, h.known.update rfl ?_ (fun _ => id) (fun _ _ _ => .inl) rfl⟩
  rw [(Worker.take_fields htake).2]
  exact h.known.outstanding w

theorem Replies.answer (h : Replies clients s) {w body : Bytes}
    (hs : s.step clients (.answer w body) = some s') : Replies clients s' := by
  obtain ⟨p, hanswer, rfl⟩ := Option.map_eq_some_iff.mp hs
  obtain ⟨r, hserving, rfl⟩ := Option.map_eq_some_iff.mp hanswer
  have hr : r ∈ s.received := by
    refine h.known.outstanding w r ?_
    rw [Worker.outstanding, hserving]
    exact List.mem_cons_self
  refine ⟨h.read, h.known.update rfl (fun _ hm => absurd hm List.not_mem_nil) (fun _ => id) ?_ rfl⟩
  intro x q answer hm
  rcases Router.mem_send hm with hm | ⟨-, hm⟩
  · exact .inl hm
  · cases hm
    exact .inr hr

theorem Replies.arrives (h : Replies clients s) (hq : Requests clients s) {w : Bytes}
    (hs : s.step clients (.workerArrives w) = some s') : Replies clients s' := by
  obtain ⟨socket, harrive, rfl⟩ := Option.map_eq_some_iff.mp hs
  obtain ⟨m, hm, hflight, harrived, -⟩ := Router.arrive_eq harrive
  obtain ⟨done, hdone, hrest⟩ := h.read
  refine ⟨⟨done, hdone.arrive (fun m hm => ?_) harrive, hrest⟩, h.known.outstanding, ?_, ?_⟩
  · cases m with
    | ready => exact ready_turn w
    | reply r body =>
      obtain ⟨c, -, hc, hclear, -⟩ := hq.received (h.known.flight w r body hm)
      exact reply_turn w body (clients.identity _ c hc ▸ hclear.identity_ne)
  · exact fun x r body hx => h.known.flight x r body (hflight x _ hx)
  · intro x r body hx
    have hx' : (x, WorkerMessage.reply r body) ∈ s.workersSocket.arrived ++ [(w, m)] :=
      harrived ▸ hx
    rcases List.mem_append.mp hx' with hx' | hx'
    · exact h.known.arrived x r body hx'
    · cases List.mem_singleton.mp hx'
      exact h.known.flight w r body hm

/-! ## The broker -/

theorem workersGot_recv (after : Bool) :
    (if after then Pc.clients [] else Pc.poll).workersGot = [] := by
  cases after <;> rfl

theorem poll_got : s.poll.workersGot = [] ∧ s.poll.clientsGot = [] := by
  simp only [poll]
  split
  · split <;> exact ⟨rfl, rfl⟩
  · exact ⟨rfl, rfl⟩

/-- A reply that answers a request of a client is sent to that client. -/
theorem Requests.delivers (h : Requests clients s) {r : Request} (hr : r ∈ s.received)
    (body : Bytes) :
    Delivers clients s.received (r, body)
      (r.clientAddr, replyFrames r.clientAddr (replymsg r.request body)) := by
  obtain ⟨c, m, hc, hclear, hm⟩ := h.received hr
  refine ⟨hr, c, m, hc, hm, ?_⟩
  have haddr := clients.identity _ c hc
  rw [hm, ClientMessage.bin, replymsg_packBinMsg, ← haddr, hclear.replyFrames]

theorem Replies.recvWorkers (h : Replies clients s) (hq : Requests clients s) {got : List Bytes}
    {after : Bool} (hpc : s.pc = .workers got after) (hs : s.recvWorkers got after = some s') :
    Replies clients s' := by
  obtain ⟨p, hrecv, rfl⟩ := Option.map_eq_some_iff.mp hs
  obtain ⟨hflight, harrived, -⟩ := Router.recv_eq hrecv
  obtain ⟨done, hdone, hqueue, hsent⟩ := h.read
  have hgot : s.pc.workersGot = got := by rw [hpc]; rfl
  rw [hgot] at hdone
  cases hturn : workerTurn (got ++ [p.1]) with
  | none =>
    dsimp only
    exact ⟨⟨done, hdone.more hrecv hturn, hqueue, hsent⟩, h.known.congr rfl hflight harrived rfl⟩
  | some turn =>
    obtain ⟨⟨w, m⟩, hmem, hencode, hdone'⟩ := hdone.turn hrecv (by rw [hturn]; rfl)
    rw [← workersGot_recv after] at hdone'
    rw [← hencode] at hturn
    cases m with
    | ready =>
      obtain rfl : WorkerTurn.ready w = turn := Option.some.inj hturn
      refine ⟨⟨_, hdone', ?_, ?_⟩, h.known.congr rfl hflight harrived rfl⟩
      · rw [List.filterMap_append, ← hqueue]
        rfl
      · rw [List.filterMap_append]
        exact (List.append_nil _).symm ▸ hsent
    | reply r body =>
      obtain rfl : WorkerTurn.reply r.clientAddr (replymsg r.request body) = turn :=
        Option.some.inj hturn
      refine ⟨⟨_, hdone', ?_, ?_⟩, h.known.congr rfl hflight harrived rfl⟩
      · rw [List.filterMap_append, ← hqueue]
        exact (List.append_nil _).symm
      · rw [List.filterMap_append]
        exact List.rel_append hsent (.cons (hq.delivers (h.known.arrived w r body hmem) body) .nil)

theorem Requests.recvWorkers (h : Requests clients s) {got : List Bytes} {after : Bool}
    (hpc : s.pc = .workers got after) (hs : s.recvWorkers got after = some s') :
    Requests clients s' := by
  obtain ⟨p, -, rfl⟩ := Option.map_eq_some_iff.mp hs
  have hgot : s.pc.clientsGot = [] := by rw [hpc]; rfl
  have hnext : (if after then Pc.clients [] else Pc.poll).clientsGot = [] := by
    cases after <;> rfl
  dsimp only
  split
  · exact h.congr rfl (hnext.trans hgot.symm) rfl
  · exact h.congr rfl (hnext.trans hgot.symm) rfl
  · exact h.congr rfl hgot.symm rfl

theorem Requests.recvClients (h : Requests clients s) {got : List Bytes} (hpc : s.pc = .clients got)
    (hs : s.recvClients got = some s') : Requests clients s' := by
  obtain ⟨p, hrecv, rfl⟩ := Option.map_eq_some_iff.mp hs
  obtain ⟨hflight, harrived, -⟩ := Router.recv_eq hrecv
  obtain ⟨done, hdone, hreceived⟩ := h.read
  have hgot : s.pc.clientsGot = got := by rw [hpc]; rfl
  rw [hgot] at hdone
  cases hturn : clientTurn (got ++ [p.1]) with
  | none =>
    exact ⟨⟨done, hdone.more hrecv hturn, hreceived⟩, by rw [hflight]; exact h.flight,
      by rw [harrived]; exact h.arrived⟩
  | some request =>
    obtain ⟨⟨addr, m⟩, hmem, hencode, hdone'⟩ := hdone.turn hrecv (by rw [hturn]; rfl)
    obtain ⟨hpc', -, -, hsocket, hreceived', -⟩ :=
      forward_frame (s := { s with clientsSocket := p.2, pc := .poll }) request
    rw [← hencode, ((h.arrived _ hmem).turn m).1] at hturn
    obtain rfl : requestOf (addr, m) = request := Option.some.inj hturn
    refine ⟨⟨done ++ [(addr, m)], ?_, ?_⟩, ?_, ?_⟩
    · rw [hsocket, hpc']
      exact hdone'
    · rw [hreceived', hreceived, List.map_append]
      rfl
    · rw [hsocket, hflight]
      exact h.flight
    · rw [hsocket, harrived]
      exact h.arrived

theorem Known.forward (h : Known s) (r : Request) : Known (s.forward r) := by
  have hr : ∀ q ∈ s.received, q ∈ s.received ++ [r] := fun _ => List.mem_append_left _
  rw [Broker.forward]
  split
  · next w hw =>
    refine h.update rfl (fun q hq => ?_) hr (fun _ _ _ => .inl) rfl
    rw [Worker.put] at hq
    split at hq
    · rw [Worker.outstanding, ← List.append_assoc, List.mem_append] at hq
      exact hq.elim (fun hq => hr q (h.outstanding w q hq)) (List.mem_append_right _)
    · exact hr q (h.outstanding w q hq)
  · exact ⟨fun w q hq => hr q (h.outstanding w q hq), fun w q body hm =>
      hr q (h.flight w q body hm),
      fun w q body hm => hr q (h.arrived w q body hm)⟩

theorem Delivers.append {received : List Request} {reply : Request × Bytes}
    {sent : Bytes × List Bytes} (h : Delivers clients received reply sent) (r : Request) :
    Delivers clients (received ++ [r]) reply sent :=
  h.imp_left (List.mem_append_left _)

theorem Replies.recvClients (h : Replies clients s) {got : List Bytes} (hpc : s.pc = .clients got)
    (hs : s.recvClients got = some s') : Replies clients s' := by
  obtain ⟨p, -, rfl⟩ := Option.map_eq_some_iff.mp hs
  have hgot : s.pc.workersGot = [] := by rw [hpc]; rfl
  split
  · next request _ =>
    have hknown : Known { s with clientsSocket := p.2, pc := .poll } :=
      h.known.congr rfl rfl rfl rfl
    obtain ⟨hpc', hqueue', hsocket', -, hreceived', hsent'⟩ :=
      forward_frame (s := { s with clientsSocket := p.2, pc := .poll }) request
    obtain ⟨done, hdone, hqueue, hsent⟩ := h.read
    rw [hgot] at hdone
    refine ⟨⟨done, ?_, hqueue'.trans hqueue, ?_⟩, hknown.forward request⟩
    · rw [hsocket', hpc']
      exact hdone
    · rw [hreceived', hsent']
      exact hsent.imp fun _ _ hd => hd.append request
  · exact h.congr rfl rfl hgot.symm rfl rfl rfl

/-! ## Runs -/

/-- Every step keeps both. -/
theorem step_routed (hq : Requests clients s) (h : Replies clients s) {op : Op}
    (hop : ClearRequest clients s op) (hs : s.step clients op = some s') :
    Requests clients s' ∧ Replies clients s' := by
  cases op with
  | request a m =>
    refine ⟨hq.request hop hs, ?_⟩
    rw [step] at hs
    split at hs
    · cases hs
      exact h.congr rfl rfl rfl rfl rfl rfl
    · cases hs
  | requestArrives a =>
    refine ⟨hq.arrives hs, ?_⟩
    obtain ⟨socket, -, rfl⟩ := Option.map_eq_some_iff.mp hs
    exact h.congr rfl rfl rfl rfl rfl rfl
  | ready w =>
    refine ⟨?_, h.ready hs⟩
    rw [step] at hs
    split at hs
    · cases hs
    · cases hs
      exact hq.congr rfl rfl rfl
  | take w =>
    refine ⟨?_, h.take hs⟩
    obtain ⟨worker, -, rfl⟩ := Option.map_eq_some_iff.mp hs
    exact hq.congr rfl rfl rfl
  | answer w body =>
    refine ⟨?_, h.answer hs⟩
    obtain ⟨p, -, rfl⟩ := Option.map_eq_some_iff.mp hs
    exact hq.congr rfl rfl rfl
  | workerArrives w =>
    refine ⟨?_, h.arrives hq hs⟩
    obtain ⟨socket, -, rfl⟩ := Option.map_eq_some_iff.mp hs
    exact hq.congr rfl rfl rfl
  | poll =>
    rw [step] at hs
    split at hs
    · next hpc =>
      cases hs
      obtain ⟨hw, hc⟩ := poll_got (s := s)
      refine ⟨hq.congr rfl (hc.trans ?_) rfl, h.congr rfl rfl (hw.trans ?_) rfl rfl rfl⟩
      all_goals rw [hpc]; rfl
    · cases hs
  | recv =>
    rw [step] at hs
    split at hs
    · cases hs
    · next got after hpc => exact ⟨hq.recvWorkers hpc hs, h.recvWorkers hq hpc hs⟩
    · next got hpc => exact ⟨hq.recvClients hpc hs, h.recvClients hpc hs⟩

theorem requests_start : Requests clients start where
  read := ⟨[], .empty rfl, rfl⟩
  flight := fun _ _ hm => absurd hm List.not_mem_nil
  arrived := fun _ hm => absurd hm List.not_mem_nil

theorem replies_start : Replies clients start where
  read := ⟨[], .empty rfl, rfl, .nil⟩
  known :=
    { outstanding := fun _ _ hm => absurd hm List.not_mem_nil
      flight := fun _ _ _ hm => absurd hm List.not_mem_nil
      arrived := fun _ _ _ hm => absurd hm List.not_mem_nil }

/-- **Replies find their clients.** In a run in which only clients with clear ids ask, every request
is read as it was sent, and every reply goes to the client whose request it answers. -/
theorem routed {ops : List Op} (hg : Guarded (step clients) (ClearRequest clients) start ops)
    (hr : exec clients ops = some s) : Routed clients s := by
  have hstep : ∀ s op s', Requests clients s ∧ Replies clients s → ClearRequest clients s op →
      s.step clients op = some s' → Requests clients s' ∧ Replies clients s' :=
    fun s op s' h hop hs => step_routed h.1 h.2 hop hs
  obtain ⟨hrequests, hreplies⟩ := hg.run_preserves hstep ⟨requests_start, replies_start⟩ hr
  exact ⟨hrequests.read, hreplies.read⟩

/-- A synchronous client `a` and an asynchronous one `b`. -/
def syncAndAsync : Clients where
  peer addr :=
    if addr = [97] then some (.sync [97] [])
    else if addr = [95, 98] then some (.async [98] [])
    else none
  identity addr c h := by
    split at h
    · next haddr =>
      cases h
      exact haddr.symm
    · split at h
      · next haddr =>
        cases h
        exact haddr.symm
      · cases h

/-- The request of `a` is sent first, arrives last and is answered first. -/
def interleaved : List Op :=
  greeted [119, 48] ++ greeted [119, 49] ++ [.request [97] ⟨1, 0, []⟩] ++
    asked [95, 98] ⟨2, 0, []⟩ 2 ++ [.requestArrives [97], .poll, .recv, .recv, .recv] ++
    answered [119, 49] [] 5 ++ answered [119, 48] [] 5

theorem routed_sync : ∃ s, exec syncAndAsync interleaved = some s ∧
    s.toClients.map Prod.fst = [[97], [95, 98]] ∧ Routed syncAndAsync s := by
  obtain ⟨s, hs, hto⟩ : ∃ s, exec syncAndAsync interleaved = some s ∧
    s.toClients.map Prod.fst = [[97], [95, 98]] := ⟨_, rfl, rfl⟩
  exact ⟨s, hs, hto, routed (by decide +kernel) hs⟩

/-- The reply to a client that calls itself READY is not sent to it. -/
theorem reply_taken_for_ready : ∃ s, exec (.single (.sync READY []))
    (greeted [119, 48] ++ asked READY ⟨1, 0, []⟩ 3 ++ answered [119, 48] [] 3) = some s ∧
      s.toClients = [] ∧ s.workerQueue = [[119, 48], [119, 48]] ∧
      ¬ Routed (.single (.sync READY [])) s := by
  refine ⟨_, rfl, rfl, rfl, fun h => ?_⟩
  obtain ⟨done, ⟨left, hleft, -⟩, hqueue, -⟩ := h.replies
  -- one of the two messages announces a worker
  have hall : 2 ≤ ((done ++ left).filterMap announced).length := by
    rw [List.filterMap_append, ← hqueue, List.length_append]
    exact Nat.le_add_right 2 _
  rw [← hleft] at hall
  exact absurd hall (by decide)

end Broker

end TinyWorld.MyCache
