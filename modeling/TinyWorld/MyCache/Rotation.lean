import TinyWorld.MyCache.Broker

/-! # The rotation of the workers

The queue of workers only grows, and the broker goes round in it whether the
next worker has answered or not. Each request that a worker has been sent is
kept as long as the next one is free whenever a request is forwarded. -/
namespace TinyWorld.MyCache
open Lib Lib.Run

/-! ## One worker -/

namespace Worker

variable {sent : List Request} {w w' : Worker} {r : Request}

/-- What was sent to the worker is answered, or is the one request that it still has. -/
structure Serves (sent : List Request) (w : Worker) : Prop where
  kept : sent = w.answered ++ w.outstanding
  one : w.outstanding.length ≤ 1

/-- The worker has nothing but what was sent to it. -/
def Holds (sent : List Request) (w : Worker) : Prop := (w.answered ++ w.outstanding).Sublist sent

structure Free (w : Worker) : Prop where
  ready : w.ready = true
  idle : w.outstanding = []

instance (w : Worker) : Decidable w.Free :=
  decidable_of_iff (w.ready = true ∧ w.outstanding = []) ⟨fun h => ⟨h.1, h.2⟩, fun h => ⟨h.1, h.2⟩⟩

theorem serves_of_eq (h : Holds sent w) (ha : w'.answered = w.answered)
    (ho : w'.outstanding = w.outstanding) :
    Holds sent w' ∧ (Serves sent w' ↔ Serves sent w ∧ True) := by
  refine ⟨by rw [Holds, ha, ho]; exact h, fun hs => ⟨?_, trivial⟩, fun hs => ?_⟩
  · exact ⟨by rw [← ha, ← ho]; exact hs.kept, by rw [← ho]; exact hs.one⟩
  · exact ⟨by rw [ha, ho]; exact hs.1.kept, by rw [ho]; exact hs.1.one⟩

/-- A second request is dropped when the first one is answered. -/
theorem answer_serves (h : Holds sent w) (ha : w.answer = some (r, w')) :
    Holds sent w' ∧ (Serves sent w' ↔ Serves sent w) := by
  rw [answer, Option.map_eq_some_iff] at ha
  obtain ⟨q, hq, heq⟩ := ha
  cases heq
  have hout : w.outstanding = r :: w.inbox := by
    rw [outstanding, hq]
    rfl
  have hout' : ({ w with serving := none, inbox := [], answered := w.answered ++ [r] } :
      Worker).outstanding = [] := rfl
  rw [Holds, hout] at h
  refine ⟨?_, fun hs => ?_, fun hs => ?_⟩
  · rw [Holds, hout', List.append_nil]
    refine .trans ?_ h
    exact (List.Sublist.refl _).append ((List.nil_sublist _).cons_cons r)
  · have hinbox : w.inbox = [] := by
      have hkept := hs.kept
      rw [hout', List.append_nil] at hkept
      have hlen := h.length_le
      rw [hkept] at hlen
      refine List.eq_nil_of_length_eq_zero ?_
      simp only [List.length_append, List.length_cons, List.length_nil] at hlen
      omega
    refine ⟨?_, by rw [hout, hinbox]; exact Nat.le_refl 1⟩
    rw [hout, hinbox]
    exact hs.kept.trans (List.append_nil _)
  · have hinbox : w.inbox = [] := by
      have hone := hs.one
      rw [hout, List.length_cons] at hone
      exact List.eq_nil_of_length_eq_zero (by omega)
    refine ⟨?_, by rw [hout']; exact Nat.zero_le 1⟩
    rw [hs.kept, hout, hinbox, hout', List.append_nil]

theorem put_serves (h : Holds sent w) :
    Holds (sent ++ [r]) (w.put r) ∧ (Serves (sent ++ [r]) (w.put r) ↔ Serves sent w ∧ Free w) := by
  by_cases hr : w.ready = true
  · have hput : w.put r = { w with inbox := w.inbox ++ [r] } := if_pos hr
    have hout : ({ w with inbox := w.inbox ++ [r] } : Worker).outstanding = w.outstanding ++ [r] :=
      (List.append_assoc ..).symm
    rw [hput]
    refine ⟨?_, fun hs => ?_, fun hs => ?_⟩
    · rw [Holds, hout, ← List.append_assoc]
      exact List.Sublist.append h (List.Sublist.refl [r])
    · have hone := hs.one
      rw [hout, List.length_append, List.length_singleton] at hone
      have hidle : w.outstanding = [] := List.eq_nil_of_length_eq_zero (by omega)
      have hkept := hs.kept
      rw [hout, ← List.append_assoc] at hkept
      exact ⟨⟨List.append_cancel_right hkept, by rw [hidle]; exact Nat.zero_le 1⟩, hr, hidle⟩
    · obtain ⟨hs, hfree⟩ := hs
      refine ⟨?_, by rw [hout, hfree.idle]; exact Nat.le_refl 1⟩
      rw [hout, ← List.append_assoc, ← hs.kept]
  · have hput : w.put r = w := if_neg hr
    rw [hput]
    refine ⟨h.trans (List.sublist_append_left _ _), fun hs => ?_, fun hs => absurd hs.2.ready hr⟩
    -- nothing can make up for the request that is lost
    have hlen := h.length_le
    rw [← hs.kept, List.length_append, List.length_singleton] at hlen
    omega

end Worker

/-- The front-end was readable. -/
def Pc.readsClients : Pc → Prop
  | .poll => False
  | .workers _ after => after = true
  | .clients _ => True

namespace Broker

variable {clients : Clients} {s s' : Broker}

/-- The requests for one worker. -/
def sentTo (s : Broker) (workerAddr : Bytes) : List Request :=
  (s.forwarded.filter (fun p => p.1 = workerAddr)).map Prod.snd

/-- No worker is sent a request before it has answered the last one, and none of the requests that
the broker has received is lost. -/
structure OneEach (s : Broker) : Prop where
  forwarded : s.forwarded.map Prod.snd = s.received
  serves : ∀ w, (s.workers w).Serves (s.sentTo w)

/-- The request that is complete with the next frame. -/
def completes (s : Broker) : Option Request :=
  match s.pc, s.clientsSocket.stream with
  | .clients got, f :: _ => clientTurn (got ++ [f])
  | _, _ => none

/-- If a request is complete, the next worker in rotation is free. -/
def InTurn (s : Broker) : Op → Prop
  | .recv => ∀ r ∈ s.completes, ∀ w ∈ s.next, (s.workers w).Free
  | _ => True

instance (s : Broker) : ∀ op, Decidable (InTurn s op)
  | .recv => inferInstanceAs (Decidable (∀ r ∈ s.completes, ∀ w ∈ s.next, (s.workers w).Free))
  | .request _ _ | .requestArrives _ | .ready _ | .take _ | .answer _
      _ | .workerArrives _ | .poll =>
    .isTrue trivial

/-! ## The front-end is polled only if there are available workers -/

structure Polls (s : Broker) : Prop where
  available : s.pc.readsClients → s.workerQueue ≠ []
  forwarded : s.forwarded.map Prod.snd = s.received
  holds : ∀ w, (s.workers w).Holds (s.sentTo w)

theorem OneEach.iff (h : Polls s) : OneEach s ↔ ∀ w, (s.workers w).Serves (s.sentTo w) :=
  ⟨OneEach.serves, fun hs => ⟨h.forwarded, hs⟩⟩

theorem next_eq_some (h : s.workerQueue ≠ []) : ∃ w, s.next = some w := by
  have hlt : s.workerQueueSelector.toNat % s.workerQueue.length < s.workerQueue.length :=
    Nat.mod_lt _ (List.length_pos_of_ne_nil h)
  exact ⟨_, List.getElem?_eq_getElem hlt⟩

/-- Of the workers only one changes, and what is sent to the others does not. -/
theorem forall_serves_iff {workers : Bytes → Worker} {sent sent' : Bytes → List Request} {w : Bytes}
    {worker : Worker} {ok : Prop} (hsent : ∀ x, x ≠ w → sent' x = sent x)
    (hw : worker.Serves (sent' w) ↔ (workers w).Serves (sent w) ∧ ok) :
    (∀ x, (Function.update workers w worker x).Serves (sent' x)) ↔
      (∀ x, (workers x).Serves (sent x)) ∧ ok := by
  rw [Function.forall_update_iff workers fun x worker => worker.Serves (sent' x), hw]
  constructor
  · intro h
    obtain ⟨⟨hself, hok⟩, hother⟩ := h
    refine ⟨fun x => ?_, hok⟩
    by_cases hx : x = w
    · exact hx ▸ hself
    · exact hsent x hx ▸ hother x hx
  · intro h
    exact ⟨⟨h.1 w, h.2⟩, fun x hx => (hsent x hx).symm ▸ h.1 x⟩

/-- One worker changes. -/
theorem Polls.update (h : Polls s) {w : Bytes} {worker : Worker} {ok : Prop}
    (hworkers : s'.workers = Function.update s.workers w worker)
    (available : s'.pc.readsClients → s'.workerQueue ≠ [])
    (forwarded : s'.forwarded.map Prod.snd = s'.received)
    (hother : ∀ x, x ≠ w → s'.sentTo x = s.sentTo x)
    (hw : worker.Holds (s'.sentTo w) ∧
      (worker.Serves (s'.sentTo w) ↔ (s.workers w).Serves (s.sentTo w) ∧ ok)) :
    Polls s' ∧ (OneEach s' ↔ OneEach s ∧ ok) := by
  have hholds : ∀ x, (s'.workers x).Holds (s'.sentTo x) := by
    rw [hworkers]
    refine (Function.forall_update_iff s.workers fun x worker => worker.Holds (s'.sentTo x)).mpr
      ⟨hw.1, fun x hx => ?_⟩
    rw [hother x hx]
    exact h.holds x
  have hpolls : Polls s' := ⟨available, forwarded, hholds⟩
  refine ⟨hpolls, ?_⟩
  rw [OneEach.iff hpolls, OneEach.iff h, hworkers]
  exact forall_serves_iff hother hw.2

/-- No worker changes. -/
theorem Polls.congr (h : Polls s) {ok : Prop} (hok : ok) (hw : s'.workers = s.workers)
    (hf : s'.forwarded = s.forwarded) (hr : s'.received = s.received)
    (available : s'.pc.readsClients → s'.workerQueue ≠ []) :
    Polls s' ∧ (OneEach s' ↔ OneEach s ∧ ok) := by
  have hsent : s'.sentTo = s.sentTo := by
    funext x
    rw [sentTo, sentTo, hf]
  have hpolls : Polls s' :=
    { available := available
      forwarded := by rw [hf, hr]; exact h.forwarded
      holds := by rw [hw, hsent]; exact h.holds }
  refine ⟨hpolls, ?_⟩
  rw [OneEach.iff hpolls, OneEach.iff h, hw, hsent]
  exact (and_iff_left hok).symm

/-! ## One step -/

theorem poll_available : s.poll.readsClients → s.workerQueue ≠ [] := by
  intro hreads hempty
  simp only [poll, hempty, List.isEmpty_nil, Bool.not_true, Bool.false_and] at hreads
  split at hreads
  · exact hreads
  · cases hreads

/-- The queue does not get shorter. -/
theorem recvWorkers_fields {got : List Bytes} {after : Bool}
    (hs : s.recvWorkers got after = some s') : s'.workers = s.workers ∧
      s'.forwarded = s.forwarded ∧ s'.received = s.received ∧ s.workerQueue <+: s'.workerQueue ∧
      (s'.pc.readsClients → after = true) := by
  obtain ⟨r, -, rfl⟩ := Option.map_eq_some_iff.mp hs
  have hafter : Pc.readsClients (if after then .clients [] else .poll) → after = true := by
    cases after
    · exact False.elim
    · exact fun _ => rfl
  dsimp only
  split
  · exact ⟨rfl, rfl, rfl, List.prefix_append .., hafter⟩
  · exact ⟨rfl, rfl, rfl, List.prefix_rfl, hafter⟩
  · exact ⟨rfl, rfl, rfl, List.prefix_rfl, id⟩

theorem sentTo_forward {w : Bytes} {r : Request} (hf : s'.forwarded = s.forwarded ++ [(w, r)]) :
    s'.sentTo w = s.sentTo w ++ [r] ∧ ∀ x, x ≠ w → s'.sentTo x = s.sentTo x := by
  refine ⟨by simp [sentTo, hf], fun x hx => ?_⟩
  simp [sentTo, hf, Ne.symm hx]

theorem forward_fields {r : Request} {w : Bytes} (hw : s.next = some w) :
    (s.forward r).workers = Function.update s.workers w ((s.workers w).put r) ∧
      (s.forward r).forwarded = s.forwarded ++ [(w, r)] := by
  rw [forward, hw]
  exact ⟨rfl, rfl⟩

theorem recvClients_oneEach (h : Polls s) {got : List Bytes} (hpc : s.pc = .clients got)
    (hs : s.recvClients got = some s') :
    Polls s' ∧ (OneEach s' ↔ OneEach s ∧ InTurn s .recv) := by
  obtain ⟨r, hrecv, rfl⟩ := Option.map_eq_some_iff.mp hs
  obtain ⟨-, -, hstream⟩ := Router.recv_eq hrecv
  have havailable : s.workerQueue ≠ [] := h.available (by rw [hpc]; trivial)
  have hcompletes : s.completes = clientTurn (got ++ [r.1]) := by
    rw [completes, hpc, hstream]
  cases hturn : clientTurn (got ++ [r.1]) with
  | none =>
    refine h.congr (fun q hq => ?_) rfl rfl rfl fun _ => havailable
    rw [hcompletes, hturn] at hq
    cases hq
  | some request =>
    obtain ⟨w, hw⟩ := next_eq_some havailable
    have hinTurn : InTurn s .recv ↔ (s.workers w).Free := by
      refine ⟨fun hin => hin request (hcompletes.trans hturn) w hw, fun hfree q _ x hx => ?_⟩
      rw [hw] at hx
      cases hx
      exact hfree
    obtain ⟨hworkers, hforwarded⟩ :=
      forward_fields (s := { s with clientsSocket := r.2, pc := .poll }) (r := request) hw
    obtain ⟨hpc', -, -, -, hreceived, -⟩ :=
      forward_frame (s := { s with clientsSocket := r.2, pc := .poll }) request
    obtain ⟨hself, hother⟩ := sentTo_forward hforwarded
    rw [hinTurn]
    refine h.update hworkers (fun hreads => ?_) ?_ hother ?_
    · rw [hpc'] at hreads
      exact hreads.elim
    · rw [hforwarded, hreceived, List.map_append, h.forwarded]
      rfl
    · rw [hself]
      exact Worker.put_serves (h.holds w)

theorem step_oneEach (h : Polls s) {op : Op} (hs : s.step clients op = some s') :
    Polls s' ∧ (OneEach s' ↔ OneEach s ∧ InTurn s op) := by
  cases op with
  | request a m =>
    rw [step] at hs
    split at hs
    · cases hs
      exact h.congr trivial rfl rfl rfl h.available
    · cases hs
  | requestArrives a =>
    obtain ⟨socket, -, rfl⟩ := Option.map_eq_some_iff.mp hs
    exact h.congr trivial rfl rfl rfl h.available
  | workerArrives w =>
    obtain ⟨socket, -, rfl⟩ := Option.map_eq_some_iff.mp hs
    exact h.congr trivial rfl rfl rfl h.available
  | ready w =>
    rw [step] at hs
    split at hs
    · cases hs
    · cases hs
      refine h.update rfl h.available h.forwarded (fun _ _ => rfl) ?_
      exact Worker.serves_of_eq (h.holds w) rfl rfl
  | take w =>
    obtain ⟨worker, htake, rfl⟩ := Option.map_eq_some_iff.mp hs
    refine h.update rfl h.available h.forwarded (fun _ _ => rfl) ?_
    obtain ⟨ha, ho⟩ := Worker.take_fields htake
    exact Worker.serves_of_eq (h.holds w) ha ho
  | answer w body =>
    obtain ⟨r, hanswer, rfl⟩ := Option.map_eq_some_iff.mp hs
    refine h.update rfl h.available h.forwarded (fun _ _ => rfl) ?_
    obtain ⟨hholds, hserves⟩ := Worker.answer_serves (h.holds w) hanswer
    exact ⟨hholds, hserves.trans (and_iff_left trivial).symm⟩
  | poll =>
    rw [step] at hs
    split at hs
    · cases hs
      exact h.congr trivial rfl rfl rfl poll_available
    · cases hs
  | recv =>
    rw [step] at hs
    split at hs
    · cases hs
    · next got after hpc =>
      obtain ⟨hw, hf, hr, hqueue, hreads⟩ := recvWorkers_fields hs
      refine h.congr (fun r hr => ?_) hw hf hr fun hpc' hempty => ?_
      · rw [completes, hpc] at hr
        cases hr
      · refine h.available (by rw [hpc]; exact hreads hpc') ?_
        exact List.prefix_nil.mp (hempty ▸ hqueue)
    · next got hpc => exact recvClients_oneEach h hpc hs

/-! ## Runs -/

theorem polls_start : Polls start where
  available := False.elim
  forwarded := rfl
  holds := fun _ => List.Sublist.refl []

theorem oneEach_start : OneEach start where
  forwarded := rfl
  serves := fun _ => ⟨rfl, Nat.zero_le 1⟩

/-- **One request for each worker.** A run of the broker, its clients and its workers loses no
request and gives no worker a second one, if and only if the next worker in rotation is free
whenever a request is forwarded. -/
theorem one_each_iff {ops : List Op} (hr : exec clients ops = some s) :
    OneEach s ↔ Guarded (step clients) InTurn start ops :=
  run_iff_guarded (fun _ _ _ h hs => step_oneEach h hs) polls_start oneEach_start hr

/-- The client `_a` asks the worker `w0` twice, again after the first reply. -/
def inTurn : List Op :=
  greeted [119, 48] ++ asked [95, 97] ⟨1, 0, []⟩ 2 ++ answered [119, 48] [] 5 ++
    asked [95, 97] ⟨2, 0, []⟩ 2 ++ answered [119, 48] [] 5

theorem one_each_in_turn : ∃ s, exec (.single (.async [97] [])) inTurn = some s ∧
    (s.sentTo [119, 48]).length = 2 ∧ (s.workers [119, 48]).answered.length = 2 ∧ OneEach s := by
  obtain ⟨s, hs, hsent, hanswered⟩ : ∃ s, exec (.single (.async [97] [])) inTurn = some s ∧
      (s.sentTo [119, 48]).length = 2 ∧ (s.workers [119, 48]).answered.length = 2 :=
    ⟨_, rfl, rfl, rfl⟩
  exact ⟨s, hs, hsent, hanswered, (one_each_iff hs).mpr (by decide +kernel)⟩

/-- Two requests go to the only worker, and the second is dropped. -/
theorem second_request_dropped : ∃ s, exec (.single (.async [97] []))
    (greeted [119, 48] ++ asked [95, 97] ⟨1, 0, []⟩ 2 ++ asked [95, 97] ⟨2, 0, []⟩ 2 ++
      answered [119, 48] [] 5) = some s ∧
    (s.sentTo [119, 48]).length = 2 ∧ (s.workers [119, 48]).answered.length = 1 ∧
      (s.workers [119, 48]).outstanding = [] ∧ ¬ OneEach s := by
  refine ⟨_, rfl, rfl, rfl, rfl, fun h => ?_⟩
  exact absurd (congrArg List.length (h.serves [119, 48]).kept) (by decide)

end Broker

end TinyWorld.MyCache
