import TinyWorld.Rpc.Emitter

/-! # A call from end to end

What a holder packs goes to the dispatcher, and the dispatcher's reply to the
emitter the holder belongs to. -/
namespace TinyWorld.Rpc
open Lib.Run

variable {S : Schema}

/-! ## The four conversions -/

namespace RPCHolder

variable (x : RPCHolder S)

/-- The request as it is meant. -/
def meant : Request := ⟨x.id, S.name x.Req, S.name x.Rep, S.serialize x.request⟩

/-- A request that encodes to nothing is not packed; what is sent instead is
only right if everything in it is a default. -/
def Packable : Prop :=
  S.serialize x.request ≠ [] ∨ x.id = 0 ∧ S.name x.Req = [] ∧ S.name x.Rep = []

variable {x}

theorem pack_of_packable (h : x.Packable) : x.pack.2 = x.meant := by
  unfold pack
  split
  · rename_i he
    have he' : S.serialize x.request = [] := by simpa using he
    obtain ⟨hid, hreq, hrep⟩ := h.resolve_left fun h => h he'
    rw [meant, he', hid, hreq, hrep]
    rfl
  · rfl

theorem pack_of_not_packable (h : ¬ x.Packable) :
    x.pack.2 = .empty ∧ ¬ (x.id = 0 ∧ S.name x.Req = [] ∧ S.name x.Rep = []) := by
  obtain ⟨he, hd⟩ := not_or.mp h
  refine ⟨?_, hd⟩
  unfold pack
  rw [if_pos (by simpa using he)]

end RPCHolder

namespace RPCDispatcher

variable {d : RPCDispatcher S}

/-- A reply goes back under the id and the names of its request. -/
theorem requested_echo (d : RPCDispatcher S) (q : Request) :
    (d.requested q).id = q.id ∧ (d.requested q).request = q.request ∧
      (d.requested q).reply = q.reply := by
  unfold requested
  split
  · exact ⟨rfl, rfl, rfl⟩
  · unfold RPCCallback.requested
    split
    · split
      · split <;> exact ⟨rfl, rfl, rfl⟩
      · exact ⟨rfl, rfl, rfl⟩
    · exact ⟨rfl, rfl, rfl⟩

/-- What the server answers to a request as it is meant. -/
theorem requested_meant {x : RPCHolder S} {f : S.Val x.Req → S.Val x.Rep}
    (hreg : d.callbacks (S.name x.Req) = some ⟨x.Req, x.Rep, f⟩)
    (hcodec : S.deserialize x.Req (S.serialize x.request) = some x.request) :
    d.requested x.meant =
      if (S.serialize (f x.request)).isEmpty then makeReply x.meant [] .replyPackError
      else makeReply x.meant (S.serialize (f x.request)) .noError := by
  unfold requested RPCHolder.meant
  simp only [hreg, RPCCallback.requested, true_and, if_true, hcodec]

end RPCDispatcher

namespace RPCHolder

theorem runError_ne_done {x : RPCHolder S} {errcode : ErrorCode} {m : S.Msg} {v : S.Val m} :
    x.runError errcode ≠ some (.done m v) := by
  unfold runError
  split <;> simp

/-- **One call.** The reply reaches its holder and runs `done` with the
handler's value exactly when the two encodings are not empty. -/
theorem done_iff {x : RPCHolder S} {d : RPCDispatcher S} {f : S.Val x.Req → S.Val x.Rep}
    (hdone : x.cbDone = true) (hreg : d.callbacks (S.name x.Req) = some ⟨x.Req, x.Rep, f⟩)
    (hreq : S.deserialize x.Req (S.serialize x.request) = some x.request)
    (hrep : S.deserialize x.Rep (S.serialize (f x.request)) = some (f x.request)) :
    (d.requested x.pack.2).id = x.id ∧
        x.replied (d.requested x.pack.2) = some (.done x.Rep (f x.request)) ↔
      x.Packable ∧ S.serialize (f x.request) ≠ [] := by
  by_cases hp : x.Packable
  · rw [x.pack_of_packable hp, RPCDispatcher.requested_meant hreg hreq]
    by_cases he : S.serialize (f x.request) = []
    · rw [if_pos (by simpa using he)]
      refine ⟨fun h => ?_, fun h => absurd he h.2⟩
      have := h.2
      unfold replied at this
      rw [if_pos (by simp [makeReply])] at this
      exact absurd this runError_ne_done
    · rw [if_neg (by simpa using he)]
      refine ⟨fun _ => ⟨hp, he⟩, fun _ => ⟨rfl, ?_⟩⟩
      unfold replied
      simp [makeReply, meant, hrep, hdone]
  · obtain ⟨hpack, hdef⟩ := pack_of_not_packable hp
    rw [hpack]
    obtain ⟨hid, hq, hr⟩ := d.requested_echo .empty
    refine ⟨fun h => ?_, fun h => absurd h.1 hp⟩
    exfalso
    obtain ⟨h0, hrun⟩ := h
    unfold replied at hrun
    split at hrun
    · exact runError_ne_done hrun
    · split at hrun
      · exact runError_ne_done hrun
      · rename_i hn
        obtain ⟨hnq, hnr⟩ := not_or.mp hn
        rw [not_not] at hnq hnr
        exact hdef ⟨(h0.symm.trans hid), hnq.symm.trans hq, hnr.symm.trans hr⟩

end RPCHolder

/-! ## In the emitter -/

namespace RPCEmitter

variable {s s' : RPCEmitter S}

/-- The callbacks an outstanding holder has had once a reply has come. -/
theorem replied_filter (hb : Books s) {h : Nat} {x : RPCHolder S} (hx : s.made[h]? = some x)
    (ho : s.holders x.id = some h) (reply : Reply) :
    (s.replied reply).trace.filter (fun e => e.1 = h) =
      if reply.id = x.id then (x.replied reply).toList.map (h, ·) else [] := by
  have hold : s.trace.filter (fun e => e.1 = h) = [] := by
    apply List.filter_eq_nil_iff.mpr
    intro e he heq
    rw [decide_eq_true_eq] at heq
    exact (hb.owned _ h (.inl ho)).2 (List.mem_map.mpr ⟨e, he, heq⟩)
  unfold replied
  split
  · rename_i hnone
    rw [if_neg, hold]
    intro he
    rw [he, ho] at hnone
    cases hnone
  · rename_i g hg
    obtain ⟨⟨y, hy, hid⟩, -⟩ := hb.owned _ g (.inl hg)
    rw [hy]
    simp only [finish, List.filter_append, hold, List.append_nil]
    split
    · rename_i he
      rw [he, ho, Option.some.injEq] at hg
      subst hg
      rw [hx, Option.some.injEq] at hy
      subst hy
      apply List.filter_eq_self.mpr
      intro e hm
      obtain ⟨r, -, rfl⟩ := List.mem_map.mp hm
      simp
    · rename_i hne
      apply List.filter_eq_nil_iff.mpr
      intro e hm heq
      obtain ⟨r, -, rfl⟩ := List.mem_map.mp hm
      rw [decide_eq_true_eq] at heq
      simp only at heq
      subst heq
      rw [hx, Option.some.injEq] at hy
      subst hy
      exact hne hid.symm

/-- **End to end.** In every run, a call that is still outstanding when the
reply to it comes has had `done` with the handler's value, and nothing else,
exactly when neither the request nor that value encodes to nothing. -/
theorem call_done_iff {totalId : UInt64} {ops : List (Op S)}
    (hr : run step (init totalId) ops = some s) {h : Nat} {x : RPCHolder S}
    (hx : s.made[h]? = some x) (ho : s.holders x.id = some h) (hdone : x.cbDone = true)
    {d : RPCDispatcher S} {f : S.Val x.Req → S.Val x.Rep}
    (hreg : d.callbacks (S.name x.Req) = some ⟨x.Req, x.Rep, f⟩)
    (hcodec : ∀ m (v : S.Val m), S.deserialize m (S.serialize v) = some v)
    (hs : step s (.replied (d.requested x.pack.2)) = some s') :
    s'.trace.filter (fun e => e.1 = h) = [(h, .done x.Rep (f x.request))] ↔
      x.Packable ∧ S.serialize (f x.request) ≠ [] := by
  obtain rfl := Option.some.inj hs
  rw [replied_filter (run_books hr) hx ho,
    ← RPCHolder.done_iff hdone hreg (hcodec _ _) (hcodec _ _)]
  split
  · rename_i he
    cases hran : x.replied (d.requested x.pack.2) with
    | none => simp
    | some r => simp [he]
  · rename_i hne
    constructor
    · intro h
      cases h
    · exact fun h => absurd h.1 hne

/-- A server with one handler. -/
def served (f : Bytes → Bytes) : RPCDispatcher plain := RPCDispatcher.empty.on ⟨(), (), f⟩

/-- The client after one call, which has only a `done` callback. -/
def called (request : Bytes) : RPCEmitter plain :=
  ((init 0).emit () () request 0).modify 0 fun x => { x with cbDone := true }

def outgoing (request : Bytes) : RPCHolder plain := ⟨(), (), 1, 0, 0, request, true, false, false⟩

theorem called_run (request : Bytes) :
    run step (init 0 : RPCEmitter plain) [.emit () () request 0, .done 0 true] =
      some (called request) := rfl

theorem call_done_iff_echo :
    ((called [1]).replied ((served id).requested (outgoing [1]).pack.2)).trace.filter
        (fun e => e.1 = 0) = [(0, .done () [1])] ↔
      (outgoing [1]).Packable ∧ plain.serialize (m := ()) [1] ≠ [] :=
  call_done_iff (called_run [1]) (x := outgoing [1]) rfl rfl rfl (f := id) rfl (fun _ _ => rfl) rfl

/-- The empty request never arrives, and the empty reply comes as an error. -/
theorem empty_call_lost :
    ((called []).replied ((served id).requested (outgoing []).pack.2)).trace = [] ∧
      ((called [1]).replied ((served fun _ => []).requested (outgoing [1]).pack.2)).trace = [] :=
  ⟨rfl, rfl⟩

end RPCEmitter

end TinyWorld.Rpc
