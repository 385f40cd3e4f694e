import Mathlib.Data.List.ReduceOption
import TinyWorld.Callback.Log
import TinyWorld.Callback.Steps
import TinyWorld.Callback.Submit

/-! # Composites without timeouts

Whatever replies reach the scheduler, it writes the log of the composite. -/
namespace TinyWorld.Callback
open Lib.Run

variable {c : Composite} {p : Nat} {ids done rem : List Nat}

variable {s s' : AsyncRPCScheduler} {objects : List AsyncRPC}

/-- The composite `p` and its children `objects`, none of which can time out or reply early. -/
structure Family (c : Composite) (p : Nat) (ids : List Nat) (objects : List AsyncRPC)
    (s : AsyncRPCScheduler) : Prop where
  composite : (s.rpcs p).kind = .composite c
  root : (s.rpcs p).parent = none
  untimed : (s.rpcs p).timeoutms = AsyncRPC.never
  children : ids.map s.rpcs = objects
  leaf : ∀ o ∈ objects, o.kind = .leaf false ∧ o.timeoutms = AsyncRPC.never ∧ o.parent = some p

namespace Family

variable {i : Nat}

theorem child (h : Family c p ids objects s) (hi : i ∈ ids) : (s.rpcs i).kind = .leaf false ∧
    (s.rpcs i).timeoutms = AsyncRPC.never ∧ (s.rpcs i).parent = some p :=
  h.leaf _ (h.children ▸ List.mem_map_of_mem hi)

theorem congr (h : Family c p ids objects s) (hrpcs : s'.rpcs = s.rpcs) :
    Family c p ids objects s' := by
  obtain ⟨h1, h2, h3, h4, h5⟩ := h
  exact ⟨by rw [hrpcs, h1], by rw [hrpcs, h2], by rw [hrpcs, h3], by rw [hrpcs, h4], h5⟩

theorem record (h : Family c p ids objects s) (e : Event) : Family c p ids objects (s.record e) :=
  h.congr rfl

theorem storeChildren (h : Family c p ids objects s) (hp : p ∉ ids) (cs : List Nat) :
    Family c p ids objects (s.storeChildren p cs) := by
  obtain ⟨h1, h2, h3, h4, h5⟩ := h
  refine ⟨?_, ?_, ?_, ?_, h5⟩
  · rwa [s.storeChildren_self]
  · rwa [s.storeChildren_self]
  · rwa [s.storeChildren_self]
  · rw [← h4]
    exact List.map_congr_left fun i hi => s.storeChildren_ne cs fun hip => hp (hip ▸ hi)

end Family

/-- The composite is in the ready queue. -/
structure Queued (c : Composite) (p : Nat) (ids : List Nat) (objects : List AsyncRPC)
    (s : AsyncRPCScheduler) : Prop where
  family : Family c p ids objects s
  remaining : (s.rpcs p).children = ids
  queueReady : s.queueReady = [p]
  queueWait : s.queueWait = ∅
  waitByTime : s.waitByTime = []
  trace : s.trace = []

/-- The composite has been requested. -/
structure Active (c : Composite) (p : Nat) (ids : List Nat) (objects : List AsyncRPC)
    (done rem : List Nat) (s : AsyncRPCScheduler) : Prop where
  family : Family c p ids objects s
  split : Split c p ids done rem
  remaining : (s.rpcs p).children = rem
  queueReady : s.queueReady = []
  queueWait : ∀ x, x ∈ s.queueWait ↔ rem ≠ [] ∧ (x = p ∨ x ∈ c.pending rem)
  waitByTime : s.waitByTime = []
  trace : s.trace.reverse = c.log p ids done rem

theorem register_waitByTime {t : Nat} (ht : (s.rpcs t).timeoutms = AsyncRPC.never) :
    (register s t).waitByTime = s.waitByTime := if_pos ht

/-- Several requests. -/
theorem registerAll (s : AsyncRPCScheduler) (ts : List Nat)
    (hts : ∀ t ∈ ts, (s.rpcs t).timeoutms = AsyncRPC.never) :
    (ts.foldl register s).rpcs = s.rpcs ∧ (ts.foldl register s).queueReady = s.queueReady ∧
      (∀ x, x ∈ (ts.foldl register s).queueWait ↔ x ∈ ts ∨ x ∈ s.queueWait) ∧
      (ts.foldl register s).waitByTime = s.waitByTime ∧
      (ts.foldl register s).trace.reverse = s.trace.reverse ++ ts.map .request := by
  induction ts generalizing s with
  | nil => simp
  | cons t ts ih =>
    obtain ⟨h1, h2, h3, h4, h5⟩ := ih (register s t) fun x hx => hts x (List.mem_cons_of_mem _ hx)
    refine ⟨h1, h2, fun x => ?_, h4.trans (register_waitByTime (hts t (by simp))), h5.trans ?_⟩
    · rw [List.foldl_cons, h3, mem_register, List.mem_cons]
      tauto
    · simp [register]

/-- The requests with which a composite starts. -/
theorem Family.request {d : Nat} (hf : Family c p ids objects s) (hne : ids ≠ [])
    (hc : (s.rpcs p).children = ids) :
    triggerRequest (reentry (d + 1)) s p =
      some ((c.pending ids).foldl register (register s p)) := by
  rw [triggerRequest_eq, hf.composite]
  cases c with
  | serials =>
    cases ids with
    | nil => exact absurd rfl hne
    | cons i is =>
      have hi : ((register s p).rpcs i).kind = .leaf false := (hf.child List.mem_cons_self).1
      change SerialsCallBack.request _ _ _ = _
      rw [SerialsCallBack.request,
        SerialsCallBack.triggerFirstRequest_cons (s := register s p) _ hc,
        reentry_triggerRequest, triggerRequest_eq, hi]
      rfl
  | parallel =>
    change (((register s p).rpcs p).children.foldlM _ _) = _
    rw [show ((register s p).rpcs p).children = ids from hc]
    exact requestChildren_eq (s := register s p) (mem_register.mpr (.inl rfl))
      fun i hi => ⟨hc ▸ hi, (hf.child hi).1⟩

/-- What a reply does to the composite. -/
theorem Active.childCalled {d i : Nat} (h : Active c p ids objects done rem s)
    (hi : i ∈ c.pending rem) {s₁ : AsyncRPCScheduler}
    (hs₁ : s₁ = (s.record (.called i)).storeChildren p (rem.erase i)) :
    Callback.childCalled (reentry (d + 1)) (s.record (.called i)) p i =
      some (if rem.erase i = [] then settle s₁ p
        else (c.upcoming (rem.erase i)).foldl register s₁) := by
  have hp : p ∈ s.queueWait :=
    (h.queueWait p).mpr ⟨List.ne_nil_of_mem (Split.pending_sub c hi), .inl rfl⟩
  have hp₁ : p ∈ s₁.queueWait := hs₁ ▸ hp
  have hkind : ((s.record (.called i)).rpcs p).kind = .composite c := h.family.composite
  have hrem : ((s.record (.called i)).rpcs p).children = rem := h.remaining
  have hf₁ : Family c p ids objects s₁ :=
    hs₁ ▸ (h.family.record (.called i)).storeChildren h.split.parent _
  have hrem₁ : (s₁.rpcs p).children = rem.erase i := by
    rw [hs₁, AsyncRPCScheduler.storeChildren_self]
  rw [Callback.childCalled, hkind]
  cases c with
  | serials =>
    cases rem with
    | nil => cases hi
    | cons x xs =>
      obtain rfl := List.mem_singleton.mp hi
      rw [List.erase_cons_head] at hrem₁ hs₁ ⊢
      refine (SerialsCallBack.childCalled_first (s := s.record (.called i)) _ hrem).trans ?_
      rw [← hs₁]
      cases xs with
      | nil => exact SerialsCallBack.advance_nil hp₁ hf₁.root hrem₁
      | cons y ys =>
        have hy : y ∈ ids := h.split.mem_rem (by simp)
        exact SerialsCallBack.advance_later hp₁ hrem₁ (hf₁.child hy).1
  | parallel =>
    change ParallelCallBack.childCalled _ _ _ _ = _
    rw [ParallelCallBack.childCalled_eq, hrem, ← hs₁]
    split
    · exact (reentry_triggerCall d hp₁).trans (triggerCall_root _ hf₁.root)
    · rfl

theorem Active.parent_waits (h : Active c p ids objects done rem s) (hne : rem ≠ []) :
    p ∈ s.queueWait := (h.queueWait p).mpr ⟨hne, .inl rfl⟩

section Reply

variable {i : Nat} {s₁ : AsyncRPCScheduler}

theorem Active.triggerCall (h : Active c p ids objects done rem s) (hi : i ∈ c.pending rem)
    (hs₁ : s₁ = (s.record (.called i)).storeChildren p (rem.erase i)) :
    s.triggerCall i = some ((if rem.erase i = [] then settle s₁ p
      else (c.upcoming (rem.erase i)).foldl register s₁).unwait i) := by
  have hne : rem ≠ [] := List.ne_nil_of_mem (Split.pending_sub c hi)
  have hir := h.split.mem_rem (Split.pending_sub c hi)
  rw [AsyncRPCScheduler.triggerCall, show s.depth = 2 * s.total + 2 + 1 + 1 from rfl,
    reentry_triggerCall _ ((h.queueWait i).mpr ⟨hne, .inr hi⟩),
    triggerCall_child _ (h.family.child hir).2.2 (.inl (h.parent_waits hne)),
    h.childCalled hi hs₁, Option.map_some]

/-- The composite and its last child were the only ones to wait. -/
theorem Active.waits_last (h : Active c p ids objects done rem s) (hi : i ∈ c.pending rem)
    (hlast : rem.erase i = []) {x : Nat} (hx : x ∈ s.queueWait) : x = p ∨ x = i := by
  by_contra hno
  rw [not_or] at hno
  have hpending := ((h.queueWait x).mp hx).2.resolve_left hno.1
  have hmem := (h.split.mem_pending_reply hi x).mpr ⟨hno.2, .inr hpending⟩
  rw [hlast] at hmem
  exact absurd (Split.pending_sub c hmem) List.not_mem_nil

theorem Active.last (h : Active c p ids objects done rem s) (hi : i ∈ c.pending rem)
    (hlast : rem.erase i = [])
    (hs₁ : s₁ = (s.record (.called i)).storeChildren p (rem.erase i)) :
    Active c p ids objects (done ++ [i]) (rem.erase i) ((settle s₁ p).unwait i) := by
  subst hs₁
  have hf₁ := (h.family.record (.called i)).storeChildren h.split.parent (rem.erase i)
  refine ⟨hf₁.congr rfl, h.split.reply hi, ?_, h.queueReady, fun x => ?_, h.waitByTime, ?_⟩
  · exact congrArg AsyncRPC.children (AsyncRPCScheduler.storeChildren_self ..)
  · refine ⟨fun hw => ?_, fun hw => absurd hlast hw.1⟩
    obtain ⟨hxi, hw⟩ := Finset.mem_erase.mp hw
    obtain ⟨hxp, hw⟩ := Finset.mem_erase.mp hw
    exact absurd (h.waits_last hi hlast hw) (by simp [hxi, hxp])
  · rw [h.split.log_reply hi, hlast, Composite.next_nil, ← h.trace]
    change (Event.called p :: Event.called i :: s.trace).reverse = _
    rw [List.reverse_cons, List.reverse_cons, List.append_assoc]
    rfl

/-- What comes next is requested. -/
theorem Active.more (h : Active c p ids objects done rem s) (hi : i ∈ c.pending rem)
    (hlast : rem.erase i ≠ [])
    (hs₁ : s₁ = (s.record (.called i)).storeChildren p (rem.erase i)) :
    Active c p ids objects (done ++ [i]) (rem.erase i)
      (((c.upcoming (rem.erase i)).foldl register s₁).unwait i) := by
  have hne : rem ≠ [] := List.ne_nil_of_mem (Split.pending_sub c hi)
  have hip : p ≠ i := fun hip =>
    h.split.parent (hip ▸ h.split.mem_rem (Split.pending_sub c hi))
  have hsplit := h.split.reply hi
  have hf₁ : Family c p ids objects s₁ :=
    hs₁ ▸ (h.family.record (.called i)).storeChildren h.split.parent _
  have hup : ∀ t ∈ c.upcoming (rem.erase i), (s₁.rpcs t).timeoutms = AsyncRPC.never := by
    intro t ht
    have htr : t ∈ rem.erase i := by
      cases c with
      | serials => exact List.mem_of_mem_take ht
      | parallel => cases ht
    exact (hf₁.child (hsplit.mem_rem htr)).2.1
  obtain ⟨hrpcs, hready, hwait, htime, htrace⟩ := registerAll s₁ (c.upcoming (rem.erase i)) hup
  subst hs₁
  refine ⟨hf₁.congr hrpcs, hsplit, ?_, hready.trans h.queueReady, fun x => ?_,
    htime.trans h.waitByTime, ?_⟩
  · change (((c.upcoming (rem.erase i)).foldl register _).rpcs p).children = _
    rw [hrpcs, AsyncRPCScheduler.storeChildren_self]
  · have hw : x ∈ ((s.record (.called i)).storeChildren p (rem.erase i)).queueWait ↔
        x = p ∨ x ∈ c.pending rem := (h.queueWait x).trans (and_iff_right hne)
    refine Finset.mem_erase.trans ?_
    rw [hwait, hw, h.split.mem_pending_reply hi, and_iff_right hlast]
    by_cases hxp : x = p
    · simp [hxp, hip]
    · simp [hxp]
  · rw [h.split.log_reply hi, Composite.next_eq c hlast, ← h.trace]
    refine htrace.trans ?_
    change (Event.called i :: s.trace).reverse ++ _ = _
    rw [List.reverse_cons, List.append_assoc]
    rfl

/-- A pending child replies. -/
theorem Active.reply (h : Active c p ids objects done rem s) (hi : i ∈ c.pending rem) :
    ∃ s', s.triggerCall i = some s' ∧ Active c p ids objects (done ++ [i]) (rem.erase i) s' := by
  refine ⟨_, h.triggerCall hi rfl, ?_⟩
  by_cases hlast : rem.erase i = []
  · rw [if_pos hlast]
    exact h.last hi hlast rfl
  · rw [if_neg hlast]
    exact h.more hi hlast rfl

end Reply

/-! ## Steps and runs -/

theorem AsyncRPCScheduler.run_untimed {now : Nat → Int} (ht : s.waitByTime = []) :
    s.run now = (s.queueReady.foldlM (reentry s.depth).triggerRequest s).map
      fun s => { s with queueReady := [] } := by
  have hs : { s with waitByTime := [] } = s :=
    congrArg (fun w => { s with waitByTime := w }) ht.symm
  simp only [run, ht, checkTimeout, Option.bind_eq_bind, Option.bind_some]
  rw [hs]
  cases s.queueReady.foldlM (reentry s.depth).triggerRequest s <;> rfl

theorem Queued.run (h : Queued c p ids objects s) (now : Nat → Int) (hne : ids ≠ [])
    (hn : ids.Nodup) (hp : p ∉ ids) :
    ∃ s', s.run now = some s' ∧ Active c p ids objects [] ids s' := by
  have hpending : ∀ t ∈ c.pending ids, ((register s p).rpcs t).timeoutms = AsyncRPC.never :=
    fun t ht => (h.family.child (Split.pending_sub c ht)).2.1
  obtain ⟨h1, h2, h3, h4, h5⟩ := registerAll (register s p) (c.pending ids) hpending
  refine ⟨{ (c.pending ids).foldl register (register s p) with queueReady := [] }, ?_,
    h.family.congr h1, ⟨hn, hp, by simp, by simp⟩, ?_, rfl, fun x => ?_, ?_, ?_⟩
  · rw [AsyncRPCScheduler.run_untimed h.waitByTime, h.queueReady, List.foldlM_cons,
      show s.depth = 2 * s.total + 2 + 1 + 1 from rfl, reentry_triggerRequest,
      h.family.request hne h.remaining]
    rfl
  · exact (congrArg AsyncRPC.children (congrFun h1 p)).trans h.remaining
  · refine (h3 x).trans ?_
    rw [mem_register, h.queueWait]
    simp [hne, or_comm]
  · exact h4.trans ((register_waitByTime h.family.untimed).trans h.waitByTime)
  · rw [Composite.log_start c hne]
    refine h5.trans ?_
    simp [register, h.trace]

theorem Active.run (h : Active c p ids objects done rem s) (now : Nat → Int) :
    ∃ s', s.run now = some s' ∧ Active c p ids objects done rem s' := by
  rw [AsyncRPCScheduler.run_untimed h.waitByTime, h.queueReady]
  exact ⟨_, rfl, h.family.congr rfl, h.split, h.remaining, rfl, h.queueWait, h.waitByTime, h.trace⟩

theorem AsyncRPCScheduler.triggerCall_unknown {id : Nat} (hid : id ∉ s.queueWait) :
    s.triggerCall id = some s := reentry_triggerCall_unknown _ hid

/-- What may happen while the composite is at work. -/
def Outside (p : Nat) : Op → Prop
  | .construct => True
  | .run _ => True
  | .triggerCall id => id ≠ p
  | _ => False

theorem Active.step {op : Op} (h : Active c p ids objects done rem s) (hop : Outside p op) :
    ∃ s' done' rem', step s op = some s' ∧ Active c p ids objects done' rem' s' := by
  cases op with
  | construct =>
    exact ⟨_, done, rem, rfl, h.family.congr rfl, h.split, h.remaining, h.queueReady, h.queueWait,
      h.waitByTime, h.trace⟩
  | run now =>
    obtain ⟨s', hs', h'⟩ := h.run now
    exact ⟨s', done, rem, hs', h'⟩
  | triggerCall id =>
    by_cases hid : id ∈ s.queueWait
    · obtain ⟨s', hs', h'⟩ := h.reply (((h.queueWait id).mp hid).2.resolve_left hop)
      exact ⟨s', _, _, hs', h'⟩
    · exact ⟨s, done, rem, AsyncRPCScheduler.triggerCall_unknown hid, h⟩
  | _ => exact hop.elim

theorem Active.runs {ops : List Op} (h : Active c p ids objects done rem s)
    (hops : ∀ op ∈ ops, Outside p op) :
    ∃ s' done' rem', Lib.Run.run Callback.step s ops = some s' ∧
    Active c p ids objects done' rem' s' := by
  obtain ⟨s', hs', done', rem', h'⟩ := run_invariant
    (I := fun s => ∃ done rem, Active c p ids objects done rem s)
    (fun s op ⟨done, rem, h⟩ hop => by
      obtain ⟨s', done', rem', hs', h'⟩ := h.step hop
      exact ⟨s', hs', done', rem', h'⟩)
    ⟨done, rem, h⟩ (.of_forall fun op hop _ => hops op hop)
  exact ⟨s', done', rem', hs', h'⟩

/-- From the ready queue on, with or without a tick. -/
theorem Queued.runs {ops : List Op} (h : Queued c p ids objects s) (hne : ids ≠ []) (hn : ids.Nodup)
    (hp : p ∉ ids) (hops : ∀ op ∈ ops, Outside p op) :
    ∃ s', Lib.Run.run step s ops = some s' ∧
      ((∃ done rem, Active c p ids objects done rem s') ∨
        Queued c p ids objects s' ∧ ∀ now, .run now ∉ ops) := by
  induction ops generalizing s with
  | nil => exact ⟨s, rfl, .inr ⟨h, by simp⟩⟩
  | cons op ops ih =>
    have hops' : ∀ op ∈ ops, Outside p op := fun x hx => hops x (List.mem_cons_of_mem _ hx)
    have hop := hops op List.mem_cons_self
    cases op with
    | construct =>
      obtain ⟨s', hs', h'⟩ := ih (s := s.construct) ⟨h.family.congr rfl, h.remaining, h.queueReady,
        h.queueWait, h.waitByTime, h.trace⟩ hops'
      exact ⟨s', hs', h'.imp_right fun ⟨hq, hno⟩ => ⟨hq, by simpa using hno⟩⟩
    | run now =>
      obtain ⟨s₁, hs₁, h₁⟩ := h.run now hne hn hp
      obtain ⟨s', done, rem, hs', h'⟩ := h₁.runs hops'
      refine ⟨s', ?_, .inl ⟨done, rem, h'⟩⟩
      rw [run_cons, show step s (.run now) = some s₁ from hs₁]
      exact hs'
    | triggerCall id =>
      have hid : step s (.triggerCall id) = some s :=
        AsyncRPCScheduler.triggerCall_unknown (by simp [h.queueWait])
      obtain ⟨s', hs', h'⟩ := ih h hops'
      refine ⟨s', ?_, h'.imp_right fun ⟨hq, hno⟩ => ⟨hq, by simpa using hno⟩⟩
      rw [run_cons, hid]
      exact hs'
    | _ => exact hop.elim

/-- What is asked of composites, in one state. -/
structure Composed (c : Composite) (p : Nat) (ids : List Nat) (s : AsyncRPCScheduler) : Prop where
  order : c = .serials → s.trace.reverse <+:
    .request p :: ids.flatMap (fun i => [.request i, .called i]) ++ [.called p]
  requested_once : ∀ i ∈ ids, s.trace.count (.request i) ≤ 1
  called_once : ∀ i ∈ ids, s.trace.count (.called i) ≤ 1
  requested : ∀ j i, ids[j]? = some i → .request p ∈ s.trace →
    (c = .serials → ∀ x ∈ ids.take j, .called x ∈ s.trace) → .request i ∈ s.trace
  taken : ∀ i ∈ ids, .request i ∈ s.trace → ∃ s', s.triggerCall i = some s' ∧ .called i ∈ s'.trace
  complete : s.trace.count (.called p) = if ∀ i ∈ ids, .called i ∈ s.trace then 1 else 0

/-- `setChildren` stores the RPCs of the array, null pointers left out, under ascending ids. -/
theorem setChildren_eq (rpcs : List (Option Leaf)) (hp : p ≤ s.total)
    (hc : ∀ x ∈ (s.rpcs p).children, x ≤ s.total)
    (hs' : s' = AsyncRPCScheduler.setChildren p s rpcs) :
    s'.rpcs p = { s.rpcs p with
        children := (s.rpcs p).children ++ List.range' (s.total + 1) rpcs.reduceOption.length } ∧
      (List.range' (s.total + 1) rpcs.reduceOption.length).map s'.rpcs =
        rpcs.reduceOption.map (fun rpc => rpc.object rpc.timeoutms (some p)) ∧
      (∀ t ≤ s.total, t ≠ p → s'.rpcs t = s.rpcs t) ∧ s'.queueReady = s.queueReady ∧
      s'.queueWait = s.queueWait ∧ s'.waitByTime = s.waitByTime ∧ s'.trace = s.trace := by
  subst hs'
  induction rpcs generalizing s with
  | nil => simp [AsyncRPCScheduler.setChildren]
  | cons rpc rpcs ih =>
    cases rpc with
    | none =>
      rw [List.reduceOption_cons_of_none]
      exact ih hp hc
    | some rpc =>
      have ha := adopts_addChild hp rpc
      have hp₁ : (addChild p s rpc).rpcs p =
          { s.rpcs p with children := (s.rpcs p).children ++ [s.total + 1] } := by
        rw [ha.parent, Lib.Ordered.insertKey_last fun x hx => Nat.lt_succ_of_le (hc x hx)]
      have hsub : ∀ x ∈ ((addChild p s rpc).rpcs p).children, x ≤ (addChild p s rpc).total := by
        intro x hx
        rw [hp₁] at hx
        obtain hx | hx := List.mem_append.mp hx
        · exact Nat.le_succ_of_le (hc x hx)
        · exact Nat.le_of_eq (List.mem_singleton.mp hx)
      obtain ⟨h1, h2, h3, h4, h5, h6, h7⟩ := ih (s := addChild p s rpc) (Nat.le_succ_of_le hp) hsub
      rw [ha.total] at h1 h2 h3
      rw [setChildren_some, List.reduceOption_cons_of_some, List.length_cons, List.range'_succ,
        List.map_cons, List.map_cons, h1, hp₁, h2, h3 _ (Nat.le_refl _) ha.ne.symm, ha.child]
      exact ⟨by simp, rfl, fun t ht htp => (h3 t (Nat.le_succ_of_le ht) htp).trans
        (ha.other t (by omega) htp), h4.trans ha.queueReady, h5.trans ha.queueWait,
        h6.trans ha.waitByTime, h7.trans ha.trace⟩

/-- Before the call nothing but constructors has had an effect. -/
structure Quiet (s : AsyncRPCScheduler) : Prop where
  made : ∀ t ∈ s.made, t ≤ s.total
  queueReady : s.queueReady = []
  queueWait : s.queueWait = ∅
  waitByTime : s.waitByTime = []
  trace : s.trace = []

theorem Quiet.new : Quiet .new := ⟨by simp [AsyncRPCScheduler.new], rfl, rfl, rfl, rfl⟩

theorem Quiet.step {op : Op} (h : Quiet s) (hop : Outside p op) :
    ∃ s', step s op = some s' ∧ Quiet s' := by
  cases op with
  | construct =>
    refine ⟨_, rfl, fun t ht => ?_, h.queueReady, h.queueWait, h.waitByTime, h.trace⟩
    rcases Finset.mem_insert.mp ht with rfl | ht
    · exact Nat.le_refl _
    · exact Nat.le_succ_of_le (h.made t ht)
  | run now =>
    refine ⟨_, AsyncRPCScheduler.run_untimed h.waitByTime |>.trans (by rw [h.queueReady]; rfl), ?_⟩
    exact ⟨h.made, rfl, h.queueWait, h.waitByTime, h.trace⟩
  | triggerCall id => exact ⟨s, AsyncRPCScheduler.triggerCall_unknown (by simp [h.queueWait]), h⟩
  | _ => exact hop.elim

/-- `callBySerials` or `callByParallel`. -/
def Composite.callOp (p : Nat) (rpc : Parent) (rpcs : List (Option Leaf)) (timeoutms : Int32) :
    Composite → Op
  | .serials => .callBySerials p rpc rpcs timeoutms
  | .parallel => .callByParallel p rpc rpcs timeoutms

/-- Neither the object nor the caller sets a timeout. -/
def Untimed (rpc : Parent) (rpcs : List (Option Leaf)) (timeoutms : Int32) : Prop :=
  rpc.timeoutms = AsyncRPC.never ∧ ¬ 0 < timeoutms ∧
    ∀ leaf, some leaf ∈ rpcs → leaf.timeoutms = AsyncRPC.never

/-- All children reply after their requests. -/
def Later (rpcs : List (Option Leaf)) : Prop := ∀ leaf, some leaf ∈ rpcs → leaf.selfReply = false

theorem Quiet.call {rpc : Parent} {rpcs : List (Option Leaf)} {timeoutms : Int32} (h : Quiet s)
    (hp : p ∈ s.made) (htime : Untimed rpc rpcs timeoutms) (hlater : Later rpcs) :
    ∃ s', Callback.step s (c.callOp p rpc rpcs timeoutms) = some s' ∧
      Queued c p (List.range' (s.total + 1) rpcs.reduceOption.length)
        (rpcs.reduceOption.map fun rpc => rpc.object rpc.timeoutms (some p)) s' := by
  obtain ⟨hnever, harg, hleaves⟩ := htime
  have hle := h.made p hp
  set s₁ := { s with made := s.made.erase p }.store p
    (rpc.object c (AsyncRPCScheduler.timeoutArg timeoutms rpc.timeoutms)) with hs₁
  have hself : s₁.rpcs p = rpc.object c AsyncRPC.never := by
    rw [hs₁, AsyncRPCScheduler.store_self, AsyncRPCScheduler.timeoutArg, if_neg harg, hnever]
  obtain ⟨h1, h2, -, h4, h5, h6, h7⟩ := setChildren_eq (s := s₁) rpcs hle
    (by rw [hself]; exact fun x hx => absurd hx List.not_mem_nil) rfl
  rw [hself] at h1
  have hstep : Callback.step s (c.callOp p rpc rpcs timeoutms) =
      some ((AsyncRPCScheduler.setChildren p s₁ rpcs).handOver p) := by
    have hcall : AsyncRPCScheduler.callByComposite c s p rpc rpcs timeoutms =
      (AsyncRPCScheduler.setChildren p s₁ rpcs).handOver p := if_pos hp
    rw [← hcall]
    cases c <;> rfl
  refine ⟨_, hstep, ⟨?_, ?_, ?_, h2, fun o ho => ?_⟩, ?_, ?_, h5.trans h.queueWait,
    h6.trans h.waitByTime, h7.trans h.trace⟩
  · exact congrArg AsyncRPC.kind h1
  · exact congrArg AsyncRPC.parent h1
  · exact congrArg AsyncRPC.timeoutms h1
  · obtain ⟨leaf, hleaf, rfl⟩ := List.mem_map.mp ho
    have hmem := List.reduceOption_mem_iff.mp hleaf
    exact ⟨congrArg Kind.leaf (hlater leaf hmem), hleaves leaf hmem, rfl⟩
  · exact (congrArg AsyncRPC.children h1).trans (List.nil_append _)
  · have hready : (AsyncRPCScheduler.setChildren p s₁ rpcs).queueReady = [] := h4.trans h.queueReady
    rw [AsyncRPCScheduler.handOver, hready]
    rfl

end TinyWorld.Callback
