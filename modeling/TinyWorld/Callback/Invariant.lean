import TinyWorld.Callback.Scheduler

/-! # What the maps say about outcomes

The waiting queue, the ready queue and the children maps each say which RPCs
may still be called, time out or be canceled. `Forest` is about the objects,
`Sound` about the queues and the outcomes so far. -/
namespace TinyWorld.Callback

variable {s s' : AsyncRPCScheduler}

/-! ## Objects -/

/-- `pend` are the RPCs of the ready queue that are not requested yet. -/
structure Forest (pend : List Nat) (s : AsyncRPCScheduler) : Prop where
  child : ∀ p c, c ∈ (s.rpcs p).children → (s.rpcs c).parent = some p
  nodup : ∀ p, (s.rpcs p).children.Nodup
  leaf : ∀ t, (s.rpcs t).kind.isLeaf → (s.rpcs t).children = []
  parent : ∀ c p, (s.rpcs c).parent = some p →
    (s.rpcs c).kind.isLeaf ∧ (s.rpcs p).kind.isLeaf = false
  made : ∀ t ∈ s.made, t ≤ s.total
  blank : ∀ t, t ∈ s.made ∨ s.total < t → s.rpcs t = .blank ∧ ∀ c, (s.rpcs c).parent ≠ some t
  pend_nodup : pend.Nodup
  pend_root : ∀ t ∈ pend, (s.rpcs t).parent = none ∧ t ∉ s.made ∧ t ≤ s.total

theorem Forest.new : Forest [] .new := by
  constructor <;> simp [AsyncRPCScheduler.new, AsyncRPC.blank]

namespace Forest

variable {pend : List Nat}

theorem ne_parent (h : Forest pend s) {c p : Nat} (hp : (s.rpcs c).parent = some p) : c ≠ p := by
  rintro rfl
  obtain ⟨h1, h2⟩ := h.parent _ _ hp
  rw [h1] at h2
  cases h2

theorem root (h : Forest pend s) {p : Nat} (hk : (s.rpcs p).kind.isLeaf = false) :
    (s.rpcs p).parent = none := by
  cases hp : (s.rpcs p).parent with
  | none => rfl
  | some q => rw [(h.parent _ _ hp).1] at hk; cases hk

theorem child_le (h : Forest pend s) {p c : Nat} (hc : c ∈ (s.rpcs p).children) : c ≤ s.total := by
  by_contra hlt
  have hb := (h.blank c (.inr (by omega))).1
  have hp := h.child p c hc
  rw [hb] at hp
  cases hp

/-- There are no more children than ids. -/
theorem length_children (h : Forest pend s) (p : Nat) :
    (s.rpcs p).children.length ≤ s.total + 1 := by
  have hsub : (s.rpcs p).children ⊆ List.range (s.total + 1) := fun c hc =>
    List.mem_range.mpr (Nat.lt_succ_of_le (h.child_le hc))
  have hlen := ((h.nodup p).subperm hsub).length_le
  rwa [List.length_range] at hlen

/-- A leaf has no children, in whatever map. -/
theorem ne_leaf (h : Forest pend s) {t : Nat} (ht : (s.rpcs t).kind.isLeaf) (c : Nat) :
    (s.rpcs c).parent ≠ some t := fun hp => by
  rw [(h.parent c t hp).2] at ht
  cases ht

theorem tail (h : Forest pend s) : Forest pend.tail s :=
  { h with
    pend_nodup := h.pend_nodup.tail
    pend_root := fun t ht => h.pend_root t (List.mem_of_mem_tail ht) }

end Forest

/-- What calls, replies and ticks leave as it is: only children maps shrink, and only the timeouts
of composites change. -/
structure Keeps (s s' : AsyncRPCScheduler) : Prop where
  total : s'.total = s.total
  made : s'.made = s.made
  queueReady : s'.queueReady = s.queueReady
  kind : ∀ t, (s'.rpcs t).kind = (s.rpcs t).kind
  parent : ∀ t, (s'.rpcs t).parent = (s.rpcs t).parent
  createtime : ∀ t, (s'.rpcs t).createtime = (s.rpcs t).createtime
  leaf : ∀ t, (s.rpcs t).kind.isLeaf → (s'.rpcs t) = s.rpcs t
  children : ∀ t, (s'.rpcs t).children.Sublist (s.rpcs t).children

namespace Keeps

theorem of_rpcs (ht : s'.total = s.total) (hm : s'.made = s.made)
    (hq : s'.queueReady = s.queueReady) (h : s'.rpcs = s.rpcs) : Keeps s s' := by
  refine ⟨ht, hm, hq, ?_, ?_, ?_, ?_, ?_⟩ <;> simp [h]

theorem refl (s : AsyncRPCScheduler) : Keeps s s := of_rpcs rfl rfl rfl rfl

theorem trans {s₁ : AsyncRPCScheduler} (h : Keeps s s₁) (h' : Keeps s₁ s') : Keeps s s' where
  total := h'.total.trans h.total
  made := h'.made.trans h.made
  queueReady := h'.queueReady.trans h.queueReady
  kind t := (h'.kind t).trans (h.kind t)
  parent t := (h'.parent t).trans (h.parent t)
  createtime t := (h'.createtime t).trans (h.createtime t)
  leaf t hk := (h'.leaf t (by rwa [h.kind])).trans (h.leaf t hk)
  children t := (h'.children t).trans (h.children t)

/-- One composite gets another timeout and fewer children. -/
theorem store {p : Nat} {rpc : AsyncRPC} (hp : (s.rpcs p).kind.isLeaf = false)
    (hk : rpc.kind = (s.rpcs p).kind) (hpar : rpc.parent = (s.rpcs p).parent)
    (hct : rpc.createtime = (s.rpcs p).createtime)
    (hc : rpc.children.Sublist (s.rpcs p).children) : Keeps s (s.store p rpc) := by
  have other : ∀ t, t = p ∨ (s.store p rpc).rpcs t = s.rpcs t := fun t =>
    or_iff_not_imp_left.mpr (s.store_ne rpc)
  refine ⟨rfl, rfl, rfl, fun t => ?_, fun t => ?_, fun t => ?_, fun t hl => ?_, fun t => ?_⟩ <;>
    obtain rfl | ht := other t
  · rw [s.store_self, hk]
  · rw [ht]
  · rw [s.store_self, hpar]
  · rw [ht]
  · rw [s.store_self, hct]
  · rw [ht]
  · rw [hp] at hl; cases hl
  · exact ht
  · rwa [s.store_self]
  · rw [ht]

theorem storeChildren {p : Nat} {children : List Nat} (hp : (s.rpcs p).kind.isLeaf = false)
    (hc : children.Sublist (s.rpcs p).children) : Keeps s (s.storeChildren p children) :=
  .store hp rfl rfl rfl hc

theorem forest {pend : List Nat} (h : Keeps s s') (hf : Forest pend s) : Forest pend s' where
  child p c hc := (h.parent c).trans (hf.child p c ((h.children p).subset hc))
  nodup p := (hf.nodup p).sublist (h.children p)
  leaf t hk := by
    rw [h.kind] at hk
    rw [h.leaf t hk]
    exact hf.leaf t hk
  parent c p hp := by
    rw [h.parent] at hp
    rw [h.kind, h.kind]
    exact hf.parent c p hp
  made t ht := by
    rw [h.made] at ht
    rw [h.total]
    exact hf.made t ht
  blank t ht := by
    rw [h.made, h.total] at ht
    obtain ⟨h1, h2⟩ := hf.blank t ht
    refine ⟨(h.leaf t (by simp [h1, AsyncRPC.blank, Kind.isLeaf])).trans h1, fun c => ?_⟩
    rw [h.parent]
    exact h2 c
  pend_nodup := hf.pend_nodup
  pend_root t ht := by
    rw [h.parent, h.made, h.total]
    exact hf.pend_root t ht

end Keeps

/-! ## Outcomes -/

/-- Neither requested nor ended. -/
def Untouched (s : AsyncRPCScheduler) (t : Nat) : Prop := t ∉ s.queueWait ∧ s.outcomes t = 0

/-- Waiting, and not in `D`: these are the RPCs that are being called or timed out. -/
def Open (D : List Nat) (s : AsyncRPCScheduler) (t : Nat) : Prop := t ∈ s.queueWait ∧ t ∉ D

/-- In the ready queue, a child of one that is, or not handed over yet. -/
def Idle (pend : List Nat) (s : AsyncRPCScheduler) (t : Nat) : Prop :=
  t ∈ pend ∨ (∃ q ∈ pend, (s.rpcs t).parent = some q) ∨ t ∈ s.made ∨ s.total < t

structure Sound (D pend : List Nat) (s : AsyncRPCScheduler) : Prop where
  once : ∀ t, s.outcomes t ≤ 1
  waiting : ∀ t, Open D s t → s.outcomes t = 0
  kids : ∀ p c, Open D s p → c ∈ (s.rpcs p).children → c ∉ D →
    s.outcomes c = 0 ∨ .timeouted c ∈ s.trace
  registered : ∀ p c, Open D s p → Open D s c → (s.rpcs c).parent = some p →
    c ∈ (s.rpcs p).children
  serials : ∀ p, Open D s p → (s.rpcs p).kind = .composite .serials →
    ∀ c ∈ (s.rpcs p).children.tail, Untouched s c
  idle : ∀ t, Idle pend s t → Untouched s t

theorem Sound.new : Sound [] [] .new := by
  constructor <;> simp [AsyncRPCScheduler.new, AsyncRPCScheduler.outcomes, Open, Untouched]

theorem outcomes_record (s : AsyncRPCScheduler) (e : Event) (t : Nat) :
    (s.record e).outcomes t = s.outcomes t + if e.outcome = some t then 1 else 0 := by
  simp [AsyncRPCScheduler.outcomes, AsyncRPCScheduler.record, List.countP_cons]

namespace Sound

variable {D pend : List Nat}

theorem not_idle (h : Sound D pend s) {t : Nat} (ht : t ∈ s.queueWait) : ¬ Idle pend s t :=
  fun hi => (h.idle t hi).1 ht

theorem child_not_idle (h : Sound D pend s) (hf : Forest pend s) {p c : Nat} (hp : p ∈ s.queueWait)
    (hc : c ∈ (s.rpcs p).children) : ¬ Idle pend s c := by
  have hpar := hf.child p c hc
  intro hi
  obtain hi | ⟨q, hq, hcq⟩ | hi := hi
  · rw [(hf.pend_root c hi).1] at hpar
    cases hpar
  · rw [hpar, Option.some.injEq] at hcq
    exact h.not_idle hp (.inl (hcq ▸ hq))
  · rw [(hf.blank c hi).1] at hpar
    cases hpar

theorem tail (h : Sound D pend s) : Sound D pend.tail s :=
  { h with
    idle := fun t ht => h.idle t <| by
      rcases ht with ht | ⟨q, hq, hp⟩ | ht
      · exact .inl (List.mem_of_mem_tail ht)
      · exact .inr (.inl ⟨q, List.mem_of_mem_tail hq, hp⟩)
      · exact .inr (.inr ht) }

/-- The queues and the trace stay as they are, and only children maps of composites that are not
open change. -/
theorem transfer (h : Sound D pend s) (hk : Keeps s s') (hw : s'.queueWait = s.queueWait)
    (htr : ∀ t, s'.outcomes t = s.outcomes t)
    (hto : ∀ t, .timeouted t ∈ s.trace → .timeouted t ∈ s'.trace)
    (hc : ∀ p, Open D s p → (s'.rpcs p).children = (s.rpcs p).children) : Sound D pend s' := by
  have hopen : ∀ t, Open D s' t ↔ Open D s t := fun t => by rw [Open, hw, Open]
  have hun : ∀ t, Untouched s' t ↔ Untouched s t := fun t => by rw [Untouched, hw, htr, Untouched]
  refine ⟨fun t => by rw [htr]; exact h.once t, fun t ht => ?_, fun p c hp hcp hD => ?_,
    fun p c hp hcp hpar => ?_, fun p hp hs c hcp => ?_, fun t ht => ?_⟩
  · rw [htr]
    exact h.waiting t ((hopen t).mp ht)
  · rw [hopen] at hp
    rw [hc p hp] at hcp
    rw [htr]
    exact (h.kids p c hp hcp hD).imp_right (hto c)
  · rw [hopen] at hp hcp
    rw [hk.parent] at hpar
    rw [hc p hp]
    exact h.registered p c hp hcp hpar
  · rw [hopen] at hp
    rw [hk.kind] at hs
    rw [hc p hp] at hcp
    exact (hun c).mpr (h.serials p hp hs c hcp)
  · rw [Idle, hk.parent, hk.made, hk.total] at ht
    exact (hun t).mpr (h.idle t ht)

/-- A child that is being called leaves the children map. -/
theorem erase (h : Sound D pend s) {p c : Nat} (hp : (s.rpcs p).kind.isLeaf = false) (hc : c ∈ D) :
    Sound D pend (s.storeChildren p ((s.rpcs p).children.erase c)) := by
  set s' := s.storeChildren p ((s.rpcs p).children.erase c)
  have hk : Keeps s s' := .storeChildren hp List.erase_sublist
  have children : ∀ q, (s'.rpcs q).children = (s.rpcs q).children ∨
      q = p ∧ (s'.rpcs q).children = (s.rpcs q).children.erase c := fun q => by
    by_cases hq : q = p
    · subst hq
      exact .inr ⟨rfl, by rw [s.storeChildren_self]⟩
    · exact .inl (by rw [s.storeChildren_ne _ hq])
  refine ⟨h.once, h.waiting, fun q x hq hx hD => h.kids q x hq ((hk.children q).subset hx) hD,
    fun q x hq hx hpar => ?_, fun q hq hs x hx => ?_, fun t ht => h.idle t ?_⟩
  · have hreg := h.registered q x hq hx ((hk.parent x).symm.trans hpar)
    rcases children q with he | ⟨rfl, he⟩ <;> rw [he]
    · exact hreg
    · have hxc : x ≠ c := fun hxc => hx.2 (hxc ▸ hc)
      exact (List.mem_erase_of_ne hxc).mpr hreg
  · have hser := h.serials q hq ((hk.kind q).symm.trans hs)
    rcases children q with he | ⟨rfl, he⟩ <;> rw [he] at hx
    · exact hser x hx
    · refine hser x ?_
      cases hcs : (s.rpcs q).children with
      | nil => simp [hcs] at hx
      | cons y ys =>
        rw [hcs] at hx
        by_cases hyc : y = c
        · rw [List.erase_cons, if_pos (by simp [hyc])] at hx
          exact List.mem_of_mem_tail hx
        · rw [List.erase_cons_tail (by simpa using hyc)] at hx
          exact List.mem_of_mem_erase hx
  · rwa [Idle, hk.parent, hk.made, hk.total] at ht

/-- An outcome of an RPC that has none yet. -/
theorem outcome (h : Sound D pend s) {e : Event} {t : Nat} (he : e.outcome = some t)
    (ht : s.outcomes t = 0) (hi : ¬ Idle pend s t)
    (hs : ∀ p, Open D s p → (s.rpcs p).kind = .composite .serials → t ∉ (s.rpcs p).children.tail) :
    Sound (t :: D) pend (s.record e) := by
  have same : ∀ x, x ≠ t → (s.record e).outcomes x = s.outcomes x := fun x hx => by
    rw [outcomes_record, he, if_neg (by simpa using Ne.symm hx), Nat.add_zero]
  have hopen : ∀ x, Open (t :: D) (s.record e) x → x ≠ t ∧ Open D s x := fun x hx =>
    ⟨fun hxt => hx.2 (by simp [hxt]), hx.1, fun hD => hx.2 (List.mem_cons_of_mem _ hD)⟩
  refine ⟨fun x => ?_, fun x hx => ?_, fun p c hp hc hD => ?_, fun p c hp hc hpar => ?_,
    fun p hp hk c hc => ?_, fun x hx => ?_⟩
  · rw [outcomes_record]
    split
    · rename_i hx
      rw [he, Option.some.injEq] at hx
      rw [← hx, ht]
    · exact h.once x
  · obtain ⟨hne, hx⟩ := hopen x hx
    rw [same x hne]
    exact h.waiting x hx
  · rw [List.mem_cons, not_or] at hD
    rw [same c hD.1]
    exact (h.kids p c (hopen p hp).2 hc hD.2).imp_right (List.mem_cons_of_mem _)
  · exact h.registered p c (hopen p hp).2 (hopen c hc).2 hpar
  · have hu := h.serials p (hopen p hp).2 hk c hc
    refine ⟨hu.1, ?_⟩
    rw [same c fun hct => hs p (hopen p hp).2 hk (hct ▸ hc)]
    exact hu.2
  · have hu := h.idle x hx
    refine ⟨hu.1, ?_⟩
    rw [same x fun hxt => hi (hxt ▸ hx)]
    exact hu.2

/-- An outcome of an RPC that is waiting for one. -/
theorem outcome_waiting (h : Sound D pend s) {e : Event} {t : Nat} (he : e.outcome = some t)
    (ht : Open D s t) : Sound (t :: D) pend (s.record e) :=
  h.outcome he (h.waiting t ht) (h.not_idle ht.1) fun p hp hk hc => (h.serials p hp hk t hc).1 ht.1

/-- The end of `triggerCall`, `triggerTimeout` and `triggerCancel`. -/
theorem unwait {t : Nat} (h : Sound (t :: D) pend s)
    (hc : ∀ p, Open (t :: D) s p → t ∈ (s.rpcs p).children → .timeouted t ∈ s.trace) :
    Sound D pend (s.unwait t) := by
  have hopen : ∀ x, Open D (s.unwait t) x → Open (t :: D) s x := fun x hx => by
    obtain ⟨h1, h2⟩ := Finset.mem_erase.mp hx.1
    exact ⟨h2, by simp [h1, hx.2]⟩
  have hun : ∀ x, Untouched s x → Untouched (s.unwait t) x := fun x hx =>
    ⟨fun hw => hx.1 (Finset.mem_of_mem_erase hw), hx.2⟩
  refine ⟨h.once, fun x hx => h.waiting x (hopen x hx), fun p c hp hcp hD => ?_,
    fun p c hp hc => h.registered p c (hopen p hp) (hopen c hc),
    fun p hp hk c hcp => hun c (h.serials p (hopen p hp) hk c hcp), fun x hx => hun x (h.idle x hx)⟩
  by_cases hct : c = t
  · subst hct
    exact .inr (hc p (hopen p hp) hcp)
  · exact h.kids p c (hopen p hp) hcp (by simp [hct, hD])

end Sound

/-! ## Requests -/

/-- What `triggerRequest` does before anyone else gets to act. -/
def register (s : AsyncRPCScheduler) (t : Nat) : AsyncRPCScheduler :=
  { s with
    queueWait := insert t s.queueWait
    waitByTime :=
      if (s.rpcs t).timeoutms = AsyncRPC.never then s.waitByTime
      else Lib.Ordered.insertEntry ((s.rpcs t).createtime, t) s.waitByTime
    trace := .request t :: s.trace }

theorem triggerRequest_eq (r : Reentry) (s : AsyncRPCScheduler) (t : Nat) :
    triggerRequest r s t = match (s.rpcs t).kind with
      | .leaf false => some (register s t)
      | .leaf true => r.triggerCall (register s t) t
      | .composite .serials => SerialsCallBack.request r (register s t) t
      | .composite .parallel => ParallelCallBack.request r (register s t) t := by
  rcases hk : (s.rpcs t).kind with (_ | _) | (_ | _) <;>
    by_cases ht : (s.rpcs t).timeoutms = AsyncRPC.never <;>
    simp only [triggerRequest, request, register, AsyncRPCScheduler.record, hk, ht,
      if_true, if_false]

theorem keeps_register (s : AsyncRPCScheduler) (t : Nat) : Keeps s (register s t) :=
  .of_rpcs rfl rfl rfl rfl

theorem outcomes_register (s : AsyncRPCScheduler) (t x : Nat) :
    (register s t).outcomes x = s.outcomes x := by
  simp [AsyncRPCScheduler.outcomes, register, Event.outcome]

theorem mem_register {t x : Nat} : x ∈ (register s t).queueWait ↔ x = t ∨ x ∈ s.queueWait :=
  Finset.mem_insert

theorem Untouched.register {t x : Nat} (h : Untouched s x) (hne : x ≠ t) :
    Untouched (register s t) x :=
  ⟨fun hw => (mem_register.mp hw).elim hne h.1, (outcomes_register ..).trans h.2⟩

/-- A request puts an RPC without outcome into the waiting queue. -/
theorem Sound.register {D pend : List Nat} (h : Sound D pend s) (hf : Forest pend s) {t : Nat}
    (ht : s.outcomes t = 0) (hi : ¬ Idle pend s t)
    (hkids : ∀ c, (s.rpcs c).parent = some t → Untouched s c)
    (hpar : ∀ p, Open D s p → (s.rpcs t).parent = some p → t ∈ (s.rpcs p).children ∧
      ((s.rpcs p).kind = .composite .serials → t ∉ (s.rpcs p).children.tail)) :
    Sound D pend (register s t) := by
  have hopen : ∀ x, Open D (Callback.register s t) x → x = t ∨ Open D s x := fun x hx =>
    (mem_register.mp hx.1).imp_right fun hw => ⟨hw, hx.2⟩
  refine ⟨fun x => ?_, fun x hx => ?_, fun p c hp hc hD => ?_, fun p c hp hc hcp => ?_,
    fun p hp hk c hc => ?_, fun x hx => (h.idle x hx).register fun hxt => hi (hxt ▸ hx)⟩
  · rw [outcomes_register]
    exact h.once x
  · rw [outcomes_register]
    rcases hopen x hx with rfl | hx
    · exact ht
    · exact h.waiting x hx
  · rw [outcomes_register]
    rcases hopen p hp with rfl | hp
    · exact .inl (hkids c (hf.child _ c hc)).2
    · exact (h.kids p c hp hc hD).imp_right (List.mem_cons_of_mem _)
  · rcases hopen p hp, hopen c hc with ⟨rfl | hp', rfl | hc'⟩
    · exact absurd rfl (hf.ne_parent hcp)
    · exact absurd hc'.1 (hkids c hcp).1
    · exact (hpar p hp' hcp).1
    · exact h.registered p c hp' hc' hcp
  · have hcp := hf.child p c (List.mem_of_mem_tail hc)
    have hne : c ≠ t := fun hct => by
      rcases hopen p hp with rfl | hp
      · exact hf.ne_parent hcp hct
      · exact (hpar p hp (hct ▸ hcp)).2 hk (hct ▸ hc)
    rcases hopen p hp with rfl | hp
    · exact (hkids c hcp).register hne
    · exact (h.serials p hp hk c hc).register hne

end TinyWorld.Callback
