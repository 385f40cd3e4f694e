import TinyWorld.Callback.Invariant

/-! # Replies and requests

A reply to a child advances its composite, and a serial composite that advances
requests its next child, which may reply at once. `Serving` is what the rest of
the chain needs to know; `Serving.advance` goes through it by induction on the
children left. -/
namespace TinyWorld.Callback

variable {s s' : AsyncRPCScheduler} {D pend : List Nat} {d p : Nat}

/-! ## Replies without a composite -/

/-- What `triggerCall` does to an RPC without a parent. -/
def settle (s : AsyncRPCScheduler) (t : Nat) : AsyncRPCScheduler := (s.record (.called t)).unwait t

theorem triggerCall_root (r : Reentry) {t : Nat} (hp : (s.rpcs t).parent = none) :
    triggerCall r s t = some (settle s t) := by
  have hp' : ((s.record (.called t)).rpcs t).parent = none := hp
  simp only [triggerCall, hp']
  rfl

theorem triggerCall_child (r : Reentry) {t : Nat} (hp : (s.rpcs t).parent = some p)
    (ha : s.alive p) :
    triggerCall r s t = (childCalled r (s.record (.called t)) p t).map (·.unwait t) := by
  have hp' : ((s.record (.called t)).rpcs t).parent = some p := hp
  have ha' : (s.record (.called t)).alive p := ha
  simp only [triggerCall, hp', if_pos ha']
  cases childCalled r (s.record (.called t)) p t <;> rfl

theorem reentry_triggerRequest (d : Nat) (s : AsyncRPCScheduler) (t : Nat) :
    (reentry (d + 1)).triggerRequest s t = triggerRequest (reentry d) s t := rfl

theorem reentry_triggerCall (d : Nat) {t : Nat} (ht : t ∈ s.queueWait) :
    (reentry (d + 1)).triggerCall s t = triggerCall (reentry d) s t := if_pos ht

theorem reentry_triggerCall_unknown (d : Nat) {t : Nat} (ht : t ∉ s.queueWait) :
    (reentry (d + 1)).triggerCall s t = some s := if_neg ht

theorem keeps_record (s : AsyncRPCScheduler) (e : Event) : Keeps s (s.record e) :=
  .of_rpcs rfl rfl rfl rfl

theorem keeps_unwait (s : AsyncRPCScheduler) (t : Nat) : Keeps s (s.unwait t) :=
  .of_rpcs rfl rfl rfl rfl

theorem keeps_settle (s : AsyncRPCScheduler) (t : Nat) : Keeps s (settle s t) :=
  .of_rpcs rfl rfl rfl rfl

theorem Sound.settle (h : Sound D pend s) (hf : Forest pend s) {t : Nat} (ht : Open D s t)
    (hp : (s.rpcs t).parent = none) : Sound D pend (settle s t) :=
  (h.outcome_waiting rfl ht).unwait fun q _ hc => by
    have := hf.child q t hc
    rw [hp] at this
    cases this

/-- The composite is complete. -/
theorem Sound.complete (h : Sound D pend s) (hf : Forest pend s) (hp : Open D s p)
    (hk : (s.rpcs p).kind.isLeaf = false) :
    (reentry (d + 1)).triggerCall s p = some (Callback.settle s p) ∧
      Sound D pend (Callback.settle s p) :=
  have hroot := hf.root hk
  ⟨(reentry_triggerCall d hp.1).trans (triggerCall_root _ hroot), h.settle hf hp hroot⟩

/-! ## Serial composites -/

namespace SerialsCallBack

/-- The rest of `childCalled` once the child is out of the children map. -/
def advance (r : Reentry) (s : AsyncRPCScheduler) (p : Nat) : Option AsyncRPCScheduler := do
  let s ← triggerFirstRequest r s p
  if s.alive p then
    if (s.rpcs p).children = [] then r.triggerCall s p else some s
  else none

theorem childCalled_first (r : Reentry) {c : Nat} {cs : List Nat}
    (hc : (s.rpcs p).children = c :: cs) :
    childCalled r s p c = advance r (s.storeChildren p cs) p := by
  simp only [childCalled, hc, List.head?_cons, if_true, List.erase_cons_head]
  rfl

theorem triggerFirstRequest_cons (r : Reentry) {c : Nat} {cs : List Nat}
    (hc : (s.rpcs p).children = c :: cs) : triggerFirstRequest r s p = r.triggerRequest s c := by
  simp only [triggerFirstRequest, hc, List.head?_cons]

theorem triggerFirstRequest_nil (r : Reentry) (hc : (s.rpcs p).children = []) :
    triggerFirstRequest r s p = some s := by
  simp only [triggerFirstRequest, hc, List.head?_nil]

theorem advance_nil (hp : p ∈ s.queueWait) (hroot : (s.rpcs p).parent = none)
    (hc : (s.rpcs p).children = []) : advance (reentry (d + 1)) s p = some (settle s p) := by
  have ha : s.alive p := .inl hp
  simp only [advance, triggerFirstRequest_nil _ hc, Option.bind_eq_bind,
    Option.bind_some, if_pos ha, hc, if_true, reentry_triggerCall d hp, triggerCall_root _ hroot]

theorem advance_later {c : Nat} {cs : List Nat} (hp : p ∈ s.queueWait)
    (hc : (s.rpcs p).children = c :: cs) (hk : (s.rpcs c).kind = .leaf false) :
    advance (reentry (d + 1)) s p = some (register s c) := by
  have ha : (register s c).alive p := .inl (mem_register.mpr (.inr hp))
  have hne : ((register s c).rpcs p).children ≠ [] := by
    change (s.rpcs p).children ≠ []
    rw [hc]
    exact List.cons_ne_nil _ _
  simp only [advance, triggerFirstRequest_cons _ hc, reentry_triggerRequest, triggerRequest_eq, hk,
    Option.bind_eq_bind, Option.bind_some, if_pos ha, if_neg hne]

end SerialsCallBack

open SerialsCallBack

/-- A serial composite whose remaining children `cs` are all still to be requested. If they all
reply inside their requests, the composite is gone before its own method returns, unless the ready
queue keeps it. -/
structure Serving (D pend : List Nat) (d p : Nat) (cs : List Nat) (s : AsyncRPCScheduler) :
    Prop where
  forest : Forest pend s
  sound : Sound D pend s
  waiting : Open D s p
  kind : (s.rpcs p).kind = .composite .serials
  children : (s.rpcs p).children = cs
  untouched : ∀ c ∈ cs, Untouched s c
  lives : p ∈ s.queueReady ∨ cs = [] ∨ ∃ c ∈ cs, (s.rpcs c).kind = .leaf false
  depth : 2 * cs.length < d

/-- The composite goes on waiting, or it is complete because all children replied at once. -/
def Went (p : Nat) (cs : List Nat) (s s' : AsyncRPCScheduler) : Prop :=
  p ∈ s'.queueWait ∧ (s'.rpcs p).children ≠ [] ∨
    p ∉ s'.queueWait ∧ (s'.rpcs p).children = [] ∧ ∀ c ∈ cs, (s.rpcs c).kind = .leaf true

/-- The next child has been requested and has replied. -/
def replied (s : AsyncRPCScheduler) (p c : Nat) (cs : List Nat) : AsyncRPCScheduler :=
  ((register s c).record (.called c)).storeChildren p cs

namespace Serving

variable {c : Nat} {cs : List Nat}

theorem isLeaf (h : Serving D pend d p cs s) : (s.rpcs p).kind.isLeaf = false := by
  rw [h.kind]
  rfl

theorem child (h : Serving D pend d p (c :: cs) s) :
    (s.rpcs c).parent = some p ∧ c ∉ cs ∧ s.outcomes c = 0 ∧ ¬ Idle pend s c ∧
      ∃ b, (s.rpcs c).kind = .leaf b := by
  have hc : c ∈ (s.rpcs p).children := by simp [h.children]
  have hp := h.forest.child p c hc
  have hn := h.forest.nodup p
  rw [h.children] at hn
  refine ⟨hp, (List.nodup_cons.mp hn).1, (h.untouched c (by simp)).2,
    h.sound.child_not_idle h.forest h.waiting.1 hc, ?_⟩
  have hl := (h.forest.parent c p hp).1
  cases hk : (s.rpcs c).kind with
  | leaf b => exact ⟨b, rfl⟩
  | composite x =>
    rw [hk] at hl
    cases hl

/-- The only composite that could object to what is done to a child is its own. -/
theorem own (h : Serving D pend d p (c :: cs) s) {q : Nat} (hq : (s.rpcs c).parent = some q) :
    c ∈ (s.rpcs q).children ∧ c ∉ (s.rpcs q).children.tail := by
  obtain ⟨hp, hc, -⟩ := h.child
  rw [hp, Option.some.injEq] at hq
  rw [← hq, h.children]
  exact ⟨by simp, hc⟩

theorem register (h : Serving D pend d p (c :: cs) s) : Sound D pend (register s c) := by
  obtain ⟨hp, -, ho, hi, b, hk⟩ := h.child
  exact h.sound.register h.forest ho hi
    (fun x hx => absurd hx (h.forest.ne_leaf (by simp [hk, Kind.isLeaf]) x))
    fun q _ hq => ⟨(h.own hq).1, fun _ => (h.own hq).2⟩

theorem keeps_replied (h : Serving D pend d p (c :: cs) s) : Keeps s (replied s p c cs) := by
  refine (keeps_register s c).trans
    ((keeps_record _ (.called c)).trans (.storeChildren h.isLeaf ?_))
  change cs.Sublist (s.rpcs p).children
  rw [h.children]
  exact List.sublist_cons_self ..

/-- The next child replies inside its request. -/
theorem reply (h : Serving D pend d p (c :: cs) s) (hk : (s.rpcs c).kind = .leaf true) :
    Serving (c :: D) pend (d - 2) p cs (replied s p c cs) := by
  obtain ⟨hp, hc, ho, hi, -⟩ := h.child
  have hkeeps := h.keeps_replied
  have hsound : Sound (c :: D) pend ((Callback.register s c).record (.called c)) :=
    h.register.outcome rfl ((outcomes_register ..).trans ho) hi fun q _ _ hm =>
      (h.own (h.forest.child q c (List.mem_of_mem_tail hm))).2 hm
  have herase : (((Callback.register s c).record (.called c)).rpcs p).children.erase c = cs := by
    change (s.rpcs p).children.erase c = cs
    rw [h.children, List.erase_cons_head]
  have hsound' := hsound.erase (p := p) h.isLeaf List.mem_cons_self
  rw [herase] at hsound'
  refine ⟨hkeeps.forest h.forest, hsound', ⟨mem_register.mpr (.inr h.waiting.1), ?_⟩,
    (hkeeps.kind p).trans h.kind, ?_, fun x hx => ?_, ?_, ?_⟩
  · simpa [Ne.symm (h.forest.ne_parent hp)] using h.waiting.2
  · rw [replied, AsyncRPCScheduler.storeChildren_self]
  · have hxc : x ≠ c := fun hxc => hc (hxc ▸ hx)
    obtain ⟨hw, hox⟩ := (h.untouched x (List.mem_cons_of_mem _ hx)).register hxc
    refine ⟨hw, ?_⟩
    rw [← hox]
    exact (outcomes_record ..).trans (by simp [Event.outcome, Ne.symm hxc])
  · rcases h.lives with hl | hl | ⟨x, hx, hkx⟩
    · exact .inl hl
    · cases hl
    · rcases List.mem_cons.mp hx with rfl | hx
      · rw [hk] at hkx
        cases hkx
      · exact .inr (.inr ⟨x, hx, (hkeeps.kind x).trans hkx⟩)
  · have := h.depth
    rw [List.length_cons] at this
    omega

/-- What a request does, given what the rest of the chain does. -/
theorem first (h : Serving D pend d p (c :: cs) s)
    (hrest : ∀ {D d s}, Serving D pend d p cs s → ∃ s', advance (reentry d) s p = some s' ∧
      Sound D pend s' ∧ Keeps s s' ∧ Went p cs s s') :
    ∃ s', triggerFirstRequest (reentry d) s p = some s' ∧ Sound D pend s' ∧ Keeps s s' ∧
      Went p (c :: cs) s s' := by
  obtain ⟨hp, hc, -, -, b, hk⟩ := h.child
  have hd := h.depth
  obtain ⟨d, rfl⟩ : ∃ d', d = d' + 2 := ⟨d - 2, by rw [List.length_cons] at hd; omega⟩
  rw [triggerFirstRequest_cons _ h.children, reentry_triggerRequest, triggerRequest_eq, hk]
  have hw : p ∈ (Callback.register s c).queueWait := mem_register.mpr (.inr h.waiting.1)
  have hchildren : ((Callback.register s c).rpcs p).children = c :: cs := h.children
  cases b with
  | false =>
    refine ⟨_, rfl, h.register, keeps_register s c, .inl ⟨hw, ?_⟩⟩
    rw [hchildren]
    exact List.cons_ne_nil _ _
  | true =>
    obtain ⟨s', hs', hsound, hkeeps, hwent⟩ := hrest (h.reply hk)
    have hkeeps' := h.keeps_replied.trans hkeeps
    have hchild : Callback.childCalled (reentry d)
      ((Callback.register s c).record (.called c)) p c =
        some s' := by
      have hkind : (((Callback.register s c).record (.called c)).rpcs p).kind =
        .composite .serials := h.kind
      rw [Callback.childCalled, hkind]
      exact (childCalled_first (s := (Callback.register s c).record (.called c)) _ hchildren).trans
        hs'
    refine ⟨s'.unwait c, ?_, hsound.unwait fun q _ hq => ?_, hkeeps'.trans (keeps_unwait ..), ?_⟩
    · change (reentry (d + 1)).triggerCall (Callback.register s c) c = _
      rw [reentry_triggerCall d (mem_register.mpr (.inl rfl)),
        triggerCall_child (s := Callback.register s c) _ hp (.inl hw), hchild, Option.map_some]
    · -- the child has left the children map
      have hq' := (h.own (h.forest.child q c ((hkeeps'.children q).subset hq))).1
      have hpq : p = q := Option.some.inj (hp.symm.trans (h.forest.child q c hq'))
      have := (hkeeps.children q).subset hq
      rw [replied, ← hpq, AsyncRPCScheduler.storeChildren_self] at this
      exact absurd this hc
    · have hne : p ≠ c := (h.forest.ne_parent hp).symm
      rcases hwent with ⟨hw', hcs⟩ | ⟨hw', hcs, hall⟩
      · exact .inl ⟨Finset.mem_erase.mpr ⟨hne, hw'⟩, hcs⟩
      · refine .inr ⟨fun hw'' => hw' (Finset.mem_of_mem_erase hw''), hcs, fun x hx => ?_⟩
        rcases List.mem_cons.mp hx with rfl | hx
        · exact hk
        · rw [← h.keeps_replied.kind]
          exact hall x hx

/-- **The chain.** -/
theorem advance (h : Serving D pend d p cs s) :
    ∃ s', SerialsCallBack.advance (reentry d) s p = some s' ∧ Sound D pend s' ∧ Keeps s s' ∧
      Went p cs s s' := by
  induction cs generalizing D d s with
  | nil =>
    obtain ⟨d, rfl⟩ : ∃ d', d = d' + 1 := ⟨d - 1, by have := h.depth; omega⟩
    refine ⟨settle s p, advance_nil h.waiting.1 (h.forest.root h.isLeaf) h.children,
      h.sound.settle h.forest h.waiting (h.forest.root h.isLeaf), keeps_settle s p,
      .inr ⟨Finset.notMem_erase _ _, h.children, ?_⟩⟩
    simp
  | cons c cs ih =>
    obtain ⟨s', hs', hsound, hkeeps, hwent⟩ := h.first ih
    refine ⟨s', ?_, hsound, hkeeps, hwent⟩
    simp only [SerialsCallBack.advance, hs', Option.bind_eq_bind, Option.bind_some]
    rcases hwent with ⟨hw, hcs⟩ | ⟨hw, hcs, hall⟩
    · rw [if_pos (.inl hw), if_neg hcs]
    · have hready : p ∈ s.queueReady := by
        rcases h.lives with hl | hl | ⟨x, hx, hkx⟩
        · exact hl
        · cases hl
        · rw [hall x hx] at hkx
          cases hkx
      have ha : s'.alive p := .inr (hkeeps.queueReady ▸ hready)
      obtain ⟨d, rfl⟩ : ∃ d', d = d' + 1 := ⟨d - 1, by have := h.depth; omega⟩
      rw [if_pos ha, if_pos hcs, reentry_triggerCall_unknown d hw]

/-- `request` of a serial composite. -/
theorem request (h : Serving D pend d p cs s) :
    ∃ s', SerialsCallBack.request (reentry d) s p = some s' ∧ Sound D pend s' ∧ Keeps s s' := by
  cases cs with
  | nil => exact ⟨s, triggerFirstRequest_nil _ h.children, h.sound, .refl s⟩
  | cons c cs =>
    obtain ⟨s', hs', hsound, hkeeps, -⟩ := h.first Serving.advance
    exact ⟨s', hs', hsound, hkeeps⟩

end Serving

end TinyWorld.Callback
