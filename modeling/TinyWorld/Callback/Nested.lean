import TinyWorld.Callback.Steps

/-! # Whatever nested calls do

The laws in `Steps` are about schedulers that are used safely. What is here holds
of every call that returns: objects keep their places, and of the RPCs without a
parent only the one that is asked for is requested (`Calls`). -/
namespace TinyWorld.Callback

variable {s s₁ s' : AsyncRPCScheduler} {pend : List Nat} {x : Option Nat}

def AsyncRPCScheduler.requests (s : AsyncRPCScheduler) (t : Nat) : Nat :=
  s.trace.count (.request t)

structure Calls (x : Option Nat) (s s' : AsyncRPCScheduler) : Prop where
  keeps : Keeps s s'
  requests : ∀ t, (s.rpcs t).parent = none →
    s'.requests t = s.requests t + if x = some t then 1 else 0

namespace Calls

theorem of_keeps (hk : Keeps s s') (ht : s'.trace = s.trace) : Calls none s s' :=
  ⟨hk, fun t _ => by simp [AsyncRPCScheduler.requests, ht]⟩

theorem refl (s : AsyncRPCScheduler) : Calls none s s := .of_keeps (.refl s) rfl

theorem after (h : Calls x s s₁) (h' : Calls none s₁ s') : Calls x s s' := by
  refine ⟨h.keeps.trans h'.keeps, fun t ht => ?_⟩
  have hstep := h'.requests t ((h.keeps.parent t).trans ht)
  have hfirst := h.requests t ht
  simp only [reduceCtorEq, if_false, Nat.add_zero] at hstep
  rw [hstep, hfirst]

/-- The request of a child is none of an RPC without a parent. -/
theorem child {c p : Nat} (h : Calls (some c) s s') (hp : (s.rpcs c).parent = some p) :
    Calls none s s' := by
  refine ⟨h.keeps, fun t ht => ?_⟩
  have hne : c ≠ t := by
    intro he
    rw [he, ht] at hp
    cases hp
  have hreq := h.requests t ht
  rwa [if_neg (by simpa using hne)] at hreq

theorem record {e : Event} (he : ∀ t, e ≠ .request t) : Calls none s (s.record e) := by
  refine ⟨keeps_record s e, fun t _ => ?_⟩
  simp only [AsyncRPCScheduler.requests, AsyncRPCScheduler.record, reduceCtorEq, if_false,
    Nat.add_zero]
  exact List.count_cons_of_ne (he t)

theorem register (s : AsyncRPCScheduler) (t : Nat) : Calls (some t) s (register s t) := by
  refine ⟨keeps_register s t, fun x _ => ?_⟩
  simp [AsyncRPCScheduler.requests, Callback.register, List.count_cons]

theorem foldlM {α : Type} {f : AsyncRPCScheduler → α → Option AsyncRPCScheduler} {xs : List α}
    (hstep : ∀ s₁ x s₂, Keeps s s₁ → x ∈ xs → f s₁ x = some s₂ → Calls none s₁ s₂)
    (h : xs.foldlM f s = some s') : Calls none s s' := by
  suffices hgen : ∀ ys s₁, ys ⊆ xs → Calls none s s₁ → ys.foldlM f s₁ = some s' →
    Calls none s s' from hgen xs s (List.Subset.refl xs) (.refl s) h
  intro ys
  induction ys with
  | nil =>
    intro s₁ _ hc hs
    cases hs
    exact hc
  | cons y ys ih =>
    intro s₁ hsub hc hs
    rw [List.foldlM_cons, Option.bind_eq_bind, Option.bind_eq_some_iff] at hs
    obtain ⟨s₂, hs₂, hs⟩ := hs
    obtain ⟨hy, hsub⟩ := List.cons_subset.mp hsub
    exact ih s₂ hsub (hc.after (hstep s₁ y s₂ hc.keeps hy hs₂)) hs

end Calls

/-- A call of a child reaches its composite. -/
theorem triggerCall_childCalled {r : Reentry} {c p : Nat} (hp : (s.rpcs c).parent = some p)
    (h : triggerCall r s c = some s') :
    ∃ s₂, childCalled r (s.record (.called c)) p c = some s₂ ∧ s₂.unwait c = s' := by
  by_cases ha : s.alive p
  · rwa [triggerCall_child r hp ha, Option.map_eq_some_iff] at h
  · have hp' : ((s.record (.called c)).rpcs c).parent = some p := hp
    have ha' : ¬ (s.record (.called c)).alive p := ha
    simp only [triggerCall, hp', if_neg ha'] at h
    cases h

/-- What is asked of the entry points that RPC methods call back into. -/
structure Tame (r : Reentry) : Prop where
  requests : ∀ {pend s t s'}, Forest pend s → r.triggerRequest s t = some s' → Calls (some t) s s'
  calls : ∀ {pend s t s'}, Forest pend s → r.triggerCall s t = some s' → Calls none s s'
  cancels : ∀ {pend s t s'}, Forest pend s → r.triggerCancel s t = some s' → Calls none s s'

namespace Tame

variable {r : Reentry} {t p c : Nat}

/-- The children map of an RPC of any class is cleared. -/
theorem clear (hf : Forest pend s) (t : Nat) : Calls none s (s.storeChildren t []) := by
  by_cases hl : (s.rpcs t).kind.isLeaf = true
  · rw [AsyncRPCScheduler.storeChildren_nil (hf.leaf t hl)]
    exact .refl s
  · exact .of_keeps (.storeChildren (by simpa using hl) (List.nil_sublist _)) rfl

theorem canceled (hr : Tame r) (hf : Forest pend s) (h : AsyncRPC.canceled r s t = some s') :
    Calls none s s' := by
  rw [AsyncRPC.canceled, Option.bind_eq_bind, Option.bind_eq_some_iff] at h
  obtain ⟨s₁, hs₁, hs'⟩ := h
  cases hs'
  have hc : Calls none s s₁ := .foldlM (fun s₁ c s₂ hk _ hs₂ => hr.cancels (hk.forest hf) hs₂) hs₁
  exact hc.after (clear (hc.keeps.forest hf) t)

theorem triggerFirstRequest (hr : Tame r) (hf : Forest pend s)
    (h : SerialsCallBack.triggerFirstRequest r s p = some s') : Calls none s s' := by
  rw [SerialsCallBack.triggerFirstRequest] at h
  cases hc : (s.rpcs p).children with
  | nil =>
    rw [hc] at h
    cases h
    exact .refl s
  | cons c cs =>
    rw [hc] at h
    exact (hr.requests hf h).child (hf.child p c (by simp [hc]))

theorem requestChild (hr : Tame r) (hf : Forest pend s) (hc : (s.rpcs c).parent = some p)
    (h : ParallelCallBack.requestChild r p s c = some s') : Calls none s s' := by
  rw [ParallelCallBack.requestChild, Option.bind_eq_bind, Option.bind_eq_some_iff] at h
  obtain ⟨s₁, hs₁, h⟩ := h
  split at h
  · cases h
    exact (hr.requests hf hs₁).child hc
  · cases h

theorem request (hr : Tame r) (hf : Forest pend s) (h : triggerRequest r s t = some s') :
    Calls (some t) s s' := by
  have hreg := Calls.register s t
  have hf' := hreg.keeps.forest hf
  rw [triggerRequest_eq] at h
  split at h
  · cases h
    exact hreg
  · exact hreg.after (hr.calls hf' h)
  · exact hreg.after (hr.triggerFirstRequest hf' h)
  · exact hreg.after (.foldlM (fun s₁ c s₂ hk hc hs₂ =>
      hr.requestChild (hk.forest hf') ((hk.parent c).trans (hf'.child t c hc)) hs₂) h)

/-- The end of `childCalled`. -/
theorem complete (hr : Tame r) (hf : Forest pend s)
    (h : (if s.alive p then if (s.rpcs p).children = [] then r.triggerCall s p else some s
      else none) = some s') : Calls none s s' := by
  split at h
  · split at h
    · exact hr.calls hf h
    · cases h
      exact .refl s
  · cases h

theorem advance (hr : Tame r) (hf : Forest pend s)
    (h : SerialsCallBack.advance r s p = some s') : Calls none s s' := by
  rw [SerialsCallBack.advance, Option.bind_eq_bind, Option.bind_eq_some_iff] at h
  obtain ⟨s₁, hs₁, h⟩ := h
  have hfirst := hr.triggerFirstRequest hf hs₁
  exact hfirst.after (hr.complete (hfirst.keeps.forest hf) h)

theorem childCalled (hr : Tame r) (hf : Forest pend s) (hp : (s.rpcs p).kind.isLeaf = false)
    (h : childCalled r s p c = some s') : Calls none s s' := by
  have herase : Calls none s (s.storeChildren p ((s.rpcs p).children.erase c)) :=
    .of_keeps (.storeChildren hp List.erase_sublist) rfl
  have hf' := herase.keeps.forest hf
  obtain ⟨k, hk⟩ := Kind.eq_composite hp
  rw [Callback.childCalled, hk] at h
  cases k with
  | serials =>
    change SerialsCallBack.childCalled r s p c = some s' at h
    by_cases hc : (s.rpcs p).children.head? = some c
    · simp only [SerialsCallBack.childCalled, hc, if_true] at h
      exact herase.after (hr.advance hf' h)
    · simp only [SerialsCallBack.childCalled, hc, if_false, Option.bind_eq_bind,
        Option.bind_some] at h
      exact hr.complete hf h
  | parallel =>
    change ParallelCallBack.childCalled r s p c = some s' at h
    rw [ParallelCallBack.childCalled_eq] at h
    split at h
    · exact herase.after (hr.calls hf' h)
    · cases h
      exact herase

theorem call (hr : Tame r) (hf : Forest pend s) (h : triggerCall r s t = some s') :
    Calls none s s' := by
  have hrec : Calls none s (s.record (.called t)) := .record (by simp)
  cases hp : (s.rpcs t).parent with
  | none =>
    rw [triggerCall_root r hp] at h
    cases h
    exact hrec.after (.of_keeps (keeps_unwait _ t) rfl)
  | some p =>
    obtain ⟨s₁, hs₁, rfl⟩ := triggerCall_childCalled hp h
    have hchild := hr.childCalled (hrec.keeps.forest hf) (hf.parent t p hp).2 hs₁
    exact (hrec.after hchild).after (.of_keeps (keeps_unwait s₁ t) rfl)

theorem cancel (hr : Tame r) (hf : Forest pend s) (h : triggerCancel r s t = some s') :
    Calls none s s' := by
  rw [triggerCancel, Option.bind_eq_bind, Option.bind_eq_some_iff] at h
  obtain ⟨s₁, hs₁, hs'⟩ := h
  cases hs'
  have hrec : Calls none s (s.record (.canceled t)) := .record (by simp)
  exact (hrec.after (hr.canceled (hrec.keeps.forest hf) hs₁)).after
    (.of_keeps (keeps_unwait s₁ t) rfl)

theorem reentry (d : Nat) : Tame (reentry d) := by
  induction d with
  | zero =>
    refine ⟨?_, ?_, ?_⟩ <;>
    · intro _ _ _ _ _ h
      cases h
  | succ d ih =>
    refine ⟨fun hf h => ih.request hf h, fun {_ s t _} hf h => ?_, fun hf h => ih.cancel hf h⟩
    by_cases ht : t ∈ s.queueWait
    · rw [reentry_triggerCall d ht] at h
      exact ih.call hf h
    · rw [reentry_triggerCall_unknown d ht] at h
      cases h
      exact .refl s

theorem timeouted (hr : Tame r) (hf : Forest pend s) (h : timeouted r s t = some s') :
    Calls none s s' := by
  have hrec : Calls none s (s.record (.timeouted t)) := .record (by simp)
  cases hk : (s.rpcs t).kind with
  | leaf b =>
    simp only [Callback.timeouted, hk] at h
    cases h
    exact hrec
  | composite c =>
    rw [timeouted_composite r hk] at h
    exact hrec.after (hr.canceled (hrec.keeps.forest hf) h)

theorem childTimeouted (hp : (s.rpcs p).kind.isLeaf = false) :
    Calls none s (childTimeouted s p) := by
  obtain ⟨c, hk⟩ := Kind.eq_composite hp
  rw [childTimeouted_composite hk]
  exact .of_keeps (.setTimeout hp 0) rfl

theorem triggerTimeout (hr : Tame r) (hf : Forest pend s) (h : triggerTimeout r s t = some s') :
    Calls none s s' := by
  rw [Callback.triggerTimeout, Option.bind_eq_bind, Option.bind_eq_some_iff] at h
  obtain ⟨s₁, hs₁, h⟩ := h
  have hto := hr.timeouted hf hs₁
  cases hp : (s₁.rpcs t).parent with
  | none =>
    simp only [hp, Option.bind_some] at h
    cases h
    exact hto.after (.of_keeps (keeps_unwait s₁ t) rfl)
  | some p =>
    have hk := ((hto.keeps.forest hf).parent t p hp).2
    by_cases ha : s₁.alive p
    · simp only [hp, if_pos ha, Option.bind_some] at h
      cases h
      exact (hto.after (childTimeouted hk)).after (.of_keeps (keeps_unwait _ t) rfl)
    · simp only [hp, if_neg ha, Option.bind_none] at h
      cases h

end Tame

theorem AsyncRPCScheduler.checkTimeout_calls {now : Nat → Int} {its kept : List (Int × Nat)}
    (hf : Forest pend s) (h : checkTimeout now s its = some (s', kept)) : Calls none s s' := by
  induction its generalizing s s' kept with
  | nil =>
    cases h
    exact .refl s
  | cons it its ih =>
    rw [checkTimeout] at h
    split at h
    · split at h
      · rw [Option.bind_eq_bind, Option.bind_eq_some_iff] at h
        obtain ⟨s₁, hs₁, h⟩ := h
        have hone := (Tame.reentry s.depth).triggerTimeout hf hs₁
        exact hone.after (ih (hone.keeps.forest hf) h)
      · rw [Option.bind_eq_bind, Option.bind_eq_some_iff] at h
        obtain ⟨⟨s₁, kept₁⟩, hs₁, h⟩ := h
        cases h
        exact ih hf hs₁
    · exact ih hf h

end TinyWorld.Callback
