import TinyWorld.Callback.Machine
import TinyWorld.Callback.Submit

/-! # What is handed over and what is requested

An RPC that is handed over is pending until it is requested. -/
namespace TinyWorld.Callback

structure Ledger (s : AsyncRPCScheduler) (pending : List Nat) : Prop where
  forest : Forest s.queueReady s
  pos : ∀ id, id ∈ s.made ∨ id ∈ s.queueReady → 0 < id
  once : ∀ id, Handed s id → id ∉ pending → s.requests id = 1
  never : ∀ id, (s.rpcs id).parent = none → (Handed s id → id ∈ pending) → s.requests id = 0

namespace Ledger

variable {s s' : AsyncRPCScheduler} {pending : List Nat} {t : Nat}

theorem new : Ledger .new [] := by
  refine ⟨.new, ?_, ?_, ?_⟩
  · simp [AsyncRPCScheduler.new]
  · intro id hid _
    exact absurd hid.1 (Nat.not_lt_of_le hid.2.1)
  · intro id _ _
    rfl

/-- What is ready has been handed over. -/
theorem handed (h : Ledger s pending) (ht : t ∈ s.queueReady) : Handed s t := by
  obtain ⟨hroot, hmade, hle⟩ := h.forest.pend_root t ht
  exact ⟨h.pos t (.inr ht), hle, hmade, hroot⟩

theorem keeps_pos (h : Ledger s pending) (hk : Keeps s s') :
    ∀ id, id ∈ s'.made ∨ id ∈ s'.queueReady → 0 < id := by
  intro id hid
  rw [hk.made, hk.queueReady] at hid
  exact h.pos id hid

theorem calls (h : Ledger s pending) (hc : Calls none s s') : Ledger s' pending := by
  have hreq : ∀ id, (s.rpcs id).parent = none → s'.requests id = s.requests id := by
    intro id hroot
    simpa using hc.requests id hroot
  refine ⟨hc.keeps.queueReady ▸ hc.keeps.forest h.forest, h.keeps_pos hc.keeps, ?_, ?_⟩
  · intro id hid hnot
    have hid' := (hc.keeps.handed id).mp hid
    rw [hreq id hid'.2.2.2]
    exact h.once id hid' hnot
  · intro id hroot hin
    rw [hc.keeps.parent] at hroot
    rw [hreq id hroot]
    exact h.never id hroot fun hid => hin ((hc.keeps.handed id).mpr hid)

theorem enqueued (h : Ledger s s.queueReady) (hc : Calls none s s') :
    Ledger s' s'.queueReady := by
  rw [hc.keeps.queueReady]
  exact h.calls hc

/-- The head of what is pending is requested. -/
theorem request (h : Ledger s (t :: pending)) (ht : t ∈ s.queueReady) (hfresh : t ∉ pending)
    (hc : Calls (some t) s s') : Ledger s' pending := by
  have hhanded := h.handed ht
  have hself : s'.requests t = 1 := by
    rw [hc.requests t hhanded.2.2.2, if_pos rfl,
      h.never t hhanded.2.2.2 fun _ => List.mem_cons_self]
  have hother : ∀ id, id ≠ t → (s.rpcs id).parent = none → s'.requests id = s.requests id := by
    intro id hne hroot
    rw [hc.requests id hroot, if_neg (by simpa using Ne.symm hne), Nat.add_zero]
  refine ⟨hc.keeps.queueReady ▸ hc.keeps.forest h.forest, h.keeps_pos hc.keeps, ?_, ?_⟩
  · intro id hid hnot
    have hid' := (hc.keeps.handed id).mp hid
    by_cases hne : id = t
    · rw [hne, hself]
    · rw [hother id hne hid'.2.2.2]
      exact h.once id hid' (by simp [hne, hnot])
  · intro id hroot hin
    rw [hc.keeps.parent] at hroot
    have hne : id ≠ t := by
      intro he
      rw [he] at hin
      exact hfresh (hin ((hc.keeps.handed t).mpr hhanded))
    rw [hother id hne hroot]
    exact h.never id hroot fun hid => .tail _ (hin ((hc.keeps.handed id).mpr hid))

theorem enters (h : Ledger s s.queueReady) (hf : Forest s'.queueReady s') (ht : t ∈ s.made)
    (he : Enters t s s') : Ledger s' s'.queueReady := by
  have hreq : ∀ id, s'.requests id = s.requests id := by
    intro id
    rw [AsyncRPCScheduler.requests, he.trace, AsyncRPCScheduler.requests]
  refine ⟨hf, fun id hid => ?_, fun id hid hnot => ?_, fun id hroot hin => ?_⟩
  · obtain hmade | hready := hid
    · exact h.pos id (.inl (he.made hmade))
    · obtain rfl | hready := (he.ready id).mp hready
      · exact h.pos id (.inl ht)
      · exact h.pos id (.inr hready)
  · rw [he.ready, not_or] at hnot
    rw [hreq]
    exact h.once id (((he.handed id).mp hid).resolve_right hnot.1) hnot.2
  · rw [hreq]
    refine h.never id (he.root id hroot) fun hid => ?_
    obtain rfl | hready := (he.ready id).mp (hin ((he.handed id).mpr (.inl hid)))
    · exact absurd ht hid.2.2.1
    · exact hready

theorem handed_construct (s : AsyncRPCScheduler) (id : Nat) :
    Handed s.construct id ↔ Handed s id := by
  change 0 < id ∧ id ≤ s.total + 1 ∧ id ∉ insert (s.total + 1) s.made ∧ _ ↔ _
  rw [Finset.mem_insert, not_or]
  constructor
  · intro ⟨hpos, hle, ⟨hne, hmade⟩, hroot⟩
    exact ⟨hpos, by omega, hmade, hroot⟩
  · intro ⟨hpos, hle, hmade, hroot⟩
    exact ⟨hpos, by omega, ⟨by omega, hmade⟩, hroot⟩

theorem construct (h : Ledger s pending) : Ledger s.construct pending := by
  refine ⟨h.forest.construct, fun id hid => ?_, fun id hid hnot => ?_, fun id hroot hin => ?_⟩
  · obtain hmade | hready := hid
    · obtain rfl | hmade := Finset.mem_insert.mp hmade
      · exact Nat.succ_pos _
      · exact h.pos id (.inl hmade)
    · exact h.pos id (.inr hready)
  · exact h.once id ((handed_construct s id).mp hid) hnot
  · exact h.never id hroot fun hid => hin ((handed_construct s id).mpr hid)

theorem enters_insert (h : Ledger s pending) {sub : Submission} (hid : sub.id ∈ s.made) :
    Enters sub.id s (sub.insert s) := by
  have hpos := h.pos sub.id (.inl hid)
  cases sub with
  | call id rpc timeoutms => exact enters_call h.forest hid hpos rpc timeoutms
  | callByComposite c id rpc rpcs timeoutms =>
    exact enters_callByComposite c rpc rpcs timeoutms h.forest hid hpos

/-- An id that nobody has to hand over changes nothing. -/
theorem insert_unknown {sub : Submission} (hid : sub.id ∉ s.made) : sub.insert s = s := by
  cases sub with
  | call => exact if_neg hid
  | callByComposite => exact if_neg hid

theorem insert (h : Ledger s s.queueReady) (sub : Submission) :
    Ledger (sub.insert s) (sub.insert s).queueReady := by
  by_cases hid : sub.id ∈ s.made
  · refine h.enters ?_ hid (h.enters_insert hid)
    cases sub with
    | call id rpc timeoutms => exact h.forest.call id rpc timeoutms
    | callByComposite c id rpc rpcs timeoutms =>
      exact h.forest.callByComposite c rpc rpcs timeoutms id
  · rwa [insert_unknown hid]

theorem handed_insert (h : Ledger s pending) (sub : Submission) {id : Nat} (hid : Handed s id) :
    Handed (sub.insert s) id := by
  by_cases hsub : sub.id ∈ s.made
  · exact ((h.enters_insert hsub).handed id).mpr (.inl hid)
  · rwa [insert_unknown hsub]

/-- The ready queue is cleared when nothing is pending. -/
theorem clear (h : Ledger s []) : Ledger { s with queueReady := [] } [] := by
  have hf := h.forest
  refine ⟨⟨hf.child, hf.nodup, hf.leaf, hf.parent, hf.made, hf.blank, .nil, nofun⟩,
    fun id hid => ?_, h.once, h.never⟩
  exact h.pos id (.inl (hid.resolve_right (by simp)))

end Ledger

end TinyWorld.Callback
